import Alpine.Sanity.Tar
import Alpine.Spec.AbuildTar

/-! What `abuild-tar --hash` makes of an archive. An archive is a list of entries, each with or without
a pax header, and the output is again one, entry by entry; what is left is whether the pax headers
of the output are well formed. -/

namespace Alpine

open List

inductive PaxRecords : Bytes → List (Bytes × Bytes) → Prop
  | nil : PaxRecords [] []
  | cons {len : ℕ} {key value rest : Bytes} {kvs : List (Bytes × Bytes)} : asc '=' ∉ key →
      (extRecord len key value).length = len → PaxRecords rest kvs →
      PaxRecords (extRecord len key value ++ rest) ((key, value) :: kvs)

/-- a pax header, its records, and what fills up the last block -/
structure PaxPart where
  hdr : TarHeader
  records : Bytes
  pad : Bytes

structure TarPart where
  pax : Option PaxPart
  hdr : TarHeader
  data : Bytes

open TarPart

def PaxPart.bytes (p : PaxPart) : Bytes := p.hdr.bytes ++ (p.records ++ p.pad)

def TarPart.bytes (t : TarPart) : Bytes := (t.pax.elim [] PaxPart.bytes) ++ (t.hdr.bytes ++ t.data)

def tarBytes (parts : List TarPart) (zeros : ℕ) : Bytes :=
  parts.flatMap TarPart.bytes ++ List.replicate (512 * zeros) 0

/-- a header for `n` bytes of data -/
structure TarHeaderOk (hdr : TarHeader) (n : ℕ) : Prop where
  sized : hdr.Sized
  name : hdr.name.head?.getD 0 ≠ 0
  magic : hdr.magic.take 5 = ascs ['u', 's', 't', 'a', 'r']
  size : getOctal hdr.size = (n, true)
  sum : (getOctal hdr.chksum).1 = hdr.sum

structure PaxPart.Ok (p : PaxPart) : Prop where
  hdr : TarHeaderOk p.hdr p.records.length
  typeflag : p.hdr.typeflag = asc 'x'
  pad : p.pad.length = roundUp p.records.length 512 - p.records.length
  records : ∃ kvs, PaxRecords p.records kvs

/-- the size of the data is the one in the header -/
structure TarPart.Ok (t : TarPart) : Prop where
  hdr : ∃ n, TarHeaderOk t.hdr n ∧ t.data.length = roundUp n 512
  typeflag : t.hdr.typeflag ≠ asc 'x'
  pax : ∀ p, t.pax = some p → p.Ok

def TarPart.Attrs (t : TarPart) (kvs : List (Bytes × Bytes)) : Prop :=
  PaxRecords (t.pax.elim [] PaxPart.records) kvs

/-- regular files and symbolic links -/
def TarPart.Hashed (t : TarPart) : Prop :=
  t.hdr.typeflag = asc '0' ∨ t.hdr.typeflag = asc '7' ∨ t.hdr.typeflag = asc '2'

instance (t : TarPart) : Decidable t.Hashed := inferInstanceAs (Decidable (_ ∨ _ ∨ _))

/-- what the digest is of -/
def TarPart.payload (t : TarPart) : Bytes :=
  if t.hdr.typeflag ≠ asc '2' then t.data.take (getOctal t.hdr.size).1 else cstr t.hdr.linkname

def checksumRecord (md : EvpMd) (payload : Bytes) : Bytes :=
  extRecord (extRecordLen (checksumHdr md) (md.digest payload)) (checksumHdr md)
    (hexText (md.digest payload))

def zeroPad (n : ℕ) : Bytes := List.replicate (roundUp n 512 - n) 0

def PaxPart.add (p : PaxPart) (record : Bytes) : PaxPart where
  hdr := tarhdrChecksum { p.hdr with size := putOctal 12 (p.records ++ record).length true }
  records := p.records ++ record
  pad := zeroPad (p.records ++ record).length

/-- An entry as `abuild-tar --hash` writes it: without a pax header the record goes into a header of
zeros, and a pax header without records is left out. -/
def hashPart (md : EvpMd) (t : TarPart) : TarPart :=
  let p := t.pax.getD ⟨zeroHeader, [], []⟩
  if t.Hashed then { t with pax := some (p.add (checksumRecord md t.payload)) }
  else { t with
    pax := if p.records = [] then none else some { p with pad := zeroPad p.records.length } }

section

variable {md : EvpMd} {cut : Bool} {splice : Option ℤ}

/-- the printed length of the checksum record is its length -/
def EvpMd.Fits (md : EvpMd) : Prop :=
  ∀ b, (checksumRecord md b).length = extRecordLen (checksumHdr md) (md.digest b)

/-- `splice` moves data of this size, or fails in the one way that the loop over blocks is for -/
def CopyOk (splice : Option ℤ) (n : ℕ) : Prop :=
  n = 0 ∨ splice = none ∧ n < 2 ^ 31 ∨ splice = some 1

variable (b : Buf) {data rest : Bytes} {n : ℕ} {st : AbuildTar} {p : PaxPart} {t : TarPart}

theorem bufReadFd_append (rest : Bytes) (h : data.length = n) :
    bufReadFd b (data ++ rest) n = some ({ bufResize b n with bytes := data }, rest) := by
  subst h
  rw [bufReadFd, if_neg (by simp), take_left, drop_left]

theorem bufResize_bytes : (bufResize b n).bytes = b.bytes := by
  unfold bufResize
  split_ifs <;> rfl

theorem bufResize_alloc (n : ℕ) : n ≤ (bufResize b n).alloc := by
  unfold bufResize
  split_ifs with h
  · exact h
  · exact le_rfl

theorem bufPadto_bytes : (bufPadto b 512).bytes = b.bytes ++ zeroPad b.bytes.length := by
  rw [bufPadto]
  simp [bufResize_bytes, zeroPad]

theorem bufAdd_fits (hfits : md.Fits) (b : Buf) (payload : Bytes) :
    ∃ alloc, bufAddExtHeaderHexdump b (checksumHdr md) (md.digest payload) =
      some ⟨b.bytes ++ checksumRecord md payload, alloc⟩ := by
  have hroom := bufResize_alloc b (b.bytes.length + extRecordLen (checksumHdr md) (md.digest payload))
  rw [← hfits payload] at hroom
  rw [bufAddExtHeaderHexdump]
  simp only [bufResize_bytes]
  rw [← checksumRecord, ← hfits payload, if_neg (by omega)]
  exact ⟨_, rfl⟩

theorem abuildTarBlocks_copy (n : ℕ) (rest : Bytes) (st : AbuildTar) (hdata : data.length = 512 * n)
    (hin : st.stdin = data ++ rest) :
    abuildTarBlocks n st = .ok { st with stdin := rest, stdout := st.stdout ++ data } := by
  induction n generalizing data st with
  | zero =>
    obtain rfl : data = [] := eq_nil_of_length_eq_zero (by omega)
    rw [nil_append] at hin
    rw [abuildTarBlocks, append_nil, ← hin]
  | succ n ih =>
    rw [abuildTarBlocks, if_neg (by rw [hin, length_append]; omega)]
    have hlen : (data.drop 512).length = 512 * n := by
      rw [length_drop]
      omega
    rw [ih _ hlen (by rw [hin, drop_append_of_le_length (by omega)])]
    simp only [hin, append_assoc]
    rw [take_append_of_le_length (by omega), take_append_drop]

theorem abuildTarCopy_ok (hcopy : CopyOk splice n) (hdata : data.length = n) (hblocks : n % 512 = 0)
    (hin : st.stdin = data ++ rest) :
    abuildTarCopy splice n st = .ok { st with stdin := rest, stdout := st.stdout ++ data } := by
  by_cases hn : n = 0
  · obtain rfl : data = [] := eq_nil_of_length_eq_zero (by omega)
    rw [nil_append] at hin
    rw [abuildTarCopy, if_pos hn, append_nil, ← hin]
  rw [abuildTarCopy, if_neg hn]
  rcases hcopy with h | ⟨rfl, hlt⟩ | rfl
  · exact absurd h hn
  · have htake : st.stdin.take n = data := by rw [hin, ← hdata, take_left]
    have hint : toInt32 n = n := by
      unfold toInt32
      omega
    simp only [Option.isSome_none, Bool.false_eq_true, if_false, Option.map_none, Option.getD_none,
      htake, hdata, hint]
    rw [if_neg (by omega), if_neg (not_not.2 rfl), hin, ← hdata, drop_left]
  · simp only [Option.isSome_some, if_true, append_nil]
    exact abuildTarBlocks_copy (n / 512) rest _ (by omega) hin

structure AbuildTar.Idle (st : AbuildTar) : Prop where
  paxhdr : st.paxhdr = zeroHeader
  pax : st.pax.bytes = []

/-- before the header of an entry: the pax header was read -/
structure AbuildTar.Loaded (st : AbuildTar) (p : PaxPart) : Prop where
  paxhdr : st.paxhdr = p.hdr
  pax : st.pax.bytes = p.records

variable {hdr : TarHeader} {parts : List TarPart} {fuel zeros : ℕ}

theorem TarHeaderOk.get (h : TarHeaderOk hdr n) : abuildGetOctal hdr.size = n :=
  congrArg Prod.fst h.size

theorem abuildTarRound_header (hsized : hdr.Sized) (hname : cut = true → hdr.name.head?.getD 0 ≠ 0)
    (hin : st.stdin = hdr.bytes ++ rest) :
    abuildTarRound (some md) cut splice st =
      if hdr.typeflag = asc 'x' then abuildTarExt hdr { st with stdin := rest }
      else abuildTarEntry (some md) splice hdr.bytes hdr { st with stdin := rest } := by
  have hlen := hsized.length
  have htake : st.stdin.take 512 = hdr.bytes := by rw [hin, ← hlen, take_left]
  have hdrop : st.stdin.drop 512 = rest := by rw [hin, ← hlen, drop_left]
  rw [abuildTarRound, if_neg (by rw [hin, length_append]; omega)]
  simp only [htake, hdrop, TarHeader.ofBytes_bytes hsized]
  rw [if_neg]
  rintro ⟨h1, h2⟩
  exact hname h1 h2

variable (md cut splice) in
theorem abuildTarRound_pax (hp : p.Ok) (hin : st.stdin = p.bytes ++ rest) :
    ∃ st', abuildTarRound (some md) cut splice st = .ok st' ∧ st'.Loaded p ∧ st'.stdin = rest ∧
      st'.stdout = st.stdout := by
  have hsize := hp.hdr.get
  have hlen : (p.records ++ p.pad).length = roundUp p.records.length 512 := by
    rw [length_append, hp.pad]
    have := le_roundUp (x := p.records.length) (a := 512) (by norm_num)
    omega
  rw [PaxPart.bytes, append_assoc] at hin
  rw [abuildTarRound_header hp.hdr.sized (fun _ => hp.hdr.name) hin, if_pos hp.typeflag, abuildTarExt]
  simp only [hsize]
  rw [bufReadFd_append _ _ hlen]
  exact ⟨_, rfl, ⟨rfl, take_left⟩, rfl, rfl⟩

theorem abuildTarPax_bytes :
    abuildTarPax st = { st with
      pax := (abuildTarPax st).pax
      stdout := st.stdout ++ if st.pax.bytes = [] then [] else
        st.paxhdr.bytes ++ (st.pax.bytes ++ zeroPad st.pax.bytes.length) } := by
  unfold abuildTarPax
  split_ifs with h
  · rw [append_nil]
  · simp [bufPadto_bytes]

theorem abuildTarHash_ok (hfits : md.Fits) (hhdr : TarHeaderOk t.hdr n)
    (hdata : t.data.length = roundUp n 512) (hst : st.Loaded p) (hin : st.stdin = t.data ++ rest) :
    ∃ st', abuildTarHash md t.hdr n (roundUp n 512) st = .ok st' ∧ st'.stdin = rest ∧
      st'.stdout = st.stdout ∧ st'.data.bytes = t.data ∧
      st'.Loaded (p.add (checksumRecord md t.payload)) := by
  obtain ⟨alloc, hadd⟩ := bufAdd_fits hfits st.pax t.payload
  have hdigest : (if t.hdr.typeflag ≠ asc '2' then md.digest (t.data.take n)
      else md.digest (cstr t.hdr.linkname)) = md.digest t.payload := by
    rw [TarPart.payload, hhdr.size]
    split_ifs <;> rfl
  rw [abuildTarHash, hin, bufReadFd_append _ _ hdata]
  simp only [hdigest, hadd]
  refine ⟨_, rfl, rfl, rfl, rfl, ?_, ?_⟩
  · simp only [hst.paxhdr, hst.pax]
    rfl
  · simp only [hst.pax]
    rfl

theorem dohash_some : dohash (some md) t.hdr = decide t.Hashed := by
  rw [Bool.eq_iff_iff, decide_eq_true_iff]
  simp [dohash, TarPart.Hashed]

theorem abuildTarEntry_hashed (hfits : md.Fits) (hok : t.Ok) (hhash : t.Hashed) (st : AbuildTar)
    (hst : st.Loaded p) (hin : st.stdin = t.data ++ rest) :
    ∃ st', abuildTarEntry (some md) splice t.hdr.bytes t.hdr st = .ok st' ∧ st'.Idle ∧ st'.stdin = rest ∧
      st'.stdout =
        st.stdout ++ ((p.add (checksumRecord md t.payload)).bytes ++ (t.hdr.bytes ++ t.data)) := by
  obtain ⟨n, hhdr, hdata⟩ := hok.hdr
  obtain ⟨st₁, h₁, hin₁, hout₁, hdata₁, hload⟩ := abuildTarHash_ok hfits hhdr hdata hst hin
  have hne : (p.add (checksumRecord md t.payload)).records ≠ [] := by
    simp [PaxPart.add, checksumRecord, extRecord]
  rw [abuildTarEntry]
  simp only [dohash_some, decide_eq_true hhash, hhdr.get, h₁]
  refine ⟨_, rfl, ⟨rfl, rfl⟩, ?_, ?_⟩
  · rw [abuildTarPax_bytes]
    exact hin₁
  · rw [abuildTarPax_bytes]
    simp only [hout₁, hdata₁, hload.paxhdr, hload.pax, if_neg hne, PaxPart.bytes, append_assoc]
    rfl

theorem abuildTarEntry_plain (hok : t.Ok) (hhash : ¬ t.Hashed) (hcopy : CopyOk splice t.data.length)
    (st : AbuildTar) (hst : st.Loaded p) (hin : st.stdin = t.data ++ rest) :
    ∃ st', abuildTarEntry (some md) splice t.hdr.bytes t.hdr st = .ok st' ∧ st'.Idle ∧ st'.stdin = rest ∧
      st'.stdout = st.stdout ++ ((if p.records = [] then [] else
        p.hdr.bytes ++ (p.records ++ zeroPad p.records.length)) ++ (t.hdr.bytes ++ t.data)) := by
  obtain ⟨n, hhdr, hdata⟩ := hok.hdr
  rw [abuildTarEntry]
  simp only [dohash_some, decide_eq_false hhash, hhdr.get, bind, Except.bind]
  rw [abuildTarPax_bytes, abuildTarCopy_ok (hdata ▸ hcopy) hdata roundUp_mod (by exact hin)]
  refine ⟨_, rfl, ⟨rfl, rfl⟩, rfl, ?_⟩
  simp [hst.paxhdr, hst.pax]

/-- what an entry needs: `splice` has to copy it, if it is not hashed -/
def TarPart.Copied (splice : Option ℤ) (t : TarPart) : Prop := ¬ t.Hashed → CopyOk splice t.data.length

/-- the pax header that the record is added to -/
abbrev TarPart.paxPart (t : TarPart) : PaxPart := t.pax.getD ⟨zeroHeader, [], []⟩

theorem hashPart_bytes (md : EvpMd) (t : TarPart) : (hashPart md t).bytes =
      (if t.Hashed then (t.paxPart.add (checksumRecord md t.payload)).bytes
        else if t.paxPart.records = [] then []
        else t.paxPart.hdr.bytes ++ (t.paxPart.records ++ zeroPad t.paxPart.records.length)) ++
        (t.hdr.bytes ++ t.data) := by
  unfold hashPart bytes
  by_cases h1 : t.Hashed
  · simp [if_pos h1]
  simp only
  split_ifs with h2
  · rfl
  · rfl

variable (cut) in
theorem abuildTarRound_entry (hfits : md.Fits) (hok : t.Ok) (hcopy : t.Copied splice)
    (hst : st.Loaded t.paxPart)
    (hin : st.stdin = t.hdr.bytes ++ (t.data ++ rest)) :
    ∃ st', abuildTarRound (some md) cut splice st = .ok st' ∧ st'.Idle ∧ st'.stdin = rest ∧
      st'.stdout = st.stdout ++ (hashPart md t).bytes := by
  obtain ⟨n, hhdr, hdata⟩ := hok.hdr
  rw [abuildTarRound_header hhdr.sized (fun _ => hhdr.name) hin, if_neg hok.typeflag, hashPart_bytes]
  by_cases h : t.Hashed
  · rw [if_pos h]
    exact abuildTarEntry_hashed hfits hok h { st with stdin := t.data ++ rest } ⟨hst.paxhdr, hst.pax⟩ rfl
  · rw [if_neg h]
    exact abuildTarEntry_plain hok h (hcopy h) { st with stdin := t.data ++ rest }
      ⟨hst.paxhdr, hst.pax⟩ rfl

theorem abuildTarLoop_ok {st' : AbuildTar} (h : abuildTarRound (some md) cut splice st = .ok st')
    (fuel : ℕ) :
    abuildTarLoop (some md) cut splice (fuel + 1) st = abuildTarLoop (some md) cut splice fuel st' := by
  rw [abuildTarLoop, h]

variable (cut) in
theorem abuildTarLoop_part (hfits : md.Fits) (hok : t.Ok) (hcopy : t.Copied splice) (hst : st.Idle)
    (hin : st.stdin = t.bytes ++ rest) :
    ∃ st' j, j ≤ t.bytes.length ∧ (∀ fuel, abuildTarLoop (some md) cut splice (fuel + j) st =
        abuildTarLoop (some md) cut splice fuel st') ∧
      st'.Idle ∧ st'.stdin = rest ∧ st'.stdout = st.stdout ++ (hashPart md t).bytes := by
  obtain ⟨n, hhdr, hdata⟩ := hok.hdr
  have hlen := hhdr.sized.length
  rw [bytes, append_assoc, append_assoc] at hin
  cases hpax : t.pax with
  | none =>
    rw [hpax, Option.elim_none, nil_append] at hin
    have hload : st.Loaded t.paxPart := by
      rw [paxPart, hpax]
      exact ⟨hst.paxhdr, hst.pax⟩
    obtain ⟨st', hround, hidle, hrest, hout⟩ := abuildTarRound_entry cut hfits hok hcopy hload hin
    refine ⟨st', 1, ?_, abuildTarLoop_ok hround, hidle, hrest, hout⟩
    simp only [bytes, length_append]
    omega
  | some p =>
    rw [hpax] at hin
    obtain ⟨st₁, hround₁, hload, hin₁, hout₁⟩ :=
      abuildTarRound_pax md cut splice (hok.pax p hpax) hin
    have hload : st₁.Loaded t.paxPart := by
      rw [paxPart, hpax]
      exact hload
    obtain ⟨st', hround, hidle, hrest, hout⟩ :=
      abuildTarRound_entry cut hfits hok hcopy hload hin₁
    refine ⟨st', 2, ?_, fun fuel => ?_, hidle, hrest, by rw [hout, hout₁]⟩
    · simp only [bytes, length_append]
      omega
    · rw [abuildTarLoop_ok hround₁, abuildTarLoop_ok hround]

variable (cut) in
theorem abuildTarLoop_parts (hfits : md.Fits) (hok : ∀ t ∈ parts, t.Ok)
    (hcopy : ∀ t ∈ parts, t.Copied splice) (hst : st.Idle)
    (hin : st.stdin = parts.flatMap bytes ++ rest) :
    ∃ st' j, j ≤ (parts.flatMap bytes).length ∧
      (∀ fuel, abuildTarLoop (some md) cut splice (fuel + j) st =
        abuildTarLoop (some md) cut splice fuel st') ∧
      st'.Idle ∧ st'.stdin = rest ∧
      st'.stdout = st.stdout ++ (parts.map (hashPart md)).flatMap bytes := by
  induction parts generalizing st with
  | nil => exact ⟨st, 0, le_rfl, fun _ => rfl, hst, hin, (append_nil _).symm⟩
  | cons t parts ih =>
    rw [flatMap_cons, append_assoc] at hin
    obtain ⟨st₁, j₁, hj₁, hloop₁, hst₁, hin₁, hout₁⟩ := abuildTarLoop_part cut hfits
      (hok t mem_cons_self) (hcopy t mem_cons_self) hst hin
    obtain ⟨st', j, hj, hloop, hst', hin', hout⟩ := ih (fun t ht => hok t (mem_cons_of_mem _ ht))
      (fun t ht => hcopy t (mem_cons_of_mem _ ht)) hst₁ hin₁
    refine ⟨st', j + j₁, ?_, fun fuel => ?_, hst', hin', ?_⟩
    · rw [flatMap_cons, length_append]
      omega
    · rw [← Nat.add_assoc, hloop₁, hloop]
    · rw [hout, hout₁, map_cons, flatMap_cons, append_assoc]

theorem zeroHeader_spec : zeroHeader.Sized ∧ zeroHeader.bytes = replicate 512 0 ∧
    abuildGetOctal zeroHeader.size = 0 ∧ zeroHeader.typeflag = 0 := by
  refine ⟨?_, by decide +kernel⟩
  constructor <;> decide +kernel

theorem abuildTarRound_zeros (hst : st.Idle) (hin : st.stdin = replicate 512 0 ++ rest) :
    abuildTarRound (some md) false splice st =
      .ok { st with stdin := rest, stdout := st.stdout ++ replicate 512 0 } := by
  have hflag : dohash (some md) zeroHeader = false := by
    simp only [dohash, Option.isSome_some]
    decide
  have hpax : ∀ out, abuildTarPax { st with stdin := rest, stdout := out } =
      { st with stdin := rest, stdout := out } := by
    intro out
    rw [abuildTarPax, if_pos hst.pax]
  obtain ⟨hsized, hbytes, hsize, htype⟩ := zeroHeader_spec
  rw [← hbytes] at hin
  rw [abuildTarRound_header hsized (by simp) hin, if_neg (by rw [htype]; decide), abuildTarEntry]
  simp only [hflag, Bool.false_eq_true, if_false, hsize, bind, Except.bind, hpax]
  rw [abuildTarCopy, if_pos (show roundUp 0 512 = 0 by decide), hbytes, ← hst.paxhdr]
  simp only [← hst.pax]

theorem abuildTarLoop_zeros (hst : st.Idle) (hin : st.stdin = replicate (512 * zeros) 0) :
    abuildTarLoop (some md) false splice (fuel + zeros + 1) st =
      some (.exit 1 (st.stdout ++ replicate (512 * zeros) 0)) := by
  induction zeros generalizing st with
  | zero =>
    have hend : abuildTarRound (some md) false splice st = .error (.exit 1 st.stdout) := by
      rw [abuildTarRound, if_pos]
      rw [hin]
      decide
    rw [abuildTarLoop, hend, replicate_zero, append_nil]
  | succ zeros ih =>
    have hsplit : replicate (512 * (zeros + 1)) (0 : UInt8) =
        replicate 512 0 ++ replicate (512 * zeros) 0 := by
      rw [replicate_append_replicate]
      congr 1
      omega
    rw [hsplit] at hin ⊢
    rw [← Nat.add_assoc, abuildTarLoop_ok (abuildTarRound_zeros hst hin)]
    have hidle : AbuildTar.Idle { st with
        stdin := replicate (512 * zeros) 0, stdout := st.stdout ++ replicate 512 0 } :=
      ⟨hst.paxhdr, hst.pax⟩
    rw [ih hidle rfl, append_assoc]

theorem abuildTarLoop_cut (hin : st.stdin = replicate 512 0 ++ rest) :
    abuildTarLoop (some md) true splice (fuel + 1) st = some (.exit 0 st.stdout) := by
  have htake : st.stdin.take 512 = replicate 512 0 := by
    rw [hin, take_left' length_replicate]
  have hround : abuildTarRound (some md) true splice st = .error (.exit 0 st.stdout) := by
    rw [abuildTarRound, if_neg (by rw [hin, length_append, length_replicate]; omega)]
    simp only [htake]
    rw [if_pos ⟨trivial, by decide +kernel⟩]
  rw [abuildTarLoop, hround]

/-- The output for any archive. Without `--cut` the end of the input is the only way out of the loop,
with 1 as the result. -/
theorem doIt_hash (hfits : md.Fits) (hok : ∀ t ∈ parts, t.Ok) (hcopy : ∀ t ∈ parts, t.Copied splice)
    (hzeros : 0 < zeros) :
    doIt (some md) cut splice (tarBytes parts zeros) = some (.exit (if cut then 0 else 1)
        (tarBytes (parts.map (hashPart md)) (if cut then 0 else zeros))) := by
  have hlen : (tarBytes parts zeros).length = (parts.flatMap bytes).length + 512 * zeros := by
    rw [tarBytes, length_append, length_replicate]
  rw [doIt]
  generalize hst₀ : (⟨tarBytes parts zeros, [], zeroHeader, ⟨[], 0⟩, ⟨[], 0⟩⟩ : AbuildTar) = st₀
  have hidle : st₀.Idle := by
    subst hst₀
    exact ⟨rfl, rfl⟩
  have hin₀ : st₀.stdin = parts.flatMap bytes ++ replicate (512 * zeros) 0 := by
    rw [← hst₀, tarBytes]
  obtain ⟨st, j, hj, hloop, hst, hin, hout⟩ :=
    abuildTarLoop_parts cut hfits hok hcopy hidle hin₀
  have hnil : st₀.stdout = [] := by rw [← hst₀]
  rw [hnil] at hout
  obtain ⟨k, hk⟩ : ∃ k, (tarBytes parts zeros).length + 1 = k + zeros + 1 + j :=
    ⟨(tarBytes parts zeros).length - zeros - j, by omega⟩
  rw [hk, hloop]
  cases cut with
  | true =>
    have hsplit : replicate (512 * zeros) (0 : UInt8) =
        replicate 512 0 ++ replicate (512 * (zeros - 1)) 0 := by
      rw [replicate_append_replicate]
      congr 1
      omega
    rw [abuildTarLoop_cut (hin.trans hsplit), hout]
    simp [tarBytes]
  | false =>
    rw [abuildTarLoop_zeros hst hin, hout]
    rfl

end

section

variable {md : EvpMd}

variable {hdr : TarHeader} {b : Bytes}

theorem PaxRecords.append {a : Bytes} {k l : List (Bytes × Bytes)} (ha : PaxRecords a k)
    (hb : PaxRecords b l) : PaxRecords (a ++ b) (k ++ l) := by
  induction ha with
  | nil => exact hb
  | cons hkey hlen _ ih =>
    rw [append_assoc]
    exact .cons hkey hlen ih

theorem getOctal_checksum (n : ℕ) : (getOctal (putOctal 7 n true ++ [0x20])).1 = n % 8 ^ 6 := by
  have h := pullUintLoop_octalDigits 6 n 0 [0, 0x20] (by norm_num)
  rw [Nat.zero_mul, Nat.zero_add] at h
  have htext : putOctal 7 n true ++ [0x20] = octalDigits 6 n ++ [0, 0x20] := by
    rfl
  rw [getOctal, apkBlobPullUint, htext, h]
  rfl

theorem TarHeader.Sized.withSize (h : hdr.Sized) (hb : b.length = 12) :
    ({ hdr with size := b } : TarHeader).Sized :=
  { h with size := hb }

theorem TarHeader.Sized.withChksum (h : hdr.Sized) (hb : b.length = 8) :
    ({ hdr with chksum := b } : TarHeader).Sized :=
  { h with chksum := hb }

theorem TarHeader.sum_lt (h : hdr.Sized) : hdr.sum < 8 ^ 6 := by
  have hlen := (h.withChksum (b := replicate 8 0x20) rfl).length
  have hle : hdr.sum ≤ 512 * 255 := by
    rw [← hlen]
    refine (sum_le_card_nsmul _ 255 ?_).trans (by simp)
    intro x hx
    obtain ⟨c, -, rfl⟩ := mem_map.1 hx
    have := c.toNat_lt
    omega
  omega

theorem TarHeaderOk.resize {n m : ℕ} (h : TarHeaderOk hdr n) (hm : m < 8 ^ 11) :
    TarHeaderOk (tarhdrChecksum { hdr with size := putOctal 12 m true }) m := by
  have hsized := h.sized.withSize (putOctal_length (l := 12) (by norm_num) m true)
  have hchksum : (putOctal 7 ({ hdr with size := putOctal 12 m true } : TarHeader).sum true ++
      [0x20]).length = 8 := by
    rw [length_append, putOctal_length (by norm_num), length_singleton]
  refine ⟨hsized.withChksum hchksum, h.name, h.magic, ?_, ?_⟩
  · refine (getOctal_putOctal (l := 12) (by norm_num) m true).trans ?_
    rw [if_pos rfl, Nat.mod_eq_of_lt hm]
  · refine (getOctal_checksum _).trans ?_
    rw [Nat.mod_eq_of_lt (TarHeader.sum_lt hsized)]
    rfl

/-- a digest whose record can be added to a pax header -/
structure EvpMd.Ok (md : EvpMd) : Prop where
  fits : md.Fits
  name : asc '=' ∉ md.name

theorem EvpMd.Ok.record (hmd : md.Ok) (payload : Bytes) :
    PaxRecords (checksumRecord md payload) [(checksumHdr md, hexText (md.digest payload))] := by
  have hkey : asc '=' ∉ checksumHdr md := by
    intro h
    rcases mem_append.1 (mem_of_mem_take h) with h | h
    · revert h
      decide +kernel
    · exact hmd.name h
  have := PaxRecords.cons hkey (hmd.fits payload) .nil
  rwa [append_nil] at this

theorem zeroPad_length (n : ℕ) : (zeroPad n).length = roundUp n 512 - n := length_replicate

theorem PaxPart.Ok.add {p : PaxPart} (hp : p.Ok) (hmd : md.Ok) {payload : Bytes}
    (hroom : (p.records ++ checksumRecord md payload).length < 8 ^ 11) :
    (p.add (checksumRecord md payload)).Ok where
  hdr := hp.hdr.resize hroom
  typeflag := hp.typeflag
  pad := zeroPad_length _
  records := by
    obtain ⟨kvs, hkvs⟩ := hp.records
    exact ⟨_, hkvs.append (hmd.record payload)⟩

end

section

variable {md : EvpMd} {splice : Option ℤ}

/-- regular files, with the type flag of old archives too -/
def TarPart.Regular (t : TarPart) : Prop :=
  t.hdr.typeflag = 0 ∨ t.hdr.typeflag = asc '0' ∨ t.hdr.typeflag = asc '7'

def TarPart.Symlink (t : TarPart) : Prop := t.hdr.typeflag = asc '2'

/-- the target of a link: the last `linkpath` of its attributes, or the one in the header -/
def TarPart.target (t : TarPart) (kvs : List (Bytes × Bytes)) : Bytes :=
  ((kvs.filter fun kv => kv.1 = lit "linkpath").getLast?.map Prod.snd).getD (cstr t.hdr.linkname)

def TarPart.content (t : TarPart) (kvs : List (Bytes × Bytes)) : Bytes :=
  if t.hdr.typeflag = asc '2' then t.target kvs else t.data.take (getOctal t.hdr.size).1

/-- what an entry of the input has to be like -/
structure TarPart.Hashable (md : EvpMd) (splice : Option ℤ) (t : TarPart) : Prop where
  typeflag : t.hdr.typeflag ≠ 0
  pax : t.Regular ∨ t.Symlink → t.pax.isSome
  target : t.Symlink → ∀ kvs, t.Attrs kvs → t.target kvs = cstr t.hdr.linkname
  room : ∀ p, t.pax = some p → (p.records ++ checksumRecord md t.payload).length < 8 ^ 11
  copied : t.Copied splice

/-- the same entry, and the digest in its pax header if it is a file or a link -/
structure HashedAs (md : EvpMd) (t out : TarPart) : Prop where
  ok : out.Ok
  hdr : out.hdr = t.hdr
  data : out.data = t.data
  file : t.Regular ∨ t.Symlink → out.pax.isSome ∧ ∀ kvs, t.Attrs kvs →
    out.Attrs (kvs ++ [(checksumHdr md, hexText (md.digest (t.content kvs)))])
  other : ¬ (t.Regular ∨ t.Symlink) → ∀ kvs, t.Attrs kvs → out.Attrs kvs

variable {t : TarPart}

theorem TarPart.Hashable.hashed_iff (h : t.Hashable md splice) : t.Hashed ↔ t.Regular ∨ t.Symlink := by
  have := h.typeflag
  unfold TarPart.Hashed TarPart.Regular TarPart.Symlink
  tauto

theorem TarPart.Hashable.payload (h : t.Hashable md splice) {kvs : List (Bytes × Bytes)}
    (hkvs : t.Attrs kvs) : t.payload = t.content kvs := by
  unfold TarPart.payload TarPart.content
  by_cases hlink : t.hdr.typeflag = asc '2'
  · rw [if_neg (not_not.2 hlink), if_pos hlink, h.target hlink kvs hkvs]
  · rw [if_pos hlink, if_neg hlink]

theorem hashPart_hashedAs (hmd : md.Ok) (hok : t.Ok) (h : t.Hashable md splice) :
    HashedAs md t (hashPart md t) := by
  by_cases hhash : t.Hashed
  · have hfile := h.hashed_iff.1 hhash
    obtain ⟨p, hp⟩ := Option.isSome_iff_exists.1 (h.pax hfile)
    have hout : hashPart md t = { t with pax := some (p.add (checksumRecord md t.payload)) } := by
      unfold hashPart
      simp [hp, if_pos hhash]
    rw [hout]
    refine ⟨⟨hok.hdr, hok.typeflag, ?_⟩, rfl, rfl, fun _ => ⟨rfl, fun kvs hkvs => ?_⟩,
      fun hn => absurd hfile hn⟩
    · rintro _ ⟨⟩
      exact (hok.pax p hp).add hmd (h.room p hp)
    · rw [← h.payload hkvs]
      rw [TarPart.Attrs, hp] at hkvs
      exact hkvs.append (hmd.record t.payload)
  have hfile : t.Regular ∨ t.Symlink → False := fun hf => hhash (h.hashed_iff.2 hf)
  unfold hashPart
  rw [if_neg hhash]
  refine ⟨⟨hok.hdr, hok.typeflag, ?_⟩, rfl, rfl, fun hf => absurd hf hfile, fun _ kvs hkvs => ?_⟩
  · intro q hq
    cases hp : t.pax with
    | none => simp [hp] at hq
    | some p =>
      have hpok := hok.pax p hp
      simp only [hp] at hq
      split_ifs at hq
      cases hq
      exact ⟨hpok.hdr, hpok.typeflag, zeroPad_length _, hpok.records⟩
  rw [TarPart.Attrs] at hkvs ⊢
  cases hp : t.pax with
  | none =>
    rw [hp] at hkvs
    exact hkvs
  | some p =>
    rw [hp] at hkvs
    simp only [Option.getD_some]
    split_ifs with hnil
    · rwa [Option.elim_some, hnil] at hkvs
    · exact hkvs

end

/-- `abuild-tar --hash` writes the entries of an archive in their order, each with its header and its
data, and with the digest in the pax header of each file and link, if these have a pax header in
the input. -/
theorem abuild_tar_hash {md : EvpMd} (hmd : md.Ok) (cut : Bool) {splice : Option ℤ}
    {parts : List TarPart} (hok : ∀ t ∈ parts, t.Ok) (hhash : ∀ t ∈ parts, t.Hashable md splice)
    {zeros : ℕ} (hzeros : 0 < zeros) :
    ∃ outs, doIt (some md) cut splice (tarBytes parts zeros) =
        some (.exit (if cut then 0 else 1) (tarBytes outs (if cut then 0 else zeros))) ∧
      List.Forall₂ (HashedAs md) parts outs := by
  refine ⟨parts.map (hashPart md), doIt_hash hmd.fits hok (fun t ht => (hhash t ht).copied) hzeros, ?_⟩
  rw [forall₂_map_right_iff, forall₂_same]
  exact fun t ht => hashPart_hashedAs hmd (hok t ht) (hhash t ht)

/-- the SHA1 digest of nothing -/
def sha1Nil : Bytes :=
  [0xda, 0x39, 0xa3, 0xee, 0x5e, 0x6b, 0x4b, 0x0d, 0x32, 0x55, 0xbf, 0xef, 0x95, 0x60, 0x18, 0x90, 0xaf,
    0xd8, 0x07, 0x09]

/-- a digest with the size of SHA1, and with its value for an empty file -/
def sampleMd : EvpMd where
  name := lit "SHA1"
  size := 20
  digest b := if b = [] then sha1Nil else List.replicate 20 0
  digest_length b := by split_ifs <;> rfl

def sampleHeader (typeflag : Char) (n : ℕ) : TarHeader :=
  tarhdrChecksum { zeroHeader with
    name := strlcpyField 100 [asc 'a']
    size := putOctal 12 n true
    typeflag := asc typeflag
    magic := ascs ['u', 's', 't', 'a', 'r'] ++ [0, asc '0', asc '0'] }

def samplePax : PaxPart where
  hdr := sampleHeader 'x' 9
  records := extRecord 9 (ascs ['p', 'a', 't', 'h']) [asc 'a']
  pad := zeroPad 9

def sampleFile (pax : Option PaxPart) : TarPart := ⟨pax, sampleHeader '0' 0, []⟩

theorem sampleMd_ok : sampleMd.Ok where
  fits b := by
    unfold checksumRecord
    rw [show sampleMd.digest b = if b = [] then sha1Nil else replicate 20 0 from rfl]
    split_ifs <;> decide +kernel
  name := by decide +kernel

theorem samplePax_ok : samplePax.Ok where
  hdr := ⟨by constructor <;> decide +kernel, by decide +kernel, by decide +kernel, by decide +kernel,
    by decide +kernel⟩
  typeflag := by decide +kernel
  pad := by decide +kernel
  records := by
    have hrecord : PaxRecords (extRecord 9 (ascs ['p', 'a', 't', 'h']) [asc 'a'] ++ []) _ :=
      .cons (by decide) (by decide +kernel) .nil
    exact ⟨_, hrecord⟩

theorem sampleHeader_ok : TarHeaderOk (sampleHeader '0' 0) 0 :=
  ⟨by constructor <;> decide +kernel, by decide +kernel, by decide +kernel, by decide +kernel,
    by decide +kernel⟩

theorem sampleFile_ok {pax : Option PaxPart} (hpax : ∀ p, pax = some p → p.Ok) : (sampleFile pax).Ok where
  hdr := ⟨0, sampleHeader_ok, rfl⟩
  typeflag := show asc '0' ≠ asc 'x' by decide
  pax := hpax

theorem abuild_tar_hash_sample :
    ∃ outs, doIt (some sampleMd) true none (tarBytes [sampleFile (some samplePax)] 2) =
        some (.exit 0 (tarBytes outs 0)) ∧
      List.Forall₂ (HashedAs sampleMd) [sampleFile (some samplePax)] outs := by
  have hflag : (sampleFile (some samplePax)).hdr.typeflag = asc '0' := rfl
  refine abuild_tar_hash sampleMd_ok true (forall_mem_singleton.2 (sampleFile_ok ?_))
    (forall_mem_singleton.2 ⟨?_, fun _ => rfl, ?_, ?_, ?_⟩) (by norm_num)
  · rintro p ⟨⟩
    exact samplePax_ok
  · rw [hflag]
    decide
  · intro hlink
    rw [TarPart.Symlink] at hlink
    exact absurd hlink (by decide)
  · rintro p ⟨⟩
    decide +kernel
  · intro hno
    exact absurd (Or.inl hflag) hno

def takeEntry : TarCallback Unit := fun _ _ s _ is => (0, s, is)

def sampleEnv : TarEnv := ⟨fun _ id => id, fun _ id => id, fun _ => []⟩

/-- A file without a pax header in front of it gets one that is all zeros but for the size and the
checksum. It is no pax header, and `apk` reads it as the end of the archive. -/
theorem abuild_tar_no_pax_header : (sampleFile none).Ok ∧ ∃ out,
      doIt (some sampleMd) false none (tarBytes [sampleFile none] 2) = some (.exit 1 out) ∧
      (TarHeader.ofBytes out).name = replicate 100 0 ∧ (TarHeader.ofBytes out).typeflag = 0 ∧
      (apkTarParse sampleEnv blobOps takeEntry (apkIstreamFromBlob (tarBytes [sampleFile none] 2)) 9
        ()).2.calls.length = 1 ∧
      (apkTarParse sampleEnv blobOps takeEntry (apkIstreamFromBlob out) 9 ()).1 =
        some (-apkeV2pkgFormat) ∧
      (apkTarParse sampleEnv blobOps takeEntry (apkIstreamFromBlob out) 9 ()).2.calls.length = 0 := by
  refine ⟨sampleFile_ok (by rintro p ⟨⟩), _, doIt_hash sampleMd_ok.fits
    (forall_mem_singleton.2 (sampleFile_ok (by rintro p ⟨⟩)))
    (forall_mem_singleton.2 fun hno => absurd (Or.inl rfl) hno) (by norm_num), ?_⟩
  decide +kernel

end Alpine

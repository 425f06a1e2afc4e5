import Alpine.Sanity.Blob
import Alpine.Sanity.Tar

/-! Archives of regular files are parsed as they were written, with two exceptions. The size of a file
and the bits of its mode and its time have to pass through the header, and a name whose length is a
multiple of 512 is written with a record of zeros behind it that the parser takes for the end of the
archive: it goes on after the first one, so one such name does no harm, and stops at the second. -/

namespace Alpine

open List

def tarPad (n : ℕ) : Bytes := List.replicate (roundUp n 512 - n) 0

theorem apkTarWritePadding_eq (os : Bytes) (n : ℕ) : apkTarWritePadding os n = os ++ tarPad n := by
  unfold apkTarWritePadding tarPad roundUp
  have hmod : ((n : ℤ) % 512).toNat = n % 512 := by omega
  simp only [hmod]
  by_cases h : n % 512 = 0
  · rw [if_neg (by omega), show (n + (512 - 1)) / 512 * 512 - n = 0 by omega, replicate_zero, append_nil]
  · rw [if_pos (by omega), show (n + (512 - 1)) / 512 * 512 - n = 512 - n % 512 by omega]

def longnameBytes (ae : ArchiveEntry) : Bytes :=
  (apkTarFillHeader (asc 'L') longLink ae.name.length ae).bytes ++ ae.name ++ [0] ++
    tarPad (ae.name.length + 1)

/-- the header of an entry, its data, and the zeros behind it -/
def fileBytes (ae : ArchiveEntry) (data : Bytes) : Bytes :=
  (apkTarFillHeader (asc '0') ae.name ae.size ae).bytes ++ data ++ tarPad ae.size

def entryBytes (x : ArchiveEntry × Bytes) : Bytes :=
  (if 99 < x.1.name.length then longnameBytes x.1 else []) ++ fileBytes x.1 x.2

def endBytes : Bytes := List.replicate 512 0 ++ List.replicate 512 0

/-- the entries one after the other, and the end of the archive -/
def tarArchive (l : List (ArchiveEntry × Bytes)) : Bytes :=
  (apkTarWriteEntry (l.foldl (fun os x => (apkTarWriteEntry os (some x.1) (some x.2)).2) []) none none).2

/-- a regular file with a name that the parser takes, and its data -/
structure TarInput (x : ArchiveEntry × Bytes) : Prop where
  reg : x.1.isReg = true
  name_ne : x.1.name ≠ []
  name_zero : ∀ c ∈ x.1.name, c ≠ 0
  name_lt : x.1.name.length < pathMax - 10
  data : x.2.length = x.1.size

theorem apkTarWriteLongnameEntry_eq (os : Bytes) (ae : ArchiveEntry) :
    apkTarWriteLongnameEntry os ae = os ++ longnameBytes ae := by
  unfold apkTarWriteLongnameEntry longnameBytes
  have hpad := apkTarWritePadding_eq (os ++
    (apkTarFillHeader (asc 'L') longLink ae.name.length ae).bytes ++ ae.name ++ [0])
    (ae.name.length + 1)
  rw [Nat.cast_add, Nat.cast_one] at hpad
  rw [hpad]
  simp

theorem apkTarWriteEntry_eq {os : Bytes} {x : ArchiveEntry × Bytes} (hx : TarInput x) :
    apkTarWriteEntry os (some x.1) (some x.2) = (0, os ++ entryBytes x) := by
  unfold apkTarWriteEntry entryBytes fileBytes
  simp only [hx.reg, Bool.not_true, Bool.false_eq_true, reduceIte, apkTarWritePadding_eq,
    take_of_length_le hx.data.le]
  split_ifs
  · simp [apkTarWriteLongnameEntry_eq]
  · simp

theorem tarArchive_eq {l : List (ArchiveEntry × Bytes)} (hl : ∀ x ∈ l, TarInput x) :
    tarArchive l = l.flatMap entryBytes ++ endBytes := by
  have hfold : ∀ os : Bytes, l.foldl (fun os x => (apkTarWriteEntry os (some x.1) (some x.2)).2) os =
      os ++ l.flatMap entryBytes := by
    induction l with
    | nil => intro os; simp
    | cons x l ih =>
      intro os
      rw [foldl_cons, apkTarWriteEntry_eq (hl x mem_cons_self),
        ih fun y hy => hl y (mem_cons_of_mem _ hy), flatMap_cons, append_assoc]
  unfold tarArchive endBytes
  rw [hfold, nil_append, apkTarWriteEntry, append_assoc]

section

variable {σ κ : Type} (env : TarEnv) {ops : IstreamOps σ} {R : σ → Bytes → Prop} {is : Istream σ}
  {cb : TarCallback κ} {f : κ → ArchiveEntry → Bytes → κ} {st : TarParser κ}

/-- a callback that depends on the entry and its data only, and uses the stream by its operations -/
def TarCallback.OfPayload (cb : TarCallback κ) (f : κ → ArchiveEntry → Bytes → κ) : Prop :=
  ∀ {τ : Type} {ops : IstreamOps τ} {R : τ → Bytes → Prop} {is : Istream τ} {p : Bytes} (s : κ)
    (entry : ArchiveEntry), Delivers ops R → is.Holds R p → 0 ≤ is.err →
    ∃ is', cb τ ops s entry is = (0, f s entry p, is') ∧ IstreamUse ops is is'

/-- the loop after a header with a name -/
def tarThen (ops : IstreamOps σ) (cb : TarCallback κ) (n : ℕ) :
    Option ℤ × Istream σ × TarParser κ → Option ℤ × Istream σ × TarParser κ
  | (some r, is, st) => (some (tarErr r), is, st)
  | (none, is, st) => tarLoop env ops cb n is st

variable {b name rest : Bytes} {x : ArchiveEntry × Bytes} {m n : ℕ} {ae entry : ArchiveEntry}
    {l : List (ArchiveEntry × Bytes)}

theorem tarLoop_record (cb : TarCallback κ) (hops : Delivers ops R) (h : is.Ready R (b ++ rest))
    (hb : b.length = 512) (n : ℕ) (st : TarParser κ) :
    ∃ is', is'.Ready R rest ∧ tarLoop env ops cb (n + 1) is st =
      if b.head?.getD 0 = 0 then
        if st.fin then ((tarTail ops n is').1, (tarTail ops n is').2, st)
        else tarLoop env ops cb n is' { st with fin := true }
      else tarThen env ops cb n (tarHeader env ops cb is' st (TarHeader.ofBytes b)) := by
  obtain ⟨is', hread, h', -⟩ := apkIstreamReadMax_holds hops h 512
  rw [take_left' hb, hb] at hread
  rw [drop_left' hb] at h'
  refine ⟨is', h', ?_⟩
  rw [tarLoop, hread]
  rfl

theorem tarSkip_holds (hops : Delivers ops R) (h : is.Ready R (replicate (roundUp n 512 - n) 0 ++ rest))
    (st : TarParser κ) :
    ∃ is', tarSkip ops is st (roundUp n 512 - n) = (none, is', st) ∧ is'.Ready R rest := by
  have hlt : roundUp n 512 - n < 512 := by
    unfold roundUp
    omega
  generalize roundUp n 512 - n = n at h hlt ⊢
  unfold tarSkip
  by_cases hn : n = 0
  · subst hn
    exact ⟨is, if_pos rfl, h⟩
  obtain ⟨is', hskip, h', -⟩ := apkIstreamSkip_holds hops.feeds h
    (n := n) (by rw [length_append, length_replicate]; omega)
  rw [drop_left' length_replicate] at h'
  rw [if_neg hn, hskip]
  simp only [toInt32_of_lt (hlt.trans (by decide))]
  exact ⟨is', rfl, h'⟩

variable {data name : Bytes}

theorem tarHeader_fill (ops : IstreamOps σ) (cb : TarCallback κ) (is : Istream σ)
    (hpax : st.paxlen = 0) (typeflag : UInt8) (hname : ∀ c ∈ name, c ≠ 0) (size : ℤ)
    (ae : ArchiveEntry) :
    ∃ entry : ArchiveEntry, tarHeader env ops cb is st (apkTarFillHeader typeflag name size ae) =
        tarSwitch ops cb is st (apkTarFillHeader typeflag name size ae) entry ∧
      entry.name = st.name.getD (name.take 99) ∧ entry.linkTarget = none ∧
      entry.size = toSizeT (toInt32 size) % 2 ^ 36 ∧ entry.mode = ae.mode &&& 0o7777 ∧
      entry.mtime = (toSizeT ae.mtime % 2 ^ 36 : ℕ) := by
  obtain ⟨entry, hentry, hrest⟩ := tarEntry_fill hname
  refine ⟨entry, ?_, hrest⟩
  unfold tarHeader
  have hmagic : ¬ (apkTarFillHeader typeflag name size ae).magic.take 5 ≠
      ascs ['u', 's', 't', 'a', 'r'] := fun h => h rfl
  rw [if_neg hmagic, hentry]
  simp [if_neg (not_not.2 hpax)]

theorem TarHeader.bytes_head {h : TarHeader} {c : UInt8} {l : Bytes} (hname : h.name = c :: l) :
    h.bytes.head?.getD 0 = c := by
  unfold TarHeader.bytes
  simp [hname]

theorem fill_head {typeflag : UInt8} (hne : name ≠ []) (hname : ∀ c ∈ name, c ≠ 0) (size : ℤ)
    (ae : ArchiveEntry) : ¬ (apkTarFillHeader typeflag name size ae).bytes.head?.getD 0 = 0 := by
  obtain ⟨c, name, rfl⟩ := exists_cons_of_ne_nil hne
  have hfield : (apkTarFillHeader typeflag (c :: name) size ae).name = c :: (name.take 98 ++
      replicate (100 - ((c :: name).take 99).length) 0) := by
    change (c :: name).take 99 ++ _ = _
    rw [take_succ_cons, cons_append]
  rw [TarHeader.bytes_head hfield]
  exact hname c mem_cons_self

/-- what is left of the record of a long name when the parser has skipped what it counts -/
def longnameGap (ae : ArchiveEntry) : Bytes :=
  if 512 ∣ ae.name.length then List.replicate 512 0 else []

theorem longname_zeros (ae : ArchiveEntry) :
    [0] ++ tarPad (ae.name.length + 1) = tarPad ae.name.length ++ longnameGap ae := by
  unfold tarPad longnameGap roundUp
  have hone : ([0] : Bytes) = replicate 1 0 := rfl
  rw [hone, ← replicate_add]
  split_ifs with h
  · rw [← replicate_add]
    congr 1
    omega
  · rw [append_nil]
    congr 1
    omega

theorem tarTooLong_false (hlink : entry.linkTarget = none) (hlt : entry.name.length < pathMax - 10) :
    tarTooLong entry = false := by
  unfold tarTooLong
  rw [hlink, decide_eq_false_iff_not]
  rintro (h | h)
  · omega
  · cases h

theorem tarLoop_longname (cb : TarCallback κ) (hops : Delivers ops R)
    (h : is.Ready R (longnameBytes ae ++ rest)) (hpax : st.paxlen = 0)
    (hzero : ∀ c ∈ ae.name, c ≠ 0) (hlt : ae.name.length < pathMax - 10) (n : ℕ) :
    ∃ is', is'.Ready R (longnameGap ae ++ rest) ∧
      tarLoop env ops cb (n + 1) is st = tarLoop env ops cb n is' { st with name := some ae.name } := by
  have hlong : ∀ c ∈ longLink, c ≠ 0 := by decide
  have hbytes : longnameBytes ae ++ rest =
      (apkTarFillHeader (asc 'L') longLink ae.name.length ae).bytes ++
        (ae.name ++ (tarPad ae.name.length ++ (longnameGap ae ++ rest))) := by
    unfold longnameBytes
    have := longname_zeros ae
    rw [← append_assoc (tarPad ae.name.length), ← this]
    simp
  have hsized := apkTarFillHeader_sized (asc 'L') longLink ae.name.length ae
  rw [hbytes] at h
  obtain ⟨is1, h1, hrun⟩ := tarLoop_record env cb hops h hsized.length n st
  rw [if_neg (fill_head (by decide) hlong _ ae), TarHeader.ofBytes_bytes hsized] at hrun
  obtain ⟨entry, hhdr, -, hlink, hsize, -⟩ := tarHeader_fill env ops cb is1 hpax (asc 'L') hlong
    ae.name.length ae
  have hsize' : entry.size = ae.name.length := by
    have hlt' : ae.name.length < 4086 := hlt
    rw [hsize, toInt32_of_lt (by omega)]
    unfold toSizeT
    omega
  obtain ⟨is2, hread, h2, -⟩ := apkIstreamRead_holds hops h1
    (n := ae.name.length) (by rw [length_append]; omega)
  rw [take_left] at hread
  rw [drop_left] at h2
  obtain ⟨is3, hskip, h3⟩ := tarSkip_holds hops h2 { st with name := some ae.name }
  refine ⟨is3, h3, ?_⟩
  rw [hrun, hhdr, tarSwitch, hsize', hread]
  simp only [(cstr_eq_iff _).2 fun h => hzero 0 h rfl]
  rw [tarTooLong_false, hskip]
  · rfl
  · exact hlink
  · exact hlt

theorem regular_type : (m ||| sIfreg) &&& sIfmt ≠ 0 := by
  intro h
  have hreg : sIfreg.testBit 15 = true := by decide
  have hfmt : sIfmt.testBit 15 = true := by decide
  have hbit : ((m ||| sIfreg) &&& sIfmt).testBit 15 = true := by
    rw [Nat.testBit_and, Nat.testBit_or, hreg, hfmt, Bool.or_true, Bool.and_true]
  rw [h] at hbit
  exact Bool.false_ne_true hbit

/-- the entry that the parser makes of a written one -/
structure ParsedEntry (ae : ArchiveEntry) (entry : ArchiveEntry) : Prop where
  name : entry.name = ae.name
  size : entry.size = toSizeT (toInt32 ae.size) % 2 ^ 36
  mode : entry.mode = ae.mode &&& 0o7777 ||| sIfreg
  mtime : entry.mtime = (toSizeT ae.mtime % 2 ^ 36 : ℕ)

theorem tarLoop_file (cb : TarCallback κ) (st : TarParser κ) (hops : Delivers ops R)
    (hx : TarInput x) (h : is.Ready R (fileBytes x.1 x.2 ++ rest)) (hpax : st.paxlen = 0)
    (hname : if 99 < x.1.name.length then st.name = some x.1.name else st.name = none) (n : ℕ) :
    ∃ entry is', ParsedEntry x.1 entry ∧ is'.Ready R (x.2 ++ (tarPad x.1.size ++ rest)) ∧
      tarLoop env ops cb (n + 1) is st = tarThen env ops cb n (tarCall ops cb is' st entry) := by
  have hsized := apkTarFillHeader_sized (asc '0') x.1.name x.1.size x.1
  unfold fileBytes at h
  rw [append_assoc, append_assoc] at h
  obtain ⟨is', h', hrun⟩ := tarLoop_record env cb hops h hsized.length n st
  rw [if_neg (fill_head hx.name_ne hx.name_zero _ x.1), TarHeader.ofBytes_bytes hsized] at hrun
  obtain ⟨entry, hhdr, hn, hlink, hsize, hmode, hmtime⟩ := tarHeader_fill env ops cb is' hpax
    (asc '0') hx.name_zero x.1.size x.1
  have hn' : entry.name = x.1.name := by
    rw [hn]
    split_ifs at hname with hlong
    · rw [hname, Option.getD_some]
    · rw [hname, Option.getD_none, take_of_length_le (by omega)]
  refine ⟨{ entry with mode := entry.mode ||| sIfreg }, is', ⟨hn', hsize, ?_, hmtime⟩, h', ?_⟩
  · change entry.mode ||| sIfreg = _
    rw [hmode]
  have hflag : (apkTarFillHeader (asc '0') x.1.name x.1.size x.1).typeflag = asc '0' := rfl
  have htype : tarFileType (asc '0') = sIfreg := rfl
  rw [hrun, hhdr, tarSwitch, hflag, if_neg (by decide), if_neg (by decide), htype,
    if_neg (show ¬ (asc '0' = asc '1' ∨ asc '0' = asc '2') by decide)]
  simp only
  rw [tarTooLong_false, if_neg Bool.false_ne_true, if_pos regular_type]
  · exact hlink
  · change entry.name.length < _
    rw [hn']
    exact hx.name_lt

theorem tarCall_holds (entry : ArchiveEntry) (st : TarParser κ) (hcb : cb.OfPayload f) (hops : Delivers ops R)
    (h : is.Ready R (data ++ (tarPad entry.size ++ rest))) (hsize : data.length = entry.size) :
    ∃ is', tarCall ops cb is st entry = (none, is',
        { st with
          name := none
          paxlen := 0
          cbs := f st.cbs entry data
          calls := st.calls ++ [entry] }) ∧
      is'.Ready R rest := by
  obtain ⟨R', hdel, hseg, hclose⟩ := apkIstreamSegment_holds hops.feeds h.toHolds
  rw [hsize] at hseg hclose
  obtain ⟨seg, hrun, huse⟩ := hcb st.cbs entry hdel hseg.toHolds hseg.nonneg
  obtain ⟨is1, hc, h1, -⟩ := hclose seg huse
  obtain ⟨is2, hskip, h2⟩ := tarSkip_holds hops (h1 h.nonneg)
    ({ st with name := none, paxlen := 0, cbs := f st.cbs entry data, calls := st.calls ++ [entry] })
  refine ⟨is2, ?_, h2⟩
  rw [tarCall, hrun]
  simp only [hc]
  exact hskip

theorem tarSkip_st : (tarSkip ops is st n).2.2 = st := by
  unfold tarSkip
  split_ifs <;> rfl

theorem tarCall_calls (is : Istream σ) (st : TarParser κ) (entry : ArchiveEntry) :
    (tarCall ops cb is st entry).2.2.calls = st.calls ++ [entry] := by
  unfold tarCall
  simp only
  split_ifs
  · rfl
  · rw [tarSkip_st]

theorem tarSwitch_calls {hdr : TarHeader} :
    st.calls <+: (tarSwitch ops cb is st hdr entry).2.2.calls := by
  have hskip : ∀ (is : Istream σ) (st' : TarParser κ) (n : ℕ), st'.calls = st.calls →
      st.calls <+: (tarSkip ops is st' n).2.2.calls := by
    intro is st' n h
    rw [tarSkip_st, h]
  unfold tarSwitch
  simp only
  split_ifs
  · exact prefix_rfl
  · exact prefix_rfl
  · exact hskip _ _ _ rfl
  · exact prefix_rfl
  · exact prefix_rfl
  · exact hskip _ _ _ rfl
  all_goals first
    | exact prefix_rfl
    | exact hskip _ _ _ rfl
    | (rw [tarCall_calls]; exact prefix_append _ _)

theorem tarHeader_calls (ops : IstreamOps σ) (cb : TarCallback κ) (is : Istream σ)
    (st : TarParser κ) (hdr : TarHeader) :
    st.calls <+: (tarHeader env ops cb is st hdr).2.2.calls := by
  unfold tarHeader
  split_ifs
  · exact prefix_rfl
  all_goals
    split
    · exact prefix_rfl
    · refine List.IsPrefix.trans ?_ tarSwitch_calls
      exact prefix_rfl

theorem tarLoop_calls (ops : IstreamOps σ) (cb : TarCallback κ) (n : ℕ) :
    ∀ (is : Istream σ) (st : TarParser κ),
    st.calls <+: (tarLoop env ops cb n is st).2.2.calls := by
  induction n with
  | zero => intro is st; exact prefix_rfl
  | succ n ih =>
    intro is st
    unfold tarLoop
    simp only
    split_ifs
    · exact prefix_rfl
    · exact prefix_rfl
    · exact prefix_rfl
    · exact ih _ { st with fin := true }
    have hhdr := tarHeader_calls env ops cb (apkIstreamReadMax ops is 512).2.2 st
      (TarHeader.ofBytes (apkIstreamReadMax ops is 512).2.1)
    rcases hrun : tarHeader env ops cb (apkIstreamReadMax ops is 512).2.2 st
      (TarHeader.ofBytes (apkIstreamReadMax ops is 512).2.1) with ⟨_ | r, is', st'⟩
    · rw [hrun] at hhdr
      exact hhdr.trans (ih is' st')
    · rw [hrun] at hhdr
      exact hhdr

theorem tarTail_nil (hops : Delivers ops R) (h : is.Ready R []) (n : ℕ) :
    ∃ is', tarTail ops (n + 1) is = (some 0, is') ∧ 0 ≤ is'.err := by
  obtain ⟨is', hread, h', -⟩ := apkIstreamReadMax_holds hops h 512
  refine ⟨is', ?_, h'.nonneg⟩
  rw [tarTail, hread]
  rfl

theorem tarTail_zeros (hops : Delivers ops R) (h : is.Ready R (replicate 512 0)) :
    ∃ is', tarTail ops (n + 2) is = (some 0, is') ∧ 0 ≤ is'.err := by
  obtain ⟨is1, hread, h1, -⟩ := apkIstreamReadMax_holds hops h 512
  rw [take_replicate, length_replicate] at hread
  rw [drop_replicate] at h1
  obtain ⟨is2, htail, herr2⟩ := tarTail_nil hops h1 n
  refine ⟨is2, ?_, herr2⟩
  rw [tarTail, hread]
  exact htail

theorem tarTail_header (hops : Delivers ops R) (h : is.Ready R (b ++ rest)) (hb : b.length = 512)
    (hhead : ¬ b.head?.getD 0 = 0) (n : ℕ) :
    ∃ is', tarTail ops (n + 1) is = (some (-apkeEof), is') ∧ 0 ≤ is'.err := by
  obtain ⟨is', hread, h', -⟩ := apkIstreamReadMax_holds hops h 512
  rw [take_left' hb, hb] at hread
  refine ⟨is', ?_, h'.nonneg⟩
  rw [tarTail, hread]
  simp only [ne_eq, hhead]
  rfl

section

variable (cb : TarCallback κ) (hops : Delivers ops R)
include hops

theorem tarLoop_zeros (h : is.Ready R (replicate 512 0 ++ rest)) (n : ℕ) (st : TarParser κ) :
    ∃ is', is'.Ready R rest ∧ tarLoop env ops cb (n + 1) is st =
      if st.fin then ((tarTail ops n is').1, (tarTail ops n is').2, st)
      else tarLoop env ops cb n is' { st with fin := true } := by
  obtain ⟨is', h', hrun⟩ := tarLoop_record env cb hops h length_replicate n st
  exact ⟨is', h', hrun.trans (if_pos rfl)⟩

theorem tarLoop_end (h : is.Ready R endBytes) (n : ℕ) (st : TarParser κ) :
    ∃ is' st', tarLoop env ops cb (n + 3) is st = (some 0, is', st') ∧ 0 ≤ is'.err ∧
      st'.calls = st.calls ∧ st'.cbs = st.cbs := by
  obtain ⟨is1, h1, hrun⟩ := tarLoop_zeros env cb hops h (n + 2) st
  by_cases hfin : st.fin = true
  · obtain ⟨is2, htail, herr2⟩ := tarTail_zeros hops h1
    refine ⟨is2, st, ?_, herr2, rfl, rfl⟩
    rw [hrun, if_pos hfin, htail]
  rw [← append_nil (replicate 512 0)] at h1
  obtain ⟨is2, h2, hrun2⟩ :=
    tarLoop_zeros env cb hops h1 (n + 1) { st with fin := true }
  obtain ⟨is3, htail, herr3⟩ := tarTail_nil hops h2 n
  refine ⟨is3, { st with fin := true }, ?_, herr3, rfl, rfl⟩
  rw [hrun, if_neg hfin, hrun2, if_pos rfl, htail]

/-- the parser is in front of an entry or of the end -/
structure InFront (R : σ → Bytes → Prop) (is : Istream σ) (st : TarParser κ) (b : Bytes) : Prop where
  ready : is.Ready R b
  paxlen : st.paxlen = 0
  name : st.name = none

/-- the loop over a written entry: the record of zeros behind a long name ends the archive if it is
the second one, and else the callback comes next -/
theorem tarLoop_entry (hx : TarInput x) (h : InFront R is st (entryBytes x ++ rest)) (n : ℕ) :
    ((512 ∣ x.1.name.length ∧ st.fin = true) ∧ ∃ is', 0 ≤ is'.err ∧ tarLoop env ops cb (n + 3) is st =
        (some (-apkeEof), is', { st with name := some x.1.name })) ∨
    (¬ (512 ∣ x.1.name.length ∧ st.fin = true) ∧ ∃ m entry is' name, n ≤ m ∧ ParsedEntry x.1 entry ∧
      is'.Ready R (x.2 ++ (tarPad x.1.size ++ rest)) ∧
      tarLoop env ops cb (n + 3) is st = tarThen env ops cb m (tarCall ops cb is'
        { st with name := name, fin := st.fin || decide (512 ∣ x.1.name.length) } entry)) := by
  obtain ⟨h, hpax, hname⟩ := h
  have hpos : 0 < x.1.name.length := length_pos_iff.2 hx.name_ne
  unfold entryBytes at h
  by_cases hlong : 99 < x.1.name.length
  · rw [if_pos hlong, append_assoc] at h
    obtain ⟨is1, h1, hrun1⟩ :=
      tarLoop_longname env cb hops h hpax hx.name_zero hx.name_lt (n + 2)
    unfold longnameGap at h1
    by_cases hdiv : 512 ∣ x.1.name.length
    · rw [if_pos hdiv] at h1
      obtain ⟨is2, h2, hrun2⟩ :=
        tarLoop_zeros env cb hops h1 (n + 1) { st with name := some x.1.name }
      by_cases hfin : st.fin = true
      · unfold fileBytes at h2
        rw [append_assoc, append_assoc] at h2
        obtain ⟨is3, htail, herr3⟩ := tarTail_header hops h2
          (apkTarFillHeader_sized (asc '0') x.1.name x.1.size x.1).length
          (fill_head hx.name_ne hx.name_zero _ x.1) n
        rw [if_pos hfin, htail] at hrun2
        exact .inl ⟨⟨hdiv, hfin⟩, is3, herr3, hrun1.trans hrun2⟩
      rw [if_neg hfin] at hrun2
      obtain ⟨entry, is3, hparsed, h3, hrun3⟩ := tarLoop_file env cb
        { st with name := some x.1.name, fin := true } hops hx h2 hpax
        (by rw [if_pos hlong]) n
      refine .inr ⟨fun h => hfin h.2, n, entry, is3, some x.1.name, le_rfl, hparsed, h3, ?_⟩
      rw [hrun1, hrun2, hrun3, decide_eq_true hdiv, Bool.or_true]
    rw [if_neg hdiv, nil_append] at h1
    obtain ⟨entry, is3, hparsed, h3, hrun3⟩ := tarLoop_file env cb
      { st with name := some x.1.name } hops hx h1 hpax (by rw [if_pos hlong]) (n + 1)
    refine .inr ⟨fun h => hdiv h.1, n + 1, entry, is3, some x.1.name, by omega, hparsed, h3, ?_⟩
    rw [hrun1, hrun3, decide_eq_false hdiv, Bool.or_false]
  have hdiv : ¬ 512 ∣ x.1.name.length := fun h => by have := Nat.le_of_dvd hpos h; omega
  rw [if_neg hlong, nil_append] at h
  obtain ⟨entry, is3, hparsed, h3, hrun3⟩ := tarLoop_file env cb st hops hx h hpax
    (by rw [if_neg hlong]; exact hname) (n + 2)
  refine .inr ⟨fun h => hdiv h.1, n + 2, entry, is3, none, by omega, hparsed, h3, ?_⟩
  rw [hrun3, decide_eq_false hdiv, Bool.or_false, ← hname]

end

/-- what the callback has to see of an entry -/
structure SameEntry (entry ae : ArchiveEntry) : Prop where
  name : entry.name = ae.name
  size : entry.size = ae.size
  mode : entry.mode = ae.mode
  mtime : entry.mtime = ae.mtime

/-- the size goes through an `int` and twelve octal digits, the mode keeps its type and permissions,
and the time twelve octal digits -/
structure FitsHeader (ae : ArchiveEntry) : Prop where
  size : toInt32 ae.size % 2 ^ 36 = ae.size
  mode : ae.mode < 2 ^ 16
  mtime : 0 ≤ ae.mtime ∧ ae.mtime < 2 ^ 36

theorem mode_eq_iff (hreg : m &&& sIfmt = sIfreg) : m &&& 0o7777 ||| sIfreg = m ↔ m < 2 ^ 16 := by
  have hand : m &&& 0o7777 ||| sIfreg = m % 2 ^ 16 := by
    rw [← hreg, ← Nat.and_or_distrib_left, ← Nat.and_two_pow_sub_one_eq_mod]
    rfl
  omega

theorem ParsedEntry.same_iff (h : ParsedEntry ae entry) (hreg : ae.isReg = true) :
    SameEntry entry ae ↔ FitsHeader ae := by
  have hmode := mode_eq_iff (of_decide_eq_true hreg)
  have hsize : entry.size = ae.size ↔ toInt32 ae.size % 2 ^ 36 = ae.size := by
    rw [h.size]
    unfold toSizeT
    omega
  have hmtime : entry.mtime = ae.mtime ↔ 0 ≤ ae.mtime ∧ ae.mtime < 2 ^ 36 := by
    rw [h.mtime]
    unfold toSizeT
    omega
  rw [← h.mode] at hmode
  constructor
  · rintro ⟨-, h1, h2, h3⟩
    exact ⟨hsize.1 h1, hmode.1 h2, hmtime.1 h3⟩
  · rintro ⟨h1, h2, h3⟩
    exact ⟨h.name, hsize.2 h1, hmode.2 h2, hmtime.2 h3⟩

/-- the archives that survive, `fin` once a record of zeros has been seen: every entry fits in its
header, and one name at most has a length that 512 divides -/
structure Writable (fin : Bool) (l : List (ArchiveEntry × Bytes)) : Prop where
  fits : ∀ x ∈ l, FitsHeader x.1
  zeros : l.countP (fun x => decide (512 ∣ x.1.name.length)) + fin.toNat ≤ 1

theorem writable_cons_iff {fin : Bool} :
    Writable fin (x :: l) ↔ FitsHeader x.1 ∧ ¬ (512 ∣ x.1.name.length ∧ fin = true) ∧
      Writable (fin || decide (512 ∣ x.1.name.length)) l := by
  have hcount : (x :: l).countP (fun x => decide (512 ∣ x.1.name.length)) + fin.toNat ≤ 1 ↔
      ¬ (512 ∣ x.1.name.length ∧ fin = true) ∧ l.countP (fun x => decide (512 ∣ x.1.name.length)) +
          (fin || decide (512 ∣ x.1.name.length)).toNat ≤ 1 := by
    by_cases hdiv : 512 ∣ x.1.name.length <;> cases fin <;> simp [hdiv]
  constructor
  · rintro ⟨hfits, hzeros⟩
    rw [hcount] at hzeros
    rw [forall_mem_cons] at hfits
    exact ⟨hfits.1, hzeros.1, hfits.2, hzeros.2⟩
  · rintro ⟨hx, hdiv, hfits, hzeros⟩
    exact ⟨forall_mem_cons.2 ⟨hx, hfits⟩, hcount.2 ⟨hdiv, hzeros⟩⟩

theorem tarThen_calls (ops : IstreamOps σ) (cb : TarCallback κ) (n : ℕ)
    (o : Option ℤ × Istream σ × TarParser κ) : o.2.2.calls <+: (tarThen env ops cb n o).2.2.calls := by
  obtain ⟨_ | r, is, st⟩ := o
  · exact tarLoop_calls env ops cb n is st
  · exact prefix_rfl

section

variable (hcb : cb.OfPayload f) (hops : Delivers ops R)
include hcb hops

theorem tarLoop_next (hx : TarInput x) (h : InFront R is st (entryBytes x ++ rest))
    (hfits : FitsHeader x.1) (hzeros : ¬ (512 ∣ x.1.name.length ∧ st.fin = true)) (n : ℕ) :
    ∃ m entry is' st', n ≤ m ∧ SameEntry entry x.1 ∧ InFront R is' st' rest ∧
      st'.fin = (st.fin || decide (512 ∣ x.1.name.length)) ∧
      st'.cbs = f st.cbs entry x.2 ∧ st'.calls = st.calls ++ [entry] ∧
      tarLoop env ops cb (n + 3) is st = tarLoop env ops cb m is' st' := by
  rcases tarLoop_entry env cb hops hx h n with hbad | ⟨-, hgood⟩
  · exact absurd hbad.1 hzeros
  obtain ⟨m, entry, is1, name, hm, hparsed, h1, hrun⟩ := hgood
  have hsame := (hparsed.same_iff hx.reg).2 hfits
  rw [← hsame.size] at h1
  obtain ⟨is2, hcall, h2⟩ := tarCall_holds _
    { st with name := name, fin := st.fin || decide (512 ∣ x.1.name.length) } hcb hops h1
    (hx.data.trans hsame.size.symm)
  rw [hcall] at hrun
  exact ⟨m, entry, is2, _, hm, hsame, ⟨h2, rfl, rfl⟩, rfl, rfl, rfl, hrun⟩

omit hcb in
theorem fits_of_calls (hx : TarInput x) (h : InFront R is st (entryBytes x ++ rest))
    {e : ArchiveEntry} {es : List ArchiveEntry}
    (hcalls : (tarLoop env ops cb (n + 3) is st).2.2.calls = st.calls ++ e :: es)
    (hsame : SameEntry e x.1) : FitsHeader x.1 ∧ ¬ (512 ∣ x.1.name.length ∧ st.fin = true) := by
  rcases tarLoop_entry env cb hops hx h n with ⟨-, is', -, hbad⟩ | ⟨hzeros, hgood⟩
  · rw [hbad, self_eq_append_right] at hcalls
    cases hcalls
  obtain ⟨m, entry, is1, name, -, hparsed, -, hrun⟩ := hgood
  have hpre := tarThen_calls env ops cb m (tarCall ops cb is1
    { st with name := name, fin := st.fin || decide (512 ∣ x.1.name.length) } entry)
  rw [← hrun, hcalls, tarCall_calls, prefix_append_right_inj, cons_prefix_cons] at hpre
  obtain ⟨rfl, -⟩ := hpre
  exact ⟨(hparsed.same_iff hx.reg).1 hsame, hzeros⟩

/-- the callback's state after the entries and their data -/
def seenEntries (f : κ → ArchiveEntry → Bytes → κ) (s : κ) (es : List ArchiveEntry)
    (datas : List Bytes) : κ :=
  (es.zip datas).foldl (fun s x => f s x.1 x.2) s

/-- an archive that survives is parsed, and the calls are those of the entries for no other one -/
theorem tarLoop_entries (hl : ∀ x ∈ l, TarInput x) {n : ℕ} {is : Istream σ} (st : TarParser κ)
    (h : InFront R is st (l.flatMap entryBytes ++ endBytes)) (hn : 3 * l.length + 3 ≤ n) :
    (Writable st.fin l → ∃ is' st' es, tarLoop env ops cb n is st = (some 0, is', st') ∧ 0 ≤ is'.err ∧
      st'.calls = st.calls ++ es ∧ List.Forall₂ SameEntry es (l.map Prod.fst) ∧
      st'.cbs = seenEntries f st.cbs es (l.map Prod.snd)) ∧
    ∀ es, (tarLoop env ops cb n is st).2.2.calls = st.calls ++ es →
      List.Forall₂ SameEntry es (l.map Prod.fst) → Writable st.fin l := by
  induction l generalizing n is st with
  | nil =>
    refine ⟨fun _ => ?_, fun _ _ _ => ⟨nofun, (Nat.zero_add _).trans_le (Bool.toNat_le _)⟩⟩
    obtain ⟨m, rfl⟩ := Nat.exists_eq_add_of_le' hn
    obtain ⟨is', st', hrun, herr', hcalls, hcbs⟩ := tarLoop_end env cb hops h.ready m st
    exact ⟨is', st', [], hrun, herr', hcalls.trans (append_nil _).symm, .nil, hcbs⟩
  | cons x l ih =>
    rw [length_cons] at hn
    obtain ⟨k, rfl⟩ : ∃ k, n = k + 3 := ⟨n - 3, by omega⟩
    rw [flatMap_cons, append_assoc] at h
    obtain ⟨hx, hl⟩ := forall_mem_cons.1 hl
    rw [writable_cons_iff]
    by_cases hgood : FitsHeader x.1 ∧ ¬ (512 ∣ x.1.name.length ∧ st.fin = true)
    · obtain ⟨m, entry, is1, st1, hm, hsame, h1, hfin1, hcbs1, hcalls1, hrun1⟩ :=
        tarLoop_next env hcb hops hx h hgood.1 hgood.2 k
      obtain ⟨hparsed, hcalled⟩ := ih hl (n := m) st1 h1 (by omega)
      rw [hfin1] at hparsed hcalled
      rw [hrun1]
      refine ⟨fun hw => ?_, fun es hcalls hes => ⟨hgood.1, hgood.2, ?_⟩⟩
      · obtain ⟨is2, st2, es, hrun2, herr2, hcalls2, hes, hcbs2⟩ := hparsed hw.2.2
        refine ⟨is2, st2, entry :: es, hrun2, herr2, ?_, .cons hsame hes, ?_⟩
        · rw [hcalls2, hcalls1, append_assoc, singleton_append]
        · rw [hcbs2, hcbs1]
          rfl
      · obtain _ | ⟨-, hes⟩ := hes
        have hpre := tarLoop_calls env ops cb m is1 st1
        rw [hcalls, hcalls1, prefix_append_right_inj, cons_prefix_cons] at hpre
        obtain ⟨rfl, -⟩ := hpre
        rw [← singleton_append, ← append_assoc, ← hcalls1] at hcalls
        exact hcalled _ hcalls hes
    · refine ⟨fun hw => absurd ⟨hw.1, hw.2.1⟩ hgood, fun es hcalls hes => ?_⟩
      obtain _ | ⟨hsame, -⟩ := hes
      exact absurd (fits_of_calls env hops hx h hcalls hsame) hgood

end

/-- the callback is called once for each entry, in order, with its fields and its data, and the
parser returns 0 -/
structure TarRoundTrip (f : κ → ArchiveEntry → Bytes → κ) (l : List (ArchiveEntry × Bytes)) (cbs : κ)
    (o : Option ℤ × TarParser κ) : Prop where
  result : o.1 = some 0
  calls : List.Forall₂ SameEntry o.2.calls (l.map Prod.fst)
  seen : o.2.cbs = seenEntries f cbs o.2.calls (l.map Prod.snd)

/-- The archives that come back, through any stream that delivers their bytes. -/
theorem tar_round_trip_iff (hcb : cb.OfPayload f) (hops : Delivers ops R)
    (hclose : ∀ s e, ops.close s e = if e < 0 then e else 0) {l : List (ArchiveEntry × Bytes)}
    (hl : ∀ x ∈ l, TarInput x) (h : is.Holds R (tarArchive l)) (herr : 0 ≤ is.err) {fuel : ℕ}
    (hfuel : 3 * l.length + 3 ≤ fuel) (cbs : κ) :
    TarRoundTrip f l cbs (apkTarParse env ops cb is fuel cbs) ↔ Writable false l := by
  rw [tarArchive_eq hl] at h
  obtain ⟨hparsed, hcalled⟩ := tarLoop_entries env hcb hops hl (TarParser.init cbs) ⟨⟨h, herr⟩, rfl, rfl⟩ hfuel
  constructor
  · rintro ⟨hresult, hcalls, -⟩
    refine hcalled _ ?_ hcalls
    change _ = (apkTarParse env ops cb is fuel cbs).2.calls
    unfold apkTarParse
    split <;> simp_all
  intro hw
  obtain ⟨is', st', es, hrun, herr', hcalls, hes, hcbs⟩ := hparsed hw
  have hcalls' : st'.calls = es := hcalls
  have hparse : apkTarParse env ops cb is fuel cbs = (some 0, st') := by
    rw [apkTarParse, hrun]
    simp [apkIstreamCloseError_eq hclose herr' le_rfl]
  rw [hparse]
  exact ⟨rfl, hcalls' ▸ hes, hcalls' ▸ hcbs⟩

/-- the parser stops with an error at the second name whose length 512 divides -/
theorem apkTarParse_lost (hcb : cb.OfPayload f) (hops : Delivers ops R)
    (hclose : ∀ s e, ops.close s e = if e < 0 then e else 0) {y : ArchiveEntry × Bytes}
    (hl : ∀ z ∈ x :: y :: l, TarInput z) (hfits : FitsHeader x.1) (hxdiv : 512 ∣ x.1.name.length)
    (hydiv : 512 ∣ y.1.name.length) (h : is.Ready R (tarArchive (x :: y :: l))) (n : ℕ) (cbs : κ) :
    ∃ entry st', SameEntry entry x.1 ∧ st'.cbs = f cbs entry x.2 ∧
      apkTarParse env ops cb is (n + 6) cbs = (some (-apkeEof), st') := by
  rw [tarArchive_eq hl, flatMap_cons, flatMap_cons, append_assoc, append_assoc] at h
  obtain ⟨hx, hyl⟩ := forall_mem_cons.1 hl
  obtain ⟨hy, -⟩ := forall_mem_cons.1 hyl
  have h0 : InFront R is (TarParser.init cbs) _ := ⟨h, rfl, rfl⟩
  obtain ⟨m, entry, is1, st1, hm, hsame, h1, hfin1, hcbs1, -, hrun1⟩ :=
    tarLoop_next env hcb hops hx h0 hfits (fun h => Bool.false_ne_true h.2) (n + 3)
  obtain ⟨k, rfl⟩ : ∃ k, m = k + 3 := ⟨m - 3, by omega⟩
  rw [decide_eq_true hxdiv] at hfin1
  rcases tarLoop_entry env cb hops hy h1 k with ⟨-, is2, herr2, hrun2⟩ | ⟨hno, -⟩
  · refine ⟨entry, { st1 with name := some y.1.name }, hsame, hcbs1, ?_⟩
    rw [apkTarParse, hrun1, hrun2]
    simp [apkIstreamCloseError_eq hclose herr2 (show -apkeEof ≤ 0 by decide)]
  · exact absurd ⟨hydiv, hfin1⟩ hno

end

def plainEnv : TarEnv := ⟨fun _ id => id, fun _ id => id, fun _ => []⟩

def plainFile (name data : Bytes) : ArchiveEntry × Bytes where
  fst := {
    name := name
    linkTarget := none
    size := data.length
    uid := 0
    gid := 0
    mode := sIfreg ||| 0o644
    digestAlg := 0
    digest := []
    xattrDigest := []
    uname := none
    gname := none
    mtime := 1
    device := (0, 0)
    xattrs := [] }
  snd := data

theorem plainFile_input (hne : name ≠ []) (hzero : ∀ c ∈ name, c ≠ 0)
    (hlt : name.length < pathMax - 10) : TarInput (plainFile name data) :=
  ⟨decide_eq_true (show (sIfreg ||| 0o644) &&& sIfmt = sIfreg by decide), hne, hzero, hlt, rfl⟩

theorem plainFile_fits (h : data.length < 2 ^ 31) : FitsHeader (plainFile name data).1 where
  size := by
    change toInt32 data.length % 2 ^ 36 = data.length
    rw [toInt32_of_lt h]
    omega
  mode := by
    change sIfreg ||| 0o644 < 2 ^ 16
    decide
  mtime := ⟨zero_le_one, one_lt_two.trans (by norm_num)⟩

def letters (n : ℕ) (c : Char) : Bytes := List.replicate n (asc c)

theorem letters_input {n : ℕ} {c : Char} (hn : n ≠ 0) (hc : asc c ≠ 0) (hlt : n < pathMax - 10) :
    TarInput (plainFile (letters n c) data) := by
  refine plainFile_input ?_ ?_ ?_
  · rwa [letters, ne_eq, replicate_eq_nil_iff]
  · intro d hd
    rw [eq_of_mem_replicate hd]
    exact hc
  · rwa [letters, length_replicate]

/-- a callback that keeps the name and the data of each entry -/
def recordEntry : TarCallback (List (Bytes × Bytes)) := fun _ ops s entry is =>
  match apkIstreamReadMax ops is (2 ^ 16) with
  | (_, b, is) => (0, s ++ [(entry.name, b)], is)

theorem recordEntry_ofPayload :
    recordEntry.OfPayload fun s entry p => s ++ [(entry.name, p.take (2 ^ 16))] := by
  intro τ ops R is p s entry hops h herr
  obtain ⟨is', hread, -⟩ := apkIstreamReadMax_holds hops ⟨h, herr⟩ (2 ^ 16)
  have hrun : (apkIstreamReadMax ops is (2 ^ 16)).2.2 = is' := by rw [hread]
  refine ⟨is', ?_, hrun ▸ .readMax (2 ^ 16) .refl⟩
  rw [recordEntry, hread]

def lettersArchive (names : List (ℕ × Char)) : List (ArchiveEntry × Bytes) :=
  names.map fun x => plainFile (letters x.1 x.2) [7]

theorem lettersArchive_input (names : List (ℕ × Char))
    (h : ∀ x ∈ names, x.1 ≠ 0 ∧ asc x.2 ≠ 0 ∧ x.1 < pathMax - 10) :
    ∀ x ∈ lettersArchive names, TarInput x ∧ FitsHeader x.1 := by
  intro x hx
  obtain ⟨y, hy, rfl⟩ := mem_map.1 hx
  obtain ⟨hn, hc, hlt⟩ := h y hy
  exact ⟨letters_input hn hc hlt, plainFile_fits (by decide)⟩

/-- the second of two names of 512 bytes is lost, and so is what follows it -/
theorem tar_long_names_lost :
    let l := lettersArchive [(512, 'a'), (512, 'b'), (1, 'c')]
    let parsed := apkTarParse plainEnv (pieceOps 512) recordEntry (pieceStream 64 (tarArchive l)) 12 []
    (∀ x ∈ l, TarInput x ∧ FitsHeader x.1) ∧ parsed.1 = some (-apkeEof) ∧
      parsed.2.cbs = [(letters 512 'a', [7])] := by
  have hl := lettersArchive_input [(512, 'a'), (512, 'b'), (1, 'c')] (by decide)
  have hdiv : ∀ c : Char, 512 ∣ (letters 512 c).length := fun c => by
    rw [letters, length_replicate]
  obtain ⟨entry, st', hsame, hcbs, hrun⟩ := apkTarParse_lost plainEnv recordEntry_ofPayload
    (pieceOps_delivers (k := 512) (by decide)) (fun _ _ => rfl) (fun x hx => (hl x hx).1)
    (hl _ mem_cons_self).2 (hdiv 'a') (hdiv 'b')
    ⟨pieceStream_holds (show 8 ≤ 64 by decide) _, le_rfl⟩ 6 []
  rw [hsame.name] at hcbs
  intro l parsed
  have hparsed : parsed = (some (-apkeEof), st') := hrun
  refine ⟨hl, by rw [hparsed], ?_⟩
  rw [hparsed, hcbs]
  rfl

theorem tar_round_trip_letters :
    let l := lettersArchive [(1, 'a'), (512, 'b'), (100, 'c')]
    TarRoundTrip (fun s entry p => s ++ [(entry.name, p.take (2 ^ 16))]) l []
      (apkTarParse plainEnv (pieceOps 7) recordEntry (pieceStream 64 (tarArchive l)) 12 []) := by
  have hl := lettersArchive_input [(1, 'a'), (512, 'b'), (100, 'c')] (by decide)
  refine (tar_round_trip_iff plainEnv recordEntry_ofPayload (pieceOps_delivers (by decide))
    (fun _ _ => rfl) (fun x hx => (hl x hx).1) (pieceStream_holds (by decide) _) le_rfl le_rfl []).2
    ⟨fun x hx => (hl x hx).2, ?_⟩
  decide +kernel

end Alpine

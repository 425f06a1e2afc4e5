import Alpine.Proofs.BlobCodecs
import Alpine.Spec.Dep

/-! The text of a digest. A text that only begins like one does not leave the digest unset: what was
decoded before the fault stays in it, and a dependency on a checksum compares just that. -/

namespace Alpine

open ApkDigest Option Window

open List hiding Vector

/-- the text is one of these bytes, in hexadecimal or in base64 -/
def Encoded (encoding : UInt8) (text d : Bytes) : Prop :=
  if encoding = asc 'X' then text.map hexFold = hexText d else text = base64Text d

def IsEncoding (encoding : UInt8) : Prop := encoding = asc 'X' ∨ encoding = asc 'Q'

instance (encoding : UInt8) : Decidable (IsEncoding encoding) := by unfold IsEncoding; infer_instance

/-- the texts of the digest `d` of an algorithm -/
inductive DigestText : Bytes → ℕ → Bytes → Prop
  | plain {encoding kind : UInt8} {alg : ℕ} {x d : Bytes} (hencoding : IsEncoding encoding)
      (hkind : kind = asc '1' ∧ alg = apkDigestSha1 ∨ kind = asc '2' ∧ alg = apkDigestSha256)
      (hx : Encoded encoding x d) (hd : d.length = apkDigestAlgLen alg) :
      DigestText (encoding :: kind :: x) alg d
  | long {encoding : UInt8} {x y d e : Bytes} (hencoding : IsEncoding encoding)
      (hx : Encoded encoding x d) (hd : d.length = 20) (hy : Encoded encoding y e)
      (he : e.length = 12) :
      DigestText (encoding :: asc '1' :: (x ++ y)) apkDigestSha256 (d ++ e)

/-- the text of the 12 bytes by which the long digest is longer -/
def longLen (encoding : UInt8) : ℕ := if encoding = asc 'X' then 24 else 16

def isDigestDigit (encoding c : UInt8) : Bool :=
  if encoding = asc 'X' then dx c ≠ 0xff else b64decode c ≠ 0xff

/-- what is read as a digest and as the longer part of one is the text of some bytes -/
def DigestOk (t : Bytes) : Prop :=
  ∀ encoding kind body, t = encoding :: kind :: body → IsEncoding encoding →
    kind = asc '1' ∨ kind = asc '2' →
    ∃ x rest d, body = x ++ rest ∧ Encoded encoding x d ∧ d.length = (if kind = asc '1' then 20 else 32) ∧
      (kind = asc '1' → rest.length = longLen encoding → rest.head?.any (isDigestDigit encoding) →
        ∃ e, Encoded encoding rest e ∧ e.length = 12)

/-- what the text of so many bytes decodes to, and the rest -/
def decodeOf (encoding : UInt8) : ℕ → Bytes → Option (Bytes × Bytes) :=
  if encoding = asc 'X' then apkBlobPullHexdump else apkBlobPullBase64

/-- what is read as a digest of 20 bytes is the text of some bytes and nothing follows, or it is taken
for the longer one -/
def ChecksumOk (t : Bytes) : Prop :=
  ∀ encoding body, t = encoding :: asc '1' :: body → IsEncoding encoding →
    (∃ d, Encoded encoding body d ∧ d.length = 20) ∨
      ∃ d rest, decodeOf encoding 20 body = some (d, rest) ∧ rest.length = longLen encoding ∧
        rest.head?.any (isDigestDigit encoding)

/-- a digest was pulled: there is none, and the digest is unset, or it is that of what was consumed -/
def DigestPulled (t : Bytes) (w : Window) (p : Option Window × ApkDigest) : Prop :=
  (p.1 = none ∧ p.2.alg = apkDigestNone ∧ p.2.len = 0) ∨
    ∃ text rest, t = text ++ rest ∧ p.1 = some (w.skip text.length) ∧ DigestText text p.2.alg p.2.blob

section

variable (mem : ℕ → UInt8)

/-- what a digest needs of the way it is encoded -/
structure Codec (pull : Option Window → Bytes → Pulled) (size : ℕ → ℕ) (Enc : Bytes → Bytes → Prop) :
    Prop where
  length : ∀ {x d}, Enc x d → x.length = size d.length
  reads : ∀ {w : Window} {x rest d dst}, 0 ≤ w.len → w.bytes mem = x ++ rest → Enc x d →
    dst.length = d.length →
      (pull (some w) dst).blob = some (w.skip x.length) ∧ (pull (some w) dst).dst = d
  skips : ∀ {w w' : Window} {dst}, (pull (some w) dst).blob = some w' → w' = w.skip (size dst.length)

theorem hexCodec : Codec mem (pullHexdump mem) (2 * ·) (Encoded (asc 'X')) where
  length h := by
    rw [← length_hexText, ← h, length_map]
  reads hw hmem h hdst := by
    rw [pullHexdump_fold mem hw hdst h hmem, ← length_hexText, ← h, length_map]
    exact ⟨rfl, rfl⟩
  skips h := by
    rw [(pullHexdump_eq mem _ _).1] at h
    split_ifs at h
    rw [← some.inj h, Nat.mul_comm]

theorem base64Codec : Codec mem (pullBase64 mem) b64Needed (Encoded (asc 'Q')) where
  length h := by
    rw [h, length_base64Text]
  reads {w x rest d dst} hw hmem h hdst := by
    have hlen : b64Needed d.length ≤ w.len.toNat := by
      rw [← w.length_bytes mem, hmem, h, length_append, length_base64Text]
      exact Nat.le_add_right _ _
    rw [pullBase64_some_iff hw, h, length_base64Text, hmem, h, hdst, apkBlobPullBase64_base64Text]
    exact ⟨rfl, by omega, rest, rfl⟩
  skips h := by
    simp only [pullBase64] at h
    split_ifs at h with hshort hgood
    exact (some.inj h).symm

variable {w : Window} {b e rest x : Bytes}

theorem Window.bytes_skip {a : Bytes} (h : w.bytes mem = a ++ b) : (w.skip a.length).bytes mem = b := by
  have hlen := congrArg List.length h
  rw [w.length_bytes, length_append] at hlen
  have hcount : (w.skip a.length).len.toNat = b.length := by
    simp only [skip]
    omega
  have hbytes : (w.skip a.length).bytes mem = (w.bytes mem).drop a.length := by
    refine ext_getElem (by rw [length_drop, length_bytes, length_bytes]; omega) ?_
    intro i h1 h2
    simp only [bytes, skip, getElem_map, getElem_drop, getElem_range]
    rw [Nat.add_assoc]
  rw [hbytes, h, drop_left]

variable {mem} {pull : Option Window → Bytes → Pulled} {size : ℕ → ℕ} {Enc : Bytes → Bytes → Prop}

theorem Codec.pullInto (C : Codec mem pull size Enc) (hw : 0 ≤ w.len)
    (hmem : w.bytes mem = x ++ rest) (hx : Enc x e) (d : ApkDigest) (o : ℕ)
    (hroom : o + e.length ≤ d.data.length) :
    Alpine.pullInto pull (some w) d o e.length =
      (some (w.skip x.length), { d with data := d.data.take o ++ e ++ d.data.drop (o + e.length) }) := by
  have hlen : ((d.data.drop o).take e.length).length = e.length := by
    rw [length_take, length_drop]
    omega
  obtain ⟨hblob, hdst⟩ := C.reads hw hmem hx hlen
  rw [Alpine.pullInto, hblob, hdst]

theorem Window.head {c : UInt8} (h : w.bytes mem = c :: b) : mem w.ptr = c :=
  (holds mem (a := [c]) (b := b) h).1

theorem Codec.pullEncoded (C : Codec mem pull size Enc) (hw : 0 ≤ w.len)
    (hmem : w.bytes mem = x ++ rest) (hx : Enc x e) {long : ℕ} (hlong : 0 < long)
    (digit : UInt8 → Bool) (d : ApkDigest) (hlen : d.len = e.length)
    (hroom : e.length ≤ d.data.length) :
    Alpine.pullEncoded mem pull long digit w d =
      if d.alg = apkDigestSha1 ∧ rest.length = long ∧ rest.head?.any digit then
        Alpine.pullInto pull (some (w.skip x.length))
          (apkDigestSet { d with data := e ++ d.data.drop e.length } apkDigestSha256) 20 12
      else (some (w.skip x.length), { d with data := e ++ d.data.drop e.length }) := by
  have hpull := C.pullInto hw hmem hx d 0 (by omega)
  rw [Nat.zero_add] at hpull
  rw [← hlen] at hpull ⊢
  rw [Alpine.pullEncoded, hpull]
  have hrest := bytes_skip mem hmem
  have hcount : (w.skip x.length).len = rest.length := by
    have := congrArg List.length hmem
    rw [w.length_bytes, length_append] at this
    simp only [skip]
    omega
  refine if_congr ?_ rfl rfl
  rw [hcount, Int.natCast_inj]
  cases rest with
  | nil =>
    simp only [length_nil]
    omega
  | cons c rest => rw [head hrest, head?_cons, any_some]

end

section

variable (mem : ℕ → UInt8)

def pullOf (encoding : UInt8) : Option Window → Bytes → Pulled :=
  if encoding = asc 'X' then pullHexdump mem else pullBase64 mem

def textSize (encoding : UInt8) : ℕ → ℕ := if encoding = asc 'X' then (2 * ·) else b64Needed

variable {encoding : UInt8} {w : Window} {d : ApkDigest} {rest hash : Bytes}

theorem codecOf (h : IsEncoding encoding) :
    Codec mem (pullOf mem encoding) (textSize encoding) (Encoded encoding) := by
  rcases h with rfl | rfl
  · exact hexCodec mem
  · exact base64Codec mem

theorem longLen_eq (h : IsEncoding encoding) :
    textSize encoding 12 = longLen encoding ∧ 0 < longLen encoding := by
  rcases h with rfl | rfl <;> decide

theorem hexLoop_decodes {n : ℕ} : ∀ (b : Bytes) (s : ℕ) {r : ℕ}, 2 * n ≤ b.length → Holds mem s b →
    (apkBlobPullHexdump n b = none → ∃ i < 2 * n, dx (mem (s + i)) = 0xff) ∧
      ∀ e rest, apkBlobPullHexdump n b = some (e, rest) →
        (∀ i < 2 * n, dx (mem (s + i)) ≠ 0xff) ∧ (hexLoop mem n s r).2 = e ∧ rest = b.drop (2 * n) := by
  induction n with
  | zero => intro b s r _ _; simp [apkBlobPullHexdump, hexLoop]
  | succ n ih =>
    intro b s r hlen hb
    obtain _ | ⟨c0, _ | ⟨c1, b⟩⟩ := b
    · simp only [length_nil] at hlen; omega
    · simp only [length_cons, length_nil] at hlen; omega
    · obtain ⟨h0, h1, hb⟩ := hb
      have hrest := ih b (s + 2) (r := r ||| dx (mem s) ||| dx (mem (s + 1)))
        (by simp only [length_cons] at hlen; omega) hb
      simp only [apkBlobPullHexdump]
      split_ifs with hbad
      · refine ⟨fun _ => ?_, fun e rest hsome => hsome.elim⟩
        rcases hbad with hbad | hbad
        · exact ⟨0, by omega, by rw [Nat.add_zero, h0]; exact hbad⟩
        · exact ⟨1, by omega, by rw [h1]; exact hbad⟩
      rw [not_or] at hbad
      refine ⟨fun hnone => ?_, fun e rest hsome => ?_⟩
      · obtain ⟨i, hi, hdx⟩ := hrest.1 (map_eq_none_iff.1 hnone)
        exact ⟨i + 2, by omega, by rw [Nat.add_comm i 2, ← Nat.add_assoc]; exact hdx⟩
      · obtain ⟨⟨e', rest'⟩, hpull, heq⟩ := map_eq_some_iff.1 hsome
        obtain ⟨rfl, rfl⟩ := Prod.mk.inj heq
        obtain ⟨hall, hdst, rfl⟩ := hrest.2 e' rest' hpull
        refine ⟨fun i hi => ?_, ?_, ?_⟩
        · obtain _ | _ | i := i
          · rw [Nat.add_zero, h0]; exact hbad.1
          · rw [h1]; exact hbad.2
          · rw [Nat.add_assoc, Nat.add_comm i 2, ← Nat.add_assoc]
            exact hall i (by omega)
        · simp only [hexLoop]
          rw [hdst, h0, h1]
          rfl
        · rw [Nat.mul_succ]
          rfl

omit mem in
/-- what is decoded does not depend on what follows -/
theorem decodeOf_split (hencoding : IsEncoding encoding) {n : ℕ} {b e rest : Bytes}
    (h : decodeOf encoding n b = some (e, rest)) : ∃ x, b = x ++ rest ∧ x.length = textSize encoding n ∧ e.length = n ∧
      ∀ r, decodeOf encoding n (x ++ r) = some (e, r) := by
  rcases hencoding with rfl | rfl
  · change ∃ x, b = x ++ rest ∧ x.length = 2 * n ∧ e.length = n ∧ ∀ r, apkBlobPullHexdump n (x ++ r) = some (e, r)
    change apkBlobPullHexdump n b = some (e, rest) at h
    induction n, b using apkBlobPullHexdump.induct generalizing e rest with
    | case1 b =>
      obtain ⟨rfl, rfl⟩ := Prod.mk.inj (some.inj h)
      exact ⟨[], rfl, rfl, rfl, fun _ => rfl⟩
    | case2 n s0 s1 b hbad => simp [apkBlobPullHexdump, hbad] at h
    | case3 n s0 s1 b hbad ih =>
      rw [apkBlobPullHexdump, if_neg hbad, map_eq_some_iff] at h
      obtain ⟨⟨e', rest'⟩, hq, heq⟩ := h
      obtain ⟨rfl, rfl⟩ := Prod.mk.inj heq
      obtain ⟨x, rfl, hx, he, hall⟩ := ih hq
      refine ⟨s0 :: s1 :: x, rfl, by simp only [length_cons]; omega, by simp [he], fun r => ?_⟩
      simp only [cons_append, apkBlobPullHexdump, if_neg hbad, hall r, map_some]
    | case4 n b hb => simp [apkBlobPullHexdump] at h
  · change ∃ x, b = x ++ rest ∧ x.length = b64Needed n ∧ e.length = n ∧ ∀ r, apkBlobPullBase64 n (x ++ r) = some (e, r)
    change apkBlobPullBase64 n b = some (e, rest) at h
    induction n, b using apkBlobPullBase64.induct generalizing e rest with
    | case1 b =>
      obtain ⟨rfl, rfl⟩ := Prod.mk.inj (some.inj h)
      exact ⟨[], rfl, rfl, rfl, fun _ => by simp [apkBlobPullBase64]⟩
    | case2 s0 s1 s2 s3 b hpad => simp [apkBlobPullBase64, hpad] at h
    | case3 s0 s1 s2 s3 b hpad =>
      rw [apkBlobPullBase64, if_neg hpad, map_eq_some_iff] at h
      obtain ⟨g, hg, heq⟩ := h
      obtain ⟨rfl, rfl⟩ := Prod.mk.inj heq
      exact ⟨[s0, s1, s2, s3], rfl, rfl, rfl, fun r => by simp [apkBlobPullBase64, hpad, hg]⟩
    | case4 s0 s1 s2 s3 b hpad => simp [apkBlobPullBase64, hpad] at h
    | case5 s0 s1 s2 s3 b hpad =>
      rw [apkBlobPullBase64, if_neg hpad, map_eq_some_iff] at h
      obtain ⟨g, hg, heq⟩ := h
      obtain ⟨rfl, rfl⟩ := Prod.mk.inj heq
      exact ⟨[s0, s1, s2, s3], rfl, rfl, rfl, fun r => by simp [apkBlobPullBase64, hpad, hg]⟩
    | case6 n s0 s1 s2 s3 b ih =>
      simp only [apkBlobPullBase64, bind_eq_some_iff, map_eq_some_iff] at h
      obtain ⟨g, hg, ⟨e', rest'⟩, hq, heq⟩ := h
      obtain ⟨rfl, rfl⟩ := Prod.mk.inj heq
      obtain ⟨x, rfl, hx, he, hall⟩ := ih hq
      refine ⟨s0 :: s1 :: s2 :: s3 :: x, rfl, by simp only [length_cons, b64Needed_succ]; omega, by simp [he],
        fun r => ?_⟩
      simp only [cons_append, apkBlobPullBase64, hg, hall r, bind_some, map_some]
    | case7 n src h0 h1 h2 h3 =>
      rw [apkBlobPullBase64.eq_5 n src h0 h1 h2 h3] at h
      cases h

/-- where the text is not too short, the codecs read what it decodes to -/
theorem pullOf_decodes (hencoding : IsEncoding encoding) (hw : 0 ≤ w.len) (dst : Bytes)
    (hlen : textSize encoding dst.length ≤ (w.bytes mem).length) :
    (decodeOf encoding dst.length (w.bytes mem) = none → (pullOf mem encoding (some w) dst).blob = none) ∧
      ∀ e rest, decodeOf encoding dst.length (w.bytes mem) = some (e, rest) →
        (pullOf mem encoding (some w) dst).blob = some (w.skip (textSize encoding dst.length)) ∧
          (pullOf mem encoding (some w) dst).dst = e ∧ rest = (w.bytes mem).drop (textSize encoding dst.length) := by
  have hcount := w.length_bytes mem
  rcases hencoding with rfl | rfl
  · have hhex := hexLoop_decodes mem (n := dst.length) (w.bytes mem) w.ptr (r := 0) hlen
      (holds mem (b := []) (append_nil _).symm)
    have hblob := (pullHexdump_eq mem w dst).1
    refine ⟨fun hnone => ?_, fun e rest hsome => ?_⟩
    · exact hblob.trans (if_pos (Or.inr (hhex.1 hnone)))
    · obtain ⟨hall, hdst, hrest⟩ := hhex.2 e rest hsome
      have hroom : ¬ w.len * 2 < dst.length := by
        change 2 * dst.length ≤ _ at hlen
        omega
      refine ⟨?_, ?_, hrest⟩
      · have hno : ¬ (w.len * 2 < dst.length ∨ ∃ i < 2 * dst.length, dx (mem (w.ptr + i)) = 0xff) := by
          rintro (h | ⟨i, hi, h⟩)
          · exact hroom h
          · exact hall i hi h
        refine hblob.trans ((if_neg hno).trans ?_)
        rw [Nat.mul_comm]
        rfl
      · change (pullHexdump mem (some w) dst).dst = e
        rw [pullHexdump]
        simp only [if_neg hroom]
        exact hdst
  · refine ⟨fun hnone => ?_, fun e rest hsome => ?_⟩
    · by_contra hblob
      obtain ⟨w', hw'⟩ := Option.ne_none_iff_exists'.1 hblob
      obtain ⟨-, -, rest, hpull⟩ := (pullBase64_some_iff hw).1 ⟨hw', rfl⟩
      rw [show decodeOf (asc 'Q') = apkBlobPullBase64 from rfl, hpull] at hnone
      cases hnone
    · have hroom : (b64Needed dst.length : ℤ) ≤ w.len := by
        change b64Needed dst.length ≤ _ at hlen
        omega
      obtain ⟨hblob, hdst⟩ := (pullBase64_some_iff hw).2 ⟨rfl, hroom, rest, hsome⟩
      exact ⟨hblob, hdst, (apkBlobPullBase64_canonical hsome).2.1⟩

/-- a text that the codec takes, be it the one it writes or not -/
def Decoded (encoding : UInt8) (x d : Bytes) : Prop :=
  x.length = textSize encoding d.length ∧ ∀ r, decodeOf encoding d.length (x ++ r) = some (d, r)

theorem decodedCodec (hencoding : IsEncoding encoding) :
    Codec mem (pullOf mem encoding) (textSize encoding) (Decoded encoding) where
  length h := h.1
  reads {w x rest d dst} hw hmem h hdst := by
    have hlen : textSize encoding dst.length ≤ (w.bytes mem).length := by
      rw [hmem, length_append, hdst, h.1]
      exact Nat.le_add_right _ _
    obtain ⟨hblob, hd, -⟩ := (pullOf_decodes mem hencoding hw _ hlen).2 d rest (by rw [hdst, hmem]; exact h.2 rest)
    rw [h.1, ← hdst]
    exact ⟨hblob, hd⟩
  skips := (codecOf mem hencoding).skips

variable {kind : UInt8} {e : Bytes} {pull : Option Window → Bytes → Pulled} {digit : UInt8 → Bool}

/-- the algorithm that the second letter sets -/
def kindAlg (kind : UInt8) : ℕ := if kind = asc '1' then apkDigestSha1 else apkDigestSha256

abbrev pullKind (encoding kind : UInt8) (w : Window) (d : ApkDigest) : Option Window × ApkDigest :=
  pullEncoded mem (pullOf mem encoding) (longLen encoding) (isDigestDigit encoding) (w.skip 2)
    (apkDigestSet d (kindAlg kind))

theorem pullDigest_cons {body : Bytes} (hmem : w.bytes mem = encoding :: kind :: body) :
    pullDigest mem (some w) d =
      if (kind = asc '1' ∨ kind = asc '2') ∧ IsEncoding encoding then pullKind mem encoding kind w d
      else (none, apkDigestReset d) := by
  obtain ⟨h0, h1, -⟩ := holds mem (a := [encoding, kind]) (b := body) hmem
  have hlen := congrArg List.length hmem
  rw [w.length_bytes, length_cons, length_cons] at hlen
  simp only [pullDigest, h0, h1]
  rw [if_neg (by omega)]
  by_cases hkind : kind = asc '1' ∨ kind = asc '2'
  · have hno : ¬ (kind ≠ asc '1' ∧ kind ≠ asc '2') := by tauto
    rw [if_neg hno]
    by_cases hencoding : IsEncoding encoding
    · have hhead : (kind = asc '1' ∨ kind = asc '2') ∧ IsEncoding encoding := ⟨hkind, hencoding⟩
      rw [if_pos hhead]
      rcases hencoding with rfl | rfl <;> rfl
    · have hhead : ¬ ((kind = asc '1' ∨ kind = asc '2') ∧ IsEncoding encoding) := fun h => hencoding h.2
      rw [if_neg hhead, if_neg (fun h => hencoding (Or.inl h)), if_neg (fun h => hencoding (Or.inr h))]
      rfl
  · rw [if_pos (by tauto), if_neg (by tauto)]

theorem pullDigest_short (h : (w.bytes mem).length < 2) :
    pullDigest mem (some w) d = (none, apkDigestReset d) := by
  rw [w.length_bytes] at h
  exact if_pos (by omega)

theorem kindAlg_cases (h : kind = asc '1' ∨ kind = asc '2') :
    (kind = asc '1' ∧ kindAlg kind = apkDigestSha1 ∨ kind = asc '2' ∧ kindAlg kind = apkDigestSha256) ∧
      apkDigestAlgLen (kindAlg kind) = if kind = asc '1' then 20 else 32 := by
  rcases h with rfl | rfl <;> decide

theorem ApkDigest.blob_eq {t : Bytes} (hlen : d.len = e.length) (hdata : d.data = e ++ t) :
    d.blob = e := by
  rw [blob, hdata, hlen, take_left]

theorem pullDigest_of_ok (hw : 0 ≤ w.len) (hok : DigestOk (w.bytes mem)) (hd : d.data.length = 64) :
    DigestPulled (w.bytes mem) w (pullDigest mem (some w) d) := by
  match hmem : w.bytes mem with
  | [] | [_] =>
    rw [pullDigest_short mem (by rw [hmem]; simp)]
    exact Or.inl ⟨rfl, rfl, rfl⟩
  | encoding :: kind :: body =>
    rw [pullDigest_cons mem hmem]
    by_cases hhead : (kind = asc '1' ∨ kind = asc '2') ∧ IsEncoding encoding
    · rw [if_pos hhead]
      obtain ⟨hkind, hencoding⟩ := hhead
      obtain ⟨hcases, hlen⟩ := kindAlg_cases hkind
      obtain ⟨x, rest, e, rfl, hx, he, hext⟩ := hok encoding kind body hmem hencoding hkind
      rw [← hlen] at he
      have hbody : (w.skip 2).bytes mem = x ++ rest := bytes_skip mem (a := [encoding, kind]) hmem
      have hw' : 0 ≤ (w.skip 2).len := by
        have := congrArg List.length hmem
        rw [w.length_bytes] at this
        simp only [length_cons, skip] at this ⊢
        omega
      have hroom : e.length ≤ d.data.length := by
        rw [he, hlen, hd]
        split_ifs <;> decide
      have C := codecOf mem hencoding
      rw [pullKind, C.pullEncoded hw' hbody hx (longLen_eq hencoding).2 (isDigestDigit encoding)
        (apkDigestSet d (kindAlg kind)) he.symm hroom]
      refine Or.inr ?_
      split_ifs with hlong
      · obtain ⟨halg, hrest, hdigit⟩ := hlong
        have hone : kind = asc '1' := by
          rcases hcases with ⟨h, -⟩ | ⟨-, h⟩
          · exact h
          · exact absurd (h.symm.trans halg) (by decide)
        obtain ⟨e', hy, he'⟩ := hext hone hrest hdigit
        have he20 : e.length = 20 := by rw [he, hlen, if_pos hone]
        have hw'' : 0 ≤ ((w.skip 2).skip x.length).len := by
          have := congrArg List.length hbody
          rw [length_bytes, length_append] at this
          show 0 ≤ (w.skip 2).len - x.length
          omega
        have hall : ((w.skip 2).skip x.length).bytes mem = rest ++ [] := by
          rw [bytes_skip mem hbody, append_nil]
        have hpull := C.pullInto hw'' hall hy
          (apkDigestSet { apkDigestSet d (kindAlg kind) with
            data := e ++ (apkDigestSet d (kindAlg kind)).data.drop e.length } apkDigestSha256) 20
          (by simp only [apkDigestSet, length_append, length_drop]; omega)
        rw [he'] at hpull
        rw [hpull]
        refine ⟨encoding :: kind :: (x ++ rest), [], by rw [append_nil], ?_, ?_⟩
        · simp only [skip, length_cons, length_append, some.injEq, Window.mk.injEq]
          omega
        have hdata : (e ++ (apkDigestSet d (kindAlg kind)).data.drop e.length).take 20 = e := by
          rw [← he20, take_left]
        rw [blob_eq (e := e ++ e') (by simp only [length_append, he20, he']; rfl)
          (by simp only [apkDigestSet] at hdata ⊢; rw [hdata]), hone]
        exact .long hencoding hx he20 hy he'
      refine ⟨encoding :: kind :: x, rest, rfl, ?_, ?_⟩
      · simp only [skip, length_cons, some.injEq, Window.mk.injEq]
        omega
      · rw [blob_eq he.symm rfl]
        exact .plain hencoding hcases hx he
    · rw [if_neg hhead]
      exact Or.inl ⟨rfl, rfl, rfl⟩

theorem pullInto_alg (pull : Option Window → Bytes → Pulled) (b : Option Window) (d : ApkDigest)
    (o n : ℕ) : (pullInto pull b d o n).2.alg = d.alg := rfl

theorem pullEncoded_alg {long : ℤ} : (pullEncoded mem pull long digit w d).2.alg = d.alg ∨
      (pullEncoded mem pull long digit w d).2.alg = apkDigestSha256 := by
  have halg := pullInto_alg pull (some w) d 0 d.len
  rw [pullEncoded]
  match hpull : pullInto pull (some w) d 0 d.len with
  | (none, d') => exact Or.inl (by rw [hpull] at halg; exact halg)
  | (some w', d') =>
    rw [hpull] at halg
    simp only
    split_ifs
    · exact Or.inr rfl
    · exact Or.inl halg

theorem Codec.not_long {size : ℕ → ℕ} {Enc : Bytes → Bytes → Prop} (C : Codec mem pull size Enc)
    {long : ℕ} {w' : Window} {x : Bytes} (hmem : w.bytes mem = x ++ rest) (hx : Enc x e)
    (hlen : d.len = e.length) (hroom : d.len ≤ d.data.length) (hd : d.alg = apkDigestSha1)
    (hsome : (Alpine.pullEncoded mem pull long digit w d).1 = some w')
    (hshort : (Alpine.pullEncoded mem pull long digit w d).2.alg = apkDigestSha1) :
    ¬ (rest.length = long ∧ rest.head?.any digit) := by
  rintro ⟨hrest, hdigit⟩
  have halg := pullInto_alg pull (some w) d 0 d.len
  rw [Alpine.pullEncoded] at hsome hshort
  match hpull : Alpine.pullInto pull (some w) d 0 d.len with
  | (none, d') =>
    rw [hpull] at hsome
    cases hsome
  | (some w1, d') =>
    rw [hpull] at hshort halg
    have hskip := C.skips (show (pull (some w) ((d.data.drop 0).take d.len)).blob = some w1 from
      congrArg Prod.fst hpull)
    rw [drop_zero, length_take, min_eq_left hroom, hlen, ← C.length hx] at hskip
    match rest, hdigit with
    | c :: rest, hdigit =>
      have hcount := congrArg List.length hmem
      rw [w.length_bytes, length_append, length_cons] at hcount
      have hlong : w1.len = long ∧ digit (mem w1.ptr) := by
        subst hskip
        rw [head (bytes_skip mem hmem)]
        refine ⟨?_, hdigit⟩
        simp only [skip, ← hrest, length_cons]
        omega
      simp only at hshort
      rw [if_pos ⟨halg.trans hd, hlong⟩] at hshort
      exact absurd hshort (show apkDigestSha256 ≠ apkDigestSha1 by decide)

theorem ok_of_pullDigest (hd : d.data.length = 64)
    (h : DigestPulled (w.bytes mem) w (pullDigest mem (some w) d)) : DigestOk (w.bytes mem) := by
  intro encoding kind body hmem hencoding hkind
  have hhead : (kind = asc '1' ∨ kind = asc '2') ∧ IsEncoding encoding := ⟨hkind, hencoding⟩
  rw [pullDigest_cons mem hmem, if_pos hhead] at h
  obtain ⟨hcases, hlen⟩ := kindAlg_cases hkind
  rcases h with ⟨-, halg, -⟩ | ⟨text, rest, ht, hblob, htext⟩
  · exfalso
    rcases pullEncoded_alg mem with h | h
    · rw [halg] at h
      rcases hcases with ⟨-, hk⟩ | ⟨-, hk⟩ <;> exact absurd (h.trans hk) (by decide)
    · exact absurd (halg.symm.trans h) (by decide)
  rw [hmem] at ht
  generalize halg : (pullKind mem encoding kind w d).2.alg = alg at htext
  generalize (pullKind mem encoding kind w d).2.blob = dig at htext
  cases htext with
  | plain _ hk hx hdig =>
    obtain ⟨rfl, rfl, rfl⟩ := ht
    refine ⟨_, rest, dig, rfl, hx, ?_, fun hone hrest hdigit => ?_⟩
    · rcases hk with ⟨rfl, rfl⟩ | ⟨rfl, rfl⟩ <;> rw [hdig] <;> decide
    exfalso
    subst hone
    have halg1 : alg = apkDigestSha1 := by
      rcases hk with ⟨-, h⟩ | ⟨h, -⟩
      · exact h
      · exact absurd h (by decide)
    subst halg1
    have hbody := bytes_skip mem (a := [encoding, asc '1']) hmem
    exact (codecOf mem hencoding).not_long mem hbody hx hdig.symm
      (hd.symm ▸ (by decide : apkDigestAlgLen (kindAlg (asc '1')) ≤ 64)) rfl hblob halg ⟨hrest, hdigit⟩
  | long _ hx hdig hy he =>
    simp only [cons_append, append_assoc] at ht
    obtain ⟨rfl, rfl, rfl⟩ := ht
    refine ⟨_, _, _, rfl, hx, by rw [hdig]; decide, fun _ hrest _ => ⟨_, ?_, he⟩⟩
    -- the text of the longer part is all that follows
    have hy' := (codecOf mem hencoding).length hy
    rw [he, (longLen_eq hencoding).1] at hy'
    rw [length_append] at hrest
    rw [eq_nil_of_length_eq_zero (by omega : rest.length = 0), append_nil]
    exact hy

section

variable (hhash : hash.length = 20)
    (hmem : w.bytes mem = asc 'Q' :: asc '1' :: (base64Text hash ++ rest))
    (hrest : rest.head?.any (isDigestDigit (asc 'Q')) = false) (hd : d.data.length = 64)
include hhash hmem hrest hd

theorem pullDigest_hash : pullDigest mem (some w) d = (some (w.skip ((base64Text hash).length + 2)),
      { apkDigestSet d apkDigestSha1 with data := hash ++ d.data.drop hash.length }) := by
  have hencoding : IsEncoding (asc 'Q') := Or.inr rfl
  have hhead : (asc '1' = asc '1' ∨ asc '1' = asc '2') ∧ IsEncoding (asc 'Q') := ⟨Or.inl rfl, hencoding⟩
  have hbody : (w.skip 2).bytes mem = base64Text hash ++ rest :=
    bytes_skip mem (a := [asc 'Q', asc '1']) hmem
  have hw : 0 ≤ (w.skip 2).len := by
    have := congrArg List.length hmem
    rw [w.length_bytes] at this
    simp only [length_cons, skip] at this ⊢
    omega
  have hx : Encoded (asc 'Q') (base64Text hash) hash := by rw [Encoded, if_neg (by decide)]
  rw [pullDigest_cons mem hmem, if_pos hhead, pullKind, (codecOf mem hencoding).pullEncoded hw hbody hx
    (longLen_eq hencoding).2 (isDigestDigit (asc 'Q')) (apkDigestSet d (kindAlg (asc '1'))) hhash.symm
    (by rw [hhash]; exact hd.symm ▸ (by decide : 20 ≤ 64)), if_neg (by rw [hrest]; simp)]
  simp only [skip, Prod.mk.injEq, some.injEq, Window.mk.injEq]
  exact ⟨by omega, rfl⟩

theorem pullDigest_pushHash :
    (pullDigest mem (some w) d).1 = some (w.skip ((base64Text hash).length + 2)) ∧
      (pullDigest mem (some w) d).2.alg = apkDigestSha1 ∧ (pullDigest mem (some w) d).2.blob = hash := by
  rw [pullDigest_hash mem hhash hmem hrest hd]
  exact ⟨rfl, rfl, blob_eq hhash.symm rfl⟩

end

/-- the code goes on to the longer digest -/
def GoesLong (pull : Option Window → Bytes → Pulled) (long : ℤ) (digit : UInt8 → Bool) (w : Window) (d : ApkDigest) :
    Prop :=
  ∃ w', (pull (some w) (d.data.take d.len)).blob = some w' ∧ w'.len = long ∧ digit (mem w'.ptr) = true

theorem pullEncoded_long {long : ℤ} (halg : d.alg = apkDigestSha1) (hd : d.data.length = 64) (hlen : d.len = 20)
    (h : GoesLong mem pull long digit w d) : (pullEncoded mem pull long digit w d).2.blob.length = 32 := by
  obtain ⟨w', hw', hcond⟩ := h
  rw [pullEncoded, pullInto, drop_zero, hw']
  simp only
  rw [if_pos ⟨halg, hcond⟩, pullInto]
  simp only [blob, apkDigestSet, length_take, length_append, length_drop, take_zero, nil_append, hlen, hd]
  rw [show apkDigestAlgLen apkDigestSha256 = 32 from rfl]
  omega

theorem pullEncoded_plain {long : ℤ} (hd : d.data.length = 64) (hlen : d.len ≤ 32)
    (h : ¬ (d.alg = apkDigestSha1 ∧ GoesLong mem pull long digit w d)) :
    (pullEncoded mem pull long digit w d).2.blob.length = d.len := by
  have hblob : ∀ p : Bytes, (p ++ d.data.drop d.len).length = p.length + (64 - d.len) := by
    intro p
    rw [length_append, length_drop, hd]
  rw [pullEncoded, pullInto, drop_zero, take_zero, nil_append, Nat.zero_add]
  cases hp : (pull (some w) (d.data.take d.len)).blob with
  | none =>
    simp only [blob, length_take, hblob]
    omega
  | some w' =>
    simp only
    rw [if_neg fun hc => h ⟨hc.1, w', hp, hc.2⟩]
    simp only [blob, length_take, hblob]
    omega

theorem goesLong_iff (hencoding : IsEncoding encoding) (hw : 0 ≤ w.len) (hd : d.data.length = 64) (hlen : d.len = 20) :
    GoesLong mem (pullOf mem encoding) (longLen encoding) (isDigestDigit encoding) w d ↔
      ∃ e rest, decodeOf encoding 20 (w.bytes mem) = some (e, rest) ∧ rest.length = longLen encoding ∧
        rest.head?.any (isDigestDigit encoding) := by
  have hdst : (d.data.take d.len).length = 20 := by rw [length_take, hd, hlen]; rfl
  have hlong := (longLen_eq hencoding).2
  have hcount := w.length_bytes mem
  have hdecodes := pullOf_decodes mem hencoding hw (d.data.take d.len)
  rw [hdst] at hdecodes
  have hfollows : ∀ {rest : Bytes}, textSize encoding 20 ≤ (w.bytes mem).length →
      rest = (w.bytes mem).drop (textSize encoding 20) →
      ((w.skip (textSize encoding 20)).len = longLen encoding ∧
          isDigestDigit encoding (mem (w.skip (textSize encoding 20)).ptr) = true ↔
        rest.length = longLen encoding ∧ rest.head?.any (isDigestDigit encoding)) := by
    intro rest hroom hrest
    have hbytes : (w.skip (textSize encoding 20)).bytes mem = rest := by
      have hsplit : w.bytes mem = (w.bytes mem).take (textSize encoding 20) ++ rest := by
        rw [hrest, take_append_drop]
      have := bytes_skip mem hsplit
      rwa [length_take, Nat.min_eq_left hroom] at this
    have hlenrest := congrArg List.length hbytes
    rw [length_bytes] at hlenrest
    have hskip : (w.skip (textSize encoding 20)).len = w.len - textSize encoding 20 := rfl
    cases rest with
    | nil =>
      simp only [length_nil] at hlenrest ⊢
      refine iff_of_false (fun h => ?_) fun h => by omega
      omega
    | cons c rest =>
      rw [head hbytes, head?_cons, any_some]
      refine and_congr_left fun _ => ?_
      omega
  constructor
  · rintro ⟨w', hblob, hcond⟩
    obtain rfl := (codecOf mem hencoding).skips hblob
    rw [hdst] at hcond hblob
    have hroom : textSize encoding 20 ≤ (w.bytes mem).length := by
      have hskip : (w.skip (textSize encoding 20)).len = w.len - textSize encoding 20 := rfl
      have := hcond.1
      omega
    cases hdec : decodeOf encoding 20 (w.bytes mem) with
    | none =>
      rw [(hdecodes hroom).1 hdec] at hblob
      cases hblob
    | some r =>
      obtain ⟨e, rest⟩ := r
      have hrest := ((hdecodes hroom).2 e rest hdec).2.2
      exact ⟨e, rest, rfl, (hfollows hroom hrest).1 hcond⟩
  · rintro ⟨e, rest, hdec, hcond⟩
    have hroom : textSize encoding 20 ≤ (w.bytes mem).length := by
      obtain ⟨x, hx, hlen, -⟩ := decodeOf_split hencoding hdec
      rw [hx, length_append, hlen]
      exact Nat.le_add_right _ _
    obtain ⟨hblob, -, hrest⟩ := (hdecodes hroom).2 e rest hdec
    exact ⟨_, hblob, (hfollows hroom hrest).2 hcond⟩

theorem depMatchChecksum_eq_true : depMatchChecksum mem w d hash = true ↔ (pullDigest mem (some w) d).2.blob = hash := by
  rw [depMatchChecksum, decide_eq_true_iff, apkBlobCompare_eq_zero_iff]

theorem pullDigest_none (h : (w.bytes mem).length < 2 ∨ ∃ encoding kind body, w.bytes mem = encoding :: kind :: body ∧
      ¬ ((kind = asc '1' ∨ kind = asc '2') ∧ IsEncoding encoding)) :
    pullDigest mem (some w) d = (none, apkDigestReset d) := by
  rcases h with h | ⟨encoding, kind, body, hmem, hno⟩
  · exact pullDigest_short mem h
  · rw [pullDigest_cons mem hmem, if_neg hno]

theorem text_of_depMatchChecksum (hw : 0 ≤ w.len) (hd : d.data.length = 64) (hok : ChecksumOk (w.bytes mem))
    (hhash : hash.length = 20) (h : depMatchChecksum mem w d hash = true) : ∃ alg, DigestText (w.bytes mem) alg hash := by
  rw [depMatchChecksum_eq_true] at h
  by_cases hnone : (w.bytes mem).length < 2 ∨ ∃ encoding kind body, w.bytes mem = encoding :: kind :: body ∧
      ¬ ((kind = asc '1' ∨ kind = asc '2') ∧ IsEncoding encoding)
  · rw [pullDigest_none mem hnone] at h
    rw [← h] at hhash
    cases hhash
  rw [not_or] at hnone
  rcases hmem : w.bytes mem with _ | ⟨encoding, _ | ⟨kind, body⟩⟩
  · exact absurd (by rw [hmem]; simp) hnone.1
  · exact absurd (by rw [hmem]; simp) hnone.1
  have hhead : (kind = asc '1' ∨ kind = asc '2') ∧ IsEncoding encoding := by
    by_contra hno
    exact hnone.2 ⟨encoding, kind, body, hmem, hno⟩
  obtain ⟨hkind, hencoding⟩ := hhead
  rw [pullDigest_cons mem hmem, if_pos ⟨hkind, hencoding⟩] at h
  have hbody : (w.skip 2).bytes mem = body := bytes_skip mem (a := [encoding, kind]) hmem
  have hw' : 0 ≤ (w.skip 2).len := by
    have := congrArg List.length hmem
    rw [w.length_bytes] at this
    simp only [length_cons, skip] at this ⊢
    omega
  rcases hkind with rfl | rfl
  · rcases hok encoding body hmem hencoding with ⟨e, hx, he⟩ | hlong
    · have hpull := (codecOf mem hencoding).pullEncoded hw' (hbody.trans (append_nil body).symm) hx
        (longLen_eq hencoding).2 (isDigestDigit encoding) (apkDigestSet d (kindAlg (asc '1'))) he.symm
        (by rw [he]; exact hd.symm ▸ (by decide : 20 ≤ 64))
      rw [if_neg (by simp)] at hpull
      rw [pullKind, hpull, blob_eq he.symm rfl] at h
      subst h
      exact ⟨_, .plain hencoding (Or.inl ⟨rfl, rfl⟩) hx he⟩
    · rw [← hbody] at hlong
      have hgo := (goesLong_iff mem hencoding hw' (d := apkDigestSet d (kindAlg (asc '1'))) hd rfl).2 hlong
      have hlen := pullEncoded_long mem (d := apkDigestSet d (kindAlg (asc '1'))) rfl hd rfl hgo
      rw [h, hhash] at hlen
      cases hlen
  · have hno : ¬ ((apkDigestSet d (kindAlg (asc '2'))).alg = apkDigestSha1 ∧ GoesLong mem (pullOf mem encoding)
        (longLen encoding) (isDigestDigit encoding) (w.skip 2) (apkDigestSet d (kindAlg (asc '2')))) :=
      fun hc => absurd hc.1 (show kindAlg (asc '2') ≠ apkDigestSha1 by decide)
    have hlen := pullEncoded_plain mem (d := apkDigestSet d (kindAlg (asc '2'))) hd (le_refl 32) hno
    rw [h, hhash] at hlen
    cases hlen

theorem checksumOk_of_texts (hw : 0 ≤ w.len) (hd : d.data.length = 64)
    (hall : ∀ hash : Bytes, hash.length = 20 → depMatchChecksum mem w d hash = true →
      ∃ alg, DigestText (w.bytes mem) alg hash) : ChecksumOk (w.bytes mem) := by
  intro encoding body hmem hencoding
  have hbody : (w.skip 2).bytes mem = body := bytes_skip mem (a := [encoding, asc '1']) hmem
  have hw' : 0 ≤ (w.skip 2).len := by
    have := congrArg List.length hmem
    rw [w.length_bytes] at this
    simp only [length_cons, skip] at this ⊢
    omega
  by_cases hgo : GoesLong mem (pullOf mem encoding) (longLen encoding) (isDigestDigit encoding) (w.skip 2)
      (apkDigestSet d (kindAlg (asc '1')))
  · refine Or.inr ?_
    rw [← hbody]
    exact (goesLong_iff mem hencoding hw' (d := apkDigestSet d (kindAlg (asc '1'))) hd rfl).1 hgo
  -- the digest is of 20 bytes, so there is a hash that it matches
  refine Or.inl ?_
  have hpull : pullDigest mem (some w) d = pullKind mem encoding (asc '1') w d := by
    rw [pullDigest_cons mem hmem, if_pos ⟨Or.inl rfl, hencoding⟩]
  have hlen : (pullDigest mem (some w) d).2.blob.length = 20 := by
    rw [hpull]
    exact pullEncoded_plain mem (d := apkDigestSet d (kindAlg (asc '1'))) hd (show 20 ≤ 32 by decide)
      fun hc => hgo hc.2
  obtain ⟨alg, htext⟩ := hall _ hlen ((depMatchChecksum_eq_true mem).2 rfl)
  generalize (pullDigest mem (some w) d).2.blob = hash at hlen htext
  rw [hmem] at htext
  cases htext with
  | plain _ _ hx _ => exact ⟨hash, hx, hlen⟩
  | long _ _ hd' _ he =>
    rw [length_append, hd', he] at hlen
    cases hlen

theorem apkBlobPullDigest_cons {body : Bytes} (hkind : kind = asc '1' ∨ kind = asc '2') (hencoding : IsEncoding encoding) :
    apkBlobPullDigest (encoding :: kind :: body) =
      if kind = asc '1' then pullLong (decodeOf encoding) (longLen encoding) (isDigestDigit encoding) body
      else (decodeOf encoding 32 body).map fun r => (apkDigestSha256, r.1, r.2) := by
  rcases hkind with rfl | rfl <;> rcases hencoding with rfl | rfl <;> rfl

theorem head_of_apkBlobPullDigest {body : Bytes} {r : ℕ × Bytes × Bytes}
    (h : apkBlobPullDigest (encoding :: kind :: body) = some r) :
    (kind = asc '1' ∨ kind = asc '2') ∧ IsEncoding encoding := by
  by_contra hno
  rw [not_and_or, not_or] at hno
  rcases hno with ⟨h1, h2⟩ | hencoding
  · simp [apkBlobPullDigest, h1, h2] at h
  · rw [IsEncoding, not_or] at hencoding
    simp [apkBlobPullDigest, hencoding.1, hencoding.2] at h

omit mem in
theorem exists_decoded (hencoding : IsEncoding encoding) {n : ℕ} {b e : Bytes}
    (h : decodeOf encoding n b = some (e, rest)) : ∃ x, b = x ++ rest ∧ Decoded encoding x e ∧ e.length = n := by
  obtain ⟨x, hx, hlen, rfl, hall⟩ := decodeOf_split hencoding h
  exact ⟨x, hx, ⟨hlen, hall⟩, rfl⟩

/-- the first part is of the length that the second letter says -/
theorem pullDigest_first (hw : 0 ≤ (w.skip 2).len) (hd : d.data.length = 64) (hkind : kind = asc '1' ∨ kind = asc '2')
    (hencoding : IsEncoding encoding) {x e r : Bytes} (hmem : w.bytes mem = encoding :: kind :: (x ++ r))
    (hdec : Decoded encoding x e) (he : e.length = apkDigestAlgLen (kindAlg kind)) :
    pullDigest mem (some w) d =
      if kindAlg kind = apkDigestSha1 ∧ r.length = longLen encoding ∧ r.head?.any (isDigestDigit encoding) then
        Alpine.pullInto (pullOf mem encoding) (some ((w.skip 2).skip x.length)) (apkDigestSet
          { apkDigestSet d (kindAlg kind) with data := e ++ d.data.drop e.length } apkDigestSha256) 20 12
      else (some ((w.skip 2).skip x.length), { apkDigestSet d (kindAlg kind) with data := e ++ d.data.drop e.length }) := by
  have hroom : e.length ≤ d.data.length := by
    rw [he, (kindAlg_cases hkind).2, hd]
    split_ifs <;> decide
  have hbody : (w.skip 2).bytes mem = x ++ r := bytes_skip mem (a := [encoding, kind]) hmem
  rw [pullDigest_cons mem hmem, if_pos ⟨hkind, hencoding⟩]
  exact (decodedCodec mem hencoding).pullEncoded hw hbody hdec (longLen_eq hencoding).2 _ _ he.symm hroom

/-- the twelve bytes more of the longer digest -/
theorem pullInto_blob (hencoding : IsEncoding encoding) {v : Window} (hv : 0 ≤ v.len) {y e e' r : Bytes}
    (hmem : v.bytes mem = y ++ r) (hdec : Decoded encoding y e') (he : e.length = 20) (he' : e'.length = 12)
    {data : Bytes} (hdata : data.length = 64) (hfirst : data.take 20 = e) :
    (Alpine.pullInto (pullOf mem encoding) (some v) (apkDigestSet { d with data := data } apkDigestSha256) 20 12).2.blob =
      e ++ e' := by
  have hpull := (decodedCodec mem hencoding).pullInto hv hmem hdec
    (apkDigestSet { d with data := data } apkDigestSha256) 20 (by simp only [apkDigestSet]; omega)
  rw [he'] at hpull
  rw [hpull]
  refine blob_eq (e := e ++ e') (t := data.drop (20 + 12)) ?_ ?_
  · simp only [length_append, he, he']
    rfl
  · simp only [apkDigestSet, hfirst]

/-- where the text decodes, the digest on the memory is the decoded one -/
theorem pullDigest_decodes (hw : 0 ≤ w.len) (hd : d.data.length = 64) {alg : ℕ} {dig : Bytes}
    (h : apkBlobPullDigest (w.bytes mem) = some (alg, dig, rest)) :
    (pullDigest mem (some w) d).2.alg = alg ∧ (pullDigest mem (some w) d).2.blob = dig := by
  rcases hmem : w.bytes mem with _ | ⟨encoding, _ | ⟨kind, body⟩⟩
  · rw [hmem] at h; cases h
  · rw [hmem] at h; cases h
  rw [hmem] at h
  obtain ⟨hkind, hencoding⟩ := head_of_apkBlobPullDigest h
  have hbody : (w.skip 2).bytes mem = body := bytes_skip mem (a := [encoding, kind]) hmem
  have hw' : 0 ≤ (w.skip 2).len := by
    have := congrArg List.length hmem
    rw [w.length_bytes] at this
    simp only [length_cons, skip] at this ⊢
    omega
  rw [apkBlobPullDigest_cons hkind hencoding] at h
  rcases hkind with rfl | rfl
  · rw [if_pos rfl, pullLong, bind_eq_some_iff] at h
    obtain ⟨⟨e, r⟩, he, h⟩ := h
    obtain ⟨x, rfl, hdec, hcount⟩ := exists_decoded hencoding he
    rw [pullDigest_first mem hw' hd (Or.inl rfl) hencoding hmem hdec hcount]
    split_ifs at h with hlong
    · obtain ⟨⟨e', r'⟩, he', heq⟩ := map_eq_some_iff.1 h
      simp only [Prod.mk.injEq] at heq
      obtain ⟨rfl, rfl, rfl⟩ := heq
      obtain ⟨y, rfl, hdec', hcount'⟩ := exists_decoded hencoding he'
      have hw'' : 0 ≤ ((w.skip 2).skip x.length).len := by
        have := congrArg List.length hbody
        rw [length_bytes, length_append] at this
        show 0 ≤ (w.skip 2).len - x.length
        omega
      rw [if_pos ⟨rfl, hlong⟩]
      refine ⟨rfl, pullInto_blob mem hencoding hw'' (bytes_skip mem hbody) hdec' hcount hcount' ?_ ?_⟩
      · rw [length_append, length_drop]
        omega
      · rw [← hcount, take_left]
    · simp only [some.injEq, Prod.mk.injEq] at h
      obtain ⟨rfl, rfl, rfl⟩ := h
      rw [if_neg fun hc => hlong hc.2]
      exact ⟨rfl, blob_eq hcount.symm rfl⟩
  · rw [if_neg (by decide), map_eq_some_iff] at h
    obtain ⟨⟨e, r⟩, he, heq⟩ := h
    simp only [Prod.mk.injEq] at heq
    obtain ⟨rfl, rfl, rfl⟩ := heq
    obtain ⟨x, rfl, hdec, hcount⟩ := exists_decoded hencoding he
    rw [pullDigest_first mem hw' hd (Or.inr rfl) hencoding hmem hdec hcount, if_neg fun hc => absurd hc.1 (by decide)]
    exact ⟨rfl, blob_eq hcount.symm rfl⟩

/-- the test of the solver's model is the one on the memory; for a text that does not decode, the
database has what the digest is left with -/
theorem apkDepMatchChecksum_eq {N P : Type} [DecidableEq N] [DecidableEq P] (db : Database N P) (dep : Dependency N)
    (pkg : P) (hversion : dep.version = some (w.bytes mem)) (hw : 0 ≤ w.len) (hd : d.data.length = 64)
    (hleft : apkBlobPullDigest (w.bytes mem) = none →
      db.undecodedDigest dep.version = (pullDigest mem (some w) d).2.blob) :
    apkDepMatchChecksum db dep pkg = depMatchChecksum mem w d (db.package pkg).hash := by
  unfold apkDepMatchChecksum depMatchChecksum
  cases hpull : apkBlobPullDigest (w.bytes mem) with
  | none => simp only [hversion, bind_some, hpull, elim_none, ← hleft hpull]
  | some r =>
    obtain ⟨alg, dig, rest⟩ := r
    simp only [hversion, bind_some, hpull, elim_some, (pullDigest_decodes mem hw hd hpull).2]

end

/-- a digest is pulled as it is to be from just the blobs of `DigestOk`; the text of a hash is pulled
as the hash; and just for the version strings of `ChecksumOk` a checksum matches only the bytes that
they are the text of -/
theorem digest_text (mem : ℕ → UInt8) (ptr len alg0 len0 : ℕ) (data : Vector UInt8 64) :
    let w : Window := ⟨ptr, len⟩
    let d : ApkDigest := ⟨alg0, len0, data.toList⟩
    (DigestPulled (w.bytes mem) w (pullDigest mem (some w) d) ↔ DigestOk (w.bytes mem)) ∧
      (∀ (hash rest : Bytes) (room : ℕ) (s : Sink),
        apkBlobPushHash (some ⟨[], room⟩) hash = some s → w.bytes mem = s.out ++ rest →
        rest.head?.any (isDigestDigit (asc 'Q')) = false →
          (pullDigest mem (some w) d).1 = some (w.skip s.out.length) ∧
            (pullDigest mem (some w) d).2.alg = apkDigestSha1 ∧
            (pullDigest mem (some w) d).2.blob = hash) ∧
      ((∀ hash : Bytes, hash.length = 20 → depMatchChecksum mem w d hash = true →
          ∃ alg, DigestText (w.bytes mem) alg hash) ↔ ChecksumOk (w.bytes mem)) := by
  intro w d
  have hw : 0 ≤ w.len := Int.natCast_nonneg len
  have hd : d.data.length = 64 := by simp [d]
  refine ⟨⟨ok_of_pullDigest mem hd, fun hok => pullDigest_of_ok mem hw hok hd⟩, ?_, ?_⟩
  · intro hash rest room s hpush hmem hrest
    simp only [apkBlobPushHash] at hpush
    split_ifs at hpush with hhash
    simp only [apkBlobPushBlob, apkBlobPushBase64, bind_some] at hpush
    split_ifs at hpush with hroom
    · cases hpush
    simp only [bind_some] at hpush
    split_ifs at hpush
    cases hpush
    have hpull := pullDigest_pushHash mem hhash (by simpa using hmem) hrest hd
    simpa using hpull
  · exact ⟨checksumOk_of_texts mem hw hd, fun hok hash hhash => text_of_depMatchChecksum mem hw hd hok hhash⟩

/-- the text of twenty zero bytes with a letter in the place of its `=`: the pull fails, the digest keeps
the algorithm and the bytes, and the checksum of zeros matches -/
theorem digest_kept_after_failure :
    let text := asc 'Q' :: asc '1' :: replicate 28 (asc 'A')
    let zeros := replicate 20 (0 : UInt8)
    let mem := fun i => text.getD i 0
    let d : ApkDigest := ⟨0, 0, replicate 64 1⟩
    (pullDigest mem (some ⟨0, 30⟩) d).1.isNone ∧ (pullDigest mem (some ⟨0, 30⟩) d).2.alg = apkDigestSha1 ∧
      depMatchChecksum mem ⟨0, 30⟩ d zeros = true ∧ ∀ alg, ¬ DigestText text alg zeros := by
  refine ⟨by decide +kernel, by decide +kernel, by decide +kernel, fun alg h => ?_⟩
  generalize hz : replicate 20 (0 : UInt8) = zeros at h
  generalize ht : asc 'Q' :: asc '1' :: replicate 28 (asc 'A') = text at h
  cases h with
  | plain _ _ hx _ =>
    obtain ⟨rfl, h⟩ := cons.inj ht
    obtain ⟨-, rfl⟩ := cons.inj h
    rw [← hz, Encoded] at hx
    exact absurd hx (by decide +kernel)
  | long _ _ hd _ he =>
    have hlen := congrArg List.length hz
    rw [length_append, hd, he] at hlen
    simp at hlen

end Alpine

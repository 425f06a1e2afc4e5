import Alpine.Sanity.FdbText
import Alpine.Spec.Codec

/-! The codecs of blobs read back what they write. What they read beyond that: hexadecimal takes `+`
for a digit and looks at the length of a blob the wrong way round, and base64 takes `=` for a letter
and bits that no letter of the writer has. -/

namespace Alpine

open List

variable (n : ℕ)

/-- a value of the tables: the mark of no digit, or six bits -/
def Digit : Prop := n = 0xff ∨ n < 64

theorem Digit.or {a b : ℕ} (ha : Digit a) (hb : Digit b) :
    Digit (a ||| b) ∧ (a ||| b = 0xff ↔ a = 0xff ∨ b = 0xff) := by
  have hmark : ∀ n, Digit n → 0xff ||| n = 0xff := by
    rintro n (rfl | hn)
    · rfl
    · have hall : ∀ i : Fin 64, 0xff ||| i.val = 0xff := by decide
      exact hall ⟨n, hn⟩
  rcases ha with rfl | ha
  · exact ⟨Or.inl (hmark b hb), by simp [hmark b hb]⟩
  rcases hb with rfl | hb
  · rw [Nat.or_comm, hmark a (Or.inr ha)]
    exact ⟨Or.inl rfl, by simp⟩
  · have hlt : a ||| b < 2 ^ 6 := Nat.or_lt_two_pow ha hb
    exact ⟨Or.inr hlt, by omega⟩

theorem dx_digit : ∀ c : UInt8, Digit (dx c) := forall_byte (by unfold Digit; decide +kernel)

def IsHexDigit (c : UInt8) : Prop :=
  (asc '0' ≤ c ∧ c ≤ asc '9') ∨ (asc 'A' ≤ c ∧ c ≤ asc 'F') ∨ (asc 'a' ≤ c ∧ c ≤ asc 'f')

instance (c : UInt8) : Decidable (IsHexDigit c) := by unfold IsHexDigit; infer_instance

theorem dx_ne_iff : ∀ c : UInt8, dx c ≠ 0xff ↔ IsHexDigit c ∨ c = asc '+' :=
  forall_byte (by decide +kernel)

section

variable (mem : ℕ → UInt8)

theorem hexLoop_mark (n : ℕ) : ∀ (s : ℕ) {r : ℕ}, Digit r →
    ((hexLoop mem n s r).1 = 0xff ↔ r = 0xff ∨ ∃ i < 2 * n, dx (mem (s + i)) = 0xff) := by
  induction n with
  | zero => intro s r hr; simp [hexLoop]
  | succ n ih =>
    intro s r hr
    obtain ⟨hd1, h1⟩ := hr.or (dx_digit (mem s))
    obtain ⟨hd2, h2⟩ := hd1.or (dx_digit (mem (s + 1)))
    rw [hexLoop, ih (s + 2) hd2, h2, h1]
    constructor
    · rintro (((h | h) | h) | ⟨i, hi, h⟩)
      · exact Or.inl h
      · exact Or.inr ⟨0, by omega, h⟩
      · exact Or.inr ⟨1, by omega, h⟩
      · exact Or.inr ⟨i + 2, by omega, by rwa [Nat.add_comm i, ← Nat.add_assoc]⟩
    rintro (h | ⟨i, hi, h⟩)
    · exact Or.inl (Or.inl (Or.inl h))
    match i, hi, h with
    | 0, _, h => exact Or.inl (Or.inl (Or.inr h))
    | 1, _, h => exact Or.inl (Or.inr h)
    | i + 2, hi, h =>
      exact Or.inr ⟨i, by omega, by rwa [Nat.add_assoc, Nat.add_comm 2]⟩

variable (w : Window)

theorem pullHexdump_eq (dst : Bytes) : (pullHexdump mem (some w) dst).blob =
        (if w.len * 2 < dst.length ∨ ∃ i < 2 * dst.length, dx (mem (w.ptr + i)) = 0xff then none
        else some (w.skip (dst.length * 2))) ∧
      (pullHexdump mem (some w) dst).reads = if w.len * 2 < dst.length then 0 else dst.length * 2 := by
  have hmark := hexLoop_mark mem dst.length w.ptr (r := 0) (Or.inr (by decide))
  have hzero : ¬ (0 = 0xff) := by decide
  unfold pullHexdump
  by_cases hshort : w.len * 2 < dst.length
  · simp [hshort]
  · simp only [hshort, reduceIte, hmark, hzero]
    exact ⟨trivial, trivial⟩

theorem pullHexdump_accepts (dst : Bytes) : (pullHexdump mem (some w) dst).blob ≠ none ↔
      (dst.length : ℤ) ≤ w.len * 2 ∧ ∀ i < 2 * dst.length, dx (mem (w.ptr + i)) ≠ 0xff := by
  rw [(pullHexdump_eq mem w dst).1]
  split_ifs with h
  · simp only [ne_eq, not_true, false_iff, not_and, not_forall, not_not]
    intro hlong
    obtain ⟨i, hi, hmark⟩ := h.resolve_left (by omega)
    exact ⟨i, hi, hmark⟩
  · simp only [not_or, not_exists, not_and] at h
    simp only [ne_eq, reduceCtorEq, not_false_iff, true_iff]
    exact ⟨by omega, h.2⟩

/-- what pulling `n` bytes of hexadecimal from a blob is to do -/
structure HexdumpPulled (mem : ℕ → UInt8) (w : Window) (n : ℕ) (p : Pulled) : Prop where
  accepts : p.blob ≠ none ↔ 2 * n ≤ w.len ∧ ∀ i < 2 * n, IsHexDigit (mem (w.ptr + i))
  inside : (p.reads : ℤ) ≤ w.len
  consumed : ∀ w', p.blob = some w' → w' = w.skip (2 * n)

/-- the blob has the text, or is so short that the check of its length sees it; and where only
digits and signs `+` stand, there is no sign -/
def HexdumpPlain (mem : ℕ → UInt8) (w : Window) (n : ℕ) : Prop :=
  (2 * n ≤ w.len ∨ w.len * 2 < n) ∧ (2 * n ≤ w.len → (∀ i < 2 * n, dx (mem (w.ptr + i)) ≠ 0xff) →
      ∀ i < 2 * n, mem (w.ptr + i) ≠ asc '+')

theorem pullHexdump_spec_iff {ptr len : ℕ} {dst : Bytes} :
    HexdumpPulled mem ⟨ptr, len⟩ dst.length (pullHexdump mem (some ⟨ptr, len⟩) dst) ↔
      HexdumpPlain mem ⟨ptr, len⟩ dst.length := by
  obtain ⟨hblob, hreads⟩ := pullHexdump_eq mem ⟨ptr, len⟩ dst
  have hpasses := pullHexdump_accepts mem ⟨ptr, len⟩ dst
  simp only at hblob hreads hpasses
  constructor
  · rintro ⟨haccepts, hinside, -⟩
    rw [hreads] at hinside
    refine ⟨?_, fun hlen hall i hi hplus => ?_⟩
    · simp only
      split_ifs at hinside with hshort
      · exact Or.inr hshort
      · exact Or.inl (by push_cast at hinside; omega)
    -- every byte passes, so the text is taken, and then the sign was one of its digits
    simp only at hlen
    have hdigit := (haccepts.1 (hpasses.2 ⟨by omega, hall⟩)).2 i hi
    rw [hplus] at hdigit
    exact absurd hdigit (by decide)
  rintro ⟨hfits, hplain⟩
  simp only at hfits hplain
  refine ⟨?_, ?_, ?_⟩
  · rw [hpasses]
    constructor
    · rintro ⟨hlong, hall⟩
      have hlen : 2 * (dst.length : ℤ) ≤ len := by omega
      exact ⟨hlen, fun i hi =>
        ((dx_ne_iff _).1 (hall i hi)).resolve_right (hplain hlen hall i hi)⟩
    · rintro ⟨hlen, hall⟩
      simp only at hlen
      exact ⟨by omega, fun i hi => (dx_ne_iff _).2 (Or.inl (hall i hi))⟩
  · rw [hreads]
    split_ifs with hshort <;> push_cast <;> omega
  intro w' hw'
  rw [hblob] at hw'
  split_ifs at hw'
  rw [Nat.mul_comm, ← Option.some.inj hw']

def Holds (mem : ℕ → UInt8) : ℕ → Bytes → Prop
  | _, [] => True
  | s, c :: t => mem s = c ∧ Holds mem (s + 1) t

theorem holds_append (a b : Bytes) : ∀ s,
    Holds mem s (a ++ b) ↔ Holds mem s a ∧ Holds mem (s + a.length) b := by
  induction a with
  | nil => simp [Holds]
  | cons c a ih =>
    intro s
    simp only [cons_append, Holds, ih, length_cons, and_assoc]
    rw [Nat.add_assoc, Nat.add_comm 1]

theorem holds_range (n : ℕ) : ∀ s, Holds mem s ((List.range n).map fun i => mem (s + i)) := by
  induction n with
  | zero => simp [Holds]
  | succ n ih =>
    intro s
    rw [range_succ, map_append, holds_append]
    exact ⟨ih s, by simp [Holds]⟩

theorem Window.holds {w : Window} {a b : Bytes} (h : w.bytes mem = a ++ b) : Holds mem w.ptr a := by
  have hall := holds_range mem w.len.toNat w.ptr
  rw [← Window.bytes, h, holds_append] at hall
  exact hall.1

theorem Window.length_bytes : (w.bytes mem).length = w.len.toNat := by simp [Window.bytes]

def hexFold (c : UInt8) : UInt8 := if asc 'A' ≤ c ∧ c ≤ asc 'F' then c + 0x20 else c

theorem dx_of_hexFold {c : UInt8} {n : ℕ} (hn : n < 16) (h : hexFold c = xd n) : dx c = n := by
  have hall : ∀ c : UInt8, ∀ n : Fin 16, hexFold c = xd n → dx c = n := forall_byte (by decide +kernel)
  exact hall c ⟨n, hn⟩ h

theorem hexFold_xd : ∀ n < 16, hexFold (xd n) = xd n := by decide

theorem nibble_lt {n : ℕ} : n &&& 0xf < 16 := lt_of_le_of_lt Nat.and_le_right (by decide)

theorem byte_nibbles : ∀ c : UInt8,
    UInt8.ofNat ((((c.toNat >>> 4) &&& 0xf) <<< 4) + (c.toNat &&& 0xf)) = c :=
  forall_byte (by decide +kernel)

theorem hexText_fold {binary : Bytes} : (hexText binary).map hexFold = hexText binary := by
  induction binary with
  | nil => rfl
  | cons c b ih =>
    simp [hexText, ih, hexFold_xd _ nibble_lt]

theorem length_hexText (binary : Bytes) : (hexText binary).length = 2 * binary.length := by
  induction binary with
  | nil => rfl
  | cons c b ih => simp only [hexText, length_cons]; omega

theorem hexLoop_fold {binary : Bytes} : ∀ (x : Bytes) (s : ℕ) {r : ℕ}, r < 16 → Holds mem s x →
    x.map hexFold = hexText binary →
      (hexLoop mem binary.length s r).1 < 16 ∧ (hexLoop mem binary.length s r).2 = binary := by
  induction binary with
  | nil => intro x s r hr _ _; exact ⟨hr, rfl⟩
  | cons c b ih =>
    intro x s r hr hmem hx
    match x, hx, hmem with
    | [_], hx, _ => simp [hexText] at hx
    | c1 :: c2 :: x, hx, hmem =>
      simp only [map_cons, hexText, cons.injEq] at hx
      obtain ⟨h1, h2, hx⟩ := hx
      obtain ⟨rfl, rfl, hmem⟩ := hmem
      have hhigh := dx_of_hexFold nibble_lt h1
      have hlow := dx_of_hexFold nibble_lt h2
      have hr' : r ||| dx (mem s) ||| dx (mem (s + 1)) < 2 ^ 4 := by
        rw [hhigh, hlow]
        exact Nat.or_lt_two_pow (Nat.or_lt_two_pow hr nibble_lt) nibble_lt
      obtain ⟨hmark, htail⟩ := ih x (s + 2) hr' hmem hx
      refine ⟨hmark, ?_⟩
      simp only [length_cons, hexLoop, htail, hexByte]
      rw [hhigh, hlow, byte_nibbles]

theorem pullHexdump_fold {w : Window} {x binary rest dst : Bytes} (hw : 0 ≤ w.len)
    (hdst : dst.length = binary.length) (hx : x.map hexFold = hexText binary)
    (h : w.bytes mem = x ++ rest) :
    pullHexdump mem (some w) dst = ⟨some (w.skip (2 * binary.length)), binary, 2 * binary.length⟩ := by
  have hlen : 2 * binary.length ≤ w.len.toNat := by
    rw [← w.length_bytes mem, h, length_append, ← length_hexText, ← hx, length_map]
    exact Nat.le_add_right _ _
  obtain ⟨hmark, hdata⟩ := hexLoop_fold mem x w.ptr (r := 0) (by decide) (Window.holds mem h) hx
  have hlong : ¬ w.len * 2 < dst.length := by omega
  simp only [pullHexdump, hdst] at hlong ⊢
  rw [if_neg hlong, if_neg (by omega), hdata, Nat.mul_comm]

end

/-- pulling hexadecimal does what it is to do for just the blobs of `HexdumpPlain`, and undoes every
hexdump -/
theorem hexdump_codec (mem : ℕ → UInt8) (ptr len : ℕ) (dst : Bytes) :
    (HexdumpPulled mem ⟨ptr, len⟩ dst.length (pullHexdump mem (some ⟨ptr, len⟩) dst) ↔
        HexdumpPlain mem ⟨ptr, len⟩ dst.length) ∧
      ∀ (binary rest : Bytes) (room : ℕ) (s : Sink),
        apkBlobPushHexdump (some ⟨[], room⟩) binary = some s → dst.length = binary.length →
        Window.bytes mem ⟨ptr, len⟩ = s.out ++ rest → pullHexdump mem (some ⟨ptr, len⟩) dst =
            ⟨some (Window.skip ⟨ptr, len⟩ (2 * binary.length)), binary, 2 * binary.length⟩ := by
  refine ⟨pullHexdump_spec_iff mem, fun binary rest room s hpush hdst hmem => ?_⟩
  simp only [apkBlobPushHexdump, Option.bind_some] at hpush
  split_ifs at hpush
  cases hpush
  exact pullHexdump_fold mem (Int.natCast_nonneg len) hdst hexText_fold hmem

/-- `12` is too short for two bytes, and the four bytes that are read make two; `+0` is no number -/
theorem hexdump_reads_past_and_takes_plus :
    let mem := fun i => [asc '1', asc '2', asc '3', asc '4'].getD i 0
    let past := pullHexdump mem (some ⟨0, 2⟩) [0, 0]
    let sign := pullHexdump (fun i => [asc '+', asc '0'].getD i 0) (some ⟨0, 2⟩) [0]
    past.blob ≠ none ∧ past.reads = 4 ∧ sign.blob ≠ none ∧ ¬ IsHexDigit (asc '+') := by
  refine ⟨?_, rfl, ?_, by decide⟩ <;> simp <;> decide

theorem b64_value {c : UInt8} (h : b64decode c ≠ 0xff) :
    b64decode c < 64 ∧ (b64encode (b64decode c) = c ↔ c ≠ asc '=') := by
  revert c
  apply forall_byte
  decide +kernel

theorem letter_split {t : UInt8} (h : t < 64) :
    (t >>> 4 < 4 ∧ t <<< 4 = (t &&& 0x0f) <<< 4 ∧ (t >>> 4) <<< 4 ||| (t &&& 0x0f) = t ∧
      (t >>> 4) <<< 4 < 64 ∧ ((t >>> 4) <<< 4 = t ↔ t &&& 0x0f = 0)) ∧
    t >>> 2 < 16 ∧ (t <<< 6) &&& (0xc0 : UInt8) = (t &&& 0x03) <<< 6 ∧
      (t >>> 2) <<< 2 ||| (t &&& 0x03) = t ∧
      (t >>> 2) <<< 2 < 64 ∧ ((t >>> 2) <<< 2 = t ↔ t &&& 0x03 = 0) := by
  revert t
  apply forall_byte
  decide +kernel

theorem byte_join {x y : UInt8} :
    (x < 64 → y < 4 → (x <<< 2 ||| y) >>> 2 = x ∧ (x <<< 2 ||| y) &&& 0x03 = y) ∧
    (x < 16 → y < 16 → ((x <<< 4 ||| y) &&& 0xf0) >>> 4 = x ∧ (x <<< 4 ||| y) &&& 0x0f = y) ∧
    (x < 4 → y < 64 → ((x <<< 6 ||| y) &&& 0xc0) >>> 6 = x ∧ (x <<< 6 ||| y) &&& 0x3f = y) := by
  refine ⟨fun hx hy => ?_, fun hx hy => ?_, fun hx hy => ?_⟩
  all_goals
    apply forall_below _ x hx y hy
    decide +kernel

theorem and_lt_of_lt {a m n : UInt8} (h : m < n) : a &&& m < n := by
  have h' : m.toNat < n.toNat := h
  exact lt_of_le_of_lt Nat.and_le_right h'

/-- the text is what the writer makes: `=` stands only where it pads, and what the last letter has
beyond the last byte is zero -/
def B64Canonical : ℕ → Bytes → Prop
  | 1, s0 :: s1 :: _ => s0 ≠ asc '=' ∧ s1 ≠ asc '=' ∧ b64decode s1 &&& 0x0f = 0
  | 2, s0 :: s1 :: s2 :: _ =>
    s0 ≠ asc '=' ∧ s1 ≠ asc '=' ∧ s2 ≠ asc '=' ∧ b64decode s2 &&& 0x03 = 0
  | n + 3, s0 :: s1 :: s2 :: s3 :: b =>
    s0 ≠ asc '=' ∧ s1 ≠ asc '=' ∧ s2 ≠ asc '=' ∧ s3 ≠ asc '=' ∧ B64Canonical n b
  | _, _ => True

theorem b64group_eq {s0 s1 s2 s3 : UInt8} {g : UInt8 × UInt8 × UInt8} (h : b64group s0 s1 s2 s3 = some g) :
    (b64decode s0 ≠ 0xff ∧ b64decode s1 ≠ 0xff ∧ b64decode s2 ≠ 0xff ∧ b64decode s3 ≠ 0xff) ∧
      g = ((b64decode s0 <<< 2) ||| (b64decode s1 >>> 4), (b64decode s1 <<< 4) ||| (b64decode s2 >>> 2),
        ((b64decode s2 <<< 6) &&& 0xc0) ||| b64decode s3) := by
  simp only [b64group] at h
  split_ifs at h with hbad
  simp only [not_or] at hbad
  exact ⟨hbad, (Option.some.inj h).symm⟩

/-- the bytes of a group, taken apart as the writer does it, are its letters -/
theorem b64group_parts {s0 s1 s2 s3 a b c : UInt8} (h : b64group s0 s1 s2 s3 = some (a, b, c)) :
    a >>> 2 = b64decode s0 ∧ (a &&& 0x03) <<< 4 = (b64decode s1 >>> 4) <<< 4 ∧
      ((a &&& 0x03) <<< 4) ||| ((b &&& 0xf0) >>> 4) = b64decode s1 ∧
      (b &&& 0x0f) <<< 2 = (b64decode s2 >>> 2) <<< 2 ∧
      ((b &&& 0x0f) <<< 2) ||| ((c &&& 0xc0) >>> 6) = b64decode s2 ∧ c &&& 0x3f = b64decode s3 := by
  obtain ⟨⟨n0, n1, n2, n3⟩, hg⟩ := b64group_eq h
  obtain ⟨⟨h1high, h1low, h1join, -⟩, -⟩ := letter_split (b64_value n1).1
  obtain ⟨-, h2high, h2low, h2join, -⟩ := letter_split (b64_value n2).1
  obtain ⟨hafirst, hasecond⟩ := byte_join.1 (b64_value n0).1 h1high
  obtain ⟨hbfirst, hbsecond⟩ := byte_join.2.1
    (and_lt_of_lt (a := b64decode s1) (by decide : (0x0f : UInt8) < 16)) h2high
  obtain ⟨hcfirst, hcsecond⟩ := byte_join.2.2
    (and_lt_of_lt (a := b64decode s2) (by decide : (0x03 : UInt8) < 4)) (b64_value n3).1
  rw [h1low, h2low] at hg
  cases hg
  exact ⟨hafirst, by rw [hasecond], by rw [hasecond, hbfirst, h1join], by rw [hbsecond],
    by rw [hbsecond, hcfirst, h2join], hcsecond⟩

theorem b64encode_eq_iff {c t : UInt8} (h : b64decode c ≠ 0xff) (ht : t < 64) :
    b64encode t = c ↔ c ≠ asc '=' ∧ t = b64decode c := by
  obtain ⟨hlt, hback⟩ := b64_value h
  constructor
  · rintro rfl
    exact ⟨(b64_letter ht).2.2, (b64_letter ht).1.1.symm⟩
  · rintro ⟨hne, rfl⟩
    exact hback.2 hne

theorem b64Needed_succ {n : ℕ} : b64Needed (n + 3) = b64Needed n + 4 := by unfold b64Needed; omega

theorem apkBlobPullBase64_canonical {n : ℕ} {src d rest : Bytes}
    (h : apkBlobPullBase64 n src = some (d, rest)) :
    d.length = n ∧ rest = src.drop (b64Needed n) ∧
      (base64Text d = src.take (b64Needed n) ↔ B64Canonical n src) := by
  induction n, src using apkBlobPullBase64.induct generalizing d rest with
  | case1 src => simp_all [apkBlobPullBase64, b64Needed, base64Text, B64Canonical]
  | case2 s0 s1 s2 s3 b hpad => simp [apkBlobPullBase64, hpad] at h
  | case3 s0 s1 s2 s3 b hpad =>
    simp only [not_or, not_not] at hpad
    obtain ⟨rfl, rfl⟩ := hpad
    simp only [apkBlobPullBase64, ne_eq, not_true, or_self, if_false, Option.map_eq_some_iff] at h
    obtain ⟨g, hg, hd⟩ := h
    cases hd
    obtain ⟨n0, n1, -⟩ := (b64group_eq hg).1
    obtain ⟨h0, h1, -⟩ := b64group_parts hg
    obtain ⟨⟨-, -, -, hlt, hleft⟩, -⟩ := letter_split (b64_value n1).1
    simp only [base64Text, b64Needed, take, cons.injEq, B64Canonical]
    rw [h0, h1, (b64_value n0).2, b64encode_eq_iff n1 hlt]
    tauto
  | case4 s0 s1 s2 s3 b hpad => simp [apkBlobPullBase64, hpad] at h
  | case5 s0 s1 s2 s3 b hpad =>
    simp only [not_not] at hpad
    obtain rfl := hpad
    simp only [apkBlobPullBase64, ne_eq, not_true, if_false, Option.map_eq_some_iff] at h
    obtain ⟨g, hg, hd⟩ := h
    cases hd
    obtain ⟨n0, n1, n2, -⟩ := (b64group_eq hg).1
    obtain ⟨h0, -, h1, h2, -⟩ := b64group_parts hg
    obtain ⟨-, -, -, -, hlt, hleft⟩ := letter_split (b64_value n2).1
    simp only [base64Text, b64Needed, take, cons.injEq, B64Canonical]
    rw [h0, h1, h2, (b64_value n0).2, (b64_value n1).2, b64encode_eq_iff n2 hlt]
    tauto
  | case6 n s0 s1 s2 s3 b ih =>
    simp only [apkBlobPullBase64, Option.bind_eq_some_iff, Option.map_eq_some_iff] at h
    obtain ⟨g, hg, r, hr, hd⟩ := h
    cases hd
    obtain ⟨n0, n1, n2, n3⟩ := (b64group_eq hg).1
    obtain ⟨h0, -, h1, -, h2, h3⟩ := b64group_parts hg
    obtain ⟨hlen, hrest, hcanon⟩ := ih hr
    refine ⟨by simp [hlen], by rw [hrest, b64Needed_succ]; rfl, ?_⟩
    simp only [b64Needed_succ, take_succ_cons, base64Text, cons.injEq, B64Canonical]
    rw [h0, h1, h2, h3, (b64_value n0).2, (b64_value n1).2, (b64_value n2).2, (b64_value n3).2]
    tauto
  | case7 n src h0 h1 h2 h3 =>
    rw [apkBlobPullBase64.eq_5 n src h0 h1 h2 h3] at h
    cases h

theorem byte_or_mark {a b : UInt8} (ha : Digit a.toNat) (hb : Digit b.toNat) :
    Digit (a ||| b).toNat ∧ (a ||| b = 0xff ↔ a = 0xff ∨ b = 0xff) := by
  have h := ha.or hb
  rw [← UInt8.toNat_or] at h
  have hmark : ∀ c : UInt8, c = 0xff ↔ c.toNat = 0xff := fun c => by
    rw [← UInt8.toNat_inj]
    rfl
  rw [hmark, hmark a, hmark b]
  exact h

theorem b64decode_digit : ∀ c : UInt8, Digit (b64decode c).toNat :=
  forall_byte (by unfold Digit; decide +kernel)

theorem b64group_or (s0 s1 s2 s3 : UInt8) :
    Digit (b64Or s0 s1 s2 s3).toNat ∧ (b64Or s0 s1 s2 s3 = 0xff ↔ b64group s0 s1 s2 s3 = none) := by
  obtain ⟨hd1, h1⟩ := byte_or_mark (b64decode_digit s0) (b64decode_digit s1)
  obtain ⟨hd2, h2⟩ := byte_or_mark hd1 (b64decode_digit s2)
  obtain ⟨hd3, h3⟩ := byte_or_mark hd2 (b64decode_digit s3)
  refine ⟨hd3, ?_⟩
  rw [b64Or, h3, h2, h1, b64group]
  simp only [ite_eq_left_iff, reduceCtorEq, imp_false, not_not, or_assoc]

theorem b64Loop_eq : ∀ (src : Bytes) {r : UInt8}, Digit r.toNat → 4 * n ≤ src.length →
    ((b64Loop n src r).1 = 0xff ↔ r = 0xff ∨ apkBlobPullBase64 (3 * n) src = none) ∧
      (∀ d rest, apkBlobPullBase64 (3 * n) src = some (d, rest) → (b64Loop n src r).2 = (d, rest)) := by
  induction n with
  | zero =>
    intro src r hr _
    simp [b64Loop, apkBlobPullBase64]
  | succ n ih =>
    intro src r hr hlen
    obtain ⟨s0, s1, s2, s3, src, rfl⟩ : ∃ s0 s1 s2 s3 rest, src = s0 :: s1 :: s2 :: s3 :: rest := by
      rcases src with _ | ⟨s0, _ | ⟨s1, _ | ⟨s2, _ | ⟨s3, src⟩⟩⟩⟩
      iterate 4
        simp only [length_cons, length_nil] at hlen
        omega
      exact ⟨s0, s1, s2, s3, src, rfl⟩
    obtain ⟨hd, hor⟩ := b64group_or s0 s1 s2 s3
    obtain ⟨hd', hor'⟩ := byte_or_mark hr hd
    obtain ⟨hmark, hdata⟩ := ih src hd' (by simp only [length_cons] at hlen; omega)
    rw [show 3 * (n + 1) = 3 * n + 3 by ring, apkBlobPullBase64, b64Loop]
    refine ⟨?_, fun d rest h => ?_⟩
    · simp only [hmark, hor', hor]
      cases b64group s0 s1 s2 s3 with
      | none => simp
      | some g => simp
    simp only [Option.bind_eq_some_iff, Option.map_eq_some_iff] at h
    obtain ⟨g, hg, q, hq, hd⟩ := h
    obtain ⟨-, rfl⟩ := b64group_eq hg
    rw [← hd]
    simp only [hdata q.1 q.2 hq]
    rfl

theorem apkBlobPullBase64_add (t : ℕ) : ∀ src : Bytes, apkBlobPullBase64 (3 * n + t) src =
    (apkBlobPullBase64 (3 * n) src).bind fun q =>
      (apkBlobPullBase64 t q.2).map fun q' => (q.1 ++ q'.1, q'.2) := by
  induction n with
  | zero => intro src; simp [apkBlobPullBase64]
  | succ n ih =>
    intro src
    rw [show 3 * (n + 1) + t = 3 * n + t + 3 by ring, show 3 * (n + 1) = 3 * n + 3 by ring]
    rcases src with _ | ⟨s0, _ | ⟨s1, _ | ⟨s2, _ | ⟨s3, src⟩⟩⟩⟩
    iterate 4 rfl
    rw [apkBlobPullBase64, apkBlobPullBase64]
    cases b64group s0 s1 s2 s3 with
    | none => rfl
    | some g =>
      simp only [Option.bind_some, ih src]
      cases apkBlobPullBase64 (3 * n) src with
      | none => rfl
      | some q =>
        simp only [Option.bind_some, Option.map_some]
        cases apkBlobPullBase64 t q.2 <;> rfl

theorem pullB64Tail_eq (dst src : Bytes) (hdst : dst.length = 1 ∨ dst.length = 2) (hsrc : 4 ≤ src.length) :
    match apkBlobPullBase64 dst.length src with
    | none => (pullB64Tail dst src).1 = false
    | some q => pullB64Tail dst src = (true, q.1) := by
  match src, hsrc with
  | s0 :: s1 :: s2 :: s3 :: src, _ =>
    obtain ⟨-, hor⟩ := b64group_or s0 s1 s2 s3
    cases hgroup : b64group s0 s1 s2 s3 with
    | none =>
      have hnone : apkBlobPullBase64 dst.length (s0 :: s1 :: s2 :: s3 :: src) = none := by
        rcases hdst with h | h <;> rw [h, apkBlobPullBase64, hgroup] <;> split_ifs <;> rfl
      simp only [hnone, pullB64Tail, if_pos (hor.2 hgroup)]
    | some g =>
      obtain ⟨-, rfl⟩ := b64group_eq hgroup
      have hsum : b64Or s0 s1 s2 s3 ≠ 0xff := fun h => by simp [hor.1 h] at hgroup
      rcases hdst with h | h
      · simp only [h, apkBlobPullBase64, hgroup, pullB64Tail, if_neg hsum]
        by_cases hpad : s2 ≠ asc '=' ∨ s3 ≠ asc '='
        · rw [if_pos hpad]
          simpa using or_iff_not_imp_left.1 hpad
        · rw [if_neg hpad]
          simp only [not_or, not_not] at hpad
          simp [hpad, b64Triple]
      simp only [h, apkBlobPullBase64, hgroup, pullB64Tail, if_neg hsum]
      by_cases hpad : s3 ≠ asc '='
      · rw [if_pos hpad]
        simpa using hpad
      · rw [if_neg hpad]
        simp only [not_not] at hpad
        simp [hpad, b64Triple]

/-- the decoder that takes the letters together is the one that looks at each group -/
theorem pullB64_eq (dst src : Bytes) (h : b64Needed dst.length ≤ src.length) :
    match apkBlobPullBase64 dst.length src with
    | none => (pullB64 dst src).1 = false
    | some q => pullB64 dst src = (true, q.1) := by
  have hsplit : dst.length = 3 * (dst.length / 3) + dst.length % 3 := (Nat.div_add_mod _ 3).symm
  obtain ⟨hmark, hdata⟩ := b64Loop_eq (dst.length / 3) src (r := 0) (Or.inr (by decide))
    (by unfold b64Needed at h; omega)
  rw [hsplit, apkBlobPullBase64_add, pullB64]
  cases hgroups : apkBlobPullBase64 (3 * (dst.length / 3)) src with
  | none => simp only [Option.bind_none, if_pos (hmark.2 (Or.inr hgroups))]
  | some q =>
    have hmark' : (b64Loop (dst.length / 3) src 0).1 ≠ 0xff := fun h => by
      rcases hmark.1 h with h | h
      · exact absurd h (by decide)
      · rw [hgroups] at h
        cases h
    obtain ⟨hlen, hrest, -⟩ := apkBlobPullBase64_canonical hgroups
    simp only [if_neg hmark', hdata q.1 q.2 hgroups, Option.bind_some]
    by_cases hmod : dst.length % 3 = 0
    · simp [hmod, apkBlobPullBase64]
    have htail : (dst.drop q.1.length).length = dst.length % 3 := by
      rw [length_drop, hlen]
      omega
    have hspec := pullB64Tail_eq (dst.drop q.1.length) q.2 (by omega)
      (by rw [hrest, length_drop]; unfold b64Needed at h ⊢; omega)
    rw [htail] at hspec
    rw [if_neg hmod]
    cases htake : apkBlobPullBase64 (dst.length % 3) q.2 with
    | none =>
      rw [htake] at hspec
      exact hspec
    | some q' =>
      rw [htake] at hspec
      simp only at hspec
      simp only [Option.map_some, hspec]

theorem length_base64Text {bytes : Bytes} : (base64Text bytes).length = b64Needed bytes.length := by
  fun_induction base64Text bytes with
  | case1 | case2 | case3 => simp [b64Needed]
  | case4 a b c rest ih => simp only [length_cons, ih, b64Needed_succ]

theorem pullBase64_some_iff {mem : ℕ → UInt8} {w : Window} (hw : 0 ≤ w.len) {dst d : Bytes} {w' : Window} :
    (pullBase64 mem (some w) dst).blob = some w' ∧ (pullBase64 mem (some w) dst).dst = d ↔
      w' = w.skip (b64Needed dst.length) ∧ b64Needed dst.length ≤ w.len ∧
        ∃ rest, apkBlobPullBase64 dst.length (w.bytes mem) = some (d, rest) := by
  unfold pullBase64
  by_cases hshort : w.len < b64Needed dst.length
  · simp only [hshort, if_true, reduceCtorEq, false_and, false_iff, not_and]
    omega
  have hspec := pullB64_eq dst (w.bytes mem) (by rw [Window.length_bytes]; omega)
  simp only [hshort, if_false]
  cases hpull : apkBlobPullBase64 dst.length (w.bytes mem) with
  | none =>
    rw [hpull] at hspec
    simp only at hspec
    simp [hspec]
  | some q =>
    rw [hpull] at hspec
    simp only at hspec
    simp only [hspec, if_true, Option.some.injEq, not_lt.1 hshort, true_and, Prod.ext_iff]
    constructor
    · rintro ⟨rfl, rfl⟩
      exact ⟨rfl, _, rfl, rfl⟩
    · rintro ⟨rfl, _, rfl, -⟩
      exact ⟨rfl, rfl⟩

/-- pulling base64 undoes pushing it, and what else it accepts is the text of what it reads if it is
canonical -/
theorem base64_codec (mem : ℕ → UInt8) (ptr len : ℕ) (dst : Bytes) :
    (∀ (binary rest : Bytes) (room : ℕ) (s : Sink),
        apkBlobPushBase64 (some ⟨[], room⟩) binary = some s → dst.length = binary.length →
        Window.bytes mem ⟨ptr, len⟩ = s.out ++ rest →
          (pullBase64 mem (some ⟨ptr, len⟩) dst).blob = some (Window.skip ⟨ptr, len⟩ s.out.length) ∧
            (pullBase64 mem (some ⟨ptr, len⟩) dst).dst = binary) ∧
      ∀ w', (pullBase64 mem (some ⟨ptr, len⟩) dst).blob = some w' →
        w' = Window.skip ⟨ptr, len⟩ (b64Needed dst.length) ∧
          (base64Text (pullBase64 mem (some ⟨ptr, len⟩) dst).dst =
              (Window.bytes mem ⟨ptr, len⟩).take (b64Needed dst.length) ↔
            B64Canonical dst.length (Window.bytes mem ⟨ptr, len⟩)) := by
  have hw : (0 : ℤ) ≤ len := Int.natCast_nonneg len
  refine ⟨fun binary rest room s hpush hdst hmem => ?_, fun w' hblob => ?_⟩
  · simp only [apkBlobPushBase64, Option.bind_some, nil_append] at hpush
    split_ifs at hpush
    cases hpush
    simp only at hmem
    have hlen := congrArg List.length hmem
    rw [Window.length_bytes, length_append, length_base64Text] at hlen
    rw [pullBase64_some_iff hw, length_base64Text, hdst, hmem, apkBlobPullBase64_base64Text]
    simp only [Int.toNat_natCast] at hlen
    exact ⟨rfl, by simp only; omega, rest, rfl⟩
  · obtain ⟨rfl, -, rest, hpull⟩ := (pullBase64_some_iff hw).1 ⟨hblob, rfl⟩
    exact ⟨rfl, (apkBlobPullBase64_canonical hpull).2.2⟩

/-- `A=AA` is read as three zero bytes, whose text is `AAAA`; and `AB==` as one, whose text is `AA==` -/
theorem base64_takes_padding_and_leftover_bits :
    let group := [asc 'A', asc '=', asc 'A', asc 'A']
    let tail := [asc 'A', asc 'B', asc '=', asc '=']
    let p := pullBase64 (fun i => group.getD i 0) (some ⟨0, 4⟩) [1, 1, 1]
    let q := pullBase64 (fun i => tail.getD i 0) (some ⟨0, 4⟩) [1]
    p.blob.isSome ∧ base64Text p.dst ≠ group ∧ q.blob.isSome ∧ base64Text q.dst ≠ tail := by
  decide +kernel

theorem pushUintLoop_eq {radix room value : ℕ} {acc : Bytes} (h : value < radix ^ room) :
    pushUintLoop radix room value acc = some (uintLoop radix room value acc) := by
  induction room generalizing value acc with
  | zero => simpa [pushUintLoop, uintLoop] using h
  | succ room ih =>
    rw [pushUintLoop, uintLoop]
    split_ifs
    · rfl
    · exact ih (Nat.div_lt_of_lt_mul (by rwa [pow_succ'] at h))

/-- a number is printed inside its buffer, and pulled again from what was printed -/
theorem uint_codec (value radix : ℕ) (hvalue : value < 2 ^ 64) (hradix : 2 ≤ radix ∧ radix ≤ 16) :
    ∃ digits, (∀ s : Sink, digits.length ≤ s.room → apkBlobPushUint (some s) value radix =
        some (some ⟨s.out ++ digits, s.room - digits.length⟩)) ∧
      ∀ rest, (∀ c ∈ rest.head?, radix ≤ dx c) →
        apkBlobPullUint (digits ++ rest) radix = (value, rest) := by
  refine ⟨uintText value radix, fun s hs => ?_, fun rest => apkBlobPullUint_radix hradix hvalue⟩
  have hroom : value < radix ^ 64 := hvalue.trans_le (Nat.pow_le_pow_left hradix.1 64)
  have hpush : apkBlobPushUint (some s) value radix =
      some (apkBlobPushBlob (some s) (uintText value radix)) := by
    unfold apkBlobPushUint uintText
    rw [pushUintLoop_eq hroom]
    split_ifs <;> rfl
  rw [hpush, apkBlobPushBlob, Option.bind_some, if_neg (not_lt.2 hs)]

/-- the longest text, in front of a digit of another radix -/
theorem uint_codec_binary : ∃ digits, (∀ s : Sink, digits.length ≤ s.room →
      apkBlobPushUint (some s) (2 ^ 64 - 1) 2 = some (some ⟨s.out ++ digits, s.room - digits.length⟩)) ∧
    apkBlobPullUint (digits ++ [asc '2']) 2 = (2 ^ 64 - 1, [asc '2']) := by
  obtain ⟨digits, hpush, hpull⟩ := uint_codec (2 ^ 64 - 1) 2 (by decide) (by decide)
  exact ⟨digits, hpush, hpull [asc '2'] (by rintro _ ⟨⟩; decide)⟩

theorem apkOstreamFmt_eq {τ : Type} (write : τ → Bytes → ℤ × τ) (cancel : τ → ℤ → ℤ × τ) (os : τ) (text : Bytes) :
    apkOstreamFmt write cancel os text = if 2048 < text.length then cancel os (-apkeBufferSize)
      else write os ((vsnprintf 2048 text).2.take text.length) := by
  unfold apkOstreamFmt
  by_cases hlen : 2 ^ 31 ≤ text.length
  · have hn : (vsnprintf 2048 text).1 = -1 := if_pos hlen
    simp only [hn]
    rw [if_pos (by decide), if_pos (by omega)]
  · have hn : (vsnprintf 2048 text).1 = text.length := if_neg hlen
    simp only [hn, Int.toNat_natCast]
    congr 1
    simp only [eq_iff_iff]
    omega

/-- a formatted text is delivered as it is or not at all, unless it is cut off -/
theorem fmt_exact_iff (text : Bytes) :
    (∀ sz, apkBlobFmt sz text = some text ∨ apkBlobFmt sz text = none) ∧
      (∀ s : Sink, (apkBlobPushFmt (some s) text = some ⟨s.out ++ text, s.room - text.length⟩ ∨
        apkBlobPushFmt (some s) text = none) ↔ 2 ^ 31 ≤ text.length ∨ ¬Cut s.room text) ∧
      ((∀ (τ : Type) (write : τ → Bytes → ℤ × τ) (cancel : τ → ℤ → ℤ × τ) (os : τ),
        apkOstreamFmt write cancel os text = write os text ∨
          apkOstreamFmt write cancel os text = cancel os (-apkeBufferSize)) ↔ ¬Cut 2048 text) := by
  refine ⟨fun sz => ?_, fun s => ?_, fun h hcut => ?_, fun hcut τ write cancel os => ?_⟩
  · cases h : apkBlobFmt sz text with
    | none => exact Or.inr rfl
    | some t => exact Or.inl (congrArg some (apkBlobFmt_eq_some.1 h).2.2.symm)
  · unfold apkBlobPushFmt
    by_cases hlen : 2 ^ 31 ≤ text.length
    · have hn : (vsnprintf s.room text).1 = -1 := if_pos hlen
      exact iff_of_true (Or.inr (by simp [hn])) (Or.inl hlen)
    have hn : (vsnprintf s.room text).1 = text.length := if_neg hlen
    rw [or_iff_right hlen]
    by_cases hfit : text.length ≤ s.room
    · simp [hn, hfit, vsnprintf_stores_iff hfit]
    · simp [hn, hfit, show ¬Cut s.room text from fun hcut => hfit hcut.1.le]
  · -- the text is stored without its last byte, and goes to the stream
    have hstore := h Bytes (fun os b => (0, os ++ b)) (fun os e => (e, os)) []
    simp only [apkOstreamFmt_eq, hcut.1, lt_irrefl, if_false, nil_append, Prod.mk.injEq, true_and] at hstore
    rcases hstore with hstore | ⟨hzero, -⟩
    · exact (vsnprintf_stores_iff hcut.1.le).1 (by rwa [hcut.1]) hcut
    · exact absurd hzero (by decide)
  · rw [apkOstreamFmt_eq]
    split_ifs with hlong
    · exact Or.inr rfl
    · rw [(vsnprintf_stores_iff (not_lt.1 hlong)).2 hcut]
      exact Or.inl rfl

/-- two bytes into the room for two: the second is the terminator -/
theorem fmt_cut_two : apkBlobPushFmt (some ⟨[], 2⟩) [97, 98] = some ⟨[97, 0], 0⟩ := rfl

end Alpine

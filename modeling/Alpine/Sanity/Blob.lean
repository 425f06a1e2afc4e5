import Alpine.Spec.Fdb

/-! Comparing blobs and splitting them at the first byte outside a class. -/

namespace Alpine

open List

theorem memcmp_self {b : Bytes} : memcmp b b = 0 := by
  induction b with
  | nil => rfl
  | cons c b ih => rw [memcmp, if_pos rfl, ih]

variable {a b r : Bytes} {c : UInt8}

theorem memcmp_eq_zero (hl : a.length = b.length) (h : memcmp a b = 0) : a = b := by
  induction a generalizing b with
  | nil => exact (eq_nil_of_length_eq_zero hl.symm).symm
  | cons x a ih =>
    cases b with
    | nil => simp at hl
    | cons y b =>
      rw [memcmp] at h
      split_ifs at h with hxy
      · rw [hxy, ih (by simpa using hl) h]
      · have : x.toNat = y.toNat := by omega
        exact absurd (UInt8.toNat_inj.1 this) hxy

theorem apkBlobCompare_eq_zero (h : apkBlobCompare a b = 0) : a = b := by
  unfold apkBlobCompare at h
  split_ifs at h with h1 h2
  · exact memcmp_eq_zero h1 h
  · simp at h

theorem apkBlobCompare_self : apkBlobCompare a a = 0 := by
  rw [apkBlobCompare, if_pos rfl, memcmp_self]

theorem apkBlobCompare_eq_zero_iff : apkBlobCompare a b = 0 ↔ a = b :=
  ⟨apkBlobCompare_eq_zero, fun h => h ▸ apkBlobCompare_self⟩

theorem strcmp_neg (a b : Bytes) : strcmp b a = -strcmp a b := by
  induction a generalizing b with
  | nil => cases b <;> simp [strcmp]
  | cons x a ih =>
    cases b with
    | nil => simp [strcmp]
    | cons y b =>
      by_cases h : x = y
      · subst h
        by_cases h0 : x = 0
        · simp [strcmp, h0]
        · simpa [strcmp, h0] using ih b
      · simp [strcmp, h, Ne.symm h]

theorem strcmp_eq_zero_iff (a b : Bytes) : strcmp a b = 0 ↔ cstr a = cstr b := by
  induction a generalizing b with
  | nil =>
    cases b with
    | nil => simp [strcmp]
    | cons y b => by_cases hy : y = 0 <;> simp [strcmp, cstr, ← UInt8.toNat_inj]
  | cons x a ih =>
    cases b with
    | nil => by_cases hx : x = 0 <;> simp [strcmp, cstr, ← UInt8.toNat_inj]
    | cons y b =>
      by_cases hxy : x = y
      · subst hxy
        by_cases hx : x = 0
        · simp [strcmp, cstr, hx]
        · have := ih b
          simp [strcmp, cstr, hx, this]
      · have hnat : (x.toNat : ℤ) - y.toNat ≠ 0 := fun h => hxy (UInt8.toNat_inj.1 (by omega))
        simp only [strcmp, cstr]
        by_cases hx : x = 0 <;> by_cases hy : y = 0 <;> simp_all

theorem strcmp_trans (a b c : Bytes) (hab : strcmp a b ≤ 0) (hbc : strcmp b c ≤ 0) : strcmp a c ≤ 0 := by
  induction a generalizing b c with
  | nil => cases c <;> simp [strcmp]
  | cons x a ih =>
    cases b with
    | nil =>
      have hx : x = 0 := by
        have : (x.toNat : ℤ) ≤ 0 := hab
        exact UInt8.toNat_inj.1 (by simpa using this)
      subst hx
      cases c with
      | nil => simp [strcmp]
      | cons z c =>
        simp only [strcmp]
        split_ifs <;> simp
    | cons y b =>
      have hne : ∀ u v : UInt8, u ≠ v → u.toNat ≠ v.toNat := fun u v h e => h (UInt8.toNat_inj.1 e)
      have hzero : ∀ u : UInt8, u = 0 → u.toNat = 0 := fun u h => by simp [h]
      cases c with
      | nil =>
        have hy : y.toNat = 0 := by
          have : (y.toNat : ℤ) ≤ 0 := hbc
          omega
        simp only [strcmp] at hab ⊢
        split_ifs at hab with h1 h2
        · omega
        · have := hzero x h2
          omega
        · have : x.toNat = y.toNat := by rw [not_not.1 h1]
          omega
      | cons z c =>
        simp only [strcmp] at hab hbc ⊢
        all_goals grind

variable {p : UInt8 → Bool} {l : Bytes}

theorem dropWhile_length_lt (h : b.takeWhile p ≠ []) : (b.dropWhile p).length < b.length := by
  have := congrArg List.length (takeWhile_append_dropWhile (p := p) (l := b))
  have hpos : 0 < (b.takeWhile p).length := length_pos_of_ne_nil h
  simp only [length_append] at this
  omega

theorem dropWhile_length_le (p : UInt8 → Bool) (b : Bytes) :
    (b.dropWhile p).length ≤ b.length := (dropWhile_suffix p).length_le

theorem takeWhile_dropWhile_self : (b.dropWhile p).takeWhile p = [] := by
  induction b with
  | nil => rfl
  | cons c b ih =>
    by_cases h : p c = true
    · rw [dropWhile_cons_of_pos h, ih]
    · rw [dropWhile_cons_of_neg h, takeWhile_cons_of_neg h]

theorem takeWhile_length_le (p : UInt8 → Bool) (b : Bytes) : (b.takeWhile p).length ≤ b.length :=
  (List.takeWhile_prefix p).length_le

theorem takeWhile_append_run {n : Bytes} (hn : ∀ c ∈ n, p c = true) (hr : r.takeWhile p = []) :
    (n ++ r).takeWhile p = n ∧ (n ++ r).dropWhile p = r := by
  induction n with
  | nil =>
    refine ⟨hr, ?_⟩
    have := takeWhile_append_dropWhile (p := p) (l := r)
    rwa [hr] at this
  | cons c n ih =>
    have hc : p c = true := hn c (by simp)
    obtain ⟨h1, h2⟩ := ih fun d hd => hn d (by simp [hd])
    rw [cons_append, takeWhile_cons_of_pos hc, dropWhile_cons_of_pos hc, h1, h2]
    exact ⟨rfl, rfl⟩

theorem apkBlobSplit_none (h : c ∉ b) : apkBlobSplit b c = none := by
  induction b with
  | nil => rfl
  | cons x b ih =>
    simp only [mem_cons, not_or] at h
    rw [apkBlobSplit, if_neg (Ne.symm h.1), ih h.2]
    rfl

theorem apkBlobSplit_append (h : c ∉ l) : apkBlobSplit (l ++ c :: r) c = some (l, r) := by
  induction l with
  | nil => exact if_pos rfl
  | cons x l ih =>
    simp only [mem_cons, not_or] at h
    rw [cons_append, apkBlobSplit, if_neg (Ne.symm h.1), ih h.2]
    rfl

theorem apkBlobSplit_some (h : apkBlobSplit b c = some (l, r)) : b = l ++ c :: r ∧ c ∉ l := by
  induction b generalizing l with
  | nil => cases h
  | cons x b ih =>
    rw [apkBlobSplit] at h
    split_ifs at h with hx
    · obtain ⟨rfl, rfl⟩ : [] = l ∧ b = r := by simpa using h
      exact ⟨by rw [hx]; rfl, not_mem_nil⟩
    obtain ⟨⟨l', r'⟩, hsplit, heq⟩ := Option.map_eq_some_iff.1 h
    obtain ⟨rfl, rfl⟩ : x :: l' = l ∧ r' = r := by simpa using heq
    obtain ⟨rfl, hmem⟩ := ih hsplit
    exact ⟨rfl, by simp [Ne.symm hx, hmem]⟩

theorem apkBlobSplit_eq_none (h : apkBlobSplit b c = none) : c ∉ b := by
  induction b with
  | nil => exact not_mem_nil
  | cons x b ih =>
    rw [apkBlobSplit] at h
    split_ifs at h with hx
    rw [mem_cons, not_or]
    exact ⟨Ne.symm hx, ih (Option.map_eq_none_iff.1 h)⟩

theorem apkBlobRsplit_none (h : c ∉ b) : apkBlobRsplit b c = none := by
  induction b with
  | nil => rfl
  | cons x b ih =>
    simp only [mem_cons, not_or] at h
    rw [apkBlobRsplit, ih h.2]
    exact if_neg (Ne.symm h.1)

theorem apkBlobRsplit_append (h : c ∉ r) : apkBlobRsplit (l ++ c :: r) c = some (l, r) := by
  induction l with
  | nil =>
    rw [nil_append, apkBlobRsplit, apkBlobRsplit_none h]
    exact if_pos rfl
  | cons x l ih => rw [cons_append, apkBlobRsplit, ih]

theorem cstr_eq_iff (s : Bytes) : cstr s = s ↔ (0 : UInt8) ∉ s := by
  unfold cstr
  rw [takeWhile_eq_self_iff]
  constructor
  · intro h h0
    simpa using h 0 h0
  intro h c hc
  simp only [decide_not, Bool.not_eq_eq_eq_not, Bool.not_true, decide_eq_false_iff_not]
  rintro rfl
  exact h hc

theorem toInt32_of_lt {n : ℕ} (h : n < 2 ^ 31) : toInt32 n = n := by
  unfold toInt32
  omega

/-- the text fills the buffer, and its last byte makes way for the terminator -/
def Cut (size : ℕ) (text : Bytes) : Prop := text.length = size ∧ ∃ c ∈ text.getLast?, c ≠ 0

theorem vsnprintf_stores_iff {size : ℕ} {text : Bytes} (h : text.length ≤ size) :
    (vsnprintf size text).2.take text.length = text ↔ ¬Cut size text := by
  unfold vsnprintf Cut
  rcases text.eq_nil_or_concat' with rfl | ⟨text, c, rfl⟩
  · simp
  rw [length_append, length_singleton] at h ⊢
  have hsize : size ≠ 0 := by omega
  rcases h.eq_or_lt with rfl | hlt
  · have hall : (text ++ [0]).take (text.length + 1) = text ++ [0] := take_of_length_le (by simp)
    simp [hall, eq_comm]
  have htake : (text ++ [c]).take (size - 1) = text ++ [c] := take_of_length_le (by simp; omega)
  rw [if_neg hsize, htake, take_left' (by simp)]
  simp [hlt.ne]

theorem apkBlobFmt_eq_some {sz : ℕ} {text t : Bytes} :
    apkBlobFmt sz text = some t ↔ text.length < 2 ^ 31 ∧ text.length < sz ∧ text = t := by
  unfold apkBlobFmt
  by_cases hlen : text.length < 2 ^ 31
  · have hn : (vsnprintf sz text).1 = text.length := if_neg (not_le.2 hlen)
    rw [and_iff_right hlen]
    by_cases hfit : text.length < sz
    · have hstore := (vsnprintf_stores_iff hfit.le).2 fun hcut => hfit.ne hcut.1
      simp [hn, hfit, hstore]
    · simp [hn, hfit, not_lt.1 hfit]
  · have hn : (vsnprintf sz text).1 = -1 := if_pos (not_lt.1 hlen)
    exact iff_of_false (by simp [hn]) fun h => hlen h.1

theorem cstr_append_zero {s rest : Bytes} : cstr (s ++ 0 :: rest) = cstr s := by
  unfold cstr
  induction s with
  | nil => simp
  | cons c s ih =>
    by_cases hc : c = 0
    · simp [hc]
    · simp only [cons_append, takeWhile_cons]
      rw [ih]

theorem splitOn_append {q rest : Bytes} {t : UInt8} (hq : t ∉ q) :
    (q ++ rest).splitOn t = (rest.splitOn t).modifyHead (q ++ ·) := by
  induction q with
  | nil => exact (modifyHead_id ▸ rfl)
  | cons c q ih =>
    obtain ⟨hc, hq⟩ := not_or.1 (mem_cons.not.1 hq)
    rw [splitOn] at ih ⊢
    rw [cons_append, splitOnP_cons_eq_if_modifyHead, if_neg (by simpa using Ne.symm hc), ih hq,
      modifyHead_modifyHead]
    rfl

theorem splitOn_cut {q rest : Bytes} {t : UInt8} (hq : t ∉ q) : (q ++ t :: rest).splitOn t = q :: rest.splitOn t := by
  rw [splitOn_append hq, splitOn, splitOnP_cons_eq_if_modifyHead, if_pos (by simp)]
  simp [splitOn]

theorem splitOn_whole {p : Bytes} {t : UInt8} (hp : t ∉ p) : p.splitOn t = [p] := by
  rw [← append_nil p, splitOn_append hp]
  simp [splitOn]

end Alpine

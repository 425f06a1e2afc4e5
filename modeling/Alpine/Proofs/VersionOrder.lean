import Alpine.Sanity.VersionKey

/-! The order of versions. `apk_version_compare` is a total preorder on all byte
strings, valid versions or not, up to the length where the `int` counter of
`apk_blob_spn` overflows, and on no larger set of strings by length. One byte more,
and the `int` result of `apk_blob_sort` wraps around. -/

namespace Alpine

open List

/-- the version `1.0…0` with `k + 1` zeros after the dot -/
def dotZeros (k : ℕ) : Bytes := asc '1' :: asc '.' :: List.replicate (k + 1) (asc '0')

variable {k : ℕ}

theorem dotZeros_length : (dotZeros k).length = k + 3 := by
  simp [dotZeros]

theorem takeWhile_zeros : (replicate k (asc '0')).takeWhile isDigit = replicate k (asc '0') := by
  rw [takeWhile_eq_self_iff]
  intro c hc
  rw [eq_of_mem_replicate hc]
  decide

theorem dropWhile_zeros : (replicate k (asc '0')).dropWhile isDigit = [] := by
  rw [dropWhile_eq_nil_iff]
  intro c hc
  rw [eq_of_mem_replicate hc]
  decide

theorem tokenFirst_dotZeros : tokenFirst (dotZeros k) =
      (⟨.initialDigit, .invalid, 1, [asc '1']⟩, asc '.' :: replicate (k + 1) (asc '0')) := by
  unfold tokenFirst dotZeros
  rw [tokenParseDigits_eq]
  rfl

theorem tokenNext_dotZeros (k : ℕ) (t : TokenState) (ht : t.token = .initialDigit) :
    ∃ number, tokenNext t (asc '.' :: replicate (k + 1) (asc '0')) =
      (⟨.digit, t.suffix, number, replicate (k + 1) (asc '0')⟩, []) := by
  refine ⟨(apkBlobPullUint (replicate (k + 1) (asc '0')) 10).1, ?_⟩
  unfold tokenNext
  simp only
  rw [if_neg (by decide), if_pos trivial, if_neg (by rw [ht]; decide), tokenNumber, ht]
  rw [tokenParseDigits_eq, takeWhile_zeros, dropWhile_zeros, if_neg (by simp)]

theorem apkBlobSort_replicate {m n : ℕ} {c : UInt8} :
    apkBlobSort (replicate m c) (replicate n c) = toInt32 ((m : ℤ) - n) := by
  simp only [apkBlobSort, length_replicate, take_replicate]
  rw [show min (min m n) m = min (min m n) n by omega, memcmp_self, if_neg (by simp)]

theorem compare_dotZeros {j : ℕ}
    (h : cmpString (replicate (j + 1) (asc '0')) (replicate (k + 1) (asc '0')) ≠ apkVersionEqual) :
    apkVersionCompare (some (dotZeros j)) (some (dotZeros k)) =
      cmpString (replicate (j + 1) (asc '0')) (replicate (k + 1) (asc '0')) := by
  simp only [apkVersionCompare, apkVersionCompareFuzzy, dotZeros_length, tokenFirst_dotZeros]
  obtain ⟨m, hm⟩ := tokenNext_dotZeros j ⟨.initialDigit, .invalid, 1, [asc '1']⟩ rfl
  obtain ⟨n, hn⟩ := tokenNext_dotZeros k ⟨.initialDigit, .invalid, 1, [asc '1']⟩ rfl
  rw [compareLoop, if_pos ⟨rfl, by decide⟩]
  rw [if_neg (by decide), hm, hn, compareLoop, if_pos ⟨rfl, Nat.le_add_left 2 5⟩]
  have hz : tokenCmp ⟨.digit, .invalid, m, replicate (j + 1) (asc '0')⟩
      ⟨.digit, .invalid, n, replicate (k + 1) (asc '0')⟩ =
      cmpString (replicate (j + 1) (asc '0')) (replicate (k + 1) (asc '0')) := by
    have hhead : (replicate (j + 1) (asc '0')).head? = some (asc '0') := rfl
    simp [tokenCmp, hhead]
  simp only [hz]
  rw [if_pos h]

theorem compare_dotZeros_wraps :
    apkVersionCompare (some (dotZeros (2 ^ 31))) (some (dotZeros 0)) = apkVersionLess ∧
      apkVersionCompare (some (dotZeros 0)) (some (dotZeros (2 ^ 31))) = apkVersionLess := by
  have h1 : cmpString (replicate (2 ^ 31 + 1) (asc '0')) (replicate (0 + 1) (asc '0')) =
      apkVersionLess := by
    rw [cmpString_eq_of_sort apkBlobSort_replicate]
    decide
  have h2 : cmpString (replicate (0 + 1) (asc '0')) (replicate (2 ^ 31 + 1) (asc '0')) =
      apkVersionLess := by
    rw [cmpString_eq_of_sort apkBlobSort_replicate]
    decide
  constructor
  · rw [compare_dotZeros (by rw [h1]; decide), h1]
  · rw [compare_dotZeros (by rw [h2]; decide), h2]

/-- a version below another one on both sides -/
theorem version_order_not_antisymm :
    ¬ ∀ a b : Bytes, apkVersionCompare (some a) (some b) = apkVersionLess ↔
      apkVersionCompare (some b) (some a) = apkVersionGreater := by
  intro h
  obtain ⟨hab, hba⟩ := compare_dotZeros_wraps
  have hswap := h (dotZeros (2 ^ 31)) (dotZeros 0)
  rw [hab, hba] at hswap
  exact absurd (hswap.1 rfl) (by decide)

theorem tokenNextDefined_of_short {t : TokenState} {b : Bytes} (h : b.length ≤ 2 ^ 31) :
    tokenNextDefined t b = true := by
  cases b with
  | nil => rfl
  | cons c rest =>
    have hspn : ∀ ct, apkBlobSpnDefined rest ct = true := fun ct =>
      decide_eq_true (lt_of_le_of_lt (takeWhile_length_le _ rest) (Nat.lt_of_succ_le h))
    simp [tokenNextDefined, hspn]

theorem compareLoopDefined_of_short (n : ℕ) {p q : TokenState × Bytes}
    (hp : p.1.token.toNat < Token.tokenEnd.toNat → p.2.length ≤ 2 ^ 31)
    (hq : q.1.token.toNat < Token.tokenEnd.toNat → q.2.length ≤ 2 ^ 31) : compareLoopDefined n p q = true := by
  induction n generalizing p q with
  | zero => rfl
  | succ n ih =>
    rw [compareLoopDefined]
    split_ifs with hgo
    · obtain ⟨heq, hlt, -⟩ := hgo
      have ha := hp hlt
      have hb := hq (heq ▸ hlt)
      rw [tokenNextDefined_of_short ha, tokenNextDefined_of_short hb]
      exact ih (fun h => (tokenNext_lt h).le.trans ha) fun h => (tokenNext_lt h).le.trans hb
    · rfl

theorem tokenFirst_short {a : Bytes} (ha : a.length < 2 ^ 31 + 2)
    (h : (tokenFirst a).1.token.toNat < Token.tokenEnd.toNat) : (tokenFirst a).2.length ≤ 2 ^ 31 := by
  have hlt : (tokenFirst a).2.length < a.length := tokenParseDigits_lt fun he => absurd (he ▸ h) (by decide)
  omega

/-- the version `1~a…a` with `k` letters -/
def tildeLetters (k : ℕ) : Bytes := asc '1' :: asc '~' :: List.replicate k (asc 'a')

theorem tildeLetters_length : (tildeLetters k).length = k + 2 := by
  simp [tildeLetters]

theorem compare_tildeLetters (h : 2 ^ 31 ≤ k) :
    apkVersionCompareDefined (tildeLetters k) (tildeLetters k) = false := by
  have hfirst : tokenFirst (tildeLetters k) =
      (⟨.initialDigit, .invalid, 1, [asc '1']⟩, asc '~' :: replicate k (asc 'a')) := by
    unfold tokenFirst tildeLetters
    rw [tokenParseDigits_eq]
    rfl
  have hspn : apkBlobSpnDefined (replicate k (asc 'a')) .hexdigit = false := by
    have hall : (replicate k (asc 'a')).takeWhile (apkCtype .hexdigit) = replicate k (asc 'a') := by
      rw [takeWhile_eq_self_iff]
      intro c hc
      rw [eq_of_mem_replicate hc]
      decide
    rw [apkBlobSpnDefined, hall, length_replicate]
    exact decide_eq_false (not_lt.2 h)
  rw [apkVersionCompareDefined, hfirst, compareLoopDefined, if_pos ⟨rfl, by decide, by decide⟩, tokenNextDefined,
    if_neg (by decide), if_pos rfl, hspn]
  rfl

/-- The comparison of all versions shorter than `L` is defined and a total preorder exactly as long as
no token of theirs has `2 ^ 31` bytes behind its sign. -/
theorem version_order_iff (L : ℕ) : (∀ a b c : Bytes, a.length < L → b.length < L → c.length < L →
      apkVersionCompareDefined a b = true ∧
      (apkVersionCompare (some a) (some b) = apkVersionLess ∨
        apkVersionCompare (some a) (some b) = apkVersionEqual ∨
        apkVersionCompare (some a) (some b) = apkVersionGreater) ∧
      apkVersionCompare (some a) (some a) = apkVersionEqual ∧
      (apkVersionCompare (some a) (some b) = apkVersionLess ↔
        apkVersionCompare (some b) (some a) = apkVersionGreater) ∧
      (apkVersionCompare (some a) (some b) ≠ apkVersionGreater →
        apkVersionCompare (some b) (some c) ≠ apkVersionGreater →
        apkVersionCompare (some a) (some c) ≠ apkVersionGreater)) ↔
    L ≤ 2 ^ 31 + 2 := by
  constructor
  · intro h
    by_contra hL
    have hlong : (tildeLetters (2 ^ 31)).length < L := by
      rw [tildeLetters_length]
      omega
    have hdefined := (h _ _ _ hlong hlong hlong).1
    rw [compare_tildeLetters le_rfl] at hdefined
    cases hdefined
  intro hL a b c ha hb hc
  refine ⟨compareLoopDefined_of_short _ (tokenFirst_short (by omega)) (tokenFirst_short (by omega)), ?_⟩
  rw [apkVersionCompare_eq (by omega) (by omega), apkVersionCompare_eq (by omega) (by omega),
    apkVersionCompare_eq (by omega) (by omega), apkVersionCompare_eq (by omega) (by omega),
    apkVersionCompare_eq (by omega) (by omega)]
  refine ⟨cmpCode_cases _ _, (cmpCode_equal_iff _ _).2 rfl, ?_, ?_⟩
  · rw [cmpCode_less_iff, cmpCode_greater_iff]
  · rw [Ne, Ne, Ne, cmpCode_greater_iff, cmpCode_greater_iff, cmpCode_greater_iff, not_lt, not_lt, not_lt]
    exact le_trans

end Alpine

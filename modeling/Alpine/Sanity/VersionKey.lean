import Alpine.Sanity.Blob

/-! A version as a list of keys. `compareLoop` walks two versions in lock step and
changes its mode of comparison with the kind of token, so nothing about its order
shows in one branch. Here every token gets a key, a list of numbers that starts with
the rank of its kind; the comparison is then the lexicographic order of the key lists,
as long as no string comparison wraps around in `apkBlobSort`. -/

namespace Alpine

open List Token

/-- the three-way result code of a linear order -/
def cmpCode {α : Type*} [LinearOrder α] (x y : α) : ℕ :=
  if x < y then apkVersionLess else if y < x then apkVersionGreater else apkVersionEqual

section cmpCode

variable {α : Type*} [LinearOrder α]

section

variable (x y : α)

theorem cmpCode_less_iff : cmpCode x y = apkVersionLess ↔ x < y := by
  unfold cmpCode
  split_ifs with h1 h2 <;> simp [h1, apkVersionLess, apkVersionGreater, apkVersionEqual]

theorem cmpCode_greater_iff : cmpCode x y = apkVersionGreater ↔ y < x := by
  unfold cmpCode
  split_ifs with h1 h2
  · simp [apkVersionLess, apkVersionGreater, h1.le]
  · simp [h2]
  · simp [h2, apkVersionGreater, apkVersionEqual]

theorem cmpCode_equal_iff : cmpCode x y = apkVersionEqual ↔ x = y := by
  unfold cmpCode
  split_ifs with h1 h2
  · simp [apkVersionLess, apkVersionEqual, h1.ne]
  · simp [apkVersionGreater, apkVersionEqual, h2.ne']
  · simp [le_antisymm (not_lt.1 h2) (not_lt.1 h1)]

theorem cmpCode_cases : cmpCode x y = apkVersionLess ∨ cmpCode x y = apkVersionEqual ∨
      cmpCode x y = apkVersionGreater := by
  rcases lt_trichotomy x y with h | h | h
  · exact Or.inl ((cmpCode_less_iff x y).2 h)
  · exact Or.inr (Or.inl ((cmpCode_equal_iff x y).2 h))
  · exact Or.inr (Or.inr ((cmpCode_greater_iff x y).2 h))

theorem cmpCode_cons (xs ys : List α) : cmpCode (x :: xs) (y :: ys) =
      if cmpCode x y ≠ apkVersionEqual then cmpCode x y else cmpCode xs ys := by
  rcases lt_trichotomy x y with h | rfl | h
  · have hc : cmpCode x y = apkVersionLess := (cmpCode_less_iff x y).2 h
    rw [hc, if_pos (by decide), cmpCode_less_iff, cons_lt_cons_iff]
    exact Or.inl h
  · rw [if_neg (by simpa using (cmpCode_equal_iff x x).2 rfl)]
    have hlt : ∀ us vs : List α, x :: us < x :: vs ↔ us < vs := fun us vs => by
      simp
    rcases cmpCode_cases xs ys with h | h | h
    · rw [h, cmpCode_less_iff, hlt, ← cmpCode_less_iff, h]
    · rw [h, cmpCode_equal_iff, (cmpCode_equal_iff xs ys).1 h]
    · rw [h, cmpCode_greater_iff, hlt, ← cmpCode_greater_iff, h]
  · have hc : cmpCode x y = apkVersionGreater := (cmpCode_greater_iff x y).2 h
    rw [hc, if_pos (by decide), cmpCode_greater_iff, cons_lt_cons_iff]
    exact Or.inl h

end

theorem cmpCode_cons_same (x : α) (xs ys : List α) : cmpCode (x :: xs) (x :: ys) = cmpCode xs ys := by
  rw [cmpCode_cons, if_neg (by simpa using (cmpCode_equal_iff x x).2 rfl)]

variable {x y : α}

theorem cmpCode_cons_lt (h : x < y) (xs ys : List α) : cmpCode (x :: xs) (y :: ys) = apkVersionLess := by
  rw [cmpCode_less_iff, cons_lt_cons_iff]
  exact Or.inl h

theorem cmpCode_cons_gt (h : y < x) (xs ys : List α) :
    cmpCode (x :: xs) (y :: ys) = apkVersionGreater := by
  rw [cmpCode_greater_iff, cons_lt_cons_iff]
  exact Or.inl h

end cmpCode

theorem cmpNumber_eq {a b : ℕ} : cmpNumber a b = cmpCode a b := rfl

theorem cmpCode_singleton {a b : ℕ} : cmpCode [a] [b] = cmpCode a b := by
  rw [cmpCode_cons]
  split_ifs with h
  · rfl
  · rw [not_not] at h
    rw [h, cmpCode_equal_iff]

variable {m : ℕ} {z : ℤ} {c : UInt8} {k : Token} {v : Bytes}

theorem toInt32_of_small (h1 : -2 ^ 31 ≤ z) (h2 : z < 2 ^ 31) : toInt32 z = z := by
  unfold toInt32
  rw [Int.emod_eq_of_lt (by linarith) (by linarith)]
  ring

def nums (b : Bytes) : List ℕ := b.map UInt8.toNat

@[simp] theorem nums_cons (c : UInt8) (b : Bytes) : nums (c :: b) = c.toNat :: nums b := rfl

@[simp] theorem nums_nil : nums [] = [] := rfl

variable {a b : Bytes} {t ta tb : TokenState} {n : ℕ}

theorem cmpString_eq_of_sort (h : apkBlobSort a b = z) : cmpString a b = cmpCode z 0 := by
  simp [cmpString, h, cmpCode]

theorem apkBlobSort_cons (x y : UInt8) (a b : Bytes) : apkBlobSort (x :: a) (y :: b) =
      if x = y then apkBlobSort a b else (x.toNat : ℤ) - y.toNat := by
  simp only [apkBlobSort, length_cons, Nat.add_min_add_right, take_succ_cons, memcmp]
  split_ifs with h1 h2 h3
  · rfl
  · push_cast; ring_nf
  · rfl
  exfalso
  apply h1
  have : x.toNat = y.toNat := by simp only [ne_eq] at h3; omega
  exact UInt8.toNat_inj.1 this

theorem cmpString_eq (a b : Bytes) (h : ((a.length : ℤ) - b.length).natAbs < 2 ^ 31) :
    cmpString a b = cmpCode (nums a) (nums b) := by
  induction a generalizing b with
  | nil =>
    cases b with
    | nil => rfl
    | cons y b =>
      have hs : apkBlobSort [] (y :: b) = -((b.length : ℤ) + 1) := by
        simp only [length_nil, length_cons] at h
        simp only [apkBlobSort, length_nil, length_cons, Nat.zero_min, take_zero, memcmp]
        rw [toInt32_of_small] <;> push_cast at * <;> omega
      rw [cmpString_eq_of_sort hs, (cmpCode_less_iff _ _).2 (by omega),
        (cmpCode_less_iff _ _).2 (by simp)]
  | cons x a ih =>
    cases b with
    | nil =>
      have hs : apkBlobSort (x :: a) [] = (a.length : ℤ) + 1 := by
        simp only [length_nil, length_cons] at h
        simp only [apkBlobSort, length_nil, length_cons, Nat.min_zero, take_zero, memcmp]
        rw [toInt32_of_small] <;> push_cast at * <;> omega
      rw [cmpString_eq_of_sort hs, (cmpCode_greater_iff _ _).2 (by omega),
        (cmpCode_greater_iff _ _).2 (by simp)]
    | cons y b =>
      have hlen : ((a.length : ℤ) - b.length).natAbs < 2 ^ 31 := by
        simpa using h
      have hstep : cmpString (x :: a) (y :: b) =
          if x = y then cmpString a b else cmpCode ((x.toNat : ℤ) - y.toNat) 0 := by
        split_ifs with hxy
        · simp [cmpString, apkBlobSort_cons, if_pos hxy]
        · rw [cmpString_eq_of_sort (apkBlobSort_cons x y a b), if_neg hxy]
      rw [hstep]
      split_ifs with hxy
      · subst hxy
        rw [nums_cons, nums_cons, cmpCode_cons_same, ih b hlen]
      have hne : x.toNat ≠ y.toNat := fun he => hxy (UInt8.toNat_inj.1 he)
      rw [nums_cons, nums_cons]
      rcases Nat.lt_or_gt_of_ne hne with hlt | hgt
      · rw [cmpCode_cons_lt hlt, cmpCode_less_iff]; omega
      · rw [cmpCode_cons_gt hgt, cmpCode_greater_iff]; omega

def isDigit (c : UInt8) : Bool := asc '0' ≤ c ∧ c ≤ asc '9'

theorem isDigit_iff : isDigit c = true ↔ 48 ≤ c.toNat ∧ c.toNat ≤ 57 := by
  simp only [isDigit, decide_eq_true_eq]
  rfl

theorem dx_lt_ten_iff : dx c < 10 ↔ isDigit c = true := by
  have hA : (asc 'A').toNat = 65 := rfl
  have ha : (asc 'a').toNat = 97 := rfl
  rw [isDigit_iff]
  unfold dx
  simp only [UInt8.le_iff_toNat_le, show (asc '0').toNat = 48 from rfl,
    show (asc '9').toNat = 57 from rfl]
  split_ifs <;> omega

theorem pullUintLoop_rest {val : ℕ} : (pullUintLoop 10 val b).2 = b.dropWhile isDigit := by
  induction b generalizing val with
  | nil => rfl
  | cons c b ih =>
    unfold pullUintLoop
    by_cases hd : isDigit c = true
    · have hc : c ≠ 0 := by
        rintro rfl
        exact absurd hd (by decide)
      rw [if_neg hc, if_neg (by have := dx_lt_ten_iff.2 hd; omega), ih, dropWhile_cons_of_pos hd]
    have hx : 10 ≤ dx c := by
      by_contra hlt
      exact hd (dx_lt_ten_iff.1 (by omega))
    rw [dropWhile_cons_of_neg hd]
    split_ifs <;> rfl

theorem take_sub_dropWhile {p : UInt8 → Bool} :
    b.take (b.length - (b.dropWhile p).length) = b.takeWhile p := by
  have hl : b.length - (b.dropWhile p).length = (b.takeWhile p).length := by
    have := congrArg List.length (takeWhile_append_dropWhile (p := p) (l := b))
    simp only [length_append] at this
    omega
  rw [hl]
  exact (prefix_iff_eq_take.1 (List.takeWhile_prefix p)).symm

theorem tokenParseDigits_eq (t : TokenState) (b : Bytes) : tokenParseDigits t b =
      ({ t with number := (apkBlobPullUint b 10).1, value := b.takeWhile isDigit,
                token := if b.takeWhile isDigit = [] then .invalid else t.token },
       b.dropWhile isDigit) := by
  have hr : (apkBlobPullUint b 10).2 = b.dropWhile isDigit := pullUintLoop_rest
  simp [tokenParseDigits, hr, take_sub_dropWhile]

theorem tokenParseDigits_lt (h : (tokenParseDigits t b).1.token ≠ .invalid) :
    (tokenParseDigits t b).2.length < b.length := by
  rw [tokenParseDigits_eq] at h ⊢
  apply dropWhile_length_lt
  intro he
  simp [he] at h

theorem tokenNumber_le : (tokenNumber t b).2.length ≤ b.length := by
  unfold tokenNumber
  split <;> first
    | (rw [tokenParseDigits_eq]; exact dropWhile_length_le _ _)
    | exact le_rfl

theorem tokenNumber_lt (h : (tokenNumber t b).1.token ≠ .invalid) :
    (tokenNumber t b).2.length < b.length := by
  unfold tokenNumber at h ⊢
  split at h
  · exact tokenParseDigits_lt h
  · exact tokenParseDigits_lt h
  · exact tokenParseDigits_lt h
  · exact absurd rfl h

theorem apkBlobPullBlobMatch_lt {m r : Bytes} (hm : m ≠ []) (h : apkBlobPullBlobMatch b m = some r) :
    r.length < b.length := by
  have hpos : 0 < m.length := length_pos_of_ne_nil hm
  unfold apkBlobPullBlobMatch at h
  split_ifs at h with h1 h2
  simp only [Option.some.injEq] at h
  subst h
  simp only [length_drop]
  omega

theorem tokenNext_lt (h : (tokenNext t b).1.token.toNat < tokenEnd.toNat) :
    (tokenNext t b).2.length < b.length := by
  have hinv : (tokenNext t b).1.token ≠ .invalid := by
    intro he
    rw [he] at h
    exact absurd h (by decide)
  unfold tokenNext at h hinv ⊢
  split at h
  · exact absurd h (lt_irrefl _)
  rename_i c rest
  simp only at hinv ⊢
  split_ifs at hinv ⊢ with h1 h2 h3 h4 h5 h6 h7 h8 h9 h10 h11 h12 h13
  all_goals first
    | exact absurd rfl hinv
    | exact Nat.lt_succ_self _
    | exact lt_of_le_of_lt tokenNumber_le (Nat.lt_succ_self _)
    | exact tokenNumber_lt hinv
    | exact lt_of_le_of_lt (dropWhile_length_le _ _) (Nat.lt_succ_self _)
    | skip
  split at hinv
  · exact absurd rfl hinv
  · rename_i r hr
    exact (tokenParseDigits_lt hinv).trans (apkBlobPullBlobMatch_lt (by decide) hr)

def tokensLeft (t : TokenState) (b : Bytes) : ℕ :=
  if t.token.toNat < Token.tokenEnd.toNat then b.length + 1 else 0

theorem tokensLeft_next (h : t.token.toNat < tokenEnd.toNat) :
    tokensLeft (tokenNext t b).1 (tokenNext t b).2 < tokensLeft t b := by
  unfold tokensLeft
  split_ifs with h'
  · have := tokenNext_lt h'
    omega
  · omega

/-- all tokens of a version from the state `t` on; the last one is `tokenEnd` or `invalid` -/
def tokens (t : TokenState) (b : Bytes) : List TokenState :=
  if t.token.toNat < Token.tokenEnd.toNat then t :: tokens (tokenNext t b).1 (tokenNext t b).2
  else [t]
termination_by tokensLeft t b
decreasing_by exact tokensLeft_next ‹_›

theorem tokens_next (h : t.token.toNat < tokenEnd.toNat) :
    tokens t b = t :: tokens (tokenNext t b).1 (tokenNext t b).2 := by
  rw [tokens, if_pos h]

theorem tokens_last (h : ¬ t.token.toNat < tokenEnd.toNat) : tokens t b = [t] := by
  rw [tokens, if_neg h]

/-- What the tokenizer keeps true of the state `t` and the rest `b` of a version of `n` bytes:
a number or a hash is never empty, and at least two bytes of the version are outside it. -/
structure TokenOk (n : ℕ) (t : TokenState) (b : Bytes) : Prop where
  rest : b.length < n
  maximal : t.token.toNat ≤ Token.digit.toNat → b.takeWhile isDigit = []
  digits : t.token = .digit → t.value ≠ [] ∧ (∀ c ∈ t.value, isDigit c = true) ∧ t.value.length + 2 ≤ n
  hash : t.token = .commitHash → t.value ≠ [] ∧ t.value.length + 2 ≤ n

/-- a state that is not in the middle of the version carries no obligation but the length -/
theorem tokenOk_of_rest (hr : b.length < n) (h1 : ¬ t.token.toNat ≤ digit.toNat)
    (h2 : t.token ≠ .commitHash) : TokenOk n t b :=
  ⟨hr, fun h => absurd h h1, fun h => absurd (by rw [h]) h1, fun h => absurd h h2⟩

theorem tokenFirst_ok (b : Bytes) (h : (tokenFirst b).1.token ≠ .invalid) :
    TokenOk b.length (tokenFirst b).1 (tokenFirst b).2 := by
  unfold tokenFirst at h ⊢
  rw [tokenParseDigits_eq] at h ⊢
  by_cases he : b.takeWhile isDigit = []
  · simp [he] at h
  · refine ⟨dropWhile_length_lt he, fun _ => takeWhile_dropWhile_self, ?_, ?_⟩ <;> simp [he]

theorem tokenParseDigits_ok (hb : b.length + 2 ≤ n) (ht : t.token ≠ .commitHash) :
    TokenOk n (tokenParseDigits t b).1 (tokenParseDigits t b).2 := by
  rw [tokenParseDigits_eq]
  have hlen := dropWhile_length_le isDigit b
  by_cases he : b.takeWhile isDigit = []
  · exact tokenOk_of_rest (by simp only; omega) (by simp [he, Token.toNat]) (by simp [he])
  refine ⟨by simp only; omega, fun _ => takeWhile_dropWhile_self, fun _ => ⟨he, ?_, ?_⟩, ?_⟩
  · intro c hc
    exact mem_takeWhile_imp hc
  · have := takeWhile_length_le isDigit b
    simp only
    omega
  · simp [he, ht]

theorem tokenNumber_ok (hb : b.length + 2 ≤ n) : TokenOk n (tokenNumber t b).1 (tokenNumber t b).2 := by
  unfold tokenNumber
  split
  · exact tokenParseDigits_ok hb (by simp)
  · exact tokenParseDigits_ok hb (by simp)
  · exact tokenParseDigits_ok hb (by simp)
  · exact tokenOk_of_rest (by simp only; omega) (by simp [Token.toNat]) (by simp)

theorem tokenNext_ok (h : TokenOk n t b) : TokenOk n (tokenNext t b).1 (tokenNext t b).2 := by
  have hn := h.rest
  unfold tokenNext
  split
  · exact tokenOk_of_rest (by simp only at *; omega) (by simp [Token.toNat]) (by simp)
  rename_i c rest
  have hr : rest.length + 2 ≤ n := by simp only [length_cons] at hn; omega
  have hinv : TokenOk n { t with token := invalid } (c :: rest) :=
    tokenOk_of_rest hn (by simp [Token.toNat]) (by simp)
  have hspn : ∀ type, (apkBlobSpn rest type).2.length + 2 ≤ n := fun type =>
    le_trans (Nat.add_le_add_right (dropWhile_length_le _ _) 2) hr
  simp only
  split_ifs with h1 h2 h3 h4 h5 h6 h7 h8 h9 h10 h11 h12 h13
  · exact hinv
  · exact tokenOk_of_rest (by simp only; omega) (by simp [Token.toNat]) (by simp)
  · exact hinv
  · exact tokenNumber_ok hr
  · -- a digit here cannot continue a number, which the tokenizer has read to its end
    have hd : isDigit c = true := by simpa [isDigit] using h5
    have hmax : ¬ t.token.toNat ≤ digit.toNat := by
      intro hle
      have := h.maximal hle
      rw [takeWhile_cons_of_pos hd] at this
      simp at this
    unfold tokenNumber
    split
    · rename_i he; rw [he] at hmax; exact absurd (by decide) hmax
    · rename_i he; rw [he] at hmax; exact absurd (by decide) hmax
    · have hl := dropWhile_length_le isDigit (c :: rest)
      rw [tokenParseDigits_eq]
      refine tokenOk_of_rest (by simp only; omega) ?_ ?_ <;> split_ifs <;> simp [Token.toNat]
    · exact hinv
  · exact hinv
  · exact tokenOk_of_rest (le_trans (Nat.le_succ _) (hspn _)) (by simp [Token.toNat]) (by simp)
  · exact tokenOk_of_rest (le_trans (Nat.le_succ _) (hspn _)) (by simp [Token.toNat]) (by simp)
  · exact hinv
  · exact tokenOk_of_rest (le_trans (Nat.le_succ _) (hspn _)) (by simp [Token.toNat]) (by simp)
  · have hd := dropWhile_length_le (apkCtype .hexdigit) rest
    have ht := takeWhile_length_le (apkCtype .hexdigit) rest
    refine ⟨by simp only [apkBlobSpn]; omega, by simp [Token.toNat], by simp, fun _ => ⟨?_, ?_⟩⟩
    · exact fun he => h11 (by simp only at he ⊢; rw [he]; rfl)
    · simp only [apkBlobSpn]; omega
  · exact hinv
  · split
    · exact hinv
    · rename_i r hm
      have := apkBlobPullBlobMatch_lt (by decide) hm
      exact tokenParseDigits_ok (by omega) (by simp)
  · exact hinv

/-- a pre-release suffix is below every other token -/
abbrev TokenState.preRelease (t : TokenState) : Prop :=
  t.token = .suffix ∧ t.suffix.toNat < Suffix.none.toNat

/-- the rank of a token among the kinds: otherwise the kind that stands later in
`enum PARTS` is the smaller one -/
def tokenRank (t : TokenState) : ℕ := if t.preRelease then 0 else 9 - t.token.toNat

/-- what decides between two tokens of one kind -/
def tokenValue (t : TokenState) : List ℕ :=
  match t.token with
  | .initialDigit | .suffixNo | .revisionNo => [t.number]
  | .digit => if t.value.head? = some (asc '0') then 0 :: nums t.value else [1, t.number]
  | .letter => [(t.value.headD 0).toNat]
  | .suffix => [t.suffix.toNat]
  | .commitHash => nums t.value
  | .tokenEnd | .invalid => []

def tokenKey (t : TokenState) : List ℕ := tokenRank t :: tokenValue t

def versionKey (v : Bytes) : List (List ℕ) :=
  (tokens (tokenFirst v).1 (tokenFirst v).2).map tokenKey

theorem Token.toNat_le : k.toNat ≤ 8 := by cases k <;> decide

theorem Token.toNat_inj {l : Token} (h : k.toNat = l.toNat) : k = l := by
  cases k <;> cases l <;> first | rfl | exact absurd h (by decide)

theorem compareTail_rank (h : ta.token ≠ tb.token) :
    compareTail ta tb false = apkVersionLess ∧ tokenRank ta < tokenRank tb ∨
      compareTail ta tb false = apkVersionGreater ∧ tokenRank tb < tokenRank ta := by
  have hne : ta.token.toNat ≠ tb.token.toNat := fun he => h (toNat_inj he)
  have ha := ta.token.toNat_le
  have hb := tb.token.toNat_le
  have hrank : ∀ {t : TokenState}, ¬ t.preRelease → tokenRank t = 9 - t.token.toNat :=
    fun hp => if_neg hp
  unfold compareTail
  rw [if_neg h, if_neg (by simp)]
  by_cases hpa : ta.preRelease
  · have hpb : ¬ tb.preRelease := fun hp => h (hpa.1.trans hp.1.symm)
    refine Or.inl ⟨if_pos hpa, ?_⟩
    rw [hrank hpb, tokenRank, if_pos hpa]
    omega
  rw [if_neg hpa]
  by_cases hpb : tb.preRelease
  · refine Or.inr ⟨if_pos hpb, ?_⟩
    rw [hrank hpa, tokenRank, if_pos hpb]
    omega
  rw [if_neg hpb, hrank hpa, hrank hpb]
  rcases Nat.lt_or_gt_of_ne hne with hlt | hgt
  · exact Or.inr ⟨by rw [if_neg (by omega), if_pos hlt], by omega⟩
  · exact Or.inl ⟨if_pos hgt, by omega⟩

theorem compareTail_eq (h : ta.token ≠ tb.token) :
    compareTail ta tb false = cmpCode (tokenKey ta) (tokenKey tb) := by
  rcases compareTail_rank h with ⟨hc, hlt⟩ | ⟨hc, hlt⟩
  · rw [hc, tokenKey, tokenKey, cmpCode_cons_lt hlt]
  · rw [hc, tokenKey, tokenKey, cmpCode_cons_gt hlt]

theorem tokenRank_ne (h : ta.token ≠ tb.token) : tokenRank ta ≠ tokenRank tb := by
  rcases compareTail_rank h with ⟨-, hlt⟩ | ⟨-, hlt⟩
  · exact hlt.ne
  · exact hlt.ne'

theorem head_digits (h : v ≠ []) (hd : ∀ c ∈ v, isDigit c = true) : ∃ c w, v = c :: w ∧ 48 ≤ c.toNat := by
  cases v with
  | nil => exact absurd rfl h
  | cons c w => exact ⟨c, w, rfl, (isDigit_iff.1 (hd c (by simp))).1⟩

theorem digits_eq {w : Bytes} (hv : v ≠ []) (hw : w ≠ []) (hvd : ∀ c ∈ v, isDigit c = true)
    (hwd : ∀ c ∈ w, isDigit c = true) (hl : ((v.length : ℤ) - w.length).natAbs < 2 ^ 31) :
    (if v.head? = some (asc '0') ∨ w.head? = some (asc '0') then cmpString v w
      else cmpNumber m n) =
    cmpCode (if v.head? = some (asc '0') then 0 :: nums v else [1, m])
      (if w.head? = some (asc '0') then 0 :: nums w else [1, n]) := by
  obtain ⟨c, v, rfl, hc⟩ := head_digits hv hvd
  obtain ⟨d, w, rfl, hd⟩ := head_digits hw hwd
  have hz : ∀ {e : UInt8}, e ≠ asc '0' → 48 ≤ e.toNat → 48 < e.toNat := fun hne hle =>
    lt_of_le_of_ne hle fun he => hne (UInt8.toNat_inj.1 he.symm)
  simp only [head?_cons, Option.some.injEq]
  by_cases h0 : c = asc '0' <;> by_cases h1 : d = asc '0'
  · rw [if_pos (Or.inl h0), if_pos h0, if_pos h1, cmpCode_cons_same, cmpString_eq _ _ hl]
  · -- only one side has the leading zero: it decides the string comparison at once
    rw [if_pos (Or.inl h0), if_pos h0, if_neg h1, cmpString_eq _ _ hl]
    exact cmpCode_cons_lt (by rw [h0]; exact hz h1 hd) _ _
  · rw [if_pos (Or.inr h1), if_neg h0, if_pos h1, cmpString_eq _ _ hl]
    exact cmpCode_cons_gt (by rw [h1]; exact hz h0 hc) _ _
  · rw [if_neg (not_or.2 ⟨h0, h1⟩), if_neg h0, if_neg h1, cmpCode_cons_same, cmpCode_singleton,
      cmpNumber_eq]

theorem tokenRank_eq (h : ta.token = tb.token) (hs : ta.token ≠ .suffix) :
    tokenRank ta = tokenRank tb := by
  have ha : ¬ ta.preRelease := fun hp => hs hp.1
  have hb : ¬ tb.preRelease := fun hp => hs (h.trans hp.1)
  rw [tokenRank, tokenRank, if_neg ha, if_neg hb, h]

theorem tokenCmp_suffix (ha : ta.token = .suffix) (hb : tb.token = .suffix) :
    tokenCmp ta tb = cmpCode (tokenKey ta) (tokenKey tb) := by
  have hva : tokenValue ta = [ta.suffix.toNat] := by simp [tokenValue, ha]
  have hvb : tokenValue tb = [tb.suffix.toNat] := by simp [tokenValue, hb]
  have hcmp : tokenCmp ta tb = cmpCode ta.suffix.toNat tb.suffix.toNat := by
    simp [tokenCmp, ha, cmpNumber_eq]
  unfold tokenKey tokenRank
  rw [hcmp, hva, hvb]
  by_cases hpa : ta.preRelease <;> by_cases hpb : tb.preRelease
  · rw [if_pos hpa, if_pos hpb, cmpCode_cons_same, cmpCode_singleton]
  · have hlt : Suffix.none.toNat ≤ tb.suffix.toNat := not_lt.1 fun h => hpb ⟨hb, h⟩
    rw [if_pos hpa, if_neg hpb, cmpCode_cons_lt (by rw [hb]; decide), cmpCode_less_iff]
    exact lt_of_lt_of_le hpa.2 hlt
  · have hlt : Suffix.none.toNat ≤ ta.suffix.toNat := not_lt.1 fun h => hpa ⟨ha, h⟩
    rw [if_neg hpa, if_pos hpb, cmpCode_cons_gt (by rw [ha]; decide), cmpCode_greater_iff]
    exact lt_of_lt_of_le hpb.2 hlt
  · rw [if_neg hpa, if_neg hpb, ha, hb, cmpCode_cons_same, cmpCode_singleton]

theorem tokenCmp_eq (hm : m < 2 ^ 31 + 3) (hn : n < 2 ^ 31 + 3) (ha : TokenOk m ta a)
    (hb : TokenOk n tb b) (h : ta.token = tb.token) (hlt : ta.token.toNat < tokenEnd.toNat) :
    tokenCmp ta tb = cmpCode (tokenKey ta) (tokenKey tb) := by
  by_cases hs : ta.token = .suffix
  · exact tokenCmp_suffix hs (h.symm.trans hs)
  rw [tokenKey, tokenKey, tokenRank_eq h hs, cmpCode_cons_same]
  unfold tokenCmp tokenValue
  cases hk : ta.token
  case digit =>
    obtain ⟨hva, hda, hla⟩ := ha.digits hk
    obtain ⟨hvb, hdb, hlb⟩ := hb.digits (h.symm.trans hk)
    have h1 := length_pos_of_ne_nil hva
    have h2 := length_pos_of_ne_nil hvb
    rw [← h, hk]
    exact digits_eq hva hvb hda hdb (by omega)
  case commitHash =>
    obtain ⟨hva, hla⟩ := ha.hash hk
    obtain ⟨hvb, hlb⟩ := hb.hash (h.symm.trans hk)
    have h1 := length_pos_of_ne_nil hva
    have h2 := length_pos_of_ne_nil hvb
    rw [← h, hk]
    exact cmpString_eq _ _ (by omega)
  case suffix => exact absurd hk hs
  case tokenEnd => rw [hk] at hlt; simp at hlt
  case invalid => rw [hk] at hlt; exact absurd hlt (by decide)
  all_goals
    rw [← h, hk]
    simp [cmpNumber_eq, cmpCode_singleton]

theorem tokens_cons (t : TokenState) (b : Bytes) : ∃ ts, tokens t b = t :: ts := by
  by_cases h : t.token.toNat < tokenEnd.toNat
  · exact ⟨_, tokens_next h⟩
  · exact ⟨[], tokens_last h⟩

theorem tokenKey_last (h : ta.token = tb.token) (hlt : ¬ ta.token.toNat < tokenEnd.toNat) :
    tokenKey ta = tokenKey tb := by
  have hs : ta.token ≠ .suffix := by
    intro he
    rw [he] at hlt
    exact hlt (by decide)
  rw [tokenKey, tokenKey, tokenRank_eq h hs]
  unfold tokenValue
  rw [← h]
  cases hk : ta.token <;> first | rfl | (rw [hk] at hlt; exact absurd (by decide) hlt)

theorem compareLoop_eq (hm : m < 2 ^ 31 + 3) (hn : n < 2 ^ 31 + 3) (fuel : ℕ) (ta tb : TokenState)
    (a b : Bytes) (ha : ta.token ≠ .invalid → TokenOk m ta a)
    (hb : tb.token ≠ .invalid → TokenOk n tb b) (hf : tokensLeft ta a < fuel) :
    compareLoop fuel (ta, a) (tb, b) false =
      cmpCode ((tokens ta a).map tokenKey) ((tokens tb b).map tokenKey) := by
  induction fuel generalizing ta tb a b with
  | zero => exact absurd hf (Nat.not_lt_zero _)
  | succ fuel ih =>
    unfold compareLoop
    split_ifs with hgo
    · -- both tokens are of one kind and neither is the last one
      obtain ⟨heq, hlt⟩ := hgo
      have hna : ta.token ≠ .invalid := by intro he; rw [he] at hlt; exact absurd hlt (by decide)
      have hka := ha hna
      have hkb := hb (heq ▸ hna)
      have hltb : tb.token.toNat < tokenEnd.toNat := heq ▸ hlt
      rw [tokens_next (b := a) hlt, tokens_next (b := b) hltb, map_cons, map_cons,
        cmpCode_cons, ← tokenCmp_eq hm hn hka hkb heq hlt]
      have hf' : tokensLeft (tokenNext ta a).1 (tokenNext ta a).2 < fuel :=
        lt_of_lt_of_le (tokensLeft_next hlt) (Nat.lt_succ_iff.1 hf)
      rw [← ih (tokenNext ta a).1 (tokenNext tb b).1 _ _ (fun _ => tokenNext_ok hka)
        (fun _ => tokenNext_ok hkb) hf']
    by_cases heq : ta.token = tb.token
    · have hlt : ¬ ta.token.toNat < tokenEnd.toNat := fun hlt => hgo ⟨heq, hlt⟩
      rw [tokens_last hlt, tokens_last (heq ▸ hlt), compareTail, if_pos heq, eq_comm, cmpCode_equal_iff]
      simp [tokenKey_last heq hlt]
    obtain ⟨xs, hx⟩ := tokens_cons ta a
    obtain ⟨ys, hy⟩ := tokens_cons tb b
    rw [hx, hy, map_cons, map_cons, cmpCode_cons, compareTail_eq heq, if_pos]
    intro he
    have hr : tokenRank ta = tokenRank tb :=
      (cons.inj ((cmpCode_equal_iff _ _).1 he)).1
    exact tokenRank_ne heq hr

theorem tokensLeft_first (a : Bytes) : tokensLeft (tokenFirst a).1 (tokenFirst a).2 < a.length + 1 := by
  by_cases hinv : (tokenFirst a).1.token = .invalid
  · rw [tokensLeft, hinv]
    exact Nat.succ_pos _
  · have hrest := (tokenFirst_ok a hinv).rest
    unfold tokensLeft
    split_ifs <;> omega

/-- the comparison of two versions of no more than `2 ^ 31 + 2` bytes -/
theorem apkVersionCompare_eq (ha : a.length < 2 ^ 31 + 3) (hb : b.length < 2 ^ 31 + 3) :
    apkVersionCompare (some a) (some b) = cmpCode (versionKey a) (versionKey b) :=
  compareLoop_eq ha hb _ _ _ _ _ (tokenFirst_ok a) (tokenFirst_ok b) (tokensLeft_first a)

end Alpine

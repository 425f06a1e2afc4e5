import Alpine.Proofs.VersionGrammar

/-! Fuzzy matching. With `~` the lock-step comparison stops at the end of the right version,
so it asks whether the tokens of that version start the left one; `>~` and `<~` add the
versions above and below it. -/

namespace Alpine

open Token

/-- the tokens from a state on, without the one that ends them -/
def tokenSeq (t : TokenState) (b : Bytes) : List TokenState := (tokens t b).dropLast

variable {a b : Bytes} {t : TokenState}

theorem tokenSeq_next (h : t.token.toNat < tokenEnd.toNat) :
    tokenSeq t b = t :: tokenSeq (tokenNext t b).1 (tokenNext t b).2 := by
  obtain ⟨ts, hts⟩ := tokens_cons (tokenNext t b).1 (tokenNext t b).2
  rw [tokenSeq, tokenSeq, tokens_next h, hts, List.dropLast_cons_cons]

theorem tokenSeq_last (h : ¬ t.token.toNat < tokenEnd.toNat) : tokenSeq t b = [] := by
  rw [tokenSeq, tokens_last h]
  rfl

def versionTokens (v : Bytes) : List TokenState := tokenSeq (tokenFirst v).1 (tokenFirst v).2

/-- tokens of one kind that `token_cmp` finds equal -/
def TokenEq (ta tb : TokenState) : Prop := ta.token = tb.token ∧ tokenCmp ta tb = apkVersionEqual

/-- the second list starts the first one, token by token -/
inductive StartsWith : List TokenState → List TokenState → Prop
  | nil (as : List TokenState) : StartsWith as []
  | cons {a b : TokenState} {as bs : List TokenState} :
      TokenEq a b → StartsWith as bs → StartsWith (a :: as) (b :: bs)

theorem startsWith_cons {a b : TokenState} {as bs : List TokenState} :
    StartsWith (a :: as) (b :: bs) ↔ TokenEq a b ∧ StartsWith as bs := by
  constructor
  · intro h
    cases h with
    | cons he hs => exact ⟨he, hs⟩
  · rintro ⟨he, hs⟩
    exact StartsWith.cons he hs

def IsResult (r : ℕ) : Prop := r = apkVersionLess ∨ r = apkVersionEqual ∨ r = apkVersionGreater

theorem cmpNumber_result {a b : ℕ} : IsResult (cmpNumber a b) := cmpCode_cases a b

theorem cmpString_result : IsResult (cmpString a b) := by
  exact cmpCode_cases _ _

theorem tokenCmp_result (ta tb : TokenState) : IsResult (tokenCmp ta tb) := by
  unfold tokenCmp
  split
  · split_ifs
    · exact cmpString_result
    · exact cmpNumber_result
  all_goals first | exact cmpNumber_result | exact cmpString_result

theorem follows_end (h : Follows t.token b) (hlt : ¬ t.token.toNat < tokenEnd.toNat) :
    t.token = .tokenEnd := by
  cases hk : t.token with
  | tokenEnd => rfl
  | invalid => rw [hk] at h; exact absurd h (by simp [Follows])
  | initialDigit | digit | letter | suffix | suffixNo | commitHash | revisionNo => rw [hk] at hlt; exact absurd (by decide) hlt

/-- what the fuzzy comparison adds to the plain one -/
structure FuzzyResult (starts : Prop) (fuzzy plain : ℕ) : Prop where
  equal : starts → fuzzy = apkVersionEqual
  same : ¬ starts → fuzzy = plain ∧ (plain = apkVersionLess ∨ plain = apkVersionGreater)

/-- the loop has stopped before two tokens of different kinds, or at the end of both -/
theorem compareTail_fuzzy {ta tb : TokenState} (hb : Follows tb.token b)
    (hstop : ¬ (ta.token = tb.token ∧ ta.token.toNat < tokenEnd.toNat)) :
    FuzzyResult (StartsWith (tokenSeq ta a) (tokenSeq tb b)) (compareTail ta tb true)
      (compareTail ta tb false) := by
  by_cases hlt : tb.token.toNat < tokenEnd.toNat
  · have hne : ta.token ≠ tb.token := fun he => hstop ⟨he, he ▸ hlt⟩
    have hend : tb.token ≠ .tokenEnd := by
      intro he
      rw [he] at hlt
      simp at hlt
    have hnot : ¬ StartsWith (tokenSeq ta a) (tokenSeq tb b) := by
      rw [tokenSeq_next hlt]
      by_cases hla : ta.token.toNat < tokenEnd.toNat
      · rw [tokenSeq_next hla, startsWith_cons]
        exact fun h => hne h.1.1
      · rw [tokenSeq_last hla]
        intro h
        cases h
    refine ⟨fun h => absurd h hnot, fun _ => ⟨?_, ?_⟩⟩
    · simp [compareTail, hend]
    · rcases compareTail_rank hne with ⟨h, -⟩ | ⟨h, -⟩
      · exact Or.inl h
      · exact Or.inr h
  have hend := follows_end hb hlt
  have hstart : StartsWith (tokenSeq ta a) (tokenSeq tb b) := by
    rw [tokenSeq_last hlt]
    exact StartsWith.nil _
  refine ⟨fun _ => ?_, fun h => absurd hstart h⟩
  unfold compareTail
  split_ifs with h1 h2
  · rfl
  · rfl
  all_goals exact absurd ⟨hend, rfl⟩ h2

theorem compareLoop_fuzzy {m n : ℕ} (fuel : ℕ) (ta tb : TokenState) (a b : Bytes)
    (hoka : ta.token ≠ .invalid → TokenOk m ta a) (hokb : tb.token ≠ .invalid → TokenOk n tb b)
    (ha : Follows ta.token a) (hb : Follows tb.token b) (hf : tokensLeft ta a < fuel) :
    FuzzyResult (StartsWith (tokenSeq ta a) (tokenSeq tb b))
      (compareLoop fuel (ta, a) (tb, b) true) (compareLoop fuel (ta, a) (tb, b) false) := by
  induction fuel generalizing ta tb a b with
  | zero => exact absurd hf (Nat.not_lt_zero _)
  | succ fuel ih =>
    unfold compareLoop
    by_cases hgo : ta.token = tb.token ∧ ta.token.toNat < tokenEnd.toNat
    · simp only [if_pos hgo]
      obtain ⟨heq, hlt⟩ := hgo
      have hltb : tb.token.toNat < tokenEnd.toNat := heq ▸ hlt
      have hna : ta.token ≠ .invalid := by intro he; rw [he] at hlt; exact absurd hlt (by decide)
      have hka := hoka hna
      have hkb := hokb (heq ▸ hna)
      rw [tokenSeq_next hlt, tokenSeq_next hltb, startsWith_cons]
      by_cases hr : tokenCmp ta tb = apkVersionEqual
      · simp only [hr]
        have hnext := ih (tokenNext ta a).1 (tokenNext tb b).1 _ _ (fun _ => tokenNext_ok hka)
          (fun _ => tokenNext_ok hkb) ((follows_next ta a hlt hka.maximal).1 ha)
          ((follows_next tb b hltb hkb.maximal).1 hb)
          (lt_of_lt_of_le (tokensLeft_next hlt) (Nat.lt_succ_iff.1 hf))
        exact ⟨fun h => hnext.equal h.2, fun h => hnext.same fun hs => h ⟨⟨heq, hr⟩, hs⟩⟩
      simp only [if_pos hr]
      refine ⟨fun h => absurd h.1.2 hr, fun _ => ⟨rfl, ?_⟩⟩
      rcases tokenCmp_result ta tb with h | h | h
      · exact Or.inl h
      · exact absurd h hr
      · exact Or.inr h
    · simp only [if_neg hgo]
      exact compareTail_fuzzy hb hgo

theorem apkVersionCompare_fuzzy (ha : apkVersionValidate a = true) (hb : apkVersionValidate b = true) :
    FuzzyResult (StartsWith (versionTokens a) (versionTokens b))
      (apkVersionCompareFuzzy (some a) (some b) true) (apkVersionCompare (some a) (some b)) := by
  have hfa := (validateLoop_iff _ _ _ (tokenFirst_ok a) (tokensLeft_first a)).1 ha
  have hfb := (validateLoop_iff _ _ _ (tokenFirst_ok b) (tokensLeft_first b)).1 hb
  exact compareLoop_fuzzy _ _ _ _ _ (tokenFirst_ok a) (tokenFirst_ok b) hfa hfb (tokensLeft_first a)

/-- `~` asks for the start of the version, `>~` and `<~` for that or for the order -/
theorem version_fuzzy_match (a b : Bytes) (ha : apkVersionValidate a = true)
    (hb : apkVersionValidate b = true) :
    (apkVersionMatch (some a) (apkVersionResultMaskBlob (ascs ['~'])) (some b) = true ↔
      StartsWith (versionTokens a) (versionTokens b)) ∧
    (apkVersionMatch (some a) (apkVersionResultMaskBlob (ascs ['>', '~'])) (some b) = true ↔
      StartsWith (versionTokens a) (versionTokens b) ∨
        apkVersionCompare (some a) (some b) = apkVersionGreater) ∧
    (apkVersionMatch (some a) (apkVersionResultMaskBlob (ascs ['<', '~'])) (some b) = true ↔
      StartsWith (versionTokens a) (versionTokens b) ∨
        apkVersionCompare (some a) (some b) = apkVersionLess) := by
  have hres := apkVersionCompare_fuzzy ha hb
  have hmask : apkVersionResultMaskBlob (ascs ['~']) = 9 ∧
      apkVersionResultMaskBlob (ascs ['>', '~']) = 13 ∧
      apkVersionResultMaskBlob (ascs ['<', '~']) = 11 := by decide
  rw [hmask.1, hmask.2.1, hmask.2.2]
  have hmatch : ∀ op : ℕ, op &&& apkDepmaskAny ≠ apkDepmaskAny → op &&& apkVersionFuzzy ≠ 0 →
      op &&& apkVersionConflict = 0 → (apkVersionMatch (some a) op (some b) = true ↔
        apkVersionCompareFuzzy (some a) (some b) true &&& op ≠ 0) := by
    intro op h1 h2 h3
    simp [apkVersionMatch, h1, h2, h3]
  rw [hmatch 9 (by decide) (by decide) (by decide), hmatch 13 (by decide) (by decide) (by decide),
    hmatch 11 (by decide) (by decide) (by decide)]
  by_cases hs : StartsWith (versionTokens a) (versionTokens b)
  · rw [hres.equal hs]
    simp only [hs, true_or]
    decide
  obtain ⟨he, hp⟩ := hres.same hs
  rw [he]
  simp only [hs]
  rcases hp with hp | hp <;> rw [hp] <;> decide

/-- a pre-release of `1.2` starts with `1.2` although it orders below it -/
theorem version_fuzzy_match_pre : apkVersionValidate (ascs ['1', '.', '2', '_', 'r', 'c', '1']) = true ∧
    apkVersionValidate (ascs ['1', '.', '2']) = true ∧
    (apkVersionMatch (some (ascs ['1', '.', '2', '_', 'r', 'c', '1']))
      (apkVersionResultMaskBlob (ascs ['~'])) (some (ascs ['1', '.', '2'])) = true ↔
      StartsWith (versionTokens (ascs ['1', '.', '2', '_', 'r', 'c', '1']))
        (versionTokens (ascs ['1', '.', '2']))) := by
  have ha : apkVersionValidate (ascs ['1', '.', '2', '_', 'r', 'c', '1']) = true := by decide
  have hb : apkVersionValidate (ascs ['1', '.', '2']) = true := by decide
  exact ⟨ha, hb, (version_fuzzy_match _ _ ha hb).1⟩

end Alpine

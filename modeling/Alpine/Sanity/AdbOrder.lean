import Alpine.Spec.AdbOrder
import Alpine.Sanity.VersionKey

/-! The comparison of the values of a database. Texts and numbers are compared as keys of a linear order, and
so are versions, as long as none of them is missing: `version_compare` takes a version that is missing for
one that is equal to every version. Objects are compared field by field, which is a total preorder on
objects whose comparison never comes to a version that is missing in one of them only. -/

namespace Alpine

open List

section comparisons

variable {α : Type} {cmp : α → α → ℤ} {a b c : α}

/-- the comparison of two elements is the opposite the other way round -/
def Flips (cmp : α → α → ℤ) : Prop := ∀ a b, cmp a b ≤ 0 ↔ 0 ≤ cmp b a

theorem Flips.zero_iff (h : Flips cmp) : cmp a b = 0 ↔ cmp b a = 0 := by
  have hab := h a b
  have hba := h b a
  omega

theorem Flips.self (h : Flips cmp) : cmp a a = 0 := by
  have haa := h a a
  omega

theorem Flips.preorderOn {s : Set α} (h : Flips cmp)
    (ht : ∀ a ∈ s, ∀ b ∈ s, ∀ c ∈ s, cmp a b ≤ 0 → cmp b c ≤ 0 → cmp a c ≤ 0) : PreorderOn cmp s :=
  ⟨fun a _ b _ => h a b, ht⟩

theorem flips_key {β : Type} [LinearOrder β] {key : α → β} (hle : ∀ a b, cmp a b ≤ 0 ↔ key a ≤ key b)
    (hge : ∀ a b, 0 ≤ cmp a b ↔ key b ≤ key a) : Flips cmp := fun a b => (hle a b).trans (hge b a).symm

/-- in a total preorder the ends of a chain are equal only if all of it is -/
theorem PreorderOn.ends {s : Set α} (h : PreorderOn cmp s) (ha : a ∈ s) (hb : b ∈ s) (hc : c ∈ s)
    (hab : cmp a b ≤ 0) (hbc : cmp b c ≤ 0) : cmp a c ≤ 0 ∧ (cmp a c = 0 → cmp a b = 0 ∧ cmp b c = 0) := by
  refine ⟨h.trans a ha b hb c hc hab hbc, fun hac => ?_⟩
  have hca : cmp c a ≤ 0 := (h.flip c hc a ha).2 hac.ge
  have hba := (h.flip b hb a ha).1 (h.trans b hb c hc a ha hbc hca)
  have hcb := (h.flip c hc b hb).1 (h.trans c hc a ha b hb hca hab)
  exact ⟨le_antisymm hab hba, le_antisymm hbc hcb⟩

end comparisons

section fields

variable {k : ℕ} {s s' : ℕ → Bool} {f g h : ℕ → ℤ}

theorem cmpFields_exact (n i : ℕ) : cmpFields .exact k s f (n + 1) i =
      if f i ≠ 0 then f i else cmpFields .exact k s f n (i + 1) := by
  simp [cmpFields]

theorem cmpFields_flip (hle : ∀ i, f i ≤ 0 ↔ 0 ≤ g i) (hge : ∀ i, 0 ≤ f i ↔ g i ≤ 0) (n i : ℕ) :
    cmpFields .exact k s f n i ≤ 0 ↔ 0 ≤ cmpFields .exact k s' g n i := by
  induction n generalizing i with
  | zero => simp [cmpFields]
  | succ n ih =>
    rw [cmpFields_exact, cmpFields_exact]
    have hle := hle i
    have hge := hge i
    by_cases hf : f i = 0
    · rw [if_neg (not_not.2 hf), if_neg (by omega)]
      exact ih (i + 1)
    · rw [if_pos hf, if_pos (by omega)]
      exact hle

theorem cmpFields_zero {i : ℕ} (hf : ∀ j, i ≤ j → f j = 0) (n : ℕ) : cmpFields .exact k s f n i = 0 := by
  induction n generalizing i with
  | zero => rfl
  | succ n ih =>
    rw [cmpFields_exact, if_neg (not_not.2 (hf i le_rfl))]
    exact ih fun j hj => hf j (by omega)

/-- the fields that both objects lack do not count -/
theorem cmpFields_more {n m i : ℕ} (hnm : n ≤ m) (hf : ∀ j, i + n ≤ j → f j = 0) :
    cmpFields .exact k s f n i = cmpFields .exact k s f m i := by
  induction n generalizing m i with
  | zero => exact (cmpFields_zero hf m).symm
  | succ n ih =>
    obtain ⟨m, rfl⟩ := Nat.exists_eq_add_of_le' (Nat.le_trans n.succ_pos hnm)
    rw [cmpFields_exact, cmpFields_exact, ih (m := m) (by omega) fun j hj => hf j (by omega)]

theorem cmpFields_trans {n i : ℕ} (hstep : ∀ j, i ≤ j → (∀ l, i ≤ l → l < j → f l = 0 ∧ g l = 0 ∧ h l = 0) →
      f j ≤ 0 → g j ≤ 0 → h j ≤ 0 ∧ (h j = 0 → f j = 0 ∧ g j = 0))
    (hf : cmpFields .exact k s f n i ≤ 0) (hg : cmpFields .exact k s' g n i ≤ 0) :
    cmpFields .exact k s h n i ≤ 0 := by
  induction n generalizing i with
  | zero => exact le_rfl
  | succ n ih =>
    rw [cmpFields_exact] at hf hg ⊢
    have hfi : f i ≤ 0 := by split_ifs at hf <;> omega
    have hgi : g i ≤ 0 := by split_ifs at hg <;> omega
    obtain ⟨hle, hall⟩ := hstep i le_rfl (fun l h1 h2 => absurd h1 (not_le.2 h2)) hfi hgi
    by_cases hh : h i = 0
    · obtain ⟨hf0, hg0⟩ := hall hh
      rw [if_neg (not_not.2 hf0)] at hf
      rw [if_neg (not_not.2 hg0)] at hg
      rw [if_neg (not_not.2 hh)]
      refine ih (fun j hj hbefore => hstep j (by omega) fun l h1 h2 => ?_) hf hg
      rcases h1.eq_or_lt with rfl | h1
      · exact ⟨hf0, hg0, hh⟩
      · exact hbefore l h1 h2
    · rw [if_pos hh]
      exact hle

end fields

section scalars

variable {adb : Bytes} {v w : ℕ} {a b : Bytes}

theorem adbRBlobOf_length {width : ℕ} (h : adbRBlobOf adb v width = some b) : b.length ≤ adb.length := by
  unfold adbRBlobOf adbRDeref at h
  split_ifs at h with h1
  · cases h
  · simp only [Option.bind_some] at h
    split_ifs at h
    · cases h
    · cases h
      simp only [length_take, length_drop]
      omega

theorem adbRBlob_length (h : adbRBlob adb v = some b) : b.length ≤ adb.length := by
  unfold adbRBlob at h
  split_ifs at h
  · exact adbRBlobOf_length h
  · exact adbRBlobOf_length h
  · exact adbRBlobOf_length h

/-- a text, empty if it is missing -/
def textAt (adb : Bytes) (v : ℕ) : Bytes := (adbRBlob adb v).getD []

theorem textAt_length (adb : Bytes) (v : ℕ) : (textAt adb v).length ≤ adb.length := by
  unfold textAt
  cases h : adbRBlob adb v with
  | none => exact Nat.zero_le _
  | some b => exact adbRBlob_length h

theorem apkBlobSort_key (h : ((a.length : ℤ) - b.length).natAbs < 2 ^ 31) :
    (apkBlobSort a b ≤ 0 ↔ nums a ≤ nums b) ∧ (0 ≤ apkBlobSort a b ↔ nums b ≤ nums a) := by
  have hcode := cmpString_eq a b h
  rw [← not_lt (a := nums b), ← not_lt (a := nums a), ← cmpCode_greater_iff, ← cmpCode_less_iff, ← hcode,
    cmpString]
  split_ifs with h1 h2
  · exact ⟨iff_of_true h1.le (by decide), iff_of_false (not_le.2 h1) (by decide)⟩
  · exact ⟨iff_of_false (not_le.2 h2) (by decide), iff_of_true h2.le (by decide)⟩
  · exact ⟨iff_of_true (not_lt.1 h2) (by decide), iff_of_true (not_lt.1 h1) (by decide)⟩

variable (hadb : adb.length < 2 ^ 31)

include hadb

theorem stringCompare_key (v w : ℕ) :
    (stringCompare (adb, v) (adb, w) ≤ 0 ↔ nums (textAt adb v) ≤ nums (textAt adb w)) ∧
      (0 ≤ stringCompare (adb, v) (adb, w) ↔ nums (textAt adb w) ≤ nums (textAt adb v)) := by
  have hv := textAt_length adb v
  have hw := textAt_length adb w
  exact apkBlobSort_key (a := textAt adb v) (b := textAt adb w) (by omega)

omit hadb in
theorem versionCompare_missing (h : adbRBlob adb v = none ∨ adbRBlob adb w = none) :
    versionCompare (adb, v) (adb, w) = 0 := by
  unfold versionCompare
  cases hv : adbRBlob adb v with
  | none => cases adbRBlob adb w <;> rfl
  | some a =>
    rcases h with h | h
    · rw [hv] at h
      cases h
    · simp only [h]
      rfl

theorem versionCompare_key (hv : adbRBlob adb v = some a) (hw : adbRBlob adb w = some b) :
    (versionCompare (adb, v) (adb, w) ≤ 0 ↔ versionKey a ≤ versionKey b) ∧
      (0 ≤ versionCompare (adb, v) (adb, w) ↔ versionKey b ≤ versionKey a) := by
  have ha := adbRBlob_length hv
  have hb := adbRBlob_length hw
  rw [← not_lt (a := versionKey b), ← not_lt (a := versionKey a), ← cmpCode_greater_iff, ← cmpCode_less_iff,
    ← apkVersionCompare_eq (by omega) (by omega), versionCompare, hv, hw]
  split_ifs with h1 h2
  · rw [h1]; decide
  · rw [h2]; decide
  · exact ⟨iff_of_true le_rfl h2, iff_of_true le_rfl h1⟩

theorem versionCompare_flips : Flips fun v w => versionCompare (adb, v) (adb, w) := by
  intro v w
  beta_reduce
  cases hv : adbRBlob adb v with
  | none => rw [versionCompare_missing (Or.inl hv), versionCompare_missing (Or.inr hv)]
  | some a =>
    cases hw : adbRBlob adb w with
    | none => rw [versionCompare_missing (Or.inr hw), versionCompare_missing (Or.inl hw)]
    | some b => exact (versionCompare_key hadb hv hw).1.trans (versionCompare_key hadb hw hv).2.symm

omit hadb in
theorem intCompare_key (v w : ℕ) :
    (intCompare (adb, v) (adb, w) ≤ 0 ↔ adbRInt adb v ≤ adbRInt adb w) ∧
      (0 ≤ intCompare (adb, v) (adb, w) ↔ adbRInt adb w ≤ adbRInt adb v) := by
  unfold intCompare
  simp only
  split_ifs with h1 h2 <;> constructor <;> constructor <;> intro h <;> omega

end scalars

/-- the comparison of two values of a kind, in one database -/
def valCmp (adb : Bytes) (n : ℕ) (kind : AdbSchema) (v w : ℕ) : ℤ :=
  adbRoCmp .exact (cmpSchema n kind) (adb, v) (adb, w)

/-- the kind of a field as the comparison takes it -/
def fieldKind (o : ObjSchema) (i : ℕ) : AdbSchema := (o.roKind i).getD (.scalar .string)

def fieldAt (adb : Bytes) (v i : ℕ) : ℕ := adbRoVal (adbRObj adb v) i

/-- the comparison comes to a version that one of the values has and the other has not -/
def VersionMissed (adb : Bytes) : ℕ → AdbSchema → ℕ → ℕ → Prop
  | _, .scalar s, v, w => s = .version ∧ (adbRBlob adb v).isSome ≠ (adbRBlob adb w).isSome
  | n + 1, .obj o, v, w => ∃ i, adbiFirst ≤ i ∧
      (∀ j, adbiFirst ≤ j → j < i → valCmp adb n (fieldKind o j) (fieldAt adb v j) (fieldAt adb w j) = 0) ∧
      VersionMissed adb n (fieldKind o i) (fieldAt adb v i) (fieldAt adb w i)
  | _, _, _, _ => False

section values

variable {adb : Bytes}

theorem fieldAt_behind {v i : ℕ} (h : (adbRObj adb v).num ≤ i) : fieldAt adb v i = adbNull := if_pos h

theorem valCmp_obj (n : ℕ) (o : ObjSchema) (v w : ℕ) : valCmp adb (n + 1) (.obj o) v w =
      cmpFields .exact o.numCompare (fun i => fieldAt adb v i ≠ adbNull)
        (fun i => valCmp adb n (fieldKind o i) (fieldAt adb v i) (fieldAt adb w i))
        (max (adbRObj adb v).num (adbRObj adb w).num - adbiFirst) adbiFirst := rfl

variable (hadb : adb.length < 2 ^ 31)

include hadb

theorem scalar_flips (s : AdbScalar) : Flips fun v w => s.compare (adb, v) (adb, w) := by
  unfold AdbScalar.compare
  split_ifs
  · exact flips_key (fun v w => (intCompare_key v w).1) fun v w => (intCompare_key v w).2
  · exact versionCompare_flips hadb
  · exact flips_key (fun v w => (stringCompare_key hadb v w).1) fun v w => (stringCompare_key hadb v w).2

theorem valCmp_flips (n : ℕ) (kind : AdbSchema) : Flips (valCmp adb n kind) := by
  induction n generalizing kind with
  | zero =>
    cases kind with
    | scalar s => exact scalar_flips hadb s
    | obj o => exact scalar_flips hadb .string
    | packageAdb => exact scalar_flips hadb .string
  | succ n ih =>
    cases kind with
    | scalar s => exact scalar_flips hadb s
    | obj o =>
      intro v w
      rw [valCmp_obj, valCmp_obj, max_comm]
      exact cmpFields_flip (fun i => ih _ _ _) (fun i => (ih _ _ _).symm) _ _
    | packageAdb => exact fun _ _ => Iff.rfl

theorem valCmp_obj_more {n m : ℕ} {o : ObjSchema} {v w : ℕ} (hv : (adbRObj adb v).num ≤ m)
    (hw : (adbRObj adb w).num ≤ m) : valCmp adb (n + 1) (.obj o) v w =
      cmpFields .exact o.numCompare (fun i => fieldAt adb v i ≠ adbNull)
        (fun i => valCmp adb n (fieldKind o i) (fieldAt adb v i) (fieldAt adb w i)) (m - adbiFirst) adbiFirst := by
  rw [valCmp_obj]
  refine cmpFields_more (by omega) fun j hj => ?_
  rw [fieldAt_behind (by omega), fieldAt_behind (by omega)]
  exact (valCmp_flips hadb n _).self

theorem scalar_preorder {s : AdbScalar} {vals : Set ℕ}
    (hset : s = .version → ∀ v ∈ vals, ∀ w ∈ vals, (adbRBlob adb v).isSome = (adbRBlob adb w).isSome) :
    PreorderOn (fun v w => s.compare (adb, v) (adb, w)) vals := by
  refine (scalar_flips hadb s).preorderOn fun a ha b hb c hc hab hbc => ?_
  unfold AdbScalar.compare at hab hbc ⊢
  split_ifs at hab hbc ⊢ with hnum hver
  · rw [(intCompare_key a c).1]
    exact ((intCompare_key a b).1.1 hab).trans ((intCompare_key b c).1.1 hbc)
  · cases hva : adbRBlob adb a with
    | none => exact (versionCompare_missing (Or.inl hva)).le
    | some x =>
      obtain ⟨y, hy⟩ := Option.isSome_iff_exists.1 ((hset hver a ha b hb).symm.trans (by rw [hva]; rfl))
      obtain ⟨z, hz⟩ := Option.isSome_iff_exists.1 ((hset hver a ha c hc).symm.trans (by rw [hva]; rfl))
      exact (versionCompare_key hadb hva hz).1.2
        (((versionCompare_key hadb hva hy).1.1 hab).trans ((versionCompare_key hadb hy hz).1.1 hbc))
  · rw [(stringCompare_key hadb a c).1]
    exact ((stringCompare_key hadb a b).1.1 hab).trans ((stringCompare_key hadb b c).1.1 hbc)

theorem scalar_valCmp_preorder (n : ℕ) {s : AdbScalar} {vals : Set ℕ}
    (hmiss : ∀ v ∈ vals, ∀ w ∈ vals, ¬ VersionMissed adb n (.scalar s) v w) :
    PreorderOn (valCmp adb n (.scalar s)) vals := by
  have hset : s = .version → ∀ v ∈ vals, ∀ w ∈ vals, (adbRBlob adb v).isSome = (adbRBlob adb w).isSome :=
    fun hs v hv w hw => by_contra fun hne => hmiss v hv w hw (by cases n <;> exact ⟨hs, hne⟩)
  cases n <;> exact scalar_preorder hadb hset

theorem text_preorder (vals : Set ℕ) : PreorderOn (fun v w => stringCompare (adb, v) (adb, w)) vals :=
  scalar_preorder hadb (s := .string) nofun

omit hadb in
/-- one more field of three objects that were equal so far -/
theorem field_preorder {n : ℕ} {o : ObjSchema} {vals : Set ℕ} {a b c j : ℕ}
    (ih : ∀ kind (vals : Set ℕ), (∀ v ∈ vals, ∀ w ∈ vals, ¬ VersionMissed adb n kind v w) →
      PreorderOn (valCmp adb n kind) vals)
    (hmiss : ∀ v ∈ vals, ∀ w ∈ vals, ¬ VersionMissed adb (n + 1) (.obj o) v w)
    (ha : a ∈ vals) (hb : b ∈ vals) (hc : c ∈ vals) (hj : adbiFirst ≤ j)
    (hsame : ∀ l, adbiFirst ≤ l → l < j → ∀ v ∈ ({a, b, c} : Set ℕ), ∀ w ∈ ({a, b, c} : Set ℕ),
      valCmp adb n (fieldKind o l) (fieldAt adb v l) (fieldAt adb w l) = 0) :
    PreorderOn (valCmp adb n (fieldKind o j)) ((fun v => fieldAt adb v j) '' {a, b, c}) := by
  have hmem : ∀ v ∈ ({a, b, c} : Set ℕ), v ∈ vals := by
    rintro v (rfl | rfl | rfl) <;> assumption
  refine ih _ _ ?_
  rintro _ ⟨v, hv, rfl⟩ _ ⟨w, hw, rfl⟩ hmet
  exact hmiss v (hmem v hv) w (hmem w hw) ⟨j, hj, fun l h1 h2 => hsame l h1 h2 v hv w hw, hmet⟩

/-- The comparison is a total preorder on values of which no two miss a version. -/
theorem valCmp_preorder (n : ℕ) (kind : AdbSchema) (vals : Set ℕ)
    (hmiss : ∀ v ∈ vals, ∀ w ∈ vals, ¬ VersionMissed adb n kind v w) : PreorderOn (valCmp adb n kind) vals := by
  induction n generalizing kind vals with
  | zero =>
    cases kind with
    | scalar s => exact scalar_valCmp_preorder hadb 0 hmiss
    | obj o => exact text_preorder hadb vals
    | packageAdb => exact text_preorder hadb vals
  | succ n ih =>
    cases kind with
    | scalar s => exact scalar_valCmp_preorder hadb (n + 1) hmiss
    | packageAdb => exact ⟨fun _ _ _ _ => Iff.rfl, fun _ _ _ _ _ _ _ _ => le_rfl⟩
    | obj o =>
      refine (valCmp_flips hadb _ _).preorderOn fun a ha b hb c hc hab hbc => ?_
      have hflips := fun l => valCmp_flips hadb n (fieldKind o l)
      -- the fields that all three lack are added to each comparison
      obtain ⟨m, hma, hmb, hmc⟩ : ∃ m, (adbRObj adb a).num ≤ m ∧ (adbRObj adb b).num ≤ m ∧
          (adbRObj adb c).num ≤ m := ⟨_, Nat.le_add_right _ ((adbRObj adb b).num + (adbRObj adb c).num),
        by omega, by omega⟩
      rw [valCmp_obj_more hadb hma hmb] at hab
      rw [valCmp_obj_more hadb hmb hmc] at hbc
      rw [valCmp_obj_more hadb hma hmc]
      refine cmpFields_trans (fun j hj hbefore hfj hgj => ?_) hab hbc
      have hpre := field_preorder ih hmiss ha hb hc hj fun l h1 h2 => ?_
      · exact hpre.ends ⟨a, by simp, rfl⟩ ⟨b, by simp, rfl⟩ ⟨c, by simp, rfl⟩ hfj hgj
      obtain ⟨hf, hg, hh⟩ := hbefore l h1 h2
      rintro v (rfl | rfl | rfl) w (rfl | rfl | rfl)
      all_goals first | exact (hflips l).self | assumption | exact (hflips l).zero_iff.1 (by assumption)

end values

end Alpine

import Alpine.Spec.Changeset
import Alpine.Sanity.Champion
import Alpine.Sanity.VersionKey

/-! Which provider `select_package` chooses. Its preference compares two providers by the first
test that tells them apart, and the tests themselves depend on the pair: the latest version
counts between packages of one name, the priority between all. So it is not an order, and the
choice can depend on how `name->providers` is arranged. Among providers for which all pairs are
put to the same tests it is one. -/

namespace Alpine

/-- three results as an order gives them for the pairs of three elements -/
def Ordered (f g h : ℤ) : Prop := 0 ≤ f → 0 ≤ g → 0 ≤ h ∧ (h = 0 → f = 0 ∧ g = 0)

inductive AllOrdered : List ℤ → List ℤ → List ℤ → Prop
  | nil : AllOrdered [] [] []
  | cons {x y z : ℤ} {f g h : List ℤ} (hx : Ordered x y z) (hs : AllOrdered f g h) :
      AllOrdered (x :: f) (y :: g) (z :: h)

theorem AllOrdered.append {f g h f' g' h' : List ℤ} (h₁ : AllOrdered f g h) (h₂ : AllOrdered f' g' h') :
    AllOrdered (f ++ f') (g ++ g') (h ++ h') := by
  induction h₁ with
  | nil => exact h₂
  | cons hx _ ih => exact .cons hx ih

/-- the first test that tells apart decides as an order if all tests do -/
theorem AllOrdered.first {f g h : List ℤ} (hl : AllOrdered f g h) :
    Ordered (firstNonzero f) (firstNonzero g) (firstNonzero h) := by
  induction hl with
  | nil => exact fun _ _ => ⟨le_rfl, fun _ => ⟨rfl, rfl⟩⟩
  | @cons x y z f g h hx hs ih =>
    intro hf hg
    have hx0 : 0 ≤ x := by
      simp only [firstNonzero] at hf
      split_ifs at hf <;> omega
    have hy0 : 0 ≤ y := by
      simp only [firstNonzero] at hg
      split_ifs at hg <;> omega
    obtain ⟨hz0, hzero⟩ := hx hx0 hy0
    by_cases hz : z = 0
    · obtain ⟨rfl, rfl⟩ := hzero hz
      subst hz
      exact ih hf hg
    · rw [firstNonzero, if_pos hz]
      exact ⟨hz0, fun h0 => absurd h0 hz⟩

theorem ordered_diff (x y z : ℤ) : Ordered (x - y) (y - z) (x - z) := by
  intro hf hg
  exact ⟨by omega, fun _ => ⟨by omega, by omega⟩⟩

theorem ordered_if (c : Prop) [Decidable c] {f g h : ℤ} (hfgh : Ordered f g h) :
    Ordered (if c then f else 0) (if c then g else 0) (if c then h else 0) := by
  split_ifs
  · exact hfgh
  · exact fun _ _ => ⟨le_rfl, fun _ => ⟨rfl, rfl⟩⟩

theorem firstNonzero_neg (l : List ℤ) : firstNonzero (l.map Neg.neg) = -firstNonzero l := by
  induction l with
  | nil => rfl
  | cons r l ih =>
    simp only [List.map_cons, firstNonzero, ih, ne_eq, neg_eq_zero]
    split_ifs <;> rfl

theorem boolDiff_neg (a b : Bool) : boolDiff b a = -boolDiff a b := (neg_sub _ _).symm

/-- the versions are as short as `apk_version_compare` needs them -/
def ShortVersion (v : Option Bytes) : Prop := (v.getD []).length < 2 ^ 31 + 2

theorem versionDiff_key {a b : Option Bytes} (ha : ShortVersion a) (hb : ShortVersion b) :
    (versionDiff a b ≤ 0 ↔ versionKey (a.getD []) ≤ versionKey (b.getD [])) ∧
      (0 ≤ versionDiff a b ↔ versionKey (b.getD []) ≤ versionKey (a.getD [])) := by
  have hcmp : apkVersionCompare (atomBlob a) (atomBlob b) = cmpCode (versionKey (a.getD [])) (versionKey (b.getD [])) :=
    apkVersionCompare_eq (Nat.lt_succ_of_lt ha) (Nat.lt_succ_of_lt hb)
  rw [← not_lt (a := versionKey (b.getD [])), ← not_lt (a := versionKey (a.getD [])), ← cmpCode_greater_iff,
    ← cmpCode_less_iff, ← hcmp, versionDiff]
  split_ifs with h1 h2
  · rw [h1]; decide
  · rw [h2]; decide
  · exact ⟨iff_of_true le_rfl h2, iff_of_true le_rfl h1⟩

theorem ordered_version {a b c : Option Bytes} (ha : ShortVersion a) (hb : ShortVersion b) (hc : ShortVersion c) :
    Ordered (versionDiff a b) (versionDiff b c) (versionDiff a c) := by
  intro hab hbc
  have hba := (versionDiff_key ha hb).2.1 hab
  have hcb := (versionDiff_key hb hc).2.1 hbc
  refine ⟨(versionDiff_key ha hc).2.2 (hcb.trans hba), fun hac => ?_⟩
  have hle := (versionDiff_key ha hc).1.1 hac.le
  exact ⟨le_antisymm ((versionDiff_key ha hb).1.2 (hle.trans hcb)) hab,
    le_antisymm ((versionDiff_key hb hc).1.2 (hba.trans hle)) hbc⟩

theorem versionDiff_neg {a b : Option Bytes} (ha : ShortVersion a) (hb : ShortVersion b) :
    versionDiff b a = -versionDiff a b := by
  have hrange : ∀ x y : Option Bytes, -1 ≤ versionDiff x y ∧ versionDiff x y ≤ 1 := by
    intro x y
    unfold versionDiff
    split_ifs <;> omega
  have hab := versionDiff_key ha hb
  have hba := versionDiff_key hb ha
  have h1 := hrange a b
  have h2 := hrange b a
  rw [← hba.2] at hab
  rw [← hba.1] at hab
  omega

section

variable {N P : Type} [DecidableEq N] (db : Database N P)

def prefers (ss : SolverState N P) (p q : Provider P) : Bool :=
  decide (compareProviders db ss (some p) (some q) > 0)

variable {ss : SolverState N P} {n : N} {ps : List (Provider P)}

theorem compareProviders_none {p : Provider P} : compareProviders db ss (some p) none = 1 := rfl

theorem chooseFrom_eq_scan : chooseFrom db ss n ps =
      Champion.scan (prefers db ss) none (ps.filter (considered db ss n)) := by
  unfold chooseFrom Champion.scan
  rw [List.foldl_filter]
  congr 1
  funext chosen p
  cases hc : considered db ss n p with
  | false => simp
  | true =>
    cases chosen with
    | none => simp [Champion.keep, compareProviders_none]
    | some q =>
      simp only [Bool.not_true, Bool.false_eq_true, if_false, Champion.keep, prefers, decide_eq_true_eq]
      split_ifs <;> rfl

/-- which tests `compare_providers` makes for a pair of providers -/
structure PairTests where
  latest : Bool
  available : Bool
  reinstall : Bool
  preupgrade : Bool
  keep : Bool
  sameName : Bool
  last : Bool
  deriving DecidableEq

def pairTests (ss : SolverState N P) (pA pB : Provider P) : PairTests :=
  let a := ss.pkg pA.pkg
  let b := ss.pkg pB.pkg
  let flags := a.solverFlags ||| b.solverFlags
  let latest := hasFlag flags apkSolverfLatest && decide (a.pinningAllowed = apkDefaultPinningMask) &&
    decide (b.pinningAllowed = apkDefaultPinningMask)
  let sameName := decide ((db.package pA.pkg).name = (db.package pB.pkg).name)
  { latest := latest
    available := hasFlag flags apkSolverfAvailable
    reinstall := latest && !hasFlag flags apkSolverfAvailable && hasFlag flags apkSolverfReinstall
    preupgrade := !latest && ((db.performingPreupgrade && !hasFlag flags apkSolverfUpgrade) ||
      hasFlag flags apkSolverfInstalled)
    keep := !latest && !hasFlag flags (apkSolverfRemove ||| apkSolverfUpgrade) &&
      (sameName || pA.version.isSome || pB.version.isSome)
    sameName := sameName
    last := !hasFlag flags apkSolverfRemove }

/-- the tests, one after the other -/
def testsOf (ss : SolverState N P) (t : PairTests) (pA pB : Provider P) : List ℤ :=
  let a := ss.pkg pA.pkg
  let b := ss.pkg pB.pkg
  let qA := db.package pA.pkg
  let qB := db.package pB.pkg
  let installed := boolDiff qA.ipkg.isSome qB.ipkg.isSome
  (if t.latest then
    [boolDiff a.tagOk b.tagOk,
      if t.available then boolDiff a.pkgAvailable b.pkgAvailable
      else if t.reinstall then boolDiff a.pkgSelectable b.pkgSelectable else 0]
  else
    [boolDiff a.pkgSelectable b.pkgSelectable, boolDiff a.dependenciesUsed b.dependenciesUsed,
      toInt32 ((b.conflicts : ℤ) - a.conflicts), if t.preupgrade then installed else 0, boolDiff a.tagOk b.tagOk,
      if t.available then boolDiff a.pkgAvailable b.pkgAvailable else 0, boolDiff a.tagPreferred b.tagPreferred,
      if t.keep then installed else 0]) ++
  [versionDiff pA.version pB.version, if t.sameName then versionDiff qA.version qB.version else 0,
    (qA.providerPriority : ℤ) - qB.providerPriority, if t.last then installed else 0,
    boolDiff a.pkgSelectable b.pkgSelectable, ffs qB.repos - ffs qA.repos]

theorem compareProviders_eq (pA pB : Provider P) : compareProviders db ss (some pA) (some pB) =
      firstNonzero (testsOf db ss (pairTests db ss pA pB) pA pB) := by
  have hsome : ∀ v : Option Bytes, v ≠ none ↔ v.isSome = true := fun v => Option.isSome_iff_ne_none.symm
  by_cases hlatest : hasFlag ((ss.pkg pA.pkg).solverFlags ||| (ss.pkg pB.pkg).solverFlags) apkSolverfLatest = true ∧
      (ss.pkg pA.pkg).pinningAllowed = apkDefaultPinningMask ∧ (ss.pkg pB.pkg).pinningAllowed = apkDefaultPinningMask
  · by_cases havail : hasFlag ((ss.pkg pA.pkg).solverFlags ||| (ss.pkg pB.pkg).solverFlags) apkSolverfAvailable = true
    · simp [compareProviders, testsOf, pairTests, compareLatest, compareLast, hlatest, havail]
    · simp [compareProviders, testsOf, pairTests, compareLatest, compareLast, hlatest, havail]
  · have hnot : (hasFlag ((ss.pkg pA.pkg).solverFlags ||| (ss.pkg pB.pkg).solverFlags) apkSolverfLatest &&
        decide ((ss.pkg pA.pkg).pinningAllowed = apkDefaultPinningMask) &&
        decide ((ss.pkg pB.pkg).pinningAllowed = apkDefaultPinningMask)) = false := by
      simpa [and_assoc] using hlatest
    simp [compareProviders, testsOf, pairTests, compareRegular, compareLast, hlatest, hnot, hsome, or_assoc]

/-- what is compared of a provider is small enough for the `int` results -/
structure Bounded (db : Database N P) (ss : SolverState N P) (p : Provider P) : Prop where
  version : ShortVersion p.version
  principal : ShortVersion (db.package p.pkg).version
  conflicts : (ss.pkg p.pkg).conflicts < 2 ^ 31

omit [DecidableEq N] in
theorem conflicts_diff {p q : Provider P} (hp : Bounded db ss p) (hq : Bounded db ss q) :
    toInt32 (((ss.pkg q.pkg).conflicts : ℤ) - (ss.pkg p.pkg).conflicts) =
      -((ss.pkg p.pkg).conflicts : ℤ) - -((ss.pkg q.pkg).conflicts : ℤ) := by
  have h1 := hp.conflicts
  have h2 := hq.conflicts
  rw [toInt32_of_small (by omega) (by omega)]
  ring

omit [DecidableEq N] in
theorem testsOf_ordered (t : PairTests) {a b c : Provider P} (ha : Bounded db ss a) (hb : Bounded db ss b)
    (hc : Bounded db ss c) : AllOrdered (testsOf db ss t a b) (testsOf db ss t b c) (testsOf db ss t a c) := by
  have hbool : ∀ f : Provider P → Bool, Ordered (boolDiff (f a) (f b)) (boolDiff (f b) (f c)) (boolDiff (f a) (f c)) :=
    fun f => ordered_diff _ _ _
  have hsel := hbool fun p => (ss.pkg p.pkg).pkgSelectable
  have havail := hbool fun p => (ss.pkg p.pkg).pkgAvailable
  have htag := hbool fun p => (ss.pkg p.pkg).tagOk
  have hinst := hbool fun p => (db.package p.pkg).ipkg.isSome
  have hconf : Ordered (toInt32 (((ss.pkg b.pkg).conflicts : ℤ) - (ss.pkg a.pkg).conflicts))
      (toInt32 (((ss.pkg c.pkg).conflicts : ℤ) - (ss.pkg b.pkg).conflicts))
      (toInt32 (((ss.pkg c.pkg).conflicts : ℤ) - (ss.pkg a.pkg).conflicts)) := by
    rw [conflicts_diff db ha hb, conflicts_diff db hb hc, conflicts_diff db ha hc]
    exact ordered_diff _ _ _
  have hffs : Ordered (ffs (db.package b.pkg).repos - ffs (db.package a.pkg).repos)
      (ffs (db.package c.pkg).repos - ffs (db.package b.pkg).repos)
      (ffs (db.package c.pkg).repos - ffs (db.package a.pkg).repos) := by
    intro hf hg
    exact ⟨by omega, fun _ => ⟨by omega, by omega⟩⟩
  have hlast := ordered_version ha.version hb.version hc.version
  have hprincipal := ordered_version ha.principal hb.principal hc.principal
  have hfirst : Ordered (if t.available then boolDiff (ss.pkg a.pkg).pkgAvailable (ss.pkg b.pkg).pkgAvailable
        else if t.reinstall then boolDiff (ss.pkg a.pkg).pkgSelectable (ss.pkg b.pkg).pkgSelectable else 0)
      (if t.available then boolDiff (ss.pkg b.pkg).pkgAvailable (ss.pkg c.pkg).pkgAvailable
        else if t.reinstall then boolDiff (ss.pkg b.pkg).pkgSelectable (ss.pkg c.pkg).pkgSelectable else 0)
      (if t.available then boolDiff (ss.pkg a.pkg).pkgAvailable (ss.pkg c.pkg).pkgAvailable
        else if t.reinstall then boolDiff (ss.pkg a.pkg).pkgSelectable (ss.pkg c.pkg).pkgSelectable else 0) := by
    split
    · exact havail
    · exact ordered_if _ hsel
  unfold testsOf
  refine AllOrdered.append ?_ (.cons hlast (.cons (ordered_if _ hprincipal) (.cons (ordered_diff _ _ _)
    (.cons (ordered_if _ hinst) (.cons hsel (.cons hffs .nil))))))
  split
  · exact .cons htag (.cons hfirst .nil)
  · exact .cons hsel (.cons (hbool fun p => (ss.pkg p.pkg).dependenciesUsed) (.cons hconf (.cons (ordered_if _ hinst)
      (.cons htag (.cons (ordered_if _ havail) (.cons (hbool fun p => (ss.pkg p.pkg).tagPreferred)
        (.cons (ordered_if _ hinst) .nil)))))))

omit [DecidableEq N] in
theorem testsOf_neg (t : PairTests) {a b : Provider P} (ha : Bounded db ss a) (hb : Bounded db ss b) :
    testsOf db ss t b a = (testsOf db ss t a b).map Neg.neg := by
  have hif : ∀ (c : Prop) [Decidable c] (x y : ℤ), -(if c then x else y) = if c then -x else -y :=
    fun c _ x y => apply_ite Neg.neg c x y
  have hconf : toInt32 (((ss.pkg a.pkg).conflicts : ℤ) - (ss.pkg b.pkg).conflicts) =
      -toInt32 (((ss.pkg b.pkg).conflicts : ℤ) - (ss.pkg a.pkg).conflicts) := by
    rw [conflicts_diff db hb ha, conflicts_diff db ha hb, neg_sub]
  unfold testsOf
  rw [List.map_append, apply_ite (List.map Neg.neg)]
  simp only [List.map_cons, List.map_nil, hif, ← boolDiff_neg, ← versionDiff_neg ha.version hb.version,
    ← versionDiff_neg ha.principal hb.principal, neg_sub, neg_zero, hconf]

theorem pairTests_comm (a b : Provider P) : pairTests db ss b a = pairTests db ss a b := by
  have hflags := Nat.lor_comm (ss.pkg b.pkg).solverFlags (ss.pkg a.pkg).solverFlags
  have hname : decide ((db.package b.pkg).name = (db.package a.pkg).name) =
      decide ((db.package a.pkg).name = (db.package b.pkg).name) := decide_eq_decide.2 eq_comm
  simp only [pairTests, hflags, hname, Bool.and_right_comm _ (decide ((ss.pkg b.pkg).pinningAllowed = _)),
    Bool.or_right_comm _ b.version.isSome]

theorem compareProviders_neg {a b : Provider P} (ha : Bounded db ss a) (hb : Bounded db ss b) :
    compareProviders db ss (some b) (some a) = -compareProviders db ss (some a) (some b) := by
  rw [compareProviders_eq, compareProviders_eq, pairTests_comm, testsOf_neg db _ ha hb, firstNonzero_neg]

/-- providers whose pairs are put to the same tests are not preferred in a circle -/
theorem no_circle_of_tests {a b c : Provider P} (ha : Bounded db ss a) (hb : Bounded db ss b) (hc : Bounded db ss c)
    (hab : pairTests db ss a b = pairTests db ss a c) (hbc : pairTests db ss b c = pairTests db ss a c)
    (h1 : 0 < compareProviders db ss (some a) (some b)) (h2 : 0 < compareProviders db ss (some b) (some c)) :
    0 < compareProviders db ss (some a) (some c) := by
  have ho := (testsOf_ordered db (pairTests db ss a c) ha hb hc).first
  rw [compareProviders_eq, hab] at h1
  rw [compareProviders_eq, hbc] at h2
  rw [compareProviders_eq]
  obtain ⟨h0, hzero⟩ := ho h1.le h2.le
  refine lt_of_le_of_ne h0 fun h => ?_
  exact h1.ne' (hzero h.symm).1

variable [DecidableEq P]

theorem provider_choice_order_free (n : N) (ps : List (Provider P))
    (hbound : ∀ p ∈ ps, considered db ss n p = true → Bounded db ss p)
    (hdistinct : ∀ p ∈ ps, ∀ q ∈ ps, considered db ss n p = true → considered db ss n q = true → p ≠ q →
      compareProviders db ss (some p) (some q) ≠ 0)
    (hcircle : ∀ a ∈ ps, ∀ b ∈ ps, ∀ c ∈ ps, considered db ss n a = true → considered db ss n b = true →
      considered db ss n c = true →
      (pairTests db ss a b = pairTests db ss a c ∧ pairTests db ss b c = pairTests db ss a c) ∨
        ¬(0 < compareProviders db ss (some a) (some b) ∧ 0 < compareProviders db ss (some b) (some c) ∧
          0 < compareProviders db ss (some c) (some a))) :
    ∀ qs : List (Provider P), qs.Perm ps → chooseProvider db ss n qs = chooseProvider db ss n ps := by
  intro qs hperm
  unfold chooseProvider
  split_ifs
  swap
  · rfl
  rw [chooseFrom_eq_scan, chooseFrom_eq_scan]
  refine (Champion.scan_perm_iff (prefers db ss) (ps.filter (considered db ss n))).2 ?_ _ (hperm.filter _)
  by_cases hnil : ps.filter (considered db ss n) = []
  · exact Or.inl hnil
  refine Or.inr (Champion.exists_dominates hnil ?_ ?_)
  · intro a ha b hb hab
    obtain ⟨ha, hca⟩ := List.mem_filter.1 ha
    obtain ⟨hb, hcb⟩ := List.mem_filter.1 hb
    have hneg := compareProviders_neg db (hbound a ha hca) (hbound b hb hcb)
    have hne := hdistinct a ha b hb hca hcb hab
    simp only [prefers, decide_eq_true_eq, decide_eq_false_iff_not]
    omega
  · intro a ha b hb c hc _ _ _ h1 h2
    obtain ⟨ha, hca⟩ := List.mem_filter.1 ha
    obtain ⟨hb, hcb⟩ := List.mem_filter.1 hb
    obtain ⟨hc, hcc⟩ := List.mem_filter.1 hc
    have h1 := of_decide_eq_true h1
    have h2 := of_decide_eq_true h2
    refine decide_eq_false fun h3 => ?_
    rcases hcircle a ha b hb c hc hca hcb hcc with ⟨hab, hbc⟩ | hno
    · have h4 := no_circle_of_tests db (hbound a ha hca) (hbound b hb hcb) (hbound c hc hcc) hab hbc h1 h2
      have hneg := compareProviders_neg db (hbound a ha hca) (hbound c hc hcc)
      omega
    · exact hno ⟨h1, h2, h3⟩

end

/-- `x` 2 and `x` 1 with the priorities 1 and 3, and `y` with the priority 2, all provide the
name 0 without a version -/
def circleDb : Database (Fin 3) (Fin 3) where
  package p := match p with
    | 0 => plainPackage 1 (versionOf '2') [] [] [unversioned 0] 1
    | 1 => plainPackage 1 (versionOf '1') [] [] [unversioned 0] 3
    | 2 => plainPackage 2 (versionOf '1') [] [] [unversioned 0] 2
  display n := match n with
    | 0 => ascs ['v']
    | 1 => ascs ['x']
    | 2 => ascs ['y']
  providers n := match n with
    | 0 => [⟨0, none⟩, ⟨1, none⟩, ⟨2, none⟩]
    | 1 => [⟨0, versionOf '2'⟩, ⟨1, versionOf '1'⟩]
    | 2 => [⟨2, versionOf '1'⟩]
  rdepends _ := []
  rinstallIf _ := []
  solverFlagsSet _ := false
  installed := []
  repoTags := [1]
  availableRepos := 1
  activeLayers := 1
  performingPreupgrade := false
  forceBrokenWorld := false
  undecodedDigest _ := []
  provider_own := by decide
  provider_from := by decide

/-- the state in which the solver selects a package for the only name of the world -/
def circleState (n : Fin 3) : Option (SolverState (Fin 3) (Fin 3)) := do
  let ss ← discoverWorld circleDb 4 (passStart circleDb 0 fun _ => PkgState.zero) [unversioned n]
  solveStep circleDb (applyWorld circleDb ss [unversioned n])

/-- the two versions of `x` are put to the same tests -/
theorem provider_choice_order_free_versions : ∃ ss, circleState 1 = some ss ∧
    chooseProvider circleDb ss 1 [⟨1, versionOf '1'⟩, ⟨0, versionOf '2'⟩] =
      chooseProvider circleDb ss 1 (circleDb.providers 1) ∧
    chooseProvider circleDb ss 1 (circleDb.providers 1) = some ⟨0, versionOf '2'⟩ := by
  have hstate : ∃ ss, circleState 1 = some ss ∧
      (∀ p ∈ circleDb.providers 1, (p.version.getD []).length < 2 ^ 31 + 2 ∧
        ((circleDb.package p.pkg).version.getD []).length < 2 ^ 31 + 2 ∧ (ss.pkg p.pkg).conflicts < 2 ^ 31) ∧
      (∀ p ∈ circleDb.providers 1, ∀ q ∈ circleDb.providers 1, p ≠ q →
        compareProviders circleDb ss (some p) (some q) ≠ 0) ∧
      (∀ a ∈ circleDb.providers 1, ∀ b ∈ circleDb.providers 1, ∀ c ∈ circleDb.providers 1,
        pairTests circleDb ss a b = pairTests circleDb ss a c ∧ pairTests circleDb ss b c = pairTests circleDb ss a c) ∧
      [⟨1, versionOf '1'⟩, ⟨0, versionOf '2'⟩].Perm (circleDb.providers 1) ∧
      chooseProvider circleDb ss 1 (circleDb.providers 1) = some ⟨0, versionOf '2'⟩ := by
    decide +kernel
  obtain ⟨ss, hss, hbound, hdistinct, htests, hperm, hchosen⟩ := hstate
  refine ⟨ss, hss, ?_, hchosen⟩
  exact provider_choice_order_free circleDb 1 (circleDb.providers 1)
    (fun p hp _ => ⟨(hbound p hp).1, (hbound p hp).2.1, (hbound p hp).2.2⟩)
    (fun p hp q hq _ _ => hdistinct p hp q hq)
    (fun a ha b hb c hc _ _ _ => Or.inl (htests a ha b hb c hc)) _ hperm

/-- every pair is told apart, and two arrangements lead to two packages -/
theorem provider_choice_depends_on_order : ∃ ss, circleState 0 = some ss ∧
    (dequeueNextName ss).map (·.1) = some 0 ∧
    (∀ p ∈ circleDb.providers 0, ∀ q ∈ circleDb.providers 0, p ≠ q →
      considered circleDb ss 0 p = true ∧ compareProviders circleDb ss (some p) (some q) ≠ 0) ∧
    [⟨1, none⟩, ⟨2, none⟩, ⟨0, none⟩].Perm (circleDb.providers 0) ∧
    chooseProvider circleDb ss 0 (circleDb.providers 0) = some ⟨2, none⟩ ∧
    chooseProvider circleDb ss 0 [⟨1, none⟩, ⟨2, none⟩, ⟨0, none⟩] = some ⟨0, none⟩ := by
  decide +kernel

end Alpine

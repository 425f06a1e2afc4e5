import Alpine.Sanity.Blob
import Alpine.Sanity.PassGives

/-! The restarts of `apk_solver_solve` when the world may be broken: a failing pass flags
dependencies of the world, clears the solver's state and starts over without them. -/

namespace Alpine

open List Relation.ReflTransGen

variable {a b : Bytes}

theorem apkNameCmpDisplay_total : apkNameCmpDisplay a b ≤ 0 ∨ apkNameCmpDisplay b a ≤ 0 := by
  have h1 : strcasecmp b a = -strcasecmp a b := strcmp_neg _ _
  have h2 := strcmp_neg a b
  unfold apkNameCmpDisplay
  split_ifs <;> omega

theorem apkNameCmpDisplay_le_iff : apkNameCmpDisplay a b ≤ 0 ↔
      strcasecmp a b ≤ 0 ∧ (strcasecmp a b = 0 → strcmp a b ≤ 0) := by
  unfold apkNameCmpDisplay
  split_ifs <;> omega

theorem apkNameCmpDisplay_trans {c : Bytes} (hab : apkNameCmpDisplay a b ≤ 0)
    (hbc : apkNameCmpDisplay b c ≤ 0) : apkNameCmpDisplay a c ≤ 0 := by
  rw [apkNameCmpDisplay_le_iff] at *
  have htrans : ∀ x y z, strcasecmp x y ≤ 0 → strcasecmp y z ≤ 0 → strcasecmp x z ≤ 0 :=
    fun x y z => strcmp_trans _ _ _
  have hneg : ∀ x y, strcasecmp y x = -strcasecmp x y := fun x y => strcmp_neg _ _
  refine ⟨htrans a b c hab.1 hbc.1, fun h => ?_⟩
  -- the two ends agree but for the case, so the one between them does
  have hca : strcasecmp c a ≤ 0 := by rw [hneg, h]; rfl
  have h1 : strcasecmp a b = 0 := by
    have := htrans b c a hbc.1 hca
    rw [hneg] at this
    omega
  have h2 : strcasecmp b c = 0 := by
    have := htrans c a b hca hab.1
    rw [hneg] at this
    omega
  exact strcmp_trans _ _ _ (hab.2 h1) (hbc.2 h2)

section

variable {N P : Type} (db : Database N P)

def NamesInOrder (world : List (Dependency N)) : Prop :=
  world.Pairwise fun d1 d2 => cmpPkgname db d1 d2 ≤ 0

theorem sortWorld_namesInOrder {world : List (Dependency N)} : NamesInOrder db (sortWorld db world) := by
  have : Std.Total fun d1 d2 : Dependency N => cmpPkgname db d1 d2 ≤ 0 :=
    ⟨fun d1 d2 => apkNameCmpDisplay_total⟩
  have : IsTrans (Dependency N) fun d1 d2 => cmpPkgname db d1 d2 ≤ 0 :=
    ⟨fun d1 d2 d3 => apkNameCmpDisplay_trans⟩
  exact pairwise_insertionSort _ world

variable (ss : SolverState N P) {world : List (Dependency N)}

theorem NamesInOrder.sortWorld_eq (h : NamesInOrder db world) :
    sortWorld db world = world := h.insertionSort_eq

theorem sortWorld_length : (sortWorld db world).length = world.length := length_insertionSort _ world

variable {d : Dependency N}

theorem flagDep_name : (flagDep ss d).name = d.name := by
  unfold flagDep
  split_ifs <;> rfl

theorem flagDep_broken (h : d.broken = true) : flagDep ss d = d := by
  unfold flagDep
  split_ifs
  · obtain ⟨⟩ := d
    simp only at h
    rw [h]
  · rfl

theorem NamesInOrder.flagBroken (h : NamesInOrder db world) : NamesInOrder db (flagBroken ss world) := by
  refine pairwise_map.2 (h.imp fun {d1 d2} hd => ?_)
  rw [cmpPkgname, flagDep_name, flagDep_name]
  exact hd

/-- a dependency that the failing pass flags and that was not flagged before -/
def NewlyFlagged (ss : SolverState N P) (d : Dependency N) : Prop :=
  d.broken = false ∧ (flagDep ss d).broken = true

theorem newlyFlagged_iff : NewlyFlagged ss d ↔ d.broken = false ∧
      ∀ p, (ss.name d.name).chosen = some p → (ss.pkg p.pkg).error = true := by
  unfold NewlyFlagged flagDep
  cases hb : d.broken with
  | true => simp
  | false =>
    cases hc : (ss.name d.name).chosen with
    | none => simp
    | some p =>
      cases he : (ss.pkg p.pkg).error with
      | true => simp [he]
      | false => simp [hb, he]

theorem flagBroken_eq_self {ss : SolverState N P} (h : ¬ ∃ d ∈ world, NewlyFlagged ss d) :
    flagBroken ss world = world := by
  refine (map_congr_left fun d hd => ?_).trans (map_id world)
  cases hb : d.broken with
  | true => exact flagDep_broken ss hb
  | false =>
    have hf : (flagDep ss d).broken ≠ true := fun hf => h ⟨d, hd, hb, hf⟩
    unfold flagDep at hf ⊢
    split_ifs at hf ⊢
    · exact absurd rfl hf
    · rfl

def unbroken (world : List (Dependency N)) : ℕ := world.countP fun d => !d.broken

theorem unbroken_flagBroken {ss : SolverState N P} (h : ∃ d ∈ world, NewlyFlagged ss d) :
    unbroken (flagBroken ss world) < unbroken world := by
  have hle : ∀ l : List (Dependency N), unbroken (flagBroken ss l) ≤ unbroken l := by
    intro l
    unfold unbroken flagBroken
    rw [countP_map]
    refine countP_mono_left fun d _ hd => ?_
    cases hb : d.broken with
    | true => simp [flagDep_broken ss hb, hb] at hd
    | false => rfl
  obtain ⟨d, hd, hb, hf⟩ := h
  obtain ⟨l, r, rfl⟩ := append_of_mem hd
  have h1 := hle l
  have h2 := hle r
  simp only [unbroken, flagBroken, map_append, map_cons, countP_append, countP_cons, hb, hf] at h1 h2 ⊢
  simp only [Bool.not_true, Bool.not_false, Bool.false_eq_true, if_false, if_true]
  omega

end

/-- the states of the packages after `free_package`, without the flags of
`apk_solver_set_name_flags` -/
def cleared {P : Type} : P → PkgState := fun _ => PkgState.zero

def bareDb : Database (Fin 2) (Fin 0) where
  package p := p.elim0
  display n := match n with
    | 0 => ascs ['a']
    | 1 => ascs ['b']
  providers _ := []
  rdepends _ := []
  rinstallIf _ := []
  solverFlagsSet _ := false
  installed := []
  repoTags := [1]
  availableRepos := 1
  activeLayers := 1
  performingPreupgrade := false
  forceBrokenWorld := true
  undecodedDigest _ := []
  provider_own := by decide
  provider_from := by decide

def conflictWith {N : Type} (n : N) : Dependency N :=
  { unversioned n with op := apkDepmaskAny ||| apkVersionConflict }

section

variable {N P : Type} (db : Database N P) [DecidableEq N] [DecidableEq P]

structure PassInput (N P : Type) where
  pkg : P → PkgState
  changeset : Changeset P
  world : List (Dependency N)

/-- the pass from `i` fails and the one from `j` follows it -/
def Restart (flags : ℕ) (i j : PassInput N P) : Prop :=
  ∃ fuel ss, solverPass db fuel flags i.pkg i.changeset i.world = some ss ∧
    restarts db ss = true ∧ j = ⟨cleared, ss.changeset, flagBroken ss i.world⟩

def PassReaches (flags : ℕ) : PassInput N P → PassInput N P → Prop :=
  Relation.ReflTransGen (Restart db flags)

variable {flags : ℕ} {i j : PassInput N P}

theorem PassReaches.length (h : PassReaches db flags i j) : j.world.length = i.world.length := by
  induction h with
  | refl => rfl
  | tail _ hstep ih =>
    obtain ⟨_, ss, -, -, rfl⟩ := hstep
    rw [← ih]
    exact length_map _

def NeverReturns (flags : ℕ) (i : PassInput N P) : Prop :=
  ∀ fuel tries passes, solvePasses db fuel flags tries i.pkg i.changeset i.world passes = none

theorem Restart.neverReturns (h : Restart db flags i j) (hj : NeverReturns db flags j) :
    NeverReturns db flags i := by
  obtain ⟨fuel', ss, hpass, hre, rfl⟩ := h
  intro fuel tries passes
  cases tries with
  | zero => rfl
  | succ tries =>
    unfold solvePasses
    cases hs : solverPass db fuel flags i.pkg i.changeset i.world with
    | none => rfl
    | some s =>
      obtain rfl := solverPass_unique db hs hpass
      simp only [hre]
      exact hj fuel tries (passes + 1)

theorem PassReaches.neverReturns (h : PassReaches db flags i j) (hj : NeverReturns db flags j) :
    NeverReturns db flags i := by
  induction h using head_induction_on with
  | refl => exact hj
  | head hstep _ ih => exact hstep.neverReturns db ih

/-- a failing pass from the cleared state that flags nothing new repeats itself for ever: only
the changeset differs, and no pass looks at it -/
theorem stuck_neverReturns {fuel' : ℕ} {cs : Changeset P} {world : List (Dependency N)}
    {ss : SolverState N P} (hpass : solverPass db fuel' flags cleared cs world = some ss)
    (hre : restarts db ss = true) (hno : ¬ ∃ d ∈ world, NewlyFlagged ss d) (cs' : Changeset P) :
    NeverReturns db flags ⟨cleared, cs', world⟩ := by
  intro fuel tries passes
  induction tries generalizing cs' passes with
  | zero => rfl
  | succ tries ih =>
    unfold solvePasses
    cases hs : solverPass db fuel flags cleared cs' world with
    | none => rfl
    | some s =>
      obtain ⟨c, hc⟩ := solverPass_blind db fuel flags cleared cs' cs world hs
      have hsame : s.withCs c = ss := solverPass_unique db hc hpass
      have hre' : restarts db s = true := by rw [← hre, ← hsame]; rfl
      have hworld : flagBroken s world = world := by
        have hflag : flagBroken s world = flagBroken ss world := by rw [← hsame]; rfl
        rw [hflag, flagBroken_eq_self hno]
      simp only [hre', hworld]
      exact ih s.changeset (passes + 1)

section

variable [Fintype N] [Fintype P]

theorem solvePasses_returns (tries : ℕ) (pkg : P → PkgState) (cs : Changeset P)
    (world : List (Dependency N)) (passes : ℕ)
    (hlow : ∀ i, PassReaches db flags ⟨pkg, cs, world⟩ i → CountersLow db flags i.pkg i.world)
    (hflag : ∀ i, PassReaches db flags ⟨pkg, cs, world⟩ i → i.pkg = cleared → ∀ fuel ss,
      solverPass db fuel flags i.pkg i.changeset i.world = some ss → restarts db ss = true → ∃ d ∈ i.world, NewlyFlagged ss d)
    (htries : pkg = cleared ∧ unbroken world < tries ∨ world.length + 1 < tries) :
    ∃ r, solvePasses db (passFuel N P) flags tries pkg cs world passes = some r := by
  induction tries generalizing pkg cs world passes with
  | zero => omega
  | succ tries ih =>
    obtain ⟨ss, hss⟩ := solverPass_returns db flags pkg cs (hlow _ refl)
    unfold solvePasses
    simp only [hss]
    split_ifs with hre
    · have hstep : Restart db flags ⟨pkg, cs, world⟩ ⟨cleared, ss.changeset, flagBroken ss world⟩ :=
        ⟨_, ss, hss, hre, rfl⟩
      -- the first pass may run with flags of its own, all others start from cleared packages
      have hlt : unbroken (flagBroken ss world) < tries := by
        rcases htries with ⟨hpkg, h⟩ | h
        · exact lt_of_lt_of_le (unbroken_flagBroken (hflag _ refl hpkg _ ss hss hre))
            (Nat.le_of_lt_succ h)
        · have : unbroken (flagBroken ss world) ≤ world.length := by
            rw [← length_map (flagDep ss)]
            exact countP_le_length
          omega
      exact ih cleared ss.changeset (flagBroken ss world) (passes + 1)
        (fun i hi => hlow i (head hstep hi))
        (fun i hi => hflag i (head hstep hi)) (Or.inl ⟨rfl, hlt⟩)
    · exact ⟨_, rfl⟩

/-- the restarts come to an end exactly when every failing pass that starts from cleared packages
flags a dependency that was not flagged before -/
theorem broken_world_terminates_iff (flags : ℕ) (pkg : P → PkgState) (cs : Changeset P)
    (world : List (Dependency N))
    (hlow : ∀ i, PassReaches db flags ⟨pkg, cs, sortWorld db world⟩ i →
      CountersLow db flags i.pkg i.world) :
    (∃ fuel tries r, apkSolverSolve db fuel tries flags pkg cs world = some r) ↔
    ∀ i, PassReaches db flags ⟨pkg, cs, sortWorld db world⟩ i → i.pkg = cleared → ∀ fuel ss,
      solverPass db fuel flags i.pkg i.changeset i.world = some ss → restarts db ss = true →
        ∃ d ∈ i.world, NewlyFlagged ss d := by
  constructor
  · rintro ⟨fuel, tries, r, hr⟩ i hi hpkg fuel' ss hss hre
    by_contra hno
    have hi' : NeverReturns db flags i := by
      obtain ⟨ipkg, ics, iworld⟩ := i
      subst hpkg
      exact stuck_neverReturns db hss hre hno ics
    rw [apkSolverSolve, hi.neverReturns db hi' fuel tries 0] at hr
    cases hr
  · intro hflag
    exact ⟨passFuel N P, world.length + 2, solvePasses_returns db _ pkg cs _ 0 hlow hflag
      (Or.inr (by rw [sortWorld_length]; omega))⟩

end

end

/-- one restart suffices: the only dependency is flagged -/
theorem broken_world_terminates_bare : (∃ fuel tries r,
      apkSolverSolve bareDb fuel tries 0 cleared ⟨0, 0, 0, 0, []⟩ [unversioned 0] = some r) ∧
    ∀ i, PassReaches bareDb 0 ⟨cleared, ⟨0, 0, 0, 0, []⟩, sortWorld bareDb [unversioned 0]⟩ i →
      i.pkg = cleared → ∀ fuel ss,
      solverPass bareDb fuel 0 i.pkg i.changeset i.world = some ss → restarts bareDb ss = true →
        ∃ d ∈ i.world, NewlyFlagged ss d := by
  have hreturns : ∃ fuel tries r,
      apkSolverSolve bareDb fuel tries 0 cleared ⟨0, 0, 0, 0, []⟩ [unversioned 0] = some r :=
    ⟨4, 2, _, rfl⟩
  refine ⟨hreturns, (broken_world_terminates_iff bareDb 0 cleared ⟨0, 0, 0, 0, []⟩ [unversioned 0]
    fun i hi => ?_).1 hreturns⟩
  refine countersLow_of_small bareDb 0 i.pkg i.world ?_
  rw [hi.length]
  decide

/-- `x` wants `z`, which nothing provides, and is installed if `w` is, the only name of the
world: the pass fails for `x`, but `w` is chosen without an error -/
def stuckDb : Database (Fin 3) (Fin 2) where
  package p := match p with
    | 0 => plainPackage 0 (versionOf '1') [] [] [] 0
    | 1 => plainPackage 1 (versionOf '1') [unversioned 2] [unversioned 0] [] 0
  display n := match n with
    | 0 => ascs ['w']
    | 1 => ascs ['x']
    | 2 => ascs ['z']
  providers n := match n with
    | 0 => [⟨0, versionOf '1'⟩]
    | 1 => [⟨1, versionOf '1'⟩]
    | 2 => []
  rdepends n := match n with
    | 2 => [1]
    | _ => []
  rinstallIf n := match n with
    | 0 => [1]
    | _ => []
  solverFlagsSet _ := false
  installed := []
  repoTags := [1]
  availableRepos := 1
  activeLayers := 1
  performingPreupgrade := false
  forceBrokenWorld := true
  undecodedDigest _ := []
  provider_own := by decide
  provider_from := by decide

theorem broken_world_loops : ¬ ∃ fuel tries r,
    apkSolverSolve stuckDb fuel tries 0 cleared ⟨0, 0, 0, 0, []⟩ [unversioned 0] = some r := by
  rintro ⟨fuel, tries, r, hr⟩
  have hpass : ∃ ss, solverPass stuckDb 20 0 cleared ⟨0, 0, 0, 0, []⟩ [unversioned 0] = some ss ∧
      restarts stuckDb ss = true ∧ (flagDep ss (unversioned 0)).broken = false := by
    decide +kernel
  obtain ⟨ss, hss, hre, hflag⟩ := hpass
  have hno : ¬ ∃ d ∈ [unversioned 0], NewlyFlagged ss d := by
    rintro ⟨d, hd, -, hnew⟩
    rw [mem_singleton.1 hd, hflag] at hnew
    cases hnew
  have hnever : apkSolverSolve stuckDb fuel tries 0 cleared ⟨0, 0, 0, 0, []⟩ [unversioned 0] = none :=
    stuck_neverReturns stuckDb hss hre hno ⟨0, 0, 0, 0, []⟩ fuel tries 0
  rw [hnever] at hr
  cases hr

section

variable {N P : Type} (db : Database N P) [DecidableEq N] [DecidableEq P]

variable {world : List (Dependency N)} {flags fuel : ℕ} {pkg : P → PkgState} {ss : SolverState N P}
    {cs : Changeset P}

theorem discoverWorld_filter : discoverWorld db fuel ss (world.filter fun d => !d.broken) =
      discoverWorld db fuel ss world := by
  unfold discoverWorld
  induction world generalizing ss with
  | nil => rfl
  | cons d world ih =>
    cases hb : d.broken with
    | true => simp [hb, discoverWorldDep, ih]
    | false => simp [hb, ih]

theorem applyWorld_filter :
    applyWorld db ss (world.filter fun d => !d.broken) = applyWorld db ss world := by
  have hfold : (world.filter fun d => !d.broken).foldl (applyWorldDep db) ss =
      world.foldl (applyWorldDep db) ss := by
    induction world generalizing ss with
    | nil => rfl
    | cons d world ih =>
      cases hb : d.broken with
      | true => simp [hb, applyWorldDep, ih]
      | false => simp [hb, ih]
  unfold applyWorld
  rw [hfold]

theorem choosePackages_filter : choosePackages db fuel flags pkg (world.filter fun d => !d.broken) =
      choosePackages db fuel flags pkg world := by
  unfold choosePackages
  rw [discoverWorld_filter]
  simp [applyWorld_filter]

theorem solverPass_chosen [Fintype N] [Fintype P] (h : solverPass db fuel flags pkg cs world = some ss) :
    ∃ s, choosePackages db fuel flags pkg world = some s ∧
      ∀ n, (ss.name n).chosen = (s.name n).chosen := by
  obtain ⟨s, hs, hg⟩ := Option.bind_eq_some_iff.1 h
  refine ⟨s, hs, fun n => ?_⟩
  obtain ⟨s', hs', hchosen⟩ := generateChangeset_returns db
    (fuel + (Fintype.card N + Fintype.card P + 1)) (by omega) { s with changeset := cs } world
  rw [generateChangeset_le db ss hg] at hs'
  cases hs'
  exact hchosen n

/-- a failing pass flags only what it left unsatisfied or gave to a package with an error, and no
conflict that it satisfies, exactly when the name of every conflict goes first to a package, and
that one violates the conflict or ends without an error: a conflict with a name that goes to
nothing is satisfied and yet flagged -/
theorem broken_world_flags_precise_iff [Fintype N] [Fintype P] (fuel flags : ℕ) (pkg : P → PkgState) (cs : Changeset P)
    (world : List (Dependency N)) (ss : SolverState N P) (h : solverPass db fuel flags pkg cs world = some ss) :
    ((∀ d ∈ world, NewlyFlagged ss d → apkDepIsProvided db none d (ss.name d.name).chosen = false ∨
          ∃ p, (ss.name d.name).chosen = some p ∧ (ss.pkg p.pkg).error = true) ∧
      ∀ d ∈ world, apkDepConflict d = true →
        apkDepIsProvided db none d (ss.name d.name).chosen = true → ¬ NewlyFlagged ss d) ↔
    ∀ d ∈ world, d.broken = false → apkDepConflict d = true →
      ∃ p, (passGives db fuel flags pkg world).lookup d.name = some (some p) ∧
        (apkDepIsProvided db none d (some p) = false ∨ (ss.pkg p.pkg).error = false) := by
  obtain ⟨s, hs, hchosen⟩ := solverPass_chosen db h
  have hgiven : ∀ n p, (passGives db fuel flags pkg world).lookup n = some (some p) ↔ (ss.name n).chosen = some p := by
    intro n p
    rw [hchosen, choosePackages_chosen db hs, Option.join_eq_some_iff]
  simp only [newlyFlagged_iff, hgiven]
  constructor
  · rintro ⟨-, h⟩ d hd hb hconf
    have hnot := h d hd hconf
    cases hc : (ss.name d.name).chosen with
    | none =>
      rw [hc] at hnot
      exact absurd ⟨hb, fun p hp => by cases hp⟩ (hnot hconf)
    | some p =>
      refine ⟨p, rfl, ?_⟩
      by_contra hno
      rw [not_or, Bool.not_eq_false, Bool.not_eq_false] at hno
      rw [hc] at hnot
      refine hnot hno.1 ⟨hb, fun q hq => ?_⟩
      cases hq
      exact hno.2
  intro h
  constructor
  · rintro d hd ⟨hb, hall⟩
    cases hc : (ss.name d.name).chosen with
    | some p => exact Or.inr ⟨p, rfl, hall p hc⟩
    | none =>
      refine Or.inl (eq_false_of_ne_true fun hprov => ?_)
      -- nothing is chosen, so only a conflict is satisfied
      have hconf : apkDepConflict d = true := hprov
      obtain ⟨p, hp, -⟩ := h d hd hb hconf
      rw [hc] at hp
      cases hp
  rintro d hd hconf hprov ⟨hb, hall⟩
  obtain ⟨p, hp, hno | he⟩ := h d hd hb hconf
  · rw [hp, hno] at hprov
    cases hprov
  · rw [hall p hp] at he
    cases he

end

theorem broken_world_flags_satisfied_conflict :
    ∃ ss, solverPass bareDb 4 0 cleared ⟨0, 0, 0, 0, []⟩ [unversioned 0, conflictWith 1] =
        some ss ∧ restarts bareDb ss = true ∧
      apkDepConflict (conflictWith (1 : Fin 2)) = true ∧
      apkDepIsProvided bareDb none (conflictWith 1) (ss.name 1).chosen = true ∧
      (conflictWith (1 : Fin 2)).broken = false ∧
      (flagDep ss (conflictWith 1)).broken = true := by
  decide +kernel

/-- nothing provides `a`, `b` 2 is available, and `c` needs it -/
def outsideDb : Database (Fin 3) (Fin 2) where
  package p := match p with
    | 0 => plainPackage 1 (versionOf '2') [] [] [] 0
    | 1 => plainPackage 2 (versionOf '1') [unversioned 1] [] [] 0
  display n := match n with
    | 0 => ascs ['a']
    | 1 => ascs ['b']
    | 2 => ascs ['c']
  providers n := match n with
    | 0 => []
    | 1 => [⟨0, versionOf '2'⟩]
    | 2 => [⟨1, versionOf '1'⟩]
  rdepends n := match n with
    | 1 => [2]
    | _ => []
  rinstallIf _ := []
  solverFlagsSet _ := false
  installed := []
  repoTags := [1]
  availableRepos := 1
  activeLayers := 1
  performingPreupgrade := false
  forceBrokenWorld := true
  undecodedDigest _ := []
  provider_own := by decide
  provider_from := by decide

/-- `!b<2` -/
def conflictBelow : Dependency (Fin 3) :=
  { unversioned 1 with op := apkVersionLess ||| apkVersionConflict, version := versionOf '2' }

/-- the pass fails for `a`, and `b` 2, which `c` needs, keeps the conflict with older versions -/
theorem broken_world_flags_precise_outside :
    ∃ ss, solverPass outsideDb 20 0 cleared ⟨0, 0, 0, 0, []⟩ [unversioned 0, conflictBelow, unversioned 2] = some ss ∧
      restarts outsideDb ss = true ∧ apkDepIsProvided outsideDb none conflictBelow (ss.name 1).chosen = true ∧
      NewlyFlagged ss (unversioned 0) ∧ ¬ NewlyFlagged ss conflictBelow := by
  have hrun : ∃ ss, solverPass outsideDb 20 0 cleared ⟨0, 0, 0, 0, []⟩ [unversioned 0, conflictBelow, unversioned 2] =
        some ss ∧ restarts outsideDb ss = true ∧
      apkDepIsProvided outsideDb none conflictBelow (ss.name 1).chosen = true ∧ (flagDep ss (unversioned 0)).broken = true ∧
      (passGives outsideDb 20 0 cleared [unversioned 0, conflictBelow, unversioned 2]).lookup 1 =
        some (some ⟨0, versionOf '2'⟩) ∧ (ss.pkg 0).error = false := by
    decide +kernel
  obtain ⟨ss, hss, hre, hprov, hflag, hgiven, herr⟩ := hrun
  refine ⟨ss, hss, hre, hprov, ⟨rfl, hflag⟩, ?_⟩
  have hall := (broken_world_flags_precise_iff outsideDb 20 0 cleared ⟨0, 0, 0, 0, []⟩ _ ss hss).2 (by
    intro d hd _ hconf
    simp only [mem_cons, not_mem_nil, or_false] at hd
    rcases hd with rfl | rfl | rfl
    · cases hconf
    · exact ⟨_, hgiven, Or.inr herr⟩
    · cases hconf)
  exact hall.2 conflictBelow (by simp) rfl hprov

section

variable {N P : Type} (db : Database N P) [DecidableEq N] [DecidableEq P]

variable {world : List (Dependency N)} {flags fuel : ℕ} {pkg : P → PkgState} {ss : SolverState N P}
    {cs : Changeset P}

theorem solvePasses_last {tries : ℕ} {passes : ℕ} {r : SolveResult N P} (hord : NamesInOrder db world)
    (h : solvePasses db fuel flags tries pkg cs world passes = some r) :
    NamesInOrder db r.passWorld ∧ ∃ pkg' cs', (pkg' = pkg ∨ pkg' = cleared) ∧
      solverPass db fuel flags pkg' cs' r.passWorld = some r.last := by
  induction tries generalizing pkg cs world passes with
  | zero => cases h
  | succ tries ih =>
    unfold solvePasses at h
    split at h
    · cases h
    next ss hss =>
    split_ifs at h with hre
    · obtain ⟨hord', pkg', cs', hpkg, hpass⟩ := ih (hord.flagBroken db ss) h
      exact ⟨hord', pkg', cs', Or.inr (or_self_iff.1 hpkg), hpass⟩
    · cases h
      exact ⟨hord, pkg, cs, Or.inl rfl, hss⟩

/-- the flags that calls of `apk_solver_set_name_flags` leave in the packages -/
def nameFlags (calls : List (N × ℕ × ℕ)) : P → PkgState :=
  calls.foldl (fun pkg c => apkSolverSetNameFlags db pkg c.1 c.2.1 c.2.2) cleared

omit [DecidableEq N] in
theorem setNameFlags_zero {n : N} : apkSolverSetNameFlags db pkg n 0 0 = pkg := by
  unfold apkSolverSetNameFlags
  induction db.providers n with
  | nil => rfl
  | cons p l ih => simpa only [foldl_cons, Nat.or_zero, Function.update_eq_self] using ih

omit [DecidableEq N] in
theorem nameFlags_cleared {calls : List (N × ℕ × ℕ)}
    (h : ∀ c ∈ calls, db.providers c.1 ≠ [] → c.2.1 = 0 ∧ c.2.2 = 0) :
    nameFlags db calls = cleared := by
  unfold nameFlags
  induction calls with
  | nil => rfl
  | cons c calls ih =>
    have hc : apkSolverSetNameFlags db cleared c.1 c.2.1 c.2.2 = cleared := by
      by_cases hp : db.providers c.1 = []
      · unfold apkSolverSetNameFlags
        rw [hp]
        rfl
      · obtain ⟨h1, h2⟩ := h c mem_cons_self hp
        rw [h1, h2]
        exact setNameFlags_zero db
    rw [foldl_cons, hc]
    exact ih fun c' hc' => h c' (mem_cons_of_mem _ hc')

/-- a run chooses in its final pass what a first pass chooses for the world without the broken
dependencies, when no package carries flags of its own: a restart clears these -/
theorem final_pass_same_choice [Fintype N] [Fintype P] (calls : List (N × ℕ × ℕ))
    (hcalls : ∀ c ∈ calls, db.providers c.1 ≠ [] → c.2.1 = 0 ∧ c.2.2 = 0)
    (fuel tries flags : ℕ) (cs : Changeset P) (world : List (Dependency N)) (r : SolveResult N P)
    (h : apkSolverSolve db fuel tries flags (nameFlags db calls) cs world = some r) :
    ∃ s, choosePackages db fuel flags (nameFlags db calls)
        (sortWorld db (r.passWorld.filter fun d => !d.broken)) = some s ∧
      ∀ n, (r.last.name n).chosen = (s.name n).chosen := by
  rw [nameFlags_cleared db hcalls] at h ⊢
  obtain ⟨hord, pkg', cs', hpkg, hpass⟩ := solvePasses_last db (sortWorld_namesInOrder db) h
  obtain rfl := or_self_iff.1 hpkg
  have hord' : NamesInOrder db (r.passWorld.filter fun d => !d.broken) := List.Pairwise.filter _ hord
  rw [hord'.sortWorld_eq, choosePackages_filter]
  exact solverPass_chosen db hpass

end

/-- `a` 1 is installed, `a` 2 available, and nothing provides `m` -/
def upgradeDb : Database (Fin 2) (Fin 2) where
  package p := match p with
    | 0 => { plainPackage 0 (versionOf '1') [] [] [] 0 with ipkg := some 0, repos := 0 }
    | 1 => plainPackage 0 (versionOf '2') [] [] [] 0
  display n := match n with
    | 0 => ascs ['a']
    | 1 => ascs ['m']
  providers n := match n with
    | 0 => [⟨0, versionOf '1'⟩, ⟨1, versionOf '2'⟩]
    | 1 => []
  rdepends _ := []
  rinstallIf _ := []
  solverFlagsSet n := match n with
    | 0 => true
    | 1 => false
  installed := [0]
  repoTags := [1]
  availableRepos := 1
  activeLayers := 1
  performingPreupgrade := false
  forceBrokenWorld := true
  undecodedDigest _ := []
  provider_own := by decide
  provider_from := by decide

theorem final_pass_same_choice_upgrade :
    ∃ r, apkSolverSolve upgradeDb 20 2 0 (nameFlags upgradeDb [(0, 0, 0)]) ⟨0, 0, 0, 0, []⟩
        [unversioned 0, unversioned 1] = some r ∧
      ∃ s, choosePackages upgradeDb 20 0 (nameFlags upgradeDb [(0, 0, 0)])
          (sortWorld upgradeDb (r.passWorld.filter fun d => !d.broken)) = some s ∧
        ∀ n, (r.last.name n).chosen = (s.name n).chosen :=
  ⟨_, rfl, final_pass_same_choice upgradeDb [(0, 0, 0)] (by decide) 20 2 0 ⟨0, 0, 0, 0, []⟩
    [unversioned 0, unversioned 1] _ rfl⟩

/-- asked to upgrade `a`, the first pass takes `a` 2, the one after the restart keeps `a` 1 -/
theorem restart_forgets_name_flags :
    ∃ r s, apkSolverSolve upgradeDb 20 2 0 (nameFlags upgradeDb [(0, apkSolverfUpgrade, 0)])
        ⟨0, 0, 0, 0, []⟩ [unversioned 0, unversioned 1] = some r ∧
      choosePackages upgradeDb 20 0 (nameFlags upgradeDb [(0, apkSolverfUpgrade, 0)])
        (sortWorld upgradeDb (r.passWorld.filter fun d => !d.broken)) = some s ∧
      r.passes = 2 ∧ (r.last.name 0).chosen = some ⟨0, versionOf '1'⟩ ∧
      (s.name 0).chosen = some ⟨1, versionOf '2'⟩ := by
  refine ⟨_, _, rfl, rfl, ?_⟩
  decide +kernel
end Alpine

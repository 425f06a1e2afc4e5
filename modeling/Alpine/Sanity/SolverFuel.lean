import Alpine.Sanity.ChangesetBlind

/-! More fuel does not change what the solver returns, so two runs of a pass that return agree. -/

namespace Alpine

section

variable {N P : Type} [DecidableEq N] [DecidableEq P] (db : Database N P)

open Fuel Le

variable {flags j k : ℕ} {world : List (Dependency N)}
    {go go' : SolverState N P → N → Option (SolverState N P)} {ss : SolverState N P}
    {pkg : P → PkgState}

theorem discoverProvider_le (h : ∀ ss n, Le (go ss n) (go' ss n)) (n : N) (ss : SolverState N P)
    (p : Provider P) : Le (discoverProvider db go n ss p) (discoverProvider db go' n ss p) := by
  refine map _ (ite _ (refl _) ?_)
  exact foldlM (fun ss _ => h ss _) _ _

omit [DecidableEq N] [DecidableEq P] in
theorem discoverProvides_le (h : ∀ ss n, Le (go ss n) (go' ss n)) (ss : SolverState N P)
    (p : Provider P) : Le (discoverProvides db go ss p) (discoverProvides db go' ss p) :=
  bind (foldlM h _ _) fun _ => foldlM (fun ss _ => h ss _) _ _

theorem discoverName_le (k j : ℕ) (ss : SolverState N P) (n : N) :
    Le (discoverName db k ss n) (discoverName db (k + j) ss n) := by
  induction k generalizing ss n with
  | zero => exact none _
  | succ k ih =>
    rw [Nat.succ_add]
    refine ite _ (refl _) ?_
    refine bind (foldlM (discoverProvider_le db ih n) _ _) fun ss => ?_
    refine bind (foldlM ih _ _) fun ss => ?_
    refine bind (foldlM (discoverProvides_le db ih) _ _) fun ss => ?_
    exact foldlM (fun _ _ => foldlM (fun ss _ => ih ss _) _ _) _ _

theorem solveLoop_le (k j : ℕ) (ss : SolverState N P) :
    Le (solveLoop db k ss) (solveLoop db (k + j) ss) := by
  induction k generalizing ss with
  | zero => exact none _
  | succ k ih =>
    rw [Nat.succ_add]
    unfold solveLoop
    cases solveStep db ss with
    | none => exact refl _
    | some ss' => exact ih ss'

theorem generateChangeset_le :
    Le (generateChangeset db k ss world) (generateChangeset db (k + j) ss world) := by
  intro s hs
  obtain ⟨_, rfl, h⟩ := generateChangeset_mirrors db (C := Eq) (fun f _ _ => congrArg f) k j world ss _ rfl s hs
  exact h

theorem discoverWorld_le (k j : ℕ) (ss : SolverState N P) (world : List (Dependency N)) :
    Le (discoverWorld db k ss world) (discoverWorld db (k + j) ss world) := by
  exact Le.foldlM (fun ss _ => Le.ite _ (Le.refl _) (discoverName_le db k j ss _)) _ _

theorem choosePackages_le :
    Le (choosePackages db k flags pkg world) (choosePackages db (k + j) flags pkg world) :=
  bind (discoverWorld_le db k j _ world) fun _ => solveLoop_le db k j _

theorem solverPass_le (k j flags : ℕ) (pkg : P → PkgState) (cs : Changeset P)
    (world : List (Dependency N)) :
    Le (solverPass db k flags pkg cs world) (solverPass db (k + j) flags pkg cs world) :=
  bind (choosePackages_le db) fun _ => generateChangeset_le db

/-- the fuel decides whether a pass returns, never what -/
theorem solverPass_unique {k' : ℕ} {cs : Changeset P} {ss' : SolverState N P}
    (h : solverPass db k flags pkg cs world = some ss)
    (h' : solverPass db k' flags pkg cs world = some ss') : ss = ss' := by
  have h1 := solverPass_le db k k' flags pkg cs world ss h
  have h2 := solverPass_le db k' k flags pkg cs world ss' h'
  rw [Nat.add_comm] at h2
  exact Option.some.inj (h1.symm.trans h2)

end

end Alpine

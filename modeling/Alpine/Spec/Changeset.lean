import Alpine.Spec.Solver

/-! The changeset of a pass and the restart loop (`solver.c`). The functions that generate the
changeset call each other through `cset_gen_name_change` and `cset_gen_name_remove`; they take
the two as `go`, and `csetRun` ties the knot to a given depth. -/

namespace Alpine

section

variable {N P : Type} [DecidableEq N] [DecidableEq P] (db : Database N P)

variable (fuel : ℕ) (ss : SolverState N P) (flags : ℕ) (world : List (Dependency N)) (d : Dependency N)

def recordChange (opkg npkg : Option P) : SolverState N P :=
  let change : Change P :=
    { oldPkg := opkg
      oldRepositoryTag := opkg.elim 0 fun p => (db.package p).ipkg.getD 0
      newPkg := npkg
      newRepositoryTag := npkg.elim 0 fun p =>
        getTag db (ss.pkg p).pinningAllowed (getPkgRepos db p)
      reinstall := npkg.elim false fun p => hasFlag (ss.pkg p).solverFlags apkSolverfReinstall }
  let cs := { ss.changeset with changes := ss.changeset.changes ++ [change] }
  { ss with changeset :=
      if npkg = none then { cs with numRemove := cs.numRemove + 1 }
      else if opkg = none then { cs with numInstall := cs.numInstall + 1 }
      else if npkg ≠ opkg ∨ change.reinstall ∨
          change.newRepositoryTag ≠ change.oldRepositoryTag then
        { cs with numAdjust := cs.numAdjust + 1 }
      else cs }

/-- the two functions that the others come back to -/
inductive CsetCall (N P : Type)
  | nameChange (n : N)
  | nameRemove (pkg : P)

def markProcessed (n : N) : SolverState N P :=
  ss.setName n { ss.name n with changesetProcessed := true }

def markInChangeset (pkg : P) : SolverState N P :=
  ss.setPkg pkg { ss.pkg pkg with inChangeset := true }

def markRemoved (n : N) : SolverState N P :=
  ss.setName n { ss.name n with changesetRemoved := true }

/-- `d->name->ss.installed_name`, if the dependency is counted there -/
def trackedName : Option N :=
  if apkDepConflict d then none else (ss.name d.name).installedName

def csetTrackDepsAdded (pkg : P) : SolverState N P :=
  (db.package pkg).depends.foldl (fun ss d =>
    match trackedName ss d with
    | some m => addRequirer ss m
    | none => ss) ss

section

variable (go : CsetCall N P → SolverState N P → Option (SolverState N P))

/-- a dependency of a package that goes away -/
def csetTrackDepRemoved (ss : SolverState N P) (d : Dependency N) : Option (SolverState N P) :=
  match trackedName ss d with
  | none => some ss
  | some m =>
    let requirers := ((ss.name m).requirers + (2 ^ 16 - 1)) % 2 ^ 16
    let ss := ss.setName m { ss.name m with requirers := requirers }
    if requirers > 0 then some ss
    else
      match (ss.name d.name).installedPkg with
      | some pkg0 => go (.nameRemove pkg0) ss
      | none => some ss

def csetTrackDepsRemoved (ss : SolverState N P) (pkg : P) : Option (SolverState N P) :=
  (db.package pkg).depends.foldlM (csetTrackDepRemoved go) ss

def csetCheckRemovalByDeps (ss : SolverState N P) (pkg : P) : Option (SolverState N P) :=
  let s := ss.name (db.package pkg).name
  if s.requirers = 0 ∧ s.chosen = none then go (.nameRemove pkg) ss else some ss

def csetCheckInstallByIif (ss : SolverState N P) (n : N) : Option (SolverState N P) :=
  match (ss.name n).chosen with
  | none => some ss
  | some p =>
    if !(ss.name n).seen ∨ (ss.name n).changesetProcessed then some ss
    else if (db.package p.pkg).installIf.all (fun d =>
        (apkDepConflict d || (ss.name d.name).changesetProcessed) &&
          apkDepIsProvided db (some p.pkg) d (ss.name d.name).chosen) then
      go (.nameChange n) ss
    else some ss

def csetCheckRemovalByIif (ss : SolverState N P) (n : N) : Option (SolverState N P) :=
  match (ss.name n).installedPkg with
  | none => some ss
  | some pkg =>
    if (ss.name n).chosen ≠ none then some ss
    else if (ss.name n).changesetProcessed ∨ (ss.name n).changesetRemoved then some ss
    else if (db.package pkg).installIf.any (fun d =>
        (ss.name d.name).changesetRemoved && decide ((ss.name d.name).chosen = none)) then
      csetCheckRemovalByDeps db go ss pkg
    else some ss

def csetCheckByReverseIif (cb : SolverState N P → N → Option (SolverState N P))
    (ss : SolverState N P) : Option P → Option (SolverState N P)
  | none => some ss
  | some pkg => do
    let ss ← (db.rinstallIf (db.package pkg).name).foldlM cb ss
    (db.package pkg).provides.foldlM (fun ss d => (db.rinstallIf d.name).foldlM cb ss) ss

/-- the package of another name that provided the name before -/
def csetRemoveFormer (ss : SolverState N P) (n : N) : Option (SolverState N P) :=
  match (ss.name n).installedPkg with
  | none => some ss
  | some pkg =>
    if (ss.name n).chosen.map (fun p => (db.package p.pkg).name) ≠ some n then
      go (.nameRemove pkg) ss
    else some ss

/-- a provider of the name that is due to be deleted -/
def csetRemoveProvider (ss : SolverState N P) (p : Provider P) : Option (SolverState N P) :=
  let s := ss.name (db.package p.pkg).name
  if s.installedPkg = some p.pkg ∧ s.chosen = none then go (.nameRemove p.pkg) ss else some ss

def csetGenNamePreprocess (ss : SolverState N P) (n : N) : Option (SolverState N P) :=
  if (ss.name n).changesetProcessed then some ss
  else do
    let ss ← csetRemoveFormer db go (markProcessed ss n) n
    (db.providers n).foldlM (csetRemoveProvider db go) ss

def csetGenDep (ppkg : Option P) (ss : SolverState N P) (dep : Dependency N) : Option (SolverState N P) :=
  if apkDepConflict dep ∧ ss.ignoreConflict then some ss
  else
    let chosen := (ss.name dep.name).chosen
    let ss := if apkDepIsProvided db ppkg dep chosen then ss else markError ss ppkg
    (go (.nameChange dep.name) ss).map fun ss =>
      if chosen.elim false (fun p => (ss.pkg p.pkg).error) then markError ss ppkg else ss

variable (pkg : P)

/-- the dependencies of the new package count, those of the old one no longer -/
def csetTrackDeps (opkg : Option P) (ss : SolverState N P) : Option (SolverState N P) :=
  match opkg with
  | some old => csetTrackDepsRemoved db go (csetTrackDepsAdded db ss pkg) old
  | none => some (csetTrackDepsAdded db ss pkg)

/-- `cset_gen_name_change` after the change is recorded -/
def csetGenPkgFinish (opkg : Option P) (ss : SolverState N P) : Option (SolverState N P) := do
  let ss ← csetCheckByReverseIif db (csetCheckInstallByIif db go) ss (some pkg)
  csetTrackDeps db go pkg opkg ss

/-- `cset_gen_name_change` from where it has put the chosen package into the changeset -/
def csetGenPkgChange (ss : SolverState N P) (pkg : P) : Option (SolverState N P) := do
  let q := db.package pkg
  let ss ← q.names.foldlM (csetGenNamePreprocess db go) ss
  let opkg := (ss.name q.name).installedPkg
  let ss ← csetCheckByReverseIif db (csetCheckRemovalByIif db go) ss opkg
  let ss ← q.depends.foldlM (csetGenDep db go (some pkg)) ss
  csetGenPkgFinish db go pkg opkg (recordChange db ss opkg (some pkg))

def csetGenNameChange (ss : SolverState N P) (n : N) : Option (SolverState N P) :=
  if (ss.name n).changesetProcessed then some ss
  else do
    let ss ← csetGenNamePreprocess db go ss n
    match (ss.name n).chosen with
    | none => some ss
    | some p =>
      if (ss.pkg p.pkg).inChangeset then some ss
      else csetGenPkgChange db go (markInChangeset ss p.pkg) p.pkg

/-- the installed packages with a dependency that the package satisfies, once for each -/
def reverseDependencies : List P :=
  ((db.package pkg).names.flatMap fun m => (db.rdepends m).flatMap fun n0 =>
    (db.providers n0).flatMap fun p0 =>
      if (db.package p0.pkg).ipkg = none then []
      else ((db.package p0.pkg).depends.filter fun d0 =>
        decide (apkDepAnalyze db p0.pkg d0 pkg = .satisfies)).map fun _ => p0.pkg)

def csetGenNameRemove (ss : SolverState N P) (pkg : P) : Option (SolverState N P) :=
  let n := (db.package pkg).name
  if (ss.pkg pkg).inChangeset ∨
      (ss.name n).chosen.map (fun p => (db.package p.pkg).name) = some n then some ss
  else do
    let ss := markInChangeset (markRemoved ss n) pkg
    let ss ← (reverseDependencies db pkg).foldlM (fun ss p => go (.nameRemove p) ss) ss
    let ss ← csetCheckByReverseIif db (csetCheckRemovalByIif db go) ss (some pkg)
    let ss := recordChange db ss (some pkg) none
    csetTrackDepsRemoved db go ss pkg

end

/-- the recursion of the changeset functions to a given depth -/
def csetRun : ℕ → CsetCall N P → SolverState N P → Option (SolverState N P)
  | 0, _, _ => none
  | k + 1, .nameChange n, ss => csetGenNameChange db (csetRun k) ss n
  | k + 1, .nameRemove pkg, ss => csetGenNameRemove db (csetRun k) ss pkg

/-- `cset_reset_name` of every name -/
def csetResetNames : SolverState N P :=
  { ss with name := fun n =>
      { ss.name n with installedPkg := none, installedName := none, requirers := 0 } }

def csetMarkInstalled (pkg : P) : SolverState N P :=
  let n := (db.package pkg).name
  let ss := ss.setName n { ss.name n with installedPkg := some pkg, installedName := some n }
  (db.package pkg).provides.foldl (fun ss d =>
    if d.version = none then ss
    else ss.setName d.name { ss.name d.name with installedName := some n }) ss

/-- the requirers of the installed packages -/
def csetInit : SolverState N P :=
  let ss := csetResetNames { ss with changeset := { ss.changeset with changes := [] } }
  let ss := db.installed.foldl (csetMarkInstalled db) ss
  db.installed.foldl (csetTrackDepsAdded db) ss

def csetTotal : SolverState N P :=
  { ss with changeset := { ss.changeset with
    numTotalChanges := ss.changeset.numInstall + ss.changeset.numRemove +
      ss.changeset.numAdjust } }

/-- the fuel bounds the depth of the recursion -/
def generateChangeset : Option (SolverState N P) := do
  let go := csetRun db fuel
  let ss ← db.installed.foldlM (csetCheckRemovalByDeps db go) (csetInit db ss)
  let ss ← world.foldlM (csetGenDep db go none) ss
  let ss ← db.installed.foldlM (fun ss p => go (.nameChange (db.package p).name) ss) ss
  some (csetTotal ss)

/-- the solver state at `restart`; the packages keep the state they have, and the caller's
changeset is not looked at before `generate_changeset` -/
def passStart (pkg : P → PkgState) : SolverState N P :=
  { name := fun _ => NameState.zero
    pkg := pkg
    dirty := []
    unresolved := []
    selectable := []
    resolvenow := []
    errors := 0
    solverFlagsInherit := flags
    pinningInherit := 0
    defaultRepos := apkDbGetPinningMaskRepos db apkDefaultPinningMask
    orderId := 0
    ignoreConflict := hasFlag flags apkSolverfIgnoreConflict
    changeset := ⟨0, 0, 0, 0, []⟩ }

def discoverWorldDep : Option (SolverState N P) :=
  if d.broken then some ss else discoverName db fuel ss d.name

def discoverWorld : Option (SolverState N P) :=
  world.foldlM (discoverWorldDep db fuel) ss

def applyWorldDep : SolverState N P :=
  if d.broken then ss
  else applyConstraint db { ss with pinningInherit := 2 ^ d.repositoryTag % 2 ^ 32 } none d

def applyWorld : SolverState N P :=
  { world.foldl (applyWorldDep db) ss with solverFlagsInherit := 0, pinningInherit := 0 }

/-- a pass up to the end of its main loop -/
def choosePackages (pkg : P → PkgState) (world : List (Dependency N)) : Option (SolverState N P) := do
  let ss ← discoverWorld db fuel (passStart db flags pkg) world
  solveLoop db fuel (applyWorld db ss world)

/-- a pass: from `restart` to the test of its errors -/
def solverPass (pkg : P → PkgState) (cs : Changeset P) (world : List (Dependency N)) :
    Option (SolverState N P) := do
  let ss ← choosePackages db fuel flags pkg world
  generateChangeset db fuel { ss with changeset := cs } world

/-- a world dependency that a failing pass flags -/
def flagDep : Dependency N :=
  if (ss.name d.name).chosen.elim true (fun p => (ss.pkg p.pkg).error) then
    { d with broken := true }
  else d

def flagBroken : List (Dependency N) :=
  world.map (flagDep ss)

def restarts : Bool := decide (ss.errors ≠ 0) && db.forceBrokenWorld

def setLayers : List (Dependency N) :=
  world.map fun d => (ss.name d.name).chosen.elim d fun p =>
    { d with layer := (db.package p.pkg).layer }

/-- what `apk_solver_solve` leaves: the state of its last pass before it is cleared, the world
that pass was run with and the one with the layers set -/
structure SolveResult (N P : Type) where
  last : SolverState N P
  passWorld : List (Dependency N)
  world : List (Dependency N)
  passes : ℕ

/-- the passes from a `restart` on; `tries` bounds their number, `fuel` each of them -/
def solvePasses (fuel flags : ℕ) :
    ℕ → (P → PkgState) → Changeset P → List (Dependency N) → ℕ → Option (SolveResult N P)
  | 0, _, _, _, _ => none
  | tries + 1, pkg, cs, world, passes =>
    match solverPass db fuel flags pkg cs world with
    | none => none
    | some ss =>
      if restarts db ss then
        solvePasses fuel flags tries (fun _ => PkgState.zero) ss.changeset (flagBroken ss world)
          (passes + 1)
      else some ⟨ss, world, setLayers db ss world, passes + 1⟩

/-- `apk_array_qsort` of the world; the order of dependencies on one name is left to `qsort`,
here they keep the one they have -/
def sortWorld : List (Dependency N) :=
  world.insertionSort fun d1 d2 => cmpPkgname db d1 d2 ≤ 0

def apkSolverSolve (tries flags : ℕ) (pkg : P → PkgState) (cs : Changeset P)
    (world : List (Dependency N)) : Option (SolveResult N P) :=
  solvePasses db fuel flags tries pkg cs (sortWorld db world) 0

end

end Alpine

import Alpine.Spec.Dep

/-! The dependency solver (`solver.c`): the state of a pass and the part that chooses a package
for each name. The C code keeps its state in the names and packages; here it is one record that
every function takes and returns. A name is in a list when it is an element of it. -/

namespace Alpine

def apkSolverfUpgrade : ℕ := 0x1
def apkSolverfAvailable : ℕ := 0x2
def apkSolverfReinstall : ℕ := 0x4
def apkSolverfLatest : ℕ := 0x8
def apkSolverfIgnoreConflict : ℕ := 0x10
def apkSolverfInstalled : ℕ := 0x20
def apkSolverfRemove : ℕ := 0x40

def apkDefaultPinningMask : ℕ := 1

/-- `struct apk_solver_name_state`; `chosen` is `none` for a provider without package -/
structure NameState (N P : Type) where
  chosen : Option (Provider P)
  installedName : Option N
  installedPkg : Option P
  orderId : ℤ
  requirers : ℕ
  mergeDepends : ℕ
  mergeProvides : ℕ
  seen : Bool
  locked : Bool
  changesetProcessed : Bool
  changesetRemoved : Bool
  reevaluateDeps : Bool
  reevaluateIif : Bool
  hasIif : Bool
  noIif : Bool
  hasOptions : Bool
  reverseDepsDone : Bool
  hasVirtualProvides : Bool
  hasAutoSelectable : Bool
  iifNeeded : Bool
  resolvenow : Bool
deriving DecidableEq

/-- `struct apk_solver_package_state` -/
structure PkgState where
  conflicts : ℕ
  pinningAllowed : ℕ
  pinningPreferred : ℕ
  solverFlags : ℕ
  solverFlagsInheritable : ℕ
  seen : Bool
  pkgAvailable : Bool
  pkgSelectable : Bool
  tagOk : Bool
  tagPreferred : Bool
  dependenciesUsed : Bool
  dependenciesMerged : Bool
  inChangeset : Bool
  iifTriggered : Bool
  iifFailed : Bool
  error : Bool
deriving DecidableEq

/-- the state after `memset` -/
def NameState.zero {N P : Type} : NameState N P :=
  ⟨none, none, none, 0, 0, 0, 0, false, false, false, false, false, false, false, false, false,
    false, false, false, false, false⟩

def PkgState.zero : PkgState :=
  ⟨0, 0, 0, 0, 0, false, false, false, false, false, false, false, false, false, false, false⟩

structure Change (P : Type) where
  oldPkg : Option P
  newPkg : Option P
  oldRepositoryTag : ℕ
  newRepositoryTag : ℕ
  reinstall : Bool
deriving DecidableEq

structure Changeset (P : Type) where
  numInstall : ℕ
  numRemove : ℕ
  numAdjust : ℕ
  numTotalChanges : ℕ
  changes : List (Change P)
deriving DecidableEq

/-- `struct apk_solver_state`, with the `ss` of every name and package -/
structure SolverState (N P : Type) where
  name : N → NameState N P
  pkg : P → PkgState
  dirty : List N
  unresolved : List N
  selectable : List N
  resolvenow : List N
  errors : ℕ
  solverFlagsInherit : ℕ
  pinningInherit : ℕ
  defaultRepos : ℕ
  orderId : ℕ
  ignoreConflict : Bool
  changeset : Changeset P

section

variable {N P : Type} [DecidableEq N] [DecidableEq P] (db : Database N P)

variable (ss : SolverState N P) (n : N) (pkg : P) (numOptions : ℕ) (p : Provider P) (ppkg : Option P)

def SolverState.setName (s : NameState N P) : SolverState N P :=
  { ss with name := Function.update ss.name n s }

def SolverState.setPkg (p : P) (s : PkgState) : SolverState N P :=
  { ss with pkg := Function.update ss.pkg p s }

/-- `apk_solver_set_name_flags`, of the flags of every package -/
def apkSolverSetNameFlags (pkg : P → PkgState) (n : N) (flags inheritable : ℕ) : P → PkgState :=
  (db.providers n).foldl (fun pkg p => Function.update pkg p.pkg
    { pkg p.pkg with
      solverFlags := (pkg p.pkg).solverFlags ||| flags
      solverFlagsInheritable := (pkg p.pkg).solverFlagsInheritable ||| inheritable }) pkg

def markError : Option P → SolverState N P
  | none => ss
  | some pkg =>
    if (ss.pkg pkg).error then ss
    else { ss.setPkg pkg { ss.pkg pkg with error := true } with errors := (ss.errors + 1) % 2 ^ 32 }

def queueDirty : SolverState N P :=
  if n ∈ ss.dirty ∨ (ss.name n).locked ∨
      ((ss.name n).requirers = 0 ∧ !(ss.name n).reevaluateIif) then ss
  else { ss with dirty := ss.dirty ++ [n] }

def queueResolvenow (s : NameState N P) : Bool :=
  s.reverseDepsDone && decide (s.requirers ≠ 0) && s.hasAutoSelectable && !s.hasOptions

/-- `list_hashed` of the unresolved list -/
def SolverState.hashed : Bool :=
  decide (n ∈ ss.resolvenow ∨ n ∈ ss.selectable ∨ n ∈ ss.unresolved)

def SolverState.unqueue : SolverState N P :=
  { ss with
    resolvenow := ss.resolvenow.erase n
    selectable := ss.selectable.erase n
    unresolved := ss.unresolved.erase n }

/-- before the first name with an order id that is not higher -/
def queueInsert (order : N → ℤ) (n : N) : List N → List N
  | [] => [n]
  | n0 :: ns => if order n < order n0 then n0 :: queueInsert order n ns else n :: n0 :: ns

def enqueue : SolverState N P :=
  if (ss.name n).resolvenow then { ss with resolvenow := ss.resolvenow ++ [n] }
  else if (ss.name n).hasAutoSelectable then
    { ss with selectable := queueInsert (fun m => (ss.name m).orderId) n ss.selectable }
  else { ss with unresolved := queueInsert (fun m => (ss.name m).orderId) n ss.unresolved }

def queueUnresolved (reevaluate : Bool) : SolverState N P :=
  if (ss.name n).locked then ss
  else if ss.hashed n then
    if (ss.name n).resolvenow then ss
    else if queueResolvenow (ss.name n) then
      enqueue ((ss.setName n { ss.name n with resolvenow := true }).unqueue n) n
    else if !reevaluate then ss
    else enqueue (ss.unqueue n) n
  else if (ss.name n).requirers = 0 ∧ !(ss.name n).hasIif ∧ !(ss.name n).iifNeeded then ss
  else enqueue (ss.setName n { ss.name n with resolvenow := queueResolvenow (ss.name n) }) n

def reevaluateReverseDeps : SolverState N P :=
  (db.rdepends n).foldl (fun ss n0 =>
    if !(ss.name n0).seen then ss
    else queueDirty (ss.setName n0 { ss.name n0 with reevaluateDeps := true }) n0) ss

def reevaluateReverseInstallif : SolverState N P :=
  (db.rinstallIf n).foldl (fun ss n0 =>
    if !(ss.name n0).seen then ss
    else if (ss.name n0).noIif then ss
    else queueDirty (ss.setName n0 { ss.name n0 with reevaluateIif := true }) n0) ss

def reevaluateReverseInstallifPkg : SolverState N P :=
  (db.package pkg).provides.foldl (fun ss d => reevaluateReverseInstallif db ss d.name)
    (reevaluateReverseInstallif db ss (db.package pkg).name)

def disqualifyPackage : SolverState N P :=
  let ss := ss.setPkg pkg { ss.pkg pkg with pkgSelectable := false }
  let ss := reevaluateReverseDeps db ss (db.package pkg).name
  let ss := (db.package pkg).provides.foldl (fun ss d => reevaluateReverseDeps db ss d.name) ss
  reevaluateReverseInstallifPkg db ss pkg

def dependencySatisfiable (dpkg : P) (dep : Dependency N) : Bool :=
  if apkDepConflict dep ∧ ss.ignoreConflict then true
  else if (ss.name dep.name).locked then
    apkDepIsProvided db (some dpkg) dep (ss.name dep.name).chosen
  else if (ss.name dep.name).requirers = 0 ∧ apkDepIsProvided db (some dpkg) dep none then true
  else (db.providers dep.name).any fun p =>
    (ss.pkg p.pkg).pkgSelectable && apkDepIsProvided db (some dpkg) dep (some p)

/-- the package part of `discover_name`, for a package not seen before -/
def discoverPkg : PkgState :=
  let q := db.package pkg
  let available := decide (q.filenameNdx ≠ 0) || apkDbPkgAvailable db pkg
  let tagPreferred := decide (q.filenameNdx ≠ 0 ∨ q.installedSize = 0 ∨
    getPkgRepos db pkg &&& ss.defaultRepos ≠ 0)
  { ss.pkg pkg with
    seen := true
    pinningAllowed := apkDefaultPinningMask
    pinningPreferred := apkDefaultPinningMask
    pkgAvailable := available
    pkgSelectable := !q.uninstallable && db.activeLayers.testBit q.layer &&
      (available || q.cached || decide (q.filenameNdx ≠ 0) || q.cachedNonRepository ||
        decide (q.installedSize = 0) || q.ipkg.isSome)
    iifFailed := q.installIf.isEmpty ||
      (decide (ss.solverFlagsInherit &&& apkSolverfAvailable ≠ 0) && !available)
    tagPreferred := tagPreferred
    tagOk := tagPreferred || q.cachedNonRepository || q.ipkg.isSome }

/-- `order_flags` of `discover_name` -/
def orderFlags : ℕ :=
  (if db.solverFlagsSet n then 0 else 2 ^ 31) |||
    (if (db.providers n).all (fun p => decide ((db.package p.pkg).name ≠ n)) then 0 else 2 ^ 30)

/-- the next order id -/
def orderName : SolverState N P :=
  let id := (ss.orderId + 1) % 2 ^ 32
  { ss.setName n { ss.name n with orderId := toInt32 ↑(orderFlags db n ||| id) } with
    orderId := id }

section

-- the recursive call of `discover_name`
variable (go : SolverState N P → N → Option (SolverState N P))

/-- the dependencies of a package not seen before -/
def discoverDepends (ss : SolverState N P) (pkg : P) : Option (SolverState N P) :=
  if (ss.pkg pkg).seen then some ss
  else (db.package pkg).depends.foldlM (fun ss d => go ss d.name) (ss.setPkg pkg (discoverPkg db ss pkg))

/-- the first loop of `discover_name` -/
def discoverProvider (n : N) (ss : SolverState N P) (p : Provider P) : Option (SolverState N P) :=
  (discoverDepends db go ss p.pkg).map fun ss =>
    ss.setName n { ss.name n with noIif := (ss.name n).noIif && (ss.pkg p.pkg).iifFailed }

/-- the second loop -/
def discoverProvides (ss : SolverState N P) (p : Provider P) : Option (SolverState N P) := do
  let ss ← (db.rinstallIf (db.package p.pkg).name).foldlM go ss
  (db.package p.pkg).provides.foldlM (fun ss d => go ss d.name) ss

/-- the third loop -/
def discoverInstallIf (ss : SolverState N P) (p : Provider P) : Option (SolverState N P) :=
  (db.package p.pkg).installIf.foldlM (fun ss d => go ss d.name) ss

end

/-- the fuel bounds the depth of the recursion -/
def discoverName : ℕ → SolverState N P → N → Option (SolverState N P)
  | 0, _, _ => none
  | k + 1, ss, n =>
    if (ss.name n).seen then some ss
    else do
      let ss := ss.setName n { ss.name n with seen := true, noIif := true }
      let ss ← (db.providers n).foldlM (discoverProvider db (discoverName k) n) ss
      let ss ← (db.rinstallIf n).foldlM (discoverName k) ss
      let ss ← (db.providers n).foldlM (discoverProvides db (discoverName k)) ss
      (db.providers n).foldlM (discoverInstallIf db (discoverName k)) (orderName db ss n)

def nameRequirersChanged : SolverState N P :=
  queueDirty (reevaluateReverseInstallif db (queueUnresolved ss n false) n) n

def inheritPinningAndFlags : SolverState N P :=
  let s := ss.pkg pkg
  let s := match ppkg with
    | some q =>
      { s with
        solverFlags := s.solverFlags ||| (ss.pkg q).solverFlagsInheritable
        solverFlagsInheritable := s.solverFlagsInheritable ||| (ss.pkg q).solverFlagsInheritable
        pinningAllowed := s.pinningAllowed ||| (ss.pkg q).pinningAllowed }
    | none =>
      { s with
        solverFlags := s.solverFlags ||| ss.solverFlagsInherit
        solverFlagsInheritable := s.solverFlagsInheritable ||| ss.solverFlagsInherit
        pinningAllowed := s.pinningAllowed ||| ss.pinningInherit % 2 ^ 16
        pinningPreferred := ss.pinningInherit % 2 ^ 16
        tagPreferred := decide (getPkgRepos db pkg &&&
          apkDbGetPinningMaskRepos db (ss.pinningInherit % 2 ^ 16) ≠ 0) }
  ss.setPkg pkg { s with
    tagOk := s.tagOk ||
      decide (getPkgRepos db pkg &&& apkDbGetPinningMaskRepos db s.pinningAllowed ≠ 0) }

/-- a provider that does not satisfy a constraint has one conflict more -/
def countConflict : SolverState N P :=
  ss.setPkg pkg { ss.pkg pkg with conflicts := ((ss.pkg pkg).conflicts + 1) % 2 ^ 32 }

def disqualifyConflicting : SolverState N P :=
  if (ss.pkg pkg).pkgSelectable ∧ (ss.pkg pkg).conflicts ≠ 0 then disqualifyPackage db ss pkg
  else ss

/-- the loop body of `apply_constraint` -/
def constrainProvider (dep : Dependency N) (ss : SolverState N P) (p0 : Provider P) : SolverState N P :=
  if apkDepIsProvided db ppkg dep (some p0) then
    inheritPinningAndFlags db (disqualifyConflicting db ss p0.pkg) p0.pkg ppkg
  else disqualifyConflicting db (countConflict ss p0.pkg) p0.pkg

/-- `name->ss.requirers++` of an `unsigned short` -/
def addRequirer : SolverState N P :=
  ss.setName n { ss.name n with requirers := ((ss.name n).requirers + 1) % 2 ^ 16 }

/-- a requirer more, and what follows if it is the first one -/
def requireName : SolverState N P :=
  let ss := addRequirer ss n
  if (ss.name n).requirers = 1 then nameRequirersChanged db ss n else ss

def applyConstraint (dep : Dependency N) : SolverState N P :=
  if apkDepConflict dep ∧ ss.ignoreConflict then ss
  else
    let ss := if apkDepConflict dep then ss else requireName db ss dep.name
    (db.providers dep.name).foldl (constrainProvider db ppkg dep) ss

def excludeNonProviders (mustProvide : N) (skipVirtuals : Bool) : SolverState N P :=
  if n = mustProvide ∨ ss.ignoreConflict then ss
  else (db.providers n).foldl (fun ss p =>
    if (db.package p.pkg).name = mustProvide ∨ !(ss.pkg p.pkg).pkgSelectable ∨
        (skipVirtuals ∧ p.version = none) then ss
    else if (db.package p.pkg).provides.any (fun d =>
        decide (d.name = mustProvide ∨ (skipVirtuals ∧ d.version = none))) then ss
    else disqualifyPackage db ss p.pkg) ss

/-- the names whose `merge_provides` a package moves, with the version that is looked at -/
def mergeProvidesOf : List (N × Option Bytes) :=
  ((db.package p.pkg).name, p.version) :: (db.package p.pkg).provides.map fun d => (d.name, d.version)

/-- `merge_index` of the dependencies -/
def mergeDepends (numOptions : ℕ) (ss : SolverState N P) (d : Dependency N) : SolverState N P :=
  if apkDepConflict d then ss
  else if (ss.name d.name).mergeDepends ≠ numOptions then ss
  else ss.setName d.name { ss.name d.name with mergeDepends := (numOptions + 1) % 2 ^ 16 }

def mergeProvides (numOptions : ℕ) (ss : SolverState N P) (d : N × Option Bytes) : SolverState N P :=
  if (ss.name d.1).mergeProvides ≠ numOptions then ss
  else ss.setName d.1 { ss.name d.1 with
    mergeProvides := (numOptions + 1) % 2 ^ 16
    hasVirtualProvides := (ss.name d.1).hasVirtualProvides || d.2.isNone }

def isProviderAutoSelectable : Bool :=
  p.version.isSome || decide ((db.package p.pkg).providerPriority ≠ 0) ||
    decide ((ss.name (db.package p.pkg).name).requirers ≠ 0)

/-- the loop over `install_if`, with `iif_triggered` set and `iif_failed` clear before it -/
def evaluateIif (ss : SolverState N P) (pkg : P) : List (Dependency N) → SolverState N P
  | [] => ss.setPkg pkg { ss.pkg pkg with iifTriggered := true, iifFailed := false }
  | dep :: deps =>
    if !(ss.name dep.name).locked then
      let ss := if apkDepConflict dep then
        queueUnresolved (ss.setName dep.name { ss.name dep.name with iifNeeded := true }) dep.name false
        else ss
      ss.setPkg pkg { ss.pkg pkg with iifTriggered := false, iifFailed := false }
    else if !apkDepIsProvided db (some pkg) dep (ss.name dep.name).chosen then
      ss.setPkg pkg { ss.pkg pkg with iifTriggered := false, iifFailed := true }
    else evaluateIif ss pkg deps

/-- the local variables of `reconsider_name` -/
structure Reconsider (P : Type) where
  firstCandidate : Option P
  numOptions : ℕ
  numTagNotOk : ℕ
  hasIif : Bool
  noIif : Bool
  hasAutoSelectable : Bool

/-- a selectable package whose dependencies have become unsatisfiable -/
def checkDepends : SolverState N P :=
  if (ss.pkg pkg).pkgSelectable ∧
      !(db.package pkg).depends.all (dependencySatisfiable db ss pkg) then
    disqualifyPackage db ss pkg
  else ss

def checkIif : SolverState N P :=
  let ss := if !(ss.pkg pkg).iifTriggered ∧ !(ss.pkg pkg).iifFailed then
    evaluateIif db ss pkg (db.package pkg).installIf else ss
  if (ss.pkg pkg).iifTriggered then
    (db.package pkg).installIf.foldl (fun ss dep =>
      inheritPinningAndFlags db ss pkg ((ss.name dep.name).chosen.map (·.pkg))) ss
  else ss

/-- the tests of a provider that come before the merging -/
def reconsiderCheck (reevaluateDeps reevaluateIif : Bool) (ss : SolverState N P) (pkg : P) :
    SolverState N P :=
  let ss := ss.setPkg pkg { ss.pkg pkg with dependenciesMerged := false }
  let ss := if reevaluateDeps then checkDepends db ss pkg else ss
  if (ss.pkg pkg).pkgSelectable ∧ reevaluateIif then checkIif db ss pkg else ss

/-- the merging of a provider's dependencies and provides -/
def reconsiderMerge : SolverState N P :=
  let ss := ss.setPkg p.pkg { ss.pkg p.pkg with dependenciesMerged := true }
  let ss := (db.package p.pkg).depends.foldl (mergeDepends numOptions) ss
  (mergeProvidesOf db p).foldl (mergeProvides numOptions) ss

/-- the body of the provider loop of `reconsider_name` -/
def reconsiderProvider (reevaluateDeps reevaluateIif : Bool) (st : SolverState N P × Reconsider P)
    (p : Provider P) : SolverState N P × Reconsider P :=
  let ss := reconsiderCheck db reevaluateDeps reevaluateIif st.1 p.pkg
  let s := ss.pkg p.pkg
  if !s.pkgSelectable then (ss, st.2)
  else
    let l := { st.2 with
      hasIif := st.2.hasIif || s.iifTriggered
      noIif := st.2.noIif && s.iifFailed
      hasAutoSelectable := st.2.hasAutoSelectable || s.iifTriggered }
    if (ss.name n).requirers = 0 then (ss, l)
    else
      let ss := reconsiderMerge db ss l.numOptions p
      (ss, { l with
        firstCandidate := l.firstCandidate.or (some p.pkg)
        numTagNotOk := l.numTagNotOk + (if s.tagOk then 0 else 1)
        numOptions := l.numOptions + 1
        hasAutoSelectable := l.hasAutoSelectable || isProviderAutoSelectable db ss p })

/-- a dependency of the only candidate -/
def propagateOnly (ss : SolverState N P) (dep : Dependency N) : SolverState N P :=
  let complete := decide ((ss.name dep.name).mergeDepends = 1)
  let ss := ss.setName dep.name { ss.name dep.name with mergeDepends := 0 }
  if complete then applyConstraint db ss (some pkg) dep else ss

/-- a dependency of the first of several candidates -/
def propagateCommon (ss : SolverState N P) (dep : Dependency N) : SolverState N P :=
  let complete := decide ((ss.name dep.name).mergeDepends = numOptions)
  let ss := ss.setName dep.name { ss.name dep.name with mergeDepends := 0 }
  if complete ∧ (ss.name dep.name).requirers = 0 then
    let ss := nameRequirersChanged db (addRequirer ss dep.name) dep.name
    (db.providers dep.name).foldl (fun ss p => inheritPinningAndFlags db ss p.pkg (some pkg)) ss
  else ss

/-- the names that a package has or provides -/
def Database.namesOf : List N := (db.package pkg).names

def propagateProvides (ss : SolverState N P) (m : N) : SolverState N P :=
  let complete := decide ((ss.name m).mergeProvides = numOptions)
  let ss := ss.setName m { ss.name m with mergeProvides := 0 }
  if complete then excludeNonProviders db ss m n (ss.name m).hasVirtualProvides else ss

/-- what `reconsider_name` does with its first candidate -/
def propagateDown : SolverState N P :=
  let ss := (db.providers n).foldl (fun ss p => ss.setPkg p.pkg
    { ss.pkg p.pkg with dependenciesUsed := (ss.pkg p.pkg).dependenciesMerged }) ss
  let ss := if numOptions = 1 then (db.package pkg).depends.foldl (propagateOnly db pkg) ss
    else (db.package pkg).depends.foldl (propagateCommon db pkg numOptions) ss
  let ss := (db.namesOf pkg).foldl (propagateProvides db n numOptions) ss
  (db.namesOf pkg).foldl (fun ss m =>
    ss.setName m { ss.name m with hasVirtualProvides := false }) ss

def reconsiderName : SolverState N P :=
  let reevaluateDeps := (ss.name n).reevaluateDeps
  let reevaluateIif := (ss.name n).reevaluateIif
  let ss := ss.setName n { ss.name n with reevaluateDeps := false, reevaluateIif := false }
  let st := (db.providers n).foldl (reconsiderProvider db n reevaluateDeps reevaluateIif)
    (ss, ⟨none, 0, 0, false, true, false⟩)
  let ss := st.1
  let l := st.2
  let reevaluate := l.hasAutoSelectable != (ss.name n).hasAutoSelectable
  let ss := ss.setName n { ss.name n with
    hasOptions := decide (l.numOptions > 1 ∨ l.numTagNotOk > 0)
    hasIif := l.hasIif
    noIif := l.noIif
    hasAutoSelectable := l.hasAutoSelectable }
  let ss := match l.firstCandidate with
    | some pkg => propagateDown db ss n pkg l.numOptions
    | none => ss
  let ss := ss.setName n { ss.name n with
    reverseDepsDone := (db.rdepends n).all fun n0 => !(ss.name n0).seen || (ss.name n0).locked }
  queueUnresolved ss n reevaluate

def boolDiff (a b : Bool) : ℤ := (if a then 1 else 0) - (if b then 1 else 0)

/-- `ffs` of a repository mask -/
def ffs (mask : ℕ) : ℤ :=
  ((List.range 32).find? (fun i => mask.testBit i)).elim 0 fun i => (i : ℤ) + 1

/-- `if (r) return r;`, then the rest -/
def firstNonzero : List ℤ → ℤ
  | [] => 0
  | r :: rs => if r ≠ 0 then r else firstNonzero rs

/-- the result of a version comparison as the `switch` returns it -/
def versionDiff (a b : Option Bytes) : ℤ :=
  if apkVersionCompare (atomBlob a) (atomBlob b) = apkVersionLess then -1
  else if apkVersionCompare (atomBlob a) (atomBlob b) = apkVersionGreater then 1
  else 0

def hasFlag (flags flag : ℕ) : Bool := decide (flags &&& flag ≠ 0)

/-- the tests of `compare_providers` when the latest version is required -/
def compareLatest (a b : PkgState) (flags : ℕ) : List ℤ :=
  [boolDiff a.tagOk b.tagOk,
   if hasFlag flags apkSolverfAvailable then boolDiff a.pkgAvailable b.pkgAvailable
   else if hasFlag flags apkSolverfReinstall then boolDiff a.pkgSelectable b.pkgSelectable
   else 0]

/-- the tests of `compare_providers` otherwise -/
def compareRegular (pA pB : Provider P) (flags : ℕ) : List ℤ :=
  let a := ss.pkg pA.pkg
  let b := ss.pkg pB.pkg
  let qA := db.package pA.pkg
  let qB := db.package pB.pkg
  [boolDiff a.pkgSelectable b.pkgSelectable, boolDiff a.dependenciesUsed b.dependenciesUsed,
   toInt32 ((b.conflicts : ℤ) - a.conflicts),
   if (db.performingPreupgrade ∧ !hasFlag flags apkSolverfUpgrade) ∨
     hasFlag flags apkSolverfInstalled then boolDiff qA.ipkg.isSome qB.ipkg.isSome else 0,
   boolDiff a.tagOk b.tagOk,
   if hasFlag flags apkSolverfAvailable then boolDiff a.pkgAvailable b.pkgAvailable else 0,
   boolDiff a.tagPreferred b.tagPreferred,
   if !hasFlag flags (apkSolverfRemove ||| apkSolverfUpgrade) ∧
     (qA.name = qB.name ∨ pA.version ≠ none ∨ pB.version ≠ none) then
     boolDiff qA.ipkg.isSome qB.ipkg.isSome else 0]

/-- the tests that both ways end with -/
def compareLast (pA pB : Provider P) (flags : ℕ) : List ℤ :=
  let qA := db.package pA.pkg
  let qB := db.package pB.pkg
  [versionDiff pA.version pB.version,
   if qA.name = qB.name then versionDiff qA.version qB.version else 0,
   (qA.providerPriority : ℤ) - qB.providerPriority,
   if !hasFlag flags apkSolverfRemove then boolDiff qA.ipkg.isSome qB.ipkg.isSome else 0,
   boolDiff (ss.pkg pA.pkg).pkgSelectable (ss.pkg pB.pkg).pkgSelectable,
   ffs qB.repos - ffs qA.repos]

def compareProviders : Option (Provider P) → Option (Provider P) → ℤ
  | some pA, some pB =>
    let a := ss.pkg pA.pkg
    let b := ss.pkg pB.pkg
    let flags := a.solverFlags ||| b.solverFlags
    firstNonzero ((if hasFlag flags apkSolverfLatest ∧ a.pinningAllowed = apkDefaultPinningMask ∧
        b.pinningAllowed = apkDefaultPinningMask then compareLatest a b flags
      else compareRegular db ss pA pB flags) ++ compareLast db ss pA pB flags)
  | pA, pB => boolDiff pA.isSome pB.isSome

/-- a package chosen through `install_if` requires what triggers it -/
def requireIif (ss : SolverState N P) (dep : Dependency N) : SolverState N P :=
  if (ss.name dep.name).locked then ss else applyConstraint db ss (some pkg) dep

/-- the other providers of a name, of which only those without version may stay -/
def disqualifyOther (p : Option (Provider P)) (ss : SolverState N P) (p0 : Provider P) :
    SolverState N P :=
  if p.map (·.pkg) = some p0.pkg then ss
  else if p.bind (·.version) = none ∧ p0.version = none then ss
  else disqualifyPackage db ss p0.pkg

/-- a second provider for a locked name -/
def assignLocked (p : Option (Provider P)) : SolverState N P :=
  if p.bind (·.version) = none ∧ (ss.name n).chosen.bind (·.version) = none then ss
  else if ss.ignoreConflict then ss
  else markError (markError ss (p.map (·.pkg))) ((ss.name n).chosen.map (·.pkg))

def lockName (p : Option (Provider P)) : SolverState N P :=
  let ss := (ss.setName n { ss.name n with locked := true, chosen := p }).unqueue n
  { ss with dirty := ss.dirty.erase n }

/-- what a name requires that is chosen through `install_if` only -/
def assignIif (ss : SolverState N P) : Option (Provider P) → SolverState N P
  | some q =>
    if (ss.name n).requirers = 0 ∧ (ss.pkg q.pkg).iifTriggered then
      (db.package q.pkg).installIf.foldl (requireIif db q.pkg) ss
    else ss
  | none => ss

def reevaluateAssigned (ss : SolverState N P) : Option (Provider P) → SolverState N P
  | some q => reevaluateReverseInstallifPkg db ss q.pkg
  | none => reevaluateReverseInstallif db ss n

def assignName (p : Option (Provider P)) : SolverState N P :=
  if (ss.name n).locked then assignLocked ss n p
  else
    let ss := assignIif db n (lockName ss n p) p
    let ss := if ss.ignoreConflict then ss else (db.providers n).foldl (disqualifyOther db p) ss
    reevaluateAssigned db n (reevaluateReverseDeps db ss n) p

/-- the providers that `select_package` compares -/
def considered : Bool :=
  (decide ((ss.name n).requirers ≠ 0) ||
    ((ss.pkg p.pkg).iifTriggered && (ss.pkg p.pkg).tagOk && (ss.pkg p.pkg).pkgSelectable)) &&
  isProviderAutoSelectable db ss p

/-- the loop of `select_package` over some providers -/
def chooseFrom (ps : List (Provider P)) : Option (Provider P) :=
  ps.foldl (fun chosen p =>
    if !considered db ss n p then chosen
    else if compareProviders db ss (some p) chosen > 0 then some p
    else chosen) none

/-- the provider that `select_package` chooses when `ps` is `name->providers` -/
def chooseProvider (ps : List (Provider P)) : Option (Provider P) :=
  if (ss.name n).requirers ≠ 0 ∨ (ss.name n).hasIif then chooseFrom db ss n ps else none

def selectPackage : SolverState N P :=
  match chooseProvider db ss n (db.providers n) with
  | some p =>
    let q := db.package p.pkg
    let ss := if !(ss.pkg p.pkg).pkgSelectable ∨ !(ss.pkg p.pkg).tagOk then
      markError ss (some p.pkg) else ss
    let ss := assignName db ss q.name (some ⟨p.pkg, q.version⟩)
    let ss := q.provides.foldl (fun ss d => assignName db ss d.name (some ⟨p.pkg, d.version⟩)) ss
    q.depends.foldl (fun ss d => applyConstraint db ss (some p.pkg) d) ss
  | none =>
    let ss := assignName db ss n none
    if (ss.name n).requirers > 0 then { ss with errors := (ss.errors + 1) % 2 ^ 32 } else ss

def dequeueNextName : Option (N × SolverState N P) :=
  match ss.resolvenow with
  | n :: ns => some (n, { ss with resolvenow := ns })
  | [] =>
    match ss.selectable with
    | n :: ns => some (n, { ss with selectable := ns })
    | [] =>
      match ss.unresolved with
      | n :: ns => some (n, { ss with unresolved := ns })
      | [] => none

/-- one round of the main loop; `none` when it is over -/
def solveStep : Option (SolverState N P) :=
  match ss.dirty with
  | n :: ns => some (reconsiderName db { ss with dirty := ns } n)
  | [] => (dequeueNextName ss).map fun r => selectPackage db r.2 r.1

/-- the main loop of `apk_solver_solve`, for a number of rounds -/
def solveLoop : ℕ → SolverState N P → Option (SolverState N P)
  | 0, _ => none
  | k + 1, ss =>
    match solveStep db ss with
    | some ss' => solveLoop k ss'
    | none => some ss

end

end Alpine

import Alpine.Spec.Version

/-! Packages, dependencies and providers (`package.c`, `apk_database.h`), with the fields that
the solver reads. Names and packages are the elements of two types; a version is an atom, and
`none` is `apk_atom_null`, whose blob is empty but not NULL. -/

namespace Alpine

structure Dependency (N : Type) where
  name : N
  version : Option Bytes
  op : ℕ
  broken : Bool
  repositoryTag : ℕ
  layer : ℕ
deriving DecidableEq

/-- `struct apk_provider`, with a package -/
structure Provider (P : Type) where
  pkg : P
  version : Option Bytes
deriving DecidableEq

/-- `struct apk_package`; `ipkg` holds the repository tag of an installed package -/
structure Package (N : Type) where
  name : N
  version : Option Bytes
  depends : List (Dependency N)
  installIf : List (Dependency N)
  provides : List (Dependency N)
  ipkg : Option ℕ
  installedSize : ℕ
  repos : ℕ
  providerPriority : ℕ
  filenameNdx : ℕ
  uninstallable : Bool
  cachedNonRepository : Bool
  cached : Bool
  layer : ℕ
  hash : Bytes
deriving DecidableEq

/-- the name under which `apk_db_pkg_add` enters a package, and those it provides -/
def Package.names {N : Type} (p : Package N) : List N := p.name :: p.provides.map (·.name)

-- the numerals of small databases name these and no proof of their own
instance neZeroTwo : NeZero 2 := ⟨two_ne_zero⟩

instance neZeroThree : NeZero 3 := ⟨three_ne_zero⟩

/-- `struct apk_database`, the part that the solver reads. The arrays of a name are those that
`apk_db_pkg_add` and `apk_db_pkg_rdepends` fill from the packages, in any order. -/
structure Database (N P : Type) where
  package : P → Package N
  display : N → Bytes
  providers : N → List (Provider P)
  rdepends : N → List N
  rinstallIf : N → List N
  solverFlagsSet : N → Bool
  installed : List P
  /-- `allowed_repos` of each repository tag -/
  repoTags : List ℕ
  availableRepos : ℕ
  activeLayers : ℕ
  performingPreupgrade : Bool
  forceBrokenWorld : Bool
  /-- what a digest holds after `apk_blob_pull_digest` of a text that does not decode -/
  undecodedDigest : Option Bytes → Bytes
  provider_own : ∀ p, ⟨p, (package p).version⟩ ∈ providers (package p).name
  provider_from : ∀ n, ∀ q ∈ providers n,
    (n = (package q.pkg).name ∧ q.version = (package q.pkg).version) ∨
      ∃ d ∈ (package q.pkg).provides, n = d.name ∧ q.version = d.version

/-- the blob of a version -/
def atomBlob (version : Option Bytes) : Option Bytes := some (version.getD [])

def apkDepConflict {N : Type} (dep : Dependency N) : Bool :=
  decide (dep.op &&& apkVersionConflict ≠ 0)

section

variable {N P : Type} [DecidableEq N] [DecidableEq P] (db : Database N P)

def apkDepMatchChecksum (dep : Dependency N) (pkg : P) : Bool :=
  let digest := (dep.version.bind apkBlobPullDigest).elim (db.undecodedDigest dep.version) (·.2.1)
  decide (apkBlobCompare digest (db.package pkg).hash = 0)

/-- `deppkg` is `none` for a dependency of the world, the provider is `none` without a package -/
def apkDepIsProvided (deppkg : Option P) (dep : Dependency N) : Option (Provider P) → Bool
  | none => apkDepConflict dep
  | some p =>
    if apkDepConflict dep ∧ deppkg = some p.pkg then true
    else if dep.op = apkDepmaskChecksum then apkDepMatchChecksum db dep p.pkg
    else apkVersionMatch (atomBlob p.version) dep.op (atomBlob dep.version)

def apkDepIsMaterialized (dep : Dependency N) (pkg : P) : Bool :=
  if dep.name ≠ (db.package pkg).name then apkDepConflict dep
  else if dep.op = apkDepmaskChecksum then apkDepMatchChecksum db dep pkg
  else apkVersionMatch (atomBlob (db.package pkg).version) dep.op (atomBlob dep.version)

inductive DepAnalysis
  | irrelevant
  | satisfies
  | conflicts
deriving DecidableEq

def apkDepAnalyze (deppkg : P) (dep : Dependency N) (pkg : P) : DepAnalysis :=
  if dep.name = (db.package pkg).name then
    if apkDepIsMaterialized db dep pkg then .satisfies else .conflicts
  else
    match (db.package pkg).provides.find? (fun p => decide (p.name = dep.name)) with
    | none => .irrelevant
    | some p =>
      if apkDepIsProvided db (some deppkg) dep (some ⟨pkg, p.version⟩) then .satisfies
      else .conflicts

def apkDbPkgAvailable (pkg : P) : Bool :=
  decide ((db.package pkg).repos &&& db.availableRepos ≠ 0)

/-- `apk_db_get_pinning_mask_repos`: the repositories that the tags of the mask allow -/
def apkDbGetPinningMaskRepos (pinningMask : ℕ) : ℕ :=
  db.repoTags.zipIdx.foldl (fun mask t => if pinningMask.testBit t.2 then mask ||| t.1 else mask) 0

/-- the first tag of the mask that allows one of the repositories, or the default tag -/
def getTag (pinningMask repos : ℕ) : ℕ :=
  (db.repoTags.zipIdx.find? (fun t =>
    pinningMask.testBit t.2 && decide (t.1 &&& repos ≠ 0))).elim 0 (·.2)

def getPkgRepos (pkg : P) : ℕ :=
  (db.package pkg).repos ||| ((db.package pkg).ipkg.elim 0 fun tag => db.repoTags.getD tag 0)

end

/-- a dependency on a name alone -/
def unversioned {N : Type} (n : N) : Dependency N := ⟨n, none, apkDepmaskAny, false, 0, 0⟩

/-- a package of the first repository -/
def plainPackage {N : Type} (n : N) (version : Option Bytes)
    (depends installIf provides : List (Dependency N)) (priority : ℕ) : Package N :=
  { name := n
    version := version
    depends := depends
    installIf := installIf
    provides := provides
    ipkg := none
    installedSize := 1
    repos := 1
    providerPriority := priority
    filenameNdx := 0
    uninstallable := false
    cachedNonRepository := false
    cached := false
    layer := 0
    hash := [] }

def versionOf (c : Char) : Option Bytes := some (ascs [c])

def toLower (c : UInt8) : UInt8 := if asc 'A' ≤ c ∧ c ≤ asc 'Z' then c + 32 else c

/-- `strcmp`, where the end of a list is the terminating zero -/
def strcmp : Bytes → Bytes → ℤ
  | [], [] => 0
  | [], b :: _ => -(b.toNat : ℤ)
  | a :: _, [] => a.toNat
  | a :: as, b :: bs =>
    if a ≠ b then (a.toNat : ℤ) - b.toNat
    else if a = 0 then 0
    else strcmp as bs

def strcasecmp (a b : Bytes) : ℤ := strcmp (a.map toLower) (b.map toLower)

def apkNameCmpDisplay (a b : Bytes) : ℤ :=
  if strcasecmp a b ≠ 0 then strcasecmp a b else strcmp a b

def cmpPkgname {N P : Type} (db : Database N P) (d1 d2 : Dependency N) : ℤ :=
  apkNameCmpDisplay (db.display d1.name) (db.display d2.name)

end Alpine

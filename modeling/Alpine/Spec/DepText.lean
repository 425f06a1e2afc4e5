import Alpine.Spec.AdbWrite
import Alpine.Spec.Fdb

/-! Dependencies as text with repository tags (`package.c`), and their way through a database
(`apk_adb.c`). The table of the tags starts with the default tag; the other tags are stored with
their `@`. -/

namespace Alpine

def apkePkgversionFormat : ℤ := 1061
def apkeDependencyFormat : ℤ := 1062

/-- `apk_blob_pull_dep`: the dependency and the rest, and the table of the tags -/
def apkBlobPullDepTag (allowTag : Bool) (tags : List Bytes) (b : Bytes) :
    Option (Dependency Bytes × Bytes) × List Bytes :=
  let bdep := b.takeWhile fun c => !apkCtype .dependencySeparator c
  let rest := b.dropWhile fun c => !apkCtype .dependencySeparator c
  let rest := (apkBlobSpn rest .dependencySeparator).2
  match apkDepParse bdep with
  | none => (none, tags)
  | some (bname, op, bver) =>
    let broken := op &&& apkDepmaskChecksum ≠ apkDepmaskChecksum ∧ !bver.any apkVersionValidate
    match apkBlobSplit bname (asc '@') with
    | none => (some (⟨bname, bver, op, broken, 0, 0⟩, rest), tags)
    | some (bname, btag) =>
      if !allowTag then (none, tags)
      else
        let tag := apkDbGetTagId tags btag
        -- the field of the tag is 6 bits wide
        (some (⟨bname, bver, op, broken, (tag.1 % 64).toNat, 0⟩, rest), tag.2)

/-- the pieces of `apk_blob_push_dep`; there is none for a tag that is not in the table -/
def pushDepPieces (tags : List Bytes) (dep : Dependency Bytes) : List (Option Bytes) :=
  (if apkDepConflict dep then [some [asc '!']] else []) ++ [some (cstr dep.name)] ++
    (if dep.repositoryTag ≠ 0 then [tags[dep.repositoryTag]?] else []) ++
    [some (apkVersionOpString dep.op), some (dep.version.getD [])]

/-- `apk_blob_push_dep` into a buffer of the given size -/
def apkBlobPushDep (size : ℕ) (tags : List Bytes) (dep : Dependency Bytes) : Option Bytes :=
  pushPieces size (some []) (pushDepPieces tags dep)

/-- the loop of `apk_blob_pull_deps`; after a dependency that is not one the blob is NULL -/
def pullDepsTagLoop (allowTag : Bool) : ℕ → List Bytes → Bytes → ℤ × List (Dependency Bytes) × List Bytes
  | 0, tags, _ => (0, [], tags)
  | room + 1, tags, b =>
    if b = [] then (0, [], tags)
    else
      match apkBlobPullDepTag allowTag tags b with
      | (none, tags) => (-apkeDependencyFormat, [], tags)
      | (some (dep, b), tags) =>
        let r := pullDepsTagLoop allowTag room tags b
        -- an error of a later round replaces that of an earlier one
        let rc := if r.1 = 0 ∧ dep.broken then -apkePkgversionFormat else r.1
        (rc, dep :: r.2.1, r.2.2)

def apkBlobPullDepsTag (allowTag : Bool) (tags : List Bytes) (b : Bytes) :
    ℤ × List (Dependency Bytes) × List Bytes := pullDepsTagLoop allowTag b.length tags b

/-- `apk_dep_split`: the next item and the rest -/
def apkDepSplit (b : Bytes) : Option (Bytes × Bytes) :=
  if b = [] then none
  else
    let b := (apkBlobSpn b .dependencySeparator).2
    let bdep := b.takeWhile fun c => !apkCtype .dependencySeparator c
    if bdep = [] then none else some (bdep, b.dropWhile fun c => !apkCtype .dependencySeparator c)

/-- the items that a loop over `apk_dep_split` sees -/
def depSplitLoop : ℕ → Bytes → List Bytes
  | 0, _ => []
  | room + 1, b =>
    match apkDepSplit b with
    | none => []
    | some (bdep, b) => bdep :: depSplitLoop room b

/-- `APK_CTYPE_DEPENDENCY_NAME` -/
def dependencyName (c : UInt8) : Bool :=
  (asc '0' ≤ c ∧ c ≤ asc '9') ∨ (asc 'A' ≤ c ∧ c ≤ asc 'Z') ∨ (asc 'a' ≤ c ∧ c ≤ asc 'z') ∨
    c ∈ ascs ['+', ',', '-', '.', '/', ':', '[', ']', '_']

def adbiDepName : ℕ := 1
def adbiDepVersion : ℕ := 2
def adbiDepMatch : ℕ := 3

/-- `adb_wo_val` on the entries of an object; the first has index 1 -/
def adbWoVal (o : List ℕ) (i v : ℕ) : List ℕ := o.set (i - 1) v

section

variable (fresh : ℕ → UInt8) (hash : List Bytes → ℕ)

def adbWoBlob (r : List ℕ × AdbWriter) (i : ℕ) (b : Option Bytes) : Option (List ℕ × AdbWriter) :=
  (adbWBlob fresh hash r.2 (b.getD [])).map fun w => (adbWoVal r.1 i w.1, w.2)

def adbWoInt (r : List ℕ × AdbWriter) (i v : ℕ) : Option (List ℕ × AdbWriter) :=
  (adbWInt fresh hash r.2 v).map fun w => (adbWoVal r.1 i w.1, w.2)

/-- the fields of a dependency; those that say what goes without saying are left out -/
def dependencyFields (db : AdbWriter) (bname : Bytes) (op : ℕ) (bver : Option Bytes) :
    Option (List ℕ × AdbWriter) :=
  (adbWoBlob fresh hash ([0, 0, 0], db) adbiDepName (some bname)).bind fun r =>
    if op = apkDepmaskAny then some r
    else
      (adbWoBlob fresh hash r adbiDepVersion bver).bind fun r =>
        if op = apkVersionEqual then some r else adbWoInt fresh hash r adbiDepMatch op

/-- `dependency_fromstring` into an object without entries -/
def dependencyFromstring (db : AdbWriter) (bdep : Bytes) : Except ℤ (Option (List ℕ × AdbWriter)) :=
  match apkDepParse bdep with
  | none => .error (-apkeDependencyFormat)
  | some (bname, op, bver) =>
    if op &&& apkDepmaskChecksum ≠ apkDepmaskChecksum ∧ !bver.any apkVersionValidate then
      .error (-apkeDependencyFormat)
    else if !bname.all dependencyName then .error (-apkeDependencyFormat)
    else .ok (dependencyFields fresh hash db bname op bver)

/-- `adb_w_fromstring` of a dependency -/
def adbWDependency (db : AdbWriter) (bdep : Bytes) : Except ℤ (Option (ℕ × AdbWriter)) :=
  (dependencyFromstring fresh hash db bdep).map fun r =>
    r.bind fun o => adbWObj fresh hash o.2 adbTypeObject o.1

/-- the loop of `dependencies_fromstring`: the values of the array so far -/
def dependenciesLoop : ℕ → AdbWriter → List ℕ → Bytes → Except ℤ (Option (List ℕ × AdbWriter))
  | 0, db, arr, _ => .ok (some (arr, db))
  | room + 1, db, arr, b =>
    match apkDepSplit b with
    | none => .ok (some (arr, db))
    | some (bdep, b) =>
      match adbWDependency fresh hash db bdep with
      | .error e => .error e
      | .ok none => .ok none
      -- `adb_wa_append` leaves out a value that is null
      | .ok (some (v, db)) => dependenciesLoop room db (if v = adbNull then arr else arr ++ [v]) b

/-- `dependencies_fromstring` into an array without entries -/
def dependenciesFromstring (db : AdbWriter) (b : Bytes) :
    Except ℤ (Option (List ℕ × AdbWriter)) := dependenciesLoop fresh hash b.length db [] b

end

def apkDepFromAdb (adb : Bytes) (d : AdbObj) : Dependency Bytes :=
  let op := adbRInt adb (adbRoVal d adbiDepMatch)
  let ver := adbRBlob adb (adbRoVal d adbiDepVersion)
  let op := if ver = none then op ||| apkDepmaskAny else if op = 0 then apkVersionEqual else op
  -- the atom of an empty version is that of no version
  ⟨(adbRBlob adb (adbRoVal d adbiDepName)).getD [], ver.filter (· ≠ []), op, false, 0, 0⟩

end Alpine

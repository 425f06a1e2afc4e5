import Alpine.Spec.ExtractV3

/-! The order of the values of an ADB database: the comparison of objects and the sort of an array, both of
`adb.c`. A value is a pair of a database and an `adb_val_t`, since the objects that are compared can be in
two databases. Entries behind the last field of a schema, at which `adb_ro_kind` stops, are compared like
any other. -/

namespace Alpine

/-- what `compare` of a field and `adb_ro_cmp` know of a schema -/
inductive CmpSchema
  | scalar (numeric : Bool) (compare : Bytes × ℕ → Bytes × ℕ → ℤ)
  | object (isArray : Bool) (numCompare : ℕ) (fields : ℕ → CmpSchema)
  | adb (schema : CmpSchema)

/-- `ADB_OBJCMP_EXACT`, `ADB_OBJCMP_TEMPLATE` and `ADB_OBJCMP_INDEX` -/
inductive ObjCmp
  | exact | template | index
  deriving DecidableEq

/-- the loop of `adb_ro_cmpobj` over `n` fields, from `i` on -/
def cmpFields (mode : ObjCmp) (numCompare : ℕ) (isSet : ℕ → Bool) (cmp : ℕ → ℤ) : ℕ → ℕ → ℤ
  | 0, _ => 0
  | n + 1, i =>
    let r := if mode = .exact ∨ isSet i then cmp i else 0
    if r ≠ 0 then r
    else if mode = .index ∧ !isSet i then 0
    else if mode ≠ .exact ∧ numCompare ≤ i then 0
    else cmpFields mode numCompare isSet cmp n (i + 1)

/-- `adb_ro_cmpobj`, given the comparison of the fields -/
def cmpobjBy (cmp : ℕ → Bytes × ℕ → Bytes × ℕ → ℤ) (mode : ObjCmp) (numCompare : ℕ)
    (tmpl obj : Bytes × AdbObj) : ℤ :=
  cmpFields mode numCompare (fun i => adbRoVal tmpl.2 i ≠ adbNull)
    (fun i => cmp i (tmpl.1, adbRoVal tmpl.2 i) (obj.1, adbRoVal obj.2 i))
    (max tmpl.2.num obj.2.num - adbiFirst) adbiFirst

/-- `adb_r_obj` with the database that the object is in -/
def objAt (v : Bytes × ℕ) : Bytes × AdbObj := (v.1, adbRObj v.1 v.2)

/-- `adb_ro_cmp` on the values of the field -/
def adbRoCmp (mode : ObjCmp) : CmpSchema → Bytes × ℕ → Bytes × ℕ → ℤ
  | .scalar _ compare, v1, v2 => compare v1 v2
  | .object _ numCompare fields, v1, v2 =>
    cmpobjBy (fun i => adbRoCmp mode (fields i)) mode numCompare (objAt v1) (objAt v2)
  | .adb _, _, _ => 0

def adbRoCmpobj (fields : ℕ → CmpSchema) (mode : ObjCmp) (numCompare : ℕ) (tmpl obj : Bytes × AdbObj) : ℤ :=
  cmpobjBy (fun i => adbRoCmp mode (fields i)) mode numCompare tmpl obj

/-- a comparison function that tells some elements apart as a total preorder does -/
structure PreorderOn {α : Type} (cmp : α → α → ℤ) (s : Set α) : Prop where
  flip : ∀ a ∈ s, ∀ b ∈ s, cmp a b ≤ 0 ↔ 0 ≤ cmp b a
  trans : ∀ a ∈ s, ∀ b ∈ s, ∀ c ∈ s, cmp a b ≤ 0 → cmp b c ≤ 0 → cmp a c ≤ 0

/-- `qsort_r` on values -/
structure QsortR where
  sort : (ℕ → ℕ → ℤ) → List ℕ → List ℕ
  perm : ∀ cmp vals, (sort cmp vals).Perm vals
  sorted : ∀ cmp vals, PreorderOn cmp {v | v ∈ vals} → (sort cmp vals).Pairwise fun a b => cmp a b ≤ 0

section

variable {K : Type} (crypto : Crypto K)

/-- `adb_m_blob` with `__adb_dummy_cb`; there are less blocks than bytes -/
def adbMBlob (t : Option (Trust K)) (blob : Option Bytes) : Option ℤ × AdbReader Unit :=
  let data := blob.getD []
  adbMParse crypto t none (fun _ _ s _ _ is => (0, s, is)) data [] (data.length + 1) (AdbReader.init t 0 ())

/-- `adb_m_blob` and `adb_r_rootobj` -/
def nestedRoot (t : Option (Trust K)) (blob : Option Bytes) : Bytes × AdbObj :=
  let adb := (adbMBlob crypto t blob).2.db.adb.getD []
  (adb, adbRRootobj adb)

/-- `adb_m_blob` without a trust context comes back: no block wraps around, and for no signature the list
of keys is followed, which is behind a null pointer -/
def nestedDefined (blob : Option Bytes) : Prop :=
  (adbMBlob crypto none blob).1 ≠ none ∧ ∀ c ∈ (adbMBlob crypto none blob).2.calls, ∀ b, c.block = .sig b →
    b.length < adbSignV0Size ∨ b.getD 0 0 ≠ 0

/-- the comparison of two nested databases by their root objects -/
def rootCmp (t : Option (Trust K)) (adb : Bytes) (schema : CmpSchema) (v1 v2 : ℕ) : ℤ :=
  match schema with
  | .object _ numCompare fields =>
    adbRoCmpobj fields .exact numCompare (nestedRoot crypto t (adbRBlob adb v1))
      (nestedRoot crypto t (adbRBlob adb v2))
  | _ => 0

def wacmpscalar (adb : Bytes) (compare : Bytes × ℕ → Bytes × ℕ → ℤ) (v1 v2 : ℕ) : ℤ :=
  compare (adb, v1) (adb, v2)

def wacmp (adb : Bytes) (numCompare : ℕ) (fields : ℕ → CmpSchema) (v1 v2 : ℕ) : ℤ :=
  adbRoCmpobj fields .exact numCompare (objAt (adb, v1)) (objAt (adb, v2))

def wadbcmp (adb : Bytes) (schema : CmpSchema) : ℕ → ℕ → ℤ := rootCmp crypto none adb schema

/-- `adb_wa_sort` on the values of an array; the default case is an assertion that never fails -/
def adbWaSort (q : QsortR) (adb : Bytes) (item : CmpSchema) (vals : List ℕ) : List ℕ :=
  match item with
  | .scalar false compare => q.sort (wacmpscalar adb compare) vals
  | .object false numCompare fields => q.sort (wacmp adb numCompare fields) vals
  | .adb schema => q.sort (wadbcmp crypto adb schema) vals
  | _ => vals

/-- `adb_wa_sort` comes back; two elements or more are all compared -/
def adbWaSortDefined (adb : Bytes) (item : CmpSchema) (vals : List ℕ) : Prop :=
  match item with
  | .adb _ => vals.length ≤ 1 ∨ ∀ v ∈ vals, nestedDefined crypto (adbRBlob adb v)
  | _ => True

/-- the loop of `adb_wa_sort_unique`: a value that is the same as the one before it is left out -/
def dropSame : List ℕ → List ℕ
  | v :: w :: vals => if w = v then dropSame (w :: vals) else v :: dropSame (w :: vals)
  | vals => vals

def adbWaSortUnique (q : QsortR) (adb : Bytes) (item : CmpSchema) (vals : List ℕ) : List ℕ :=
  dropSame (adbWaSort crypto q adb item vals)

end

def stringCompare (v1 v2 : Bytes × ℕ) : ℤ :=
  apkBlobSort ((adbRBlob v1.1 v1.2).getD []) ((adbRBlob v2.1 v2.2).getD [])

def versionCompare (v1 v2 : Bytes × ℕ) : ℤ :=
  let r := apkVersionCompare (adbRBlob v1.1 v1.2) (adbRBlob v2.1 v2.2)
  if r = apkVersionLess then -1 else if r = apkVersionGreater then 1 else 0

def intCompare (v1 v2 : Bytes × ℕ) : ℤ :=
  let r1 := adbRInt v1.1 v1.2
  let r2 := adbRInt v2.1 v2.2
  if r1 < r2 then -1 else if r2 < r1 then 1 else 0

def AdbScalar.compare (s : AdbScalar) : Bytes × ℕ → Bytes × ℕ → ℤ :=
  if s.numeric then intCompare else if s = .version then versionCompare else stringCompare

def ObjSchema.numCompare : ObjSchema → ℕ
  | dependency => adbiDepName
  | pkginfo => adbiPiHashes
  | file => adbiFiName
  | dir => adbiDiName
  | package => adbiPkgPkginfo
  | _ => 0

/-- the schema of a kind, down to a depth that none of them has -/
def cmpSchema : ℕ → AdbSchema → CmpSchema
  | _, .scalar s => .scalar s.numeric s.compare
  | n + 1, .obj o =>
    .object o.isArray o.numCompare fun i => cmpSchema n ((o.roKind i).getD (.scalar .string))
  | n + 1, .packageAdb => .adb (cmpSchema n (.obj .package))
  | 0, _ => .scalar false stringCompare

def AdbSchema.cmp (kind : AdbSchema) : CmpSchema := cmpSchema 16 kind

end Alpine

import Alpine.Spec.Codec
import Alpine.Spec.DepText

/-! The schemas of `apk_adb.c` and the values that are written for texts. An `adb_val_t` is here the value
that is read through it: nothing that has been written changes, so that neither offsets nor the cache of
the writer matter. The order of `qsort_r` is a parameter. -/

namespace Alpine

def apkePkgnameFormat : ℤ := 1060
def apkeAdbNoFromstring : ℤ := 1070
def apkeAdbLimit : ℤ := 1071
def apkeAdbPackageFormat : ℤ := 1072

inductive AdbValue
  | null
  | error (e : ℤ)
  | int (n : ℕ)
  | blob (b : Bytes)
  | arr (vals : List AdbValue)
  | obj (vals : List AdbValue)
  | adb (root : AdbValue)

namespace AdbValue

def isNull : AdbValue → Bool
  | null => true
  | _ => false

def isError : AdbValue → Bool
  | error _ => true
  | _ => false

/-- `adb_w_blob` -/
def ofBlob (b : Bytes) : AdbValue := if b = [] then null else blob b

/-- the entries of `__adb_w_obj`, with those at the end that are null left out -/
def trim (vals : List AdbValue) : List AdbValue := vals.rdropWhile isNull

/-- `adb_w_obj` after `pre_commit` -/
def ofObj (vals : List AdbValue) : AdbValue := if (trim vals).isEmpty then null else obj (trim vals)

/-- `adb_w_adb` of a database with a root -/
def ofAdb (root : AdbValue) : AdbValue := if root.isNull then null else adb root

end AdbValue

def adbiFirst : ℕ := 1
def adbiAclMode : ℕ := 1
def adbiAclUser : ℕ := 2
def adbiAclGroup : ℕ := 3
def adbiAclXattrs : ℕ := 4
def adbiFiName : ℕ := 1
def adbiFiAcl : ℕ := 2
def adbiFiSize : ℕ := 3
def adbiFiMtime : ℕ := 4
def adbiFiHashes : ℕ := 5
def adbiFiTarget : ℕ := 6
def adbiDiName : ℕ := 1
def adbiDiAcl : ℕ := 2
def adbiDiFiles : ℕ := 3
def adbiPkgPkginfo : ℕ := 1
def adbiPkgPaths : ℕ := 2
def adbiPiName : ℕ := 1
def adbiPiVersion : ℕ := 2
def adbiPiHashes : ℕ := 3
def adbiPiRepoCommit : ℕ := 10

inductive AdbScalar
  | string | mstring | xattr | name | version | hexblob | int | time | oct | hsize
  deriving DecidableEq

/-- the objects and the arrays -/
inductive ObjSchema
  | tagsArray | stringArray | xattrArray | dependency | dependencyArray | pkginfo | pkginfoArray | index
  | acl | file | fileArray | dir | dirArray | scripts | package | packageAdbArray | idb
  deriving DecidableEq

/-- what the `kind` of a field points to; the one database is that of a package -/
inductive AdbSchema
  | scalar (s : AdbScalar)
  | obj (o : ObjSchema)
  | packageAdb
  deriving DecidableEq

/-- whether the kind is `ADB_KIND_NUMERIC` and not `ADB_KIND_BLOB` -/
def AdbScalar.numeric : AdbScalar → Bool
  | .int | .time | .oct | .hsize => true
  | _ => false

/-- `APK_SERIALIZE_INT`, `APK_SERIALIZE_OCTAL`, `APK_SERIALIZE_SIZE` and `APK_SERIALIZE_TIME` -/
def AdbScalar.hint : AdbScalar → ℕ
  | .oct => 1
  | .hsize => 2
  | .time => 3
  | _ => 0

namespace ObjSchema

/-- the items of an array -/
def item : ObjSchema → Option AdbSchema
  | tagsArray => some (.scalar .string)
  | stringArray => some (.scalar .string)
  | xattrArray => some (.scalar .xattr)
  | dependencyArray => some (.obj dependency)
  | pkginfoArray => some (.obj pkginfo)
  | fileArray => some (.obj file)
  | dirArray => some (.obj dir)
  | packageAdbArray => some .packageAdb
  | _ => none

/-- the fields of an object; the first has index 1 -/
def fields : ObjSchema → List (Bytes × AdbSchema)
  | dependency =>
    [(lit "name", .scalar .string), (lit "version", .scalar .version), (lit "match", .scalar .int)]
  | pkginfo =>
    [(lit "name", .scalar .name), (lit "version", .scalar .version), (lit "hashes", .scalar .hexblob),
      (lit "description", .scalar .string), (lit "arch", .scalar .string), (lit "license", .scalar .string),
      (lit "origin", .scalar .string), (lit "maintainer", .scalar .string), (lit "url", .scalar .string),
      (lit "repo-commit", .scalar .hexblob), (lit "build-time", .scalar .time),
      (lit "installed-size", .scalar .hsize), (lit "file-size", .scalar .hsize),
      (lit "provider-priority", .scalar .int), (lit "depends", .obj dependencyArray),
      (lit "provides", .obj dependencyArray), (lit "replaces", .obj dependencyArray),
      (lit "install-if", .obj dependencyArray), (lit "recommends", .obj dependencyArray),
      (lit "layer", .scalar .int), (lit "tags", .obj tagsArray)]
  | index =>
    [(lit "description", .scalar .string), (lit "packages", .obj pkginfoArray),
      (lit "pkgname-spec", .scalar .string)]
  | acl =>
    [(lit "mode", .scalar .oct), (lit "user", .scalar .string), (lit "group", .scalar .string),
      (lit "xattrs", .obj xattrArray)]
  | file =>
    [(lit "name", .scalar .string), (lit "acl", .obj acl), (lit "size", .scalar .int),
      (lit "mtime", .scalar .time), (lit "hash", .scalar .hexblob), (lit "target", .scalar .hexblob)]
  | dir =>
    [(lit "name", .scalar .string), (lit "acl", .obj acl), (lit "files", .obj fileArray)]
  | scripts =>
    [(lit "trigger", .scalar .mstring), (lit "pre-install", .scalar .mstring),
      (lit "post-install", .scalar .mstring), (lit "pre-deinstall", .scalar .mstring),
      (lit "post-deinstall", .scalar .mstring), (lit "pre-upgrade", .scalar .mstring),
      (lit "post-upgrade", .scalar .mstring)]
  | package =>
    [(lit "info", .obj pkginfo), (lit "paths", .obj dirArray), (lit "scripts", .obj scripts),
      (lit "triggers", .obj stringArray), (lit "replaces-priority", .scalar .int)]
  | idb => [(lit "packages", .obj packageAdbArray)]
  | _ => []

def isArray (o : ObjSchema) : Bool := o.item.isSome

def numFields : ObjSchema → ℕ
  | tagsArray | stringArray | dependencyArray => 32
  | xattrArray => 8
  | pkginfoArray | fileArray | dirArray | packageAdbArray => 128
  | o => o.fields.length + 1

/-- `adb_ro_kind`; none where its assertion fails -/
def roKind (o : ObjSchema) (i : ℕ) : Option AdbSchema :=
  match o.item with
  | some kind => some kind
  | none => if i = 0 then none else (o.fields.drop (i - 1)).head?.map (·.2)

/-- `adb_s_field_by_name_blob` -/
def fieldByName (o : ObjSchema) (key : Bytes) : ℕ :=
  match o.fields.findIdx? (fun f => apkBlobCompare f.1 key = 0) with
  | some i => i + 1
  | none => 0

/-- the entries of an object without any -/
def noVals (o : ObjSchema) : List AdbValue :=
  if o.isArray then [] else List.replicate o.fields.length .null

end ObjSchema

def adbSchemaIndex : ℕ := 0x78646e69
def adbSchemaPackage : ℕ := 0x676b6370
def adbSchemaInstalledDb : ℕ := 0x00626469

/-- the lookup in `adb_all_schemas` -/
def adbAllSchemas (magic : ℕ) : Option ObjSchema :=
  if magic = adbSchemaIndex then some .index
  else if magic = adbSchemaInstalledDb then some .idb
  else if magic = adbSchemaPackage then some .package
  else none

/-- `qsort_r` on the items of the arrays of a schema, and the equality of two `adb_val_t` -/
structure AdbSort where
  sort : ObjSchema → List AdbValue → List AdbValue
  perm : ∀ o vals, (sort o vals).Perm vals
  same : AdbValue → AdbValue → Bool
  eq_of_same : ∀ v w, same v w → v = w

/-- the loop of `adb_wa_sort_unique`: an item that is the same as the one before it is left out -/
def dropRepeated (q : AdbSort) : List AdbValue → List AdbValue
  | v :: w :: vals =>
    if q.same w v then dropRepeated q (v :: vals) else v :: dropRepeated q (w :: vals)
  | vals => vals

def preCommit (q : AdbSort) (o : ObjSchema) (vals : List AdbValue) : List AdbValue :=
  match o with
  | .xattrArray | .pkginfoArray | .fileArray | .dirArray | .packageAdbArray => q.sort o vals
  | .dependencyArray => dropRepeated q (q.sort o vals)
  | _ => vals

/-- `adb_w_obj` -/
def adbWObject (q : AdbSort) (o : ObjSchema) (vals : List AdbValue) : AdbValue :=
  .ofObj (preCommit q o vals)

/-- `APK_CTYPE_PACKAGE_NAME` -/
def packageName (c : UInt8) : Bool :=
  (asc '0' ≤ c ∧ c ≤ asc '9') ∨ (asc 'A' ≤ c ∧ c ≤ asc 'Z') ∨ (asc 'a' ≤ c ∧ c ≤ asc 'z') ∨
    c ∈ ascs ['+', '-', '.', '_']

/-- `APK_CTYPE_TAG_NAME` -/
def tagName (c : UInt8) : Bool :=
  (asc '0' ≤ c ∧ c ≤ asc '9') ∨ (asc 'A' ≤ c ∧ c ≤ asc 'Z') ∨ (asc 'a' ≤ c ∧ c ≤ asc 'z') ∨
    c ∈ ascs ['+', ',', '-', '.', ':', '=', '/', '[', ']', '_']

def isalnum (c : UInt8) : Bool :=
  (asc '0' ≤ c ∧ c ≤ asc '9') ∨ (asc 'A' ≤ c ∧ c ≤ asc 'Z') ∨ (asc 'a' ≤ c ∧ c ≤ asc 'z')

def nameFromstring (val : Bytes) : AdbValue :=
  if !val.head?.any isalnum then .error apkePkgnameFormat
  else if !val.all packageName then .error apkePkgnameFormat
  else .ofBlob val

def versionFromstring (val : Bytes) : AdbValue :=
  if apkVersionValidate val then .ofBlob val else .error apkePkgversionFormat

/-- the bytes of a hexadecimal text of even length in a buffer of 256 -/
def pullHexBuf (val : Bytes) : Except ℤ Bytes :=
  if val.length % 2 = 1 then .error einval
  else if 256 < val.length / 2 then .error e2big
  else
    let p := pullHexdump (fun i => val.getD i 0) (some ⟨0, val.length⟩) (List.replicate (val.length / 2) 0)
    if p.blob.isNone then .error einval else .ok p.dst

def hexblobFromstring (val : Bytes) : AdbValue :=
  match pullHexBuf val with
  | .error e => .error e
  | .ok b => .ofBlob b

/-- `xattr_fromstring` -/
def xattrValue (val : Bytes) : AdbValue :=
  match apkBlobRsplit val (asc '=') with
  | none => .error apkeAdbSchema
  | some (b0, hex) =>
    match pullHexBuf hex with
    | .error e => .error e
    | .ok b => .ofBlob (val.take (b0.length + 1) ++ b)

def intFromstring (radix : ℕ) (val : Bytes) : AdbValue :=
  let p := apkBlobPullUint val radix
  if p.2 ≠ [] then .error einval else .int p.1

/-- `apk_get_human_size_unit`, an `int` that the last unit overflows -/
def apkGetHumanSizeUnit (b : Bytes) : ℕ :=
  if b = lit "B" then 1
  else if b = lit "KiB" then 1024
  else if b = lit "MiB" then 1024 ^ 2
  else if b = lit "GiB" then 1024 ^ 3
  else if b = lit "TiB" then 0
  else 1

def hsizeFromstring (val : Bytes) : AdbValue :=
  match apkBlobSplit val (asc ' ') with
  | none => intFromstring 10 val
  | some (l, r) => .int ((apkBlobPullUint l 10).1 * apkGetHumanSizeUnit r % 2 ^ 64)

def scalarFromstring : AdbScalar → Bytes → AdbValue
  | .string, val => .ofBlob val
  | .mstring, val => .ofBlob val
  | .xattr, val => xattrValue val
  | .name, val => nameFromstring val
  | .version, val => versionFromstring val
  | .hexblob, val => hexblobFromstring val
  | .int, val => intFromstring 10 val
  | .time, val => intFromstring 10 val
  | .oct, val => intFromstring 8 val
  | .hsize, val => hsizeFromstring val

/-- `adb_wo_val` -/
def woVal (vals : List AdbValue) (i : ℕ) (v : AdbValue) : List AdbValue := vals.set (i - 1) v

/-- `adb_wa_append` of a value that is no error -/
def waAppend (vals : List AdbValue) (v : AdbValue) : List AdbValue :=
  if v.isNull then vals else vals ++ [v]

/-- `dependency_fromstring` into an object without entries -/
def dependencyVals (bdep : Bytes) : Except ℤ (List AdbValue) :=
  match apkDepParse bdep with
  | none => .error (-apkeDependencyFormat)
  | some (bname, op, bver) =>
    if op &&& apkDepmaskChecksum ≠ apkDepmaskChecksum ∧ !bver.any apkVersionValidate then
      .error (-apkeDependencyFormat)
    else if !bname.all dependencyName then .error (-apkeDependencyFormat)
    else
      let vals := woVal [.null, .null, .null] adbiDepName (.ofBlob bname)
      if op = apkDepmaskAny then .ok vals
      else
        let vals := woVal vals adbiDepVersion (.ofBlob (bver.getD []))
        .ok (if op = apkVersionEqual then vals else woVal vals adbiDepMatch (.int op))

/-- the loop of `dependencies_fromstring` -/
def dependenciesVals (q : AdbSort) : List AdbValue → List Bytes → Except ℤ (List AdbValue)
  | vals, [] => .ok vals
  | vals, bdep :: bdeps =>
    match dependencyVals bdep with
    | .error e => .error e
    | .ok o => dependenciesVals q (waAppend vals (adbWObject q .dependency o)) bdeps

/-- the words of `apk_blob_foreach_word`; `word` is the one that is being read -/
def wordsLoop (token : UInt8) : Bytes → Bytes → List Bytes
  | word, [] => if word = [] then [] else [word]
  | word, c :: b =>
    if c = token then (if word = [] then wordsLoop token [] b else word :: wordsLoop token [] b)
    else wordsLoop token (word ++ [c]) b

/-- `apk_blob_foreach_token` with a token of one byte, which passes over empty ones -/
def foreachToken (b : Bytes) (token : UInt8) : List Bytes := wordsLoop token [] b

/-- `tags_fromstring` -/
def tagsVals : List AdbValue → List Bytes → Except ℤ (List AdbValue)
  | vals, [] => .ok vals
  | vals, word :: words =>
    if !word.all tagName then .error (-apkeAdbPackageFormat)
    else tagsVals (waAppend vals (.ofBlob word)) words

/-- `fromstring` of an object, if it has one -/
def objFromstring (q : AdbSort) (o : ObjSchema) (val : Bytes) : Option (Except ℤ (List AdbValue)) :=
  match o with
  | .dependency => some (dependencyVals val)
  | .dependencyArray => some (dependenciesVals q [] (depSplitLoop val.length val))
  | .tagsArray => some (tagsVals [] (foreachToken val (asc ' ')))
  | _ => none

def adbWFromstring (q : AdbSort) (kind : AdbSchema) (val : Bytes) : AdbValue :=
  match kind with
  | .scalar s => scalarFromstring s val
  | .packageAdb => .error apkeAdbNoFromstring
  | .obj o =>
    match objFromstring q o val with
    | none => .error apkeAdbNoFromstring
    | some (.error e) => .error (-e)
    | some (.ok vals) => adbWObject q o vals

end Alpine

import Alpine.Spec.AdbSchema
import Alpine.Spec.Audit

/-! Reading an ADB database that nobody has checked: the blobs as pointers into it, what
`apk_pkgtmpl_from_adb` of `package.c` reads through them, and the deep copy of `adb.c`. A read outside
of the database, or through NULL, is a fault. -/

namespace Alpine

/-- `apk_blob_t` with an offset into the database for its pointer, `none` for NULL -/
structure BlobPtr where
  ptr : Option ℕ
  len : ℕ
  deriving DecidableEq

/-- `adb_r_deref` as a pointer -/
def adbRPtr (adb : Bytes) (v offs s : ℕ) : Option ℕ :=
  if adb.length < offs + adbValValue v + s then none else some (offs + adbValValue v)

def adbRBlobPtrOf (adb : Bytes) (v width : ℕ) : BlobPtr :=
  match adbRPtr adb v 0 width with
  | none => ⟨none, 0⟩
  | some p =>
    let len := leNat ((adb.drop p).take width)
    ⟨adbRPtr adb v width len, len⟩

/-- the width of the length of a blob, 0 for other types -/
def blobWidth (type : ℕ) : ℕ :=
  if type = adbTypeBlob8 then 1
  else if type = adbTypeBlob16 then 2
  else if type = adbTypeBlob32 then 4
  else 0

/-- `adb_r_blob` -/
def adbRBlobPtr (adb : Bytes) (v : ℕ) : BlobPtr :=
  if blobWidth (adbValType v) = 0 then ⟨none, 0⟩ else adbRBlobPtrOf adb v (blobWidth (adbValType v))

def adbiPiDescription : ℕ := 4
def adbiPiArch : ℕ := 5
def adbiPiLicense : ℕ := 6
def adbiPiOrigin : ℕ := 7
def adbiPiMaintainer : ℕ := 8
def adbiPiUrl : ℕ := 9
def adbiPiDepends : ℕ := 15
def adbiPiProvides : ℕ := 16
def adbiPiInstallIf : ℕ := 18
def adbiPiRecommends : ℕ := 19
def adbiPiTags : ℕ := 21

/-- how many bytes of the identity are copied: `apk_digest_from_blob`, from the length of a SHA-1 on -/
def adbDigestRead (len : ℕ) : ℕ :=
  if apkDigestAlgLen apkDigestSha1 ≤ len ∧ apkDigestAlgByLen len ≠ apkDigestNone then len else 0

/-- how many bytes `commit_id` turns into hexadecimal, for which it has 80 bytes -/
def commitRead (len : ℕ) : ℕ := if 80 < len * 2 then 0 else len

/-- the values of an array -/
def adbRaVals (o : AdbObj) : List ℕ := (List.range (o.num - 1)).map fun i => adbRoVal o (i + adbiFirst)

/-- the blobs that `apk_pkgtmpl_from_adb` hashes or copies, each with how many of its bytes -/
def pkgtmplReads (adb : Bytes) (pkginfo : AdbObj) : List (ℕ × (ℕ → ℕ)) :=
  let field i read := (adbRoVal pkginfo i, read)
  let array i := adbRaVals (adbRObj adb (adbRoVal pkginfo i))
  [field adbiPiHashes adbDigestRead, field adbiPiName id, field adbiPiVersion id,
      field adbiPiDescription (min 512), field adbiPiUrl id, field adbiPiLicense id,
      field adbiPiArch id, field adbiPiOrigin id, field adbiPiMaintainer id,
      field adbiPiRepoCommit commitRead] ++
    ([adbiPiDepends, adbiPiProvides, adbiPiInstallIf, adbiPiRecommends].flatMap fun i =>
      (array i).flatMap fun v =>
        let d := adbRObj adb v
        [(adbRoVal d adbiDepName, id), (adbRoVal d adbiDepVersion, id)]) ++
    (array adbiPiTags).map fun v => (v, id)

inductive CopyFault
  | null
  | outside
  -- `adb_w_error`, which is a failed assertion
  | error
  -- the writer has no result
  | write
  | fuel
  deriving DecidableEq

/-- a read of some bytes from a pointer -/
def readBytes (adb : Bytes) : Option ℕ → ℕ → Except CopyFault Bytes
  | none, _ => .error .null
  | some p, n => if adb.length < p + n then .error .outside else .ok ((adb.drop p).take n)

section

variable (fresh : ℕ → UInt8) (hash : List Bytes → ℕ) (src : Bytes)

/-- `adb_w_data1` with the type of the value; there is no data at NULL -/
def copyData (db : AdbWriter) (type : ℕ) (data : Option Bytes) (align : ℕ) :
    Except CopyFault (ℕ × AdbWriter) :=
  match data with
  | none => .ok (adbVal type adbNull, db)
  | some data => (adbWVal fresh hash db type [data] align).elim (.error .write) .ok

/-- the label `copy` of `adb_w_copy` -/
def copyRaw (db : AdbWriter) (v sz align : ℕ) : Except CopyFault (ℕ × AdbWriter) :=
  match adbRPtr src v 0 sz with
  | none => copyData fresh hash db (adbValType v) none align
  | ptr => do
    let data ← readBytes src ptr sz
    copyData fresh hash db (adbValType v) (some data) align

def copyBlob (db : AdbWriter) (v width : ℕ) : Except CopyFault (ℕ × AdbWriter) :=
  match adbRPtr src v 0 width with
  | none => .error .error
  | ptr => do
    let len ← readBytes src ptr width
    copyRaw fresh hash src db v (width + leNat len) width

/-- the loop over the entries of an object -/
def copyVals (copy : AdbWriter → ℕ → Except CopyFault (ℕ × AdbWriter)) :
    AdbWriter → List ℕ → Except CopyFault (List ℕ × AdbWriter)
  | db, [] => .ok ([], db)
  | db, v :: vals => do
    let r ← copy db v
    let rs ← copyVals copy r.2 vals
    .ok (r.1 :: rs.1, rs.2)

/-- `adb_w_copy` from another database -/
def adbWCopy : ℕ → AdbWriter → ℕ → Except CopyFault (ℕ × AdbWriter)
  | 0, _, _ => .error .fuel
  | n + 1, db, v =>
    let type := adbValType v
    if type = adbTypeSpecial ∨ type = adbTypeInt then .ok (v, db)
    else if type = adbTypeInt32 then copyRaw fresh hash src db v 4 4
    else if type = adbTypeInt64 then copyRaw fresh hash src db v 8 8
    else if blobWidth type ≠ 0 then copyBlob fresh hash src db v (blobWidth type)
    else if type = adbTypeObject ∨ type = adbTypeArray then
      match (adbRObj src v).obj with
      -- the number of entries is read through the object, which may be NULL
      | [] => .error .null
      | num :: _ => do
        let vals ← copyVals (adbWCopy n) db (adbRaVals (adbRObj src v))
        copyData fresh hash vals.2 type (some ((num :: vals.1).flatMap htole32)) 4
    else .error .error

end

end Alpine

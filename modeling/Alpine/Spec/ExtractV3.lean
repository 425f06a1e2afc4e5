import Alpine.Spec.Tar
import Alpine.Spec.Audit
import Alpine.Spec.AdbSchema

/-! Extracting a package of version 3 (`extract_v3.c`, `pathbuilder.c`, and the verifying stream of
`io.c`). The reader of the container hands over the data blocks one at a time, and the extraction
goes on in the paths array where it stopped at the block before. The callbacks of the caller are any
programs; the calls of `ops->file` are kept in a list. The stream is the one that `adb_decompress`
returns. -/

namespace Alpine

def apkeFileIntegrity : ℤ := 1080

/-- `struct apk_pathbuilder`: a buffer of `PATH_MAX` bytes, and the length of the path in it -/
structure PathBuilder where
  namelen : ℕ
  name : Bytes

def PathBuilder.new : PathBuilder := ⟨0, List.replicate pathMax 0⟩

def PathBuilder.store (pb : PathBuilder) (off : ℕ) (b : Bytes) : Bytes :=
  pb.name.take off ++ b ++ pb.name.drop (off + b.length)

/-- a path that does not fit leaves the buffer as it is -/
def apkPathbuilderPushb (pb : PathBuilder) (b : Bytes) : ℤ × PathBuilder :=
  if pathMax ≤ pb.namelen + b.length + 2 then (-enametoolong, pb)
  else
    let sep := if pb.namelen ≠ 0 then [asc '/'] else []
    (pb.namelen,
      { namelen := pb.namelen + sep.length + b.length
        name := pb.store pb.namelen (sep ++ b ++ [0]) })

def apkPathbuilderPop (pb : PathBuilder) (pos : ℤ) : PathBuilder :=
  if pos < 0 then pb else { namelen := pos.toNat, name := pb.store pos.toNat [0] }

def apkPathbuilderSetb (pb : PathBuilder) (b : Bytes) : ℤ × PathBuilder :=
  apkPathbuilderPushb { pb with namelen := 0 } b

def apkPathbuilderCstr (pb : PathBuilder) : Bytes := cstr pb.name

def adbRRoot (adb : Bytes) : ℕ := if adb.length < 8 then adbNull else leNat ((adb.drop 4).take 4)
def adbRRootobj (adb : Bytes) : AdbObj := adbRObj adb (adbRRoot adb)
def adbRaNum (o : AdbObj) : ℕ := o.num - 1
def adbRoInt (adb : Bytes) (o : AdbObj) (i : ℕ) : ℕ := adbRInt adb (adbRoVal o i)
def adbRoBlob (adb : Bytes) (o : AdbObj) (i : ℕ) : Option Bytes := adbRBlob adb (adbRoVal o i)
def adbRoObj (adb : Bytes) (o : AdbObj) (i : ℕ) : AdbObj := adbRObj adb (adbRoVal o i)

/-- `struct apk_digest_istream` without its own `is`: the source of the parent, the bytes that the
digest has seen, and the digest that is expected -/
structure DigestStream (τ : Type) where
  pis : τ
  fed : Bytes
  sizeLeft : ℕ
  alg : ℕ
  digest : Bytes

section

variable {τ K : Type} (iops : IstreamOps τ) (crypto : Crypto K)

def digestRead (dis : DigestStream τ) (size : ℕ) : Except ℤ Bytes × DigestStream τ :=
  match iops.read dis.pis size with
  | (.error e, s) => (.error e, { dis with pis := s })
  | (.ok b, s) =>
    (.ok b, { dis with pis := s, fed := dis.fed ++ b, sizeLeft := (dis.sizeLeft + 2 ^ 64 - b.length) % 2 ^ 64 })

/-- `digest_close`: the digest counts only if all bytes went through the stream -/
def digestClose (dis : DigestStream τ) (err : ℤ) : ℤ :=
  if err < 0 then err
  else if dis.sizeLeft = 0 ∧ crypto.digestCalc dis.alg dis.fed ≠ some dis.digest then -apkeFileIntegrity
  else 0

def digestOps : IstreamOps (DigestStream τ) where
  read := digestRead iops
  close := digestClose crypto
  read_le := by
    intro s n b s' h
    unfold digestRead at h
    split at h
    · simp at h
    · rename_i c s1 hr
      simp only [Prod.mk.injEq, Except.ok.injEq] at h
      rw [← h.1]
      exact iops.read_le _ _ _ _ hr
  read_neg := by
    intro s n e s' h
    unfold digestRead at h
    split at h
    · rename_i e1 s1 hr
      simp only [Prod.mk.injEq, Except.error.injEq] at h
      rw [← h.1]
      exact iops.read_neg _ _ _ _ hr
    · simp at h
  close_neg := by
    intro s e he
    simp [digestClose, he]

def apkIstreamVerify (is : Istream τ) (size alg : ℕ) (digest : Bytes) : Istream (DigestStream τ) where
  buf := is.buf
  ptr := is.ptr
  fin := is.fin
  err := 0
  singleRead := false
  src :=
    { pis := is.src, fed := is.buffered
      sizeLeft := (size + 2 ^ 64 - is.buffered.length) % 2 ^ 64, alg := alg, digest := digest }

end

/-- `struct apk_file_info` of a package of version 3 -/
structure V3FileInfo extends FileInfo where
  mtime : ℕ
  device : ℕ
  xattrs : List (Bytes × Bytes)

/-- `ops->file`, with a stream and with a null pointer for it -/
structure FileCallback (χ : Type) : Type 1 where
  stream : ∀ τ : Type, IstreamOps τ → χ → V3FileInfo → Istream τ → ℤ × χ × Istream τ
  null : χ → V3FileInfo → ℤ × χ

/-- `struct apk_extract_ops`, the part for version 3 -/
structure ExtractOps (χ : Type) : Type 1 where
  v3index : Option (χ → Bytes → AdbObj → ℤ × χ)
  v3meta : Option (χ → Bytes → AdbObj → ℤ × χ)
  file : Option (FileCallback χ)

/-- an entry of the paths array: a directory by its index, or a file by that and its own index -/
inductive V3Entry
  | dir (path : ℕ)
  | file (path file : ℕ)
  deriving DecidableEq, Repr

/-- `struct adb_data_package` of a data block, with the size of the data after it -/
structure V3Block where
  pathIdx : ℕ
  fileIdx : ℕ
  size : ℕ
  deriving DecidableEq, Repr

/-- a call of `ops->file`: for which entry, with what, from which data block, and what came of it -/
structure V3Call where
  entry : V3Entry
  info : V3FileInfo
  block : Option V3Block
  result : ℤ

/-- `struct apk_extract_v3_ctx` with the state of the callbacks and the calls of `ops->file` -/
structure ExtractV3 (χ : Type) where
  paths : AdbObj
  path : AdbObj
  files : AdbObj
  file : AdbObj
  curPath : ℕ
  curFile : ℕ
  pb : PathBuilder
  user : χ
  calls : List V3Call

def ExtractV3.new {χ : Type} (user : χ) : ExtractV3 χ where
  paths := ⟨0, []⟩
  path := ⟨0, []⟩
  files := ⟨0, []⟩
  file := ⟨0, []⟩
  curPath := 0
  curFile := 0
  pb := PathBuilder.new
  user := user
  calls := []

def ExtractV3.called {χ : Type} (c : ExtractV3 χ) (user : χ) (call : V3Call) : ExtractV3 χ :=
  { c with user := user, calls := c.calls ++ [call] }

section

variable (env : TarEnv) (adb : Bytes)

/-- the extended attributes of an ACL, each a name and a value with a zero between them -/
def v3Xattrs (xa : AdbObj) : Option (List (Bytes × Bytes)) :=
  (List.range' adbiFirst (adbRaNum xa)).mapM fun i => apkBlobSplit ((adbRoBlob adb xa i).getD []) 0

/-- the mode is kept in 32 bits -/
def apkExtractV3Acl (fi : V3FileInfo) (o : AdbObj) : Option V3FileInfo :=
  (v3Xattrs adb (adbRoObj adb o adbiAclXattrs)).map fun xattrs =>
    { fi with
      mode := adbRoInt adb o adbiAclMode % 2 ^ 32
      uid := env.resolveUid ((adbRoBlob adb o adbiAclUser).getD []) 65534
      gid := env.resolveGid ((adbRoBlob adb o adbiAclGroup).getD []) 65534
      xattrs := xattrs
      xattrDigest := env.hashXattr xattrs }

/-- a `struct apk_file_info` of zeros but for its name -/
def v3NewInfo (name : Bytes) : V3FileInfo where
  name := name
  linkTarget := none
  size := 0
  uid := 0
  gid := 0
  mode := 0
  digestAlg := apkDigestNone
  digest := []
  xattrDigest := []
  mtime := 0
  device := 0
  xattrs := []

/-- what is not a regular file with data: the type and then a device or a link target -/
def v3Target (fi : V3FileInfo) (target : Bytes) : Option V3FileInfo :=
  if target.length < 2 then none
  else
    let mode := leNat (target.take 2)
    let target := target.drop 2
    if mode = sIfblk ∨ mode = sIfchr ∨ mode = sIfifo then
      if target.length ≠ 8 then none
      else some { fi with device := leNat target, mode := fi.mode ||| mode }
    else if mode = sIflnk ∨ mode = sIfreg then
      if pathMax - 1 ≤ target.length then none
      else some { fi with linkTarget := some (cstr target), mode := fi.mode ||| mode }
    else none

/-- what `apk_extract_v3_file` gathers about a file; `none` is `-APKE_ADB_SCHEMA` -/
def v3FileInfo (file : AdbObj) (name : Bytes) : Option V3FileInfo :=
  let fi := { v3NewInfo name with
    size := adbRoInt adb file adbiFiSize
    mtime := adbRoInt adb file adbiFiMtime }
  let hashes := (adbRoBlob adb file adbiFiHashes).getD []
  let alg := apkDigestAlgByLen hashes.length
  (apkExtractV3Acl env adb fi (adbRoObj adb file adbiFiAcl)).bind fun fi =>
    let fi := { fi with digestAlg := alg, digest := if alg = apkDigestNone then [] else hashes }
    match adbRoBlob adb file adbiFiTarget with
    | some target => v3Target fi target
    | none => if alg = apkDigestNone then none else some { fi with mode := fi.mode ||| sIfreg }

def v3DirInfo (path : AdbObj) (name : Bytes) : Option V3FileInfo :=
  (apkExtractV3Acl env adb (v3NewInfo name) (adbRoObj adb path adbiDiAcl)).map fun fi =>
    { fi with mode := fi.mode ||| sIfdir }

end

section

variable {K χ : Type} (env : TarEnv) (crypto : Crypto K) (adb : Bytes)

/-- a directory and its name before its first file; after a data block only the name is set again -/
def pathLoad (c : ExtractV3 χ) : ExtractV3 χ :=
  let c :=
    if c.curFile = adbiFirst then
      let path := adbRoObj adb c.paths c.curPath
      { c with path := path, files := adbRoObj adb path adbiDiFiles }
    else c
  { c with pb := (apkPathbuilderSetb c.pb ((adbRoBlob adb c.path adbiDiName).getD [])).2 }

section

variable (file : FileCallback χ)

/-- `apk_extract_v3_file` without a stream -/
def extractV3Null (c : ExtractV3 χ) : ℤ × ExtractV3 χ :=
  match v3FileInfo env adb c.file (apkPathbuilderCstr c.pb) with
  | none => (-apkeAdbSchema, c)
  | some fi =>
    match file.null c.user fi with
    | (r, user) => (r, c.called user ⟨.file c.curPath c.curFile, fi, none, r⟩)

/-- what `apk_extract_v3_file` does after the callback had the verifying stream, which shares its buffer
with the stream of the data block -/
def verifiedCall {τ : Type} (iops : IstreamOps τ) (c : ExtractV3 χ) (fi : V3FileInfo) (blk : V3Block)
    (is : Istream τ) (out : ℤ × χ × Istream (DigestStream τ)) : ℤ × ExtractV3 χ × Istream τ :=
  let r := apkIstreamCloseError (digestOps iops crypto) out.2.2 out.1
  (r, c.called out.2.1 ⟨.file c.curPath c.curFile, fi, some blk, r⟩,
    { is with buf := out.2.2.buf, src := out.2.2.src.pis })

/-- `apk_extract_v3_file` with the stream of a data block. The stream handed on is a verifying one;
only what is a link or a device would be given the stream itself. -/
def extractV3Stream {τ : Type} (iops : IstreamOps τ) (c : ExtractV3 χ) (blk : V3Block)
    (is : Istream τ) : ℤ × ExtractV3 χ × Istream τ :=
  match v3FileInfo env adb c.file (apkPathbuilderCstr c.pb) with
  | none => (-apkeAdbSchema, c, is)
  | some fi =>
    if (adbRoBlob adb c.file adbiFiTarget).isSome then
      match file.stream τ iops c.user fi is with
      | (r, user, is) => (r, c.called user ⟨.file c.curPath c.curFile, fi, some blk, r⟩, is)
    else
      verifiedCall crypto iops c fi blk is (file.stream (DigestStream τ) (digestOps iops crypto) c.user fi
          (apkIstreamVerify is fi.size fi.digestAlg fi.digest))

def apkExtractV3Directory (c : ExtractV3 χ) : ℤ × ExtractV3 χ :=
  match v3DirInfo env adb c.path (apkPathbuilderCstr c.pb) with
  | none => (-apkeAdbSchema, c)
  | some fi =>
    match file.null c.user fi with
    | (r, user) => (r, c.called user ⟨.dir c.curPath, fi, none, r⟩)

/-- The loop of `apk_extract_v3_next_file` over the files of a directory, with the number of rounds
that are left; a result leaves both loops. -/
def filesLoop : ℕ → ExtractV3 χ → Option ℤ × ExtractV3 χ
  | 0, c => (none, c)
  | n + 1, c =>
    let c := { c with file := adbRoObj adb c.files c.curFile }
    let push := apkPathbuilderPushb c.pb ((adbRoBlob adb c.file adbiFiName).getD [])
    let c := { c with pb := push.2 }
    if adbRoInt adb c.file adbiFiSize ≠ 0 ∧ adbRoBlob adb c.file adbiFiTarget = none then (some 0, c)
    else
      match extractV3Null env adb file c with
      | (r, c) =>
        if r ≠ 0 then (some r, c)
        else
          filesLoop n { c with pb := apkPathbuilderPop c.pb push.1, curFile := c.curFile + 1 }

/-- the call for a directory before its first file; the one for the root is left out -/
def directoryStep (c : ExtractV3 χ) : ℤ × ExtractV3 χ :=
  if c.pb.namelen ≠ 0 ∧ c.curFile = adbiFirst then apkExtractV3Directory env adb file c else (0, c)

/-- one round of the loop of `apk_extract_v3_next_file` over the directories -/
def pathStep (c : ExtractV3 χ) : Option ℤ × ExtractV3 χ :=
  match directoryStep env adb file (pathLoad adb c) with
  | (r, c) =>
    if r ≠ 0 then (some r, c) else filesLoop env adb file (adbRaNum c.files + 1 - c.curFile) c

/-- the loop over the directories, with the number of rounds that are left -/
def pathsLoop : ℕ → ExtractV3 χ → ℤ × ExtractV3 χ
  | 0, c => (1, c)
  | n + 1, c =>
    match pathStep env adb file c with
    | (some r, c) => (r, c)
    | (none, c) => pathsLoop n { c with curPath := c.curPath + 1, curFile := adbiFirst }

end

variable (ops : ExtractOps χ)

/-- `apk_extract_v3_next_file`: 0 at a file that needs a data block, 1 at the end. Without `ops->file`
the first call cancels the extraction, so that there is no other. -/
def apkExtractV3NextFile (v3meta : χ → Bytes → AdbObj → ℤ × χ) (c : ExtractV3 χ) : ℤ × ExtractV3 χ :=
  if c.curPath = 0 then
    let pkg := adbRRootobj adb
    match v3meta c.user adb pkg with
    | (r, user) =>
      let c := { c with curPath := adbiFirst, curFile := adbiFirst, user := user }
      if r < 0 then (r, c)
      else
        let c := { c with paths := adbRoObj adb pkg adbiPkgPaths }
        match ops.file with
        | none => (-ecanceled, c)
        | some file => pathsLoop env adb file (adbRaNum c.paths + 1 - c.curPath) c
  else
    let c := { c with curFile := c.curFile + 1 }
    let c :=
      if adbRaNum c.files < c.curFile then { c with curPath := c.curPath + 1, curFile := adbiFirst }
      else c
    match ops.file with
    | none => (-ecanceled, c)
    | some file => pathsLoop env adb file (adbRaNum c.paths + 1 - c.curPath) c

/-- what `apk_extract_v3_data_block` does with the stream once the next file is known -/
def extractV3Data {τ : Type} (iops : IstreamOps τ) (file : FileCallback χ) (c : ExtractV3 χ)
    (len : ℕ) (is : Istream τ) : ℤ × ExtractV3 χ × Istream τ :=
  match apkIstreamGet iops is 8 with
  | (.error e, is) => (e, c, is)
  | (.ok hdr, is) =>
    let blk : V3Block := ⟨leNat (hdr.take 4), leNat (hdr.drop 4), (len + 2 ^ 64 - 8) % 2 ^ 64⟩
    if blk.pathIdx ≠ c.curPath ∨ blk.fileIdx ≠ c.curFile ∨
        blk.size ≠ adbRoInt adb c.file adbiFiSize then
      (-apkeAdbBlock, c, is)
    else extractV3Stream env crypto adb file iops c blk is

/-- `apk_extract_v3_data_block`, the callback of the reader -/
def apkExtractV3DataBlock : AdbCallback (ExtractV3 χ) := fun _ iops c db blk is =>
  let adb := db.adb.getD []
  if adbBlockType blk ≠ adbBlockData then (0, c, is)
  else if db.schema ≠ adbSchemaPackage then (-apkeAdbSchema, c, is)
  else
    match ops.v3meta with
    | none => (-apkeFormatNotSupported, c, is)
    | some v3meta =>
      match apkExtractV3NextFile env adb ops v3meta c with
      | (r, c) =>
        if r ≠ 0 then (if 0 < r then -apkeAdbBlock else r, c, is)
        else
          match ops.file with
          | none => (-ecanceled, c, is)
          | some file => extractV3Data env crypto adb iops file c (adbBlockLength blk) is

variable {σ : Type}

/-- `apk_extract_v3` after the container has been read without an error; a package whose `v3meta` is
a null pointer has no result -/
def extractV3End (rd : AdbReader (ExtractV3 χ)) : Option ℤ × AdbReader (ExtractV3 χ) :=
  let adb := rd.db.adb.getD []
  if rd.db.schema = adbSchemaPackage then
    match ops.v3meta with
    | none => (none, rd)
    | some v3meta =>
      match apkExtractV3NextFile env adb ops v3meta rd.cbs with
      | (r, c) => (some (if r = 0 then -apkeAdbBlock else if r = 1 then 0 else r), { rd with cbs := c })
  else if rd.db.schema = adbSchemaIndex then
    match ops.v3index with
    | none => (some (-apkeFormatNotSupported), rd)
    | some v3index =>
      match v3index rd.cbs.user adb (adbRRootobj adb) with
      | (r, user) => (some r, { rd with cbs := { rd.cbs with user := user } })
  else (some (-apkeAdbSchema), rd)

/-- the last lines of `apk_extract_v3` -/
def extractV3Result (r : ℤ) (db : Adb) : ℤ :=
  let r := if r = -ecanceled then 0 else r
  if r = 0 ∧ db.adb.getD [] = [] then -apkeAdbBlock else r

/-- `apk_extract_v3`, with the reader at its end. Its own state is that of the callback. -/
def apkExtractV3 (t : Option (Trust K)) (ectx : Option ExtractCtx) (iops : IstreamOps σ)
    (is : Istream σ) (beyond : Bytes) (fuel : ℕ) (user : χ) :
    Option ℤ × AdbReader (ExtractV3 χ) :=
  if ops.v3meta.isNone ∧ ops.v3index.isNone then
    (some (apkIstreamCloseError iops is (-apkeFormatNotSupported)),
      AdbReader.init t 0 (ExtractV3.new user))
  else
    match adbMProcess crypto t ectx (apkExtractV3DataBlock env crypto ops) iops is beyond 0 fuel
        (ExtractV3.new user) with
    | (none, rd) => (none, rd)
    | (some r, rd) =>
      match if r = 0 then extractV3End env ops rd else (some r, rd) with
      | (none, rd) => (none, rd)
      | (some r, rd) => (some (extractV3Result r rd.db), rd)

end

end Alpine

import Alpine.Spec.Dep
import Alpine.Spec.Install

/-! The text of the installed database: `apk_db_fdb_write` and `apk_db_fdb_read` of `database.c`,
with the header and the dependencies of `package.c` and the numbers and digests of `blob.c`. An atom
is its bytes, and the empty list is `apk_atom_null`. A blob that is pushed to is what it holds so
far, or `none` once it is NULL. The arrays of directories and files are lists in the order of the
text: that they are sorted for searching changes nothing else. -/

namespace Alpine

def xd (d : ℕ) : UInt8 := UInt8.ofNat (if d < 10 then 48 + d else 87 + d)

/-- the loop of `apk_blob_push_uint`, which fills its 64 bytes from the end -/
def uintLoop (radix : ℕ) : ℕ → ℕ → Bytes → Bytes
  | 0, _, acc => acc
  | room + 1, value, acc =>
    if value = 0 then acc else uintLoop radix room (value / radix) (xd (value % radix) :: acc)

def uintText (value radix : ℕ) : Bytes :=
  if value = 0 then [asc '0'] else uintLoop radix 64 value []

def b64encode (i : UInt8) : UInt8 :=
  if i < 26 then asc 'A' + i
  else if i < 52 then asc 'a' + (i - 26)
  else if i < 62 then asc '0' + (i - 52)
  else if i = 62 then asc '+'
  else asc '/'

/-- `apk_blob_push_base64` -/
def base64Text : Bytes → Bytes
  | [] => []
  | [a] => [b64encode (a >>> 2), b64encode ((a &&& 0x03) <<< 4), asc '=', asc '=']
  | [a, b] =>
    [b64encode (a >>> 2), b64encode (((a &&& 0x03) <<< 4) ||| ((b &&& 0xf0) >>> 4)),
      b64encode ((b &&& 0x0f) <<< 2), asc '=']
  | a :: b :: c :: rest =>
    b64encode (a >>> 2) :: b64encode (((a &&& 0x03) <<< 4) ||| ((b &&& 0xf0) >>> 4)) ::
      b64encode (((b &&& 0x0f) <<< 2) ||| ((c &&& 0xc0) >>> 6)) :: b64encode (c &&& 0x3f) ::
      base64Text rest

/-- `apk_blob_push_hash`, which knows digests of 20 bytes only -/
def digestText (hash : Bytes) : Option Bytes :=
  if hash.length = 20 then some ([asc 'Q', asc '1'] ++ base64Text hash) else none

def apkVersionOpString (op : ℕ) : Bytes :=
  let op := op &&& 0xef
  if op = apkVersionLess then [asc '<']
  else if op = apkVersionLess ||| apkVersionEqual then [asc '<', asc '=']
  else if op = apkVersionLess ||| apkVersionEqual ||| apkVersionFuzzy then [asc '<', asc '~']
  else if op = apkVersionEqual ||| apkVersionFuzzy then [asc '~']
  else if op = apkVersionFuzzy then [asc '~']
  else if op = apkVersionEqual then [asc '=']
  else if op = apkVersionGreater ||| apkVersionEqual then [asc '>', asc '=']
  else if op = apkVersionGreater ||| apkVersionEqual ||| apkVersionFuzzy then [asc '>', asc '~']
  else if op = apkVersionGreater then [asc '>']
  else if op = apkDepmaskChecksum then [asc '>', asc '<']
  else if op = apkDepmaskAny then []
  else [asc '?']

/-- the pieces that `apk_blob_push_dep` pushes; `tags` is `none` without a database -/
def depPieces (tags : Option (List Bytes)) (dep : Dependency Bytes) : List Bytes :=
  (if apkDepConflict dep then [[asc '!']] else []) ++ [cstr dep.name] ++
    (match tags with
      | some table => if dep.repositoryTag ≠ 0 then [table.getD dep.repositoryTag []] else []
      | none => []) ++
    -- the blob of an atom is never NULL
    [apkVersionOpString dep.op, dep.version.getD []]

/-- `apk_dep_parse`: name, operator and version -/
def apkDepParse (spec : Bytes) : Option (Bytes × ℕ × Option Bytes) :=
  let conflict := spec.head? = some (asc '!')
  let op := if conflict then apkVersionConflict else 0
  let spec := if conflict then spec.drop 1 else spec
  let name := spec.takeWhile fun c => !apkCtype .dependencyComparer c
  let bop := spec.dropWhile fun c => !apkCtype .dependencyComparer c
  if bop = [] then some (spec, op ||| apkDepmaskAny, none)
  else
    let r := apkBlobSpn bop .dependencyComparer
    if r.2 = [] then none
    else if apkVersionResultMaskBlob r.1 = 0 then none
    else some (name, op ||| apkVersionResultMaskBlob r.1, some r.2)

variable (st : FdbState) (c : Char) (tags : List Bytes) (b : Bytes) (p : FdbPackage) (i : IpkgInfo)

/-- `apk_blob_pull_dep` where no tag is allowed: the dependency and the rest -/
def apkBlobPullDep : Option (Dependency Bytes × Bytes) :=
  let bdep := b.takeWhile fun c => !apkCtype .dependencySeparator c
  let rest := b.dropWhile fun c => !apkCtype .dependencySeparator c
  (apkDepParse bdep).bind fun p =>
    if (apkBlobSplit p.1 (asc '@')).isSome then none
    else
      let broken := p.2.1 &&& apkDepmaskChecksum ≠ apkDepmaskChecksum ∧
        !p.2.2.any apkVersionValidate
      some (⟨p.1, p.2.2, p.2.1, broken, 0, 0⟩, (apkBlobSpn rest .dependencySeparator).2)

/-- the loop of `apk_blob_pull_deps`: whether all of it is read, else the blob is NULL, and the
dependencies that are added. Each round takes at least one byte -/
def pullDepsLoop : ℕ → Bytes → Bool × List (Dependency Bytes)
  | 0, _ => (true, [])
  | room + 1, b =>
    if b = [] then (true, [])
    else
      match apkBlobPullDep b with
      | none => (false, [])
      | some (dep, b) =>
        let r := pullDepsLoop room b
        (r.1, dep :: r.2)

def apkBlobPullDeps : Bool × List (Dependency Bytes) := pullDepsLoop b.length b

/-- the result of `apk_blob_pull_deps` is 0 -/
def depsOk (r : Bool × List (Dependency Bytes)) : Bool := r.1 && r.2.all (!·.broken)

/-- `struct apk_package`, the fields of the header other than name, version and hash -/
structure PkgInfo where
  arch : Bytes
  size : ℕ
  installedSize : ℕ
  description : Bytes
  url : Bytes
  license : Bytes
  origin : Bytes
  maintainer : Bytes
  buildTime : ℕ
  commit : Bytes
  providerPriority : ℕ
  depends : List (Dependency Bytes)
  provides : List (Dependency Bytes)
  installIf : List (Dependency Bytes)
  tags : List Bytes
  deriving DecidableEq

/-- `struct apk_installed_package` without its directories -/
structure IpkgInfo where
  replaces : List (Dependency Bytes)
  replacesPriority : ℕ
  repositoryTag : ℕ
  brokenFiles : Bool
  brokenScript : Bool
  brokenXattr : Bool
  sha256_160 : Bool
  deriving DecidableEq

structure FdbFile extends DbFile where
  name : Bytes
  audited : Bool
  deriving DecidableEq

structure FdbDir where
  name : Bytes
  acl : Acl
  files : List FdbFile
  deriving DecidableEq

structure FdbPackage where
  hash : Bytes
  name : Bytes
  version : Bytes
  info : PkgInfo
  ipkg : IpkgInfo
  diris : List FdbDir
  deriving DecidableEq

/-- `apk_blob_push_blob` into a buffer of the given size; a piece that is `none` makes it NULL -/
def pushPiece (size : ℕ) (bbuf piece : Option Bytes) : Option Bytes :=
  bbuf.bind fun b => piece.bind fun p => if b.length + p.length ≤ size then some (b ++ p) else none

def pushPieces (size : ℕ) (bbuf : Option Bytes) (pieces : List (Option Bytes)) : Option Bytes :=
  pieces.foldl (pushPiece size) bbuf

def ln : Bytes := [asc '\n']

/-- a field of the header that is left out if it is empty -/
def fieldPieces (value : Bytes) : List (Option Bytes) :=
  if value = [] then [] else [some [asc '\n', asc c, asc ':'], some value]

/-- a number that is left out if it is zero -/
def numberPieces (value : ℕ) : List (Option Bytes) :=
  if value = 0 then [] else [some [asc '\n', asc c, asc ':'], some (uintText value 10)]

def headerPieces : List (Option Bytes) :=
  [some [asc 'C', asc ':'], digestText p.hash, some [asc '\n', asc 'P', asc ':'], some (cstr p.name),
    some [asc '\n', asc 'V', asc ':'], some p.version] ++
  fieldPieces 'A' p.info.arch ++
  [some [asc '\n', asc 'S', asc ':'], some (uintText p.info.size 10),
    some [asc '\n', asc 'I', asc ':'], some (uintText p.info.installedSize 10),
    some [asc '\n', asc 'T', asc ':'], some p.info.description,
    some [asc '\n', asc 'U', asc ':'], some p.info.url,
    some [asc '\n', asc 'L', asc ':'], some p.info.license] ++
  fieldPieces 'o' p.info.origin ++ fieldPieces 'm' p.info.maintainer ++
  numberPieces 't' p.info.buildTime ++ fieldPieces 'c' p.info.commit ++
  numberPieces 'k' p.info.providerPriority ++ [some ln]

/-- `apk_deps_write`: each dependency goes through a buffer of 256 bytes; a separator stands before
it once something is written -/
def depsWrite : List (Dependency Bytes) → Bytes → Option Bytes
  | [], os => some os
  | dep :: deps, os =>
    (pushPieces 256 (some [])
      ((if os = [] then [] else [some [asc ' ']]) ++ (depPieces none dep).map some)).bind fun b =>
        depsWrite deps (os ++ b)

def writeDepends (deps : List (Dependency Bytes)) : Option Bytes :=
  if deps = [] then some [] else (depsWrite deps []).map fun b => [asc c, asc ':'] ++ b ++ ln

def apkPkgWriteIndexHeader : Option Bytes :=
  (pushPieces 2048 (some []) (headerPieces p)).bind fun h =>
    (writeDepends 'D' p.info.depends).bind fun d =>
      (writeDepends 'p' p.info.provides).bind fun v =>
        (writeDepends 'i' p.info.installIf).map fun i => h ++ d ++ v ++ i

/-- `write_blobs` for the tags -/
def tagsText : Bytes :=
  if tags = [] then [] else [asc 'g', asc ':'] ++ [asc ' '].intercalate tags ++ ln

/-- `apk_blob_push_db_acl` -/
def aclPieces (acl : Acl) : List (Option Bytes) :=
  [some [asc c, asc ':'], some (uintText acl.uid 10), some [asc ':'], some (uintText acl.gid 10),
    some [asc ':'], some (uintText acl.mode 8)] ++
  (if acl.xattrHash ≠ [] then [some [asc ':'], digestText acl.xattrHash] else []) ++ [some ln]

/-- `apk_blob_push_deps`: the pieces with a blank before each but the first -/
def depsPieces : List (Dependency Bytes) → List Bytes
  | [] => []
  | dep :: deps =>
    depPieces (some tags) dep ++ deps.flatMap fun d => [asc ' '] :: depPieces (some tags) d

/-- the lines `r:`, `q:`, `s:` and `f:` -/
def ipkgPieces : List (Option Bytes) :=
  (if i.replaces ≠ [] then
    some [asc 'r', asc ':'] :: (depsPieces tags i.replaces).map some ++ [some ln] else []) ++
  (if i.replacesPriority ≠ 0 then
    [some [asc 'q', asc ':'], some (uintText i.replacesPriority 10), some ln] else []) ++
  (if i.repositoryTag ≠ 0 then
    -- the plain name is the tag without its `@`
    [some [asc 's', asc ':'], some ((tags.getD i.repositoryTag []).drop 1), some ln] else []) ++
  (if i.brokenFiles ∨ i.brokenScript ∨ i.brokenXattr ∨ i.sha256_160 then
    [some [asc 'f', asc ':']] ++ (if i.brokenFiles then [some [asc 'f']] else []) ++
      (if i.brokenScript then [some [asc 's']] else []) ++
      (if i.brokenXattr then [some [asc 'x']] else []) ++
      (if i.sha256_160 then [some [asc 'S']] else []) ++ [some ln] else [])

/-- the size of the buffer of `apk_db_fdb_write` -/
def fdbBufSize : ℕ := 1024 + 4096

def dirPieces (d : FdbDir) : List (Option Bytes) :=
  -- the length of the name is an `unsigned short`
  [some [asc 'F', asc ':'], some (d.name.take (d.name.length % 2 ^ 16)), some ln] ++
    (if d.acl ≠ apkDefaultAclDir then aclPieces 'M' d.acl else [])

def filePieces (f : FdbFile) : List (Option Bytes) :=
  -- the length of the name is an `unsigned char`
  [some [asc 'R', asc ':'], some (f.name.take (f.name.length % 2 ^ 8)), some ln] ++
    (if f.acl ≠ apkDefaultAclFile then aclPieces 'a' f.acl else []) ++
    (if f.digestAlg ≠ apkDigestNone then [some [asc 'Z', asc ':'], digestText f.digest, some ln]
      else [])

/-- the files of a directory, each through the emptied buffer -/
def writeFiles : List FdbFile → Option Bytes
  | [] => some []
  | f :: files =>
    if f.audited then writeFiles files
    else
      (pushPieces fdbBufSize (some []) (filePieces f)).bind fun b =>
        (writeFiles files).map fun t => b ++ t

/-- the directories; the buffer `bbuf` that is filled so far goes out with the first of them -/
def writeDiris : Option Bytes → List FdbDir → Option Bytes
  | _, [] => some []
  | bbuf, d :: diris =>
    (pushPieces fdbBufSize bbuf (dirPieces d)).bind fun b =>
      (writeFiles d.files).bind fun t =>
        (writeDiris (some []) diris).map fun t' => b ++ t ++ t'

/-- `apk_db_fdb_write`: the text, unless a buffer is too small. `tags` is the table of tags -/
def apkDbFdbWrite : Option Bytes :=
  (apkPkgWriteIndexHeader p).bind fun h =>
    (writeDiris (pushPieces fdbBufSize (some []) (ipkgPieces tags p.ipkg)) p.diris).map fun t =>
      h ++ tagsText p.info.tags ++ t ++ ln

/-- `struct apk_package_tmpl` -/
structure Tmpl where
  id : Bytes
  name : Option Bytes
  version : Option Bytes
  info : PkgInfo

/-- `apk_pkgtmpl_reset` -/
def emptyTmpl : Tmpl := ⟨[], none, none, ⟨[], 0, 0, [], [], [], [], [], 0, [], 0, [], [], [], []⟩⟩

/-- a directory instance while it is read; its files are in the hash of files -/
structure Diri where
  name : Bytes
  acl : Acl
  files : List Bytes

/-- a package that is read, or that is being read -/
structure ReadPackage where
  hash : Bytes
  name : Bytes
  version : Bytes
  info : PkgInfo
  ipkg : IpkgInfo
  diris : List Diri

structure FdbState where
  tmpl : Tmpl
  ipkg : Option (IpkgInfo × List Diri)
  /-- the name of the current directory instance -/
  diri : Option Bytes
  /-- the directory and the name of the current file -/
  file : Option (Bytes × Bytes)
  /-- the hash of installed files -/
  files : List ((Bytes × Bytes) × DbFile)
  packages : List ReadPackage
  repoTags : List Bytes
  forceOldApk : Bool
  /-- what the digest of an identity holds after a text that does not decode -/
  held : Bytes → ℕ → UInt8

/-- the bytes of an identity that a package takes after a text that does not decode: the algorithm and
the length that the first two letters give stay set -/
def undecodedId (held : Bytes → ℕ → UInt8) (value : Bytes) : Bytes :=
  match value with
  | encoding :: kind :: _ =>
    if (encoding = asc 'X' ∨ encoding = asc 'Q') ∧ (kind = asc '1' ∨ kind = asc '2') then
      (List.range 20).map (held value)
    else []
  | _ => []

/-- `apk_pkgtmpl_add_info`: 0, 1 for the entries of the installed database, 2 for what is not
understood, or negative -/
def apkPkgtmplAddInfo (held : Bytes → ℕ → UInt8) (t : Tmpl) (field : UInt8) (value : Bytes) : ℤ × Tmpl :=
  if field = asc 'P' then (0, { t with name := some value })
  else if field = asc 'V' then (0, { t with version := some value })
  else if field = asc 'T' then (0, { t with info := { t.info with description := value } })
  else if field = asc 'U' then (0, { t with info := { t.info with url := value } })
  else if field = asc 'L' then (0, { t with info := { t.info with license := value } })
  else if field = asc 'A' then (0, { t with info := { t.info with arch := value } })
  else if field = asc 'D' then
    let r := apkBlobPullDeps value
    (if depsOk r then 0 else 2, { t with info := { t.info with depends := t.info.depends ++ r.2 } })
  else if field = asc 'C' then
    match apkBlobPullDigest value with
    | some d => (0, { t with id := d.2.1 })
    | none => (-apkeV2pkgFormat, { t with id := undecodedId held value })
  else if field = asc 'S' then
    (0, { t with info := { t.info with size := (apkBlobPullUint value 10).1 } })
  else if field = asc 'I' then
    (0, { t with info := { t.info with installedSize := (apkBlobPullUint value 10).1 } })
  else if field = asc 'p' then
    let r := apkBlobPullDeps value
    (if depsOk r then 0 else 2, { t with info := { t.info with provides := t.info.provides ++ r.2 } })
  else if field = asc 'i' then
    let r := apkBlobPullDeps value
    -- a rule with an error is disabled as a whole
    (if depsOk r then 0 else 2,
      { t with info := { t.info with installIf := if depsOk r then t.info.installIf ++ r.2 else [] } })
  else if field = asc 'o' then (0, { t with info := { t.info with origin := value } })
  else if field = asc 'm' then (0, { t with info := { t.info with maintainer := value } })
  else if field = asc 't' then
    (0, { t with info := { t.info with buildTime := (apkBlobPullUint value 10).1 } })
  else if field = asc 'c' then (0, { t with info := { t.info with commit := value } })
  else if field = asc 'k' then
    (0, { t with info := { t.info with
      providerPriority := (apkBlobPullUint value 10).1 % 2 ^ 16 } })
  else if field ∈ [asc 'F', asc 'M', asc 'R', asc 'Z', asc 'r', asc 'q', asc 'a', asc 's', asc 'f',
      asc 'g'] then (1, t)
  else (2, t)

def apkBlobPullChar (c : Char) : Option Bytes :=
  if b.head? = some (asc c) then some (b.drop 1) else none

/-- the ACL of a line `M:` or `a:` -/
def pullAcl (l : Bytes) : Option Acl :=
  let uid := apkBlobPullUint l 10
  (apkBlobPullChar uid.2 ':').bind fun l =>
    let gid := apkBlobPullUint l 10
    (apkBlobPullChar gid.2 ':').bind fun l =>
      let mode := apkBlobPullUint l 8
      let acl := fun hash : Bytes =>
        (⟨mode.1 % 2 ^ 32 &&& 0o7777, uid.1 % 2 ^ 32, gid.1 % 2 ^ 32, hash⟩ : Acl)
      match apkBlobPullBlobMatch mode.2 [asc ':'] with
      | some l => (apkBlobPullDigest l).map fun d => acl d.2.1
      | none => some (acl [])

/-- `apk_db_get_tag_id`: the index of the tag in the table, which has room for 16 -/
def apkDbGetTagId (table : List Bytes) (tag : Bytes) : ℤ × List Bytes :=
  let full := if tag.head? = some (asc '@') then tag else asc '@' :: tag
  match (table.drop 1).findIdx? (· = full) with
  | some i => (i + 1, table)
  | none => if table.length ≥ 16 then (-1, table) else (table.length, table ++ [full])

/-- the flags of a line `f:`; a letter that is not known is an error unless forced -/
def readFlags (force : Bool) : Bytes → IpkgInfo → Option IpkgInfo
  | [], i => some i
  | c :: l, i =>
    if c = asc 'f' then readFlags force l { i with brokenFiles := true }
    else if c = asc 's' then readFlags force l { i with brokenScript := true }
    else if c = asc 'x' then readFlags force l { i with brokenXattr := true }
    else if c = asc 'S' then readFlags force l { i with sha256_160 := true }
    else if force then readFlags force l i
    else none

def emptyIpkg : IpkgInfo := ⟨[], 0, 0, false, false, false, false⟩

/-- `apk_blob_foreach_word` -/
def words (l : Bytes) : List Bytes := (l.splitOnP (· = asc ' ')).filter (· ≠ [])

def FdbState.mapFile (key : Bytes × Bytes) (f : DbFile → DbFile) : FdbState :=
  { st with files := st.files.map fun e => if e.1 = key then (e.1, f e.2) else e }

def mapDiri (name : Bytes) (f : Diri → Diri) (diris : List Diri) : List Diri :=
  diris.map fun d => if d.name = name then f d else d

/-- the digest of a line `Z:`, which is taken for a cut SHA-256 if the package says so -/
def fileDigest (sha256_160 : Bool) (d : ℕ × Bytes × Bytes) (file : DbFile) : DbFile :=
  apkDbfDigestSet file (if d.1 = apkDigestSha1 ∧ sha256_160 then apkDigestSha256_160 else d.1) d.2.1

/-- the entries of the installed database; `none` for an entry that is refused -/
def fdbEntry (diris : List Diri) (field : UInt8) (l : Bytes) (r : ℤ) : Option FdbState :=
  if field = asc 'g' then
    some { st with tmpl := { st.tmpl with info :=
      { st.tmpl.info with tags := st.tmpl.info.tags ++ words l } } }
  else if field = asc 'F' then
    if st.tmpl.name = none then none
    else if diris.any (·.name = l) then some { st with diri := some l }
    else
      let name := apkBlobTrimEnd l (asc '/')
      some { st with ipkg := some (i, diris ++ [⟨name, apkDefaultAclDir, []⟩]), diri := some name }
  else if field = asc 'a' then
    match st.file, st.diri with
    | some file, some _ => (pullAcl l).map fun acl => st.mapFile file fun f => { f with acl := acl }
    | _, _ => none
  else if field = asc 'M' then
    match st.diri with
    | some dir => (pullAcl l).map fun acl =>
        { st with ipkg := some (i, mapDiri dir (fun d => { d with acl := acl }) diris) }
    | none => none
  else if field = asc 'R' then
    match st.diri with
    | some dir =>
      if st.files.any (·.1 = (dir, l)) then some { st with file := some (dir, l) }
      else
        some { st with
          ipkg := some (i, mapDiri dir (fun d => { d with files := d.files ++ [l] }) diris)
          files := st.files ++ [((dir, l), ⟨apkDefaultAclFile, apkDigestNone, [], false⟩)]
          file := some (dir, l) }
    | none => none
  else if field = asc 'Z' then
    match st.file with
    | some file => (apkBlobPullDigest l).map fun d =>
        st.mapFile file (fileDigest i.sha256_160 d)
    | none => none
  else if field = asc 'r' then
    let rs := apkBlobPullDeps l
    if rs.1 then
      some { st with ipkg := some ({ i with replaces := i.replaces ++ rs.2 }, diris) }
    else none
  else if field = asc 'q' then
    some { st with ipkg := some ({ i with
      replacesPriority := (apkBlobPullUint l 10).1 % 2 ^ 16 }, diris) }
  else if field = asc 's' then
    let t := apkDbGetTagId st.repoTags l
    some { st with ipkg := some ({ i with repositoryTag := (t.1 % 2 ^ 6).toNat }, diris)
                   repoTags := t.2 }
  else if field = asc 'f' then
    (readFlags st.forceOldApk l i).map fun i => { st with ipkg := some (i, diris) }
  else if r ≠ 0 ∧ !st.forceOldApk then none
  else some st

/-- `apk_db_pkg_add`, which needs a name, a version and 20 bytes of identity; a package that is
there already only gets the new size -/
def apkDbPkgAdd (diris : List Diri) : Option FdbState :=
  match st.tmpl.name, st.tmpl.version with
  | some name, some version =>
    if st.tmpl.id.length < 20 then none
    else
      let hash := st.tmpl.id.take 20
      let packages :=
        if st.packages.any (·.hash = hash) then
          st.packages.map fun p => if p.hash = hash then
            { p with info := { p.info with size := st.tmpl.info.size } } else p
        else st.packages ++ [⟨hash, name, version, st.tmpl.info, i, diris⟩]
      some { st with packages := packages, tmpl := emptyTmpl, ipkg := none, diri := none }
  | _, _ => none

/-- one line of `apk_db_fdb_read` on the installed database -/
def fdbLine : Bytes → Option FdbState
  | field :: colon :: l =>
    if colon ≠ asc ':' then none
    else
      let r := apkPkgtmplAddInfo st.held st.tmpl field l
      let st := { st with tmpl := r.2 }
      if r.1 = 0 then some st
      else
        match st.ipkg with
        | some (i, diris) => fdbEntry st i diris field l r.1
        | none =>
          if r.1 = 1 then fdbEntry { st with ipkg := some (emptyIpkg, []) } emptyIpkg [] field l r.1
          else some st
  | _ =>
    if st.tmpl.name = none then some st
    else
      match st.ipkg with
      | some (i, diris) => apkDbPkgAdd st i diris
      | none => apkDbPkgAdd st emptyIpkg []

/-- `apk_db_fdb_read`. The last line is what follows the last separator; a line that the buffer of the
stream does not hold ends the loop with an error, unless one before it has -/
def apkDbFdbRead (text : Bytes) : Option FdbState :=
  let lines := text.splitOnP (· = asc '\n')
  if fittingLines 0 lines = lines then lines.foldlM fdbLine st else none

/-- one line of `apk_db_fdb_read` on the index of a repository, which passes over what it does not
understand -/
def indexLine : Bytes → Option FdbState
  | field :: colon :: l =>
    if colon ≠ asc ':' then none
    else some { st with tmpl := (apkPkgtmplAddInfo st.held st.tmpl field l).2 }
  | _ => if st.tmpl.name = none then some st else apkDbPkgAdd st emptyIpkg []

/-- `apk_db_index_read`; the packages have what an installation without files gives them -/
def apkDbIndexRead (text : Bytes) : Option FdbState :=
  (text.splitOnP (· = asc '\n')).foldlM indexLine st

/-- the database that has read nothing -/
def emptyFdb (force : Bool) : FdbState :=
  ⟨emptyTmpl, none, none, none, [], [], tags, force, fun _ _ => 0⟩

/-- the packages with their files -/
def FdbState.result : List FdbPackage :=
  st.packages.map fun p =>
    ⟨p.hash, p.name, p.version, p.info, p.ipkg, p.diris.map fun d =>
      ⟨d.name, d.acl, d.files.filterMap fun n =>
        (st.files.lookup (d.name, n)).map fun f => ⟨f, n, false⟩⟩⟩

end Alpine

import Alpine.Spec.Adb

/-! Installing the entries of an archive (`apk_db_install_file` in `database.c`): the check of the
name, the bookkeeping of directories and files, and the paths that reach the file system. Which
package replaces which, the answers of the file system and the digest of a link target come from
elsewhere and are parameters. -/

namespace Alpine

/-- `PATH_MAX` of Linux -/
def pathMax : ℕ := 4096

def sIfmt : ℕ := 0o170000
def sIfdir : ℕ := 0o040000
def sIfreg : ℕ := 0o100000
def sIflnk : ℕ := 0o120000

/-- `struct apk_file_info`, the fields that the installation reads -/
structure FileInfo where
  name : Bytes
  linkTarget : Option Bytes
  size : ℕ
  uid : ℕ
  gid : ℕ
  mode : ℕ
  digestAlg : ℕ
  digest : Bytes
  xattrDigest : Bytes

def FileInfo.isDir (ae : FileInfo) : Bool := ae.mode &&& sIfmt = sIfdir
def FileInfo.isReg (ae : FileInfo) : Bool := ae.mode &&& sIfmt = sIfreg
def FileInfo.isLnk (ae : FileInfo) : Bool := ae.mode &&& sIfmt = sIflnk

/-- `struct apk_db_acl` -/
structure Acl where
  mode : ℕ
  uid : ℕ
  gid : ℕ
  xattrHash : Bytes
  deriving DecidableEq, Repr

def apkDefaultAclDir : Acl := ⟨0o755, 0, 0, []⟩
def apkDefaultAclFile : Acl := ⟨0o644, 0, 0, []⟩

def apkDbAclAtomizeDigest (ae : FileInfo) : Acl :=
  ⟨ae.mode &&& 0o7777, ae.uid, ae.gid, ae.xattrDigest⟩

/-- `struct apk_db_file`; `digest` is what `apk_dbf_digest_blob` shows of the 20 bytes -/
structure DbFile where
  acl : Acl
  digestAlg : ℕ
  digest : Bytes
  broken : Bool
  deriving DecidableEq, Repr

def apkDbfDigestSet (file : DbFile) (alg : ℕ) (data : Bytes) : DbFile :=
  if apkDigestAlgLen alg > 20 then { file with digestAlg := apkDigestNone, digest := [] }
  else { file with digestAlg := alg, digest := data.take (apkDigestAlgLen alg) }

def containsControlCharacter (str : Bytes) : Bool := str.any fun c => c < 0x20 ∨ c = 0x7f

def strstr (needle : Bytes) : Bytes → Bool
  | [] => needle.isEmpty
  | c :: s => needle.isPrefixOf (c :: s) || strstr needle s

/-- the names that are ignored with a warning; `strncmp` skips the first byte of the two texts -/
def maliciousName (name : Bytes) : Bool :=
  name.head? = some (asc '/') || containsControlCharacter name ||
    [asc '.', asc '/'].isPrefixOf name || [asc '.', asc '.', asc '/'].isPrefixOf name ||
    strstr [asc '/', asc '.', asc '/'] name || strstr [asc '/', asc '.', asc '.', asc '/'] name

/-- a call that hands a path to the file system layer -/
inductive FsCall
  | extract (name : Bytes)
  | dirCreate (name : Bytes) (acl : Acl)
  | dirCheck (name : Bytes) (acl : Acl)
  | dirUpdatePerms (name : Bytes) (acl : Acl)
  deriving DecidableEq, Repr

def FsCall.path : FsCall → Bytes
  | .extract name | .dirCreate name _ | .dirCheck name _ | .dirUpdatePerms name _ => name

inductive Replaces
  | no | yes | conflict
  deriving DecidableEq, Repr

/-- the directory instance that owns a directory: the one of this installation, or one of another
package (`none` for the overlay) -/
inductive DirOwner (O : Type)
  | current
  | other (pkg : Option O) (acl : Acl)

structure DbDir (O : Type) where
  created : Bool
  permissionsOk : Bool
  modified : Bool
  owner : Option (DirOwner O)

/-- what the installation of `pkg` reads and does not change -/
structure InstallEnv (O : Type) where
  pkg : O
  replacesFile : Option O → Replaces
  replacesDir : Option O → Replaces
  forceOverwrite : Bool
  simulate : Bool
  usermode : Bool
  sha256_160 : Bool
  digestCalc : Bytes → Bytes
  fsExtract : FileInfo → ℤ
  fsdirCreate : Bytes → ℤ
  fsdirCheck : Bytes → ℤ
  fsdirUpdatePerms : Bytes → ℤ

structure InstallState (O : Type) where
  dirs : Bytes → DbDir O
  /-- the directory instances of this installation -/
  diris : List (Bytes × Acl)
  /-- their files: directory, name, file -/
  files : List (Bytes × Bytes × DbFile)
  /-- the hash of installed files, with the package that owns each -/
  installed : Bytes → Bytes → Option (Option O × DbFile)
  brokenFiles : Bool
  brokenXattr : Bool
  installedSize : ℕ
  numDirUpdateErrors : ℕ
  calls : List FsCall

variable {O : Type}

namespace InstallState

def setDir (st : InstallState O) (name : Bytes) (dir : DbDir O) : InstallState O :=
  { st with dirs := fun n => if n = name then dir else st.dirs n }

def call (st : InstallState O) (c : FsCall) : InstallState O := { st with calls := st.calls ++ [c] }

def hasDiri (st : InstallState O) (name : Bytes) : Bool := st.diris.any (·.1 = name)

end InstallState

/-- `apk_db_dir_get_mode` on the mode of an ACL -/
def apkDbDirGetMode (env : InstallEnv O) (acl : Acl) : Acl :=
  if env.usermode then { acl with mode := acl.mode ||| 0o300 } else acl

def enoent : ℤ := 2
def apkeNotExtracted : ℤ := 1086
def apkExtractwXattr : ℕ := 0x0008

def apkDbDirMkdir (env : InstallEnv O) (name : Bytes) (acl : Acl) (st : InstallState O) :
    InstallState O :=
  let ok := fun st : InstallState O => st.setDir name { st.dirs name with permissionsOk := true }
  if env.simulate then ok st
  else
    let st := st.call (.dirCreate name (apkDbDirGetMode env acl))
    if env.fsdirCreate name = 0 then ok st else st

/-- the directory above, as `apk_db_dir_get` finds it -/
def dirParent (name : Bytes) : Bytes :=
  match apkBlobRsplit name (asc '/') with
  | some lr => apkBlobTrimEnd lr.1 (asc '/')
  | none => []

/-- the part of `apk_db_dir_prepare` after the directory above is there -/
def dirCheckOrCreate (env : InstallEnv O) (name : Bytes) (expectedAcl : Option Acl) (newAcl : Acl)
    (st : InstallState O) : InstallState O :=
  match expectedAcl with
  | none => apkDbDirMkdir env name newAcl st
  | some acl =>
    let st := st.call (.dirCheck name (apkDbDirGetMode env acl))
    if env.fsdirCheck name = -enoent then apkDbDirMkdir env name newAcl st
    else if env.fsdirCheck name = 0 then
      st.setDir name { st.dirs name with permissionsOk := true }
    else st

/-- `apk_db_dir_prepare`; the name above is shorter, so the length of the name bounds the depth -/
def apkDbDirPrepare (env : InstallEnv O) : ℕ → Bytes → Option Acl → Acl → InstallState O → InstallState O
  | 0, _, _, _, st => st
  | depth + 1, name, expectedAcl, newAcl, st =>
    if name = [] then st
    else if (st.dirs name).created then st
    else
      let st := st.setDir name { st.dirs name with created := true }
      let st :=
        if (st.dirs (dirParent name)).created then st
        else apkDbDirPrepare env depth (dirParent name) (some apkDefaultAclDir) apkDefaultAclDir st
      dirCheckOrCreate env name expectedAcl newAcl st

def apkDbDirUpdatePermissions (env : InstallEnv O) (name : Bytes) (acl : Acl)
    (st : InstallState O) : InstallState O :=
  if !(st.dirs name).permissionsOk then st
  else if env.simulate then st
  else
    let st := st.setDir name { st.dirs name with modified := true }
    let st := st.call (.dirUpdatePerms name (apkDbDirGetMode env acl))
    if env.fsdirUpdatePerms name ≠ 0 then
      { st with numDirUpdateErrors := st.numDirUpdateErrors + 1 }
    else st

/-- `dir->owner->acl`, where the instance of this installation has the ACL `acl` -/
def DirOwner.aclOr (acl : Acl) : DirOwner O → Acl
  | .current => acl
  | .other _ acl' => acl'

/-- `apk_pkg_replaces_dir` of the owner and this package, which replaces itself -/
def DirOwner.replacedBy (env : InstallEnv O) : DirOwner O → Replaces
  | .current => .yes
  | .other pkg _ => env.replacesDir pkg

def apkDbDirApplyDiriPermissions (env : InstallEnv O) (name : Bytes) (acl : Acl)
    (st : InstallState O) : InstallState O :=
  let own := fun st : InstallState O => st.setDir name { st.dirs name with owner := some .current }
  match (st.dirs name).owner with
  | none => own st
  | some o =>
    if o.replacedBy env ≠ .yes then st
    else own (if o.aclOr acl ≠ acl then apkDbDirUpdatePermissions env name acl st else st)

/-- `apk_db_diri_get` followed by the assignment of the ACL -/
def setDiri (name : Bytes) (acl : Acl) (st : InstallState O) : InstallState O :=
  { st with diris := (name, acl) :: st.diris.filter (·.1 ≠ name) }

def installDir (env : InstallEnv O) (ae : FileInfo) (st : InstallState O) : InstallState O :=
  let name := apkBlobTrimEnd ae.name (asc '/')
  let acl := apkDbAclAtomizeDigest ae
  let st := setDiri name acl st
  let expectedAcl := (st.dirs name).owner.map (·.aclOr acl)
  let st := apkDbDirApplyDiriPermissions env name acl st
  let newAcl := ((st.dirs name).owner.map (·.aclOr acl)).getD acl
  apkDbDirPrepare env (name.length + 1) name expectedAcl newAcl st

/-- the directory, null without a separator, and the rest -/
def splitPath (name : Bytes) : Option Bytes × Bytes :=
  match apkBlobRsplit name (asc '/') with
  | some lr => (some lr.1, lr.2)
  | none => (none, name)

/-- `apk_db_ipkg_find_file`; among files of one name the search takes any -/
def apkDbIpkgFindFile (st : InstallState O) (path : Bytes) : Option DbFile :=
  let dir := (splitPath path).1.getD []
  if st.hasDiri dir then
    (st.files.find? fun f => f.1 = dir ∧ f.2.1 = (splitPath path).2).map (·.2.2)
  else none

/-- the digest that is kept of an extracted file -/
def extractedDigest (env : InstallEnv O) (ae : FileInfo) (linkTargetFile : Option DbFile)
    (file : DbFile) : DbFile :=
  let file :=
    match linkTargetFile with
    | some target =>
      if env.sha256_160 then apkDbfDigestSet file ae.digestAlg ae.digest
      else apkDbfDigestSet file target.digestAlg target.digest
    | none => apkDbfDigestSet file ae.digestAlg ae.digest
  if env.sha256_160 ∧ ae.isLnk then
    apkDbfDigestSet file apkDigestSha256_160 (env.digestCalc (ae.linkTarget.getD []))
  else if file.digestAlg = apkDigestNone ∧ ae.digestAlg = apkDigestSha256 then
    apkDbfDigestSet file apkDigestSha256_160 ae.digest
  else file

/-- the file, the return value and the two flags of the package after `apk_fs_extract` -/
def afterExtract (env : InstallEnv O) (ae : FileInfo) (linkTargetFile : Option DbFile)
    (file : DbFile) : DbFile × ℤ × Bool × Bool :=
  let r := env.fsExtract ae
  if r ≥ 0 then
    let xattr : Bool := r.toNat &&& apkExtractwXattr ≠ 0
    (extractedDigest env ae linkTargetFile file, 0, decide (r > 0) && !xattr, decide (r > 0) && xattr)
  else if r = -apkeNotExtracted then ({ file with broken := true }, 0, false, false)
  else ({ file with broken := true }, if r = -enospc then r else 0, true, false)

/-- a file that this package has installed before is changed in place, any other gets a new entry -/
def putFile [DecidableEq O] (env : InstallEnv O) (dir name : Bytes)
    (old : Option (Option O × DbFile)) (file : DbFile) (st : InstallState O) : InstallState O :=
  if old.map (·.1) = some (some env.pkg) then
    let key := apkBlobTrimEnd dir (asc '/')
    { st with installed := fun d n =>
        if d = key ∧ n = name then some (some env.pkg, file) else st.installed d n }
  else { st with files := (dir, name, file) :: st.files }

def addInstalledSize (ae : FileInfo) (st : InstallState O) : InstallState O :=
  -- `ROUND_UP` to 4096 on `uint64_t`
  let size := (ae.size + 4095) % 2 ^ 64 / 4096 * 4096
  { st with installedSize := (st.installedSize + size) % 2 ^ 64 }

def extractFile [DecidableEq O] (env : InstallEnv O) (ae : FileInfo)
    (linkTargetFile : Option DbFile) (dir name : Bytes) (old : Option (Option O × DbFile))
    (st : InstallState O) : ℤ × InstallState O :=
  let file :=
    match old with
    | some (owner, f) =>
      if owner = some env.pkg then f else ⟨apkDefaultAclFile, apkDigestNone, [], false⟩
    | none => ⟨apkDefaultAclFile, apkDigestNone, [], false⟩
  let res := afterExtract env ae linkTargetFile { file with acl := apkDbAclAtomizeDigest ae }
  let st := putFile env dir name old res.1 (st.call (.extract ae.name))
  (res.2.1, addInstalledSize ae
    { st with brokenFiles := st.brokenFiles || res.2.2.1,
              brokenXattr := st.brokenXattr || res.2.2.2 })

def markBroken (st : InstallState O) : InstallState O := { st with brokenFiles := true }

/-- the owner of the file decides whether it is extracted; a conflict falls through to the return -/
def replaceFile [DecidableEq O] (env : InstallEnv O) (ae : FileInfo)
    (linkTargetFile : Option DbFile) (dir name : Bytes) (st : InstallState O) :
    ℤ × InstallState O :=
  let old := st.installed (apkBlobTrimEnd dir (asc '/')) name
  match old with
  | none => extractFile env ae linkTargetFile dir name old st
  | some (opkg, _) =>
    match env.replacesFile opkg with
    | .conflict =>
      if env.forceOverwrite then extractFile env ae linkTargetFile dir name old st
      else (0, markBroken st)
    | .no => (0, st)
    | .yes => extractFile env ae linkTargetFile dir name old st

/-- a hard link needs its target among the files of this package -/
def linkOrFile [DecidableEq O] (env : InstallEnv O) (ae : FileInfo) (dir name : Bytes)
    (st : InstallState O) : ℤ × InstallState O :=
  match if ae.isReg then ae.linkTarget else none with
  | none => replaceFile env ae none dir name st
  | some target =>
    match apkDbIpkgFindFile st target with
    | none => (0, markBroken st)
    | some f => replaceFile env ae (some f) dir name st

def installFile [DecidableEq O] (env : InstallEnv O) (ae : FileInfo) (st : InstallState O) :
    ℤ × InstallState O :=
  let dir := (splitPath ae.name).1.getD []
  let name := (splitPath ae.name).2
  if st.hasDiri dir then linkOrFile env ae dir name st
  else if (splitPath ae.name).1 ≠ none then (0, markBroken st)
  else linkOrFile env ae dir name (setDiri dir apkDefaultAclDir st)

def apkDbInstallFile [DecidableEq O] (env : InstallEnv O) (ae : FileInfo) (st : InstallState O) :
    ℤ × InstallState O :=
  if maliciousName ae.name then (0, markBroken st)
  else if ae.isDir then (0, addInstalledSize ae (installDir env ae st))
  else installFile env ae st

/-- the entries of an archive one after the other, up to the first error -/
def installFiles [DecidableEq O] (env : InstallEnv O) :
    List FileInfo → InstallState O → ℤ × InstallState O
  | [], st => (0, st)
  | ae :: aes, st =>
    if (apkDbInstallFile env ae st).1 ≠ 0 then apkDbInstallFile env ae st
    else installFiles env aes (apkDbInstallFile env ae st).2

end Alpine

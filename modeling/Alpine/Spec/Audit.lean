import Alpine.Spec.Install

/-! The applet `audit` (`app_audit.c`) run without directory arguments: the walk over the tree of
the file system, which marks directories as modified and files as audited, and the sweep over the
installed files that follows it. `fnmatch` is a parameter, and a tree shows what `fstatat`,
`openat` and `readdir` answer at each of its places. -/

namespace Alpine

/-- a name that `readdir` can give, other than `.` and `..` -/
structure FsName where
  bytes : Bytes
  ne_nil : bytes ≠ []
  no_slash : asc '/' ∉ bytes

/-- the part of `struct apk_file_info` that is compared and printed; `mode` is the lower 12 bits -/
structure StatInfo where
  mode : ℕ
  uid : ℕ
  gid : ℕ
  digestAlg : ℕ
  digest : Bytes
  xattrAlg : ℕ
  xattrDigest : Bytes
  deriving DecidableEq, Repr

mutual

/-- an entry of a directory: `apk_fileinfo_get` fails for `noStat`; a `file` is everything that is
no directory, and `hashed` is whether `apk_fileinfo_get` succeeds for a digest and an xattr algorithm,
and what it leaves behind -/
inductive Node
  | noStat
  | dir (fi : StatInfo) (opens : Bool) (entries : Entries)
  | file (fi : StatInfo) (hashed : ℕ → ℕ → Bool × StatInfo) (symlink : Option Bytes)

inductive Entries
  | nil
  | cons (name : FsName) (node : Node) (rest : Entries)

end

inductive ProtectMode
  | none | ignore | changed | symlinksOnly | all
  deriving DecidableEq, Repr

/-- `apk_protect_mode_none` -/
def ProtectMode.isNone (mode : ProtectMode) : Bool := mode = .none ∨ mode = .ignore

structure ProtectedPath where
  relativePattern : Bytes
  protectMode : ProtectMode
  deriving DecidableEq, Repr

/-- `struct apk_db_dir`, the part that the audit reads; `refs` is an `unsigned short` -/
structure AuditDir where
  refs : ℕ
  modified : Bool
  protectMode : ProtectMode
  hasProtectedChildren : Bool
  protectedPaths : List ProtectedPath
  ownerAcl : Option Acl
  deriving DecidableEq

/-- `struct apk_db_file` in the hash of installed files; the overlay's files have no package -/
structure AuditFile (O : Type) extends DbFile where
  dir : Bytes
  name : Bytes
  pkg : Option O
  audited : Bool

inductive AuditMode
  | backup | system | full
  deriving DecidableEq, Repr

/-- `struct audit_ctx` with what the database and the program give and the audit only reads -/
structure AuditEnv (O : Type) where
  mode : AuditMode
  verbosity : ℤ
  recursive : Bool
  checkPermissions : Bool
  packagesOnly : Bool
  ignoreBusyboxSymlinks : Bool
  details : Bool
  usermode : Bool
  apknewSuffix : Bytes
  protectedPaths : List ProtectedPath
  fnmatch : Bytes → Bytes → Bool
  brokenXattr : O → Bool

/-- a line of the output; `file` is the installed file it is about, which is not printed -/
inductive AuditLine (O : Type)
  | package (pkg : O)
  | path (bfull : Bytes)
  | reason (c : Char) (bfull : Bytes) (file : Option (Bytes × Bytes))
      (dbAcl : Option (Acl × Bytes)) (fi : Option StatInfo)

structure AuditState (O : Type) where
  dirs : Bytes → Option AuditDir
  files : List (AuditFile O)
  /-- `pkg->state_int` -/
  seen : O → Bool
  output : List (AuditLine O)

variable {O : Type}

def AuditState.setDir (st : AuditState O) (name : Bytes) (d : AuditDir) : AuditState O :=
  { st with dirs := fun n => if n = name then some d else st.dirs n }

def AuditState.print (st : AuditState O) (line : AuditLine O) : AuditState O :=
  { st with output := st.output ++ [line] }

def AuditFile.isAt (dir name : Bytes) (f : AuditFile O) : Bool := f.dir = dir ∧ f.name = name

/-- `apk_db_file_query` -/
def auditFileQuery (st : AuditState O) (bdir bent : Bytes) : Option (AuditFile O) :=
  st.files.find? (AuditFile.isAt (apkBlobTrimEnd bdir (asc '/')) bent)

def markAudited (bdir bent : Bytes) (st : AuditState O) : AuditState O :=
  { st with files := st.files.map fun f =>
      if f.isAt (apkBlobTrimEnd bdir (asc '/')) bent then { f with audited := true } else f }

/-- the name after the last separator -/
def relativeName (name : Bytes) : Bytes :=
  match apkBlobRsplit name (asc '/') with
  | some lr => lr.2
  | none => name

/-- one protected path seen from a directory: what it says about the directory itself, or about
what is below it -/
def protectStep (env : AuditEnv O) (name : Bytes) (d : AuditDir) (ppath : ProtectedPath) : AuditDir :=
  let children := fun d : AuditDir =>
    { d with hasProtectedChildren := d.hasProtectedChildren || !ppath.protectMode.isNone }
  match apkBlobSplit ppath.relativePattern (asc '/') with
  | some lr =>
    if env.fnmatch lr.1 (relativeName name) then
      children { d with protectedPaths := d.protectedPaths ++ [⟨lr.2, ppath.protectMode⟩] }
    else d
  | none =>
    if env.fnmatch ppath.relativePattern (relativeName name) then
      children { d with protectMode := ppath.protectMode }
    else d

def emptyDir : AuditDir := ⟨0, false, .none, false, [], none⟩

/-- the fields of a directory that gets its first reference, from those of the one above -/
def protectFrom (env : AuditEnv O) (name : Bytes) (parent : AuditDir) (d : AuditDir) : AuditDir :=
  match apkBlobRsplit name (asc '/') with
  | some _ =>
    parent.protectedPaths.foldl (protectStep env name)
      { d with protectMode := parent.protectMode,
               hasProtectedChildren := !parent.protectMode.isNone, protectedPaths := [] }
  | none => env.protectedPaths.foldl (protectStep env name) { d with protectedPaths := [] }

/-- `apk_db_dir_get`; the name above is shorter, so the length of the name bounds the depth -/
def auditDirGet (env : AuditEnv O) : ℕ → Bytes → AuditState O → AuditState O
  | 0, _, st => st
  | depth + 1, name, st =>
    let d := (st.dirs name).getD emptyDir
    if (st.dirs name).isSome ∧ d.refs ≠ 0 then st.setDir name { d with refs := (d.refs + 1) % 2 ^ 16 }
    else if name = [] then st.setDir name { d with refs := 1, hasProtectedChildren := true }
    else
      let st := auditDirGet env depth (dirParent name) (st.setDir name { d with refs := 1 })
      st.setDir name
        (protectFrom env name ((st.dirs (dirParent name)).getD emptyDir) { d with refs := 1 })

/-- `apk_db_dir_unref`; a directory without references has lost its parent, which no directory of
an opened database has -/
def auditDirUnref : ℕ → Bytes → AuditState O → AuditState O
  | 0, _, st => st
  | depth + 1, name, st =>
    match st.dirs name with
    | none => st
    | some d =>
      let st := st.setDir name { d with refs := (d.refs + (2 ^ 16 - 1)) % 2 ^ 16 }
      if (d.refs + (2 ^ 16 - 1)) % 2 ^ 16 ≠ 0 ∨ name = [] then st
      else auditDirUnref depth (dirParent name) st

/-- the line of the details on what the database has -/
def reportedAcl (env : AuditEnv O) (c : Char) (dir : Option AuditDir)
    (file : Option (AuditFile O)) : Option (Acl × Bytes) :=
  if !env.details then none
  else
    match file with
    | some f => some (f.acl, f.digest)
    | none =>
      if c = 'D' ∨ c = 'd' then none else (dir.bind (·.ownerAcl)).map fun acl => (acl, [])

def reportAudit (env : AuditEnv O) (reason : Option Char) (bfull : Bytes) (dir : Option AuditDir)
    (file : Option (AuditFile O)) (fi : Option StatInfo) [DecidableEq O] (st : AuditState O) :
    AuditState O :=
  match reason with
  | none => st
  | some c =>
    if env.packagesOnly then
      match file.bind (·.pkg) with
      | none => st
      | some pkg =>
        if st.seen pkg then st
        else { st.print (.package pkg) with seen := fun p => p = pkg || st.seen p }
    else if env.verbosity < 1 then st.print (.path bfull)
    else
      st.print (.reason c bfull (file.map fun f => (f.dir, f.name))
        (reportedAcl env c dir file) (if env.details then fi else none))

def determineFileProtectMode (env : AuditEnv O) (dir : AuditDir) (name : Bytes) : ProtectMode :=
  dir.protectedPaths.foldl (fun mode ppath =>
    if asc '/' ∉ ppath.relativePattern ∧ env.fnmatch ppath.relativePattern name then
      ppath.protectMode
    else mode) dir.protectMode

def apkDigestAlgByLen (len : ℕ) : ℕ :=
  if len = 20 then apkDigestSha1
  else if len = 32 then apkDigestSha256
  else if len = 64 then apkDigestSha512
  else apkDigestNone

/-- the differences between the file on disk and the one in the database. A file of the overlay has
no package to ask for `broken_xattr`: the null pointer is the outer `none` -/
def compareFile (env : AuditEnv O) (f : AuditFile O) (symlink : Bool) (fi : StatInfo) :
    Option (Option Char) :=
  let permissions :=
    if env.checkPermissions then
      if fi.mode ≠ f.acl.mode &&& 0o7777 ∨ fi.uid ≠ f.acl.uid ∨ fi.gid ≠ f.acl.gid then some 'M'
      else none
    else none
  if fi.digestAlg ≠ f.digestAlg ∨ fi.digest ≠ f.digest then some (some 'U')
  else if symlink then
    if f.digestAlg = apkDigestNone then some (some 'U') else some permissions
  else
    match f.pkg with
    | none => none
    | some pkg =>
      if !env.brokenXattr pkg ∧ (fi.xattrAlg ≠ apkDigestAlgByLen f.acl.xattrHash.length ∨
          fi.xattrDigest ≠ f.acl.xattrHash) then some (some 'x')
      else some permissions

/-- `x ?: y` -/
def orElse (x y : ℕ) : ℕ := if x = 0 then y else x

/-- `audit_file`: the reason and the information on the file afterwards -/
def auditFile (env : AuditEnv O) (dbf : Option (AuditFile O)) (fi : StatInfo)
    (hashed : ℕ → ℕ → Bool × StatInfo) (symlink : Bool) : Option (Option Char × StatInfo) :=
  match dbf with
  | none =>
    if !env.details then some (some 'A', fi)
    else
      let r := hashed apkDigestSha256 apkDigestSha1
      some (some (if r.1 then 'A' else 'e'), r.2)
  | some f =>
    let r := hashed (orElse f.digestAlg apkDigestSha256)
      (orElse (apkDigestAlgByLen f.acl.xattrHash.length) apkDigestSha1)
    if !r.1 then some (some 'e', r.2)
    else (compareFile env f symlink r.2).map fun reason => (reason, r.2)

/-- `audit_directory`: the reason and the marked directory; `none` where the directory has
references and no owner, whose ACL is read -/
def auditDirectory (env : AuditEnv O) (d : AuditDir) (fi : StatInfo) : Option (Option Char × AuditDir) :=
  let d := { d with modified := true }
  if d.refs = 1 then some (some (if env.recursive then 'd' else 'D'), d)
  else
    match d.ownerAcl with
    | none => none
    | some acl =>
      if env.checkPermissions ∧
          (fi.mode ≠ acl.mode &&& 0o7777 ∨ fi.uid ≠ acl.uid ∨ fi.gid ≠ acl.gid) then
        some (some 'm', d)
      else some (none, d)

variable [DecidableEq O]

/-- what the walk does with a directory before it descends -/
inductive Entered (O : Type)
  | skip
  | child (st : AuditState O) (descend : Bool)

/-- the audit of a directory that the mode asks for, or only the report of none -/
def enterChild (env : AuditEnv O) (bfull : Bytes) (fi : StatInfo) (audit recurse : Bool)
    (d : AuditDir) (st : AuditState O) : Option (Entered O) :=
  let audited := if audit then auditDirectory env d fi else some (none, d)
  audited.map fun rd =>
    .child (reportAudit env rd.1 (bfull ++ [asc '/']) (some rd.2) none (some fi)
        (st.setDir bfull rd.2)) (rd.1 ≠ some 'D' && recurse)

def enterDir (env : AuditEnv O) (bfull : Bytes) (fi : StatInfo) (st : AuditState O) :
    Option (Entered O) :=
  match env.mode with
  | .backup =>
    let st := auditDirGet env (bfull.length + 1) bfull st
    let d := (st.dirs bfull).getD emptyDir
    enterChild env bfull fi (!d.protectMode.isNone) d.hasProtectedChildren d st
  | .system =>
    match st.dirs bfull with
    | none => some .skip
    | some d => enterChild env bfull fi true true { d with refs := (d.refs + 1) % 2 ^ 16 } st
  | .full =>
    let st := auditDirGet env (bfull.length + 1) bfull st
    let d := (st.dirs bfull).getD emptyDir
    enterChild env bfull fi (d.protectMode = .none) true d st

/-- the links of busybox to itself are not reported if they are in no package -/
def busyboxSymlink (target : Bytes) : Bool :=
  target = lit "/bin/busybox" ∨ target = lit "/bin/bbsuid" ∨ target = lit "/bin/busybox-extras"

/-- the reason that the mode gives before the file is looked at; `none` if it passes over it -/
def fileReason (env : AuditEnv O) (protectMode : ProtectMode) (symlink : Bool)
    (dbf : Option (AuditFile O)) (bent : Bytes) : Option (Option Char) :=
  match env.mode with
  | .full =>
    match protectMode with
    | .none => some none
    | .symlinksOnly => if symlink then none else some none
    | .ignore | .all | .changed => none
  | .backup =>
    let apknew := env.apknewSuffix <:+ bent
    match protectMode with
    | .none | .ignore => none
    | .changed => if dbf.isNone ∧ apknew then none else some none
    | .symlinksOnly =>
      if !symlink then none else if dbf.isNone ∧ apknew then none else some none
    | .all => if apknew then none else some (some 'A')
  | .system => if dbf.isNone ∨ !protectMode.isNone then none else some none

def auditFileItem (env : AuditEnv O) (bdir bent : Bytes) (fi : StatInfo)
    (hashed : ℕ → ℕ → Bool × StatInfo) (symlink : Option Bytes) (st : AuditState O) :
    Option (AuditState O) :=
  let dir := (st.dirs (apkBlobTrimEnd bdir (asc '/'))).getD emptyDir
  let protectMode := determineFileProtectMode env dir bent
  let dbf := auditFileQuery st bdir bent
  let st := markAudited bdir bent st
  match fileReason env protectMode symlink.isSome dbf bent with
  | none => some st
  | some reason =>
    if dbf.isNone ∧ env.ignoreBusyboxSymlinks ∧ symlink.any busyboxSymlink then some st
    else
      match reason with
      | some c => some (reportAudit env (some c) (bdir ++ bent) none dbf (some fi) st)
      | none =>
        (auditFile env dbf fi hashed symlink.isSome).map fun rf =>
          reportAudit env rf.1 (bdir ++ bent) none dbf (some rf.2) st

mutual

/-- `audit_directory_tree_item`; `none` is a read through a null pointer -/
def auditItem (env : AuditEnv O) (bdir bent : Bytes) : Node → AuditState O → Option (AuditState O)
  | .noStat, st =>
    if bdir.length + bent.length + 1 ≥ pathMax then some st
    else
      some (reportAudit env (some 'e') (bdir ++ bent) none (auditFileQuery st bdir bent) none
        (markAudited bdir bent st))
  | .file fi hashed symlink, st =>
    if bdir.length + bent.length + 1 ≥ pathMax then some st
    else auditFileItem env bdir bent fi hashed symlink st
  | .dir fi opens entries, st =>
    if bdir.length + bent.length + 1 ≥ pathMax then some st
    else
      (enterDir env (bdir ++ bent) fi st).bind fun entered =>
        match entered with
        | .skip => some st
        | .child st descend =>
          (if descend && opens then auditEntries env (bdir ++ bent ++ [asc '/']) entries st
            else some st).map
            (auditDirUnref ((bdir ++ bent).length + 1) (bdir ++ bent))

/-- `apk_dir_foreach_file` on the entries of a directory -/
def auditEntries (env : AuditEnv O) (bdir : Bytes) : Entries → AuditState O → Option (AuditState O)
  | .nil, st => some st
  | .cons name node rest, st =>
    (auditItem env bdir name.bytes node st).bind (auditEntries env bdir rest)

end

/-- `audit_directory_tree` from the root -/
def auditDirectoryTree (env : AuditEnv O) (root : Entries) (st : AuditState O) : Option (AuditState O) :=
  let st := auditDirGet env 1 [] st
  let st := st.setDir [] { (st.dirs []).getD emptyDir with modified := true }
  (auditEntries env [] root st).map (auditDirUnref 1 [])

/-- `DIR_FILE_FMT` -/
def dirFilePath (dir name : Bytes) : Bytes := if dir = [] then name else dir ++ asc '/' :: name

/-- `audit_missing_files`; `apk_blob_fmt` gives the null blob for a path that does not fit -/
def auditMissingFile (env : AuditEnv O) (st : AuditState O) (f : AuditFile O) : AuditState O :=
  let dir := (st.dirs f.dir).getD emptyDir
  let path := dirFilePath f.dir f.name
  if f.audited then st
  else if !dir.modified then st
  else if determineFileProtectMode env dir f.name = .ignore then st
  else reportAudit env (some 'X') (if path.length < pathMax then path else []) none (some f) none st

def enosys : ℤ := 38

/-- `audit_main` without arguments: an error, or the state after the audit -/
def auditMain (env : AuditEnv O) (root : Entries) (st : AuditState O) :
    Except ℤ (Option (AuditState O)) :=
  if env.usermode then .error (-enosys)
  else .ok <|
    (auditDirectoryTree env root st).map fun st =>
      if env.mode = .system ∨ env.mode = .full then st.files.foldl (auditMissingFile env) st
      else st

end Alpine

import Alpine.Spec.Codec

/-! File names of packages: the specification they are rendered from (`apk_blob_subst` with
`apk_pkg_subst`), the check of a specification, and the way back from a file name to a package
(`apk_db_get_pkg_by_name`). -/

namespace Alpine

def apkePackageNameSpec : ℤ := 1078

/-- the rounds of `apk_blob_subst`: `out` is what the buffer of `sz` bytes has so far. A value that
does not fit is an error also if it would be cut after that -/
def substLoop (sz : ℕ) (res : Bytes → Except ℤ Bytes) : ℕ → Bytes → Bytes → Except ℤ Bytes
  | 0, _, _ => .error (-apkeFormatInvalid)
  | room + 1, fmt, out =>
    match splitAtBlob [asc '$', asc '\x7b'] fmt with
    | none =>
      -- the terminating zero has to fit too
      if out.length + fmt.length + 1 ≤ sz then .ok (out ++ fmt) else .error (-apkeBufferSize)
    | some (literal, key) =>
      let out := out ++ literal
      if out.length > sz then .error (-apkeBufferSize)
      else
        match apkBlobSplit key (asc '\x7d') with
        | none => .error (-apkeFormatInvalid)
        | some (key, fmt) =>
          match apkBlobSplit key (asc ':') with
          | none => do
            let value ← res key
            if out.length + value.length > sz then .error (-apkeBufferSize)
            else substLoop sz res room fmt (out ++ value)
          | some (key, len) =>
            if (apkBlobPullUint len 10).2 ≠ [] then .error (-apkeFormatInvalid)
            else do
              let value ← res key
              if out.length + value.length > sz then .error (-apkeBufferSize)
              else substLoop sz res room fmt (out ++ value.take (apkBlobPullUint len 10).1)

/-- `apk_blob_subst`; each round takes a part of the format away -/
def apkBlobSubst (sz : ℕ) (fmt : Bytes) (res : Bytes → Except ℤ Bytes) : Except ℤ Bytes :=
  substLoop sz res (fmt.length + 1) fmt []

/-- `struct apk_package`, what the file name and the lookup read -/
structure NamedPkg where
  name : Bytes
  version : Bytes
  arch : Bytes
  digest : Bytes
  size : ℕ
  deriving DecidableEq

def apkPkgSubst (pkg : NamedPkg) (key : Bytes) : Except ℤ Bytes :=
  if apkBlobCompare key (lit "name") = 0 then .ok (cstr pkg.name)
  else if apkBlobCompare key (lit "version") = 0 then .ok pkg.version
  else if apkBlobCompare key (lit "arch") = 0 then .ok pkg.arch
  else if apkBlobCompare key (lit "hash") = 0 then .ok (hexText pkg.digest)
  else .error (-apkePackageNameSpec)

/-- the last piece of a specification -/
def nameFormat (spec : Bytes) : Bytes := (apkBlobRsplit spec (asc '/')).elim spec (·.2)

/-- the text `$`, `name` in braces -/
def nameVar : Bytes := [asc '$', asc '\x7b'] ++ lit "name" ++ [asc '\x7d']

def apkPkgSubstValidate (fmt : Bytes) : ℤ :=
  match apkBlobSubst 1024 fmt (apkPkgSubst ⟨lit "test", lit "1", lit "noarch", [], 0⟩) with
  | .error r => r
  | .ok _ =>
    let fmt := nameFormat fmt
    if !nameVar.isPrefixOf fmt then -apkePackageNameSpec
    -- `strchr` also finds the terminating zero
    else if fmt.length < 8 ∨ fmt.getD 7 0 ∉ [asc '_', asc '-', asc '.', 0] then -apkePackageNameSpec
    else 0

/-- the names of the database with their providers: a package provides its own name -/
structure NameTable where
  providers : Bytes → List NamedPkg
  own : ∀ name, ∀ p ∈ providers name, p ∈ providers p.name

/-- a provider that is named so, has the size and renders to the file name -/
def matchesFile (format name filename : Bytes) (filesize : ℕ) (pkg : NamedPkg) : Bool :=
  pkg.name = name && pkg.size = filesize &&
    match apkBlobSubst pathMax format (apkPkgSubst pkg) with
    | .ok b => apkBlobCompare filename b = 0
    | .error _ => false

/-- `apk_db_get_pkg_by_name`: all names that end before a separator are tried -/
def apkDbGetPkgByName (db : NameTable) (filename : Bytes) (filesize : ℕ) (spec : Bytes) :
    Option NamedPkg :=
  let format := nameFormat spec
  if !nameVar.isPrefixOf format then none
  else
    let splitChar := format.getD 7 0
    let format := if asc '/' ∈ filename then spec else format
    (List.range' 1 (filename.length - 1)).findSome? fun i =>
      if filename.getD i 0 ≠ splitChar then none
      else (db.providers (filename.take i)).find? (matchesFile format (filename.take i) filename filesize)

end Alpine

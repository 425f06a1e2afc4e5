import Alpine.Spec.Dep

/-! Configuration directories that override each other (`apk_dir_foreach_config_file` in `io.c`). -/

namespace Alpine

abbrev FileName := { name : Bytes // (0 : UInt8) ∉ name }

/-- a directory with its entries as they are listed, or none if it cannot be opened -/
structure ConfigDir where
  path : Bytes
  entries : Option (List FileName)
  nodup : (entries.getD []).Nodup

structure ApkAtfile where
  index : ℕ
  name : FileName

/-- `struct apk_dir_config`, with the directories that were opened -/
structure DirConfig where
  num : ℕ
  index : ℕ
  files : List ApkAtfile
  source : List ConfigDir

def apkAtfileCmp (a b : ApkAtfile) : ℤ := strcmp a.name.1 b.name.1

/-- `bsearch` of the C library, on an array with the items below the key in front and those above it
at the end -/
structure Bsearch where
  search : (ApkAtfile → ℤ) → List ApkAtfile → Option ApkAtfile
  finds : ∀ cmp items, items.Pairwise (fun a b => (cmp a < 0 → cmp b < 0) ∧ (0 < cmp b → 0 < cmp a)) →
    ((search cmp items).isSome ↔ ∃ x ∈ items, cmp x = 0)

variable (filter : Bytes → Bool) (bs : Bsearch)

/-- the names that `apk_dir_foreach_file` passes on -/
def ConfigDir.visible (d : ConfigDir) : List FileName :=
  (d.entries.getD []).filter fun name =>
    name.1 ≠ [asc '.'] ∧ name.1 ≠ [asc '.', asc '.'] ∧ filter name.1 = false

def apkDirConfigFileAmend (ctx : DirConfig) (name : FileName) : DirConfig :=
  let key : ApkAtfile := ⟨ctx.index, name⟩
  if (bs.search (apkAtfileCmp key) (ctx.files.take ctx.num)).isSome then ctx
  else { ctx with files := ctx.files ++ [key] }

def amendDir (ctx : DirConfig) (d : ConfigDir) : DirConfig :=
  let ctx := (d.visible filter).foldl (apkDirConfigFileAmend bs) { ctx with source := ctx.source ++ [d] }
  { ctx with index := ctx.index + 1, files := ctx.files.mergeSort fun a b => apkAtfileCmp a b ≤ 0 }

/-- the loop over the arguments; `none` when the assertion fails -/
def amendDirs : List ConfigDir → DirConfig → Option DirConfig
  | [], ctx => some ctx
  | d :: dirs, ctx =>
    if ctx.index < 8 then
      let ctx := { ctx with num := ctx.files.length }
      amendDirs dirs (if d.entries.isSome then amendDir filter bs ctx d else ctx)
    else none

variable (cb : List (ConfigDir × FileName) → ConfigDir → FileName → ℤ)

/-- the loop over the files, with the calls so far; `none` for a read behind the opened directories -/
def configCalls (source : List ConfigDir) :
    List ApkAtfile → List (ConfigDir × FileName) → Option (ℤ × List (ConfigDir × FileName))
  | [], calls => some (0, calls)
  | atf :: files, calls =>
    match source[atf.index]? with
    | none => none
    | some d =>
      let r := cb calls d atf.name
      if r ≠ 0 then some (r, calls ++ [(d, atf.name)])
      else configCalls source files (calls ++ [(d, atf.name)])

def apkDirForeachConfigFile (dirs : List ConfigDir) : Option (ℤ × List (ConfigDir × FileName)) :=
  (amendDirs filter bs dirs ⟨0, 0, [], []⟩).bind fun ctx => configCalls cb ctx.source ctx.files []

end Alpine

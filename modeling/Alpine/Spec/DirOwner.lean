import Alpine.Spec.Dep
import Alpine.Spec.Install

/-! Which of the packages that have a directory owns it: the rule of `apk_pkg_replaces_dir`, and how
the database applies it when an instance of the directory comes or goes (`apk_db_diri_remove`). What
the owner means for the permissions on disk is in the model of the installation. -/

namespace Alpine

/-- `struct apk_package` and its `struct apk_installed_package`, the fields that the rule reads.
Names and origins are interned: two pointers are equal when the texts are -/
structure DirPkg where
  name : Bytes
  origin : Bytes
  toBeRemoved : Bool
  replacesPriority : ℕ
  deriving DecidableEq

/-- `apk_pkg_replaces_dir`: whether `b` takes the directory from `a`. The overlay has no package -/
def apkPkgReplacesDir : Option DirPkg → Option DirPkg → Replaces
  | none, _ => .no
  | some _, none => .yes
  | some a, some b =>
    if a.name = b.name then .yes
    else if a.toBeRemoved then .yes
    else if b.toBeRemoved then .no
    else if a.replacesPriority > b.replacesPriority then .no
    else if a.replacesPriority < b.replacesPriority then .yes
    else if a.origin ≠ [] ∧ a.origin = b.origin ∧ apkBlobCompare a.origin (cstr a.name) = 0 then .no
    else if a.origin ≠ [] ∧ a.origin = b.origin ∧ apkBlobCompare b.origin (cstr b.name) = 0 then .yes
    else if strcmp a.name b.name ≤ 0 then .no
    else .yes

structure OwnedDir (I : Type) where
  owner : Option I
  diris : List I

namespace OwnedDir

variable {I : Type} (replaces : I → I → Replaces)

def applyDiriPermissions (dir : OwnedDir I) (diri : I) : OwnedDir I :=
  match dir.owner with
  | some o => if replaces o diri ≠ .yes then dir else { dir with owner := some diri }
  | none => { dir with owner := some diri }

def walkDiri (dir : OwnedDir I) (di : I) : OwnedDir I :=
  match dir.owner with
  | none => { dir with owner := some di }
  | some o => if replaces o di = .yes then { dir with owner := some di } else dir

/-- `apk_db_diri_remove`; an instance is in the list once -/
def diriRemove [DecidableEq I] (dir : OwnedDir I) (diri : I) : OwnedDir I :=
  let dir := { dir with diris := dir.diris.filter (· ≠ diri) }
  if dir.owner = some diri then dir.diris.foldl (walkDiri replaces) { dir with owner := none }
  else dir

end OwnedDir

def dirOwner (diris : List (Option DirPkg)) : Option (Option DirPkg) :=
  (diris.foldl (OwnedDir.applyDiriPermissions apkPkgReplacesDir) ⟨none, []⟩).owner

end Alpine

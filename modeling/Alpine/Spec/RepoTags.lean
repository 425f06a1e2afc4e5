import Alpine.Spec.DepText

/-! The repository tags of a database: what registers them while a database is opened (the world, the
lines `s:` of the installed packages, the repositories), and the check of the world
(`apk_db_check_world`). -/

namespace Alpine

/-- `struct apk_database`, its tags: `allowed` is `allowed_repos` of all 16 entries of `repo_tags` -/
structure TagDb where
  tags : List Bytes
  allowed : List ℕ
  installed : List ℕ
  world : List (Dependency Bytes)

def TagDb.init : TagDb := ⟨[[]], List.replicate 16 0, [], []⟩

/-- the files of a layer: the world if there is one (trimmed), the lines `s:` that are read of the
installed database, and the first error of that, of the triggers and of the scripts -/
structure TagLayer where
  world : Option Bytes
  installed : List Bytes
  others : ℤ

structure TagRepo where
  tag : Option Bytes
  -- the bits under which it is opened if it is available
  repos : ℕ

def TagDb.readWorld (db : TagDb) : Option Bytes → ℤ × TagDb
  | none => (-enoent, db)
  | some text =>
    let r := apkBlobPullDepsTag true db.tags text
    (r.1, { db with tags := r.2.2, world := db.world ++ r.2.1 })

def TagDb.readInstalled (db : TagDb) (l : Bytes) : TagDb :=
  let id := apkDbGetTagId db.tags l
  -- the field of the tag is 6 bits wide
  { db with tags := id.2, installed := db.installed ++ [(id.1 % 64).toNat] }

def TagDb.readLayer (db : TagDb) (layer : TagLayer) : ℤ × TagDb :=
  let r := db.readWorld layer.world
  -- after an error of the world the rest is still read
  (if r.1 ≠ 0 then r.1 else layer.others, layer.installed.foldl TagDb.readInstalled r.2)

def TagDb.addRepo (db : TagDb) (repo : TagRepo) : Option TagDb :=
  let id := repo.tag.elim (0, db.tags) (apkDbGetTagId db.tags)
  -- the code shifts by the number of a tag that was not registered
  if id.1 < 0 then none
  else some { db with tags := id.2, allowed := db.allowed.modify id.1.toNat (· ||| repo.repos) }

/-- what `apk_db_open` reads: an error of the root layer ends it, unless the database is to be created
and only the world is missing; that of another layer is passed over -/
def apkDbOpen (create : Bool) (root : TagLayer) (layers : List TagLayer) (repos : List TagRepo) :
    Option (ℤ × TagDb) :=
  let r := TagDb.init.readLayer root
  if r.1 ≠ 0 ∧ ¬ (r.1 = -enoent ∧ create) then some r
  else
    (repos.foldlM TagDb.addRepo (layers.foldl (fun db layer => (db.readLayer layer).2) r.2)).map fun db =>
      (0, db)

/-- `apk_db_check_world`: the dependencies that are reported with their tags. There are none where
the code reads behind `repo_tags` -/
def apkDbCheckWorld (force : Bool) (db : TagDb) : Option (List (Dependency Bytes × Bytes)) :=
  if force then some []
  else
    db.world.foldr (fun dep bad =>
      if dep.repositoryTag = 0 then bad
      else
        match db.allowed[dep.repositoryTag]? with
        | none => none
        | some repos =>
          if repos ≠ 0 then bad
          else bad.map ((dep, db.tags.getD dep.repositoryTag []) :: ·)) (some [])

end Alpine

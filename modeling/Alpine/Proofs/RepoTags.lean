import Alpine.Proofs.DepPrint
import Alpine.Spec.RepoTags

/-! The table of tags has room for 15 of them. While a database is opened each tag that is read is looked
up in turn; the stored numbers are those of entries exactly if no more than 15 different tags are read.
The next tag gets the number 63, without an error. -/

namespace Alpine

open List

/-- the numbers of tags that are looked up one after the other, and the table behind them -/
def tagIds : List Bytes → List Bytes → List ℤ × List Bytes
  | tags, [] => ([], tags)
  | tags, t :: ts =>
    let r := tagIds (apkDbGetTagId tags t).2 ts
    ((apkDbGetTagId tags t).1 :: r.1, r.2)

/-- the tags of a world -/
def worldTags : ℕ → Bytes → List Bytes
  | 0, _ => []
  | room + 1, b =>
    if b = [] then []
    else
      match apkDepParse (depToken b) with
      | none => []
      | some p => ((apkBlobSplit p.1 (asc '@')).map Prod.snd).toList ++ worldTags room (depRest b)

def TagLayer.tags (layer : TagLayer) : List Bytes :=
  layer.world.elim [] (fun text => worldTags text.length text) ++ layer.installed

def TagRepo.tags (repo : TagRepo) : List Bytes := repo.tag.toList

structure RepoTagTable (tags : List Bytes) : Prop where
  default : 0 < tags.length
  room : tags.length ≤ 16
  nodup : (tags.drop 1).Nodup

variable {tags ts : List Bytes} {b tag : Bytes} {db : TagDb} {i : ℤ}

/-- the number of an entry as it is stored -/
abbrev storedTag (i : ℤ) : ℕ := (i % 64).toNat

/-- a tag is in the table or is entered, or all entries are those of others -/
theorem RepoTagTable.getTagId (h : RepoTagTable tags) (tag : Bytes) {r : ℤ × List Bytes}
    (hr : apkDbGetTagId tags tag = r) :
    RepoTagTable r.2 ∧ tags.length ≤ r.2.length ∧
      (0 ≤ r.1 ∧ storedTag r.1 < r.2.length ∧
          (∀ t, t ∈ r.2.drop 1 ↔ t ∈ tags.drop 1 ∨ t = fullTag tag) ∨
        r.1 = -1 ∧ tags.length = 16 ∧ fullTag tag ∉ tags.drop 1) := by
  subst hr
  rw [apkDbGetTagId_eq]
  cases hfind : (tags.drop 1).findIdx? (· = fullTag tag) with
  | some i =>
    rw [Option.elim_some]
    obtain ⟨hi, htag, -⟩ := List.findIdx?_eq_some_iff_getElem.1 hfind
    have hmem : fullTag tag ∈ tags.drop 1 := of_decide_eq_true htag ▸ getElem_mem hi
    have hroom := h.room
    rw [length_drop] at hi
    refine ⟨h, le_rfl, Or.inl ⟨Int.natCast_nonneg _, ?_, fun t => ⟨Or.inl, ?_⟩⟩⟩
    · show (((i + 1 : ℕ) : ℤ) % 64).toNat < tags.length
      omega
    · rintro (ht | rfl)
      · exact ht
      · exact hmem
  | none =>
    rw [Option.elim_none]
    have hnew : fullTag tag ∉ tags.drop 1 := fun hmem =>
      absurd (List.findIdx?_eq_none_iff.1 hfind _ hmem) (by simp)
    have hdrop : (tags ++ [fullTag tag]).drop 1 = tags.drop 1 ++ [fullTag tag] :=
      drop_append_of_le_length h.default
    by_cases hfull : tags.length ≥ 16
    · simp only [if_pos hfull]
      exact ⟨h, le_rfl, Or.inr ⟨trivial, le_antisymm h.room hfull, hnew⟩⟩
    simp only [if_neg hfull]
    have hlen : (tags ++ [fullTag tag]).length = tags.length + 1 := length_append
    refine ⟨⟨by simp, by rw [hlen]; omega, ?_⟩, by simp, Or.inl ⟨Int.natCast_nonneg _, ?_, fun t => ?_⟩⟩
    · rw [hdrop]
      exact concat_eq_append ▸ h.nodup.concat hnew
    · show ((tags.length : ℤ) % 64).toNat < (tags ++ [fullTag tag]).length
      omega
    · rw [hdrop, mem_append, mem_singleton]

variable (ts) in
theorem RepoTagTable.tagIds (h : RepoTagTable tags) : RepoTagTable (tagIds tags ts).2 ∧
    tags.length ≤ (tagIds tags ts).2.length ∧
    ∀ i ∈ (tagIds tags ts).1, i = -1 ∨ 0 ≤ i ∧ storedTag i < (tagIds tags ts).2.length := by
  induction ts generalizing tags with
  | nil => exact ⟨h, le_rfl, nofun⟩
  | cons t ts ih =>
    obtain ⟨hnext, hle, hid⟩ := h.getTagId t rfl
    obtain ⟨hlast, hle', hids⟩ := ih hnext
    refine ⟨hlast, hle.trans hle', fun i hi => ?_⟩
    rcases mem_cons.1 hi with rfl | hi
    · rcases hid with ⟨h0, hlt, -⟩ | ⟨h1, -⟩
      · exact Or.inr ⟨h0, hlt.trans_le hle'⟩
      · exact Or.inl h1
    · exact hids i hi

variable (ts) in
/-- every tag gets an entry exactly if there are no more than 15 with those of the table -/
theorem RepoTagTable.tagIds_iff (h : RepoTagTable tags) : (∀ i ∈ (Alpine.tagIds tags ts).1, 0 ≤ i) ↔
    (tags.drop 1 ++ ts.map fullTag).toFinset.card ≤ 15 := by
  have htable : (tags.drop 1).toFinset.card ≤ 15 := by
    have := h.room
    rw [toFinset_card_of_nodup h.nodup, length_drop]
    omega
  induction ts generalizing tags with
  | nil => simpa [Alpine.tagIds] using htable
  | cons t ts ih =>
    obtain ⟨hnext, -, ⟨h0, -, hmem⟩ | ⟨h1, hfull, hnew⟩⟩ := h.getTagId t rfl
    · have hsame : ((apkDbGetTagId tags t).2.drop 1 ++ ts.map fullTag).toFinset =
          (tags.drop 1 ++ (t :: ts).map fullTag).toFinset := by
        ext x
        simp only [mem_toFinset, mem_append, hmem, map_cons, mem_cons]
        tauto
      have htable' : ((apkDbGetTagId tags t).2.drop 1).toFinset.card ≤ 15 := by
        have := hnext.room
        rw [toFinset_card_of_nodup hnext.nodup, length_drop]
        omega
      rw [Alpine.tagIds, forall_mem_cons, ← hsame]
      exact (and_iff_right h0).trans (ih hnext htable')
    · rw [Alpine.tagIds, forall_mem_cons, h1]
      refine iff_of_false (fun hall => absurd hall.1 (by decide)) (not_le.2 ?_)
      have hsub : insert (fullTag t) (tags.drop 1).toFinset ⊆
          (tags.drop 1 ++ (t :: ts).map fullTag).toFinset := by
        intro x hx
        simp only [Finset.mem_insert, mem_toFinset, mem_append, map_cons, mem_cons] at hx ⊢
        tauto
      have hcard := Finset.card_le_card hsub
      rw [Finset.card_insert_of_notMem (by rwa [mem_toFinset]), toFinset_card_of_nodup h.nodup,
        length_drop, hfull] at hcard
      exact hcard

theorem tagIds_append {us : List Bytes} : tagIds tags (ts ++ us) =
    ((tagIds tags ts).1 ++ (tagIds (tagIds tags ts).2 us).1, (tagIds (tagIds tags ts).2 us).2) := by
  induction ts generalizing tags with
  | nil => rfl
  | cons t ts ih => simp [tagIds, ih]

variable (tags) in
/-- a dependency is stored with the number of its tag -/
theorem apkBlobPullDepTag_stores {p : Bytes × ℕ × Option Bytes} (h : apkDepParse (depToken b) = some p) :
    ∃ d, apkBlobPullDepTag true tags b = (some (d, depRest b),
        (tagIds tags ((apkBlobSplit p.1 (asc '@')).map Prod.snd).toList).2) ∧
      ∀ n, 0 < n → (d.repositoryTag < n ↔
        ∀ i ∈ (tagIds tags ((apkBlobSplit p.1 (asc '@')).map Prod.snd).toList).1, storedTag i < n) := by
  unfold depToken at h
  simp only [apkBlobPullDepTag, h]
  cases apkBlobSplit p.1 (asc '@') with
  | none => exact ⟨_, rfl, fun n hn => by simp [tagIds, hn]⟩
  | some q => exact ⟨_, rfl, fun n _ => by simp [tagIds]⟩

theorem pullDepsTagLoop_ids {room : ℕ} :
    (pullDepsTagLoop true room tags b).2.2 = (tagIds tags (worldTags room b)).2 ∧
      ∀ n, 0 < n → ((∀ d ∈ (pullDepsTagLoop true room tags b).2.1, d.repositoryTag < n) ↔
        ∀ i ∈ (tagIds tags (worldTags room b)).1, storedTag i < n) := by
  induction room generalizing tags b with
  | zero => exact ⟨rfl, fun n _ => by simp [pullDepsTagLoop, worldTags, tagIds]⟩
  | succ room ih =>
    rw [pullDepsTagLoop, worldTags]
    by_cases hb : b = []
    · simp [hb, tagIds]
    simp only [if_neg hb]
    cases hparse : apkDepParse (depToken b) with
    | none =>
      unfold depToken at hparse
      simp [apkBlobPullDepTag, hparse, tagIds]
    | some p =>
      obtain ⟨d, hpull, hd⟩ := apkBlobPullDepTag_stores tags hparse
      obtain ⟨htags, hids⟩ := @ih _ (depRest b)
      simp only [hpull, tagIds_append, forall_mem_cons, forall_mem_append]
      exact ⟨htags, fun n hn => and_congr (hd n hn) (hids n hn)⟩

/-- all stored numbers are below a bound -/
def TagDb.Below (db : TagDb) (n : ℕ) : Prop :=
  (∀ d ∈ db.world, d.repositoryTag < n) ∧ ∀ t ∈ db.installed, t < n

/-- the tags are looked up, and their numbers are stored -/
structure TagDb.Stores (db db' : TagDb) (ts : List Bytes) : Prop where
  tags : db'.tags = (tagIds db.tags ts).2
  allowed : db'.allowed = db.allowed
  below : ∀ n, 0 < n → (db'.Below n ↔ db.Below n ∧ ∀ i ∈ (tagIds db.tags ts).1, storedTag i < n)

theorem TagDb.Stores.trans {db₁ db₂ : TagDb} {us : List Bytes} (h : db.Stores db₁ ts)
    (h' : db₁.Stores db₂ us) : db.Stores db₂ (ts ++ us) where
  tags := by rw [h'.tags, h.tags, tagIds_append]
  allowed := h'.allowed.trans h.allowed
  below n hn := by
    rw [h'.below n hn, h.below n hn, tagIds_append, h.tags, forall_mem_append, and_assoc]

theorem TagDb.Stores.refl (db : TagDb) : db.Stores db [] :=
  ⟨rfl, rfl, fun n _ => by simp [tagIds]⟩

theorem TagDb.stores_world (db : TagDb) (world : Option Bytes) :
    db.Stores (db.readWorld world).2 (world.elim [] fun text => worldTags text.length text) := by
  cases world with
  | none => exact .refl db
  | some text =>
    refine ⟨pullDepsTagLoop_ids.1, rfl, fun n hn => ?_⟩
    unfold Below
    simp only [readWorld, apkBlobPullDepsTag, forall_mem_append, pullDepsTagLoop_ids.2 n hn]
    exact and_right_comm

theorem TagDb.stores_installed (ls : List Bytes) (db : TagDb) :
    db.Stores (ls.foldl TagDb.readInstalled db) ls := by
  induction ls generalizing db with
  | nil => exact .refl db
  | cons l ls ih =>
    have hone : db.Stores (db.readInstalled l) [l] := by
      refine ⟨rfl, rfl, fun n _ => ?_⟩
      simp only [Below, readInstalled, tagIds, forall_mem_append, forall_mem_singleton, and_assoc]
    exact hone.trans (ih (db.readInstalled l))

theorem TagDb.stores_layers (layers : List TagLayer) (db : TagDb) :
    db.Stores (layers.foldl (fun db layer => (db.readLayer layer).2) db)
      (layers.flatMap TagLayer.tags) := by
  induction layers generalizing db with
  | nil => exact .refl db
  | cons layer layers ih =>
    refine TagDb.Stores.trans ?_ (ih (db.readLayer layer).2)
    exact (db.stores_world layer.world).trans (stores_installed layer.installed _)

/-- the repositories are added if their tags have entries -/
theorem TagDb.addRepos (repos : List TagRepo) (db : TagDb) :
    (∀ db', repos.foldlM TagDb.addRepo db = some db' →
      (∀ i ∈ (tagIds db.tags (repos.flatMap TagRepo.tags)).1, 0 ≤ i) ∧
      db'.tags = (tagIds db.tags (repos.flatMap TagRepo.tags)).2 ∧ db'.world = db.world ∧
      db'.installed = db.installed ∧ db'.allowed.length = db.allowed.length) ∧
    ((∀ i ∈ (tagIds db.tags (repos.flatMap TagRepo.tags)).1, 0 ≤ i) →
      ∃ db', repos.foldlM TagDb.addRepo db = some db') := by
  induction repos generalizing db with
  | nil =>
    refine ⟨fun db' h => ?_, fun _ => ⟨db, rfl⟩⟩
    cases h
    exact ⟨nofun, rfl, rfl, rfl, rfl⟩
  | cons repo repos ih =>
    have hid : repo.tag.elim (0, db.tags) (apkDbGetTagId db.tags) =
        (((tagIds db.tags repo.tags).1.headD 0), (tagIds db.tags repo.tags).2) := by
      cases h : repo.tag <;> simp [TagRepo.tags, h, tagIds]
    have hone : (∀ i ∈ (tagIds db.tags repo.tags).1, 0 ≤ i) ↔
        ¬ (tagIds db.tags repo.tags).1.headD 0 < 0 := by
      cases h : repo.tag <;> simp [TagRepo.tags, h, tagIds]
    rw [flatMap_cons, tagIds_append, foldlM_cons, forall_mem_append, hone]
    simp only [addRepo, hid]
    by_cases hneg : (tagIds db.tags repo.tags).1.headD 0 < 0
    · rw [if_pos hneg]
      exact ⟨nofun, fun h => absurd hneg h.1⟩
    · obtain ⟨hread, hadd⟩ := ih { db with
        tags := (tagIds db.tags repo.tags).2
        allowed := db.allowed.modify ((tagIds db.tags repo.tags).1.headD 0).toNat (· ||| repo.repos) }
      simp only [hneg, if_false, not_false_eq_true, true_and]
      refine ⟨fun db' h => ?_, hadd⟩
      obtain ⟨h1, h2, h3, h4, h5⟩ := hread db' h
      exact ⟨h1, h2, h3, h4, h5.trans (length_modify _ _ _)⟩

theorem apkDbCheckWorld_eq (h : ∀ d ∈ db.world, d.repositoryTag < db.allowed.length) :
    apkDbCheckWorld false db = some ((db.world.filter fun d =>
      d.repositoryTag ≠ 0 ∧ db.allowed.getD d.repositoryTag 0 = 0).map fun d =>
        (d, db.tags.getD d.repositoryTag [])) := by
  obtain ⟨tags, allowed, installed, world⟩ := db
  unfold apkDbCheckWorld
  rw [if_neg (by decide)]
  induction world with
  | nil => rfl
  | cons d world ih =>
    have hd := h d mem_cons_self
    rw [foldr_cons, ih fun d' hd' => h d' (mem_cons_of_mem _ hd'), filter_cons]
    simp only [List.getElem?_eq_getElem hd, getD_eq_getElem?_getD]
    by_cases h0 : d.repositoryTag = 0
    · simp [h0]
    · by_cases ha : allowed[d.repositoryTag] = 0 <;> simp [h0, ha]

/-- the root layer cannot be read: its world has a dependency that is none or has an invalid version, or
another of its files has an error. A missing world is no error where the database is created -/
def TagLayer.Fails (create : Bool) (root : TagLayer) : Prop :=
  let world := root.world.elim (-enoent) fun text => (apkBlobPullDepsTag true [[]] text).1
  let r := if world ≠ 0 then world else root.others
  r ≠ 0 ∧ ¬ (r = -enoent ∧ create)

theorem readLayer_fails {create : Bool} {root : TagLayer} : root.Fails create ↔
    (TagDb.init.readLayer root).1 ≠ 0 ∧ ¬ ((TagDb.init.readLayer root).1 = -enoent ∧ create) := by
  cases h : root.world <;> simp only [TagLayer.Fails, TagDb.readLayer, h] <;> rfl

/-- Opening a database fails, or stores numbers of tags only and finds with the check all dependencies of
the world whose tag no available repository has, exactly if the root layer cannot be read or no more than
15 different tags are read. -/
theorem repository_tags_bounded_iff (create : Bool) (root : TagLayer) (layers : List TagLayer)
    (repos : List TagRepo) :
    (∃ r db, apkDbOpen create root layers repos = some (r, db) ∧ (r ≠ 0 ∨
      (∀ d ∈ db.world, d.repositoryTag < db.tags.length) ∧ (∀ t ∈ db.installed, t < db.tags.length) ∧
      ∃ bad, apkDbCheckWorld false db = some bad ∧ ∀ d ∈ db.world, d.repositoryTag ≠ 0 →
        db.allowed.getD d.repositoryTag 0 = 0 → (d, db.tags.getD d.repositoryTag []) ∈ bad)) ↔
    root.Fails create ∨ (((root :: layers).flatMap TagLayer.tags ++ repos.flatMap TagRepo.tags).map
      fullTag).toFinset.card ≤ 15 := by
  unfold apkDbOpen
  by_cases hfails : root.Fails create
  · refine iff_of_true ⟨_, _, if_pos (readLayer_fails.1 hfails), Or.inl (readLayer_fails.1 hfails).1⟩
      (Or.inl hfails)
  rw [or_iff_right hfails, if_neg (mt readLayer_fails.2 hfails)]
  have hinit : RepoTagTable TagDb.init.tags := ⟨by decide, by decide, nodup_nil⟩
  have hstores := TagDb.stores_layers (root :: layers) TagDb.init
  rw [foldl_cons] at hstores
  set db₁ := layers.foldl (fun db layer => (db.readLayer layer).2) (TagDb.init.readLayer root).2
  set ts := (root :: layers).flatMap TagLayer.tags
  set us := repos.flatMap TagRepo.tags
  obtain ⟨htable, -, hids⟩ := hinit.tagIds (ts ++ us)
  have hiff := hinit.tagIds_iff (ts ++ us)
  rw [show TagDb.init.tags.drop 1 = [] from rfl, nil_append, tagIds_append, forall_mem_append,
    ← hstores.tags] at hiff
  rw [← hiff]
  rw [tagIds_append, ← hstores.tags] at htable hids
  obtain ⟨hread, hadd⟩ := db₁.addRepos repos
  constructor
  · rintro ⟨r, db, hopen, hright⟩
    obtain ⟨db, hdb, ⟨⟩⟩ := Option.map_eq_some_iff.1 hopen
    obtain ⟨hids₂, htags, hworld, hinstalled, -⟩ := hread db hdb
    rw [← htags] at htable hids
    obtain ⟨hw, hi, -⟩ := hright.resolve_left (by decide)
    rw [hworld] at hw
    rw [hinstalled] at hi
    refine ⟨fun i hmem => ?_, hids₂⟩
    rcases hids i (mem_append_left _ hmem) with rfl | h
    · -- the number of a tag without an entry is stored as 63
      have hlt : storedTag (-1) < db.tags.length :=
        ((hstores.below _ htable.default).1 ⟨hw, hi⟩).2 (-1) hmem
      exact absurd (hlt.trans_le htable.room) (by decide)
    · exact h.1
  · rintro ⟨hids₁, hids₂⟩
    obtain ⟨db, hdb⟩ := hadd hids₂
    obtain ⟨-, htags, hworld, hinstalled, hallowed⟩ := hread db hdb
    rw [← htags] at htable hids
    obtain ⟨hw, hi⟩ : db₁.Below db.tags.length :=
      (hstores.below _ htable.default).2 ⟨⟨nofun, nofun⟩, fun i hmem =>
        ((hids i (mem_append_left _ hmem)).resolve_left
          fun h => absurd (h ▸ hids₁ i hmem) (by decide)).2⟩
    rw [← hworld] at hw
    rw [← hinstalled] at hi
    rw [hstores.allowed] at hallowed
    refine ⟨0, db, by rw [hdb]; rfl, Or.inr ⟨hw, hi, _, apkDbCheckWorld_eq fun d hd =>
      (hw d hd).trans_le (htable.room.trans_eq hallowed.symm), fun d hd h0 ha => ?_⟩⟩
    exact mem_map.2 ⟨d, mem_filter.2 ⟨hd, decide_eq_true ⟨h0, ha⟩⟩, rfl⟩

/-- 16 tags in the world: the last one has the number 63 of 16, and the check reads behind the table -/
theorem repository_tags_exhausted :
    let opened := apkDbOpen false
      ⟨some (lit "a@b a@c a@d a@e a@f a@g a@h a@i a@j a@k a@l a@m a@n a@o a@p a@q"), [], 0⟩ [] []
    (opened.map fun r => (r.1, r.2.world.map (·.repositoryTag), r.2.tags.length)) =
        some (0, [1, 2, 3, 4, 5, 6, 7, 8, 9, 10, 11, 12, 13, 14, 15, 63], 16) ∧
      opened.bind (fun r => apkDbCheckWorld false r.2) = none := by
  decide +kernel

end Alpine

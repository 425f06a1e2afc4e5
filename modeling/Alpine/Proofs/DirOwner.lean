import Alpine.Spec.DirOwner
import Alpine.Sanity.Blob
import Alpine.Sanity.Champion

/-! The owner of a directory is the champion of a scan over its instances. The rule of
`apk_pkg_replaces_dir` is an order on the packages of one directory unless two of them are on equal
terms, or a package stands by its name between another package and the main package of its
origin. -/

namespace Alpine

open List

/-- the instance of `x` takes the directory from that of `y` -/
def takesDir (x y : Option DirPkg) : Bool := decide (apkPkgReplacesDir y x = .yes)

variable (dir : OwnedDir (Option DirPkg))

theorem applyDiriPermissions_owner (x : Option DirPkg) :
    (dir.applyDiriPermissions apkPkgReplacesDir x).owner = Champion.keep takesDir dir.owner x := by
  rcases dir with ⟨_ | o, diris⟩
  · rfl
  · by_cases h : apkPkgReplacesDir o x = .yes <;>
      simp [OwnedDir.applyDiriPermissions, Champion.keep, takesDir, h]

theorem walkDiri_owner (x : Option DirPkg) :
    (dir.walkDiri apkPkgReplacesDir x).owner = Champion.keep takesDir dir.owner x := by
  rcases dir with ⟨_ | o, diris⟩
  · rfl
  · by_cases h : apkPkgReplacesDir o x = .yes <;> simp [OwnedDir.walkDiri, Champion.keep, takesDir, h]

theorem foldl_owner {step : OwnedDir (Option DirPkg) → Option DirPkg → OwnedDir (Option DirPkg)}
    (hstep : ∀ dir x, (step dir x).owner = Champion.keep takesDir dir.owner x)
    (dir : OwnedDir (Option DirPkg)) (l : List (Option DirPkg)) :
    (l.foldl step dir).owner = Champion.scan takesDir dir.owner l := by
  induction l generalizing dir with
  | nil => rfl
  | cons x l ih =>
    rw [foldl_cons, ih, hstep]
    rfl

theorem dirOwner_eq_scan (l : List (Option DirPkg)) :
    dirOwner l = Champion.scan takesDir none l := foldl_owner applyDiriPermissions_owner _ l

theorem diriRemove_owner (d : Option DirPkg) : (dir.diriRemove apkPkgReplacesDir d).owner =
      if dir.owner = some d then Champion.scan takesDir none (dir.diris.filter (· ≠ d))
      else dir.owner := by
  unfold OwnedDir.diriRemove
  dsimp only
  split_ifs with h
  · exact foldl_owner walkDiri_owner ⟨none, dir.diris.filter (· ≠ d)⟩ _
  · rfl

variable {l : List (Option DirPkg)} {a b : DirPkg} {x y : Option DirPkg}

theorem dominates_filter {w d : Option DirPkg} (h : Champion.Dominates takesDir w l) (hwd : w ≠ d) :
    Champion.Dominates takesDir w (l.filter (· ≠ d)) :=
  ⟨mem_filter.2 ⟨h.1, by simpa using hwd⟩, fun q hq hqw => h.2 q (mem_of_mem_filter hq) hqw⟩

def DirPkg.Main (p : DirPkg) : Prop := p.origin ≠ [] ∧ p.origin = cstr p.name

/-- neither priority nor removal tells the two apart -/
def Peers (a b : DirPkg) : Prop :=
  a.toBeRemoved = false ∧ b.toBeRemoved = false ∧ a.replacesPriority = b.replacesPriority

/-- between peers the main package of a common origin wins, otherwise the smaller name -/
def Over (a b : DirPkg) : Prop :=
  ¬(b.Main ∧ b.origin = a.origin) ∧ ((a.Main ∧ b.origin = a.origin) ∨ 0 < strcmp b.name a.name)

theorem takesDir_peers (hn : a.name ≠ b.name) (hp : Peers a b) :
    takesDir (some a) (some b) = true ↔ Over a b := by
  obtain ⟨ha, hb, hprio⟩ := hp
  simp only [takesDir, apkPkgReplacesDir, if_neg (Ne.symm hn), hb, hprio, lt_irrefl,
    Bool.false_eq_true, apkBlobCompare_eq_zero_iff, DirPkg.Main, Over]
  split_ifs <;> grind

/-- what the rule looks at before origins and names -/
def dirLevel : Option DirPkg → WithTop ℕ
  | none => ⊤
  | some p => if p.toBeRemoved then 0 else (p.replacesPriority + 1 : ℕ)

/-- the instances of different packages that the rule puts in an order. The last condition leaves out
a name between those of a package and of the main package of its origin -/
structure Ranked (diris : List (Option DirPkg)) : Prop where
  names : ∀ a b, some a ∈ diris → some b ∈ diris → a ≠ b → a.name ≠ b.name
  removed : ∀ a b, some a ∈ diris → some b ∈ diris → a ≠ b →
    ¬(a.toBeRemoved = true ∧ b.toBeRemoved = true)
  texts : ∀ a b, some a ∈ diris → some b ∈ diris → a ≠ b → Peers a b → cstr a.name ≠ cstr b.name
  origins : ∀ s b m, some s ∈ diris → some b ∈ diris → some m ∈ diris → Peers s b → Peers b m →
    m.Main → s.origin = m.origin → b.origin ≠ m.origin →
      ¬(strcmp s.name b.name < 0 ∧ strcmp b.name m.name < 0)

variable {diris m : List (Option DirPkg)} {c : DirPkg}

theorem Ranked.subset (h : Ranked l) (hs : m ⊆ l) : Ranked m where
  names a b ha hb := h.names a b (hs ha) (hs hb)
  removed a b ha hb := h.removed a b (hs ha) (hs hb)
  texts a b ha hb := h.texts a b (hs ha) (hs hb)
  origins s b m h1 h2 h3 := h.origins s b m (hs h1) (hs h2) (hs h3)

theorem Ranked.peers (h : Ranked l) (ha : some a ∈ l) (hb : some b ∈ l) (hab : a ≠ b)
    (hlevel : dirLevel (some a) = dirLevel (some b)) : Peers a b := by
  have hr := h.removed a b ha hb hab
  cases hra : a.toBeRemoved <;> cases hrb : b.toBeRemoved <;> simp_all [dirLevel, Peers]
  · exact_mod_cast hlevel

theorem takesDir_of_level_lt (hn : ∀ a b, x = some a → y = some b → a.name ≠ b.name)
    (h : dirLevel y < dirLevel x) : takesDir x y = true ∧ takesDir y x = false := by
  cases y with
  | none => simp [dirLevel] at h
  | some b =>
    cases x with
    | none => exact ⟨rfl, rfl⟩
    | some a =>
      have hab := hn a b rfl rfl
      cases hra : a.toBeRemoved <;> cases hrb : b.toBeRemoved <;>
        simp only [dirLevel, hra, hrb, if_true, not_lt_zero] at h
      · have hlt : b.replacesPriority < a.replacesPriority := by
          have : b.replacesPriority + 1 < a.replacesPriority + 1 := by exact_mod_cast h
          omega
        simp [takesDir, apkPkgReplacesDir, hab, hra, hlt, not_lt_of_gt hlt]
      · simp [takesDir, apkPkgReplacesDir, hab, hra, hrb]

section

variable (h : Ranked l) (hx : x ∈ l) (hy : y ∈ l) (hxy : x ≠ y)
include h hx hy hxy

theorem Ranked.names_ne : ∀ a b, x = some a → y = some b → a.name ≠ b.name := by
  rintro a b rfl rfl
  exact h.names a b hx hy fun e => hxy (e ▸ rfl)

theorem Ranked.total : takesDir x y = true ↔ takesDir y x = false := by
  rcases lt_trichotomy (dirLevel x) (dirLevel y) with hlt | heq | hlt
  · have := takesDir_of_level_lt (h.names_ne hy hx (Ne.symm hxy)) hlt
    simp [this]
  · rcases x with _ | a <;> rcases y with _ | b
    · exact absurd rfl hxy
    · exact iff_of_true rfl rfl
    · exact iff_of_false Bool.false_ne_true nofun
    have hab : a ≠ b := fun e => hxy (e ▸ rfl)
    have hp := h.peers hx hy hab heq
    have hpt := h.texts a b hx hy hab hp
    have hn := h.names a b hx hy hab
    have hcmp := strcmp_neg a.name b.name
    have hz := strcmp_eq_zero_iff a.name b.name
    rw [← Bool.not_eq_true (takesDir (some b) (some a)), takesDir_peers hn hp,
      takesDir_peers (Ne.symm hn) ⟨hp.2.1, hp.1, hp.2.2.symm⟩]
    unfold Over DirPkg.Main
    by_cases hne : strcmp a.name b.name = 0
    · exact absurd (hz.1 hne) hpt
    by_cases ho : a.origin = b.origin
    · grind
    · have hpos : 0 < strcmp b.name a.name ↔ ¬0 < strcmp a.name b.name := by omega
      simpa [ho, Ne.symm ho] using hpos
  · have := takesDir_of_level_lt (h.names_ne hx hy hxy) hlt
    simp [this]

theorem Ranked.level_le (ht : takesDir x y = true) : dirLevel y ≤ dirLevel x := by
  by_contra hlt
  have := (takesDir_of_level_lt (h.names_ne hy hx (Ne.symm hxy)) (not_le.1 hlt)).2
  rw [ht] at this
  simp at this

end

theorem Ranked.not_main (h : Ranked l) (ha : some a ∈ l) (hb : some b ∈ l) (hc : some c ∈ l)
    (pbc : Peers b c) (pca : Peers c a) (obc : Over b c) (oca : Over c a) :
    ¬(a.Main ∧ b.origin = a.origin) := by
  rintro ⟨hm, hba⟩
  have hac : a.origin ≠ c.origin := fun e => oca.1 ⟨hm, e⟩
  have h1 : strcmp b.name c.name < 0 := by
    have := obc.2.resolve_left fun hx => hac (hba.symm.trans hx.2.symm)
    have := strcmp_neg b.name c.name
    omega
  have h2 : strcmp c.name a.name < 0 := by
    have := oca.2.resolve_left fun hx => hac hx.2
    have := strcmp_neg c.name a.name
    omega
  exact h.origins b c a hb hc ha pbc pca hm hba (Ne.symm hac) ⟨h1, h2⟩

theorem Ranked.no_cycle_peers (h : Ranked l) (ha : some a ∈ l) (hb : some b ∈ l) (hc : some c ∈ l)
    (pab : Peers a b) (pbc : Peers b c) (pca : Peers c a) (oab : Over a b) (obc : Over b c) :
    ¬Over c a := by
  intro oca
  have h1 := oab.2.resolve_left (h.not_main ha hb hc pbc pca obc oca)
  have h2 := obc.2.resolve_left (h.not_main hb hc ha pca pab oca oab)
  have h3 := oca.2.resolve_left (h.not_main hc ha hb pab pbc oab obc)
  have n1 := strcmp_neg a.name b.name
  have n2 := strcmp_neg b.name c.name
  have := strcmp_trans a.name b.name c.name (by omega) (by omega)
  omega

theorem Ranked.no_cycle (h : Ranked l) {z : Option DirPkg} (hx : x ∈ l) (hy : y ∈ l) (hz : z ∈ l)
    (hxy : x ≠ y) (hyz : y ≠ z) (hzx : z ≠ x) (txy : takesDir x y = true)
    (tyz : takesDir y z = true) : takesDir z x = false := by
  by_contra tzx
  rw [Bool.not_eq_false] at tzx
  have l1 := h.level_le hx hy hxy txy
  have l2 := h.level_le hy hz hyz tyz
  have l3 := h.level_le hz hx hzx tzx
  -- the overlay gives the directory to no package
  obtain ⟨a, rfl⟩ : ∃ a, x = some a := by
    cases x with
    | none => exact absurd tzx (by cases z <;> exact Bool.false_ne_true)
    | some a => exact ⟨a, rfl⟩
  obtain ⟨b, rfl⟩ : ∃ b, y = some b := by
    cases y with
    | none => exact absurd txy Bool.false_ne_true
    | some b => exact ⟨b, rfl⟩
  obtain ⟨c, rfl⟩ : ∃ c, z = some c := by
    cases z with
    | none => exact absurd tyz Bool.false_ne_true
    | some c => exact ⟨c, rfl⟩
  have ne : ∀ {p q : DirPkg}, some p ≠ some q → p ≠ q := fun hpq e => hpq (e ▸ rfl)
  have pab := h.peers hx hy (ne hxy) (le_antisymm (l3.trans l2 |>.trans le_rfl) l1)
  have pbc := h.peers hy hz (ne hyz) (le_antisymm (l1.trans l3) l2)
  have pca := h.peers hz hx (ne hzx) (le_antisymm (l2.trans l1) l3)
  rw [takesDir_peers (h.names a b hx hy (ne hxy)) pab] at txy
  rw [takesDir_peers (h.names b c hy hz (ne hyz)) pbc] at tyz
  rw [takesDir_peers (h.names c a hz hx (ne hzx)) pca] at tzx
  exact h.no_cycle_peers hx hy hz pab pbc pca txy tyz tzx

theorem Ranked.dominates (h : Ranked l) (hne : l ≠ []) : ∃ w, Champion.Dominates takesDir w l :=
  Champion.exists_dominates hne (fun _ ha _ hb hab => h.total ha hb hab)
    fun _ ha _ hb _ hc => h.no_cycle ha hb hc

/-- the owner does not depend on the order in which the instances come, and is found again when one
of them goes -/
structure StableOwner (diris : List (Option DirPkg)) : Prop where
  order : ∀ applied, applied.Perm diris → dirOwner applied = dirOwner diris
  remove : ∀ applied linked rest d, applied.Perm diris → linked.Perm diris → d ∈ diris →
    rest.Perm (diris.filter (· ≠ d)) →
      (OwnedDir.diriRemove apkPkgReplacesDir ⟨dirOwner applied, linked⟩ d).owner = dirOwner rest

theorem scan_perm_of_ranked (h : Ranked l) (hm : m.Perm l) :
    Champion.scan takesDir none m = Champion.scan takesDir none l := by
  refine (Champion.scan_perm_iff _ l).2 ?_ m hm
  by_cases hne : l = []
  · exact Or.inl hne
  · exact Or.inr (h.dominates hne)

theorem stableOwner_of_ranked (h : Ranked diris) : StableOwner diris where
  order applied hp := by rw [dirOwner_eq_scan, dirOwner_eq_scan, scan_perm_of_ranked h hp]
  remove applied linked rest d ha hl hd hr := by
    obtain ⟨w, hw⟩ := h.dominates (ne_nil_of_mem hd)
    have howner : dirOwner applied = some w := by
      rw [dirOwner_eq_scan, scan_perm_of_ranked h ha]
      exact Champion.scan_of_dominates hw none nofun
    have hrest : Ranked (diris.filter (· ≠ d)) := h.subset filter_sublist.subset
    rw [diriRemove_owner, howner, dirOwner_eq_scan, scan_perm_of_ranked hrest hr]
    split_ifs with hwd
    · exact scan_perm_of_ranked hrest (hl.filter _)
    · have hwd : w ≠ d := fun e => hwd (e ▸ rfl)
      exact (Champion.scan_of_dominates (dominates_filter hw hwd) none nofun).symm

theorem StableOwner.dominates (h : StableOwner l) (hne : l ≠ []) :
    ∃ w, Champion.Dominates takesDir w l := by
  refine ((Champion.scan_perm_iff _ l).1 fun m hm => ?_).resolve_left hne
  have := h.order m hm
  rwa [dirOwner_eq_scan, dirOwner_eq_scan] at this

theorem StableOwner.pair (h : StableOwner [x, y]) (hxy : x ≠ y) :
    takesDir x y = true ↔ takesDir y x = false := by
  obtain ⟨w, hw, hd⟩ := h.dominates (cons_ne_nil _ _)
  rcases mem_pair.1 hw with rfl | rfl
  · have := hd y (by simp) (Ne.symm hxy)
    simp [this]
  · have := hd x (by simp) hxy
    simp [this]

theorem names_ne_of_strcmp_neg (h : strcmp a.name b.name < 0) : a.name ≠ b.name := by
  intro e
  rw [e, (strcmp_eq_zero_iff _ _).2 rfl] at h
  exact lt_irrefl _ h

theorem cycle_of_between {s m : DirPkg} (hm : m.Main) (hs : s.origin = m.origin)
    (hb : b.origin ≠ m.origin) (h1 : strcmp s.name b.name < 0) (h2 : strcmp b.name m.name < 0) :
    Over s b ∧ Over b m ∧ Over m s ∧ m.name ≠ s.name := by
  have n1 := strcmp_neg s.name b.name
  have n2 := strcmp_neg b.name m.name
  have hsm : strcmp s.name m.name ≠ 0 := by
    intro e
    have n3 := strcmp_neg s.name m.name
    have := strcmp_trans m.name s.name b.name (by omega) (by omega)
    omega
  refine ⟨⟨fun e => hb (e.2.trans hs), Or.inr (by omega)⟩,
    ⟨fun e => hb e.2.symm, Or.inr (by omega)⟩, ⟨fun e => hsm ?_, Or.inl ⟨hm, hs⟩⟩, ?_⟩
  · exact (strcmp_eq_zero_iff _ _).2 (e.1.2.symm.trans (hs.trans hm.2))
  · exact fun e => hsm ((strcmp_eq_zero_iff _ _).2 (by rw [e]))

/-- a directory whose owner is stable for every choice among its instances is ranked -/
theorem ranked_of_stableOwner (h : ∀ m, m.Nodup → m ⊆ diris → StableOwner m) : Ranked diris := by
  have hpair : ∀ a b, some a ∈ diris → some b ∈ diris → a ≠ b →
      (takesDir (some a) (some b) = true ↔ takesDir (some b) (some a) = false) := by
    intro a b ha hb hab
    have hab : some a ≠ some b := fun e => hab (Option.some.inj e)
    exact (h [some a, some b] (by simpa using hab) (by simp [ha, hb])).pair hab
  have hnames : ∀ a b, some a ∈ diris → some b ∈ diris → a ≠ b → a.name ≠ b.name := by
    intro a b ha hb hab hn
    have := hpair a b ha hb hab
    simp [takesDir, apkPkgReplacesDir, hn] at this
  refine ⟨hnames, ?_, ?_, ?_⟩
  · rintro a b ha hb hab ⟨hra, hrb⟩
    have := hpair a b ha hb hab
    simp [takesDir, apkPkgReplacesDir, hra, hrb] at this
  · intro a b ha hb hab hp he
    have hn := hnames a b ha hb hab
    have := hpair a b ha hb hab
    have hz := (strcmp_eq_zero_iff a.name b.name).2 he
    have hz' := (strcmp_eq_zero_iff b.name a.name).2 he.symm
    rw [← Bool.not_eq_true, takesDir_peers hn hp,
      takesDir_peers (Ne.symm hn) ⟨hp.2.1, hp.1, hp.2.2.symm⟩] at this
    unfold Over DirPkg.Main at this
    grind
  rintro s b m hs hb hm psb pbm hmain hos hob ⟨h1, h2⟩
  obtain ⟨osb, obm, oms, hms⟩ := cycle_of_between hmain hos hob h1 h2
  have pms : Peers m s := ⟨pbm.2.1, psb.1, (psb.2.2.trans pbm.2.2).symm⟩
  have hsb := names_ne_of_strcmp_neg h1
  have hbm := names_ne_of_strcmp_neg h2
  rw [← takesDir_peers hsb psb] at osb
  rw [← takesDir_peers hbm pbm] at obm
  rw [← takesDir_peers hms pms] at oms
  have ne : ∀ {p q : DirPkg}, p.name ≠ q.name → some p ≠ some q :=
    fun hpq e => hpq (congrArg DirPkg.name (Option.some.inj e))
  have hnodup : [some s, some b, some m].Nodup := by
    simpa using ⟨⟨fun e => hsb (e ▸ rfl), fun e => hms (e ▸ rfl)⟩, fun e => hbm (e ▸ rfl)⟩
  obtain ⟨w, hw, hd⟩ := (h _ hnodup (by simp [hs, hb, hm])).dominates (cons_ne_nil _ _)
  simp only [mem_cons, not_mem_nil, or_false] at hw hd
  -- each of the three is taken from by another one
  rcases hw with rfl | rfl | rfl
  · have := (hd (some m) (by simp) (ne hms)).2
    rw [oms] at this
    simp at this
  · have := (hd (some s) (by simp) (ne hsb)).2
    rw [osb] at this
    simp at this
  · have := (hd (some b) (by simp) (ne hbm)).2
    rw [obm] at this
    simp at this

/-- the owner of a ranked directory is stable, and no other condition makes that of every choice of
instances so -/
theorem dir_owner_stable (diris : List (Option DirPkg)) : (Ranked diris → StableOwner diris) ∧
      ((∀ m, m.Nodup → m ⊆ diris → StableOwner m) → Ranked diris) :=
  ⟨stableOwner_of_ranked, ranked_of_stableOwner⟩

theorem dir_owner_stable_overlay :
    let libcrypto : DirPkg := ⟨lit "libcrypto3", lit "openssl", false, 0⟩
    let openssl : DirPkg := ⟨lit "openssl", lit "openssl", false, 0⟩
    Ranked [none, some libcrypto, some openssl] ∧ StableOwner [none, some libcrypto, some openssl] := by
  intro libcrypto openssl
  have hmem : ∀ a, some a ∈ [none, some libcrypto, some openssl] → a = libcrypto ∨ a = openssl := by
    simp
  have hnames : cstr libcrypto.name ≠ cstr openssl.name := by decide +kernel
  have horigin : libcrypto.origin = openssl.origin := rfl
  have h : Ranked [none, some libcrypto, some openssl] := by
    refine ⟨?_, ?_, ?_, ?_⟩
    · intro a b ha hb hab hn
      rcases hmem a ha with rfl | rfl <;> rcases hmem b hb with rfl | rfl
      · exact hab rfl
      · exact hnames (congrArg cstr hn)
      · exact hnames (congrArg cstr hn.symm)
      · exact hab rfl
    · intro a b ha hb hab hr
      rcases hmem a ha with rfl | rfl <;> exact Bool.false_ne_true hr.1
    · intro a b ha hb hab hp hn
      rcases hmem a ha with rfl | rfl <;> rcases hmem b hb with rfl | rfl
      · exact hab rfl
      · exact hnames hn
      · exact hnames hn.symm
      · exact hab rfl
    · intro s b m hs hb hm _ _ _ _ hob
      rcases hmem b hb with rfl | rfl <;> rcases hmem m hm with rfl | rfl <;> exact absurd horigin hob
  exact ⟨h, (dir_owner_stable _).1 h⟩

/-- `libcrypto3` and `openssl` have one origin, `musl` has another and is between them: each of the
three takes the directory from another one -/
theorem dir_owner_depends_on_order :
    let libcrypto : DirPkg := ⟨lit "libcrypto3", lit "openssl", false, 0⟩
    let musl : DirPkg := ⟨lit "musl", lit "musl", false, 0⟩
    let openssl : DirPkg := ⟨lit "openssl", lit "openssl", false, 0⟩
    dirOwner [some libcrypto, some musl, some openssl] = some (some openssl) ∧
      dirOwner [some openssl, some libcrypto, some musl] = some (some musl) ∧
      -- without `libcrypto3` the owner would be `musl`
      (OwnedDir.diriRemove apkPkgReplacesDir ⟨dirOwner [some musl, some libcrypto, some openssl],
          [some musl, some libcrypto, some openssl]⟩ (some libcrypto)).owner = some (some openssl) ∧
      dirOwner [some musl, some openssl] = some (some musl) := by
  decide +kernel

end Alpine

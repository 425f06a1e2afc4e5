import Alpine.Sanity.PassEnds

/-! The main loop of a pass. It ends as long as no counter of requirers comes near the end of its
`unsigned short`. Beyond that it may not: here are 2^16 packages that all want one name and are all
reconsidered when that name gets its first requirer, so that each round in which the counter wraps
to zero brings all of them back. -/

namespace Alpine

open List

/-- the names of the packages; `none` is the name that they all depend on -/
def churnDisplay {K : ℕ} : Option (Fin K) → Bytes
  | none => ascs ['z']
  | some i => [12, 8, 4, 0].map fun k => asc 'a' + UInt8.ofNat (i.val / 2 ^ k % 16)

/-- each package depends on a name that nothing provides, and is installed if that is -/
def churnDb (K : ℕ) : Database (Option (Fin K)) (Fin K) where
  package i := plainPackage (some i) (versionOf '1') [unversioned none] [unversioned none] [] 0
  display := churnDisplay
  providers n := n.elim [] fun i => [⟨i, versionOf '1'⟩]
  rdepends n := n.elim ((List.finRange K).map some) fun _ => []
  rinstallIf n := n.elim ((List.finRange K).map some) fun _ => []
  solverFlagsSet _ := false
  installed := []
  repoTags := [1]
  availableRepos := 1
  activeLayers := 1
  performingPreupgrade := false
  forceBrokenWorld := false
  undecodedDigest _ := []
  provider_own p := by simp [plainPackage]
  provider_from n q hq := by
    cases n with
    | none => simp at hq
    | some i =>
      rw [Option.elim_some, mem_singleton] at hq
      subst hq
      exact Or.inl ⟨rfl, rfl⟩

section
variable {N P : Type}

/-- the part of a name that decides how its rounds go on -/
def nameCore (s : NameState N P) : ℕ × ℕ × Bool × Bool × Bool × Bool :=
  (s.requirers, s.mergeDepends, s.seen, s.locked, s.noIif, s.reevaluateDeps)

def pkgCore (s : PkgState) : ℕ × Bool × Bool × Bool :=
  (s.conflicts, s.pkgSelectable, s.iifTriggered, s.iifFailed)

/-- the dirty list has grown, and nothing else has changed -/
structure Fills (ss ss' : SolverState N P) : Prop where
  name : ∀ n, nameCore (ss'.name n) = nameCore (ss.name n)
  pkg : ∀ p, pkgCore (ss'.pkg p) = pkgCore (ss.pkg p)
  dirty : ∀ n ∈ ss.dirty, n ∈ ss'.dirty
  nodup : ss.dirty.Nodup → ss'.dirty.Nodup

open Fills

variable {a b c ss ss' : SolverState N P} {n : N}

theorem Fills.requirers (h : Fills ss ss') (n : N) :
    (ss'.name n).requirers = (ss.name n).requirers := congrArg Prod.fst (h.name n)

theorem Fills.refl (ss : SolverState N P) : Fills ss ss :=
  ⟨fun _ => rfl, fun _ => rfl, fun _ => id, id⟩

theorem Fills.trans (h : Fills a b) (h' : Fills b c) : Fills a c :=
  ⟨fun n => (h'.name n).trans (h.name n), fun p => (h'.pkg p).trans (h.pkg p),
    fun n hn => h'.dirty n (h.dirty n hn), fun hn => h'.nodup (h.nodup hn)⟩

theorem fills_setName [DecidableEq N] (ss : SolverState N P) {s : NameState N P}
    (h : nameCore s = nameCore (ss.name n)) : Fills ss (ss.setName n s) := by
  refine ⟨fun m => ?_, fun _ => rfl, fun _ => id, id⟩
  rw [setName_name]
  split_ifs with hm
  · rw [h, hm]
  · rfl

theorem fills_setPkg [DecidableEq P] (ss : SolverState N P) {p : P} {s : PkgState}
    (h : pkgCore s = pkgCore (ss.pkg p)) : Fills ss (ss.setPkg p s) := by
  refine ⟨fun _ => rfl, fun q => ?_, fun _ => id, id⟩
  rw [setPkg_pkg]
  split_ifs with hq
  · rw [h, hq]
  · rfl

theorem fills_enqueue : Fills ss (enqueue ss n) := by
  obtain ⟨h1, h2, h3⟩ := enqueue_name ss n
  exact ⟨fun m => by rw [h1], fun p => by rw [h2], by rw [h3]; exact fun _ => id, by rw [h3]; exact id⟩

variable [DecidableEq N] [DecidableEq P]

omit [DecidableEq P] in
theorem fills_queueUnresolved (ss : SolverState N P) (n : N) (reevaluate : Bool) :
    Fills ss (queueUnresolved ss n reevaluate) := by
  have hset : ∀ r, Fills ss (ss.setName n { ss.name n with resolvenow := r }) := fun r =>
    fills_setName _ rfl
  have hunqueue : ∀ s : SolverState N P, Fills s (s.unqueue n) := fun s =>
    ⟨fun _ => rfl, fun _ => rfl, fun _ => id, id⟩
  unfold queueUnresolved
  split_ifs
  · exact refl ss
  · exact refl ss
  · exact ((hset true).trans (hunqueue _)).trans fills_enqueue
  · exact refl ss
  · exact (hunqueue ss).trans fills_enqueue
  · exact refl ss
  · exact (hset _).trans fills_enqueue

omit [DecidableEq P] in
theorem fills_queueDirty (ss : SolverState N P) (n : N) : Fills ss (queueDirty ss n) := by
  unfold queueDirty
  split_ifs with h
  · exact refl ss
  rw [not_or] at h
  exact ⟨fun _ => rfl, fun _ => rfl, fun m hm => mem_append_left _ hm,
    fun hn => nodup_append.2 ⟨hn, nodup_singleton n, by
      intro a ha b hb hab
      exact h.1 (mem_singleton.1 hb ▸ hab ▸ ha)⟩⟩

omit [DecidableEq P] in
theorem mem_queueDirty (hl : (ss.name n).locked = false) (hr : (ss.name n).requirers ≠ 0) :
    n ∈ (queueDirty ss n).dirty := by
  unfold queueDirty
  split_ifs with h
  · rcases h with h | h | h
    · exact h
    · exact absurd h (by simp [hl])
    · exact absurd h.1 hr
  · simp

end

abbrev ChurnState (K : ℕ) := SolverState (Option (Fin K)) (Fin K)

section
variable {K : ℕ}

/-- nothing is decided, and the packages are all still to be had -/
structure Undecided (ss : ChurnState K) : Prop where
  own : ∀ i, (ss.name (some i)).seen = true ∧ (ss.name (some i)).locked = false ∧
    (ss.name (some i)).noIif = false ∧ (ss.name (some i)).reevaluateDeps = false
  common : (ss.name none).locked = false ∧ (ss.name none).mergeDepends = 0
  pkg : ∀ i, pkgCore (ss.pkg i) = (0, true, false, false)

structure Steady (ss : ChurnState K) : Prop extends Undecided ss where
  required : ∀ i, (ss.name (some i)).requirers = 1

variable {flags fuel k : ℕ} {N : Type}

theorem unversioned_conflict (n : N) : apkDepConflict (unversioned n) = false := by
  have hop : decide (apkDepmaskAny &&& apkVersionConflict ≠ 0) = false := by decide
  exact hop

variable {ss ss' s : ChurnState K} {i : Fin K} {l : List (Fin K)} {done : Set (Fin K)}

theorem Undecided.open_ (h : Undecided ss) (i : Fin K) : (ss.pkg i).pkgSelectable = true ∧
    (ss.pkg i).iifTriggered = false ∧ (ss.pkg i).iifFailed = false := by
  have := h.pkg i
  simp only [pkgCore, Prod.mk.injEq] at this
  exact this.2

theorem Undecided.fills (h : Undecided ss) (hs : Fills ss ss') : Undecided ss' := by
  have hname := fun n => hs.name n
  simp only [nameCore, Prod.mk.injEq] at hname
  refine ⟨fun i => ?_, ?_, fun i => (hs.pkg i).trans (h.pkg i)⟩
  · obtain ⟨-, -, h1, h2, h3, h4⟩ := hname (some i)
    rw [h1, h2, h3, h4]
    exact h.own i
  · obtain ⟨-, h1, -, h2, -, -⟩ := hname none
    rw [h1, h2]
    exact h.common

theorem Steady.fills (h : Steady ss) (hs : Fills ss ss') : Steady ss' :=
  ⟨h.toUndecided.fills hs, fun i => (hs.requirers _).trans (h.required i)⟩

theorem checkIif_same (hcommon : (ss.name none).locked = false)
    (htrig : (ss.pkg i).iifTriggered = false) (hfail : (ss.pkg i).iifFailed = false) :
    Fills ss (checkIif (churnDb K) ss i) := by
  have hev : evaluateIif (churnDb K) ss i ((churnDb K).package i).installIf =
      ss.setPkg i { ss.pkg i with iifTriggered := false, iifFailed := false } := by
    have hlist : ((churnDb K).package i).installIf = [unversioned none] := rfl
    have hname : (unversioned (none : Option (Fin K))).name = none := rfl
    rw [hlist, evaluateIif, hname, hcommon, unversioned_conflict]
    rfl
  unfold checkIif
  simp only [htrig, hfail, hev]
  simp only [Bool.not_false, and_self, if_true, setPkg_same]
  refine fills_setPkg _ ?_
  simp [pkgCore, htrig, hfail]

theorem reconsiderCheck_same (h : Steady ss) (reevaluateIif : Bool) (i : Fin K) :
    Fills ss (reconsiderCheck (churnDb K) false reevaluateIif ss i) := by
  obtain ⟨-, htrig, hfail⟩ := h.open_ i
  have h1 : Fills ss (ss.setPkg i { ss.pkg i with dependenciesMerged := false }) :=
    fills_setPkg _ rfl
  unfold reconsiderCheck
  simp only [Bool.false_eq_true, if_false]
  split_ifs
  · exact h1.trans (checkIif_same h.common.1 (by simpa using htrig) (by simpa using hfail))
  · exact h1

/-- the state in which the dependency is counted as common to all candidates -/
def merged (ss : ChurnState K) : ChurnState K :=
  ss.setName none { ss.name none with mergeDepends := 1 }

theorem reconsiderMerge_same (h : (ss.name none).mergeDepends = 0) (i : Fin K) :
    Fills (merged ss) (reconsiderMerge (churnDb K) ss 0 ⟨i, versionOf '1'⟩) := by
  have hdep : ((churnDb K).package i).depends = [unversioned none] := rfl
  have hmerge : mergeDepends 0 (ss.setPkg i { ss.pkg i with dependenciesMerged := true })
      (unversioned none) = merged (ss.setPkg i { ss.pkg i with dependenciesMerged := true }) := by
    have hname : (unversioned (none : Option (Fin K))).name = none := rfl
    rw [mergeDepends, unversioned_conflict, hname, setPkg_name, h]
    rfl
  have hprovides : ∀ (s : ChurnState K) d, Fills s (mergeProvides 0 s d) := by
    intro s d
    unfold mergeProvides
    split_ifs
    · exact Fills.refl s
    · exact fills_setName _ rfl
  have hpkg : Fills (merged ss) (merged (ss.setPkg i { ss.pkg i with dependenciesMerged := true })) :=
    fills_setPkg (merged ss) rfl
  unfold reconsiderMerge
  simp only [hdep, foldl_cons, hmerge]
  exact hpkg.trans (hprovides _ _)

theorem reconsiderProvider_some (h : Steady ss) (reevaluateIif : Bool) (i : Fin K) : ∃ t l,
      reconsiderProvider (churnDb K) (some i) false reevaluateIif
        (ss, ⟨none, 0, 0, false, true, false⟩) ⟨i, versionOf '1'⟩ = (t, l) ∧
      l.firstCandidate = some i ∧ l.numOptions = 1 ∧ l.noIif = false ∧ Fills (merged ss) t := by
  have hcheck := reconsiderCheck_same h reevaluateIif i
  unfold reconsiderProvider
  generalize hs : reconsiderCheck (churnDb K) false reevaluateIif ss i = s at hcheck ⊢
  have hsteady := h.fills hcheck
  have hmerge := reconsiderMerge_same hsteady.common.2 i
  have hmerged : Fills (merged ss) (merged s) := by
    refine ⟨fun n => ?_, hcheck.pkg, hcheck.dirty, hcheck.nodup⟩
    have hn := hcheck.name n
    have h0 := hcheck.name none
    unfold merged
    rw [setName_name, setName_name]
    simp only [nameCore, Prod.mk.injEq] at hn h0 ⊢
    split_ifs
    · exact ⟨h0.1, rfl, h0.2.2⟩
    · exact hn
  have hreq : (s.name (some i)).requirers ≠ 0 := by simp [hsteady.required i]
  obtain ⟨hsel, -, hfail⟩ := hsteady.open_ i
  simp only [hsel, hreq]
  exact ⟨_, _, rfl, rfl, rfl, hfail, hmerged.trans hmerge⟩

theorem fills_foldl {P α : Type} {f : SolverState N P → α → SolverState N P}
    (h : ∀ ss a, Fills ss (f ss a)) (l : List α) (ss : SolverState N P) :
    Fills ss (l.foldl f ss) :=
  Fuel.foldl_rel Fills.refl (fun _ _ _ => Fills.trans) (fun ss a _ => h ss a) ss

theorem Fills.unmerge (h : Fills (merged ss) s) (h0 : (ss.name none).mergeDepends = 0) :
    Fills ss (s.setName none { s.name none with mergeDepends := 0 }) := by
  refine ⟨fun n => ?_, h.pkg, h.dirty, h.nodup⟩
  have hn := h.name n
  have hnone := h.name none
  unfold merged at hn hnone
  rw [setName_name] at hn ⊢
  simp only [nameCore, Prod.mk.injEq] at hnone
  split_ifs at hn ⊢ with hcase
  · subst hcase
    simp only [nameCore, Prod.mk.injEq]
    exact ⟨hnone.1, h0.symm, hnone.2.2⟩
  · exact hn

theorem propagateDown_some (hs : Fills (merged ss) s) (h0 : (ss.name none).mergeDepends = 0)
    (i : Fin K) : ∃ t, Fills ss t ∧
      Fills (requireName (churnDb K) t none) (propagateDown (churnDb K) s (some i) i 1) := by
  have hdep : ((churnDb K).package i).depends = [unversioned none] := rfl
  have hnames : (churnDb K).namesOf i = [some i] := rfl
  have hname : (unversioned (none : Option (Fin K))).name = none := rfl
  have hused : ∀ (s : ChurnState K) (p : Provider (Fin K)), Fills s (s.setPkg p.pkg
        { s.pkg p.pkg with dependenciesUsed := (s.pkg p.pkg).dependenciesMerged }) :=
    fun s p => fills_setPkg s rfl
  have hvirtual : ∀ (s : ChurnState K) (m : Option (Fin K)),
      Fills s (s.setName m { s.name m with hasVirtualProvides := false }) :=
    fun s m => fills_setName s rfl
  have hexclude : ∀ s : ChurnState K,
      Fills s (propagateProvides (churnDb K) (some i) 1 s (some i)) := by
    intro s
    have hset : Fills s (s.setName (some i) { s.name (some i) with mergeProvides := 0 }) :=
      fills_setName s rfl
    unfold propagateProvides excludeNonProviders
    simpa using hset
  unfold propagateDown
  simp only [if_true, hdep, hnames, foldl_cons, foldl_nil]
  have hfold := hs.trans (fills_foldl hused ((churnDb K).providers (some i)) s)
  generalize ((churnDb K).providers (some i)).foldl _ s = s1 at hfold ⊢
  refine ⟨s1.setName none { s1.name none with mergeDepends := 0 }, hfold.unmerge h0, ?_⟩
  have honly : propagateOnly (churnDb K) i s1 (unversioned none) = requireName (churnDb K)
      (s1.setName none { s1.name none with mergeDepends := 0 }) none := by
    have hone : (s1.name none).mergeDepends = 1 := by
      have hnone := hfold.name none
      simp only [merged, nameCore, Prod.mk.injEq] at hnone
      exact hnone.2.1
    have hprov : (churnDb K).providers none = [] := rfl
    simp [propagateOnly, applyConstraint, hname, hone, unversioned_conflict, hprov]
  rw [honly]
  exact (hexclude _).trans (hvirtual _ _)

/-- a round on one of the packages' names asks once more for the name they depend on -/
theorem reconsiderName_some (h : Steady ss) (i : Fin K) : ∃ t, Fills ss t ∧
      Fills (requireName (churnDb K) t none) (reconsiderName (churnDb K) ss (some i)) := by
  have hprov : (churnDb K).providers (some i) = [⟨i, versionOf '1'⟩] := rfl
  have hset : Fills ss (ss.setName (some i)
      { ss.name (some i) with reevaluateDeps := false, reevaluateIif := false }) := by
    refine fills_setName _ ?_
    simp [nameCore, (h.own i).2.2.2]
  have hsteady := h.fills hset
  obtain ⟨s, l, hl, hfirst, hnum, hnoiif, hmerged⟩ :=
    reconsiderProvider_some hsteady (ss.name (some i)).reevaluateIif i
  have hflags : ∀ s' : NameState (Option (Fin K)) (Fin K), nameCore s' = nameCore (s.name (some i)) →
      Fills (merged (ss.setName (some i)
        { ss.name (some i) with reevaluateDeps := false, reevaluateIif := false }))
        (s.setName (some i) s') := fun s' hs' => hmerged.trans (fills_setName s hs')
  have hno : (s.name (some i)).noIif = false := by
    have := hmerged.name (some i)
    simp only [nameCore, Prod.mk.injEq] at this
    rw [this.2.2.2.2.1]
    exact (hsteady.own i).2.2.1
  unfold reconsiderName
  simp only [hprov, foldl_cons, foldl_nil, (h.own i).2.2.2, hl, hfirst, hnum]
  obtain ⟨t, hst, ht⟩ := propagateDown_some (hflags
    { s.name (some i) with
      hasOptions := decide (1 > 1 ∨ l.numTagNotOk > 0)
      hasIif := l.hasIif
      noIif := l.noIif
      hasAutoSelectable := l.hasAutoSelectable } (by simp [nameCore, hnoiif, hno]))
    hsteady.common.2 i
  refine ⟨t, hset.trans hst, ht.trans ?_⟩
  generalize propagateDown (churnDb K) _ (some i) i 1 = s2
  have hdone : ∀ b, Fills s2 (s2.setName (some i)
      { s2.name (some i) with reverseDepsDone := b }) := fun b => fills_setName s2 rfl
  exact (hdone _).trans (fills_queueUnresolved _ _ _)

theorem foldl_fills {f : ChurnState K → Option (Fin K) → ChurnState K}
    (hf : ∀ s i, Steady s → Fills s (f s (some i)) ∧ some i ∈ (f s (some i)).dirty)
    (l : List (Fin K)) (h : Steady ss) :
    Fills ss ((l.map some).foldl f ss) ∧ ∀ i ∈ l, some i ∈ ((l.map some).foldl f ss).dirty := by
  induction l generalizing ss with
  | nil => exact ⟨Fills.refl ss, by simp⟩
  | cons i l ih =>
    obtain ⟨hfill, hmem⟩ := hf ss i h
    obtain ⟨hfill', hmem'⟩ := ih (h.fills hfill)
    refine ⟨hfill.trans hfill', fun j hj => ?_⟩
    rcases mem_cons.1 hj with rfl | hj
    · exact hfill'.dirty _ hmem
    · exact hmem' j hj

theorem reevaluateReverseInstallif_all (h : Steady ss) :
    Fills ss (reevaluateReverseInstallif (churnDb K) ss none) ∧
      ∀ i, some i ∈ (reevaluateReverseInstallif (churnDb K) ss none).dirty := by
  have hfold := foldl_fills (f := fun ss n0 =>
    if !(ss.name n0).seen then ss
    else if (ss.name n0).noIif then ss
    else queueDirty (ss.setName n0 { ss.name n0 with reevaluateIif := true }) n0)
    (fun s i hs => by
      obtain ⟨hseen, -, hno, -⟩ := hs.own i
      have hset : Fills s (s.setName (some i) { s.name (some i) with reevaluateIif := true }) :=
        fills_setName s rfl
      have hs' := hs.fills hset
      rw [if_neg (by simp [hseen]), if_neg (by simp [hno])]
      refine ⟨hset.trans (fills_queueDirty _ _), mem_queueDirty (hs'.own i).2.1 ?_⟩
      rw [hs'.required i]
      decide) (finRange K) h
  exact ⟨hfold.1, fun i => hfold.2 i (mem_finRange i)⟩

theorem Steady.setNone (h : Steady ss) {s : NameState (Option (Fin K)) (Fin K)}
    (hl : s.locked = (ss.name none).locked) (hm : s.mergeDepends = (ss.name none).mergeDepends) :
    Steady (ss.setName none s) :=
  ⟨⟨fun i => by simpa [setName_name] using h.own i, by simpa [hl, hm] using h.common, h.pkg⟩,
    fun i => by simpa [setName_name] using h.required i⟩

/-- what waits goes on to wait, and the counter of the common name is at `r` -/
structure Goes (ss ss' : ChurnState K) (r : ℕ) : Prop where
  steady : Steady ss'
  requirers : (ss'.name none).requirers = r
  dirty : ∀ n ∈ ss.dirty, n ∈ ss'.dirty
  nodup : ss.dirty.Nodup → ss'.dirty.Nodup

theorem requireName_common (h : Steady ss) :
    Goes ss (requireName (churnDb K) ss none) (((ss.name none).requirers + 1) % 2 ^ 16) ∧
    (((ss.name none).requirers + 1) % 2 ^ 16 = 1 →
      ∀ i, some i ∈ (requireName (churnDb K) ss none).dirty) := by
  have hadd : Steady (addRequirer ss none) := h.setNone rfl rfl
  have hreq : ((addRequirer ss none).name none).requirers =
      ((ss.name none).requirers + 1) % 2 ^ 16 := by simp [addRequirer]
  unfold requireName
  simp only
  split_ifs with hone
  · have hq := fills_queueUnresolved (addRequirer ss none) none false
    obtain ⟨hfill, hmem⟩ := reevaluateReverseInstallif_all (hadd.fills hq)
    have hall := (hq.trans hfill).trans (fills_queueDirty _ none)
    exact ⟨⟨hadd.fills hall, (hall.requirers none).trans hreq, hall.dirty, hall.nodup⟩,
      fun _ i => (fills_queueDirty _ none).dirty _ (hmem i)⟩
  · exact ⟨⟨hadd, hreq, fun _ => id, id⟩, fun h1 => absurd h1 hone⟩

/-- a round on the common name changes nothing: nothing provides it -/
theorem reconsiderName_none (h : Steady ss) :
    Goes ss (reconsiderName (churnDb K) ss none) (ss.name none).requirers := by
  have hprov : (churnDb K).providers none = [] := rfl
  unfold reconsiderName
  simp only [hprov]
  have hq := fun (s : ChurnState K) b => fills_queueUnresolved s none b
  refine ⟨(((h.setNone ?_ ?_).setNone ?_ ?_).setNone ?_ ?_).fills (hq _ _), ?_, fun n hn =>
    (hq _ _).dirty n hn, fun hn => (hq _ _).nodup hn⟩
  case refine_7 =>
    rw [(hq _ _).requirers]
    simp
  all_goals simp

/-- the rounds on packages that bring the counter to zero, and one more -/
def quota (requirers : ℕ) : ℕ := if requirers = 0 then 1 else 2 ^ 16 + 1 - requirers

theorem quota_next {r c : ℕ} (hr : r < 2 ^ 16) (hc : quota r ≤ c + 1)
    (hne : (r + 1) % 2 ^ 16 ≠ 1) : quota ((r + 1) % 2 ^ 16) ≤ c := by
  unfold quota at *
  split_ifs at * <;> omega

def waiting (ss : ChurnState K) : ℕ :=
  (Finset.univ.filter fun i : Fin K => some i ∈ ss.dirty).card

structure Churning (ss : ChurnState K) : Prop where
  steady : Steady ss
  nodup : ss.dirty.Nodup
  low : (ss.name none).requirers < 2 ^ 16
  waiting : quota (ss.name none).requirers ≤ waiting ss

theorem waiting_pos (h : Churning ss) : ss.dirty ≠ [] := by
  intro hnil
  have hwait := h.waiting
  unfold waiting quota at hwait
  simp only [hnil, not_mem_nil, Finset.filter_false, Finset.card_empty] at hwait
  have := h.low
  split_ifs at hwait <;> omega

theorem waiting_tail {ns : List (Option (Fin K))} (hd : ss.dirty = some i :: ns)
    (hnodup : ss.dirty.Nodup) : waiting ss = waiting { ss with dirty := ns } + 1 := by
  have hnot : some i ∉ ns := (nodup_cons.1 (hd ▸ hnodup)).1
  unfold waiting
  rw [← Finset.card_insert_of_notMem (a := i) (by simpa using hnot)]
  congr 1
  ext j
  simp [hd]

theorem solveStep_churning (hK : 2 ^ 16 ≤ K) (h : Churning ss) :
    ∃ ss', solveStep (churnDb K) ss = some ss' ∧ Churning ss' := by
  obtain ⟨n, ns, hd⟩ := exists_cons_of_ne_nil (waiting_pos h)
  obtain ⟨hsteady, hnodup, hlow, hwait⟩ := h
  have hstep : solveStep (churnDb K) ss =
      some (reconsiderName (churnDb K) { ss with dirty := ns } n) := by
    unfold solveStep
    rw [hd]
  have htail : Steady { ss with dirty := ns } :=
    ⟨⟨hsteady.own, hsteady.common, hsteady.pkg⟩, hsteady.required⟩
  have hns : ns.Nodup := (nodup_cons.1 (hd ▸ hnodup)).2
  refine ⟨_, hstep, ?_⟩
  have hcount : ∀ {ss'}, (∀ m ∈ ns, m ∈ ss'.dirty) → waiting { ss with dirty := ns } ≤ waiting ss' := by
    intro ss' hkeep
    refine Finset.card_le_card fun j hj => ?_
    rw [Finset.mem_filter] at hj ⊢
    exact ⟨hj.1, hkeep _ hj.2⟩
  cases n with
  | none =>
    obtain ⟨h1, h2, h3, h4⟩ := reconsiderName_none htail
    refine ⟨h1, h4 hns, by rw [h2]; exact hlow, ?_⟩
    have hsame : waiting { ss with dirty := ns } = waiting ss := by
      unfold waiting
      rw [hd]
      simp
    rw [h2]
    exact hwait.trans (hsame ▸ hcount h3)
  | some i =>
    obtain ⟨t, hst, ht⟩ := reconsiderName_some htail i
    obtain ⟨⟨h1, h2, h3, h4⟩, h5⟩ := requireName_common (htail.fills hst)
    have hreq : ((reconsiderName (churnDb K) { ss with dirty := ns } (some i)).name none).requirers =
        ((ss.name none).requirers + 1) % 2 ^ 16 := by
      rw [ht.requirers, h2, hst.requirers]
    refine ⟨h1.fills ht, ht.nodup (h4 (hst.nodup hns)), ?_, ?_⟩
    · rw [hreq]
      exact Nat.mod_lt _ (by norm_num)
    rw [hreq]
    by_cases hone : ((ss.name none).requirers + 1) % 2 ^ 16 = 1
    · -- the counter is at one again, and every package comes back
      have hall := fun j => ht.dirty _ (h5 (by rw [hst.requirers]; exact hone) j)
      unfold waiting quota
      simp only [hone, hall]
      simpa using hK
    rw [waiting_tail hd hnodup] at hwait
    exact (quota_next hlow hwait hone).trans (hcount fun m hm => ht.dirty _ (h3 _ (hst.dirty _ hm)))

theorem solveLoop_churning (hK : 2 ^ 16 ≤ K) (h : Churning ss) :
    solveLoop (churnDb K) fuel ss = none := by
  induction fuel generalizing ss with
  | zero => rfl
  | succ fuel ih =>
    obtain ⟨ss', hstep, h'⟩ := solveStep_churning hK h
    rw [solveLoop, hstep]
    exact ih h'

theorem discoverPkg_found (ss : ChurnState K) : (discoverPkg (churnDb K) ss i).pkgSelectable = true ∧
    (discoverPkg (churnDb K) ss i).iifFailed = false := by
  have havail : apkDbPkgAvailable (churnDb K) i = true := by
    simp [apkDbPkgAvailable, churnDb, plainPackage]
  have hpkg : (churnDb K).package i =
      plainPackage (some i) (versionOf '1') [unversioned none] [unversioned none] [] 0 := rfl
  have hlayers : (churnDb K).activeLayers = 1 := rfl
  simp [discoverPkg, havail, hpkg, hlayers, plainPackage]

/-- the dependencies of the world on some of the packages -/
def churnWorld (l : List (Fin K)) : List (Dependency (Option (Fin K))) :=
  l.map fun i => unversioned (some i)

/-- the names of `done` have their requirer and wait for a round -/
structure Applied (done : Set (Fin K)) (ss : ChurnState K) : Prop extends Undecided ss where
  required : ∀ i ∈ done, (ss.name (some i)).requirers = 1 ∧ some i ∈ ss.dirty
  free : ∀ i ∉ done, (ss.name (some i)).requirers = 0
  unasked : (ss.name none).requirers = 0
  nodup : ss.dirty.Nodup

theorem Applied.fills (h : Applied done ss) (hs : Fills ss ss') : Applied done ss' := by
  refine ⟨h.toUndecided.fills hs, fun i hi => ?_, fun i hi => ?_, ?_, hs.nodup h.nodup⟩
  · rw [hs.requirers]
    exact ⟨(h.required i hi).1, hs.dirty _ (h.required i hi).2⟩
  · rw [hs.requirers, h.free i hi]
  · rw [hs.requirers, h.unasked]

theorem requireName_applied (hi : i ∉ done) (h : Applied done ss) :
    Applied (insert i done) (requireName (churnDb K) ss (some i)) := by
  have hiif : ∀ s, reevaluateReverseInstallif (churnDb K) s (some i) = s := fun s => rfl
  have hown : ∀ n, (addRequirer ss (some i)).name n = if n = some i then
      { ss.name (some i) with requirers := 1 } else ss.name n := by
    intro n
    unfold addRequirer
    rewrite [setName_name, h.free i hi]
    rfl
  have hreq : ((addRequirer ss (some i)).name (some i)).requirers = 1 := by
    rw [hown, if_pos rfl]
  have hadd : Undecided (addRequirer ss (some i)) := by
    refine ⟨fun j => ?_, by rw [hown]; exact h.common, h.pkg⟩
    rw [hown]
    split_ifs with hji
    · exact h.own i
    · exact h.own j
  have hq := (fills_queueUnresolved (addRequirer ss (some i)) (some i) false)
  have hfill := hq.trans (fills_queueDirty _ (some i))
  unfold requireName nameRequirersChanged
  simp only [hreq, if_true, hiif]
  refine ⟨hadd.fills hfill, fun j hj => ?_, fun j hj => ?_, ?_, hfill.nodup h.nodup⟩
  · rw [hfill.requirers, hown]
    split_ifs with hji
    · rw [hji]
      exact ⟨rfl, mem_queueDirty ((hadd.fills hq).own i).2.1 (by rw [hq.requirers, hreq]; decide)⟩
    · have hjd : j ∈ done := (Set.mem_insert_iff.1 hj).resolve_left fun hji' => hji (by rw [hji'])
      exact ⟨(h.required j hjd).1, hfill.dirty _ (h.required j hjd).2⟩
  · rw [hfill.requirers, hown, if_neg fun hji => hj (by rw [Option.some.inj hji]; simp)]
    exact h.free j fun hjd => hj (Set.mem_insert_of_mem _ hjd)
  · rw [hfill.requirers, hown, if_neg (by simp), h.unasked]

theorem constrainProvider_applied (h : Applied done ss) :
    Applied done (constrainProvider (churnDb K) none (unversioned (some i)) ss ⟨i, versionOf '1'⟩) := by
  have hprov : apkDepIsProvided (churnDb K) none (unversioned (some i))
      (some ⟨i, versionOf '1'⟩) = true := by
    have hmatch : apkVersionMatch (atomBlob (versionOf '1')) apkDepmaskAny (atomBlob none) = true := rfl
    have hop : apkDepmaskAny ≠ apkDepmaskChecksum := by decide
    rw [apkDepIsProvided, if_neg (by simp)]
    exact (if_neg hop).trans hmatch
  have hconflicts : (ss.pkg i).conflicts = 0 := congrArg Prod.fst (h.pkg i)
  have hkeep : disqualifyConflicting (churnDb K) ss i = ss := by
    unfold disqualifyConflicting
    rw [if_neg (by simp [hconflicts])]
  unfold constrainProvider
  rw [if_pos hprov, hkeep]
  have hsame : Fills ss (inheritPinningAndFlags (churnDb K) ss i none) := by
    exact fills_setPkg ss rfl
  exact h.fills hsame

theorem applyWorldDep_applied (hi : i ∉ done) (h : Applied done ss) :
    Applied (insert i done) (applyWorldDep (churnDb K) ss (unversioned (some i))) := by
  have hpin : ∀ mask, Applied done { ss with pinningInherit := mask } := fun _ =>
    ⟨⟨h.own, h.common, h.pkg⟩, h.required, h.free, h.unasked, h.nodup⟩
  unfold applyWorldDep applyConstraint
  simp only [unversioned_conflict]
  exact constrainProvider_applied (requireName_applied hi (hpin _))

theorem applyWorld_applied (hl : l.Nodup) (hdone : ∀ i ∈ l, i ∉ done) (h : Applied done ss) :
    Applied {i | i ∈ l ∨ i ∈ done} ((churnWorld l).foldl (applyWorldDep (churnDb K)) ss) := by
  induction l generalizing done ss with
  | nil => simpa [churnWorld] using h
  | cons i l ih =>
    obtain ⟨hi, hl⟩ := nodup_cons.1 hl
    have hstep := applyWorldDep_applied (hdone i mem_cons_self) h
    have hrest := ih hl (fun j hj hjd => by
      rcases Set.mem_insert_iff.1 hjd with rfl | hjd
      · exact hi hj
      · exact hdone j (mem_cons_of_mem _ hj) hjd) hstep
    have hset : {j | j ∈ i :: l ∨ j ∈ done} = {j | j ∈ l ∨ j ∈ insert i done} := by
      ext j
      simp only [Set.mem_ofPred_eq, mem_cons, Set.mem_insert_iff]
      tauto
    rw [hset]
    exact hrest

theorem applyWorld_churning (hl : l.Nodup) (hall : ∀ i, i ∈ l) (hK : 0 < K) (h : Applied ∅ ss) :
    Churning (applyWorld (churnDb K) ss (churnWorld l)) := by
  have hend := applyWorld_applied hl (fun i _ hi => hi) h
  have hreq := fun i => hend.required i (Or.inl (hall i))
  refine ⟨⟨⟨hend.own, hend.common, hend.pkg⟩, fun i => (hreq i).1⟩, hend.nodup, ?_, ?_⟩
  · change (((churnWorld l).foldl (applyWorldDep (churnDb K)) ss).name none).requirers < 2 ^ 16
    rw [hend.unasked]
    norm_num
  change quota (((churnWorld l).foldl (applyWorldDep (churnDb K)) ss).name none).requirers ≤ _
  rw [hend.unasked]
  refine Finset.card_pos.2 ⟨⟨0, hK⟩, ?_⟩
  exact Finset.mem_filter.2 ⟨Finset.mem_univ _, (hreq _).2⟩

theorem discoverWorld_applied (hall : ∀ i, i ∈ l)
    (h : discoverWorld (churnDb K) k (passStart (churnDb K) flags fun _ => PkgState.zero) (churnWorld l) = some ss) :
    Applied ∅ ss := by
  obtain ⟨hd, hworld⟩ := discoverWorld_discovers _ _ _ h
  have hkept := hd.kept
  simp only [nameKept, passStart, Prod.mk.injEq] at hkept
  have hseen : ∀ i, (ss.name (some i)).seen = true := fun i =>
    (hworld _ (mem_map_of_mem (hall i))).resolve_left (Bool.false_ne_true ·)
  have hfound : ∀ i, Handled (some i) ⟨i, versionOf '1'⟩ ss := fun i =>
    hd.found (some i) rfl (hseen i) _ (mem_singleton_self _)
  have hpkg : ∀ i, pkgCore (ss.pkg i) = (0, true, false, false) := by
    intro i
    rcases hd.pkg i with hp | ⟨-, hp⟩
    · have := (hfound i).1
      rw [hp] at this
      cases this
    · obtain ⟨h1, h2⟩ := discoverPkg_found (passStart (churnDb K) flags fun _ => PkgState.zero) (i := i)
      rw [hp, pkgCore, h1, h2]
      rfl
  refine ⟨⟨fun i => ?_, ⟨(hkept none).1, (hkept none).2.2.1⟩, hpkg⟩, fun i hi => absurd hi (by simp),
    fun i _ => (hkept (some i)).2.1, (hkept none).2.1, ?_⟩
  · refine ⟨hseen i, (hkept (some i)).1, eq_false_of_ne_true fun hno => ?_, (hkept (some i)).2.2.2.1⟩
    have hfail := congrArg (fun x => x.2.2.2) (hpkg i)
    exact Bool.false_ne_true (hfail.symm.trans ((hfound i).2 hno))
  · exact ((passStart_ok _ _ _).discovers _ hd).dirty

theorem choosePackages_churning (hK : 2 ^ 16 ≤ K) (hl : l.Nodup) (hall : ∀ i, i ∈ l) :
    choosePackages (churnDb K) fuel flags (fun _ => PkgState.zero) (churnWorld l) = none := by
  unfold choosePackages
  cases h : discoverWorld (churnDb K) fuel (passStart (churnDb K) flags fun _ => PkgState.zero)
    (churnWorld l) with
  | none => rfl
  | some ss =>
    have happlied := discoverWorld_applied hall h
    exact solveLoop_churning hK (applyWorld_churning hl hall (lt_of_lt_of_le (by norm_num) hK) happlied)

theorem sortWorld_churnWorld :
    ∃ l', l'.Perm l ∧ sortWorld (churnDb K) (churnWorld l) = churnWorld l' := by
  have hperm : (sortWorld (churnDb K) (churnWorld l)).Perm (churnWorld l) :=
    perm_insertionSort _ _
  have hrange : sortWorld (churnDb K) (churnWorld l) ∈
      Set.range (List.map fun i : Fin K => unversioned (some i)) := by
    rw [Set.range_list_map]
    intro d hd
    obtain ⟨i, -, hi⟩ := mem_map.1 (hperm.mem_iff.1 hd)
    exact ⟨i, hi⟩
  obtain ⟨l', hl'⟩ := hrange
  refine ⟨l', ?_, hl'.symm⟩
  have hinj : Function.Injective fun i : Fin K => unversioned (some i) := fun i j hij => by
    simpa [unversioned] using hij
  rw [← hl'] at hperm
  exact (map_perm_map_iff hinj).1 hperm

end

section
variable {N P : Type} [DecidableEq N] [DecidableEq P] [Fintype N] [Fintype P]

/-- the discovery always ends, and the main loop does as long as no counter comes near its end -/
theorem main_loop_terminates (db : Database N P) (flags : ℕ) (pkg : P → PkgState)
    (world : List (Dependency N)) (h : CountersLow db flags pkg (sortWorld db world)) :
    (∃ fuel ss, discoverWorld db fuel (passStart db flags pkg) (sortWorld db world) = some ss) ∧
      ∃ fuel ss, choosePackages db fuel flags pkg (sortWorld db world) = some ss := by
  obtain ⟨ss, hss, -⟩ := discoverWorld_returns db flags pkg (Fintype.card N + 1)
    (Nat.lt_succ_self _) (sortWorld db world)
  exact ⟨⟨_, ss, hss⟩, _, choosePackages_returns db flags pkg h⟩

omit [Fintype P] in
theorem discovery_covers (db : Database N P) (flags pkg world) :
    ∃ s, discoverWorld db (Fintype.card N + 1) (passStart db flags pkg) world = some s ∧
      (∀ d ∈ world, d.broken = true ∨ (s.name d.name).seen = true) ∧
      ∀ n, (s.name n).seen = true → ∀ q ∈ db.providers n, (s.pkg q.pkg).seen = true := by
  obtain ⟨s, h, hd, hall⟩ := discoverWorld_returns db flags pkg _ (Nat.lt_succ_self _) world
  exact ⟨s, h, hall, fun n hn q hq => (hd.found n rfl hn q hq).1⟩

theorem changeset_walk_ends (db : Database N P) (ss world) :
    ∃ s, Commits ss s ∧
      ∀ j, generateChangeset db (Fintype.card N + Fintype.card P + 1 + j) ss world = some s := by
  obtain ⟨s, h, hc⟩ := (generateChangeset_prog db world).commit (csetRun_commit db _) ss (pending_le_card ss)
  refine ⟨s, hc, fun j => ?_⟩
  obtain ⟨_, rfl, hj⟩ := generateChangeset_mirrors db (fun f _ _ => congrArg f) _ j world ss _ rfl s h
  exact hj

end

theorem main_loop_terminates_two : CountersLow (churnDb 2) 0 (fun _ => PkgState.zero)
      (sortWorld (churnDb 2) (churnWorld (finRange 2))) ∧
    ∃ fuel ss, choosePackages (churnDb 2) fuel 0 (fun _ => PkgState.zero)
      (sortWorld (churnDb 2) (churnWorld (finRange 2))) = some ss := by
  have hlow : CountersLow (churnDb 2) 0 (fun _ => PkgState.zero)
      (sortWorld (churnDb 2) (churnWorld (finRange 2))) := by
    refine countersLow_of_small _ _ _ _ ?_
    decide
  exact ⟨hlow, (main_loop_terminates (churnDb 2) 0 _ _ hlow).2⟩

/-- 2^16 packages that the world asks for: the main loop never ends -/
theorem main_loop_wraps : ¬ ∃ fuel ss, choosePackages (churnDb (2 ^ 16)) fuel 0
    (fun _ => PkgState.zero) (sortWorld (churnDb (2 ^ 16)) (churnWorld (finRange (2 ^ 16)))) =
      some ss := by
  rintro ⟨fuel, ss, h⟩
  obtain ⟨l, hperm, hl⟩ := sortWorld_churnWorld
  rw [hl, choosePackages_churning le_rfl (hperm.nodup_iff.2 (nodup_finRange _))
    (fun i => hperm.mem_iff.2 (mem_finRange i))] at h
  cases h

end Alpine

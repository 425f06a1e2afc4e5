import Alpine.Sanity.SolverEnds
import Alpine.Sanity.SolverFuel

/-! The recursions around the main loop return: the discovery before it, which marks a name
before it goes on, and the changeset after it, which marks a name or a package. So a pass
returns with fuel for the size of the database when its counters of requirers do not wrap. -/

namespace Alpine

section

variable {N P : Type} (db : Database N P)

/-- what the discovery does not touch in a name -/
def nameKept (s : NameState N P) : Bool × ℕ × ℕ × Bool × Option (Provider P) :=
  (s.locked, s.requirers, s.mergeDepends, s.reevaluateDeps, s.chosen)

/-- the package is discovered, and the name is not left out of `install_if` for it -/
def Handled (n : N) (q : Provider P) (ss : SolverState N P) : Prop :=
  (ss.pkg q.pkg).seen = true ∧ ((ss.name n).noIif = true → (ss.pkg q.pkg).iifFailed = true)

/-- the discovery marks names and packages and leaves the rest of the state alone -/
structure Discovers (ss ss' : SolverState N P) : Prop where
  seen : ∀ n, (ss.name n).seen = true →
    (ss'.name n).seen = true ∧ ((ss'.name n).noIif = true → (ss.name n).noIif = true)
  found : ∀ n, (ss.name n).seen = false → (ss'.name n).seen = true → ∀ q ∈ db.providers n, Handled n q ss'
  pkg : ∀ p, ss'.pkg p = ss.pkg p ∨ (ss.pkg p).seen = false ∧ ss'.pkg p = discoverPkg db ss p
  kept : ∀ n, nameKept (ss'.name n) = nameKept (ss.name n)
  rest : (ss'.dirty, ss'.resolvenow, ss'.selectable, ss'.unresolved, ss'.defaultRepos, ss'.solverFlagsInherit) =
    (ss.dirty, ss.resolvenow, ss.selectable, ss.unresolved, ss.defaultRepos, ss.solverFlagsInherit)

variable (ss : SolverState N P)

theorem Discovers.refl : Discovers db ss ss :=
  ⟨fun _ h => ⟨h, id⟩, fun n h h' => by simp [h] at h', fun _ => Or.inl rfl, fun _ => rfl, rfl⟩

variable {db} {a b c : SolverState N P} {n : N} {q : Provider P}

theorem Discovers.pkg_eq (h : Discovers db a b) {p : P} (hp : (a.pkg p).seen = true) : b.pkg p = a.pkg p :=
  (h.pkg p).resolve_right fun hc => by simp [hp] at hc

theorem Discovers.handled (h : Discovers db a b) (hn : (a.name n).seen = true) (hq : Handled n q a) :
    Handled n q b := by
  rw [Handled, h.pkg_eq hq.1]
  exact ⟨hq.1, fun hb => hq.2 ((h.seen n hn).2 hb)⟩

theorem Discovers.trans (h : Discovers db a b) (h' : Discovers db b c) : Discovers db a c where
  seen n hn := ⟨(h'.seen n (h.seen n hn).1).1, fun hc => (h.seen n hn).2 ((h'.seen n (h.seen n hn).1).2 hc)⟩
  found n hn hc q hq := by
    cases hb : (b.name n).seen with
    | true => exact h'.handled hb (h.found n hn hb q hq)
    | false => exact h'.found n hb hc q hq
  pkg p := by
    rcases h'.pkg p with hp | ⟨hun, hp⟩
    · rw [hp]
      exact h.pkg p
    rcases h.pkg p with hp' | ⟨-, hp'⟩
    · have hrest := h.rest
      simp only [Prod.mk.injEq] at hrest
      refine Or.inr ⟨hp' ▸ hun, ?_⟩
      rw [hp]
      simp only [discoverPkg, hp', hrest]
    · rw [hp'] at hun
      cases hun
  kept n := (h'.kept n).trans (h.kept n)
  rest := h'.rest.trans h.rest

variable (db)

theorem discovers_setName [DecidableEq N] (n : N) (s : NameState N P) (hs : s.seen = (ss.name n).seen)
    (hi : s.noIif = true → (ss.name n).noIif = true)
    (hk : nameKept s = nameKept (ss.name n)) : Discovers db ss (ss.setName n s) := by
  have hseen : ∀ m, ((ss.setName n s).name m).seen = (ss.name m).seen := by
    intro m
    rw [setName_name]
    split_ifs with h
    · rw [hs, h]
    · rfl
  refine ⟨fun m hm => ⟨(hseen m).trans hm, ?_⟩, fun m hm hm' => ?_, fun _ => Or.inl rfl, fun m => ?_, rfl⟩
  · rw [setName_name]
    split_ifs with h
    · rwa [h]
    · exact id
  · rw [hseen, hm] at hm'
    cases hm'
  · rw [setName_name]
    split_ifs with h
    · rw [hk, h]
    · rfl

theorem discovers_setPkg [DecidableEq P] {p : P} (hp : (ss.pkg p).seen = false) :
    Discovers db ss (ss.setPkg p (discoverPkg db ss p)) := by
  refine ⟨fun _ h => ⟨h, id⟩, fun n h h' => ?_, fun r => ?_, fun _ => rfl, rfl⟩
  · rw [setPkg_name, h] at h'
    cases h'
  · rw [setPkg_pkg]
    split_ifs with h
    · rw [h]
      exact Or.inr ⟨hp, rfl⟩
    · exact Or.inl rfl

theorem orderName_discovers [DecidableEq N] (n : N) : Discovers db ss (orderName db ss n) := by
  obtain ⟨order, next, horder⟩ : ∃ order next, orderName db ss n =
    { ss.setName n { ss.name n with orderId := order } with orderId := next } := ⟨_, _, rfl⟩
  obtain ⟨h1, h2, h3, h4, -⟩ := discovers_setName db ss n { ss.name n with orderId := order } rfl id rfl
  rw [horder]
  exact ⟨h1, h2, h3, h4, rfl⟩

theorem QueuesOk.discovers [DecidableEq N] {ss ss' : SolverState N P} (h : QueuesOk ss) (hd : Discovers db ss ss') :
    QueuesOk ss' := by
  have hrest := hd.rest
  simp only [Prod.mk.injEq] at hrest
  obtain ⟨h1, h2, h3, h4, -⟩ := hrest
  refine ⟨h1 ▸ h.dirty, h2 ▸ h.resolvenow, h3 ▸ h.selectable, h4 ▸ h.unresolved, fun n hn => ?_⟩
  refine (congrArg Prod.fst (hd.kept n)).trans (h.unlocked n ?_)
  rw [hashed_iff] at hn ⊢
  rwa [← h2, ← h3, ← h4]

/-- the mark at the start of a name counts for what is done with its packages -/
theorem Discovers.of_start [DecidableEq N] (hn : (ss.name n).seen = false)
    (h : Discovers db (ss.setName n { ss.name n with seen := true, noIif := true }) b)
    (hall : ∀ q ∈ db.providers n, Handled n q b) : Discovers db ss b := by
  have hother : ∀ m, m ≠ n →
      (ss.setName n { ss.name n with seen := true, noIif := true }).name m = ss.name m := fun m hm => by
    rw [setName_name, if_neg hm]
  refine ⟨fun m hm => ?_, fun m hm hm' => ?_, h.pkg, fun m => (h.kept m).trans ?_, h.rest⟩
  · have hne : m ≠ n := by
      rintro rfl
      simp [hn] at hm
    rw [← hother m hne] at hm ⊢
    exact h.seen m hm
  · by_cases hne : m = n
    · rw [hne]
      exact hall
    · exact h.found m (by rw [hother m hne, hm]) hm'
  · by_cases hne : m = n
    · rw [hne, setName_same]
      rfl
    · rw [hother m hne]

variable [DecidableEq N] [DecidableEq P]

section

variable [Fintype N]

def unseen (ss : SolverState N P) : ℕ :=
  (Finset.univ.filter fun n => (ss.name n).seen = false).card

omit [DecidableEq N] [DecidableEq P] in
theorem Discovers.unseen_le (h : Discovers db a b) : unseen b ≤ unseen a :=
  Fuel.card_filter_le fun n => Fuel.unset fun hn => (h.seen n hn).1

omit [DecidableEq P] in
theorem unseen_start (hn : (ss.name n).seen = false) :
    unseen (ss.setName n { ss.name n with seen := true, noIif := true }) < unseen ss := by
  refine Fuel.card_filter_lt (fun m hm => ?_) hn (by simp)
  rw [setName_name] at hm
  split_ifs at hm
  exact hm

omit [Fintype N] in
theorem discoverProvider_returns {go : SolverState N P → N → Option (SolverState N P)}
    {s1 : SolverState N P}
    (hgo : ∀ s m, Discovers db s1 s → ∃ s', go s m = some s' ∧ Discovers db s s') (n : N)
    (s : SolverState N P) (p : Provider P) (hs : Discovers db s1 s) :
    ∃ s', discoverProvider db go n s p = some s' ∧ Discovers db s s' ∧ Handled n p s' := by
  have hdeps : ∃ s', discoverDepends db go s p.pkg = some s' ∧ Discovers db s s' ∧ (s'.pkg p.pkg).seen = true := by
    unfold discoverDepends
    split_ifs with hseen
    · exact ⟨s, rfl, .refl db s, hseen⟩
    have hset := discovers_setPkg db s (eq_false_of_ne_true hseen)
    obtain ⟨s', h', hd⟩ := Fuel.foldlM_returns (l := (db.package p.pkg).depends)
      (Q := Discovers db (s.setPkg p.pkg (discoverPkg db s p.pkg))) (f := fun s d => go s d.name)
      (fun t d _ ht => by
        obtain ⟨t', h', hd⟩ := hgo t d.name (hs.trans (hset.trans ht))
        exact ⟨t', h', ht.trans hd⟩) (.refl db _)
    refine ⟨s', h', hset.trans hd, ?_⟩
    rw [hd.pkg_eq (by rw [setPkg_same]; rfl), setPkg_same]
    rfl
  obtain ⟨s', h', hd, hseen⟩ := hdeps
  refine ⟨_, by rw [discoverProvider, h']; rfl, hd.trans (discovers_setName db s' n
    { s'.name n with noIif := (s'.name n).noIif && (s'.pkg p.pkg).iifFailed } rfl ?_ rfl), hseen, ?_⟩
  · exact fun h => (Bool.and_eq_true_iff.1 h).1
  · rw [setName_same]
    exact fun h => (Bool.and_eq_true_iff.1 h).2

theorem discoverName_returns (k : ℕ) (ss : SolverState N P) (n : N) (hk : unseen ss < k) :
    ∃ ss', discoverName db k ss n = some ss' ∧ Discovers db ss ss' ∧ (ss'.name n).seen = true := by
  induction k generalizing ss n with
  | zero => exact absurd hk (Nat.not_lt_zero _)
  | succ k ih =>
    unfold discoverName
    split_ifs with hseen
    · exact ⟨ss, rfl, .refl db ss, hseen⟩
    rw [Bool.not_eq_true] at hseen
    have hlt := unseen_start ss hseen
    have hown : ((ss.setName n { ss.name n with seen := true, noIif := true }).name n).seen = true := by simp
    have hstart := fun b => Discovers.of_start (b := b) db ss hseen
    generalize ss.setName n { ss.name n with seen := true, noIif := true } = s1 at hlt hown hstart ⊢
    -- every recursive call starts from a state that goes on from `s1`, so the fuel suffices
    have hgo : ∀ s m, Discovers db s1 s → ∃ s', discoverName db k s m = some s' ∧ Discovers db s s' := by
      intro s m hs
      obtain ⟨s', h, hd, -⟩ := ih s m (lt_of_le_of_lt hs.unseen_le (by omega))
      exact ⟨s', h, hd⟩
    let Q := fun s => Discovers db s1 s ∧ ∀ q ∈ db.providers n, Handled n q s
    have hkeep : ∀ {s s'}, Q s → Discovers db s s' → Q s' := fun hs hd =>
      ⟨hs.1.trans hd, fun q hq => hd.handled (hs.1.seen n hown).1 (hs.2 q hq)⟩
    have hstep : ∀ s m, Q s → ∃ s', discoverName db k s m = some s' ∧ Q s' := by
      intro s m hs
      obtain ⟨s', h, hd⟩ := hgo s m hs.1
      exact ⟨s', h, hkeep hs hd⟩
    refine Exists.imp (fun s h => ⟨h.1, hstart s h.2.1 h.2.2, (h.2.1.seen n hown).1⟩) (?_ : ∃ s', _ = some s' ∧ Q s')
    have hfirst : ∃ s', (db.providers n).foldlM (discoverProvider db (discoverName db k) n) s1 = some s' ∧ Q s' := by
      obtain ⟨s', h, hd, hall, -⟩ := Fuel.foldlM_marks (M := Handled n) (fun s p _ hs => by
        obtain ⟨s', h, hd, hp⟩ := discoverProvider_returns db hgo n s p hs
        exact ⟨s', h, hs.trans hd, hp, fun q hq => hd.handled (hs.seen n hown).1 hq⟩) (Discovers.refl db s1)
      exact ⟨s', h, hd, hall⟩
    refine Fuel.bind_returns hfirst fun s hs => ?_
    refine Fuel.bind_returns (Fuel.foldlM_returns (fun s m _ => hstep s m) hs) fun s hs => ?_
    refine Fuel.bind_returns (Fuel.foldlM_returns (fun s p _ h => ?_) hs) fun s hs => ?_
    · exact Fuel.bind_returns (Fuel.foldlM_returns (fun s m _ => hstep s m) h)
        fun s h => Fuel.foldlM_returns (fun s d _ => hstep s d.name) h
    · exact Fuel.foldlM_returns (fun s p _ h => Fuel.foldlM_returns (fun s d _ => hstep s d.name) h)
        (hkeep hs (orderName_discovers db s n))

end

section

variable [Fintype N] [Fintype P]

def pending (ss : SolverState N P) : ℕ :=
  (Finset.univ.filter fun n => (ss.name n).changesetProcessed = false).card +
    (Finset.univ.filter fun p => (ss.pkg p).inChangeset = false).card

variable (ss : SolverState N P) {a b : SolverState N P} {k : ℕ}

omit [DecidableEq N] [DecidableEq P] in
theorem Commits.pending_le (h : Commits a b) : pending b ≤ pending a :=
  Nat.add_le_add (Fuel.card_filter_le fun n => Fuel.unset (h.processed n))
    (Fuel.card_filter_le fun p => Fuel.unset (h.inChangeset p))

omit [DecidableEq N] [DecidableEq P] in
theorem Commits.pending_lt_name (h : Commits a b) {n : N}
    (ha : (a.name n).changesetProcessed = false) (hb : (b.name n).changesetProcessed = true) :
    pending b < pending a :=
  Nat.add_lt_add_of_lt_of_le (Fuel.card_filter_lt (fun n => Fuel.unset (h.processed n)) ha (by simp [hb]))
    (Fuel.card_filter_le fun p => Fuel.unset (h.inChangeset p))

omit [DecidableEq N] [DecidableEq P] in
theorem Commits.pending_lt_pkg (h : Commits a b) {p : P} (ha : (a.pkg p).inChangeset = false)
    (hb : (b.pkg p).inChangeset = true) : pending b < pending a :=
  Nat.add_lt_add_of_le_of_lt (Fuel.card_filter_le fun n => Fuel.unset (h.processed n))
    (Fuel.card_filter_lt (fun p => Fuel.unset (h.inChangeset p)) ha (by simp [hb]))

/-- from a state with at most `k` things to mark, the computation returns a later state -/
def Commit (k : ℕ) (f : SolverState N P → Option (SolverState N P)) : Prop :=
  ∀ ss, pending ss ≤ k → ∃ ss', f ss = some ss' ∧ Commits ss ss'

variable {world : List (Dependency N)} {s : SolverState N P}

omit [DecidableEq N] [DecidableEq P] in
/-- a function of the changeset returns if the two functions it calls do -/
theorem CsetProg.commit {go : CsetCall N P → SolverState N P → Option (SolverState N P)}
    (hgo : ∀ c, Commit k (go c)) {F : CsetFun N P} (hF : CsetProg F) : Commit k (F go) := by
  intro ss hk
  induction hF generalizing ss with
  | pure => exact ⟨ss, rfl, .refl ss⟩
  | call c => exact hgo c ss hk
  | marks hf _ ih =>
    have hc := hf.commits ss
    obtain ⟨s', h', hc'⟩ := ih _ (hc.pending_le.trans hk)
    exact ⟨s', h', hc.trans hc'⟩
  | bind _ _ ihF ihG =>
    refine Fuel.bind_returns (ihF ss hk) fun s hs => ?_
    obtain ⟨s', h', hc⟩ := ihG s (hs.pending_le.trans hk)
    exact ⟨s', h', hs.trans hc⟩
  | look v _ _ ih => exact ih _ ss hk

/-- the two functions mark something before they call each other -/
theorem csetRun_commit (k : ℕ) (c : CsetCall N P) : Commit k (csetRun db (k + 1) c) := by
  induction k generalizing c with
  | zero =>
    intro ss hk
    have hpending : pending ss = 0 := Nat.le_zero.1 hk
    cases c with
    | nameChange n =>
      refine ⟨ss, ?_, .refl ss⟩
      have hn : (ss.name n).changesetProcessed = true := by
        by_contra hn
        have hpos : 0 < (Finset.univ.filter fun n =>
            (ss.name n).changesetProcessed = false).card :=
          Finset.card_pos.2 ⟨n, by simp [hn]⟩
        unfold pending at hpending
        omega
      simp [csetRun, csetGenNameChange, hn]
    | nameRemove pkg =>
      refine ⟨ss, ?_, .refl ss⟩
      have hp : (ss.pkg pkg).inChangeset = true := by
        by_contra hp
        have hpos : 0 < (Finset.univ.filter fun p => (ss.pkg p).inChangeset = false).card :=
          Finset.card_pos.2 ⟨pkg, by simp [hp]⟩
        unfold pending at hpending
        omega
      simp [csetRun, csetGenNameRemove, hp]
  | succ k ih =>
    intro ss hk
    cases c with
    | nameChange n =>
      change ∃ ss', csetGenNameChange db (csetRun db (k + 1)) ss n = some ss' ∧ Commits ss ss'
      unfold csetGenNameChange csetGenNamePreprocess
      split_ifs with hn
      · exact ⟨ss, rfl, .refl ss⟩
      have hmark := (markProcessed_marks (n := n)).commits ss
      have hlt : pending (markProcessed ss n) ≤ k := by
        have := hmark.pending_lt_name (n := n) (eq_false_of_ne_true hn) (by simp [markProcessed])
        omega
      obtain ⟨s, h, hc⟩ := ((csetRemoveOld_prog db n).bind (csetGenChosen_prog db n)).commit ih _ hlt
      exact ⟨s, h, hmark.trans hc⟩
    | nameRemove pkg =>
      change ∃ ss', csetGenNameRemove db (csetRun db (k + 1)) ss pkg = some ss' ∧ Commits ss ss'
      unfold csetGenNameRemove
      simp only
      split_ifs with hp
      · exact ⟨ss, rfl, .refl ss⟩
      have hmark := ((markRemoved_marks (n := (db.package pkg).name)).commits ss).trans
        ((markInChangeset_marks (p := pkg)).commits _)
      have hlt : pending (markInChangeset (markRemoved ss (db.package pkg).name) pkg) ≤ k := by
        have := hmark.pending_lt_pkg (p := pkg) (eq_false_of_ne_true fun h => hp (Or.inl h))
          (by simp [markInChangeset])
        omega
      obtain ⟨s, h, hc⟩ := (csetRemoveRest_prog db pkg).commit ih _ hlt
      exact ⟨s, h, hmark.trans hc⟩

omit [DecidableEq N] [DecidableEq P] in
theorem pending_le_card : pending ss ≤ Fintype.card N + Fintype.card P :=
  Nat.add_le_add (Finset.card_le_univ _) (Finset.card_le_univ _)

theorem generateChangeset_returns (fuel : ℕ) (hfuel : Fintype.card N + Fintype.card P < fuel)
    (ss : SolverState N P) (world : List (Dependency N)) :
    ∃ ss', generateChangeset db fuel ss world = some ss' ∧
      ∀ n, (ss'.name n).chosen = (ss.name n).chosen := by
  obtain ⟨k, rfl⟩ : ∃ k, fuel = k + 1 := ⟨fuel - 1, by omega⟩
  obtain ⟨s', h', hc⟩ := (generateChangeset_prog db world).commit (csetRun_commit db k) ss
    (le_trans (pending_le_card ss) (by omega))
  exact ⟨s', h', hc.chosen⟩

variable (flags : ℕ) (pkg : P → PkgState)

omit [DecidableEq P] [Fintype N] [Fintype P] in
theorem passStart_ok : QueuesOk (passStart db flags pkg : SolverState N P) :=
  ⟨List.nodup_nil, List.nodup_nil, List.nodup_nil, List.nodup_nil, fun _ _ => rfl⟩

omit [Fintype P] in
theorem discoverWorld_returns (fuel : ℕ) (hfuel : Fintype.card N < fuel)
    (world : List (Dependency N)) : ∃ s, discoverWorld db fuel (passStart db flags pkg) world = some s ∧
      Discovers db (passStart db flags pkg) s ∧ ∀ d ∈ world, d.broken = true ∨ (s.name d.name).seen = true := by
  obtain ⟨s, h, hd, hall, -⟩ := Fuel.foldlM_marks (l := world) (f := discoverWorldDep db fuel)
    (Q := Discovers db (passStart db flags pkg)) (M := fun d s => d.broken = true ∨ (s.name d.name).seen = true)
    (fun s d _ hs => by
      unfold discoverWorldDep
      split_ifs with hb
      · exact ⟨s, rfl, hs, Or.inl hb, fun _ h => h⟩
      · have hk : unseen s < fuel := lt_of_le_of_lt (Finset.card_le_univ _) hfuel
        obtain ⟨s', h, hd, hseen⟩ := discoverName_returns db fuel s d.name hk
        exact ⟨s', h, hs.trans hd, Or.inr hseen, fun e he => he.imp id fun he => (hd.seen _ he).1⟩) (.refl db _)
  exact ⟨s, h, hd, hall⟩

omit [Fintype P] in
theorem discoverWorld_discovers (hs : discoverWorld db k (passStart db flags pkg) world = some s) :
    Discovers db (passStart db flags pkg) s ∧ ∀ d ∈ world, d.broken = true ∨ (s.name d.name).seen = true := by
  obtain ⟨s', hs', hd⟩ := discoverWorld_returns db flags pkg (k + Fintype.card N + 1) (by omega) world
  have := discoverWorld_le db k (Fintype.card N + 1) (passStart db flags pkg) world s hs
  rw [← Nat.add_assoc, hs'] at this
  exact Option.some.inj this ▸ hd

omit [Fintype N] [Fintype P] in
theorem applyWorldDep_keeps (d : Dependency N) : Keeps 1 ss (applyWorldDep db ss d) := by
  unfold applyWorldDep
  split_ifs
  · exact (Keeps.refl ss).mono (Nat.zero_le 1)
  have hpin : Keeps 0 ss { ss with pinningInherit := 2 ^ d.repositoryTag % 2 ^ 32 } :=
    ⟨⟨fun _ h => h, fun _ h => h, fun h => ⟨h.dirty, h.resolvenow, h.selectable, h.unresolved, h.unlocked⟩,
      fun _ _ => ⟨le_rfl, le_rfl⟩⟩, rfl⟩
  exact hpin.trans (applyConstraint_moves db _ none d).keeps

omit [Fintype N] [Fintype P] in
theorem applyWorld_keeps (world : List (Dependency N)) :
    Keeps world.length ss (applyWorld db ss world) := by
  have hfold := foldl_keeps (l := world) 1 (fun s d _ => applyWorldDep_keeps db s d) ss
  rw [Nat.mul_one] at hfold
  refine ⟨⟨hfold.locked, hfold.selectable, fun h => ?_, hfold.requirers⟩, hfold.held⟩
  have hok := hfold.ok h
  exact ⟨hok.dirty, hok.resolvenow, hok.selectable, hok.unresolved, hok.unlocked⟩

/-- no counter of requirers comes near its end in the main loop of a pass -/
def CountersLow (world : List (Dependency N)) : Prop :=
  ∀ k s, discoverWorld db k (passStart db flags pkg) world = some s →
    ∀ ss, SolveReaches db (applyWorld db s world) ss → Low db.stepBudget ss

def roundBound (N P : Type) [Fintype N] [Fintype P] : ℕ :=
  (2 * Fintype.card N + Fintype.card P) * (Fintype.card N + 1) + Fintype.card N

def passFuel (N P : Type) [Fintype N] [Fintype P] : ℕ :=
  roundBound N P + Fintype.card P + 1

omit [DecidableEq P] in
theorem loopMeasure_le {ss : SolverState N P} (hok : QueuesOk ss) : loopMeasure ss ≤ roundBound N P := by
  have h1 := Nat.mul_le_mul_right (Fintype.card N + 1) (openItems_le ss)
  have h2 : ss.dirty.length ≤ Fintype.card N := hok.dirty.length_le_card
  unfold loopMeasure roundBound
  omega

theorem choosePackages_returns (h : CountersLow db flags pkg world) :
    ∃ s, choosePackages db (passFuel N P) flags pkg world = some s := by
  obtain ⟨s, hs, hd, -⟩ := discoverWorld_returns db flags pkg (passFuel N P)
    (by unfold passFuel roundBound; omega) world
  have hok := (applyWorld_keeps db s world).ok ((passStart_ok db flags pkg).discovers db hd)
  have hmeasure : loopMeasure (applyWorld db s world) < passFuel N P := by
    have := loopMeasure_le hok
    unfold passFuel roundBound at *
    omega
  obtain ⟨s', hs'⟩ := solveLoop_returns db (passFuel N P) _ hok (h _ s hs) hmeasure
  exact ⟨s', Option.bind_eq_some_iff.2 ⟨s, hs, hs'⟩⟩

theorem solverPass_returns (cs : Changeset P) (h : CountersLow db flags pkg world) :
    ∃ ss, solverPass db (passFuel N P) flags pkg cs world = some ss := by
  obtain ⟨s, hs⟩ := choosePackages_returns db flags pkg h
  obtain ⟨s', hs', -⟩ := generateChangeset_returns db (passFuel N P)
    (by unfold passFuel roundBound; omega) { s with changeset := cs } world
  exact ⟨s', Option.bind_eq_some_iff.2 ⟨s, hs, hs'⟩⟩

/-- the rounds of the main loop that are left bound what the counters can still grow by -/
theorem reaches_low {C : ℕ} {ss : SolverState N P} (hC : C + db.stepBudget < 2 ^ 16)
    (hok : QueuesOk ss) (h : ∀ n, (ss.name n).requirers + loopMeasure ss * db.stepBudget ≤ C)
    (hs : SolveReaches db ss s) : Low db.stepBudget s := by
  have hinv : QueuesOk s ∧ ∀ n, (s.name n).requirers + loopMeasure s * db.stepBudget ≤ C := by
    induction hs with
    | refl => exact ⟨hok, h⟩
    | @tail a b _ hstep ih =>
      have hlow : Low db.stepBudget a := fun n => by
        have := ih.2 n
        omega
      obtain ⟨hsteps, hok', hlt⟩ := solveStep_ok db ih.1 hlow hstep
      refine ⟨hok', fun n => ?_⟩
      have h1 := (hsteps.requirers hlow n).2
      have h2 := ih.2 n
      have h3 := Nat.mul_le_mul_right db.stepBudget (Nat.succ_le_of_lt hlt)
      rw [Nat.succ_mul] at h3
      omega
  intro n
  have := hinv.2 n
  omega

theorem countersLow_of_small (world : List (Dependency N))
    (h : world.length + (roundBound N P + 1) * db.stepBudget < 2 ^ 16) :
    CountersLow db flags pkg world := by
  intro k s hs ss hreach
  have hd := (discoverWorld_discovers db flags pkg hs).1
  have hok := (passStart_ok db flags pkg).discovers db hd
  have hzero : ∀ n, (s.name n).requirers = 0 := fun n => congrArg (fun x => x.2.1) (hd.kept n)
  have hsteps := applyWorld_keeps db s world
  rw [Nat.succ_mul] at h
  have hstart : ∀ n, ((applyWorld db s world).name n).requirers ≤ world.length := by
    intro n
    have hlow : Low world.length s := fun m => by
      rw [hzero m]
      omega
    have := (hsteps.requirers hlow n).2
    rw [hzero n] at this
    omega
  refine reaches_low db (C := world.length + roundBound N P * db.stepBudget) (by omega)
    (hsteps.ok hok) (fun n => ?_) hreach
  exact Nat.add_le_add (hstart n) (Nat.mul_le_mul_right _ (loopMeasure_le (hsteps.ok hok)))

end

end

end Alpine

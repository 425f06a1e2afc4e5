import Alpine.Spec.Solver
import Alpine.Sanity.Fuel

/-! What the functions of the solver may do to its state. `Steps` holds of all of them: a locked
name stays locked, a package that is not selectable stays so, the queues stay sound, and as long
as no counter of requirers wraps, none falls. `Keeps` adds that no name is given to a provider,
which `assign_name` alone does, and `Moves` adds that the dirty list grows only when
one of the three has moved; it holds of everything that reconsidering a name does, and makes the
main loop end. -/

namespace Alpine

open List

section

variable {N P : Type} [DecidableEq N] (ss : SolverState N P) (n m : N) (s : NameState N P)

@[simp] theorem setName_same : (ss.setName n s).name n = s := Function.update_self ..

theorem setName_name : (ss.setName n s).name m = if m = n then s else ss.name m :=
  Function.update_apply ..

@[simp] theorem setName_pkg : (ss.setName n s).pkg = ss.pkg := rfl
@[simp] theorem setName_dirty : (ss.setName n s).dirty = ss.dirty := rfl
@[simp] theorem setName_resolvenow : (ss.setName n s).resolvenow = ss.resolvenow := rfl
@[simp] theorem setName_selectable : (ss.setName n s).selectable = ss.selectable := rfl
@[simp] theorem setName_unresolved : (ss.setName n s).unresolved = ss.unresolved := rfl
@[simp] theorem unqueue_name : (ss.unqueue n).name = ss.name := rfl
@[simp] theorem unqueue_pkg : (ss.unqueue n).pkg = ss.pkg := rfl
@[simp] theorem unqueue_dirty : (ss.unqueue n).dirty = ss.dirty := rfl

end

section

variable {N P : Type} [DecidableEq P] (ss : SolverState N P) (p q : P) (t : PkgState)

@[simp] theorem setPkg_same : (ss.setPkg p t).pkg p = t := Function.update_self ..

theorem setPkg_pkg : (ss.setPkg p t).pkg q = if q = p then t else ss.pkg q :=
  Function.update_apply ..

@[simp] theorem setPkg_name : (ss.setPkg p t).name = ss.name := rfl
@[simp] theorem setPkg_dirty : (ss.setPkg p t).dirty = ss.dirty := rfl

end

section

variable {N P : Type} [DecidableEq N]

/-- no name is in a list twice, and only names without a choice wait for one -/
structure QueuesOk (ss : SolverState N P) : Prop where
  dirty : ss.dirty.Nodup
  resolvenow : ss.resolvenow.Nodup
  selectable : ss.selectable.Nodup
  unresolved : ss.unresolved.Nodup
  unlocked : ∀ n, ss.hashed n = true → (ss.name n).locked = false

theorem hashed_iff {ss : SolverState N P} {n : N} :
    ss.hashed n = true ↔ n ∈ ss.resolvenow ∨ n ∈ ss.selectable ∨ n ∈ ss.unresolved :=
  decide_eq_true_iff

omit [DecidableEq N] in
theorem mem_queueInsert {order : N → ℤ} {n m : N} {l : List N} :
    m ∈ queueInsert order n l ↔ m = n ∨ m ∈ l := by
  induction l with
  | nil => simp [queueInsert]
  | cons x l ih =>
    unfold queueInsert
    split_ifs
    · rw [mem_cons, ih, mem_cons]
      exact or_left_comm
    · rw [mem_cons]

variable {n : N} {ss a b c : SolverState N P} {j k : ℕ} {α : Type}

omit [DecidableEq N] in
theorem nodup_queueInsert {order : N → ℤ} {l : List N} (hl : l.Nodup) (hn : n ∉ l) :
    (queueInsert order n l).Nodup := by
  induction l with
  | nil => exact nodup_singleton n
  | cons x l ih =>
    rw [nodup_cons] at hl
    rw [mem_cons, not_or] at hn
    unfold queueInsert
    split_ifs
    · refine nodup_cons.2 ⟨?_, ih hl.2 hn.2⟩
      rw [mem_queueInsert]
      rintro (h | h)
      · exact hn.1 h.symm
      · exact hl.1 h
    · exact nodup_cons.2 ⟨by simp [hn.1, hn.2], nodup_cons.2 hl⟩

theorem QueuesOk.unqueue (h : QueuesOk ss) (n : N) :
    QueuesOk (ss.unqueue n) ∧ (ss.unqueue n).hashed n = false := by
  refine ⟨⟨h.dirty, h.resolvenow.erase n, h.selectable.erase n, h.unresolved.erase n, ?_⟩, ?_⟩
  · intro m hm
    apply h.unlocked m
    rw [hashed_iff] at hm ⊢
    exact hm.imp mem_of_mem_erase (Or.imp mem_of_mem_erase mem_of_mem_erase)
  · rw [← Bool.not_eq_true, hashed_iff]
    simp [SolverState.unqueue, h.resolvenow.mem_erase_iff, h.selectable.mem_erase_iff,
      h.unresolved.mem_erase_iff]

theorem QueuesOk.enqueue (h : QueuesOk ss) (hn : ss.hashed n = false)
    (hl : (ss.name n).locked = false) : QueuesOk (enqueue ss n) := by
  rw [← Bool.not_eq_true, hashed_iff, not_or, not_or] at hn
  have hopen : ∀ m, m = n ∨ ss.hashed m = true → (ss.name m).locked = false := by
    rintro m (rfl | hm)
    · exact hl
    · exact h.unlocked m hm
  unfold Alpine.enqueue
  split_ifs
  · refine ⟨h.dirty, h.resolvenow.append (nodup_singleton n) (by simpa using hn.1), h.selectable, h.unresolved,
      fun m hm => hopen m ?_⟩
    simp only [hashed_iff, mem_append, mem_singleton] at hm ⊢
    tauto
  · refine ⟨h.dirty, h.resolvenow, nodup_queueInsert h.selectable hn.2.1, h.unresolved,
      fun m hm => hopen m ?_⟩
    simp only [hashed_iff, mem_queueInsert] at hm ⊢
    tauto
  · refine ⟨h.dirty, h.resolvenow, h.selectable, nodup_queueInsert h.unresolved hn.2.2,
      fun m hm => hopen m ?_⟩
    simp only [hashed_iff, mem_queueInsert] at hm ⊢
    tauto

/-- no counter of requirers wraps within `k` more requirers -/
def Low (k : ℕ) (ss : SolverState N P) : Prop := ∀ n, (ss.name n).requirers + k < 2 ^ 16

structure Steps (k : ℕ) (ss ss' : SolverState N P) : Prop where
  locked : ∀ n, (ss.name n).locked = true → (ss'.name n).locked = true
  selectable : ∀ p, (ss'.pkg p).pkgSelectable = true → (ss.pkg p).pkgSelectable = true
  ok : QueuesOk ss → QueuesOk ss'
  requirers : Low k ss → ∀ n, (ss.name n).requirers ≤ (ss'.name n).requirers ∧
    (ss'.name n).requirers ≤ (ss.name n).requirers + k

/-- which names are locked, and the providers they are given to -/
def SolverState.held (ss : SolverState N P) : N → Bool × Option (Provider P) :=
  fun n => ((ss.name n).locked, (ss.name n).chosen)

structure Keeps (k : ℕ) (ss ss' : SolverState N P) : Prop extends Steps k ss ss' where
  held : ss'.held = ss.held

/-- a name is locked, a package given up or a name required for the first time -/
def Shrinks (ss ss' : SolverState N P) : Prop :=
  (∃ n, (ss.name n).locked = false ∧ (ss'.name n).locked = true) ∨
    (∃ p, (ss.pkg p).pkgSelectable = true ∧ (ss'.pkg p).pkgSelectable = false) ∨
    ∃ n, (ss.name n).requirers = 0 ∧ (ss'.name n).requirers ≠ 0

structure Moves (k : ℕ) (ss ss' : SolverState N P) : Prop where
  keeps : Keeps k ss ss'
  dirty : Low k ss → ss'.dirty = ss.dirty ∨ Shrinks ss ss'

open Moves

omit [DecidableEq N] in
theorem Low.mono (h : Low k ss) (hjk : j ≤ k) : Low j ss :=
  fun n => lt_of_le_of_lt (Nat.add_le_add_left hjk _) (h n)

theorem Low.after {ss' : SolverState N P} (h : Low (j + k) ss) (hs : Steps j ss ss') : Low k ss' := by
  intro n
  have h1 := (hs.requirers (h.mono (Nat.le_add_right j k)) n).2
  have h2 := h n
  omega

theorem Steps.refl (ss : SolverState N P) : Steps 0 ss ss :=
  ⟨fun _ h => h, fun _ h => h, fun h => h, fun _ _ => ⟨le_rfl, le_rfl⟩⟩

theorem Steps.trans (h : Steps j a b) (h' : Steps k b c) : Steps (j + k) a c where
  locked n hn := h'.locked n (h.locked n hn)
  selectable p hp := h.selectable p (h'.selectable p hp)
  ok ha := h'.ok (h.ok ha)
  requirers hlow n := by
    obtain ⟨h1, h2⟩ := h.requirers (hlow.mono (Nat.le_add_right j k)) n
    obtain ⟨h3, h4⟩ := h'.requirers (hlow.after h) n
    exact ⟨le_trans h1 h3, by omega⟩

theorem Steps.mono (h : Steps j a b) (hjk : j ≤ k) : Steps k a b where
  locked := h.locked
  selectable := h.selectable
  ok := h.ok
  requirers hlow n := by
    obtain ⟨h1, h2⟩ := h.requirers (hlow.mono hjk) n
    exact ⟨h1, by omega⟩

theorem Shrinks.before (h : Steps j a b) (hlow : Low j a) (hs : Shrinks b c) : Shrinks a c := by
  rcases hs with ⟨n, h1, h2⟩ | ⟨p, h1, h2⟩ | ⟨n, h1, h2⟩
  · refine Or.inl ⟨n, ?_, h2⟩
    by_contra hn
    rw [h.locked n (eq_true_of_ne_false hn)] at h1
    simp at h1
  · exact Or.inr (Or.inl ⟨p, h.selectable p h1, h2⟩)
  · have := (h.requirers hlow n).1
    exact Or.inr (Or.inr ⟨n, by omega, h2⟩)

theorem Shrinks.after (hs : Shrinks a b) (h : Steps k b c) (hlow : Low k b) : Shrinks a c := by
  rcases hs with ⟨n, h1, h2⟩ | ⟨p, h1, h2⟩ | ⟨n, h1, h2⟩
  · exact Or.inl ⟨n, h1, h.locked n h2⟩
  · refine Or.inr (Or.inl ⟨p, h1, ?_⟩)
    by_contra hp
    rw [h.selectable p (eq_true_of_ne_false hp)] at h2
    simp at h2
  · have := (h.requirers hlow n).1
    exact Or.inr (Or.inr ⟨n, h1, by omega⟩)

theorem Keeps.refl (ss : SolverState N P) : Keeps 0 ss ss := ⟨Steps.refl ss, rfl⟩

theorem Keeps.trans (h : Keeps j a b) (h' : Keeps k b c) : Keeps (j + k) a c :=
  ⟨h.toSteps.trans h'.toSteps, h'.held.trans h.held⟩

theorem Keeps.mono (h : Keeps j a b) (hjk : j ≤ k) : Keeps k a b := ⟨h.toSteps.mono hjk, h.held⟩

theorem Moves.refl (ss : SolverState N P) : Moves 0 ss ss := ⟨Keeps.refl ss, fun _ => Or.inl rfl⟩

theorem Moves.trans (h : Moves j a b) (h' : Moves k b c) : Moves (j + k) a c := by
  refine ⟨h.keeps.trans h'.keeps, fun hlow => ?_⟩
  have hlowj := hlow.mono (Nat.le_add_right j k)
  have hlowk := hlow.after h.keeps.toSteps
  rcases h.dirty hlowj with h1 | h1
  · rcases h'.dirty hlowk with h2 | h2
    · exact Or.inl (h2.trans h1)
    · exact Or.inr (h2.before h.keeps.toSteps hlowj)
  · exact Or.inr (h1.after h'.keeps.toSteps hlowk)

theorem Moves.mono (h : Moves j a b) (hjk : j ≤ k) :
    Moves k a b := ⟨h.keeps.mono hjk, fun hlow => h.dirty (hlow.mono hjk)⟩

theorem Moves.of_shrinks (h : Keeps k a b) (hs : Low k a → Shrinks a b) :
    Moves k a b := ⟨h, fun hlow => Or.inr (hs hlow)⟩

theorem Keeps.trans0 (h : Keeps 0 a b) (h' : Keeps 0 b c) : Keeps 0 a c := h.trans h'

theorem Moves.trans0 (h : Moves 0 a b) (h' : Moves 0 b c) : Moves 0 a c := h.trans h'

theorem foldl_steps {f : SolverState N P → α → SolverState N P} {l : List α} (c : ℕ)
    (h : ∀ ss, ∀ x ∈ l, Steps c ss (f ss x)) (ss : SolverState N P) :
    Steps (l.length * c) ss (l.foldl f ss) :=
  Fuel.foldl_counted Steps.refl Steps.trans c h ss

theorem foldl_keeps {f : SolverState N P → α → SolverState N P} {l : List α} (c : ℕ)
    (h : ∀ ss, ∀ x ∈ l, Keeps c ss (f ss x)) (ss : SolverState N P) :
    Keeps (l.length * c) ss (l.foldl f ss) :=
  Fuel.foldl_counted Keeps.refl Keeps.trans c h ss

theorem foldl_moves {f : SolverState N P → α → SolverState N P} {l : List α} (c : ℕ)
    (h : ∀ ss, ∀ x ∈ l, Moves c ss (f ss x)) (ss : SolverState N P) :
    Moves (l.length * c) ss (l.foldl f ss) :=
  Fuel.foldl_counted Moves.refl Moves.trans c h ss

theorem foldl_keeps0 {f : SolverState N P → α → SolverState N P} {l : List α}
    (h : ∀ ss, ∀ x ∈ l, Keeps 0 ss (f ss x)) {ss : SolverState N P} : Keeps 0 ss (l.foldl f ss) :=
  foldl_keeps 0 h ss

theorem foldl_moves0 {f : SolverState N P → α → SolverState N P} {l : List α}
    (h : ∀ ss, ∀ x ∈ l, Moves 0 ss (f ss x)) (ss : SolverState N P) : Moves 0 ss (l.foldl f ss) :=
  foldl_moves 0 h ss

theorem moves_setName (ss : SolverState N P) (n : N) (s : NameState N P)
    (hl : s.locked = (ss.name n).locked) (hr : s.requirers = (ss.name n).requirers)
    (hc : s.chosen = (ss.name n).chosen) : Moves 0 ss (ss.setName n s) := by
  have hname : ∀ m, ((ss.setName n s).name m).locked = (ss.name m).locked ∧
      ((ss.setName n s).name m).requirers = (ss.name m).requirers ∧
      ((ss.setName n s).name m).chosen = (ss.name m).chosen := by
    intro m
    rw [setName_name]
    split_ifs with hm
    · subst hm
      exact ⟨hl, hr, hc⟩
    · exact ⟨rfl, rfl, rfl⟩
  refine ⟨⟨⟨fun m hm => (hname m).1.trans hm, fun _ h => h, fun h => ?_, fun _ m => ?_⟩,
    funext fun m => Prod.ext (hname m).1 (hname m).2.2⟩, fun _ => Or.inl rfl⟩
  · exact ⟨h.dirty, h.resolvenow, h.selectable, h.unresolved,
      fun m hm => (hname m).1.trans (h.unlocked m hm)⟩
  · rw [(hname m).2.1]
    exact ⟨le_rfl, le_rfl⟩

theorem moves_setPkg [DecidableEq P] (ss : SolverState N P) (p : P) (t : PkgState)
    (h : t.pkgSelectable = true → (ss.pkg p).pkgSelectable = true) :
    Moves 0 ss (ss.setPkg p t) := by
  refine ⟨⟨⟨fun _ h => h, fun q hq => ?_, fun h => ⟨h.dirty, h.resolvenow, h.selectable,
    h.unresolved, h.unlocked⟩, fun _ _ => ⟨le_rfl, le_rfl⟩⟩, rfl⟩, fun _ => Or.inl rfl⟩
  rw [setPkg_pkg] at hq
  split_ifs at hq with hqp
  · subst hqp
    exact h hq
  · exact hq

theorem markError_moves [DecidableEq P] (ss : SolverState N P) (p : Option P) : Moves 0 ss (markError ss p) := by
  unfold markError
  cases p with
  | none => exact refl ss
  | some p =>
    simp only
    split_ifs
    · exact refl ss
    have h := moves_setPkg ss p { ss.pkg p with error := true } fun h => h
    exact ⟨⟨⟨h.keeps.locked, h.keeps.selectable, fun hok =>
      have := h.keeps.ok hok
      ⟨this.dirty, this.resolvenow, this.selectable, this.unresolved, this.unlocked⟩,
      h.keeps.requirers⟩, h.keeps.held⟩, h.dirty⟩

theorem queueDirty_keeps {ss : SolverState N P} {n : N} : Keeps 0 ss (queueDirty ss n) := by
  unfold queueDirty
  split_ifs with h
  · exact Keeps.refl ss
  refine ⟨⟨fun _ h => h, fun _ h => h, fun hok => ?_, fun _ _ => ⟨le_rfl, le_rfl⟩⟩, rfl⟩
  have hn : n ∉ ss.dirty := fun hn => h (Or.inl hn)
  exact ⟨hok.dirty.append (nodup_singleton n) (by simpa using hn), hok.resolvenow,
    hok.selectable, hok.unresolved, hok.unlocked⟩

omit [DecidableEq N] in
theorem enqueue_name (ss : SolverState N P) (n : N) : (enqueue ss n).name = ss.name ∧
    (enqueue ss n).pkg = ss.pkg ∧ (enqueue ss n).dirty = ss.dirty := by
  unfold enqueue
  split_ifs <;> exact ⟨rfl, rfl, rfl⟩

theorem enqueue_moves {ss' : SolverState N P} (h : Moves 0 ss ss')
    (hq : QueuesOk ss → QueuesOk ss' ∧ ss'.hashed n = false) (hl : (ss'.name n).locked = false) :
    Moves 0 ss (enqueue ss' n) := by
  obtain ⟨h1, h2, h3⟩ := enqueue_name ss' n
  refine ⟨⟨⟨?_, ?_, fun hok => ?_, ?_⟩, ?_⟩, ?_⟩
  · rw [h1]
    exact h.keeps.locked
  · rw [h2]
    exact h.keeps.selectable
  · obtain ⟨hok', hh⟩ := hq hok
    exact hok'.enqueue hh hl
  · rw [h1]
    exact h.keeps.requirers
  · unfold SolverState.held
    rw [h1]
    exact h.keeps.held
  rw [h3]
  intro hlow
  rcases h.dirty hlow with hd | hd
  · exact Or.inl hd
  refine Or.inr ?_
  unfold Shrinks at hd ⊢
  rw [h1, h2]
  exact hd

theorem unqueue_moves {ss : SolverState N P} {n : N} : Moves 0 ss (ss.unqueue n) :=
  ⟨⟨⟨fun _ h => h, fun _ h => h, fun h => (h.unqueue n).1, fun _ _ => ⟨le_rfl, le_rfl⟩⟩, rfl⟩,
    fun _ => Or.inl rfl⟩

theorem queueUnresolved_moves (ss : SolverState N P) (n : N) (reevaluate : Bool) :
    Moves 0 ss (queueUnresolved ss n reevaluate) := by
  have hset : ∀ r, Moves 0 ss (ss.setName n { ss.name n with resolvenow := r }) :=
    fun r => moves_setName ss n _ rfl rfl rfl
  unfold queueUnresolved
  split_ifs with hl hh
  · exact refl ss
  · exact refl ss
  · refine enqueue_moves ((hset true).trans0 unqueue_moves) (fun hok => ?_) ?_
    · exact ((hset true).keeps.ok hok).unqueue n
    · simpa using hl
  · exact refl ss
  · refine enqueue_moves unqueue_moves (fun hok => hok.unqueue n) ?_
    simpa using hl
  · exact refl ss
  · refine enqueue_moves (hset _) (fun hok => ⟨(hset _).keeps.ok hok, ?_⟩) ?_
    · exact eq_false_of_ne_true hh
    · simpa using hl

end

section

variable {N P : Type} [DecidableEq N] (db : Database N P)

variable (ss : SolverState N P)

theorem reevaluateReverseDeps_keeps {n : N} : Keeps 0 ss (reevaluateReverseDeps db ss n) := by
  refine foldl_keeps0 (fun ss n0 _ => ?_)
  split_ifs
  · exact Keeps.refl ss
  · exact (moves_setName ss n0 _ (by rfl) (by rfl) (by rfl)).keeps.trans0 queueDirty_keeps

theorem reevaluateReverseInstallif_keeps {n : N} : Keeps 0 ss (reevaluateReverseInstallif db ss n) := by
  refine foldl_keeps0 (fun ss n0 _ => ?_)
  split_ifs
  · exact Keeps.refl ss
  · exact Keeps.refl ss
  · exact (moves_setName ss n0 _ (by rfl) (by rfl) (by rfl)).keeps.trans0 queueDirty_keeps

theorem reevaluateReverseInstallifPkg_keeps {pkg : P} :
    Keeps 0 ss (reevaluateReverseInstallifPkg db ss pkg) :=
  (reevaluateReverseInstallif_keeps db ss).trans0
    (foldl_keeps0 (fun ss _ _ => reevaluateReverseInstallif_keeps db ss))

variable (n : N) (rd ri : Bool) (pkg : P) (k : ℕ)

theorem nameRequirersChanged_keeps : Keeps 0 ss (nameRequirersChanged db ss n) :=
  ((queueUnresolved_moves ss n false).keeps.trans0 (reevaluateReverseInstallif_keeps db _)).trans0
    queueDirty_keeps

theorem addRequirer_keeps : Keeps 1 ss (addRequirer ss n) := by
  have hheld : (addRequirer ss n).held = ss.held := by
    funext m
    unfold addRequirer SolverState.held
    rw [setName_name]
    split_ifs with hm
    · rw [hm]
    · rfl
  have hlock : ∀ m, ((addRequirer ss n).name m).locked = (ss.name m).locked :=
    fun m => congrArg Prod.fst (congrFun hheld m)
  refine ⟨⟨fun m hm => (hlock m).trans hm, fun _ h => h, fun h => ?_, fun hlow m => ?_⟩, hheld⟩
  · exact ⟨h.dirty, h.resolvenow, h.selectable, h.unresolved,
      fun m hm => (hlock m).trans (h.unlocked m hm)⟩
  have := hlow m
  unfold addRequirer
  rw [setName_name]
  split_ifs with hm
  · subst hm
    rw [Nat.mod_eq_of_lt this]
    exact ⟨Nat.le_succ _, le_rfl⟩
  · exact ⟨le_rfl, Nat.le_succ _⟩

/-- a counter that is not about to wrap reaches one only from zero -/
theorem addRequirer_one {ss : SolverState N P} {n : N} (hlow : Low 1 ss)
    (h : ((addRequirer ss n).name n).requirers = 1) : (ss.name n).requirers = 0 := by
  have hn : (ss.name n).requirers + 1 < 2 ^ 16 := hlow n
  have hadd : ((addRequirer ss n).name n).requirers = ((ss.name n).requirers + 1) % 2 ^ 16 := by
    simp [addRequirer]
  omega

theorem firstRequirer_moves {n : N} (h : Low 1 ss → (ss.name n).requirers = 0) :
    Moves 1 ss (nameRequirersChanged db (addRequirer ss n) n) := by
  have hadd := addRequirer_keeps ss n
  refine Moves.of_shrinks (hadd.trans (nameRequirersChanged_keeps db _ _)) fun hlow => ?_
  have hone : Shrinks ss (addRequirer ss n) := by
    refine Or.inr (Or.inr ⟨n, h hlow, ?_⟩)
    simp [addRequirer, h hlow]
  exact hone.after (nameRequirersChanged_keeps db _ _).toSteps (hlow.after hadd.toSteps)

theorem requireName_moves {n : N} : Moves 1 ss (requireName db ss n) := by
  unfold requireName
  simp only
  split_ifs with h
  · exact firstRequirer_moves db ss fun hlow => addRequirer_one hlow h
  · exact ⟨addRequirer_keeps ss n, fun _ => Or.inl rfl⟩

variable [DecidableEq P]

theorem disqualify_rest_keeps :
    Keeps 0 (ss.setPkg pkg { ss.pkg pkg with pkgSelectable := false }) (disqualifyPackage db ss pkg) :=
  ((reevaluateReverseDeps_keeps db _).trans0
    (foldl_keeps0 (fun ss _ _ => reevaluateReverseDeps_keeps db ss))).trans0
    (reevaluateReverseInstallifPkg_keeps db _)

theorem disqualifyPackage_keeps {pkg : P} : Keeps 0 ss (disqualifyPackage db ss pkg) :=
  (moves_setPkg ss pkg { ss.pkg pkg with pkgSelectable := false } (by simp)).keeps.trans0
    (disqualify_rest_keeps db ss pkg)

theorem disqualifyPackage_moves {pkg : P} (h : (ss.pkg pkg).pkgSelectable = true) :
    Moves 0 ss (disqualifyPackage db ss pkg) := by
  refine Moves.of_shrinks (disqualifyPackage_keeps db ss) fun _ => Or.inr (Or.inl ⟨pkg, h, ?_⟩)
  by_contra hp
  have := (disqualify_rest_keeps db ss pkg).selectable pkg (eq_true_of_ne_false hp)
  simp at this

theorem inheritPinningAndFlags_moves {pkg : P} {ppkg : Option P} :
    Moves 0 ss (inheritPinningAndFlags db ss pkg ppkg) := by
  cases ppkg with
  | none => exact moves_setPkg ss pkg _ fun h => h
  | some q => exact moves_setPkg ss pkg _ fun h => h

theorem disqualifyConflicting_moves {pkg : P} : Moves 0 ss (disqualifyConflicting db ss pkg) := by
  unfold disqualifyConflicting
  split_ifs with h
  · exact disqualifyPackage_moves db ss h.1
  · exact Moves.refl ss

theorem constrainProvider_moves {ppkg : Option P} {dep : Dependency N} {ss : SolverState N P}
    {p0 : Provider P} : Moves 0 ss (constrainProvider db ppkg dep ss p0) := by
  unfold constrainProvider
  split_ifs
  · exact (disqualifyConflicting_moves db ss).trans0 (inheritPinningAndFlags_moves db _)
  · have hcount : Moves 0 ss (countConflict ss p0.pkg) := moves_setPkg ss p0.pkg _ fun h => h
    exact hcount.trans0 (disqualifyConflicting_moves db _)

theorem applyConstraint_moves (ppkg : Option P) (dep : Dependency N) :
    Moves 1 ss (applyConstraint db ss ppkg dep) := by
  have hfold : ∀ s, Moves 0 s ((db.providers dep.name).foldl (constrainProvider db ppkg dep) s) :=
    fun s => foldl_moves0 (fun ss p _ => constrainProvider_moves db) s
  unfold applyConstraint
  split_ifs
  · exact (Moves.refl ss).mono (Nat.zero_le 1)
  · exact (hfold ss).mono (Nat.zero_le 1)
  · exact (requireName_moves db ss).trans (hfold _)

theorem excludeNonProviders_moves {n m : N} {skip : Bool} :
    Moves 0 ss (excludeNonProviders db ss n m skip) := by
  unfold excludeNonProviders
  split_ifs
  · exact Moves.refl ss
  refine foldl_moves0 (fun ss p _ => ?_) ss
  split_ifs with h1 h2
  · exact Moves.refl ss
  · exact Moves.refl ss
  · refine disqualifyPackage_moves db ss ?_
    by_contra hp
    exact h1 (Or.inr (Or.inl (by simp [hp])))

theorem evaluateIif_moves (deps : List (Dependency N)) :
    Moves 0 ss (evaluateIif db ss pkg deps) := by
  induction deps with
  | nil => exact moves_setPkg ss pkg _ fun h => h
  | cons dep deps ih =>
    unfold evaluateIif
    split_ifs
    · have hq := (moves_setName ss dep.name { ss.name dep.name with iifNeeded := true } rfl
        rfl rfl).trans0 (queueUnresolved_moves _ dep.name false)
      exact hq.trans0 (moves_setPkg _ pkg _ fun h => h)
    · exact moves_setPkg ss pkg _ fun h => h
    · exact moves_setPkg ss pkg _ fun h => h
    · exact ih

theorem checkDepends_moves {pkg : P} : Moves 0 ss (checkDepends db ss pkg) := by
  unfold checkDepends
  split_ifs with h
  · exact disqualifyPackage_moves db ss h.1
  · exact Moves.refl ss

theorem checkIif_moves : Moves 0 ss (checkIif db ss pkg) := by
  have hinherit : ∀ s : SolverState N P, Moves 0 s ((db.package pkg).installIf.foldl
      (fun ss dep => inheritPinningAndFlags db ss pkg ((ss.name dep.name).chosen.map (·.pkg))) s) :=
    fun s => foldl_moves0 (fun ss dep _ => inheritPinningAndFlags_moves db ss) s
  have heval := evaluateIif_moves db ss pkg (db.package pkg).installIf
  unfold checkIif
  simp only
  split_ifs
  · exact heval.trans0 (hinherit _)
  · exact heval
  · exact hinherit ss
  · exact Moves.refl ss

theorem reconsiderCheck_moves (ss : SolverState N P) (pkg : P) :
    Moves 0 ss (reconsiderCheck db rd ri ss pkg) := by
  have h1 := moves_setPkg ss pkg { ss.pkg pkg with dependenciesMerged := false } fun h => h
  have h2 : ∀ s : SolverState N P, Moves 0 s (if rd = true then checkDepends db s pkg else s) := by
    intro s
    split_ifs
    · exact checkDepends_moves db s
    · exact Moves.refl s
  have h3 : ∀ s : SolverState N P, Moves 0 s
      (if (s.pkg pkg).pkgSelectable = true ∧ ri = true then checkIif db s pkg else s) := by
    intro s
    split_ifs
    · exact checkIif_moves db s pkg
    · exact Moves.refl s
  exact (h1.trans0 (h2 _)).trans0 (h3 _)

theorem reconsiderMerge_moves {k : ℕ} {p : Provider P} : Moves 0 ss (reconsiderMerge db ss k p) := by
  have h1 := moves_setPkg ss p.pkg { ss.pkg p.pkg with dependenciesMerged := true } fun h => h
  refine (h1.trans0 (foldl_moves0 (fun ss d _ => ?_) _)).trans0 (foldl_moves0 (fun ss d _ => ?_) _)
  · unfold mergeDepends
    split_ifs
    · exact Moves.refl ss
    · exact Moves.refl ss
    · exact moves_setName ss d.name _ rfl rfl rfl
  unfold mergeProvides
  split_ifs
  · exact Moves.refl ss
  · exact moves_setName ss d.1 _ rfl rfl rfl

theorem reconsiderProvider_moves (st : SolverState N P × Reconsider P) (p : Provider P) :
    Moves 0 st.1 (reconsiderProvider db n rd ri st p).1 := by
  have h := reconsiderCheck_moves db rd ri st.1 p.pkg
  unfold reconsiderProvider
  simp only
  split_ifs
  · exact h
  · exact h
  all_goals exact h.trans0 (reconsiderMerge_moves db _)

theorem reconsiderProviders_moves (ps : List (Provider P)) (st : SolverState N P × Reconsider P) :
    Moves 0 st.1 (ps.foldl (reconsiderProvider db n rd ri) st).1 := by
  induction ps generalizing st with
  | nil => exact Moves.refl st.1
  | cons p ps ih => exact (reconsiderProvider_moves db n rd ri st p).trans0 (ih _)

theorem propagateOnly_moves (ss : SolverState N P) (dep : Dependency N) :
    Moves 1 ss (propagateOnly db pkg ss dep) := by
  have h := moves_setName ss dep.name { ss.name dep.name with mergeDepends := 0 } rfl rfl rfl
  unfold propagateOnly
  simp only
  split_ifs
  · exact (h.trans (applyConstraint_moves db _ (some pkg) dep)).mono (Nat.le_of_eq (Nat.zero_add 1))
  · exact h.mono (Nat.zero_le 1)

theorem propagateCommon_moves (ss : SolverState N P) (dep : Dependency N) :
    Moves 1 ss (propagateCommon db pkg k ss dep) := by
  have h := moves_setName ss dep.name { ss.name dep.name with mergeDepends := 0 } rfl rfl rfl
  unfold propagateCommon
  simp only
  split_ifs with hc
  · have hreq := firstRequirer_moves db _ fun _ => hc.2
    exact (h.trans (hreq.trans (foldl_moves0
      (fun ss p _ => inheritPinningAndFlags_moves db ss) _))).mono (by omega)
  · exact h.mono (Nat.zero_le 1)

theorem propagateProvides_moves (ss : SolverState N P) (m : N) :
    Moves 0 ss (propagateProvides db n k ss m) := by
  have h := moves_setName ss m { ss.name m with mergeProvides := 0 } rfl rfl rfl
  unfold propagateProvides
  simp only
  split_ifs
  · exact h.trans0 (excludeNonProviders_moves db _)
  · exact h

theorem propagateDown_moves :
    Moves (db.package pkg).depends.length ss (propagateDown db ss n pkg k) := by
  have h1 : Moves 0 ss ((db.providers n).foldl (fun ss p => ss.setPkg p.pkg
      { ss.pkg p.pkg with dependenciesUsed := (ss.pkg p.pkg).dependenciesMerged }) ss) :=
    foldl_moves0 (fun ss p _ => moves_setPkg ss p.pkg
      { ss.pkg p.pkg with dependenciesUsed := (ss.pkg p.pkg).dependenciesMerged } fun h => h) ss
  have h2 : ∀ s : SolverState N P, Moves (db.package pkg).depends.length s
      (if k = 1 then (db.package pkg).depends.foldl (propagateOnly db pkg) s
        else (db.package pkg).depends.foldl (propagateCommon db pkg k) s) := by
    intro s
    split_ifs
    · exact (foldl_moves 1 (fun ss d _ => propagateOnly_moves db pkg ss d) s).mono (by simp)
    · exact (foldl_moves 1 (fun ss d _ => propagateCommon_moves db pkg k ss d) s).mono (by simp)
  have h3 := foldl_moves0 (l := db.namesOf pkg)
    (fun (ss : SolverState N P) m _ => propagateProvides_moves db n k ss m)
  have h4 := foldl_moves0 (l := db.namesOf pkg) (fun (ss : SolverState N P) m _ =>
    moves_setName ss m { ss.name m with hasVirtualProvides := false } rfl rfl rfl)
  exact (((h1.trans (h2 _)).trans (h3 _)).trans (h4 _)).mono (by omega)

theorem reconsiderName_moves (b : ℕ) (hb : ∀ p, (db.package p).depends.length ≤ b) :
    Moves b ss (reconsiderName db ss n) := by
  unfold reconsiderName
  simp only
  have h1 := moves_setName ss n { ss.name n with reevaluateDeps := false, reevaluateIif := false } rfl rfl rfl
  generalize ss.setName n { ss.name n with reevaluateDeps := false, reevaluateIif := false } = s1 at h1 ⊢
  have h2 := reconsiderProviders_moves db n (ss.name n).reevaluateDeps (ss.name n).reevaluateIif
    (db.providers n) (s1, ⟨none, 0, 0, false, true, false⟩)
  generalize (db.providers n).foldl (reconsiderProvider db n (ss.name n).reevaluateDeps
    (ss.name n).reevaluateIif) (s1, ⟨none, 0, 0, false, true, false⟩) = st at h2 ⊢
  have h12 : Moves 0 ss st.1 := h1.trans0 h2
  have h3 := moves_setName st.1 n { st.1.name n with
    hasOptions := decide (st.2.numOptions > 1 ∨ st.2.numTagNotOk > 0)
    hasIif := st.2.hasIif
    noIif := st.2.noIif
    hasAutoSelectable := st.2.hasAutoSelectable } rfl rfl rfl
  have h123 := h12.trans0 h3
  have h5 : ∀ (s : SolverState N P) (r : Bool), Moves 0 s
      (s.setName n { s.name n with reverseDepsDone := r }) :=
    fun s r => moves_setName s n _ rfl rfl rfl
  cases st.2.firstCandidate with
  | none => exact ((h123.trans (h5 _ _)).trans (queueUnresolved_moves _ n _)).mono (by omega)
  | some pkg =>
    have h4 := fun s : SolverState N P => (propagateDown_moves db s n pkg st.2.numOptions).mono (hb pkg)
    exact (((h123.trans (h4 _)).trans (h5 _ _)).trans (queueUnresolved_moves _ n _)).mono (by omega)

end

end Alpine

import Alpine.Spec.Changeset
import Alpine.Sanity.SolverMoves

/-! Why a pass of the solver ends. The discovery goes at most once through each name, the main
loop makes a measure fall as long as the counters of requirers do not wrap, and the changeset
functions come back to a name or a package at most once. -/

namespace Alpine

open List Option Steps

section

variable {N P : Type} [DecidableEq N] [DecidableEq P] (db : Database N P)

variable {a ss ss' : SolverState N P} {n : N} {p : Option (Provider P)} {b : ℕ} {ps : List (Provider P)}

omit [DecidableEq P] in
theorem lockName_steps : Steps 0 ss (lockName ss n p) := by
  have hname : ∀ m, (lockName ss n p).name m =
      if m = n then { ss.name n with locked := true, chosen := p } else ss.name m :=
    fun m => setName_name ss n m _
  refine ⟨fun m hm => ?_, fun _ h => h, fun hok => ?_, fun _ m => ?_⟩
  · rw [hname]
    split_ifs
    · rfl
    · exact hm
  · have hq := hok.unqueue n
    refine ⟨hok.dirty.erase n, hq.1.resolvenow, hq.1.selectable, hq.1.unresolved, fun m hm => ?_⟩
    have hm' : (ss.unqueue n).hashed m = true := hm
    have hmn : m ≠ n := by
      rintro rfl
      rw [hq.2] at hm'
      simp at hm'
    rw [hname, if_neg hmn]
    exact hq.1.unlocked m hm'
  rw [hname]
  split_ifs with hm
  · subst hm
    exact ⟨le_rfl, le_rfl⟩
  · exact ⟨le_rfl, le_rfl⟩

omit [DecidableEq P] in
theorem lockName_locked : ((lockName ss n p).name n).locked = true := by
  have : (lockName ss n p).name n = { ss.name n with locked := true, chosen := p } :=
    setName_same ss n _
  rw [this]

theorem disqualifyOther_keeps {p0 : Provider P} : Keeps 0 ss (disqualifyOther db p ss p0) := by
  unfold disqualifyOther
  split_ifs
  · exact .refl ss
  · exact .refl ss
  · exact disqualifyPackage_keeps db ss

theorem requireIif_keeps {pkg : P} {dep : Dependency N} : Keeps 1 ss (requireIif db pkg ss dep) := by
  unfold requireIif
  split_ifs
  · exact (Keeps.refl ss).mono (Nat.zero_le 1)
  · exact (applyConstraint_moves db ss (some pkg) dep).keeps

theorem assignIif_keeps (hb : ∀ q, p = some q → (db.package q.pkg).installIf.length ≤ b) :
    Keeps b ss (assignIif db n ss p) := by
  cases p with
  | none => exact (Keeps.refl ss).mono (Nat.zero_le b)
  | some q =>
    simp only [assignIif]
    split_ifs
    · exact (foldl_keeps 1 (fun ss d _ => requireIif_keeps db) ss).mono (by simpa using hb q rfl)
    · exact (Keeps.refl ss).mono (Nat.zero_le b)

omit [DecidableEq P] in
theorem reevaluateAssigned_keeps : Keeps 0 ss (reevaluateAssigned db n ss p) := by
  cases p with
  | none => exact reevaluateReverseInstallif_keeps db ss
  | some q => exact reevaluateReverseInstallifPkg_keeps db ss

theorem assignName_rest (hb : ∀ q, p = some q → (db.package q.pkg).installIf.length ≤ b)
    (hl : (ss.name n).locked = false) : Keeps b (lockName ss n p) (assignName db ss n p) := by
  have hother : ∀ s : SolverState N P, Keeps 0 s (if s.ignoreConflict = true then s
      else (db.providers n).foldl (disqualifyOther db p) s) := by
    intro s
    split_ifs
    · exact .refl s
    · exact foldl_keeps0 (fun ss p0 _ => disqualifyOther_keeps db)
  unfold assignName
  rw [if_neg (by simp [hl])]
  exact (((assignIif_keeps db hb).trans (hother _)).trans
    (reevaluateReverseDeps_keeps db _)).trans (reevaluateAssigned_keeps db)

theorem assignLocked_keeps : Keeps 0 ss (assignLocked ss n p) := by
  unfold assignLocked
  split_ifs
  · exact .refl ss
  · exact .refl ss
  · exact (markError_moves ss _).keeps.trans0 (markError_moves _ _).keeps

theorem assignName_steps (ss : SolverState N P) (n : N) (p : Option (Provider P)) (b : ℕ)
    (hb : ∀ q, p = some q → (db.package q.pkg).installIf.length ≤ b) :
    Steps b ss (assignName db ss n p) ∧ ((assignName db ss n p).name n).locked = true := by
  cases hl : (ss.name n).locked with
  | false =>
    have h := assignName_rest db hb hl
    exact ⟨(lockName_steps.trans h.toSteps).mono (by omega), h.locked n lockName_locked⟩
  | true =>
    have h : Steps 0 ss (assignName db ss n p) := by
      unfold assignName
      rw [if_pos hl]
      exact assignLocked_keeps.toSteps
    exact ⟨h.mono (Nat.zero_le b), h.locked n hl⟩

theorem assignProvides_steps (pkg : P) (l : List (Dependency N)) (ss : SolverState N P) :
    Steps (l.length * (db.package pkg).installIf.length) ss
      (l.foldl (fun ss d => assignName db ss d.name (some ⟨pkg, d.version⟩)) ss) ∧
    ∀ d ∈ l, ((l.foldl (fun ss d => assignName db ss d.name (some ⟨pkg, d.version⟩)) ss).name
      d.name).locked = true := by
  have hone : ∀ (s : SolverState N P) (d : Dependency N), Steps (db.package pkg).installIf.length s
        (assignName db s d.name (some ⟨pkg, d.version⟩)) ∧
      ((assignName db s d.name (some ⟨pkg, d.version⟩)).name d.name).locked = true := by
    intro s d
    refine assignName_steps db s d.name _ _ fun q hq => ?_
    rw [← some.inj hq]
  refine ⟨foldl_steps _ (fun s d _ => (hone s d).1) ss, ?_⟩
  induction l generalizing ss with
  | nil => exact fun d hd => absurd hd not_mem_nil
  | cons x l ih =>
    intro d hd
    rcases mem_cons.1 hd with rfl | hd
    · exact (foldl_steps _ (fun s d _ => (hone s d).1)
        (assignName db ss d.name (some ⟨pkg, d.version⟩))).locked _ (hone ss d).2
    · exact ih _ d hd

omit [DecidableEq P] in
theorem chooseFrom_mem {p : Provider P} (h : chooseFrom db ss n ps = some p) : p ∈ ps := by
  have hrel : chooseFrom db ss n ps = none ∨ ∃ q ∈ ps, chooseFrom db ss n ps = some q := by
    refine Fuel.foldl_rel (R := fun a b => b = a ∨ ∃ q ∈ ps, b = some q) (fun _ => Or.inl rfl) ?_ ?_ none
    · rintro a b c h (rfl | h')
      · exact h
      · exact Or.inr h'
    intro s x hx
    split_ifs
    · exact Or.inl rfl
    · exact Or.inr ⟨x, hx, rfl⟩
    · exact Or.inl rfl
  rcases hrel with h' | ⟨q, hq, h'⟩
  · exact absurd (h'.symm.trans h) (by simp)
  · obtain rfl := some.inj (h'.symm.trans h)
    exact hq

omit [DecidableEq P] in
theorem chooseProvider_mem {p : Provider P} (h : chooseProvider db ss n ps = some p) : p ∈ ps := by
  unfold chooseProvider at h
  split_ifs at h
  exact chooseFrom_mem db h

/-- the requirers that one round of the main loop may add to a name -/
def Package.budget (q : Package N) : ℕ := q.names.length * q.installIf.length + q.depends.length

theorem selectChosen_steps (ss : SolverState N P) (p : Provider P) (n : N)
    (hn : n = (db.package p.pkg).name ∨ ∃ d ∈ (db.package p.pkg).provides, n = d.name)
    (h : chooseProvider db ss n (db.providers n) = some p) :
    Steps (db.package p.pkg).budget ss (selectPackage db ss n) ∧
      ((selectPackage db ss n).name n).locked = true := by
  have h1 : ∀ s : SolverState N P, Steps 0 s
      (if (!(s.pkg p.pkg).pkgSelectable) = true ∨ (!(s.pkg p.pkg).tagOk) = true then
        markError s (some p.pkg) else s) := by
    intro s
    split_ifs
    · exact (markError_moves s _).keeps.toSteps
    · exact refl s
  have h2 : ∀ s : SolverState N P, _ := fun s => assignName_steps db s (db.package p.pkg).name
    (some ⟨p.pkg, (db.package p.pkg).version⟩) (db.package p.pkg).installIf.length
    (fun q hq => by rw [← some.inj hq])
  have h3 := assignProvides_steps db p.pkg (db.package p.pkg).provides
  have h4 := foldl_steps 1 (l := (db.package p.pkg).depends)
    (fun (ss : SolverState N P) d _ => (applyConstraint_moves db ss (some p.pkg) d).keeps.toSteps)
  have hsel : selectPackage db ss n = (db.package p.pkg).depends.foldl
      (fun ss d => applyConstraint db ss (some p.pkg) d)
      ((db.package p.pkg).provides.foldl (fun ss d => assignName db ss d.name (some ⟨p.pkg, d.version⟩))
        (assignName db (if (!(ss.pkg p.pkg).pkgSelectable) = true ∨ (!(ss.pkg p.pkg).tagOk) = true
          then markError ss (some p.pkg) else ss) (db.package p.pkg).name
          (some ⟨p.pkg, (db.package p.pkg).version⟩))) := by
    unfold selectPackage
    rw [h]
  rw [hsel]
  refine ⟨?_, ?_⟩
  · refine ((((h1 ss).trans (h2 _).1).trans (h3 _).1).trans (h4 _)).mono ?_
    have : (db.package p.pkg).names.length = (db.package p.pkg).provides.length + 1 := by
      simp [Package.names]
    rw [Package.budget, this, Nat.succ_mul]
    omega
  apply (h4 _).locked
  rcases hn with rfl | ⟨d, hd, rfl⟩
  · exact (h3 _).1.locked _ (h2 _).2
  · exact (h3 _).2 d hd

theorem selectPackage_steps (ss : SolverState N P) (n : N) (b : ℕ) (hb : ∀ p, (db.package p).budget ≤ b) :
    Steps b ss (selectPackage db ss n) ∧ ((selectPackage db ss n).name n).locked = true := by
  cases h : chooseProvider db ss n (db.providers n) with
  | some p =>
    have hn := db.provider_from n p (chooseProvider_mem db h)
    have hs := selectChosen_steps db ss p n (hn.imp And.left fun ⟨d, hd, he⟩ => ⟨d, hd, he.1⟩) h
    exact ⟨hs.1.mono (hb p.pkg), hs.2⟩
  | none =>
    have hs := assignName_steps db ss n none 0 (by simp)
    have hsel : Steps 0 (assignName db ss n none) (selectPackage db ss n) := by
      unfold selectPackage
      rw [h]
      simp only
      split_ifs
      · exact ⟨fun _ h => h, fun _ h => h, fun h => ⟨h.dirty, h.resolvenow, h.selectable,
          h.unresolved, h.unlocked⟩, fun _ _ => ⟨le_rfl, le_rfl⟩⟩
      · exact refl _
    exact ⟨(hs.1.trans hsel).mono (Nat.zero_le b), hsel.locked n hs.2⟩

omit [DecidableEq P] in
theorem dequeueNextName_ok (hok : QueuesOk ss) (h : dequeueNextName ss = some (n, ss')) :
    Steps 0 ss ss' ∧ (ss'.name n).locked = false ∧ ss'.name = ss.name := by
  have hkeep : ∀ {s : SolverState N P}, s.name = ss.name → s.pkg = ss.pkg →
      (QueuesOk ss → QueuesOk s) → Steps 0 ss s := by
    intro s h1 h2 h3
    refine ⟨fun m hm => by rw [h1]; exact hm, fun p hp => by rw [← h2]; exact hp, h3,
      fun _ m => by rw [h1]; exact ⟨le_rfl, le_rfl⟩⟩
  unfold dequeueNextName at h
  split at h
  · next m ms hq =>
    obtain ⟨rfl, rfl⟩ := Prod.mk.inj (some.inj h)
    have hnd := hok.resolvenow
    rw [hq, nodup_cons] at hnd
    refine ⟨hkeep rfl rfl fun hok => ⟨hok.dirty, hnd.2, hok.selectable, hok.unresolved,
      fun k hk => hok.unlocked k ?_⟩, hok.unlocked m (hashed_iff.2 (Or.inl ?_)), rfl⟩
    · rw [hashed_iff] at hk ⊢
      rw [hq]
      exact hk.imp (mem_cons_of_mem _) id
    · rw [hq]
      exact mem_cons_self
  split at h
  · next hr m ms hq =>
    obtain ⟨rfl, rfl⟩ := Prod.mk.inj (some.inj h)
    have hnd := hok.selectable
    rw [hq, nodup_cons] at hnd
    refine ⟨hkeep rfl rfl fun hok => ⟨hok.dirty, hok.resolvenow, hnd.2, hok.unresolved,
      fun k hk => hok.unlocked k ?_⟩, hok.unlocked m (hashed_iff.2 (Or.inr (Or.inl ?_))),
      rfl⟩
    · rw [hashed_iff] at hk ⊢
      rw [hq]
      exact hk.imp id (Or.imp (mem_cons_of_mem _) id)
    · rw [hq]
      exact mem_cons_self
  split at h
  · next hr hs m ms hq =>
    obtain ⟨rfl, rfl⟩ := Prod.mk.inj (some.inj h)
    have hnd := hok.unresolved
    rw [hq, nodup_cons] at hnd
    refine ⟨hkeep rfl rfl fun hok => ⟨hok.dirty, hok.resolvenow, hok.selectable, hnd.2,
      fun k hk => hok.unlocked k ?_⟩,
      hok.unlocked m (hashed_iff.2 (Or.inr (Or.inr ?_))), rfl⟩
    · rw [hashed_iff] at hk ⊢
      rw [hq]
      exact hk.imp id (Or.imp id (mem_cons_of_mem _))
    · rw [hq]
      exact mem_cons_self
  · simp at h

variable [Fintype N] [Fintype P]

/-- how much there is left to lock, to give up and to require -/
def openItems (ss : SolverState N P) : ℕ :=
  (Finset.univ.filter fun n => (ss.name n).locked = false).card +
    (Finset.univ.filter fun p => (ss.pkg p).pkgSelectable = true).card +
    (Finset.univ.filter fun n => (ss.name n).requirers = 0).card

omit [DecidableEq N] [DecidableEq P] in
theorem openItems_le (ss : SolverState N P) : openItems ss ≤ 2 * Fintype.card N + Fintype.card P := by
  have h1 := Finset.card_le_univ (Finset.univ.filter fun n => (ss.name n).locked = false)
  have h2 := Finset.card_le_univ (Finset.univ.filter fun p => (ss.pkg p).pkgSelectable = true)
  have h3 := Finset.card_le_univ (Finset.univ.filter fun n => (ss.name n).requirers = 0)
  unfold openItems
  omega

omit [DecidableEq P] in
theorem Steps.openItems {k : ℕ} {b : SolverState N P} (h : Steps k a b) (hlow : Low k a) :
    openItems b ≤ openItems a ∧ (Shrinks a b → Alpine.openItems b < Alpine.openItems a) := by
  have h1 : ∀ n, (b.name n).locked = false → (a.name n).locked = false := fun n => Fuel.unset (h.locked n)
  have h2 : ∀ p, (b.pkg p).pkgSelectable = true → (a.pkg p).pkgSelectable = true := h.selectable
  have h3 : ∀ n, (b.name n).requirers = 0 → (a.name n).requirers = 0 := by
    intro n hn
    have := (h.requirers hlow n).1
    omega
  have c1 := Fuel.card_filter_le h1
  have c2 := Fuel.card_filter_le h2
  have c3 := Fuel.card_filter_le h3
  refine ⟨by unfold Alpine.openItems; omega, fun hs => ?_⟩
  unfold Alpine.openItems
  rcases hs with ⟨n, ha, hb⟩ | ⟨p, ha, hb⟩ | ⟨n, ha, hb⟩
  · have := Fuel.card_filter_lt h1 ha (by simp [hb])
    omega
  · have := Fuel.card_filter_lt h2 ha (by simp [hb])
    omega
  · have := Fuel.card_filter_lt h3 ha hb
    omega

/-- what falls in every round of the main loop -/
def loopMeasure (ss : SolverState N P) : ℕ :=
  openItems ss * (Fintype.card N + 1) + ss.dirty.length

omit [DecidableEq P] in
theorem loopMeasure_lt_of_open {b : SolverState N P} (hb : QueuesOk b)
    (h : openItems b < openItems a) : loopMeasure b < loopMeasure a := by
  have hlen : b.dirty.length ≤ Fintype.card N := hb.dirty.length_le_card
  have hmul : (openItems b + 1) * (Fintype.card N + 1) ≤ openItems a * (Fintype.card N + 1) :=
    Nat.mul_le_mul_right _ h
  rw [Nat.succ_mul] at hmul
  unfold loopMeasure
  omega

/-- the requirers that one round may add to a name, whatever package it is about -/
def Database.stepBudget : ℕ := Finset.univ.sup fun p => (db.package p).budget

omit [DecidableEq N] [DecidableEq P] [Fintype N] in
theorem budget_le (p : P) : (db.package p).budget ≤ db.stepBudget :=
  Finset.le_sup (f := fun p => (db.package p).budget) (Finset.mem_univ p)

theorem solveStep_ok (hok : QueuesOk ss) (hlow : Low db.stepBudget ss) (h : solveStep db ss = some ss') :
    Steps db.stepBudget ss ss' ∧ QueuesOk ss' ∧ loopMeasure ss' < loopMeasure ss := by
  unfold solveStep at h
  split at h
  · next n ns hd =>
    cases h
    have hnd := hok.dirty
    rw [hd, nodup_cons] at hnd
    have hpop : QueuesOk { ss with dirty := ns } :=
      ⟨hnd.2, hok.resolvenow, hok.selectable, hok.unresolved, hok.unlocked⟩
    have hmoves := reconsiderName_moves db { ss with dirty := ns } n db.stepBudget
      fun p => le_trans (Nat.le_add_left _ _) (budget_le db p)
    have hok' := hmoves.keeps.ok hpop
    have hsteps : Steps db.stepBudget ss (reconsiderName db { ss with dirty := ns } n) :=
      ⟨hmoves.keeps.locked, hmoves.keeps.selectable, fun _ => hok', hmoves.keeps.requirers⟩
    refine ⟨hsteps, hok', ?_⟩
    obtain ⟨hle, hlt⟩ := hmoves.keeps.openItems hlow
    rcases hmoves.dirty hlow with hsame | hshrink
    · have hmul := Nat.mul_le_mul_right (Fintype.card N + 1) hle
      have hlen : ss.dirty.length = ns.length + 1 := by rw [hd]; rfl
      unfold loopMeasure
      rw [hsame, hlen]
      exact Nat.lt_succ_of_le (Nat.add_le_add_right hmul _)
    · exact loopMeasure_lt_of_open hok' (hlt hshrink)
  obtain ⟨⟨n, s⟩, hdq, rfl⟩ := map_eq_some_iff.1 h
  obtain ⟨hs, hun, hname⟩ := dequeueNextName_ok hok hdq
  obtain ⟨hsel, hlock⟩ := selectPackage_steps db s n db.stepBudget (budget_le db)
  have hlow' : Low db.stepBudget s := fun m => by rw [hname]; exact hlow m
  have hok' := hsel.ok (hs.ok hok)
  refine ⟨(hs.trans hsel).mono (Nat.zero_add _).le, hok', loopMeasure_lt_of_open hok' ?_⟩
  have hlt := (hsel.openItems hlow').2 (Or.inl ⟨n, hun, hlock⟩)
  exact lt_of_lt_of_le hlt (hs.openItems (hlow.mono (Nat.zero_le _))).1

/-- the states that the main loop goes through -/
def SolveReaches : SolverState N P → SolverState N P → Prop :=
  Relation.ReflTransGen fun a b => solveStep db a = some b

theorem solveLoop_returns (k : ℕ) (ss : SolverState N P) (hok : QueuesOk ss)
    (hlow : ∀ s, SolveReaches db ss s → Low db.stepBudget s) (hk : loopMeasure ss < k) :
    ∃ s, solveLoop db k ss = some s := by
  induction k generalizing ss with
  | zero => exact absurd hk (Nat.not_lt_zero _)
  | succ k ih =>
    unfold solveLoop
    cases h : solveStep db ss with
    | none => exact ⟨ss, rfl⟩
    | some ss' =>
      obtain ⟨-, hok', hlt⟩ := solveStep_ok db hok (hlow ss Relation.ReflTransGen.refl) h
      exact ih ss' hok' (fun s hs => hlow s (Relation.ReflTransGen.head h hs)) (by omega)

end

end Alpine

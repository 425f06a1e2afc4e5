import Alpine.Sanity.PassEnds

/-! To whom a pass gives its names. `select_package` hands the names of the package that it has
selected to `assign_name`, one after the other, or the name alone when it has selected none, and a
name that was given once is not given again. So what is chosen for a name at the end of a pass is
what the name was first given to. -/

namespace Alpine

open List

section

variable {α β : Type} [DecidableEq α]

/-- the first entry for a key stands -/
def enter (h : α → Bool × Option β) (e : α × Option β) : α → Bool × Option β :=
  if (h e.1).1 then h else Function.update h e.1 (true, e.2)

theorem enter_all_of_taken {h : α → Bool × Option β} {k : α} (hk : (h k).1 = true) (log : List (α × Option β)) :
    log.foldl enter h k = h k := by
  induction log generalizing h with
  | nil => rfl
  | cons e log ih =>
    have hstep : enter h e k = h k := by
      unfold enter
      split_ifs with he
      · rfl
      · rw [Function.update_of_ne]
        rintro rfl
        exact he hk
    rw [foldl_cons, ih (by rw [hstep]; exact hk), hstep]

theorem enter_all_of_free {h : α → Bool × Option β} {k : α} (hk : h k = (false, none)) (log : List (α × Option β)) :
    (log.foldl enter h k).2 = (log.lookup k).join := by
  induction log generalizing h with
  | nil => rw [foldl_nil, hk]; rfl
  | cons e log ih =>
    obtain ⟨m, x⟩ := e
    rw [foldl_cons, lookup_cons]
    by_cases hm : k = m
    · subst hm
      have hstep : enter h (k, x) k = (true, x) := by simp [enter, hk]
      rw [enter_all_of_taken (by rw [hstep]), hstep]
      simp
    · have hstep : enter h (m, x) k = h k := by
        unfold enter
        split_ifs
        · rfl
        · exact Function.update_of_ne hm _ _
      rw [ih (hstep.trans hk), beq_false_of_ne hm]

end

section

variable {N P : Type} [DecidableEq N] [DecidableEq P] (db : Database N P)

/-- the names that `select_package` passes to `assign_name`, with what it gives them to -/
def selectGives (ss : SolverState N P) (n : N) : List (N × Option (Provider P)) :=
  match chooseProvider db ss n (db.providers n) with
  | some p =>
    let q := db.package p.pkg
    (q.name, some ⟨p.pkg, q.version⟩) :: q.provides.map fun d => (d.name, some ⟨p.pkg, d.version⟩)
  | none => [(n, none)]

def stepGives (ss : SolverState N P) : List (N × Option (Provider P)) :=
  match ss.dirty with
  | _ :: _ => []
  | [] => (dequeueNextName ss).elim [] fun r => selectGives db r.2 r.1

def loopGives : ℕ → SolverState N P → List (N × Option (Provider P))
  | 0, _ => []
  | k + 1, ss =>
    match solveStep db ss with
    | some ss' => stepGives db ss ++ loopGives k ss'
    | none => []

/-- what a pass gives its names to, in the order of the rounds of its main loop -/
def passGives (fuel flags : ℕ) (pkg : P → PkgState) (world : List (Dependency N)) : List (N × Option (Provider P)) :=
  (discoverWorld db fuel (passStart db flags pkg) world).elim [] fun ss => loopGives db fuel (applyWorld db ss world)

variable {ss ss' : SolverState N P} {n : N} {p : Option (Provider P)}

omit [DecidableEq P] in
theorem lockName_held (hl : (ss.name n).locked = false) : (lockName ss n p).held = enter ss.held (n, p) := by
  have hname : ∀ m, (lockName ss n p).name m =
      if m = n then { ss.name n with locked := true, chosen := p } else ss.name m :=
    fun m => setName_name ss n m _
  have hfree : (ss.held n).1 = false := hl
  funext m
  rw [enter, if_neg (by simp [hfree]), Function.update_apply, SolverState.held, hname]
  split_ifs <;> rfl

theorem assignName_held : (assignName db ss n p).held = enter ss.held (n, p) := by
  cases hl : (ss.name n).locked with
  | false =>
    have hrest := assignName_rest db (p := p) (b := p.elim 0 fun q => (db.package q.pkg).installIf.length)
      (fun q hq => by rw [hq]; rfl) hl
    rw [hrest.held]
    exact lockName_held hl
  | true =>
    have htaken : (ss.held n).1 = true := hl
    rw [assignName, if_pos hl, assignLocked_keeps.held, enter, if_pos htaken]

theorem assignProvides_held (pkg : P) (l : List (Dependency N)) (ss : SolverState N P) :
    (l.foldl (fun ss d => assignName db ss d.name (some ⟨pkg, d.version⟩)) ss).held =
      (l.map fun d => (d.name, some ⟨pkg, d.version⟩)).foldl enter ss.held := by
  induction l generalizing ss with
  | nil => rfl
  | cons d l ih => rw [foldl_cons, ih, assignName_held, map_cons, foldl_cons]

theorem selectPackage_held : (selectPackage db ss n).held = (selectGives db ss n).foldl enter ss.held := by
  unfold selectPackage selectGives
  cases chooseProvider db ss n (db.providers n) with
  | none =>
    rw [foldl_cons, foldl_nil, ← assignName_held db]
    simp only
    split_ifs <;> rfl
  | some p =>
    simp only
    have hdeps := foldl_keeps 1 (l := (db.package p.pkg).depends)
      (fun (ss : SolverState N P) d _ => (applyConstraint_moves db ss (some p.pkg) d).keeps)
    rw [(hdeps _).held, assignProvides_held, assignName_held, foldl_cons]
    split_ifs
    · rw [(markError_moves ss _).keeps.held]
    · rfl

omit [DecidableEq N] [DecidableEq P] in
theorem dequeueNextName_name (h : dequeueNextName ss = some (n, ss')) : ss'.name = ss.name := by
  unfold dequeueNextName at h
  split at h
  · cases h; rfl
  split at h
  · cases h; rfl
  split at h
  · cases h; rfl
  · cases h

variable [Fintype P]

theorem solveStep_held (h : solveStep db ss = some ss') : ss'.held = (stepGives db ss).foldl enter ss.held := by
  unfold solveStep at h
  split at h
  · next m ns hd =>
    cases h
    have hmoves := reconsiderName_moves db { ss with dirty := ns } m db.stepBudget
      fun p => le_trans (Nat.le_add_left _ _) (budget_le db p)
    rw [stepGives, hd]
    exact hmoves.keeps.held
  · next hd =>
    obtain ⟨⟨m, s⟩, hdq, rfl⟩ := Option.map_eq_some_iff.1 h
    have hheld : s.held = ss.held := by
      unfold SolverState.held
      rw [dequeueNextName_name hdq]
    rw [stepGives, hd, hdq, ← hheld]
    exact selectPackage_held db

theorem solveLoop_held {k : ℕ} (h : solveLoop db k ss = some ss') : ss'.held = (loopGives db k ss).foldl enter ss.held := by
  induction k generalizing ss with
  | zero => cases h
  | succ k ih =>
    unfold solveLoop at h
    unfold loopGives
    cases hs : solveStep db ss with
    | none =>
      rw [hs] at h
      cases h
      rfl
    | some s =>
      rw [hs] at h
      rw [ih h, solveStep_held db hs, foldl_append]

theorem choosePackages_chosen [Fintype N] {fuel flags : ℕ} {pkg : P → PkgState} {world : List (Dependency N)}
    (h : choosePackages db fuel flags pkg world = some ss) (n : N) :
    (ss.name n).chosen = ((passGives db fuel flags pkg world).lookup n).join := by
  obtain ⟨s, hs, hloop⟩ := Option.bind_eq_some_iff.1 h
  have hfree : (applyWorld db s world).held n = (false, none) := by
    have hkept := (discoverWorld_discovers db flags pkg hs).1.kept n
    simp only [nameKept, passStart, Prod.mk.injEq] at hkept
    rw [(applyWorld_keeps db s world).held]
    exact Prod.ext hkept.1 hkept.2.2.2.2
  have hend := congrArg Prod.snd (congrFun (solveLoop_held db hloop) n)
  rw [enter_all_of_free hfree] at hend
  rw [passGives, hs]
  exact hend

end

end Alpine

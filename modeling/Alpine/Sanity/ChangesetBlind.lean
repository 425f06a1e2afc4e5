import Alpine.Spec.Changeset
import Alpine.Sanity.SolverMoves

/-! The solver never looks at the counters and entries of its changeset, so a pass over another
changeset ends in the same state but for the changeset. What the functions of a changeset do is said
once, for two runs side by side: the same induction shows that a deeper recursion returns what a
shallower one does, and, with the second run left aside, that the recursion returns. -/

namespace Alpine

section

variable {N P : Type} (db : Database N P)

def SolverState.withCs (ss : SolverState N P) (cs : Changeset P) : SolverState N P :=
  { ss with changeset := cs }

/-- the changeset functions mark names and packages, and keep every choice -/
structure Commits (ss ss' : SolverState N P) : Prop where
  chosen : ∀ n, (ss'.name n).chosen = (ss.name n).chosen
  processed : ∀ n, (ss.name n).changesetProcessed = true → (ss'.name n).changesetProcessed = true
  inChangeset : ∀ p, (ss.pkg p).inChangeset = true → (ss'.pkg p).inChangeset = true

theorem Commits.refl (ss : SolverState N P) : Commits ss ss :=
  ⟨fun _ => rfl, fun _ h => h, fun _ h => h⟩

theorem Commits.trans {a b c : SolverState N P} (h : Commits a b) (h' : Commits b c) : Commits a c :=
  ⟨fun n => (h'.chosen n).trans (h.chosen n), fun n hn => h'.processed n (h.processed n hn),
    fun p hp => h'.inChangeset p (h.inChangeset p hp)⟩

/-- a step that marks, and acts on the changeset without looking at it -/
structure Marks (f : SolverState N P → SolverState N P) : Prop where
  blind : ∀ ss, ∃ h : Changeset P → Changeset P, ∀ cs, f (ss.withCs cs) = (f ss).withCs (h cs)
  commits : ∀ ss, Commits ss (f ss)

variable {f g : SolverState N P → SolverState N P} {α : Type} {n : N}

theorem Marks.id : Marks fun ss : SolverState N P => ss := ⟨fun _ => ⟨_, fun _ => rfl⟩, Commits.refl⟩

theorem Marks.comp (hg : Marks g) (hf : Marks f) : Marks fun ss => g (f ss) := by
  refine ⟨fun ss => ?_, fun ss => (hf.commits ss).trans (hg.commits _)⟩
  obtain ⟨h, hh⟩ := hf.blind ss
  obtain ⟨h', hh'⟩ := hg.blind (f ss)
  exact ⟨fun cs => h' (h cs), fun cs => by rw [hh, hh']⟩

theorem Marks.foldl {f : SolverState N P → α → SolverState N P} (hf : ∀ x, Marks (f · x)) (l : List α) :
    Marks (l.foldl f) := by
  induction l with
  | nil => exact .id
  | cons x l ih => exact ih.comp (hf x)

/-- what a step does may depend on all but the changeset -/
theorem Marks.look {F : α → SolverState N P → SolverState N P} (v : SolverState N P → α)
    (hv : ∀ ss cs, v (ss.withCs cs) = v ss) (hF : ∀ x, Marks (F x)) : Marks fun ss => F (v ss) ss := by
  refine ⟨fun ss => ?_, fun ss => (hF _).commits ss⟩
  simp only [hv]
  exact (hF _).blind ss

theorem Marks.setName [DecidableEq N] (n : N) {s : SolverState N P → NameState N P} (hs : ∀ ss cs, s (ss.withCs cs) = s ss)
    (hc : ∀ ss, (s ss).chosen = (ss.name n).chosen)
    (hp : ∀ ss, (ss.name n).changesetProcessed = true → (s ss).changesetProcessed = true) :
    Marks fun ss => ss.setName n (s ss) := by
  refine ⟨fun ss => ⟨fun cs => cs, fun cs => by rw [hs]; rfl⟩, fun ss => ⟨fun m => ?_, fun m hm => ?_, fun _ h => h⟩⟩
  all_goals
    rw [setName_name]
    split_ifs with h
  · rw [h, hc]
  · rfl
  · subst h
    exact hp ss hm
  · exact hm

theorem Marks.setPkg [DecidableEq P] (p : P) {t : SolverState N P → PkgState} (ht : ∀ ss cs, t (ss.withCs cs) = t ss)
    (h : ∀ ss, (ss.pkg p).inChangeset = true → (t ss).inChangeset = true) : Marks fun ss => ss.setPkg p (t ss) := by
  refine ⟨fun ss => ⟨fun cs => cs, fun cs => by rw [ht]; rfl⟩, fun ss => ⟨fun _ => rfl, fun _ h => h, fun q hq => ?_⟩⟩
  rw [setPkg_pkg]
  split_ifs with hqp
  · subst hqp
    exact h ss hq
  · exact hq

theorem markError_marks [DecidableEq P] (p : Option P) : Marks fun ss : SolverState N P => markError ss p := by
  cases p with
  | none => exact .id
  | some p =>
    refine .look (F := fun (b : Bool) (ss : SolverState N P) => if b = true then ss else
      { ss.setPkg p { ss.pkg p with error := true } with errors := (ss.errors + 1) % 2 ^ 32 })
      (fun ss => (ss.pkg p).error) (fun _ _ => rfl) fun b => ?_
    cases b with
    | true => exact .id
    | false =>
      have hset := Marks.setPkg p (t := fun ss : SolverState N P => { ss.pkg p with error := true }) (fun _ _ => rfl)
        fun _ h => h
      exact ⟨fun _ => ⟨_, fun _ => rfl⟩, fun ss => ⟨fun _ => rfl, fun _ h => h, (hset.commits ss).inChangeset⟩⟩

theorem recordChange_marks [DecidableEq P] (opkg npkg : Option P) : Marks fun ss => recordChange db ss opkg npkg :=
  ⟨fun ss => ⟨fun cs => (recordChange db (ss.withCs cs) opkg npkg).changeset, fun _ => rfl⟩,
    fun _ => ⟨fun _ => rfl, fun _ h => h, fun _ h => h⟩⟩

theorem csetTotal_marks : Marks (csetTotal : SolverState N P → SolverState N P) :=
  ⟨fun ss => ⟨fun cs => (csetTotal (ss.withCs cs)).changeset, fun _ => rfl⟩,
    fun _ => ⟨fun _ => rfl, fun _ h => h, fun _ h => h⟩⟩

theorem markProcessed_marks [DecidableEq N] : Marks fun ss : SolverState N P => markProcessed ss n :=
  .setName n (fun _ _ => rfl) (fun _ => rfl) fun _ _ => rfl

theorem markRemoved_marks [DecidableEq N] : Marks fun ss : SolverState N P => markRemoved ss n :=
  .setName n (fun _ _ => rfl) (fun _ => rfl) fun _ h => h

theorem markInChangeset_marks [DecidableEq P] {p : P} : Marks fun ss : SolverState N P => markInChangeset ss p :=
  .setPkg p (fun _ _ => rfl) fun _ _ => rfl

variable (pkg : P)

theorem Marks.option {F : α → SolverState N P → SolverState N P} {v : SolverState N P → Option α}
    (hv : ∀ ss cs, v (ss.withCs cs) = v ss) (hF : ∀ x, Marks (F x)) : Marks fun ss => match v ss with
      | some x => F x ss
      | none => ss := by
  refine .look (F := fun (o : Option α) ss => match o with
    | some x => F x ss
    | none => ss) v hv fun o => ?_
  cases o with
  | none => exact .id
  | some x => exact hF x

theorem csetTrackDepsAdded_marks [DecidableEq N] : Marks fun ss => csetTrackDepsAdded db ss pkg := by
  refine .foldl (fun d => ?_) _
  exact .option (F := fun m ss => addRequirer ss m) (v := (trackedName · d)) (fun _ _ => rfl) fun m =>
    .setName m (fun _ _ => rfl) (fun _ => rfl) fun _ h => h

theorem csetInit_marks [DecidableEq N] : Marks (csetInit db) := by
  have hreset : Marks fun ss : SolverState N P =>
      csetResetNames { ss with changeset := { ss.changeset with changes := [] } } :=
    ⟨fun _ => ⟨fun cs => { cs with changes := [] }, fun _ => rfl⟩, fun _ => ⟨fun _ => rfl, fun _ h => h, fun _ h => h⟩⟩
  have hinstalled : ∀ pkg, Marks (csetMarkInstalled db · pkg) := by
    intro pkg
    refine Marks.comp (Marks.foldl (fun d => ?_) _) (.setName _ (fun _ _ => rfl) (fun _ => rfl) fun _ h => h)
    split_ifs
    · exact .id
    · exact .setName d.name (fun _ _ => rfl) (fun _ => rfl) fun _ h => h
  exact (Marks.foldl (fun pkg => csetTrackDepsAdded_marks db pkg) _).comp ((Marks.foldl hinstalled _).comp hreset)

abbrev CsetFun (N P : Type) := (CsetCall N P → SolverState N P → Option (SolverState N P)) →
  SolverState N P → Option (SolverState N P)

/-- the functions of a changeset, as what they are made of: calls of the two functions they come back to,
steps that mark, and branches on all but the changeset -/
inductive CsetProg : CsetFun N P → Prop
  | pure : CsetProg fun _ s => some s
  | call (c : CsetCall N P) : CsetProg fun go s => go c s
  | marks {f F} : Marks f → CsetProg F → CsetProg fun go s => F go (f s)
  | bind {F G} : CsetProg F → CsetProg G → CsetProg fun go s => F go s >>= G go
  | look {α : Type} {F : α → CsetFun N P} (v : SolverState N P → α) : (∀ ss cs, v (ss.withCs cs) = v ss) →
      (∀ x, CsetProg (F x)) → CsetProg fun go s => F (v s) go s

namespace CsetProg

variable {F G : CsetFun N P}

theorem ite {c : SolverState N P → Prop} [∀ s, Decidable (c s)] (hc : ∀ ss cs, c (ss.withCs cs) = c ss)
    (hF : CsetProg F) (hG : CsetProg G) : CsetProg fun go s => if c s then F go s else G go s := by
  have h := look (F := fun (p : Prop) go s => open Classical in if p then F go s else G go s) c hc fun p => by
    split_ifs
    · exact hF
    · exact hG
  convert h

theorem option {F : α → CsetFun N P} {v : SolverState N P → Option α} (hv : ∀ ss cs, v (ss.withCs cs) = v ss)
    (hG : CsetProg G) (hF : ∀ x, CsetProg (F x)) : CsetProg fun go s => match v s with
      | none => G go s
      | some x => F x go s := by
  refine look (F := fun (o : Option α) go s => match o with
    | none => G go s
    | some x => F x go s) v hv fun o => ?_
  cases o with
  | none => exact hG
  | some x => exact hF x

/-- as the source writes it: the other way is to do nothing -/
theorem optional {F : α → CsetFun N P} {v : SolverState N P → Option α} (hv : ∀ ss cs, v (ss.withCs cs) = v ss)
    (hF : ∀ x, CsetProg (F x)) : CsetProg fun go s => match v s with
      | some x => F x go s
      | none => some s := by
  refine look (F := fun (o : Option α) go s => match o with
    | some x => F x go s
    | none => some s) v hv fun o => ?_
  cases o with
  | none => exact .pure
  | some x => exact hF x

theorem chosen {F : Provider P → CsetFun N P} (n : N) (hG : CsetProg G) (hF : ∀ p, CsetProg (F p)) :
    CsetProg fun go s => match (s.name n).chosen with
      | none => G go s
      | some p => F p go s := by
  refine look (F := fun (o : Option (Provider P)) go s => match o with
    | none => G go s
    | some p => F p go s) (fun s => (s.name n).chosen) (fun _ _ => rfl) fun o => ?_
  cases o with
  | none => exact hG
  | some p => exact hF p

theorem foldlM {F : _ → SolverState N P → α → Option (SolverState N P)} (l : List α)
    (h : ∀ x, CsetProg fun go s => F go s x) : CsetProg fun go s => l.foldlM (F go) s := by
  induction l with
  | nil => exact .pure
  | cons x l ih => exact (h x).bind ih

end CsetProg

theorem csetTrackDepsRemoved_prog [DecidableEq N] : CsetProg fun go s => csetTrackDepsRemoved db go s pkg := by
  refine .foldlM _ fun d => .option (fun _ _ => rfl) .pure fun m => ?_
  have hset : Marks fun ss : SolverState N P => ss.setName m { ss.name m with
      requirers := ((ss.name m).requirers + (2 ^ 16 - 1)) % 2 ^ 16 } :=
    .setName m (fun _ _ => rfl) (fun _ => rfl) fun _ h => h
  have hdown := CsetProg.optional (v := fun s : SolverState N P => (s.name d.name).installedPkg) (fun _ _ => rfl)
    fun pkg0 => .call (.nameRemove pkg0)
  exact .ite (fun _ _ => rfl) (.marks hset .pure) (.marks hset hdown)

theorem csetCheckRemovalByDeps_prog : CsetProg fun go s => csetCheckRemovalByDeps db go s pkg :=
  .ite (fun _ _ => rfl) (.call _) .pure

theorem csetCheckInstallByIif_prog [DecidableEq P] (n : N) : CsetProg fun go s => csetCheckInstallByIif db go s n := by
  refine .chosen n .pure fun p => ?_
  exact .ite (fun _ _ => rfl) .pure (.ite (fun _ _ => rfl) (.call _) .pure)

theorem csetCheckRemovalByIif_prog (n : N) : CsetProg fun go s => csetCheckRemovalByIif db go s n := by
  refine .option (v := fun s => (s.name n).installedPkg) (fun _ _ => rfl) .pure fun pkg => ?_
  refine .ite (fun _ _ => rfl) .pure (.ite (fun _ _ => rfl) .pure (.ite (fun _ _ => rfl) ?_ .pure))
  exact csetCheckRemovalByDeps_prog db pkg

theorem csetCheckByReverseIif_prog {cb : _ → SolverState N P → N → Option (SolverState N P)}
    (hcb : ∀ n, CsetProg fun go s => cb go s n) (pkg : Option P) :
    CsetProg fun go s => csetCheckByReverseIif db (cb go) s pkg := by
  cases pkg with
  | none => exact .pure
  | some p => exact .bind (.foldlM _ hcb) (.foldlM _ fun d => .foldlM _ hcb)

variable [DecidableEq N] [DecidableEq P]

/-- the packages that provided a name before are removed -/
theorem csetRemoveOld_prog (n : N) : CsetProg fun go s => csetRemoveFormer db go s n >>= fun ss =>
      (db.providers n).foldlM (csetRemoveProvider db go) ss := by
  refine .bind (.option (fun _ _ => rfl) .pure fun p => ?_) (.foldlM _ fun p => ?_)
  · exact .ite (fun _ _ => rfl) (.call _) .pure
  · exact .ite (fun _ _ => rfl) (.call _) .pure

theorem csetGenNamePreprocess_prog (n : N) : CsetProg fun go s => csetGenNamePreprocess db go s n :=
  .ite (fun _ _ => rfl) .pure (.marks markProcessed_marks (csetRemoveOld_prog db n))

omit [DecidableEq N] in
theorem csetGenDep_prog (ppkg : Option P) (dep : Dependency N) :
    CsetProg fun go s => csetGenDep db go ppkg s dep := by
  refine .ite (fun _ _ => rfl) .pure ?_
  refine .look (F := fun chosen go s => (go (.nameChange dep.name)
      (if apkDepIsProvided db ppkg dep chosen then s else markError s ppkg)).map fun ss =>
        if chosen.elim false (fun p => (ss.pkg p.pkg).error) then markError ss ppkg else ss)
    (fun s => (s.name dep.name).chosen) (fun _ _ => rfl) fun chosen => ?_
  have hmark : Marks fun s : SolverState N P =>
      if apkDepIsProvided db ppkg dep chosen = true then s else markError s ppkg := by
    split_ifs
    · exact .id
    · exact markError_marks ppkg
  have hlast : Marks fun s : SolverState N P =>
      if chosen.elim false (fun p => (s.pkg p.pkg).error) = true then markError s ppkg else s := by
    refine .look (F := fun (b : Bool) s => if b = true then markError s ppkg else s) _ (fun _ _ => rfl) fun b => ?_
    split_ifs
    · exact markError_marks ppkg
    · exact .id
  simp only [Option.map_eq_bind]
  exact .bind (.marks hmark (.call _)) (.marks (F := fun _ => some) hlast .pure)

theorem csetGenPkgChange_prog : CsetProg fun go s => csetGenPkgChange db go s pkg := by
  refine .bind (.foldlM _ (csetGenNamePreprocess_prog db)) (.look
    (F := fun opkg go s => csetCheckByReverseIif db (csetCheckRemovalByIif db go) s opkg >>= fun ss =>
      (db.package pkg).depends.foldlM (csetGenDep db go (some pkg)) ss >>= fun ss =>
        csetGenPkgFinish db go pkg opkg (recordChange db ss opkg (some pkg)))
    (fun s => (s.name (db.package pkg).name).installedPkg) (fun _ _ => rfl) fun opkg => ?_)
  refine .bind (csetCheckByReverseIif_prog db (csetCheckRemovalByIif_prog db) opkg) (.bind
    (.foldlM _ (csetGenDep_prog db _)) (.marks (recordChange_marks db opkg (some pkg))
      (.bind (csetCheckByReverseIif_prog db (csetCheckInstallByIif_prog db) _) ?_)))
  cases opkg with
  | none => exact .marks (f := (csetTrackDepsAdded db · pkg)) (csetTrackDepsAdded_marks db pkg) .pure
  | some old =>
    exact .marks (f := (csetTrackDepsAdded db · pkg)) (csetTrackDepsAdded_marks db pkg) (csetTrackDepsRemoved_prog db old)

/-- what follows when the providers of a name are settled -/
theorem csetGenChosen_prog (n : N) : CsetProg fun go (s : SolverState N P) => match (s.name n).chosen with
    | none => some s
    | some p => if (s.pkg p.pkg).inChangeset then some s
      else csetGenPkgChange db go (markInChangeset s p.pkg) p.pkg :=
  .chosen n .pure fun p =>
    .ite (fun _ _ => rfl) .pure (.marks markInChangeset_marks (csetGenPkgChange_prog db p.pkg))

/-- what follows when a package is marked as removed -/
theorem csetRemoveRest_prog : CsetProg fun go s =>
    (reverseDependencies db pkg).foldlM (fun ss p => go (.nameRemove p) ss) s >>= fun ss =>
      csetCheckByReverseIif db (csetCheckRemovalByIif db go) ss (some pkg) >>= fun ss =>
        csetTrackDepsRemoved db go (recordChange db ss (some pkg) none) pkg :=
  .bind (.foldlM _ fun _ => .call _) (.bind (csetCheckByReverseIif_prog db (csetCheckRemovalByIif_prog db) _)
    (.marks (recordChange_marks db _ _) (csetTrackDepsRemoved_prog db pkg)))

theorem csetGenNameChange_prog (n : N) : CsetProg fun go s => csetGenNameChange db go s n :=
  .ite (fun _ _ => rfl) .pure (.bind (csetGenNamePreprocess_prog db n) (csetGenChosen_prog db n))

theorem csetGenNameRemove_prog : CsetProg fun go s => csetGenNameRemove db go s pkg :=
  .ite (fun _ _ => rfl) .pure (.marks (markInChangeset_marks.comp markRemoved_marks) (csetRemoveRest_prog db pkg))

theorem generateChangeset_prog (world : List (Dependency N)) : CsetProg fun go s =>
    db.installed.foldlM (csetCheckRemovalByDeps db go) (csetInit db s) >>= fun ss =>
      world.foldlM (csetGenDep db go none) ss >>= fun ss =>
        db.installed.foldlM (fun ss p => go (.nameChange (db.package p).name) ss) ss >>= fun ss =>
          some (csetTotal ss) :=
  .marks (csetInit_marks db) (.bind (.foldlM _ (csetCheckRemovalByDeps_prog db)) (.bind
    (.foldlM _ (csetGenDep_prog db none)) (.bind (.foldlM _ fun _ => .call _) (.marks csetTotal_marks .pure))))

/-- what the first computation returns, the second returns too, but for the changeset -/
def Mirrors (C : Changeset P → Changeset P → Prop) (f g : SolverState N P → Option (SolverState N P)) : Prop :=
  ∀ s cs, C s.changeset cs → ∀ s', f s = some s' → ∃ cs', C s'.changeset cs' ∧ g (s.withCs cs) = some (s'.withCs cs')

section

variable {C : Changeset P → Changeset P → Prop} (hC : ∀ (f : Changeset P → Changeset P) a b, C a b → C (f a) (f b))
include hC

omit [DecidableEq N] [DecidableEq P] in
theorem CsetProg.mirrors {F : CsetFun N P} {go go' : CsetCall N P → SolverState N P → Option (SolverState N P)}
    (hgo : ∀ c, Mirrors C (go c) (go' c)) (hF : CsetProg F) : Mirrors C (F go) (F go') := by
  intro s cs hcs s' hs
  induction hF generalizing s cs s' with
  | pure =>
    cases hs
    exact ⟨cs, hcs, rfl⟩
  | call c => exact hgo c s cs hcs s' hs
  | @marks f F hf _ ih =>
    obtain ⟨h, hh⟩ := hf.blind s
    have hsame : (f s).changeset = h s.changeset := congrArg (·.changeset) (hh s.changeset)
    beta_reduce
    rw [hh]
    exact ih (f s) (h cs) (hsame ▸ hC h _ _ hcs) s' hs
  | bind _ _ ihF ihG =>
    obtain ⟨s₁, h₁, h₂⟩ := Option.bind_eq_some_iff.1 hs
    obtain ⟨cs₁, hcs₁, h₁'⟩ := ihF s cs hcs s₁ h₁
    obtain ⟨cs₂, hcs₂, h₂'⟩ := ihG s₁ cs₁ hcs₁ s' h₂
    exact ⟨cs₂, hcs₂, Option.bind_eq_some_iff.2 ⟨_, h₁', h₂'⟩⟩
  | look v hv _ ih =>
    beta_reduce
    rw [hv]
    exact ih _ s cs hcs s' hs

theorem csetRun_mirrors (k j : ℕ) (c : CsetCall N P) : Mirrors C (csetRun db k c) (csetRun db (k + j) c) := by
  induction k generalizing c with
  | zero => exact fun _ _ _ => nofun
  | succ k ih =>
    rw [Nat.succ_add]
    cases c with
    | nameChange n => exact (csetGenNameChange_prog db n).mirrors hC ih
    | nameRemove pkg => exact (csetGenNameRemove_prog db pkg).mirrors hC ih

theorem generateChangeset_mirrors (k j : ℕ) (world : List (Dependency N)) :
    Mirrors C (generateChangeset db k · world) (generateChangeset db (k + j) · world) :=
  (generateChangeset_prog db world).mirrors hC (csetRun_mirrors db hC k j)

end

/-- passes over two changesets end in states that differ in the changeset only -/
theorem solverPass_blind (fuel flags : ℕ) (pkg : P → PkgState) (cs cs' : Changeset P)
    (world : List (Dependency N)) {ss : SolverState N P}
    (h : solverPass db fuel flags pkg cs world = some ss) :
    ∃ c, solverPass db fuel flags pkg cs' world = some (ss.withCs c) := by
  unfold solverPass at h ⊢
  obtain ⟨s, hs, hg⟩ := Option.bind_eq_some_iff.1 h
  obtain ⟨c, -, hc⟩ := generateChangeset_mirrors db (C := fun _ _ => True) (fun _ _ _ => id) fuel 0 world
    (s.withCs cs) cs' trivial ss hg
  exact ⟨c, by rw [hs]; exact hc⟩

end

end Alpine

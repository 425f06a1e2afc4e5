import Alpine.Spec.Dep

/-! `apk_dep_analyze` against the entries that `apk_db_pkg_add` makes of a package. The code looks at
one entry only, and for the name of the package itself it does not ask who depends. -/

namespace Alpine

section

variable {N P : Type} [DecidableEq N] [DecidableEq P] (db : Database N P)
variable (deppkg : P) (dep : Dependency N) (pkg : P)

/-- the providers of the name that are the package, in the order of `apk_db_pkg_add` -/
def offers : List (Provider P) :=
  (if dep.name = (db.package pkg).name then [⟨pkg, (db.package pkg).version⟩] else []) ++
    ((db.package pkg).provides.filter fun p => decide (p.name = dep.name)).map fun p => ⟨pkg, p.version⟩

abbrev offered (p : Provider P) : Bool := apkDepIsProvided db (some deppkg) dep (some p)

/-- what the solver makes of the package: one of its entries has to do, but a conflict is with each -/
def solverVerdict : DepAnalysis :=
  if offers db dep pkg = [] then .irrelevant
  else if if apkDepConflict dep then ∀ p ∈ offers db dep pkg, offered db deppkg dep p
    else ∃ p ∈ offers db dep pkg, offered db deppkg dep p then .satisfies
  else .conflicts

/-- the first entry speaks for the others, and the package does not conflict with itself -/
structure FirstDecides : Prop where
  entries : ∀ p rest, offers db dep pkg = p :: rest → ∀ q ∈ rest,
    if apkDepConflict dep then offered db deppkg dep p → offered db deppkg dep q
    else offered db deppkg dep q → offered db deppkg dep p
  self : dep.name = (db.package pkg).name → apkDepConflict dep → deppkg = pkg →
    apkDepIsMaterialized db dep pkg

variable {db deppkg dep pkg} {p : Provider P} {rest : List (Provider P)}

theorem apkDepAnalyze_first : apkDepAnalyze db deppkg dep pkg =
    match offers db dep pkg with
    | [] => .irrelevant
    | p :: _ =>
      if if dep.name = (db.package pkg).name then apkDepIsMaterialized db dep pkg
        else offered db deppkg dep p then .satisfies else .conflicts := by
  unfold apkDepAnalyze offers
  by_cases hname : dep.name = (db.package pkg).name
  · simp [hname]
  · simp only [hname, ← List.head?_filter]
    cases (db.package pkg).provides.filter fun p => decide (p.name = dep.name) <;> rfl

theorem firstDecides_cons (h : offers db dep pkg = p :: rest) : FirstDecides db deppkg dep pkg ↔
    (∀ q ∈ rest, if apkDepConflict dep then offered db deppkg dep p → offered db deppkg dep q
      else offered db deppkg dep q → offered db deppkg dep p) ∧
    (dep.name = (db.package pkg).name → apkDepConflict dep → deppkg = pkg →
      apkDepIsMaterialized db dep pkg) := by
  refine ⟨fun hd => ⟨hd.entries p rest h, hd.self⟩, fun hd => ⟨fun p' rest' h' => ?_, hd.2⟩⟩
  obtain ⟨rfl, rfl⟩ := List.cons.inj (h.symm.trans h')
  exact hd.1

theorem offered_own (h : offers db dep pkg = p :: rest) (hself : ¬ (apkDepConflict dep ∧ deppkg = pkg))
    (hname : dep.name = (db.package pkg).name) :
    offered db deppkg dep p = apkDepIsMaterialized db dep pkg := by
  obtain rfl : (⟨pkg, (db.package pkg).version⟩ : Provider P) = p := by
    simp only [offers, if_pos hname, List.cons_append, List.cons.injEq] at h
    exact h.1
  simp [apkDepIsProvided, apkDepIsMaterialized, hname, hself]

theorem offered_self (h : p ∈ offers db dep pkg) (hself : apkDepConflict dep ∧ deppkg = pkg) :
    offered db deppkg dep p := by
  have hp : p.pkg = pkg := by
    unfold offers at h
    grind
  simp [apkDepIsProvided, hself, hp]

theorem dep_analyze_agrees_iff (db : Database N P) (deppkg : P) (dep : Dependency N) (pkg : P) :
    apkDepAnalyze db deppkg dep pkg = solverVerdict db deppkg dep pkg ↔
      FirstDecides db deppkg dep pkg := by
  rw [apkDepAnalyze_first, solverVerdict]
  cases hoffers : offers db dep pkg with
  | nil =>
    have hname : dep.name ≠ (db.package pkg).name := fun h => by simp [offers, h] at hoffers
    exact iff_of_true rfl ⟨by simp [hoffers], fun h => absurd h hname⟩
  | cons p rest =>
    rw [firstDecides_cons hoffers]
    by_cases hself : apkDepConflict dep ∧ deppkg = pkg
    · have hall : ∀ q ∈ p :: rest, offered db deppkg dep q := fun q hq =>
        offered_self (hoffers ▸ hq) hself
      grind
    have hfirst := offered_own hoffers hself
    by_cases hc : apkDepConflict dep
    · grind
    · grind

end

/-- a package with two versions of the name that it provides -/
def twiceDb : Database Bool Unit where
  package _ := plainPackage false (versionOf '1') [] []
    [⟨true, versionOf '1', apkVersionEqual, false, 0, 0⟩, ⟨true, versionOf '2', apkVersionEqual, false, 0, 0⟩] 0
  display _ := []
  providers n := if n then [⟨(), versionOf '1'⟩, ⟨(), versionOf '2'⟩] else [⟨(), versionOf '1'⟩]
  rdepends _ := []
  rinstallIf _ := []
  solverFlagsSet _ := false
  installed := []
  repoTags := [1]
  availableRepos := 1
  activeLayers := 1
  performingPreupgrade := false
  forceBrokenWorld := false
  undecodedDigest _ := []
  provider_own := by decide
  provider_from := by decide

theorem dep_analyze_disagrees :
    let dep : Dependency Bool := ⟨true, versionOf '2', apkVersionEqual, false, 0, 0⟩
    (∃ p ∈ twiceDb.providers true, apkDepIsProvided twiceDb (some ()) dep (some p)) ∧
      solverVerdict twiceDb () dep () = .satisfies ∧ apkDepAnalyze twiceDb () dep () = .conflicts := by
  decide +kernel

end Alpine

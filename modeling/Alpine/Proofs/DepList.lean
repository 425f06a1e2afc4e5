import Alpine.Sanity.DepText

/-! Lists of dependencies. `apk_blob_pull_deps` takes a token before it skips separators, so that
one at the start gives a dependency without a name, and it stops at the first token that is not a
dependency; `apk_dep_split` skips separators first. -/

namespace Alpine

open List Dependency

def depRuns (b : Bytes) : List Bytes :=
  (b.splitOnP (apkCtype .dependencySeparator)).filter (· ≠ [])

variable {b run : Bytes} {allowTag : Bool} {tags : List Bytes} {room : ℕ}

theorem depRuns_separator {c : UInt8} (hc : apkCtype .dependencySeparator c = true) :
    depRuns (c :: b) = depRuns b := by
  unfold depRuns
  rw [show c :: b = [] ++ c :: b from rfl, splitOnP_append_cons _ _ hc]
  exact filter_cons_of_neg (by simp)

theorem depRuns_skip : depRuns (b.dropWhile (apkCtype .dependencySeparator)) = depRuns b := by
  induction b with
  | nil => rfl
  | cons c b ih =>
    by_cases hc : apkCtype .dependencySeparator c = true
    · rw [dropWhile_cons_of_pos hc, ih, depRuns_separator hc]
    · rw [dropWhile_cons_of_neg hc]

def NoLead (b : Bytes) : Prop := ∀ c, b.head? = some c → apkCtype .dependencySeparator c = false

theorem depToken_ne_nil (h : NoLead b) (hb : b ≠ []) : depToken b ≠ [] := by
  obtain ⟨c, l, rfl⟩ := exists_cons_of_ne_nil hb
  have hc := h c rfl
  simp [depToken, hc]

theorem depRuns_cons (h : NoLead b) (hb : b ≠ []) :
    depRuns b = depToken b :: depRuns (b.dropWhile fun c => !apkCtype .dependencySeparator c) := by
  have hne := depToken_ne_nil h hb
  have happ : depToken b ++ b.dropWhile (fun c => !apkCtype .dependencySeparator c) = b :=
    takeWhile_append_dropWhile
  have hsingle : (depToken b).splitOnP (apkCtype .dependencySeparator) = [depToken b] :=
    splitOnP_eq_singleton fun c hc => by simpa using mem_takeWhile_imp hc
  have hfilter : ∀ bs : List Bytes, (depToken b :: bs).filter (· ≠ []) =
      depToken b :: bs.filter (· ≠ []) := fun bs => filter_cons_of_pos (by simpa using hne)
  cases hrest : b.dropWhile fun c => !apkCtype .dependencySeparator c with
  | nil =>
    rw [hrest, append_nil] at happ
    unfold depRuns
    nth_rewrite 1 [← happ]
    rw [hsingle, hfilter]
    rfl
  | cons c l =>
    have hc : apkCtype .dependencySeparator c = true := by
      have hstop := dropWhile_head (show _ = some c by rw [hrest]; rfl)
      simpa using hstop
    rw [hrest] at happ
    rw [depRuns_separator hc]
    unfold depRuns
    nth_rewrite 1 [← happ]
    rw [splitOnP_append_cons _ _ hc, hsingle, singleton_append, hfilter]

theorem depRest_noLead : NoLead (depRest b) := by
  intro c hc
  exact dropWhile_head hc

theorem depRuns_token (h : NoLead b) (hb : b ≠ []) : depRuns b = depToken b :: depRuns (depRest b) := by
  rw [depRuns_cons h hb]
  unfold depRest apkBlobSpn
  rw [depRuns_skip]

theorem depRest_length_lt (h : NoLead b) (hb : b ≠ []) : (depRest b).length < b.length := by
  have h1 := dropWhile_length_lt (depToken_ne_nil h hb)
  have h2 := dropWhile_length_le (apkCtype .dependencySeparator)
    (b.dropWhile fun c => !apkCtype .dependencySeparator c)
  exact lt_of_le_of_lt h2 h1

theorem apkDepSplit_eq : apkDepSplit b =
      if b.dropWhile (apkCtype .dependencySeparator) = [] then none
      else some (depToken (b.dropWhile (apkCtype .dependencySeparator)),
        (b.dropWhile (apkCtype .dependencySeparator)).dropWhile
          fun c => !apkCtype .dependencySeparator c) := by
  unfold apkDepSplit apkBlobSpn
  by_cases hb : b = []
  · subst hb
    rfl
  rw [if_neg hb]
  by_cases hb' : b.dropWhile (apkCtype .dependencySeparator) = []
  · simp [hb']
  · have htoken := depToken_ne_nil (fun c hc => dropWhile_head hc) hb'
    rw [if_neg hb']
    exact if_neg htoken

theorem depSplitLoop_eq (h : b.length ≤ room) : depSplitLoop room b = depRuns b := by
  induction room generalizing b with
  | zero =>
    obtain rfl := length_eq_zero_iff.1 (Nat.le_zero.1 h)
    rfl
  | succ room ih =>
    have hlead : NoLead (b.dropWhile (apkCtype .dependencySeparator)) :=
      fun c hc => dropWhile_head hc
    rw [depSplitLoop, apkDepSplit_eq, ← depRuns_skip]
    by_cases hb : b.dropWhile (apkCtype .dependencySeparator) = []
    · rw [hb]
      rfl
    have hlt := dropWhile_length_lt (depToken_ne_nil hlead hb)
    have hle := dropWhile_length_le (apkCtype .dependencySeparator) b
    rw [if_neg hb, depRuns_cons hlead hb]
    exact congrArg (List.cons _) (ih (by omega))

/-- the name that a token is read with, if it is a dependency -/
def tokenName (allowTag : Bool) (token : Bytes) : Option Bytes :=
  (apkDepParse token).bind fun r =>
    match apkBlobSplit r.1 (asc '@') with
    | none => some r.1
    | some (name, _) => if allowTag then some name else none

theorem depToken_self (b : Bytes) : depToken (depToken b) = depToken b := by
  unfold depToken
  rw [takeWhile_takeWhile]
  simp

/-- the dependency of a token, and the tags with that of the token -/
def tokenDep (allowTag : Bool) (tags : List Bytes) (token : Bytes) : Option (Dependency Bytes) × List Bytes :=
  ((apkBlobPullDepTag allowTag tags token).1.map Prod.fst, (apkBlobPullDepTag allowTag tags token).2)

theorem pull_token (b : Bytes) : apkBlobPullDepTag allowTag tags b =
    ((tokenDep allowTag tags (depToken b)).1.map fun d => (d, depRest b),
      (tokenDep allowTag tags (depToken b)).2) := by
  cases hparse : apkDepParse (depToken b) with
  | none =>
    have hnone : ∀ b', depToken b' = depToken b → apkBlobPullDepTag allowTag tags b' = (none, tags) := by
      intro b' hb'
      rw [← hb', depToken] at hparse
      simp only [apkBlobPullDepTag, hparse]
    rw [tokenDep, hnone _ (depToken_self b), hnone _ rfl]
    rfl
  | some r =>
    obtain ⟨p, htext, -⟩ := exists_parts hparse
    rw [tokenDep, apkBlobPullDepTag_parts htext.symm, apkBlobPullDepTag_parts ((depToken_self b).trans htext.symm),
      Option.map_map, Option.map_map]
    rfl

theorem tokenDep_name {token : Bytes} (h : depToken token = token) :
    (tokenDep allowTag tags token).1.map name = tokenName allowTag token := by
  unfold depToken at h
  unfold tokenDep apkBlobPullDepTag tokenName
  simp only [h]
  cases apkDepParse token with
  | none => rfl
  | some r =>
    simp only [Option.bind_some]
    cases apkBlobSplit r.1 (asc '@') with
    | none => rfl
    | some lr => cases allowTag <;> rfl

def depsOfRuns (allowTag : Bool) : List Bytes → List Bytes → List (Dependency Bytes)
  | _, [] => []
  | tags, run :: runs =>
    match apkBlobPullDepTag allowTag tags run with
    | (none, tags) => depsOfRuns allowTag tags runs
    | (some (d, _), tags) => d :: depsOfRuns allowTag tags runs

/-- the dependencies before the first run that is not one -/
def depsUntil (allowTag : Bool) : List Bytes → List Bytes → List (Dependency Bytes)
  | _, [] => []
  | tags, run :: runs =>
    match apkBlobPullDepTag allowTag tags run with
    | (none, _) => []
    | (some (d, _), tags) => d :: depsUntil allowTag tags runs

theorem pullDepsTagLoop_eq (hroom : b.length ≤ room) (h : NoLead b) :
    (pullDepsTagLoop allowTag room tags b).2.1 = depsUntil allowTag tags (depRuns b) := by
  induction room generalizing tags b with
  | zero =>
    obtain rfl := length_eq_zero_iff.1 (Nat.le_zero.1 hroom)
    rfl
  | succ room ih =>
    rw [pullDepsTagLoop]
    by_cases hb : b = []
    · subst hb
      rfl
    have hlt := depRest_length_lt h hb
    rw [if_neg hb, depRuns_token h hb, depsUntil]
    rw [pull_token b, pull_token (depToken b), depToken_self]
    cases tokenDep allowTag tags (depToken b) with
    | mk r tags' =>
      cases r with
      | none => rfl
      | some d => exact congrArg (List.cons d) (ih (by omega) depRest_noLead)

theorem depToken_of_mem (h : run ∈ depRuns b) : depToken run = run := by
  have hloop : ∀ (room : ℕ) (b : Bytes), run ∈ depSplitLoop room b → depToken run = run := by
    intro room
    induction room with
    | zero => intro b hb; cases hb
    | succ room ih =>
      intro b hb
      rw [depSplitLoop, apkDepSplit_eq] at hb
      split_ifs at hb
      · cases hb
      · rcases mem_cons.1 hb with rfl | hb
        · exact depToken_self _
        · exact ih _ hb
  rw [← depSplitLoop_eq le_rfl] at h
  exact hloop _ _ h

section

variable {allowTag : Bool} {runs : List Bytes}

variable {tags : List Bytes}

section

variable (hruns : ∀ run ∈ runs, depToken run = run)
include hruns

theorem depsOfRuns_map_name :
    (depsOfRuns allowTag tags runs).map name = runs.filterMap (tokenName allowTag) := by
  induction runs generalizing tags with
  | nil => rfl
  | cons run runs ih =>
    have hrest := fun r hr => hruns r (mem_cons_of_mem run hr)
    have hrun := hruns run mem_cons_self
    rw [depsOfRuns, pull_token, hrun, filterMap_cons, ← tokenDep_name hrun]
    cases tokenDep allowTag tags run with
    | mk r tags' => cases r <;> simp [ih hrest]

theorem depsUntil_eq_iff : depsUntil allowTag tags runs = depsOfRuns allowTag tags runs ↔
      runs.Pairwise fun r r' => tokenName allowTag r = none → tokenName allowTag r' = none := by
  induction runs generalizing tags with
  | nil => simp [depsUntil, depsOfRuns]
  | cons run runs ih =>
    have hrest := fun r hr => hruns r (mem_cons_of_mem run hr)
    have hrun := hruns run mem_cons_self
    rw [depsUntil, depsOfRuns, pairwise_cons, pull_token, hrun, ← tokenDep_name hrun]
    rcases tokenDep allowTag tags run with ⟨_ | d, tags'⟩
    · simp only [Option.map_none, forall_const]
      rw [eq_comm, ← map_eq_nil_iff (f := name), depsOfRuns_map_name hrest, filterMap_eq_nil_iff]
      constructor
      · intro hall
        refine ⟨hall, pairwise_of_forall_mem_list fun r hr r' hr' _ => hall r' hr'⟩
      · exact fun h => h.1
    · simp [ih hrest]

theorem depsOfRuns_names : (∀ d ∈ depsOfRuns allowTag tags runs, d.name ≠ []) ↔
      ∀ run ∈ runs, tokenName allowTag run ≠ some [] := by
  rw [← forall_mem_map (f := name) (P := (· ≠ [])), depsOfRuns_map_name hruns]
  simp only [mem_filterMap]
  exact ⟨fun h run hr he => h [] ⟨run, hr, he⟩ rfl, fun h n ⟨run, hr, hn⟩ he => h run hr (he ▸ hn)⟩

theorem depsUntil_items (hok : ∀ run ∈ runs, ∃ r, apkDepParse run = some r ∧ asc '@' ∉ r.1) :
    (depsUntil allowTag tags runs).map (fun d => some (d.name, d.op, d.version)) =
      runs.map apkDepParse := by
  induction runs generalizing tags with
  | nil => rfl
  | cons run runs ih =>
    obtain ⟨⟨name, op, version⟩, hparse, hat⟩ := hok run mem_cons_self
    obtain ⟨p, htext, rfl, rfl, rfl⟩ := exists_parts hparse
    have hpull : apkBlobPullDepTag allowTag tags run =
        (some (⟨p.name, p.version.map (·.2), p.op, p.broken, 0, 0⟩, depRest run), tags) := by
      rw [apkBlobPullDepTag_parts ((hruns run mem_cons_self).trans htext.symm)]
      unfold DepParts.dep
      rw [apkBlobSplit_none hat]
      rfl
    rw [depsUntil, hpull]
    simp only [map_cons, hparse]
    rw [ih (fun r hr => hruns r (mem_cons_of_mem run hr)) fun r hr => hok r (mem_cons_of_mem run hr)]

end

end

section

variable (fresh : ℕ → UInt8) (hash : List Bytes → ℕ)

theorem dependencyName_at : dependencyName (asc '@') = false := by decide

variable {db : AdbWriter}

theorem adbWDependency_ok {item : Bytes} {r : Option (ℕ × AdbWriter)}
    (h : adbWDependency fresh hash db item = .ok r) :
    ∃ p, apkDepParse item = some p ∧ asc '@' ∉ p.1 := by
  unfold adbWDependency dependencyFromstring at h
  cases hparse : apkDepParse item with
  | none => simp [hparse, Except.map] at h
  | some p =>
    refine ⟨p, rfl, fun hat => ?_⟩
    have hname : p.1.all dependencyName = false := by
      rw [all_eq_false]
      exact ⟨_, hat, by rw [dependencyName_at]; exact Bool.false_ne_true⟩
    simp [hparse, hname, Except.map] at h

theorem dependenciesLoop_ok {arr : List ℕ} {r : List ℕ × AdbWriter}
    (h : dependenciesLoop fresh hash room db arr b = .ok (some r)) :
    ∀ item ∈ depSplitLoop room b, ∃ p, apkDepParse item = some p ∧ asc '@' ∉ p.1 := by
  induction room generalizing db arr b with
  | zero => intro item hitem; cases hitem
  | succ room ih =>
    rw [dependenciesLoop] at h
    rw [depSplitLoop]
    cases hsplit : apkDepSplit b with
    | none => intro item hitem; cases hitem
    | some x =>
      obtain ⟨bdep, b'⟩ := x
      simp only [hsplit] at h
      cases hdep : adbWDependency fresh hash db bdep with
      | error e => simp [hdep] at h
      | ok w =>
        simp only [hdep] at h
        cases w with
        | none => simp at h
        | some w =>
          rintro item hitem
          rcases mem_cons.1 hitem with rfl | hitem
          · exact adbWDependency_ok fresh hash hdep
          · exact ih h item hitem

/-- a blob is read as one dependency for each run that is one, none without a name, and falls apart
into the items that go into a database if both ways accept it -/
structure SplitsDeps (db : AdbWriter) (allowTag : Bool) (tags : List Bytes) (b : Bytes) : Prop where
  each : (apkBlobPullDepsTag allowTag tags b).2.1 = depsOfRuns allowTag tags (depRuns b)
  named : ∀ d ∈ (apkBlobPullDepsTag allowTag tags b).2.1, d.name ≠ []
  same : (apkBlobPullDepsTag allowTag tags b).1 = 0 →
    (∃ r, dependenciesFromstring fresh hash db b = .ok (some r)) →
    (apkBlobPullDepsTag allowTag tags b).2.1.map (fun d => some (d.name, d.op, d.version)) =
      (depSplitLoop b.length b).map apkDepParse

/-- no separator at the start, no dependency after a run that is not one, and none without a name -/
structure CleanDeps (allowTag : Bool) (b : Bytes) : Prop where
  head : NoLead b
  order : (depRuns b).Pairwise fun r r' => tokenName allowTag r = none → tokenName allowTag r' = none
  named : ∀ run ∈ depRuns b, tokenName allowTag run ≠ some []

theorem lead_unnamed (h : ¬ NoLead b) : ∃ d ∈ (apkBlobPullDepsTag allowTag tags b).2.1, d.name = [] := by
  cases b with
  | nil => exact absurd (fun c hc => by cases hc) h
  | cons c b =>
    have hc : apkCtype .dependencySeparator c = true := by
      by_contra hc
      refine h fun x hx => ?_
      obtain rfl : c = x := by simpa using hx
      simpa using hc
    have htoken : depToken (c :: b) = [] := takeWhile_cons_of_neg (by simp [hc])
    have hname : (tokenDep allowTag tags []).1.map name = some [] := tokenDep_name rfl
    unfold apkBlobPullDepsTag
    rw [length_cons, pullDepsTagLoop, pull_token, htoken]
    generalize tokenDep allowTag tags [] = r at hname ⊢
    rcases r with ⟨_ | d, tags'⟩
    · cases hname
    · exact ⟨d, mem_cons_self, Option.some.inj hname⟩

theorem splits_deps_iff (db : AdbWriter) (allowTag : Bool) (tags : List Bytes) (b : Bytes) :
    SplitsDeps fresh hash db allowTag tags b ↔ CleanDeps allowTag b := by
  have hruns : ∀ run ∈ depRuns b, depToken run = run := fun run h => depToken_of_mem h
  have hdeps : NoLead b →
      (apkBlobPullDepsTag allowTag tags b).2.1 = depsUntil allowTag tags (depRuns b) :=
    pullDepsTagLoop_eq le_rfl
  constructor
  · rintro ⟨heach, hnamed, -⟩
    have hhead : NoLead b := by
      by_contra hlead
      obtain ⟨d, hd, hname⟩ := lead_unnamed hlead
      exact hnamed d hd hname
    refine ⟨hhead, ?_, ?_⟩
    · rw [hdeps hhead] at heach
      exact (depsUntil_eq_iff hruns).1 heach
    · rw [heach] at hnamed
      exact (depsOfRuns_names hruns).1 hnamed
  rintro ⟨hhead, horder, hnamed⟩
  have heach : (apkBlobPullDepsTag allowTag tags b).2.1 = depsOfRuns allowTag tags (depRuns b) :=
    (hdeps hhead).trans ((depsUntil_eq_iff hruns).2 horder)
  refine ⟨heach, ?_, ?_⟩
  · rw [heach]
    exact (depsOfRuns_names hruns).2 hnamed
  rintro - ⟨r, hr⟩
  have hitems := dependenciesLoop_ok fresh hash hr
  rw [depSplitLoop_eq le_rfl] at hitems ⊢
  rw [hdeps hhead]
  exact depsUntil_items hruns hitems

end

/-- a blank before `a`: a dependency without a name is added, though both ways accept the blob -/
theorem blank_unnamed : (apkBlobPullDepsTag false [[]] (ascs [' ', 'a'])).1 = 0 ∧
      (apkBlobPullDepsTag false [[]] (ascs [' ', 'a'])).2.1.map (·.name) = [[], ascs ['a']] ∧
      depSplitLoop 2 (ascs [' ', 'a']) = [ascs ['a']] ∧
      ((adbWInitDynamic (fun _ => 0) 1).bind fun db =>
        (dependenciesFromstring (fun _ => 0) List.length db
          (ascs [' ', 'a'])).toOption.join).isSome = true := by
  decide +kernel

end Alpine

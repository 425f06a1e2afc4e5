import Alpine.Spec.Query
import Alpine.Proofs.BrokenWorld
import Alpine.Proofs.DirOwner

/-! What a query reports. The best match is the champion of a scan over the matching packages, in which an
installed package beats whatever comes before it but not what follows. A query for a name and a version
looks for a package with the name, and then compares this name with the whole query. -/

namespace Alpine

open List

section

variable {N P : Type} [DecidableEq P] (db : Database N P)

/-- `x` takes the place of `y` as the best match -/
def betterMatch (x y : P) : Bool :=
  decide ((db.package x).ipkg.isSome ∨ apkVersionCompare (atomBlob (db.package x).version)
    (atomBlob (db.package y).version) = apkVersionGreater)

theorem updateBestMatch_eq_keep (best : Option P) (x : P) :
    updateBestMatch db best x = Champion.keep (betterMatch db) best x := by
  cases best with
  | none => rfl
  | some b =>
    by_cases hb : b = x
    · simp [updateBestMatch, Champion.keep, hb]
    · simp only [updateBestMatch, Champion.keep, betterMatch, decide_eq_true_eq]
      split_ifs <;> rfl

theorem apkDepIsProvided_any (n : N) (v : Option Bytes) (p : Provider P) :
    apkDepIsProvided db none ⟨n, v, apkDepmaskAny, false, 0, 0⟩ (some p) = true := by
  have hconflict : apkDepmaskAny &&& apkVersionConflict = 0 := by decide
  have hchecksum : apkDepmaskAny ≠ apkDepmaskChecksum := by decide
  simp [apkDepIsProvided, apkVersionMatch, hconflict, hchecksum]

variable [DecidableEq N] (env : QueryEnv N P) (qs : QuerySpec) (m : MatchCtx) (name : N)

variable (providers : List (Provider P))

/-- the packages of the providers for which there is a call -/
def matchingPkgs : List P :=
  (providers.filter fun p => !(nameCalls env db qs m name [p]).isEmpty).map (·.pkg)

theorem nameCalls_eq_flatMap :
    nameCalls env db qs m name providers = providers.flatMap fun p => nameCalls env db qs m name [p] := by
  simp only [nameCalls]
  split_ifs
  · simp
  · simp
  · simp

theorem nameCalls_pkg {p : Provider P} {c : QueryMatch N P} (hc : c ∈ nameCalls env db qs m name [p]) :
    c.pkg = some p.pkg := by
  simp only [nameCalls, providerCalls, flatMap_singleton] at hc
  split_ifs at hc <;> grind

theorem scan_nameCalls (best : Option P) (p : Provider P) :
    Champion.scan (betterMatch db) best ((nameCalls env db qs m name [p]).filterMap (·.pkg)) =
      if (nameCalls env db qs m name [p]).isEmpty then best
      else Champion.keep (betterMatch db) best p.pkg := by
  cases hcalls : nameCalls env db qs m name [p] with
  | nil => rfl
  | cons c calls =>
    have hpkg : ∀ d ∈ c :: calls, d.pkg = some p.pkg := fun d hd =>
      nameCalls_pkg db env qs m name (hcalls ▸ hd)
    apply Champion.scan_run
    · intro x hx
      obtain ⟨d, hd, hdx⟩ := mem_filterMap.1 hx
      exact Option.some.inj (hdx.symm.trans (hpkg d hd))
    · rw [filterMap_cons_some (hpkg c mem_cons_self)]
      exact cons_ne_nil _ _

theorem bestMatch_eq_scan : bestMatch env db qs m name providers =
      Champion.scan (betterMatch db) none (matchingPkgs db env qs m name providers) := by
  have hstep : updateBestMatch db = Champion.keep (betterMatch db) := by
    funext best x
    exact updateBestMatch_eq_keep db best x
  have hscan : ∀ best, Champion.scan (betterMatch db) best
      ((providers.flatMap fun p => nameCalls env db qs m name [p]).filterMap (·.pkg)) =
      Champion.scan (betterMatch db) best (matchingPkgs db env qs m name providers) := by
    induction providers with
    | nil => exact fun _ => rfl
    | cons p providers ih =>
      intro best
      rw [flatMap_cons, filterMap_append, Champion.scan_append, scan_nameCalls, ih, matchingPkgs, matchingPkgs,
        filter_cons]
      cases hp : (nameCalls env db qs m name [p]).isEmpty <;> rfl
  rw [bestMatch, hstep, nameCalls_eq_flatMap]
  exact hscan none

/-- each order of the matching packages comes from an order of the providers -/
theorem matchingPkgs_perm {providers : List (Provider P)} {pkgs : List P}
    (h : pkgs.Perm (matchingPkgs db env qs m name providers)) :
    ∃ ps, ps.Perm providers ∧ matchingPkgs db env qs m name ps = pkgs := by
  obtain ⟨ps, rfl, hps⟩ := (congrFun (congrFun (eq_map_comp_perm Provider.pkg) pkgs) _).mpr h
  refine ⟨ps ++ providers.filter fun p => !!(nameCalls env db qs m name [p]).isEmpty,
    (hps.append_right _).trans (filter_append_perm _ _), ?_⟩
  have hall : ∀ p ∈ ps, (!(nameCalls env db qs m name [p]).isEmpty) = true := fun p hp =>
    (mem_filter.1 (hps.mem_iff.1 hp)).2
  rw [matchingPkgs, filter_append, filter_eq_self.2 hall, filter_eq_nil_iff.2 (by simp), append_nil]

theorem best_match_order_iff (providers : List (Provider P)) :
    (∀ ps, ps.Perm providers → bestMatch env db qs m name ps = bestMatch env db qs m name providers) ↔
      matchingPkgs db env qs m name providers = [] ∨
        ∃ w ∈ matchingPkgs db env qs m name providers, ∀ q ∈ matchingPkgs db env qs m name providers, q ≠ w →
          betterMatch db w q = true ∧ betterMatch db q w = false := by
  refine Iff.trans ?_ (Champion.scan_perm_iff (betterMatch db) _)
  simp only [bestMatch_eq_scan]
  refine ⟨fun h pkgs hpkgs => ?_, fun h ps hps => h _ ((hps.filter _).map _)⟩
  obtain ⟨ps, hps, rfl⟩ := matchingPkgs_perm db env qs m name hpkgs
  exact h ps hps

/-- a query for names that reports all matches, without a filter -/
structure QuerySpec.Default (qs : QuerySpec) : Prop where
  recursive : qs.recursive = false
  search : qs.search = false
  allMatches : qs.allMatches = true
  available : qs.available = false
  installed : qs.installed = false
  orphaned : qs.orphaned = false
  upgradable : qs.upgradable = false
  fields : qs.fields = 0 ∨ qs.fields = apkQFieldName

/-- a package of the name whose own version satisfies the rest of the query -/
def Wanted (bname : Bytes) (op : ℕ) (version : Option Bytes) (p : P) : Prop :=
  db.display (db.package p).name = bname ∧
    apkDepIsProvided db none ⟨(db.package p).name, version, op, false, 0, 0⟩ (some ⟨p, (db.package p).version⟩)

variable {qs} {arg bname : Bytes} {op : ℕ} {version : Option Bytes}

section

variable (hqs : qs.Default) (hfields : qs.fields = apkQFieldName)
include hqs hfields

theorem mem_providerCalls_default {nameMatch : Bool} {c : QueryMatch N P} {p : Provider P} :
    c ∈ providerCalls env db qs m name nameMatch p ↔ nameMatch = true ∧ (db.package p.pkg).name = name ∧
      apkDepIsProvided db none ⟨name, m.version, m.op, false, 0, 0⟩ (some p) = true ∧
      c = ⟨[], some p.pkg, some name⟩ := by
  have hnonindex : qs.nonindex = 0 := by rw [QuerySpec.nonindex, hfields]; decide
  by_cases hp : (db.package p.pkg).name = name
  · simp [providerCalls, hqs.installed, hqs.available, hqs.upgradable, hfields,
      hnonindex, env.fieldMatches_zero]
    tauto
  · simp [providerCalls, hp]

theorem mem_nameCalls_default {c : QueryMatch N P} {providers : List (Provider P)} :
    c ∈ nameCalls env db qs m name providers ↔
      matchString env m (db.display name) = true ∧ ∃ p ∈ providers, (db.package p.pkg).name = name ∧
        apkDepIsProvided db none ⟨name, m.version, m.op, false, 0, 0⟩ (some p) = true ∧
        c = ⟨[], some p.pkg, some name⟩ := by
  have hname : (apkQFieldName &&& apkQFieldName ≠ 0) ∧ apkQFieldName ≠ 0 := by decide
  cases h : matchString env m (db.display name) <;>
    simp [nameCalls, hqs.orphaned, hfields, hname, h, mem_providerCalls_default db env m name hqs hfields]

theorem mem_queryArg_default (hplain : ∀ c ∈ arg, c ≠ asc '?' ∧ c ≠ asc '*') (p : P) :
    (∃ r ∈ (queryArg env db qs arg).1, r.pkg = some p) ↔
      ∃ n ∈ env.names.find? (fun n => db.display n = (matchCtx qs arg).q),
        ∃ c ∈ nameCalls env db qs (matchCtx qs arg) n (db.providers n), c.pkg = some p := by
  have hexact : (matchCtx qs arg).wildcard = false := by
    simpa [matchCtx, hqs.search] using hplain
  have howner : apkQFieldName &&& apkQFieldOwner = 0 := by decide
  cases h : env.names.find? (fun n => db.display n = (matchCtx qs arg).q) with
  | none => simp [queryArg, hfields, howner, hexact, h]
  | some n =>
    by_cases hc : nameCalls env db qs (matchCtx qs arg) n (db.providers n) = [] <;>
      simp [queryArg, hfields, howner, hexact, h, matchName, hqs.allMatches, hc]

end

theorem apkQueryMatches_default (hqs : qs.Default) :
    ∃ qs' : QuerySpec, qs'.Default ∧ qs'.fields = apkQFieldName ∧
      ∀ arg, (apkQueryMatches env db qs [arg]).1 = (queryArg env db qs' arg).1 := by
  refine ⟨{ qs with fields := apkQFieldName }, { hqs with fields := Or.inr rfl }, rfl, fun arg => ?_⟩
  have hfields : (if qs.fields = 0 then { qs with fields := apkQFieldName } else qs) =
      { qs with fields := apkQFieldName } := by
    rcases hqs.fields with h | h
    · rw [if_pos h]
    · rw [if_neg (by rw [h]; decide), ← h]
  have hmatchable : apkQFieldName - (apkQFieldName &&& apkQFieldsMatchable) = 0 := by decide
  simp only [apkQueryMatches, hfields]
  simp [hmatchable, hqs.recursive]

theorem apkDepParse_sublist (h : apkDepParse arg = some (bname, op, version)) : bname <+ arg := by
  simp only [apkDepParse] at h
  split_ifs at h <;> simp only [Option.some.injEq] at h <;> obtain ⟨rfl, -⟩ := h
  · exact drop_sublist 1 arg
  · exact (takeWhile_sublist _).trans (drop_sublist 1 arg)
  · exact Sublist.refl _
  · exact takeWhile_sublist _

/-- only a text without an operator is its own name -/
theorem apkDepParse_self (h : apkDepParse arg = some (arg, op, version)) : op = apkDepmaskAny := by
  have hcut (s : Bytes) (hs : s.dropWhile (fun c => !apkCtype .dependencyComparer c) ≠ []) :
      (s.takeWhile fun c => !apkCtype .dependencyComparer c).length < s.length := by
    have hall := congrArg length (takeWhile_append_dropWhile (p := fun c => !apkCtype .dependencyComparer c) (l := s))
    rw [length_append] at hall
    have := length_pos_iff.2 hs
    omega
  simp only [apkDepParse] at h
  by_cases hmark : arg.head? = some (asc '!')
  · obtain ⟨rest, rfl⟩ := head?_eq_some_iff.1 hmark
    simp only [drop_one, tail_cons] at h
    split_ifs at h with hbop <;> simp only [Option.some.injEq, Prod.mk.injEq] at h
    · exact absurd h.1.symm (cons_ne_self _ _)
    · have := hcut rest hbop
      rw [h.1, length_cons] at this
      omega
  split_ifs at h with hbop <;> simp only [Option.some.injEq, Prod.mk.injEq] at h
  · exact h.2.1.symm.trans (Nat.zero_or _)
  · exact absurd (hcut arg hbop) (by rw [h.1]; omega)

theorem query_reports_iff (hqs : qs.Default) (hnames : ∀ p, (db.package p).name ∈ env.names)
    (hunique : ∀ a b, db.display a = db.display b → a = b) (hzero : 0 ∉ arg)
    (hplain : ∀ c ∈ arg, c ≠ asc '?' ∧ c ≠ asc '*') (hparse : apkDepParse arg = some (bname, op, version)) :
    (∀ p, (∃ r ∈ (apkQueryMatches env db qs [arg]).1, r.pkg = some p) ↔ Wanted db bname op version p) ↔
      arg = bname ∨ ∀ p, ¬Wanted db bname op version p := by
  obtain ⟨qs', hqs', hfields, hq⟩ := apkQueryMatches_default db env hqs
  have hm : matchCtx qs' arg = ⟨false, arg, bname, op, version⟩ := by
    simpa [matchCtx, hqs'.search, hparse] using hplain
  have htext : cstr bname = cstr arg ↔ arg = bname := by
    rw [(cstr_eq_iff arg).2 hzero, (cstr_eq_iff bname).2 fun h => hzero ((apkDepParse_sublist hparse).subset h),
      eq_comm]
  have hreports (p : P) : (∃ r ∈ (apkQueryMatches env db qs [arg]).1, r.pkg = some p) ↔
      arg = bname ∧ Wanted db bname op version p := by
    rw [hq, mem_queryArg_default db env hqs' hfields hplain]
    simp only [mem_nameCalls_default db env _ _ hqs' hfields, hm, matchString, Bool.false_eq_true, if_false,
      decide_eq_true_eq, strcmp_eq_zero_iff]
    constructor
    · rintro ⟨n, hn, _, ⟨hcmp, q, -, hown, -, rfl⟩, hcp⟩
      obtain rfl : q.pkg = p := Option.some.inj hcp
      have hdisplay : db.display n = bname := by simpa using find?_some hn
      obtain rfl : arg = bname := htext.1 (hdisplay ▸ hcmp)
      obtain rfl := apkDepParse_self hparse
      exact ⟨rfl, hown ▸ hdisplay, apkDepIsProvided_any db _ _ _⟩
    rintro ⟨rfl, hdisplay, hprov⟩
    have hfound : (env.names.find? fun n => db.display n = arg).isSome :=
      find?_isSome.2 ⟨_, hnames p, decide_eq_true hdisplay⟩
    obtain ⟨n, hn⟩ := Option.isSome_iff_exists.1 hfound
    have hn' : db.display n = arg := by simpa using find?_some hn
    obtain rfl := hunique _ _ (hn'.trans hdisplay.symm)
    exact ⟨_, hn, _, ⟨congrArg cstr hdisplay, _, db.provider_own p, rfl, hprov, rfl⟩, rfl⟩
  simp only [hreports]
  exact ⟨fun h => or_iff_not_imp_left.2 fun hne p hp => hne ((h p).2 hp).1, fun h p => by grind⟩

end

/-- the names `a` and `m` of `upgradeDb`; only names are matched -/
def namesEnv : QueryEnv (Fin 2) (Fin 2) where
  names := [0, 1]
  hasRepositoryProviders _ := true
  upgradable _ := false
  whoOwns _ := none
  fnmatch _ _ := false
  fieldMatches _ _ _ _ := []
  fieldMatches_zero _ _ _ := rfl
  queryRecursive _ := ([], 0)

def nameQuery (allMatches : Bool) : QuerySpec :=
  ⟨false, false, false, allMatches, false, false, false, false, apkQFieldName⟩

/-- an installed package and a newer one: the last of them is taken -/
theorem best_match_last :
    let best := bestMatch namesEnv upgradeDb (nameQuery false) (matchCtx (nameQuery false) (ascs ['a'])) 0
    best [⟨0, versionOf '1'⟩, ⟨1, versionOf '2'⟩] = some 1 ∧
      best [⟨1, versionOf '2'⟩, ⟨0, versionOf '1'⟩] = some 0 := by
  decide +kernel

theorem query_reports_name :
    (∃ r ∈ (apkQueryMatches namesEnv upgradeDb (nameQuery true) [ascs ['a']]).1, r.pkg = some 0) ↔
      Wanted upgradeDb (ascs ['a']) apkDepmaskAny none 0 :=
  (query_reports_iff upgradeDb namesEnv ⟨rfl, rfl, rfl, rfl, rfl, rfl, rfl, Or.inr rfl⟩ (by decide) (by decide)
    (by decide) (by decide) rfl).2 (Or.inl rfl) 0

/-- `a=1` is there, and the query `a=1` reports that it has no match -/
theorem query_misses_version : Wanted upgradeDb (ascs ['a']) apkVersionEqual (versionOf '1') 0 ∧
      (apkQueryMatches namesEnv upgradeDb (nameQuery true) [ascs ['a', '=', '1']]).1.map (·.pkg) = [none] :=
  ⟨⟨by decide +kernel, by decide +kernel⟩, by decide +kernel⟩

end Alpine

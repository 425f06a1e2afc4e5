import Alpine.Spec.Options

/-! `abuild-sudo` refuses two options by comparing each argument with their full spelling. The
parser of apk also takes an option by an unambiguous beginning of its name and with its value
behind an equals sign, so the comparison does not keep these options from being given. -/

namespace Alpine

open List

/-- the entry's name begins with the key -/
def covers (key d : Bytes) : Bool :=
  decide (key.length ≤ optNameLen key (optCodes 0 d))

/-- an option of a table: its group, its number there and its text -/
abbrev OptEntry := OptGroup × ℕ × Bytes

/-- the options in the order in which the parser goes through them -/
def entriesOf (tables : List (OptGroup × List Bytes)) : List OptEntry :=
  tables.flatMap fun t => t.2.zipIdx.map fun p => (t.1, p.2, p.1)

def scanEntries : List OptEntry → OptMatch → OptResult × OptMatch
  | [], m => (.ok, m)
  | e :: es, m =>
    let r := optParseEntry e.1 e.2.1 m e.2.2
    if r.1 = .ok then scanEntries es r.2 else r

theorem scanEntries_append (es es' : List OptEntry) (m : OptMatch) : scanEntries (es ++ es') m =
    if (scanEntries es m).1 = .ok then scanEntries es' (scanEntries es m).2 else scanEntries es m := by
  induction es generalizing m with
  | nil => rfl
  | cons e es ih =>
    simp only [cons_append, scanEntries]
    split_ifs with hok h
    · rw [ih, if_pos h]
    · rw [ih, if_neg h]
    · rfl

theorem optParseDesc_scan (func : OptGroup) (id : ℕ) (desc : List Bytes) (m : OptMatch) :
    optParseDesc func id desc m = scanEntries ((desc.zipIdx id).map fun p => (func, p.2, p.1)) m := by
  induction desc generalizing id m with
  | nil => rfl
  | cons d desc ih => simp only [optParseDesc, zipIdx_cons, map_cons, scanEntries, ih]

theorem optMatchTables_scan (tables : List (OptGroup × List Bytes)) (m : OptMatch) :
    optMatchTables tables m = scanEntries (entriesOf tables) m := by
  induction tables generalizing m with
  | nil => rfl
  | cons t tables ih =>
    rw [entriesOf, flatMap_cons, scanEntries_append, ← optParseDesc_scan, optMatchTables]
    simp only [ih]
    rfl

/-- what the parser looks for, which stays the same while it goes through the tables -/
def optionOf (m : OptMatch) : Bytes × Option OptValue × Bool × UInt8 :=
  (m.key, m.value, m.valueExplicit, m.shortOpt)

/-- the entry is the one with the letter, or its name begins with the key -/
def takes (m : OptMatch) (d : Bytes) : Bool :=
  (optCodes m.shortOpt d).short || decide (m.shortOpt = 0) && covers m.key d

/-- the match that such an entry leaves -/
structure Took (m : OptMatch) (e : OptEntry) (r : OptResult × OptMatch) : Prop where
  func : r.2.func = some e.1
  optid : r.2.optid = e.2.1
  same : optionOf r.2 = optionOf m
  how : (optCodes m.shortOpt e.2.2).short = true ∨ m.shortOpt = 0 ∧ covers m.key e.2.2 = true ∧
    (r.1 = .matchExact → optNameLen m.key (optCodes 0 e.2.2) = m.key.length) ∧
    ∃ arg, optLongArg m (optCodes 0 e.2.2) = some arg ∧ r.2.valueUsed = arg.2

/-- all that an entry can do -/
theorem optParseEntry_cases (m : OptMatch) (e : OptEntry) : ∀ r, optParseEntry e.1 e.2.1 m e.2.2 = r →
    r.1 ≠ .matchPartial ∧ (r.1 = .ok ∨ r.1 = .matchExact → r = (.ok, m) ∧ takes m e.2.2 = false ∨
      Took m e r ∧ takes m e.2.2 = true ∧ r.2.cnt = m.cnt + 1) := by
  rintro r rfl
  unfold optParseEntry takes
  by_cases hshort : (optCodes m.shortOpt e.2.2).short = true
  · simp only [hshort, if_true, Bool.true_or]
    split_ifs
    · exact ⟨nofun, nofun⟩
    · exact ⟨nofun, fun _ => Or.inr ⟨⟨rfl, rfl, rfl, Or.inl hshort⟩, trivial, rfl⟩⟩
  rw [Bool.not_eq_true] at hshort
  by_cases hopt : m.shortOpt = 0
  · simp only [hopt] at hshort ⊢
    simp only [hshort, covers]
    by_cases hlen : m.key.length ≤ optNameLen m.key (optCodes 0 e.2.2)
    · rw [if_pos hlen]
      cases harg : optLongArg m (optCodes 0 e.2.2) with
      | none => exact ⟨nofun, nofun⟩
      | some arg =>
        refine ⟨by split_ifs <;> simp, fun _ => Or.inr ⟨⟨rfl, rfl, rfl, Or.inr ⟨hopt, decide_eq_true hlen, ?_,
          arg, harg, rfl⟩⟩, by simpa using hlen, rfl⟩⟩
        intro he
        by_contra hne
        simp [hne] at he
    · rw [if_neg hlen]
      exact ⟨nofun, fun _ => Or.inl ⟨rfl, by simpa using hlen⟩⟩
  · simp only [hshort, hopt, ne_eq, not_false_eq_true, if_true, Bool.false_eq_true, if_false, decide_false,
      Bool.false_and, Bool.or_false]
    exact ⟨nofun, fun _ => Or.inl ⟨trivial, trivial⟩⟩

theorem takes_congr {m0 : OptMatch} (h : optionOf m0 = optionOf m) : takes m0 = takes m := by
  simp only [optionOf, Prod.mk.injEq] at h
  funext d
  rw [takes, takes, h.1, h.2.2.2]

/-- the match is that of the last entry that was taken, and counts them -/
theorem scanEntries_cases (es : List OptEntry) (m : OptMatch) : (scanEntries es m).1 ≠ .matchPartial ∧
    ((scanEntries es m).1 = .ok ∨ (scanEntries es m).1 = .matchExact →
      (scanEntries es m = (.ok, m) ∨ ∃ e ∈ es, ∃ m0, optionOf m0 = optionOf m ∧ Took m0 e (scanEntries es m)) ∧
      ((scanEntries es m).1 = .ok → (scanEntries es m).2.cnt = m.cnt + (es.map fun e => e.2.2).countP (takes m))) := by
  induction es generalizing m with
  | nil => exact ⟨nofun, fun _ => ⟨Or.inl rfl, fun _ => rfl⟩⟩
  | cons e es ih =>
    obtain ⟨hne, hcases⟩ := optParseEntry_cases m e _ rfl
    unfold scanEntries
    simp only
    split_ifs with hok
    · refine ⟨(ih _).1, fun hr => ?_⟩
      obtain ⟨hlast, hcnt⟩ := (ih _).2 hr
      rcases hcases (Or.inl hok) with ⟨hm, hno⟩ | ⟨htook, hyes, hone⟩
      · rw [hm] at hlast hcnt ⊢
        refine ⟨hlast.imp id fun ⟨e', he', h⟩ => ⟨e', mem_cons_of_mem _ he', h⟩, fun h => ?_⟩
        rw [hcnt h, map_cons, countP_cons_of_neg (by simp [hno])]
      · refine ⟨Or.inr ?_, fun h => ?_⟩
        · rcases hlast with hlast | ⟨e', he', m0, hm0, h⟩
          · rw [hlast]
            refine ⟨e, mem_cons_self, m, rfl, htook.func, htook.optid, htook.same, htook.how.imp id ?_⟩
            exact fun ⟨h0, hcov, _, harg⟩ => ⟨h0, hcov, nofun, harg⟩
          · exact ⟨e', mem_cons_of_mem _ he', m0, hm0.trans htook.same, h⟩
        · rw [hcnt h, takes_congr htook.same, hone, map_cons, countP_cons_of_pos hyes]
          omega
    · refine ⟨hne, fun hr => ⟨Or.inr ⟨e, mem_cons_self, m, rfl, ?_⟩, fun h => absurd h hok⟩⟩
      rcases hcases hr with ⟨hm, -⟩ | ⟨htook, -⟩
      · rw [hm] at hok
        exact absurd rfl hok
      · exact htook

theorem map_entriesOf (tables : List (OptGroup × List Bytes)) :
    (entriesOf tables).map (fun e => e.2.2) = tables.flatMap fun t => t.2 := by
  simp only [entriesOf, map_flatMap, map_map, Function.comp_def]
  exact congrArg (flatMap · tables) (funext fun t => zipIdx_map_fst 0 t.2)

def Chosen (r : OptResult) : Prop := r = .matchExact ∨ r = .matchPartial

theorem optTables_eq (applet : Option Applet) : ∃ rest, optTables applet = (.global, optgroupGlobalDesc) :: rest ∧
      ∀ t ∈ rest, t.1 ≠ OptGroup.global := by
  cases applet with
  | none => exact ⟨[], rfl, by simp⟩
  | some a =>
    refine ⟨_, rfl, ?_⟩
    cases a.optgroupCommit <;> cases a.optgroupQuery <;> cases a.optgroupGeneration <;> simp

theorem chosen_done {r : OptResult} (h : Chosen (optMatchDone r m)) :
    Chosen r ∧ (m.valueExplicit = true → m.valueUsed = true) := by
  unfold optMatchDone at h
  split_ifs at h with h1 h2 h3
  · exact absurd h (by simp [Chosen, h1])
  · exact absurd h (by simp [Chosen])
  · exact absurd h (by simp [Chosen])
  · refine ⟨h, fun he => ?_⟩
    by_contra hu
    exact h2 ⟨by simpa using hu, he⟩

/-- a global option is chosen by its entry, by its full name or as the only match -/
theorem optMatch_global (hcnt : m.cnt = 0) (hfunc : m.func = none) (hr : Chosen (optMatch applet m).1)
    (hf : (optMatch applet m).2.func = some .global) : ∃ id d m0 r, optgroupGlobalDesc[id]? = some d ∧
      optionOf m0 = optionOf m ∧ Took m0 (.global, id, d) (r, (optMatch applet m).2) ∧
      ((optMatch applet m).2.valueExplicit = true → (optMatch applet m).2.valueUsed = true) ∧
      (r = .matchExact ∨ optgroupGlobalDesc.countP (takes m) ≤ 1) := by
  have hsecond : (optMatch applet m).2 = (scanEntries (entriesOf (optTables applet)) m).2 := by
    rw [← optMatchTables_scan]
    rfl
  obtain ⟨hpart, hcases⟩ := scanEntries_cases (entriesOf (optTables applet)) m
  have hend : ((scanEntries (entriesOf (optTables applet)) m).1 = .matchExact ∨
      (scanEntries (entriesOf (optTables applet)) m).1 = .ok ∧ (optMatch applet m).2.cnt = 1) ∧
      ((optMatch applet m).2.valueExplicit = true → (optMatch applet m).2.valueUsed = true) := by
    unfold optMatch at hr ⊢
    simp only [optMatchTables_scan] at hr ⊢
    split_ifs at hr with h1 h2 h3
    · exact ⟨Or.inl ((chosen_done hr).1.resolve_right hpart), (chosen_done hr).2⟩
    · exact absurd hr (by simp [Chosen])
    · exact absurd hr (by simp [Chosen])
    · exact ⟨Or.inr ⟨not_not.1 h1, not_not.1 h2⟩, (chosen_done hr).2⟩
  rw [hsecond] at hf hend ⊢
  obtain ⟨hlast, hcount⟩ := hcases (hend.1.symm.imp_left And.left)
  rcases hlast with hlast | ⟨e, he, m0, hm0, htook⟩
  · rw [hlast, hfunc] at hf
    cases hf
  obtain ⟨rest, htables, hrest⟩ := optTables_eq applet
  obtain ⟨t, ht, hte⟩ := mem_flatMap.1 he
  obtain ⟨p, hp, rfl⟩ := mem_map.1 hte
  have htg : t.1 = .global := Option.some.inj (htook.func.symm.trans hf)
  rw [htables] at ht
  obtain rfl : t = (.global, optgroupGlobalDesc) :=
    (mem_cons.1 ht).resolve_right fun h => hrest t h htg
  refine ⟨p.2, p.1, m0, _, mem_zipIdx_iff_getElem?.1 hp, hm0, htook, hend.2, hend.1.imp_right ?_⟩
  rintro ⟨hok, hone⟩
  rw [hcount hok, hcnt, map_entriesOf, htables, flatMap_cons, countP_append, Nat.zero_add] at hone
  exact hone ▸ Nat.le_add_right _ _

def OptCall.forbidden (c : OptCall) : Prop :=
  c.func = .global ∧ (c.optid = optGlobalAllowUntrusted ∨ c.optid = optGlobalKeysDir)

/-- an argument that apk takes for one of the two options although `abuild-sudo` may accept it: an
unambiguous beginning of the name, or `keys-dir` with its value behind an equals sign -/
def bypasses (arg : Bytes) : Bool :=
  match arg with
  | c0 :: c1 :: body =>
    c0 == asc '-' && c1 == asc '-' &&
      match apkBlobSplit body (asc '=') with
      | some kv => !kv.1.isEmpty && kv.1.isPrefixOf (lit "keys-dir")
      | none =>
        decide (2 ≤ body.length) && body.isPrefixOf (lit "allow-untrusted") ||
          !body.isEmpty && body.isPrefixOf (lit "keys-dir")
  | _ => false

theorem global_names : ∀ k ∈ [[], [asc 'a']], 1 < optgroupGlobalDesc.countP (covers k) ∧
    ∀ d ∈ optgroupGlobalDesc, optNameLen k (optCodes 0 d) ≠ k.length := by
  decide +kernel

theorem global_allowUntrusted :
    optgroupGlobalDesc[optGlobalAllowUntrusted]? = some (lit "allow-untrusted") := rfl

theorem global_keysDir : optgroupGlobalDesc[optGlobalKeysDir]? = some (apkOptArg (lit "keys-dir")) := rfl

theorem lit_allowUntrusted : lit "allow-untrusted" = asc 'a' :: lit "llow-untrusted" := by
  decide +kernel

theorem lit_keysDir : lit "keys-dir" = asc 'k' :: lit "eys-dir" := by
  decide +kernel

theorem codes_allowUntrusted :
    optCodes c (lit "allow-untrusted") = ⟨false, false, false, false, lit "allow-untrusted"⟩ := by
  rw [lit_allowUntrusted]
  rfl

theorem codes_keysDir :
    optCodes c (apkOptArg (lit "keys-dir")) = ⟨true, false, false, false, lit "keys-dir"⟩ := by
  rw [lit_keysDir]
  rfl

theorem isPrefixOf_of_covers (h : covers key d = true) (hkey : key ≠ [])
    (hno : (optCodes 0 d).boolArg = false ∨ (lit "no-").isPrefixOf key = false) :
    key.isPrefixOf (optCodes 0 d).name = true := by
  unfold covers optNameLen at h
  have hneg : ¬ ((optCodes 0 d).boolArg = true ∧ (lit "no-").isPrefixOf key = true ∧
      (key.drop 3).isPrefixOf (optCodes 0 d).name = true) := by
    rintro ⟨h1, h2, -⟩
    rcases hno with hno | hno
    · rw [hno] at h1
      cases h1
    · rw [hno] at h2
      cases h2
  rw [decide_eq_true_eq] at h
  split_ifs at h with hp
  · exact hp
  · exact absurd (length_eq_zero_iff.1 (Nat.le_zero.1 h)) hkey

theorem covers_of_isPrefixOf (h : key.isPrefixOf (optCodes 0 d).name = true) : covers key d = true := by
  unfold covers optNameLen
  have hlen : key.length ≤ (optCodes 0 d).name.length :=
    (List.isPrefixOf_iff_prefix.1 h).length_le
  rw [if_pos h, decide_eq_true_eq]
  omega

theorem forbidden_key (hcnt : m.cnt = 0) (hfunc : m.func = none) (hr : Chosen (optMatch applet m).1)
    (hf : (⟨.global, (optMatch applet m).2.optid, (optMatch applet m).2.optarg⟩ : OptCall).forbidden)
    (hg : (optMatch applet m).2.func = some .global) : m.shortOpt = 0 ∧
    ((m.valueExplicit = false ∧ 2 ≤ m.key.length ∧ m.key.isPrefixOf (lit "allow-untrusted") = true) ∨
      (m.key ≠ [] ∧ m.key.isPrefixOf (lit "keys-dir") = true)) := by
  obtain ⟨id, d, m0, r, hd, hsame, htook, hvalue, hend⟩ := optMatch_global hcnt hfunc hr hg
  have hid : id = optGlobalAllowUntrusted ∨ id = optGlobalKeysDir := by
    rw [← show (optMatch applet m).2.optid = id from htook.optid]
    exact hf.2
  have hentry : id = optGlobalAllowUntrusted ∧ d = lit "allow-untrusted" ∨
      id = optGlobalKeysDir ∧ d = apkOptArg (lit "keys-dir") :=
    hid.imp (fun h => ⟨h, Option.some.inj (hd.symm.trans (h ▸ global_allowUntrusted))⟩)
      fun h => ⟨h, Option.some.inj (hd.symm.trans (h ▸ global_keysDir))⟩
  have hplain : ∀ c, (optCodes c d).short = false ∧ (optCodes c d).boolArg = false := by
    rcases hentry with ⟨-, rfl⟩ | ⟨-, rfl⟩
    · simp [codes_allowUntrusted]
    · simp [codes_keysDir]
  have hexpl := congrArg (fun o => o.2.2.1) (htook.same.trans hsame)
  obtain ⟨hopt, hcov, hexact, arg, harg, hused⟩ := htook.how.resolve_left (by simp [hplain])
  simp only [optionOf, Prod.mk.injEq] at hsame
  rw [hsame.2.2.2] at hopt
  rw [hsame.1] at hcov hexact
  -- nothing and a single `a` are ambiguous, and no name is as short
  have hkey : ∀ k ∈ [[], [asc 'a']], m.key ≠ k := by
    rintro k hk rfl
    rcases hend with rfl | hone
    · exact (global_names _ hk).2 d (mem_of_getElem? hd) (hexact rfl)
    · have hle := countP_mono_left (p := covers m.key) (q := takes m) (l := optgroupGlobalDesc)
        fun d _ h => by simp [takes, hopt, h]
      have := (global_names _ hk).1
      omega
  have hpre := isPrefixOf_of_covers hcov (hkey [] (by simp)) (Or.inl (hplain 0).2)
  refine ⟨hopt, ?_⟩
  rcases hentry with ⟨-, rfl⟩ | ⟨-, rfl⟩
  · rw [codes_allowUntrusted] at hpre harg
    refine Or.inl ⟨?_, ?_, hpre⟩
    · cases harg
      refine eq_false_of_ne_true fun hx => ?_
      exact Bool.false_ne_true (hused.symm.trans (hvalue (hexpl.trans hx)))
    rcases hmk : m.key with - | ⟨c, - | ⟨c', k⟩⟩
    · exact absurd hmk (hkey [] (by simp))
    · rw [hmk, lit_allowUntrusted] at hpre
      have hc : (c == asc 'a') = true := (Bool.and_eq_true_iff.1 hpre).1
      rw [eq_of_beq hc] at hmk
      exact absurd hmk (hkey [asc 'a'] (by simp))
    · exact Nat.le_add_left 2 k.length
  · rw [codes_keysDir] at hpre
    exact Or.inr ⟨hkey [] (by simp), hpre⟩

def Clean (calls : List OptCall) : Prop := ∀ c ∈ calls, ¬ c.forbidden

theorem optRun_clean (h : Clean calls)
    (hr : Chosen r.1 → r.2.func = some .global → ¬ (⟨.global, r.2.optid, r.2.optarg⟩ : OptCall).forbidden) :
    Clean (optRun apk execute r calls).2 := by
  unfold optRun
  split_ifs with hexec hno
  · exact h
  · exact h
  have hchosen : Chosen r.1 := by
    by_contra hc
    exact hno ⟨fun he => hc (Or.inl he), fun hp => hc (Or.inr hp)⟩
  split
  · exact h
  next func hfunc =>
  intro c hc
  rcases mem_append.1 hc with hc | hc
  · exact h c hc
  obtain rfl := mem_singleton.1 hc
  rintro ⟨hg, hid⟩
  obtain rfl : func = .global := hg
  exact hr hchosen hfunc ⟨rfl, hid⟩

theorem optParseLong_clean (h : Clean calls) (hb : bypasses (asc '-' :: asc '-' :: body) = false) :
    Clean (optParseLong apk applet execute body nextArg calls).calls := by
  refine optRun_clean h fun hr hg hf => ?_
  obtain ⟨-, hkey⟩ := forbidden_key (m := longOption body nextArg) (by unfold longOption; split <;> rfl)
    (by unfold longOption; split <;> rfl) hr hf hg
  simp only [bypasses] at hb
  unfold longOption at hkey
  cases hs : apkBlobSplit body (asc '=') with
  | some kv =>
    simp only [hs] at hkey hb
    rcases hkey with ⟨he, -⟩ | ⟨hne, hpre⟩
    · cases he
    · simp [hpre, hne] at hb
  | none =>
    simp only [hs] at hkey hb
    rcases hkey with ⟨-, hlen, hpre⟩ | ⟨hne, hpre⟩
    · simp [hlen, hpre] at hb
    · simp [hpre, hne] at hb

theorem optParseShort_clean {letters : Bytes} (h : Clean calls) :
    Clean (optParseShort apk applet execute nextArg letters calls).calls := by
  induction letters generalizing calls with
  | nil => exact h
  | cons c rest ih =>
    have hrun : Clean (optRun apk execute (optMatch applet (shortOption c rest nextArg)) calls).2 := by
      refine optRun_clean h fun hr hg hf => ?_
      obtain ⟨hc, hkey⟩ := forbidden_key (m := shortOption c rest nextArg) rfl rfl hr hf hg
      obtain rfl : c = 0 := hc
      rcases hkey with ⟨-, hlen, -⟩ | ⟨-, hpre⟩
      · have hlen' : 2 ≤ ([0] : Bytes).length := hlen
        simp at hlen'
      · have hpre' : ([0] : Bytes).isPrefixOf (lit "keys-dir") = true := hpre
        exact absurd hpre' (by decide +kernel)
    unfold optParseShort
    simp only
    split_ifs
    · exact hrun
    · exact hrun
    · exact ih hrun

theorem optParseArgv_clean (apk : ApkProgram) (applet : Option Applet) (execute : Bool)
    (nextArg : Option Bytes) (endOfOptions : Bool) {arg : Bytes} (h : Clean calls)
    (hb : bypasses arg = false) :
    Clean (optParseArgv apk applet execute arg nextArg endOfOptions calls).calls := by
  unfold optParseArgv
  split_ifs
  · exact h
  split
  · exact h
  · exact h
  next c0 c1 body =>
  split_ifs with h0 h1 h2
  · exact h
  · exact h
  · rw [not_not.1 h0, h1] at hb
    exact optParseLong_clean h hb
  · exact optParseShort_clean h

theorem parseArgs_clean (argv : List Bytes) (skip endOfOptions pending : Bool) (args : List Bytes)
    (h : Clean calls) (hb : ∀ a ∈ argv, bypasses a = false) :
    Clean (parseArgs apk applet argv skip endOfOptions pending calls args).calls := by
  induction argv generalizing skip endOfOptions pending calls args with
  | nil => exact h
  | cons arg argv ih =>
    have hrest := fun a ha => hb a (mem_cons_of_mem _ ha)
    cases skip with
    | true => exact ih false endOfOptions pending args h hrest
    | false =>
      have hstep := optParseArgv_clean apk applet true argv.head? endOfOptions h (hb arg mem_cons_self)
      unfold parseArgs
      simp only
      split
      · exact ih _ _ _ _ hstep hrest
      · split_ifs
        · exact ih _ _ _ _ hstep hrest
        · exact ih _ _ _ _ hstep hrest
        · exact ih _ _ _ _ hstep hrest
      · exact hstep
      · exact hstep

theorem parseOptions_clean {argv : List Bytes} (hb : ∀ a ∈ argv, bypasses a = false) :
    Clean (parseOptions apk arg0 argv).calls := by
  have hnil : Clean [] := fun c hc => absurd hc not_mem_nil
  unfold parseOptions
  split
  · exact parseArgs_clean argv _ _ _ _ hnil hb
  · split
    · exact parseArgs_clean argv _ _ _ _ hnil hb
    · exact parseArgs_clean argv _ _ _ _ hnil hb

theorem not_covers (hk : k.isPrefixOf (optCodes 0 d).name = false) (hpre : k <+: key) (hne : k ≠ [])
    (hno : (lit "no-").isPrefixOf key = false) : covers key d = false := by
  refine eq_false_of_ne_true fun h => ?_
  have hkey : key ≠ [] := by
    rintro rfl
    exact hne (prefix_nil.1 hpre)
  have h' := isPrefixOf_of_covers h hkey (Or.inr hno)
  rw [List.isPrefixOf_iff_prefix.2 (hpre.trans (List.isPrefixOf_iff_prefix.1 h'))] at hk
  cases hk

theorem scanEntries_skip {es : List OptEntry} (h : ∀ e ∈ es, takes m e.2.2 = false) :
    scanEntries es m = (.ok, m) := by
  induction es with
  | nil => rfl
  | cons e es ih =>
    have hentry : optParseEntry e.1 e.2.1 m e.2.2 = (.ok, m) := by
      have he := h e mem_cons_self
      simp only [takes, covers, Bool.or_eq_false_iff, Bool.and_eq_false_iff, decide_eq_false_iff_not] at he
      unfold optParseEntry
      by_cases h0 : m.shortOpt = 0
      · rw [h0] at he ⊢
        simp [he.1, he.2.resolve_left (not_not.2 rfl)]
      · simp [he.1, h0]
    rw [scanEntries, hentry]
    exact ih fun e' he' => h e' (mem_cons_of_mem _ he')

theorem optMatch_unique {id : ℕ} {l r : List OptEntry}
    (hsplit : entriesOf (optTables none) = l ++ (.global, id, d) :: r) (hopt : m.shortOpt = 0)
    (hcnt : m.cnt = 0) (hk : k ≠ [] ∧ k.length ≤ m.key.length)
    (hother : ∀ e ∈ l ++ r, (optCodes 0 e.2.2).short = false ∧ k.isPrefixOf (optCodes 0 e.2.2).name = false)
    (hname : (optCodes 0 d).short = false ∧ k.isPrefixOf (optCodes 0 d).name = true ∧
      (lit "no-").isPrefixOf (optCodes 0 d).name = false)
    (hpre : m.key.isPrefixOf (optCodes 0 d).name = true) (harg : optLongArg m (optCodes 0 d) = some arg)
    (hvalue : arg.2 = true ∧ m.value ≠ none ∨ arg.2 = false ∧ m.valueExplicit = false) :
    Chosen (optMatch none m).1 ∧ (optMatch none m).2 = takeLong m .global id arg := by
  have hkey := List.isPrefixOf_iff_prefix.1 hpre
  have hbegin := prefix_of_prefix_length_le (List.isPrefixOf_iff_prefix.1 hname.2.1) hkey hk.2
  have hno : (lit "no-").isPrefixOf m.key = false := by
    refine eq_false_of_ne_true fun h => ?_
    rw [List.isPrefixOf_iff_prefix.2 ((List.isPrefixOf_iff_prefix.1 h).trans hkey)] at hname
    exact absurd hname.2.2 (by decide)
  have hskip : ∀ e ∈ l ++ r, takes m e.2.2 = false := by
    intro e he
    simp [takes, hopt, (hother e he).1, not_covers (hother e he).2 hbegin hk.1 hno]
  have hentry : optParseEntry .global id m d =
      (if optNameLen m.key (optCodes 0 d) = m.key.length then .matchExact else .ok,
        takeLong m .global id arg) := by
    unfold optParseEntry
    simp [hopt, hname.1, of_decide_eq_true (covers_of_isPrefixOf hpre), harg]
  have hr : scanEntries r (takeLong m .global id arg) = (.ok, takeLong m .global id arg) :=
    scanEntries_skip fun e he => hskip e (mem_append_right _ he)
  have hall : ∃ r, (r = .ok ∨ r = .matchExact) ∧
      optMatchTables (optTables none) m = (r, takeLong m .global id arg) := by
    rw [optMatchTables_scan, hsplit, scanEntries_append,
      scanEntries_skip fun e he => hskip e (mem_append_left _ he), if_pos rfl, scanEntries]
    simp only [hentry]
    by_cases he : optNameLen m.key (optCodes 0 d) = m.key.length
    · exact ⟨.matchExact, Or.inr rfl, by simp [he]⟩
    · refine ⟨.ok, Or.inl rfl, ?_⟩
      simp only [he]
      exact hr
  have hdone : ∀ r, Chosen r → Chosen (optMatchDone r (takeLong m .global id arg)) := by
    intro r hr
    unfold optMatchDone takeLong
    simp only
    rcases hvalue with ⟨hu, hv⟩ | ⟨hu, hv⟩
    · split_ifs with h1 h2 h3
      · exact hr
      · rw [hu] at h2
        exact absurd h2.1 (by decide)
      · exact absurd h3.2 hv
      · exact hr
    split_ifs with h1 h2 h3
    · exact hr
    · rw [hv] at h2
      exact absurd h2.2 (by decide)
    · rw [hu] at h3
      exact absurd h3.1 (by decide)
    · exact hr
  obtain ⟨r, hr, hall⟩ := hall
  unfold optMatch
  rw [hall]
  refine ⟨?_, rfl⟩
  simp only
  rcases hr with rfl | rfl
  · rw [if_neg (by simp), if_neg (by simp [takeLong, hcnt])]
    exact hdone _ (Or.inr rfl)
  · rw [if_pos (by simp)]
    exact hdone _ (Or.inl rfl)

theorem optMatch_allowUntrusted (hopt : m.shortOpt = 0) (hcnt : m.cnt = 0) (hlen : 2 ≤ m.key.length)
    (hpre : m.key.isPrefixOf (lit "allow-untrusted") = true) (hexpl : m.valueExplicit = false) :
    Chosen (optMatch none m).1 ∧
      (optMatch none m).2 = takeLong m .global optGlobalAllowUntrusted (.null, false) := by
  refine optMatch_unique (l := []) (k := [asc 'a', asc 'l']) (r := (entriesOf (optTables none)).drop 1) rfl hopt hcnt
    ⟨by simp, hlen⟩ (by decide +kernel) (by decide +kernel) ?_ ?_ (Or.inr ⟨rfl, hexpl⟩)
  · rw [codes_allowUntrusted]
    exact hpre
  · rw [codes_allowUntrusted]
    rfl

theorem optMatch_keysDir (hopt : m.shortOpt = 0) (hcnt : m.cnt = 0) (hne : m.key ≠ [])
    (hpre : m.key.isPrefixOf (lit "keys-dir") = true) (hvalue : m.value ≠ none) :
    Chosen (optMatch none m).1 ∧
      (optMatch none m).2 = takeLong m .global optGlobalKeysDir (OptArg.ofValue m.value, true) := by
  refine optMatch_unique (l := (entriesOf (optTables none)).take 19) (k := [asc 'k'])
    (r := (entriesOf (optTables none)).drop 20) rfl hopt hcnt ⟨by simp, length_pos_of_ne_nil hne⟩
    (by decide +kernel) (by decide +kernel) ?_ ?_ (Or.inl ⟨rfl, hvalue⟩)
  · rw [codes_keysDir]
    exact hpre
  · rw [codes_keysDir]
    rfl

theorem optParseLong_call {id : ℕ} (hid : id = optGlobalAllowUntrusted ∨ id = optGlobalKeysDir)
    (h : Chosen (optMatch none (longOption body nextArg)).1 ∧ (optMatch none (longOption body nextArg)).2 =
      takeLong (longOption body nextArg) .global id arg) :
    ∃ skip, optParseLong apk none true body nextArg calls =
      ⟨.ok, skip, false, calls ++ [⟨.global, id, arg.1⟩]⟩ := by
  have hret : callHandler apk calls .global (takeLong (longOption body nextArg) .global id arg) = 0 := by
    rcases hid with rfl | rfl
    · rfl
    · rfl
  have hrun : optRun apk true (optMatch none (longOption body nextArg)) calls =
      (.ok, calls ++ [⟨.global, id, arg.1⟩]) := by
    unfold optRun
    rw [if_neg (by simp), if_neg (by rcases h.1 with h1 | h1 <;> simp [h1]), h.2]
    simp only [takeLong] at hret ⊢
    simp [hret]
  unfold optParseLong
  simp only [hrun]
  exact ⟨_, rfl⟩

theorem findApplet_options (apk : ApkProgram) (argv : List Bytes) (skip : Bool)
    (h : ∀ a ∈ argv, ∃ body, body ≠ [] ∧ a = asc '-' :: asc '-' :: body) :
    findApplet apk argv skip false = none := by
  induction argv generalizing skip with
  | nil => rfl
  | cons a argv ih =>
    have hrest := fun a' ha' => h a' (mem_cons_of_mem _ ha')
    cases skip with
    | true => exact ih false hrest
    | false =>
      obtain ⟨body, hne, rfl⟩ := h a mem_cons_self
      unfold findApplet
      have hlong : optParseArgv apk none false (asc '-' :: asc '-' :: body) argv.head? false [] =
          optParseLong apk none false body argv.head? [] := by
        unfold optParseArgv
        simp [hne]
      simp only [hlong]
      exact ih _ hrest

theorem appletFromArg0_apk : appletFromArg0 apk (lit "/sbin/apk") = none := by
  unfold appletFromArg0
  rw [if_neg (by decide +kernel)]

/-- an argument that bypasses the check runs one of the two handlers, if another one follows that
can be its value -/
theorem bypasses_step (apk : ApkProgram) (nextArg : Bytes)
    (h : bypasses (asc '-' :: asc '-' :: body) = true) (calls : List OptCall) :
    ∃ skip c, optParseLong apk none true body (some nextArg) calls =
      ⟨.ok, skip, false, calls ++ [c]⟩ ∧ c.forbidden := by
  have hcall : ∃ id arg, (id = optGlobalAllowUntrusted ∨ id = optGlobalKeysDir) ∧
      Chosen (optMatch none (longOption body (some nextArg))).1 ∧
      (optMatch none (longOption body (some nextArg))).2 =
        takeLong (longOption body (some nextArg)) .global id arg := by
    simp only [bypasses, beq_self_eq_true, Bool.true_and] at h
    cases hs : apkBlobSplit body (asc '=') with
    | some kv =>
      simp only [hs, Bool.and_eq_true, Bool.not_eq_true', isEmpty_eq_false_iff] at h
      unfold longOption
      simp only [hs]
      exact ⟨optGlobalKeysDir, _, Or.inr rfl, optMatch_keysDir rfl rfl h.1 h.2 (by simp)⟩
    | none =>
      simp only [hs, Bool.or_eq_true, Bool.and_eq_true, Bool.not_eq_true', decide_eq_true_eq,
        isEmpty_eq_false_iff] at h
      unfold longOption
      simp only [hs]
      rcases h with ⟨hlen, hpre⟩ | ⟨hne, hpre⟩
      · exact ⟨optGlobalAllowUntrusted, _, Or.inl rfl, optMatch_allowUntrusted rfl rfl hlen hpre rfl⟩
      · exact ⟨optGlobalKeysDir, _, Or.inr rfl, optMatch_keysDir rfl rfl hne hpre (by simp)⟩
  obtain ⟨id, arg, hid, hchosen⟩ := hcall
  obtain ⟨skip, hstep⟩ := optParseLong_call hid hchosen
  exact ⟨skip, _, hstep, rfl, hid⟩

theorem optRun_mono {c : OptCall} (h : c ∈ calls) : c ∈ (optRun apk execute r calls).2 := by
  unfold optRun
  split_ifs
  · exact h
  · exact h
  · split
    · exact h
    · exact mem_append_left _ h

theorem bypasses_call {a : Bytes} (h : bypasses a = true) :
    ∃ c ∈ (parseOptions apk (lit "/sbin/apk") [a, a]).calls, c.forbidden := by
  obtain ⟨body, rfl⟩ : ∃ body, a = asc '-' :: asc '-' :: body := by
    unfold bypasses at h
    split at h
    · next c0 c1 body =>
      simp only [Bool.and_eq_true, beq_iff_eq] at h
      exact ⟨body, by rw [h.1.1, h.1.2]⟩
    · cases h
  have hne : body ≠ [] := by
    rintro rfl
    exact absurd h (by decide +kernel)
  have happlet : findApplet apk [asc '-' :: asc '-' :: body, asc '-' :: asc '-' :: body] false
      false = none := by
    refine findApplet_options apk _ false fun a ha => ⟨body, hne, ?_⟩
    simpa using ha
  have hargv : ∀ nextArg calls, optParseArgv apk none true (asc '-' :: asc '-' :: body) nextArg
      false calls = optParseLong apk none true body nextArg calls := by
    unfold optParseArgv
    simp [hne]
  obtain ⟨skip, c, hstep, hc⟩ := bypasses_step apk (asc '-' :: asc '-' :: body) h []
  refine ⟨c, ?_, hc⟩
  unfold parseOptions
  simp only [appletFromArg0_apk, happlet]
  rw [parseArgs]
  simp only [head?_cons, hargv, hstep]
  cases skip with
  | true => exact mem_singleton_self c
  | false =>
    have hmem : c ∈ (optParseLong apk none true body none [c]).calls :=
      optRun_mono (mem_singleton_self c)
    rw [parseArgs]
    simp only [hargv]
    split
    · exact hmem
    · split_ifs <;> exact hmem
    · exact hmem
    · exact hmem

/-- a system that lets a member of the group through -/
def memberSystem : SudoSystem := ⟨true, 1000, none, true, fun _ => true, true, true⟩

theorem abuildSudo_member (h : ∀ a ∈ args, checkOption a = true) :
    abuildSudo memberSystem (lit "abuild-apk") args = .execv (lit "/sbin/apk") args := by
  have hcmd : apkBlobSplit (apkLastPathSegment (lit "abuild-apk")) (asc '-') =
      some (lit "abuild", lit "apk") := by decide +kernel
  have hpath : getCommandPath memberSystem (lit "apk") = some (lit "/sbin/apk") := by
    decide +kernel
  have hargs : args.find? (fun a => !checkOption a) = none := by
    rw [find?_eq_none]
    intro a ha
    simp [h a ha]
  unfold abuildSudo sudoExec
  simp only [hcmd, hpath, hargs]
  rfl

theorem sudoExec_checked {path' : Bytes} (h : sudoExec sys path args = .execv path' out) :
    out = args ∧ ∀ a ∈ args, checkOption a = true := by
  unfold sudoExec at h
  split at h
  · cases h
  next hargs =>
  split_ifs at h
  obtain ⟨-, rfl⟩ := SudoResult.execv.inj h
  refine ⟨rfl, fun a ha => ?_⟩
  have := find?_eq_none.1 hargs a ha
  simpa using this

theorem abuildSudo_checked (h : abuildSudo sys arg0 args = .execv path out) :
    out = args ∧ ∀ a ∈ args, checkOption a = true := by
  unfold abuildSudo at h
  split_ifs at h
  split at h
  · cases h
  · split at h
    · cases h
    · exact sudoExec_checked h

/-- whoever may only give certain arguments is kept from the two options exactly when none of
these that `abuild-sudo` accepts bypasses its check -/
theorem sudo_options_confined_iff (apk : ApkProgram) (allowed : Set Bytes) :
    (∀ sys arg0 args out, sys.uid ≠ 0 → (∀ a ∈ args, a ∈ allowed) →
        abuildSudo sys arg0 args = .execv (lit "/sbin/apk") out →
          ∀ c ∈ (parseOptions apk (lit "/sbin/apk") out).calls, ¬ c.forbidden) ↔
      ∀ a ∈ allowed, checkOption a = true → bypasses a = false := by
  constructor
  · intro h a ha hcheck
    by_contra hb
    obtain ⟨c, hc, hforb⟩ := bypasses_call (eq_true_of_ne_false hb)
    refine h memberSystem (lit "abuild-apk") [a, a] [a, a] (by decide) (by simp [ha])
      (abuildSudo_member (by simp [hcheck])) c hc hforb
  · intro h sys arg0 args out _ hargs hexec
    obtain ⟨rfl, hcheck⟩ := abuildSudo_checked hexec
    exact parseOptions_clean fun a ha => h a (hargs a ha) (hcheck a ha)

def addApplet : Applet where
  name := lit "add"
  optionsDesc :=
    [lit "initdb",
     apkOptSh 'l' (lit "latest"),
     lit "no-chown",
     apkOptSh 'u' (lit "upgrade"),
     lit "usermode",
     apkOptArg (apkOptSh 't' (lit "virtual"))]
  optgroupCommit := true
  optgroupGeneration := false
  optgroupQuery := false
  removeEmptyArguments := true

/-- `abuild-apk add --allow-untr --keys-dir=k p` is accepted and runs both handlers -/
theorem sudo_options_bypassed : abuildSudo memberSystem (lit "abuild-apk")
        [lit "add", lit "--allow-untr", lit "--keys-dir=k", lit "p"] =
      .execv (lit "/sbin/apk") [lit "add", lit "--allow-untr", lit "--keys-dir=k", lit "p"] ∧
    (parseOptions ⟨[addApplet], fun _ _ _ _ => 0⟩ (lit "/sbin/apk")
        [lit "add", lit "--allow-untr", lit "--keys-dir=k", lit "p"]).calls =
      [⟨.global, optGlobalAllowUntrusted, .null⟩,
       ⟨.global, optGlobalKeysDir, .string (.within (lit "k"))⟩] := by
  decide +kernel

end Alpine

import Alpine.Spec.RepoParser
import Alpine.Sanity.Blob

/-! The variables of a repositories file as a map from names to values. The length of a name is stored in
one byte, so that a longer name is not found again. -/

namespace Alpine

open List

/-- the value of the last `set` of a name, or else of its first `set -default` -/
def lastValue (defs : List Definition) (name : Bytes) : Option Bytes :=
  ((defs.reverse.find? fun d => d.name = name ∧ d.overwrite).or (defs.find? (·.name = name))).map
    Definition.value

theorem lastValue_concat (defs : List Definition) (d : Definition) (name : Bytes) :
    lastValue (defs ++ [d]) name = if d.name = name then
      (if d.overwrite then some d.value else (lastValue defs name).or (some d.value))
      else lastValue defs name := by
  unfold lastValue
  simp only [reverse_append, find?_append, reverse_singleton, find?_cons, find?_nil]
  generalize defs.find? (·.name = name) = first
  generalize defs.reverse.find? (fun d => d.name = name ∧ d.overwrite) = last
  by_cases hname : d.name = name
  · cases d.overwrite <;> cases last <;> cases first <;> simp [hname]
  · simp [hname]

variable {hash : Bytes → ℕ} {vars : Variables} {key value name arch : Bytes} {flags : ℕ}

theorem variableGet_eq : variableGet hash vars name = (vars (hash name % 10)).find? (name = ·.key) := by
  simp only [variableGet, apkBlobCompare_eq_zero_iff]

theorem find?_overwriteFirst (l : List ApkVariable) :
    (overwriteFirst key value flags l).find? (name = ·.key) =
      (l.find? (name = ·.key)).map fun var => if name = key then ⟨key, value, flags⟩ else var := by
  induction l with
  | nil => rfl
  | cons var l ih =>
    simp only [overwriteFirst, apkBlobCompare_eq_zero_iff]
    by_cases hkey : key = var.key
    · by_cases hname : name = key <;> simp [hname, ← hkey]
    · by_cases hname : name = var.key
      · simp [hkey, hname, Ne.symm hkey]
      · simp [hkey, hname, ih]

theorem variableGet_update (l : List ApkVariable) :
    variableGet hash (Function.update vars (hash key % 10) l) name =
      if hash name % 10 = hash key % 10 then l.find? (name = ·.key) else variableGet hash vars name := by
  rw [variableGet_eq, variableGet_eq, Function.update_apply]
  split_ifs <;> rfl

/-- what is found after a variable was set -/
theorem variableGet_set (hkey : key.length < 2 ^ 8) :
    variableGet hash (apkVariableSet hash vars key value flags) name = if name = key then
      some ((variableGet hash vars key).elim ⟨key, value, flags⟩ fun var =>
        if flags &&& apkVarfOverwrite = 0 ∨ var.flags &&& apkVarfReadonly ≠ 0 then var else ⟨key, value, flags⟩)
      else variableGet hash vars name := by
  have hsame : hash name % 10 = hash key % 10 →
      (vars (hash key % 10)).find? (name = ·.key) = variableGet hash vars name := by
    intro h
    rw [variableGet_eq, h]
  unfold apkVariableSet
  cases hget : variableGet hash vars key with
  | none =>
    rw [Nat.mod_eq_of_lt hkey, take_length]
    simp only [variableGet_update, find?_cons]
    by_cases hname : name = key
    · simp [hname]
    · split_ifs with hb
      · simpa [hname] using hsame hb
      · rfl
  | some var =>
    simp only [← ite_or, Option.elim_some]
    split_ifs with hkeep hname hname
    · rw [hname, hget]
    · rfl
    · rw [variableGet_update, hname, if_pos rfl, find?_overwriteFirst, ← variableGet_eq, hget]
      simp
    · rw [variableGet_update, find?_overwriteFirst]
      split_ifs with hb
      · simp [hsame hb]
      · rfl

/-- the key of a variable is never longer than its length in a byte says -/
theorem key_set (h : ∀ i, ∀ var ∈ vars i, var.key.length < 2 ^ 8) :
    ∀ i, ∀ var ∈ apkVariableSet hash vars key value flags i, var.key.length < 2 ^ 8 := by
  have hfirst : ∀ l : List ApkVariable, (∀ var ∈ l, var.key.length < 2 ^ 8) →
      ∀ var ∈ overwriteFirst key value flags l, var.key.length < 2 ^ 8 := by
    intro l
    induction l with
    | nil => simp [overwriteFirst]
    | cons var l ih =>
      intro hl
      rw [forall_mem_cons] at hl
      unfold overwriteFirst
      split_ifs
      · exact forall_mem_cons.2 hl
      · exact forall_mem_cons.2 ⟨hl.1, ih hl.2⟩
  have hbucket : ∀ l : List ApkVariable, (∀ var ∈ l, var.key.length < 2 ^ 8) →
      ∀ i, ∀ var ∈ Function.update vars (hash key % 10) l i, var.key.length < 2 ^ 8 := by
    intro l hl i
    rw [Function.update_apply]
    split_ifs
    · exact hl
    · exact h i
  unfold apkVariableSet
  cases variableGet hash vars key with
  | none =>
    refine hbucket _ (forall_mem_cons.2 ⟨?_, h _⟩)
    exact (length_take_le _ _).trans_lt (Nat.mod_lt _ (by decide))
  | some var =>
    simp only
    split_ifs
    · exact h
    · exact h
    · exact hbucket _ (hfirst _ (h _))

/-- the variables after some `set` lines -/
def setLines (hash : Bytes → ℕ) (vars : Variables) (lines : List Bytes) : Variables :=
  lines.foldl (fun vars line => (apkRepoparserParseSet hash vars line).2) vars

/-- what the accepted lines define -/
def definitions (hash : Bytes → ℕ) (vars : Variables) : List Bytes → List Definition
  | [] => []
  | line :: lines => (parseDefinition hash vars line).toOption.toList ++
    definitions hash (apkRepoparserParseSet hash vars line).2 lines

/-- the table is a map from the names to their values, of which only the architecture is read-only -/
def IsMap (hash : Bytes → ℕ) (vars : Variables) (arch : Bytes) (defs : List Definition) : Prop :=
  ∀ name, (variableGet hash vars name).map (fun var => (var.value, var.flags &&& apkVarfReadonly)) =
    if name = lit "APK_ARCH" then some (arch, apkVarfReadonly) else (lastValue defs name).map (·, 0)

theorem IsMap.set {defs : List Definition} {d : Definition} (h : IsMap hash vars arch defs)
    (harch : d.name ≠ lit "APK_ARCH") (hlen : d.name.length < 2 ^ 8) :
    IsMap hash (apkVariableSet hash vars d.name d.value (if d.overwrite then apkVarfOverwrite else 0))
      arch (defs ++ [d]) := by
  intro name
  rw [variableGet_set hlen, lastValue_concat]
  by_cases hname : name = d.name
  · have hd := h d.name
    rw [if_neg harch] at hd
    rw [hname, if_pos rfl, if_neg harch, if_pos rfl]
    cases hget : variableGet hash vars d.name with
    | none =>
      rw [hget, Option.map_none, eq_comm, Option.map_eq_none_iff] at hd
      cases d.overwrite <;> simp [hd, apkVarfOverwrite, apkVarfReadonly]
    | some var =>
      rw [hget, Option.map_some, eq_comm, Option.map_eq_some_iff] at hd
      obtain ⟨value, hlast, hvar⟩ := hd
      obtain ⟨rfl, hflags⟩ := Prod.mk.inj hvar
      rw [apkVarfReadonly] at hflags
      cases d.overwrite <;> simp [hlast, ← hflags, apkVarfOverwrite, apkVarfReadonly]
  · rw [if_neg hname, if_neg (Ne.symm hname)]
    exact h name

theorem parseDefinition_name {line : Bytes} {d : Definition}
    (h : parseDefinition hash vars line = .ok d) : d.name ≠ lit "APK_ARCH" := by
  unfold parseDefinition at h
  cases hopt : setOptions line.length line true with
  | error r => simp [hopt, bind, Except.bind] at h
  | ok opts =>
    simp only [hopt, bind, Except.bind] at h
    split at h
    · cases h
    split_ifs at h with hname
    split at h
    · cases h
    cases h
    rintro rfl
    exact hname (by decide +kernel)

theorem IsMap.setLines {defs : List Definition} (lines : List Bytes) (h : IsMap hash vars arch defs)
    (hlen : ∀ d ∈ definitions hash vars lines, d.name.length < 2 ^ 8) :
    IsMap hash (setLines hash vars lines) arch (defs ++ definitions hash vars lines) := by
  induction lines generalizing vars defs with
  | nil => rwa [definitions, append_nil]
  | cons line lines ih =>
    rw [definitions, forall_mem_append] at hlen
    rw [definitions, ← append_assoc]
    refine ih ?_ hlen.2
    cases hd : parseDefinition hash vars line with
    | error r => simpa [apkRepoparserParseSet, hd, Except.toOption] using h
    | ok d =>
      have hset := h.set (parseDefinition_name hd) (hlen.1 d (by simp [hd, Except.toOption]))
      simpa [apkRepoparserParseSet, hd, Except.toOption] using hset

theorem key_setLines (lines : List Bytes) (h : ∀ i, ∀ var ∈ vars i, var.key.length < 2 ^ 8) :
    ∀ i, ∀ var ∈ setLines hash vars lines i, var.key.length < 2 ^ 8 := by
  induction lines generalizing vars with
  | nil => exact h
  | cons line lines ih =>
    have hline : ∀ i, ∀ var ∈ (apkRepoparserParseSet hash vars line).2 i, var.key.length < 2 ^ 8 := by
      unfold apkRepoparserParseSet
      cases parseDefinition hash vars line with
      | error r => exact h
      | ok d => exact key_set h
    exact ih hline

theorem apkVariableSubst_toOption :
    (apkVariableSubst hash vars name).toOption = (variableGet hash vars name).map ApkVariable.value := by
  unfold apkVariableSubst
  cases variableGet hash vars name <;> rfl

/-- the variables are a map, with the architecture as a read-only one, exactly when the names are shorter
than 256 bytes -/
theorem repo_variables_iff (hash : Bytes → ℕ) (arch : Bytes) (lines : List Bytes) :
    let start := apkVariableSet hash (fun _ => []) (lit "APK_ARCH") arch apkVarfReadonly
    (∀ name, (apkVariableSubst hash (setLines hash start lines) name).toOption =
      if name = lit "APK_ARCH" then some arch else lastValue (definitions hash start lines) name) ↔
    ∀ d ∈ definitions hash start lines, d.name.length < 2 ^ 8 := by
  intro start
  have harch : (lit "APK_ARCH").length < 2 ^ 8 := by decide +kernel
  simp only [apkVariableSubst_toOption]
  refine ⟨fun h d hd => ?_, fun h name => ?_⟩
  · by_contra hlong
    have hget := h d.name
    rw [if_neg (by rintro heq; exact hlong (heq ▸ harch)), variableGet_eq, find?_eq_none.2 ?_] at hget
    · have hnone := Option.or_eq_none_iff.1 (Option.map_eq_none_iff.1 hget.symm)
      exact find?_eq_none.1 hnone.2 d hd (decide_eq_true rfl)
    · intro var hvar heq
      exact hlong (of_decide_eq_true heq ▸ key_setLines lines (key_set (by simp)) _ var hvar)
  · have hstart : IsMap hash start arch [] := by
      intro name
      rw [variableGet_set harch]
      simp only [variableGet_eq, find?_nil]
      split_ifs <;> simp [lastValue]
    have hmap := congrArg (Option.map Prod.fst) (hstart.setLines lines h name)
    rw [Option.map_map] at hmap
    refine hmap.trans ?_
    split_ifs
    · rfl
    · simp [Function.comp_def]

/-- a variable with a name of 256 bytes is not found -/
theorem repo_variable_lost :
    let start := apkVariableSet (fun _ => 0) (fun _ => []) (lit "APK_ARCH") (lit "x86") apkVarfReadonly
    let name := replicate 256 (asc 'a')
    let line := name ++ lit "=x"
    definitions (fun _ => 0) start [line] = [⟨name, lit "x", true⟩] ∧
      apkVariableSubst (fun _ => 0) (setLines (fun _ => 0) start [line]) name =
        .error (-apkeRepoVariable) := by
  decide +kernel

end Alpine

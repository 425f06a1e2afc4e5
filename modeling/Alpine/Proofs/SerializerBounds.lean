import Alpine.Sanity.AdbGen
import Alpine.Proofs.JsonSerializer
import Alpine.Spec.AdbDump

/-! The arrays of the serializers that have an element for each level of nesting. The checks compare the
level before it is increased with the size of the array, and the index is the level after that. -/

namespace Alpine

open List

/-- the containers that are open after an event, if there are at most `max`, and none is closed that was
not opened -/
def opened (max n : ℕ) : SerEvent → Option ℕ
  | .startObject _ | .startArray _ => if n < max then some (n + 1) else none
  | .end => if 0 < n then some (n - 1) else none
  | _ => some n

section

variable {σ τ : Type} {P : σ → Prop} {Q : τ → Prop}

/-- the result is as it should be, or an assertion fails -/
def Within (P : σ → Prop) : Except SerFault σ → Prop
  | .ok s => P s
  | .error f => f ≠ .outOfBounds

theorem Within.bind {x : Except SerFault σ} {f : σ → Except SerFault τ} (h : Within P x)
    (hf : ∀ s, P s → Within Q (f s)) : Within Q (x >>= f) := by
  cases x with
  | error e => exact h
  | ok s => exact hf s h

theorem Within.map {x : Except SerFault σ} {f : σ → τ} (h : Within P x) (hf : ∀ s, P s → Q (f s)) :
    Within Q (x.map f) := by
  cases x with
  | error e => exact h
  | ok s => exact hf s h

theorem opened_le {max n n' : ℕ} {e : SerEvent} (h : opened max n e = some n') (hn : n ≤ max) : n' ≤ max := by
  cases e <;> simp [opened] at h <;> omega

theorem within_run {ser : σ → SerEvent → Except SerFault σ} {nest : σ → ℕ} {max : ℕ}
    (hstep : ∀ s e n, nest s ≤ max → opened max (nest s) e = some n → Within (fun s' => nest s' = n) (ser s e)) :
    ∀ (events : List SerEvent) (s : σ), nest s ≤ max → (events.foldlM (opened max) (nest s)).isSome →
      Within (fun _ => True) (events.foldlM ser s)
  | [], _, _, _ => trivial
  | e :: events, s, hs, h => by
    rw [foldlM_cons] at h ⊢
    cases hn : opened max (nest s) e with
    | none => rw [hn] at h; cases h
    | some n =>
      rw [hn] at h
      refine (hstep s e n hs hn).bind fun s' hs' => within_run hstep events s' ?_ ?_
      · rw [hs']
        exact opened_le hn hs
      · rw [hs']
        exact h

end

section

variable {dt : SerializeJson}

theorem serJsonIndent_within (dt : SerializeJson) (h : dt.nest ≤ 16) (item : Bool) :
    Within (fun dt' => dt'.nest = dt.nest) (serJsonIndent dt item) := by
  obtain ⟨w, -, hrun⟩ := serJsonIndent_eq dt h item
  rw [hrun]
  rfl

theorem serJsonStart_within (h : dt.nest ≤ 16) (sb eb : UInt8) :
    Within (fun dt' => dt'.nest = dt.nest + 1) (serJsonStart dt sb eb) := by
  have hstart : ∀ dt' : SerializeJson, dt'.nest = dt.nest →
      Within (fun dt' => dt'.nest = dt.nest + 1) (serJsonStartIndent dt' sb eb) := by
    intro dt' hdt'
    rw [serJsonStartIndent_eq (hdt' ▸ h)]
    exact congrArg (· + 1) hdt'
  unfold serJsonStart
  split_ifs
  · exact (serJsonIndent_within dt h true).bind hstart
  · exact hstart dt rfl

theorem serJson_within (dt : SerializeJson) (e : SerEvent) (n : ℕ) (h : dt.nest ≤ 16)
    (hn : opened 16 dt.nest e = some n) : Within (fun dt' => dt'.nest = n) (serJson dt e) := by
  cases e with
  | startObject | startArray =>
    obtain ⟨-, rfl⟩ : dt.nest < 16 ∧ dt.nest + 1 = n := by simpa [opened] using hn
    exact serJsonStart_within h _ _
  | «end» =>
    obtain ⟨hpos, rfl⟩ : 0 < dt.nest ∧ dt.nest - 1 = n := by simpa [opened] using hn
    obtain ⟨k, hk⟩ := Nat.exists_eq_succ_of_ne_zero hpos.ne'
    rw [serJson, serJsonEnd, hk]
    refine (serJsonIndent_within { dt with needNewline := true, nest := k } (by simp only; omega)
      false).bind fun dt' hdt' => ?_
    simp only
    split_ifs <;> exact hdt'
  | comment => exact Option.some.inj hn
  | key | string | numeric =>
    cases hn
    exact (serJsonIndent_within { dt with needNewline := true } h true).bind fun _ hdt' => hdt'

end

section

variable {dt : SerializeYaml}

theorem serYamlIndent_within (item continueLine : Bool) :
    Within (fun dt' => dt'.nest = dt.nest) (serYamlIndent dt item continueLine) := by
  unfold serYamlIndent
  split_ifs
  · exact SerFault.noConfusion
  · simp only
    split_ifs <;> rfl
  · rfl
  · rfl

theorem serYamlRest_within (item : Bool) (text : Bytes) :
    Within (fun dt' => dt'.nest = dt.nest) (serYamlRest dt item text) :=
  (serYamlIndent_within item true).map fun _ h => h

theorem serYamlStartIndent_eq (h : dt.nest < 31) (flags : Bool) :
    serYamlStartIndent dt flags = .ok { dt with
      indent := if 0 < dt.nest then dt.indent + 1 else dt.indent
      nest := dt.nest + 1, flags := Function.update dt.flags (dt.nest + 1) flags } := by
  have h₁ : dt.nest < apkSerializeMaxNesting := h.trans (by decide)
  have h₂ : ¬ apkSerializeMaxNesting ≤ dt.nest + 1 := by
    rw [show apkSerializeMaxNesting = 32 from rfl]
    omega
  rw [serYamlStartIndent, if_neg (not_not.2 h₁), if_neg h₂]

theorem serYamlStartIndent_within (h : dt.nest < 31) (flags : Bool) :
    Within (fun dt' => dt'.nest = dt.nest + 1) (serYamlStartIndent dt flags) := by
  rw [serYamlStartIndent_eq h]
  rfl

theorem serYamlLines_within (dt : SerializeYaml) (lines : List Bytes) :
    Within (fun dt' => dt'.nest = dt.nest) (serYamlLines dt lines) := by
  induction lines generalizing dt with
  | nil => rfl
  | cons line lines ih => exact (serYamlRest_within false line).bind fun dt' hdt' => hdt' ▸ ih dt'

theorem serYaml_within (dt : SerializeYaml) (e : SerEvent) (n : ℕ) (_ : dt.nest ≤ 31)
    (hn : opened 31 dt.nest e = some n) : Within (fun dt' => dt'.nest = n) (serYaml dt e) := by
  cases e with
  | startObject id =>
    obtain ⟨hlt, rfl⟩ : dt.nest < 31 ∧ dt.nest + 1 = n := by simpa [opened] using hn
    refine (serYamlIndent_within true false).bind fun dt₁ h₁ =>
      (serYamlStartIndent_within (h₁ ▸ hlt) false).bind fun dt₂ h₂ => ?_
    rw [← h₁, ← h₂]
    split_ifs <;> rfl
  | startArray num =>
    obtain ⟨hlt, rfl⟩ : dt.nest < 31 ∧ dt.nest + 1 = n := by simpa [opened] using hn
    refine Within.bind (P := fun dt' : SerializeYaml => dt'.nest = dt.nest) ?_ fun dt' hdt' => ?_
    · split_ifs
      · exact serYamlRest_within true _
      · rfl
    · rw [← hdt']
      exact serYamlStartIndent_within (hdt' ▸ hlt) true
  | «end» =>
    obtain ⟨hpos, rfl⟩ : 0 < dt.nest ∧ dt.nest - 1 = n := by simpa [opened] using hn
    refine Within.bind (P := fun dt' : SerializeYaml => dt'.nest = dt.nest) ?_ fun dt' hdt' => ?_
    · split_ifs
      · exact serYamlRest_within false _
      · rfl
    · rw [← hdt'] at hpos ⊢
      obtain ⟨k, hk⟩ := Nat.exists_eq_succ_of_ne_zero hpos.ne'
      rw [hk]
      rfl
  | comment text =>
    cases hn
    exact serYamlRest_within false _
  | key =>
    cases hn
    refine (serYamlIndent_within true true).map fun dt' hdt' => hdt'.trans ?_
    split_ifs <;> rfl
  | string val multiline =>
    cases hn
    simp only [serYaml, serYamlString]
    split
    · exact serYamlRest_within true _
    · exact serYamlRest_within true _
    · exact (serYamlRest_within true _).bind fun dt₁ h₁ =>
        (serYamlLines_within { dt₁ with indent := dt₁.indent + 1 } _).bind fun dt₂ h₂ => h₂.trans h₁
  | numeric =>
    cases hn
    exact serYamlRest_within true _

end

/-- with few containers open no access is outside of the arrays: in `adbgen`, which its schemas stop before
that, the next element of `objs` is one of its elements -/
theorem serializers_within (events : List SerEvent) :
    ((events.foldlM (opened 16) 0).isSome → serJsonRun serJsonInit events ≠ .error .outOfBounds) ∧
      ((events.foldlM (opened 31) 0).isSome → serYamlRun serYamlInit events ≠ .error .outOfBounds) ∧
      ∀ q dt, runCalls (serAdb q) serAdbInit events = some (0, dt) → dt.frames.length < apkSerializeMaxNesting := by
  refine ⟨fun h herr => ?_, fun h herr => ?_, fun q dt hrun => ?_⟩
  · have hrun := within_run serJson_within events serJsonInit (Nat.zero_le _) h
    rw [← serJsonRun, herr] at hrun
    exact hrun rfl
  · have hrun := within_run serYaml_within events serYamlInit (Nat.zero_le _) h
    rw [← serYamlRun, herr] at hrun
    exact hrun rfl
  · exact (runCalls_nested serAdbInit_nested hrun).length_le.trans_lt (by decide)

/-- an item in 17 arrays of the JSON serializer and 32 arrays of the YAML serializer -/
theorem serializers_overflow :
    apkSerializerJson (replicate 17 (.startArray 0) ++ [.numeric 0 0]) = .error .outOfBounds ∧
      (serYamlRun serYamlInit (replicate 32 (.startArray (-1)))).map SerializeYaml.out = .error .outOfBounds := by
  decide +kernel

/-- the sort leaves the items of an array as they are -/
def unsorted : AdbSort := ⟨fun _ vals => vals, fun _ _ => .rfl, fun _ _ => false, nofun⟩

/-- a package with a file in a directory, up to the end of the files -/
def packageEvents : List SerEvent :=
  [.startObject adbSchemaPackage, .key (lit "info"), .startObject 0, .key (lit "name"), .string (lit "a") false, .end,
    .key (lit "paths"), .startArray 1, .startObject 0, .key (lit "files"), .startArray 1, .startObject 0,
    .key (lit "name"), .string (lit "b") false, .end, .end]

theorem serializers_within_package :
    serJsonRun serJsonInit packageEvents ≠ .error .outOfBounds ∧
      serYamlRun serYamlInit packageEvents ≠ .error .outOfBounds ∧
      ∃ dt, runCalls (serAdb unsorted) serAdbInit packageEvents = some (0, dt) ∧ dt.frames.length = 3 ∧
        dt.frames.length < apkSerializeMaxNesting := by
  have hin := serializers_within packageEvents
  have hopen : (runCalls (serAdb unsorted) serAdbInit packageEvents).map (fun p => (p.1, p.2.frames.length)) =
      some (0, 3) := by decide +kernel
  obtain ⟨⟨r, dt⟩, hrun, hp⟩ := Option.map_eq_some_iff.1 hopen
  obtain ⟨rfl, hlen⟩ := Prod.mk.inj hp
  exact ⟨hin.1 (by decide), hin.2.1 (by decide), dt, hrun, hlen, hin.2.2 unsorted dt hrun⟩

end Alpine

import Alpine.Spec.AdbGen

/-! The objects that are open in the serializer of `adbgen`: each is a field or an item of the one around it,
and no schema has itself inside, so that few are open at a time. -/

namespace Alpine

variable {σ : Type} {es : List SerEvent}

theorem runCalls_cons {ser : σ → SerEvent → Option (ℤ × σ)} {s s' : σ} {e : SerEvent} :
    runCalls ser s (e :: es) = some (0, s') ↔
      ∃ s₁, ser s e = some (0, s₁) ∧ runCalls ser s₁ es = some (0, s') := by
  rw [runCalls]
  constructor
  · intro h
    obtain ⟨⟨r, s₁⟩, h₁, h⟩ := Option.bind_eq_some_iff.1 h
    by_cases hr : r = 0
    · subst r
      exact ⟨s₁, h₁, by simpa using h⟩
    · rw [if_pos hr] at h
      exact absurd (Prod.mk.inj (Option.some.inj h)).1 hr
  · rintro ⟨s₁, h₁, h⟩
    rw [h₁]
    simpa using h

section

open List

variable {q : AdbSort} {dt dt' : SerializeAdb} {e : SerEvent} {o o' : ObjSchema}

/-- how many objects and arrays can be open inside of an object -/
def ObjSchema.rank : ObjSchema → ℕ
  | .dependency | .tagsArray | .stringArray | .xattrArray | .scripts => 0
  | .dependencyArray | .acl => 1
  | .pkginfo | .file => 2
  | .pkginfoArray | .fileArray => 3
  | .index | .dir => 4
  | .dirArray => 5
  | .package => 6
  | .packageAdbArray => 7
  | .idb => 8

theorem ObjSchema.rank_le (o : ObjSchema) : o.rank ≤ 8 := by cases o <;> decide

/-- the object that is opened for a kind -/
def AdbSchema.obj? : AdbSchema → Option ObjSchema
  | .scalar _ => none
  | .obj o => some o
  | .packageAdb => some .package

theorem item_rank {kind : AdbSchema} (h : o.item = some kind) (ho : kind.obj? = some o') : o'.rank < o.rank := by
  cases o <;> cases h <;> cases ho <;> decide

theorem fields_rank {f : Bytes × AdbSchema} (h : f ∈ o.fields) (ho : f.2.obj? = some o') : o'.rank < o.rank := by
  have hall : ∀ f ∈ o.fields, ∀ o' ∈ f.2.obj?, o'.rank < o.rank := by cases o <;> decide
  exact hall f h o' ho

theorem roKind_rank {kind : AdbSchema} {i : ℕ} (h : o.roKind i = some kind) (ho : kind.obj? = some o') :
    o'.rank < o.rank := by
  unfold ObjSchema.roKind at h
  split at h
  next kind' hitem =>
    cases h
    exact item_rank hitem ho
  next =>
    split at h
    · cases h
    obtain ⟨f, hf, rfl⟩ := Option.map_eq_some_iff.1 h
    exact fields_rank (mem_of_mem_drop (mem_of_mem_head? hf)) ho

/-- each open object is inside of the next, and there is a schema when one is open -/
structure Nested (dt : SerializeAdb) : Prop where
  chain : dt.frames.IsChain fun f g => f.schema.rank < g.schema.rank
  schema : dt.schema = 0 → dt.frames = []

/-- the objects of a chain have different ranks -/
theorem rank_add_length {f : AdbFrame} {fs : List AdbFrame}
    (h : (f :: fs).IsChain fun f g => f.schema.rank < g.schema.rank) : f.schema.rank + fs.length ≤ 8 := by
  induction fs generalizing f with
  | nil => exact f.schema.rank_le
  | cons g fs ih =>
    obtain ⟨hlt, h⟩ := isChain_cons_cons.1 h
    have := ih h
    rw [length_cons]
    omega

theorem Nested.length_le (h : Nested dt) : dt.frames.length ≤ 9 := by
  cases hf : dt.frames with
  | nil => exact Nat.zero_le _
  | cons f fs =>
    have := rank_add_length (hf ▸ h.chain)
    rw [length_cons]
    omega

/-- the innermost object is another one with the same schema -/
theorem Nested.replace {f f' : AdbFrame} {fs : List AdbFrame} (h : Nested dt) (hf : dt.frames = f :: fs)
    (hf' : f'.schema = f.schema) (hfs : dt'.frames = f' :: fs) (hs : dt'.schema = dt.schema) : Nested dt' := by
  have hchain := hf ▸ h.chain
  refine ⟨hfs ▸ ?_, fun h0 => ?_⟩
  · rw [isChain_cons] at hchain ⊢
    rw [hf']
    exact hchain
  · exact absurd (h.schema (hs ▸ h0)) (hf ▸ cons_ne_nil _ _)

theorem serAdbPush_eq (h : serAdbPush dt o = (0, dt')) :
    dt'.frames = ⟨o, o.noVals, 0⟩ :: dt.frames ∧ dt'.schema = dt.schema := by
  obtain rfl : dt' = (serAdbPush dt o).2 := by rw [h]
  exact ⟨rfl, rfl⟩

theorem Nested.push {f : AdbFrame} {fs : List AdbFrame} {i : ℕ} {kind : AdbSchema} (h : Nested dt)
    (hf : dt.frames = f :: fs) (hkind : f.schema.roKind i = some kind) (ho : kind.obj? = some o)
    (hfs : dt'.frames = ⟨o, o.noVals, 0⟩ :: dt.frames) (hs : dt'.schema = dt.schema) : Nested dt' := by
  refine ⟨?_, fun h0 => ?_⟩
  · rw [hfs, hf]
    exact isChain_cons_cons.2 ⟨roKind_rank hkind ho, hf ▸ h.chain⟩
  · exact absurd (h.schema (hs ▸ h0)) (hf ▸ cons_ne_nil _ _)

theorem serAdbStartObject_nested {i : ℕ} (hn : Nested dt) (h : serAdbStartObject dt i = some (0, dt')) :
    Nested dt' := by
  have herr : ∀ {e : ℤ} {dt₁ : SerializeAdb}, e ≠ 0 → some (e, dt₁) = some (0, dt') → False := by
    intro e dt₁ he h
    exact he (Prod.mk.inj (Option.some.inj h)).1
  unfold serAdbStartObject at h
  by_cases hs : dt.schema = 0
  · rw [if_pos hs] at h
    split at h
    · exact (herr (by decide) h).elim
    next o ho =>
      obtain ⟨hfs, hid⟩ := serAdbPush_eq (Option.some.inj h)
      refine ⟨?_, fun h0 => ?_⟩
      · rw [hfs]
        simp only [hn.schema hs]
        exact isChain_singleton _
      · -- no database has the schema 0
        rw [hid] at h0
        simp only at h0
        subst h0
        exact absurd (show none = some o from ho) nofun
  rw [if_neg hs] at h
  split at h
  · cases h
  next f fs hf =>
    split at h
    · exact (herr (by decide) h).elim
    split at h
    · exact (herr (by decide) h).elim
    split at h
    · cases h
    split at h
    · cases h
    · cases h
    next o hkind =>
      obtain ⟨hfs, hs'⟩ := serAdbPush_eq (Option.some.inj h)
      exact hn.push hf hkind rfl hfs hs'
    next hkind =>
      split at h
      · exact (herr (by decide) h).elim
      · obtain ⟨hfs, hs'⟩ := serAdbPush_eq (Option.some.inj h)
        exact hn.push hf hkind rfl hfs hs'

theorem serAdbAttach_schema (g : AdbFrame) (val : AdbValue) : (serAdbAttach g val).schema = g.schema := by
  unfold serAdbAttach
  split_ifs <;> rfl

theorem serAdbEnd_nested (hn : Nested dt) (h : serAdbEnd q dt = some (0, dt')) : Nested dt' := by
  unfold serAdbEnd at h
  split at h
  · cases h
  next f hf =>
    cases h
    exact ⟨isChain_nil, fun _ => rfl⟩
  next f g gs hf =>
    -- the object around it becomes the innermost one
    have hrest : Nested { dt with frames := g :: gs } :=
      ⟨(isChain_cons_cons.1 (hf ▸ hn.chain)).2, fun h0 => absurd (hn.schema h0) (hf ▸ cons_ne_nil _ _)⟩
    simp only at h
    split at h
    · cases h
    all_goals
      cases h
      exact hrest.replace rfl (serAdbAttach_schema g _) rfl rfl

theorem serAdbStore_schema {f f' : AdbFrame} {s : Bytes} (h : serAdbStore q f s = some f') :
    f'.schema = f.schema := by
  unfold serAdbStore at h
  split at h
  · simp only at h
    split_ifs at h
    cases h
    rfl
  split_ifs at h
  · split at h
    · cases h
    all_goals
      cases h
      rfl
  · obtain ⟨kind, -, rfl⟩ := Option.map_eq_some_iff.1 h
    rfl

theorem serAdb_nested (hn : Nested dt) (h : serAdb q dt e = some (0, dt')) : Nested dt' := by
  cases e with
  | startObject id => exact serAdbStartObject_nested hn h
  | startArray n => exact serAdbStartObject_nested (i := 0) hn h
  | «end» => exact serAdbEnd_nested hn h
  | comment c =>
    cases h
    exact hn
  | numeric val hint => cases h
  | key key =>
    simp only [serAdb, serAdbKey] at h
    split at h
    · cases h
    next f fs hf =>
      split_ifs at h
      · cases h
      · cases h
      · cases h
        refine hn.replace hf ?_ rfl rfl
        rfl
  | string s ml =>
    simp only [serAdb, serAdbString] at h
    split at h
    · cases h
    next f fs hf =>
      obtain ⟨f', hf', h⟩ := Option.map_eq_some_iff.1 h
      cases h
      exact hn.replace hf (serAdbStore_schema hf') rfl rfl

theorem runCalls_nested (hn : Nested dt) (h : runCalls (serAdb q) dt es = some (0, dt')) : Nested dt' := by
  induction es generalizing dt with
  | nil =>
    cases h
    exact hn
  | cons e es ih =>
    obtain ⟨dt₁, h₁, h⟩ := runCalls_cons.1 h
    exact ih (serAdb_nested hn h₁) h

theorem serAdbInit_nested : Nested serAdbInit := ⟨isChain_nil, fun _ => rfl⟩

end

end Alpine

import Alpine.Proofs.AdbRoundTrip
import Alpine.Spec.AdbRead

/-! The deep copy of a value into another database, `adb_w_copy`. Of a source that nobody has checked,
the copy follows every value: an object that is not there is read through NULL, and an object that
contains itself is copied for ever, unless the copy stops before at a failed assertion. -/

namespace Alpine

open List Filter

variable {fresh : ℕ → UInt8} {hash : List Bytes → ℕ} {src : Bytes} {db : AdbWriter} {u v n : ℕ}

def IsContainer (v : ℕ) : Prop := adbValType v = adbTypeObject ∨ adbValType v = adbTypeArray

/-- a value that is copied without following it: a number, or a blob whose length is in the source -/
def CopiedLeaf (src : Bytes) (v : ℕ) : Prop :=
  adbValType v ∈ [adbTypeSpecial, adbTypeInt, adbTypeInt32, adbTypeInt64] ∨
    blobWidth (adbValType v) ≠ 0 ∧ adbRPtr src v 0 (blobWidth (adbValType v)) ≠ none

/-- a value that is copied to the end: the objects below it are there, and none is below itself -/
inductive Copied (src : Bytes) : ℕ → Prop
  | leaf {v : ℕ} (hv : ¬ IsContainer v) (h : CopiedLeaf src v) : Copied src v
  | node {v : ℕ} (hv : IsContainer v) (hobj : (adbRObj src v).obj ≠ [])
      (hvals : ∀ u ∈ adbRaVals (adbRObj src v), Copied src u) : Copied src v

/-- a value whose copy stops at a failed assertion: what comes before is copied to the end -/
inductive Halted (src : Bytes) : ℕ → Prop
  | leaf {v : ℕ} (hv : ¬ IsContainer v) (h : ¬ CopiedLeaf src v) : Halted src v
  | node {v u : ℕ} {before after : List ℕ} (hv : IsContainer v) (hobj : (adbRObj src v).obj ≠ [])
      (hvals : adbRaVals (adbRObj src v) = before ++ u :: after)
      (hbefore : ∀ w ∈ before, Copied src w) (hu : Halted src u) : Halted src v

/-- there is an end to it, with no read outside of the source -/
def CopySafe {α : Type} (r : Except CopyFault α) : Prop :=
  r ≠ .error .null ∧ r ≠ .error .outside ∧ r ≠ .error .fuel

/-- the faults of a copy are some of these -/
def Faults {α : Type} (P : CopyFault → Prop) (r : Except CopyFault α) : Prop := ∀ e, r = .error e → P e

/-- the copy ends with one of these faults -/
def FaultsWith {α : Type} (P : CopyFault → Prop) (r : Except CopyFault α) : Prop := ∃ e, r = .error e ∧ P e

theorem Faults.mono {α : Type} {P Q : CopyFault → Prop} {r : Except CopyFault α} (h : Faults P r)
    (hPQ : ∀ e, P e → Q e) : Faults Q r := fun e he => hPQ e (h e he)

theorem FaultsWith.faults {α : Type} {P : CopyFault → Prop} {r : Except CopyFault α}
    (h : FaultsWith P r) : Faults P r := by
  obtain ⟨e, rfl, he⟩ := h
  rintro _ ⟨⟩
  exact he

theorem Faults.safe {α : Type} {r : Except CopyFault α}
    (h : Faults (fun e => e = .write ∨ e = .error) r) : CopySafe r :=
  ⟨fun he => by simpa using h _ he, fun he => by simpa using h _ he, fun he => by simpa using h _ he⟩

variable {P : CopyFault → Prop}

theorem Faults.bind {α β : Type} {x : Except CopyFault α} {f : α → Except CopyFault β}
    (hx : Faults P x) (hf : ∀ a, Faults P (f a)) : Faults P (x >>= f) := by
  cases x with
  | ok a => exact hf a
  | error e =>
    rintro _ ⟨⟩
    exact hx e rfl

theorem FaultsWith.bind {α β : Type} {x : Except CopyFault α} (f : α → Except CopyFault β)
    (h : FaultsWith P x) : FaultsWith P (x >>= f) := by
  obtain ⟨e, rfl, he⟩ := h
  exact ⟨e, rfl, he⟩

/-- the next step has a fault, if this one has none -/
theorem Faults.bindWith {α β : Type} {x : Except CopyFault α} {f : α → Except CopyFault β}
    (hx : Faults P x) (hf : ∀ a, FaultsWith P (f a)) : FaultsWith P (x >>= f) := by
  cases x with
  | ok a => exact hf a
  | error e => exact ⟨e, rfl, hx e rfl⟩

theorem copyData_faults (hP : P .write) (type : ℕ) (data : Option Bytes) (align : ℕ) :
    Faults P (copyData fresh hash db type data align) := by
  unfold copyData
  cases data with
  | none => exact nofun
  | some data =>
    cases h : adbWVal fresh hash db type [data] align with
    | none =>
      simp only [h, Option.elim_none]
      rintro _ ⟨⟩
      exact hP
    | some r =>
      simp only [h, Option.elim_some]
      exact nofun

theorem readBytes_of_ptr {offs s p : ℕ} (h : adbRPtr src v offs s = some p) :
    readBytes src (some p) s = .ok ((src.drop p).take s) := by
  unfold adbRPtr at h
  split_ifs at h with hin
  cases h
  exact if_neg hin

theorem copyRaw_faults (hP : P .write) {sz align : ℕ} :
    Faults P (copyRaw fresh hash src db v sz align) := by
  unfold copyRaw
  cases hp : adbRPtr src v 0 sz with
  | none => exact copyData_faults hP _ _ _
  | some p =>
    simp only [readBytes_of_ptr hp]
    exact copyData_faults hP _ (some _) _

theorem adbWCopy_leaf (hP : P .write) (hv : ¬ IsContainer v) (h : CopiedLeaf src v) :
    Faults P (adbWCopy fresh hash src (n + 1) db v) := by
  rw [adbWCopy]
  split_ifs with hint h32 h64 hblob hobj
  · exact nofun
  · exact copyRaw_faults hP
  · exact copyRaw_faults hP
  · obtain ⟨p, hp⟩ := Option.ne_none_iff_exists'.1 (h.resolve_left fun hmem => by
      revert hmem
      simp only [mem_cons, not_mem_nil]
      tauto).2
    rw [copyBlob, hp]
    simp only [readBytes_of_ptr hp]
    exact copyRaw_faults hP
  · exact absurd hobj hv
  · simp only [CopiedLeaf, mem_cons, not_mem_nil] at h
    tauto

theorem adbWCopy_halt (hv : ¬ IsContainer v) (h : ¬ CopiedLeaf src v) :
    adbWCopy fresh hash src (n + 1) db v = .error .error := by
  unfold CopiedLeaf at h
  simp only [mem_cons, not_mem_nil] at h
  rw [adbWCopy]
  split_ifs with hint h32 h64 hblob hobj
  · exact absurd (Or.inl (by tauto)) h
  · exact absurd (Or.inl (by tauto)) h
  · exact absurd (Or.inl (by tauto)) h
  · rw [copyBlob, not_not.1 fun hp => h (Or.inr ⟨hblob, hp⟩)]
  · exact absurd hobj hv
  · rfl

theorem adbWCopy_node (hv : IsContainer v) : ∃ finish, adbWCopy fresh hash src (n + 1) db v =
      (if (adbRObj src v).obj = [] then .error .null
        else copyVals (adbWCopy fresh hash src n) db (adbRaVals (adbRObj src v)) >>= finish) ∧
    ∀ {P : CopyFault → Prop}, P .write → ∀ vals, Faults P (finish vals) := by
  refine ⟨fun vals => copyData fresh hash vals.2 (adbValType v)
    (some (((adbRObj src v).obj.headD 0 :: vals.1).flatMap htole32)) 4, ?_,
    fun hP vals => copyData_faults hP _ (some _) _⟩
  have hblob : blobWidth (adbValType v) = 0 := by
    rcases hv with hv | hv <;> rw [hv] <;> decide
  have hno : ¬ (adbValType v = adbTypeSpecial ∨ adbValType v = adbTypeInt) ∧
      adbValType v ≠ adbTypeInt32 ∧ adbValType v ≠ adbTypeInt64 := by
    rcases hv with hv | hv <;> rw [hv] <;> decide
  rw [adbWCopy, if_neg hno.1, if_neg hno.2.1, if_neg hno.2.2, if_neg (not_not.2 hblob),
    if_pos (show _ ∨ _ from hv)]
  cases (adbRObj src v).obj <;> rfl

section

variable {copy : AdbWriter → ℕ → Except CopyFault (ℕ × AdbWriter)} {vals before after : List ℕ}

theorem copyVals_faults (h : ∀ v ∈ vals, ∀ db, Faults P (copy db v)) (db : AdbWriter) :
    Faults P (copyVals copy db vals) := by
  induction vals generalizing db with
  | nil => exact nofun
  | cons v vals ih =>
    refine (h v mem_cons_self db).bind fun r => ?_
    exact (ih (fun u hu => h u (mem_cons_of_mem _ hu)) r.2).bind fun rs => nofun

theorem copyVals_faultsWith (hbefore : ∀ w ∈ before, ∀ db, Faults P (copy db w))
    (hu : ∀ db, FaultsWith P (copy db u)) (db : AdbWriter) :
    FaultsWith P (copyVals copy db (before ++ u :: after)) := by
  induction before generalizing db with
  | nil => exact (hu db).bind _
  | cons w before ih =>
    refine (hbefore w mem_cons_self db).bindWith fun r => ?_
    exact (ih (fun x hx => hbefore x (mem_cons_of_mem _ hx)) r.2).bind _

end

/-- a value that is copied to the end: only a write can fail, or the depth is too small -/
theorem Copied.faults (h : Copied src v) (hP : P .write) (hfuel : P .fuel) (n : ℕ) (db : AdbWriter) :
    Faults P (adbWCopy fresh hash src n db v) := by
  induction n generalizing v db with
  | zero =>
    rintro _ ⟨⟩
    exact hfuel
  | succ n ih =>
    cases h with
    | leaf hv h => exact adbWCopy_leaf hP hv h
    | node hv hobj hvals =>
      obtain ⟨finish, hnode, hfinish⟩ := adbWCopy_node (n := n) hv
      rw [hnode, if_neg hobj]
      exact (copyVals_faults (fun u hu => ih (hvals u hu)) db).bind (hfinish hP)

theorem Copied.eventually (h : Copied src v) : ∀ᶠ n in atTop, ∀ db,
    Faults (· = .write) (adbWCopy fresh hash src n db v) := by
  induction h with
  | leaf hv h =>
    refine eventually_atTop.2 ⟨1, fun n hn db => ?_⟩
    obtain ⟨n, rfl⟩ := Nat.exists_eq_add_of_le' hn
    exact adbWCopy_leaf rfl hv h
  | node hv hobj hvals ih =>
    obtain ⟨N, hN⟩ := eventually_atTop.1 ((eventually_all_finite (finite_toSet _)).2 ih)
    refine eventually_atTop.2 ⟨N + 1, fun n hn db => ?_⟩
    obtain ⟨n, rfl⟩ := Nat.exists_eq_add_of_le' (Nat.le_of_add_left_le hn)
    obtain ⟨finish, hnode, hfinish⟩ := adbWCopy_node (n := n) hv
    rw [hnode, if_neg hobj]
    exact (copyVals_faults (hN n (by omega)) db).bind (hfinish rfl)

theorem Halted.eventually (h : Halted src v) : ∀ᶠ n in atTop, ∀ db,
    FaultsWith (fun e => e = .write ∨ e = .error) (adbWCopy fresh hash src n db v) := by
  induction h with
  | leaf hv h =>
    refine eventually_atTop.2 ⟨1, fun n hn db => ?_⟩
    obtain ⟨n, rfl⟩ := Nat.exists_eq_add_of_le' hn
    exact ⟨_, adbWCopy_halt hv h, Or.inr rfl⟩
  | node hv hobj hvals hbefore _ ih =>
    obtain ⟨N, hN⟩ := eventually_atTop.1 (((eventually_all_finite (finite_toSet _)).2
      fun w hw => (hbefore w hw).eventually).and ih)
    refine eventually_atTop.2 ⟨N + 1, fun n hn db => ?_⟩
    obtain ⟨n, rfl⟩ := Nat.exists_eq_add_of_le' (Nat.le_of_add_left_le hn)
    obtain ⟨hpre, hu⟩ := hN n (by omega)
    obtain ⟨finish, hnode, -⟩ := adbWCopy_node (n := n) hv
    rw [hnode, if_neg hobj, hvals]
    exact (copyVals_faultsWith (fun w hw db => (hpre w hw db).mono fun _ => Or.inl) hu db).bind _

/-- the first of the values that is not copied to the end -/
theorem exists_not_copied {vals : List ℕ} (h : ¬ ∀ u ∈ vals, Copied src u) :
    ∃ before u after, vals = before ++ u :: after ∧ (∀ w ∈ before, Copied src w) ∧ ¬ Copied src u := by
  induction vals with
  | nil => exact absurd nofun h
  | cons v vals ih =>
    by_cases hv : Copied src v
    · obtain ⟨before, u, after, rfl, hbefore, hu⟩ := ih fun hall => h (forall_mem_cons.2 ⟨hv, hall⟩)
      exact ⟨v :: before, u, after, rfl, forall_mem_cons.2 ⟨hv, hbefore⟩, hu⟩
    · exact ⟨[], v, vals, rfl, nofun, hv⟩

/-- a value that is neither copied to the end nor stops: the copy reads through NULL, or has no end -/
theorem adbWCopy_unsafe (hc : ¬ Copied src v) (hh : ¬ Halted src v) (n : ℕ) (db : AdbWriter) :
    FaultsWith (fun e => e = .write ∨ e = .null ∨ e = .fuel) (adbWCopy fresh hash src n db v) := by
  induction n generalizing v db with
  | zero => exact ⟨_, rfl, Or.inr (Or.inr rfl)⟩
  | succ n ih =>
    have hv : IsContainer v := by
      by_contra hv
      by_cases h : CopiedLeaf src v
      · exact hc (.leaf hv h)
      · exact hh (.leaf hv h)
    obtain ⟨finish, hnode, -⟩ := adbWCopy_node (n := n) hv
    rw [hnode]
    by_cases hobj : (adbRObj src v).obj = []
    · rw [if_pos hobj]
      exact ⟨_, rfl, Or.inr (Or.inl rfl)⟩
    rw [if_neg hobj]
    obtain ⟨before, u, after, hvals, hbefore, hu⟩ := exists_not_copied fun hall => hc (.node hv hobj hall)
    rw [hvals]
    refine (copyVals_faultsWith (fun w hw => (hbefore w hw).faults ?_ ?_ n) ?_ db).bind _
    · exact Or.inl rfl
    · exact Or.inr (Or.inr rfl)
    · exact ih hu fun hhu => hh (.node hv hobj hvals hbefore hhu)

/-- an object with one entry, which is the object -/
def loopSource : Bytes := [2, adbVal adbTypeObject 0].flatMap htole32

end Alpine

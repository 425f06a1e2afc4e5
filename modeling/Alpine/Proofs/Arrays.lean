import Alpine.Spec.Arrays

/-! An array is a list as long as its capacity fits into the 31 bits it has. The exception is an array of
the block allocator: if it has to grow, its items are not moved to the new memory. -/

namespace Alpine

open List

variable {α : Type}

def ApkArray.contents (array : ApkArray α) : List α := array.item.take array.num

structure ApkArray.Wf (array : ApkArray α) : Prop where
  num_le : array.num ≤ array.capacity
  length : array.item.length = array.capacity
  small : array.capacity < 2 ^ 31

open ApkArray

/-- the operations on a list -/
def listStep (zero : α) (l : List α) : ArrayOp α → Option (List α)
  | .init => some []
  | .add x => some (l ++ [x])
  | .resize num cap => some (l.take (min num cap) ++ replicate (min num cap - l.length) zero)
  | .truncate num => if num ≤ l.length then some (l.take num) else none
  | .copy src => some src.contents
  | .balloc _ => some []
  | .bclone => some l

/-- no capacity is too large, and no items of the block allocator have to be moved -/
def ArrayOp.Keeps (array : ApkArray α) : ArrayOp α → Prop
  | .add _ => array.num < array.capacity ∨
      (array.allocated ∨ array.num = 0) ∧ array.capacity + min (array.capacity + 2) 64 < 2 ^ 31
  | .resize num cap => (array.allocated ∨ min array.num (min num cap) = 0) ∧ cap < 2 ^ 31
  | .copy src => src.Wf
  | .balloc capacity => capacity < 2 ^ 31
  | _ => True

variable {zero : α} {fresh : ℕ → α} {array : ApkArray α} {num cap : ℕ}

theorem ApkArray.Wf.contents_length (h : array.Wf) : array.contents.length = array.num := by
  rw [contents, length_take, h.length, min_eq_left h.num_le]

theorem apkArrayEmpty_wf : (apkArrayEmpty : ApkArray α).Wf := ⟨le_rfl, rfl, Nat.two_pow_pos 31⟩

theorem reallocItems_length (item : List α) : (reallocItems fresh item cap).length = cap := by
  simp [reallocItems]
  omega

theorem ApkArray.Wf.resizedItems (h : array.Wf) (fresh : ℕ → α) (hcap : num ≤ cap) (hnum : num ≤ array.num)
    (hkeep : array.allocated = true ∨ num = 0) : (resizedItems fresh array cap).length = cap ∧
      (resizedItems fresh array cap).take num = array.item.take num := by
  have hlen := h.length
  have hle := h.num_le
  unfold Alpine.resizedItems
  split_ifs with hmove halloc
  · refine ⟨reallocItems_length _, ?_⟩
    rw [reallocItems, take_append_of_le_length (by simp; omega), take_take, min_eq_left hcap]
  · exact ⟨reallocItems_length _, by simp [hkeep.resolve_left halloc]⟩
  · exact ⟨by simp_all, rfl⟩

theorem ApkArray.Wf.resize (zero : α) (fresh : ℕ → α) (num : ℕ) (h : array.Wf) (hcap : cap < 2 ^ 31)
    (hkeep : array.allocated = true ∨ min array.num (min num cap) = 0) :
    ∃ b, apkArrayResize zero fresh array num cap = b ∧ b.Wf ∧ b.capacity = cap ∧
      b.contents = array.contents.take (min num cap) ++ replicate (min num cap - array.num) zero := by
  by_cases hzero : cap = 0
  · exact ⟨_, if_pos hzero, apkArrayEmpty_wf, hzero.symm, by simp [contents, apkArrayEmpty, hzero]⟩
  have hnum : (if num > cap then cap else num) = min num cap := by
    split_ifs <;> omega
  refine ⟨_, rfl, ?_⟩
  unfold apkArrayResize
  simp only [hnum, contents, take_take]
  have hle : min num cap ≤ cap := min_le_right _ _
  generalize min num cap = n at *
  obtain ⟨hlen, htake⟩ := h.resizedItems fresh ((min_le_right _ _).trans hle) (min_le_left _ _) hkeep
  rw [Nat.mod_eq_of_lt (by omega : n < 2 ^ 32), Nat.mod_eq_of_lt hcap]
  split_ifs with hgrow
  · rw [min_eq_left hgrow.le] at htake
    refine ⟨⟨hle, ?_, hcap⟩, rfl, ?_⟩
    · simp
      omega
    · rw [take_append_of_le_length (by simp; omega), take_of_length_le (by simp; omega), htake,
        min_eq_right hgrow.le]
  · rw [not_lt] at hgrow
    rw [min_eq_right hgrow] at htake
    exact ⟨⟨hle, hlen, hcap⟩, rfl, by simp [htake, hgrow]⟩

/-- the array to which an item is added has room for it -/
theorem ApkArray.Wf.room (zero : α) (fresh : ℕ → α) {x : α} (h : array.Wf) (hop : (ArrayOp.add x).Keeps array) :
    ∃ b, (if array.num ≥ array.capacity then apkArrayGrow zero fresh array else array) = b ∧
      b.Wf ∧ b.num < b.capacity ∧ b.contents = array.contents := by
  have hlen := h.contents_length
  by_cases hfull : array.num ≥ array.capacity
  · obtain ⟨hmove, hsmall⟩ := hop.resolve_left (not_lt.2 hfull)
    have hgrow : array.num < array.capacity + min (array.capacity + 2) 64 := by
      have := h.num_le
      omega
    obtain ⟨b, hb, hwf, hcap, hcontents⟩ := h.resize zero fresh array.num hsmall
      (hmove.imp_right fun hnone => by rw [hnone, Nat.zero_min])
    rw [min_eq_left hgrow.le, Nat.sub_self, replicate_zero, append_nil, take_of_length_le hlen.le] at hcontents
    refine ⟨b, (if_pos hfull).trans hb, hwf, ?_, hcontents⟩
    rwa [hcap, ← hwf.contents_length, hcontents, hlen]
  · exact ⟨_, if_neg hfull, h, not_le.1 hfull, rfl⟩

/-- there is an array, and it holds the list; or there is none of both -/
def Tracks (r : Option (ApkArray α)) (l : Option (List α)) : Prop :=
  r.map contents = l ∧ ∀ array ∈ r, array.Wf

theorem ApkArray.Wf.tracks {l : List α} (h : array.Wf) (hl : array.contents = l) :
    Tracks (some array) (some l) :=
  ⟨congrArg some hl, by rintro _ ⟨⟩; exact h⟩

theorem ApkArray.Wf.step {op : ArrayOp α} (h : array.Wf) (hop : op.Keeps array) :
    Tracks (arrayStep zero fresh array op) (listStep zero array.contents op) := by
  have hlen := h.contents_length
  cases op with
  | init => exact apkArrayEmpty_wf.tracks rfl
  | add x =>
    obtain ⟨b, hb, hwf, hroom, hcontents⟩ := h.room zero fresh hop
    simp only [arrayStep, apkArrayAdd, hb, ← hcontents]
    rw [Nat.mod_eq_of_lt ((Nat.succ_le_of_lt hroom).trans_lt (hwf.small.trans (by decide)))]
    refine Wf.tracks ⟨hroom, by simpa using hwf.length, hwf.small⟩ ?_
    simp only [contents, set_eq_take_append_cons_drop, hwf.length, if_pos hroom]
    rw [take_append, length_take, hwf.length, min_eq_left hroom.le]
    simp
  | resize num cap =>
    obtain ⟨b, hb, hwf, -, hcontents⟩ := h.resize zero fresh num hop.2 hop.1
    rw [arrayStep, hb, listStep, hlen]
    exact hwf.tracks hcontents
  | truncate num =>
    simp only [arrayStep, apkArrayTruncate, listStep, hlen]
    split_ifs with hle
    · refine Wf.tracks ⟨hle.trans h.num_le, h.length, h.small⟩ ?_
      simp [contents, take_take, hle]
    · exact ⟨rfl, by simp⟩
  | copy src =>
    have hsrc : src.Wf := hop
    have hfit : src.num ≤ max src.num array.capacity := le_max_left _ _
    have hmax : max src.num array.capacity < 2 ^ 31 :=
      max_lt (hsrc.num_le.trans_lt hsrc.small) h.small
    obtain ⟨b, hb, hwf, hcap, hcontents⟩ := h.resize zero fresh 0 hmax (by simp)
    have hsrclen := hsrc.contents_length
    simp only [arrayStep, apkArrayCopy, hb]
    unfold contents at hsrclen
    split_ifs with hne
    · refine Wf.tracks ⟨hfit.trans_eq hcap.symm, ?_, hwf.small⟩ ?_
      · rw [length_append, hsrclen, length_drop, hwf.length, hcap, Nat.add_sub_cancel' hfit]
      · simp only [contents]
        rw [take_append_of_le_length hsrclen.ge, take_of_length_le hsrclen.le]
    · refine hwf.tracks (hcontents.trans ?_)
      simp [contents, not_not.1 hne]
  | balloc capacity =>
    have hcap : capacity < 2 ^ 31 := hop
    rw [arrayStep, apkArrayBalloc, Nat.mod_eq_of_lt hcap]
    exact Wf.tracks ⟨Nat.zero_le _, reallocItems_length _, hcap⟩ rfl
  | bclone =>
    have hsmall := h.num_le.trans_lt h.small
    simp only [arrayStep, apkArrayBclone]
    split_ifs with hblock hzero
    · exact h.tracks rfl
    · exact apkArrayEmpty_wf.tracks (by simp [contents, hzero, apkArrayEmpty])
    · rw [Nat.mod_eq_of_lt hsmall]
      exact Wf.tracks ⟨le_rfl, hlen, hsmall⟩ (by simp [contents])

/-- what was said of each operation, in the array that it gets -/
def KeepsAll (zero : α) (array : ApkArray α) : List (ArrayOp α × (ℕ → α)) → Prop
  | [] => True
  | op :: ops => op.1.Keeps array ∧ ∀ array' ∈ arrayStep zero op.2 array op.1, KeepsAll zero array' ops

theorem ApkArray.Wf.run {ops : List (ArrayOp α × (ℕ → α))} (h : array.Wf) (hops : KeepsAll zero array ops) :
    (arrayRun zero array ops).map contents =
      (ops.map Prod.fst).foldlM (listStep zero) array.contents := by
  induction ops generalizing array with
  | nil => rfl
  | cons op ops ih =>
    obtain ⟨hstep, hwf⟩ := h.step hops.1
    rw [map_cons, foldlM_cons, ← hstep, arrayRun, foldlM_cons]
    cases hnext : arrayStep zero op.2 array op.1 with
    | none => rfl
    | some array' => exact ih (hwf array' hnext) (hops.2 array' hnext)

/-- an array is a list, whatever its memory is -/
theorem arrays_are_lists (zero : α) (ops : List (ArrayOp α × (ℕ → α)))
    (hops : KeepsAll zero apkArrayEmpty ops) :
    (arrayRun zero apkArrayEmpty ops).map contents = (ops.map Prod.fst).foldlM (listStep zero) [] :=
  apkArrayEmpty_wf.run hops

theorem arrays_are_lists_clone :
    let ops := [(ArrayOp.resize 1 1, fun _ => 9), (.add 5, fun _ => 9), (.bclone, fun _ => 9)]
    KeepsAll 0 apkArrayEmpty ops ∧ (arrayRun 0 apkArrayEmpty ops).map contents = some [0, 5] := by
  have hops : KeepsAll 0 apkArrayEmpty
      [(ArrayOp.resize 1 1, fun _ => 9), (.add 5, fun _ => 9), (.bclone, fun _ => 9)] := by
    refine ⟨⟨Or.inr rfl, by decide⟩, ?_⟩
    rintro _ ⟨⟩
    refine ⟨Or.inr ⟨Or.inl rfl, by decide⟩, fun _ _ => ⟨trivial, fun _ _ => trivial⟩⟩
  exact ⟨hops, arrays_are_lists 0 _ hops⟩

/-- an array of the block allocator that is full loses its item when another one is added -/
theorem array_item_lost :
    let ops := [ArrayOp.balloc 1, .add 5, .add 6]
    (arrayRun 0 apkArrayEmpty (ops.map fun op => (op, fun _ => 9))).map contents = some [9, 6] ∧
      ops.foldlM (listStep 0) [] = some [5, 6] := by
  decide

end Alpine

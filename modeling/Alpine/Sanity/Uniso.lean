import Alpine.Spec.Uniso

/-! How `uniso` moves through the stream: only forward, by what it says, and short only at the end of
the stream. -/

namespace Alpine

variable (sys : UnisoSys)

/-- the stream only moves forward, the queue stays, and seeking is not taken up again -/
structure Forward (c c' : UnisoCtx) : Prop where
  pos : c.pos ≤ c'.pos
  queue : c'.parserHead = c.parserHead
  method : c.skipMethod ≠ 0 → c'.skipMethod ≠ 0

theorem Forward.refl (c : UnisoCtx) : Forward c c := ⟨Nat.le_refl _, rfl, id⟩

variable {c c' : UnisoCtx} {n bytes : ℕ}

theorem Forward.trans {a b : UnisoCtx} (h : Forward a b) (h' : Forward b c) : Forward a c :=
  ⟨h.pos.trans h'.pos, h'.queue.trans h.queue, fun hm => h'.method (h.method hm)⟩

theorem forward_called (c : UnisoCtx) : Forward c { c with calls := c.calls + 1 } :=
  ⟨Nat.le_refl _, rfl, id⟩

theorem forward_skipMethod (c : UnisoCtx) (hn : n ≠ 0) : Forward c { c with skipMethod := n } :=
  ⟨Nat.le_refl _, rfl, fun _ => hn⟩

theorem forward_copyMethod : Forward c { c with copyMethod := n } :=
  ⟨Nat.le_refl _, rfl, id⟩

theorem forward_putBytes {b : Bytes} : Forward c (putBytes c b) :=
  ⟨Nat.le_refl _, rfl, id⟩

theorem forward_spliceTo (toFile : Bool) (c c' : UnisoCtx) : Forward c' (spliceTo sys toFile c c') := by
  unfold spliceTo
  split_ifs
  · exact forward_putBytes
  · exact .refl c'

theorem spliceTo_pos (toFile : Bool) (c c' : UnisoCtx) : (spliceTo sys toFile c c').pos = c'.pos := by
  unfold spliceTo
  split_ifs <;> rfl

variable (answers : ℕ → Except ℕ ℕ)

variable {k : ℕ} {left : ℤ} {p : ℤ × UnisoCtx} {toFile : Bool} {rd : UnisoReader}

theorem moveBytes_ok (h : moveBytes sys answers c n = (.ok k, c')) :
    c'.pos = c.pos + k ∧ k ≤ n ∧ (0 < k → c'.pos ≤ sys.data.length) ∧
      (k = 0 → n = 0 ∨ sys.data.length ≤ c.pos) := by
  unfold moveBytes at h
  split at h
  · cases h
  obtain ⟨hk, rfl⟩ := Prod.mk.inj h
  have hk' := Except.ok.inj hk
  simp only [hk']
  refine ⟨trivial, ?_, ?_, ?_⟩ <;> omega

theorem moveBytes_error {e : ℤ} (h : moveBytes sys answers c n = (.error e, c')) :
    e < 0 ∧ c'.pos = c.pos := by
  unfold moveBytes at h
  split at h
  · obtain ⟨he, rfl⟩ := Prod.mk.inj h
    have he' := Except.error.inj he
    rw [← he', negErrno]
    exact ⟨by omega, rfl⟩
  · cases h

/-- how far a read or a splice comes: by what it returns, and a short one only at the end -/
structure Got (c : UnisoCtx) (bytes : ℕ) (left : ℤ) (p : ℤ × UnisoCtx) : Prop where
  moved : 0 ≤ p.1 → (p.2.pos : ℤ) = c.pos + (p.1 - (bytes - left)) ∧ p.1 ≤ bytes
  inside : p.2.pos = c.pos ∨ c.pos ≤ p.2.pos ∧ p.2.pos ≤ sys.data.length
  short : 0 ≤ p.1 → p.1 < bytes → sys.data.length ≤ p.2.pos

variable {sys}

theorem Got.of_neg (hneg : p.1 < 0) (hpos : p.2.pos = c.pos) : Got sys c bytes left p :=
  ⟨fun h => by omega, Or.inl hpos, fun h => by omega⟩

theorem Got.step (hpos : c'.pos = c.pos + k) (hin : c'.pos ≤ sys.data.length)
    (hp : Got sys c' bytes (left - k) p) : Got sys c bytes left p := by
  refine ⟨fun hr => ?_, Or.inr ?_, hp.short⟩
  · obtain ⟨hmoved, hle⟩ := hp.moved hr
    exact ⟨by omega, hle⟩
  · rcases hp.inside with h | h <;> omega

variable (sys)

theorem doReadLoop_got : ∀ (left : ℕ) (c : UnisoCtx), left ≤ n → left ≤ bytes →
    Got sys c bytes left (doReadLoop sys bytes n left c) := by
  induction n with
  | zero =>
    intro left c hn hb
    obtain rfl : left = 0 := by omega
    exact ⟨fun _ => by simp [doReadLoop], Or.inl rfl, fun _ h => by simp [doReadLoop] at h⟩
  | succ n ih =>
    intro left c hn hb
    rw [doReadLoop]
    by_cases hleft : left = 0
    · rw [hleft]
      exact ⟨fun _ => by simp, Or.inl rfl, fun _ h => by simp at h⟩
    rw [if_neg hleft]
    match hmove : moveBytes sys sys.reads c left with
    | (.error e, c') =>
      obtain ⟨he, hpos⟩ := moveBytes_error sys _ hmove
      exact .of_neg he hpos
    | (.ok k, c') =>
      obtain ⟨hpos, hk, hin, hzero⟩ := moveBytes_ok sys _ hmove
      simp only
      split_ifs with hk0
      · exact ⟨fun _ => by simp only; omega, Or.inl (by simp only; omega), fun _ _ => by simp only; omega⟩
      · have hrest := ih (left - k) c' (by omega) (by omega)
        rw [Int.natCast_sub hk] at hrest
        exact hrest.step hpos (hin (by omega))

theorem doRead_got (c : UnisoCtx) (bytes : ℕ) : Got sys c bytes bytes (doRead sys c bytes) := by
  unfold doRead
  split_ifs
  · exact .of_neg (show -einval < 0 by decide) rfl
  · exact doReadLoop_got sys bytes c (Nat.le_refl _) (Nat.le_refl _)

theorem doRead_whole (hin : c.pos + bytes ≤ sys.data.length) (hres : ¬ (doRead sys c bytes).1 < 0) :
    (doRead sys c bytes).1 = bytes ∧ (doRead sys c bytes).2.pos = c.pos + bytes := by
  have hgot := doRead_got sys c bytes
  have hmoved := hgot.moved (by omega)
  have hshort := hgot.short (by omega)
  omega

theorem toInt32_small {z : ℤ} (h0 : 0 ≤ z) (h : z < 2 ^ 31) : toInt32 z = z := by
  unfold toInt32
  omega

theorem doSpliceLoop_got (hbytes : bytes < 2 ^ 31) : ∀ (left : ℕ) (c : UnisoCtx),
    left ≤ bytes → sys.data.length < c.pos + n →
      Got sys c bytes left (doSpliceLoop sys toFile bytes n left c) := by
  induction n with
  | zero =>
    intro left c hb hend
    have hint : toInt32 (bytes - left) = bytes - left := toInt32_small (by omega) (by omega)
    rw [doSpliceLoop]
    exact ⟨fun _ => by simp only; omega, Or.inl rfl, fun _ _ => by simp only; omega⟩
  | succ n ih =>
    intro left c hb hend
    rw [doSpliceLoop, toInt32_small (show (0 : ℤ) ≤ bytes by omega) (by omega)]
    by_cases hleft : (left : ℤ) = 0
    · rw [hleft]
      exact ⟨fun _ => by simp, Or.inl rfl, fun _ h => by simp at h⟩
    rw [if_neg hleft]
    match hmove : moveBytes sys sys.splices c left with
    | (.error e, c') =>
      obtain ⟨he, hpos⟩ := moveBytes_error sys _ hmove
      exact .of_neg he hpos
    | (.ok k, c') =>
      obtain ⟨hpos, hk, hin, hzero⟩ := moveBytes_ok sys _ hmove
      simp only
      split_ifs with hk0
      · rw [toInt32_small (by omega) (by omega)]
        exact ⟨fun _ => by simp only; omega, Or.inl (by simp only; omega), fun _ _ => by simp only; omega⟩
      have hkept := spliceTo_pos sys toFile c c'
      have hrest := ih (left - k) (spliceTo sys toFile c c') (by omega) (by omega)
      rw [Int.natCast_sub hk] at hrest
      exact hrest.step (hkept.trans hpos) (hkept.trans_le (hin (by omega)))

theorem doSplice_got (toFile : Bool) (c : UnisoCtx) (h : bytes < 2 ^ 31) :
    Got sys c bytes bytes (doSplice sys toFile c bytes) := by
  rw [doSplice, toInt32_small (by omega) (by omega)]
  exact doSpliceLoop_got sys h bytes c (Nat.le_refl _) (by omega)

theorem firstSplice_got (P : Prop) [Decidable P] (toFile : Bool) (c : UnisoCtx) (h : bytes < 2 ^ 31) :
    Got sys c bytes bytes (if P then doSplice sys toFile c bytes else (-1, c)) := by
  split_ifs
  · exact doSplice_got sys toFile c h
  · exact .of_neg (show (-1 : ℤ) < 0 by decide) rfl

theorem request_eq {left : ℕ} (h : (left : ℤ) ≠ 0) : ∃ now : ℕ,
    (if (isofsTmpbufSize : ℤ) < left then (isofsTmpbufSize : ℤ) else left) = now ∧
      (if (now : ℤ) < 0 then 2 ^ 31 else (now : ℤ).toNat) = now ∧ now ≤ left ∧ 0 < now := by
  refine ⟨min isofsTmpbufSize left, ?_, ?_, Nat.min_le_right _ _, ?_⟩
  · split_ifs <;> omega
  · rw [if_neg (by omega), Int.toNat_natCast]
  · have hsize : 0 < isofsTmpbufSize := by decide
    omega

/-- a relation that the calls keep that move bytes, and so do the loops of such calls -/
structure MoveRule (R : UnisoCtx → UnisoCtx → Prop) : Prop where
  refl : ∀ c, R c c
  trans : ∀ {a b c}, R a b → R b c → R a c
  called : ∀ c, R c { c with calls := c.calls + 1 }
  move : ∀ (c : UnisoCtx) (k : ℕ), R c { c with pos := c.pos + k, calls := c.calls + 1 }

/-- a relation that skipping keeps -/
structure SkipRule (R : UnisoCtx → UnisoCtx → Prop) : Prop extends MoveRule R where
  method : ∀ (c : UnisoCtx) (n : ℕ), n ≠ 0 → R c { c with skipMethod := n }
  seek : ∀ (c : UnisoCtx) (k : ℕ), R c { c with pos := c.pos + k }

section

variable {R : UnisoCtx → UnisoCtx → Prop}

theorem MoveRule.moveBytes (hR : MoveRule R) (c : UnisoCtx) (n : ℕ) :
    R c (moveBytes sys answers c n).2 := by
  unfold Alpine.moveBytes
  split
  · exact hR.called c
  · exact hR.move c _

theorem MoveRule.doReadLoop (hR : MoveRule R) (bytes n : ℕ) : ∀ (left : ℕ) (c : UnisoCtx),
    R c (doReadLoop sys bytes n left c).2 := by
  induction n with
  | zero => intro left c; exact hR.refl c
  | succ n ih =>
    intro left c
    rw [Alpine.doReadLoop]
    by_cases hleft : left = 0
    · rw [if_pos hleft]
      exact hR.refl c
    rw [if_neg hleft]
    have hstep := hR.moveBytes sys sys.reads c left
    match hmove : Alpine.moveBytes sys sys.reads c left with
    | (.error e, c') => rwa [hmove] at hstep
    | (.ok k, c') =>
      rw [hmove] at hstep
      simp only
      split_ifs
      · exact hstep
      · exact hR.trans hstep (ih _ c')

theorem MoveRule.doRead (hR : MoveRule R) (c : UnisoCtx) (bytes : ℕ) : R c (doRead sys c bytes).2 := by
  unfold Alpine.doRead
  split_ifs
  · exact hR.called c
  · exact hR.doReadLoop sys bytes bytes bytes c

theorem MoveRule.doSplice (hR : MoveRule R) (hto : ∀ c c', R c' (spliceTo sys toFile c c'))
    (c : UnisoCtx) (bytes : ℕ) : R c (doSplice sys toFile c bytes).2 := by
  unfold Alpine.doSplice
  generalize sys.data.length + 1 = n
  generalize toInt32 bytes = left
  induction n generalizing left c with
  | zero => exact hR.refl c
  | succ n ih =>
    rw [doSpliceLoop]
    by_cases hleft : left = 0
    · rw [if_pos hleft]
      exact hR.refl c
    rw [if_neg hleft]
    generalize (if left < 0 then sys.data.length else left.toNat) = request
    have hstep := hR.moveBytes sys sys.splices c request
    match hmove : Alpine.moveBytes sys sys.splices c request with
    | (.error e, c') => rwa [hmove] at hstep
    | (.ok k, c') =>
      rw [hmove] at hstep
      simp only
      split_ifs
      · exact hstep
      · exact hR.trans (hR.trans hstep (hto c c')) (ih _ _)

theorem MoveRule.skipReadLoop (hR : MoveRule R) (bytes n : ℕ) : ∀ (left : ℤ) (c : UnisoCtx),
    R c (skipReadLoop sys bytes n left c).2 := by
  induction n with
  | zero => intro left c; exact hR.refl c
  | succ n ih =>
    intro left c
    rw [Alpine.skipReadLoop]
    by_cases hleft : left = 0
    · rw [if_pos hleft]
      exact hR.refl c
    simp only
    generalize (if (isofsTmpbufSize : ℤ) < left then (isofsTmpbufSize : ℤ) else left) = now
    generalize (if now < 0 then 2 ^ 31 else now.toNat) = request
    have hread := hR.doRead sys c request
    split_ifs
    · exact hread
    · exact hread
    · exact hR.trans hread (ih _ _)

theorem SkipRule.skipSplice (hR : SkipRule R) (c : UnisoCtx) (bytes : ℕ) :
    R c (skipSplice sys c bytes).2 := by
  have hfirst : R c (if c.skipMethod = 1 then doSplice sys false c bytes else (-1, c)).2 := by
    split_ifs
    · have hnowhere : ∀ c c', R c' (spliceTo sys false c c') := fun _ c' => hR.refl c'
      exact hR.doSplice sys hnowhere c bytes
    · exact hR.refl c
  unfold Alpine.skipSplice
  generalize (if c.skipMethod = 1 then doSplice sys false c bytes else (-1, c)) = p at hfirst
  simp only
  split_ifs
  · exact hfirst
  · exact hR.trans hfirst (hR.trans (hR.method p.2 2 two_ne_zero) (hR.skipReadLoop sys bytes _ _ _))

theorem SkipRule.doSkip (hR : SkipRule R) (c : UnisoCtx) (bytes : ℕ) : R c (doSkip sys c bytes).2 := by
  unfold Alpine.doSkip
  split_ifs
  · exact hR.seek c bytes
  · exact hR.trans (hR.method c 1 one_ne_zero) (hR.skipSplice sys _ bytes)
  · exact hR.skipSplice sys c bytes

theorem SkipRule.skipTo (hR : SkipRule R) (c : UnisoCtx) (rd : UnisoReader) : R c (skipTo sys c rd).2 := by
  unfold Alpine.skipTo
  split_ifs
  · exact hR.doSkip sys c _
  · exact hR.refl c

end

theorem forward_rule : SkipRule Forward where
  refl := .refl
  trans := .trans
  called := forward_called
  move _ _ := ⟨Nat.le_add_right _ _, rfl, id⟩
  method c _ := forward_skipMethod c
  seek _ _ := ⟨Nat.le_add_right _ _, rfl, id⟩

theorem doSplice_forward : Forward c (doSplice sys toFile c bytes).2 :=
  forward_rule.doSplice sys (forward_spliceTo sys toFile) c bytes

theorem doWriteLoop_forward : ∀ (buf : Bytes) (c : UnisoCtx),
    Forward c (doWriteLoop sys bytes n buf c).2 := by
  induction n with
  | zero => intro buf c; exact .refl c
  | succ n ih =>
    intro buf c
    rw [doWriteLoop]
    split_ifs
    · exact .refl c
    · split
      · exact forward_called c
      · exact ((forward_called c).trans forward_putBytes).trans (ih _ _)

theorem doWrite_forward (c : UnisoCtx) (buf : Bytes) : Forward c (doWrite sys c buf).2 :=
  doWriteLoop_forward sys buf c

theorem copyLoop_forward : ∀ (left : ℤ) (c : UnisoCtx), Forward c (copyLoop sys bytes n left c).2 := by
  induction n with
  | zero => intro left c; exact .refl c
  | succ n ih =>
    intro left c
    rw [copyLoop]
    by_cases hleft : left = 0
    · rw [if_pos hleft]
      exact .refl c
    simp only [hleft]
    generalize (if (isofsTmpbufSize : ℤ) < left then (isofsTmpbufSize : ℤ) else left) = now
    generalize (if now < 0 then 2 ^ 31 else now.toNat) = request
    have hread := forward_rule.doRead sys c request
    generalize doRead sys c request = p at hread
    by_cases hr : p.1 ≤ 0
    · rw [if_pos hr]
      exact hread
    rw [if_neg hr]
    have hwrite := hread.trans (doWrite_forward sys p.2 (streamBytes sys c.pos p.2.pos))
    by_cases hw : (doWrite sys p.2 (streamBytes sys c.pos p.2.pos)).1 ≠ p.1
    · rw [if_pos hw]
      exact hwrite
    · rw [if_neg hw]
      exact hwrite.trans (ih _ _)

theorem doCopy_forward : Forward c (doCopy sys c bytes).2 := by
  have hfirst : Forward c (if c.copyMethod = 0 then doSplice sys true c bytes else (-1, c)).2 := by
    split_ifs
    · exact doSplice_forward sys
    · exact .refl c
  unfold doCopy
  generalize (if c.copyMethod = 0 then doSplice sys true c bytes else (-1, c)) = p at hfirst
  simp only
  split_ifs
  · exact hfirst
  · exact hfirst.trans (forward_copyMethod.trans (copyLoop_forward sys _ _))

theorem cloneLoop_forward {src dst : ℕ} : ∀ (bytes srcPos dstPos : ℕ) (c : UnisoCtx),
    Forward c (cloneLoop sys src dst n bytes srcPos dstPos c) := by
  induction n with
  | zero => intro bytes srcPos dstPos c; exact .refl c
  | succ n ih =>
    intro bytes srcPos dstPos c
    rw [cloneLoop]
    split_ifs
    · exact .refl c
    split
    · exact forward_called c
    simp only
    split
    · exact ⟨Nat.le_refl _, rfl, id⟩
    · refine Forward.trans ?_ (ih _ _ _ _)
      exact ⟨Nat.le_refl _, rfl, id⟩

theorem linkOrClone_forward {src dst : Bytes} : Forward c (linkOrClone sys c src dst bytes) := by
  unfold linkOrClone
  split
  · exact ⟨Nat.le_refl _, rfl, id⟩
  split_ifs
  · exact ⟨Nat.le_refl _, rfl, id⟩
  split
  · refine Forward.trans ?_ (cloneLoop_forward sys _ _ _ _)
    exact ⟨Nat.le_refl _, rfl, id⟩
  · exact ⟨Nat.le_refl _, rfl, id⟩

theorem openFile_forward : Forward c (openFile sys c rd).2 := by
  unfold openFile
  split
  · exact forward_called c
  simp only
  split_ifs
  · exact ⟨Nat.le_refl _, rfl, id⟩
  · split <;> exact ⟨Nat.le_refl _, rfl, id⟩

theorem unisoReadFile_forward : Forward c (unisoReadFile sys c rd).2 := by
  unfold unisoReadFile
  by_cases hdisk : sys.diskFree ≠ 0 ∧ sys.diskFree < c.diskNeeded
  · rw [if_pos hdisk]
    exact .refl c
  by_cases hgone : rd.offset < c.pos
  · rw [if_pos hgone]
    split_ifs
    · exact linkOrClone_forward sys
    · exact .refl c
  rw [if_neg hgone]
  have hopen : Forward c (openFile sys { c with
      prevOffset := rd.offset, prevName := rd.name.take 512, prevSize := rd.size } rd).2 := by
    refine Forward.trans ?_ (openFile_forward sys)
    exact ⟨Nat.le_refl _, rfl, id⟩
  generalize openFile sys { c with
    prevOffset := rd.offset, prevName := rd.name.take 512, prevSize := rd.size } rd = p at hopen
  simp only
  split_ifs
  · exact hopen
  all_goals exact hopen.trans (doCopy_forward sys)

end Alpine

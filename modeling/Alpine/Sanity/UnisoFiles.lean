import Alpine.Sanity.Uniso

/-! What `uniso` does to the files: skipping comes to where it should and leaves them alone, copying
puts the bytes of the stream into the file that is open, a clone is equal to its source. Where `splice`
works for some calls only, bytes that it has moved are moved once more. -/

namespace Alpine

open List Function UnisoFs

variable (sys : UnisoSys)

/-- nothing but the place in the stream changes -/
def Advances (c c' : UnisoCtx) : Prop := c' = { c with pos := c'.pos, calls := c'.calls }

variable {a b c c' : UnisoCtx} {bytes k : ℕ} {fs₀ fs : UnisoFs} {done : List (Bytes × Bytes)}
    {f : Bytes × Bytes} {path : Bytes}

theorem Advances.trans (h : Advances a b) (h' : Advances b c) : Advances a c := by
  unfold Advances at *
  rw [h', h]

theorem advances_rule : MoveRule Advances where
  refl _ := rfl
  trans := .trans
  called _ := rfl
  move _ _ := rfl

/-- the way to skip may change as well -/
def Skips (c c' : UnisoCtx) : Prop :=
  c' = { c with pos := c'.pos, calls := c'.calls, skipMethod := c'.skipMethod }

theorem Skips.trans (h : Skips a b) (h' : Skips b c) : Skips a c := by
  unfold Skips at *
  rw [h', h]

theorem skips_rule : SkipRule Skips where
  refl _ := rfl
  trans := .trans
  called _ := rfl
  move _ _ := rfl
  method _ _ _ := rfl
  seek _ _ := rfl

variable {n p pos q : ℕ} {toFile : Bool}

theorem drainLoop_skips : ∀ {c c' : UnisoCtx}, drainLoop sys n c = some c' → Skips c c' := by
  induction n with
  | zero => intro c c' h; cases h
  | succ n ih =>
    intro c c' h
    have hskip := skips_rule.doSkip sys c isofsTmpbufSize
    simp only [drainLoop] at h
    split_ifs at h
    · exact hskip.trans (ih h)
    · rw [← Option.some.inj h]
      exact hskip

/-- `splice` works on the stream, or it does not -/
def SplicesAlike : Prop :=
  (∀ n, ∃ m, sys.splices n = .ok m) ∨ ∀ n, ∃ e, sys.splices n = .error e

variable {sys}

theorem doSpliceLoop_nonneg (hs : ∀ n, ∃ m, sys.splices n = .ok m) (hbytes : bytes < 2 ^ 31) :
    ∀ (left : ℕ) (c : UnisoCtx), left ≤ bytes → 0 ≤ (doSpliceLoop sys toFile bytes n left c).1 := by
  have hint : ∀ left : ℕ, left ≤ bytes → 0 ≤ toInt32 ((bytes : ℤ) - left) := by
    intro left hle
    rw [toInt32_small (by omega) (by omega)]
    omega
  induction n with
  | zero => intro left c hle; exact hint left hle
  | succ n ih =>
    intro left c hle
    rw [doSpliceLoop]
    by_cases hleft : (left : ℤ) = 0
    · rw [if_pos hleft]
      simpa using hint 0 (Nat.zero_le _)
    rw [if_neg hleft, if_neg (by omega), Int.toNat_natCast]
    obtain ⟨m, hm⟩ := hs c.calls
    obtain ⟨k, c', hmove⟩ : ∃ k c', moveBytes sys sys.splices c left = (.ok k, c') := by
      unfold moveBytes
      rw [hm]
      exact ⟨_, _, rfl⟩
    have hk := (moveBytes_ok sys _ hmove).2.1
    simp only [hmove]
    split_ifs
    · exact hint left hle
    · rw [← Int.natCast_sub hk]
      exact ih (left - k) _ (by omega)

theorem doSplice_fails (hs : SplicesAlike sys) (hbytes : bytes < 2 ^ 31)
    (hneg : (doSplice sys toFile c bytes).1 < 0) :
    (doSplice sys toFile c bytes).2 = { c with calls := c.calls + 1 } := by
  rw [doSplice, toInt32_small (by omega) (by omega)] at hneg ⊢
  rcases hs with hs | hs
  · exact absurd hneg (not_lt.2 (doSpliceLoop_nonneg hs hbytes bytes c (Nat.le_refl _)))
  rw [doSpliceLoop] at hneg ⊢
  by_cases hzero : (bytes : ℤ) = 0
  · rw [if_pos hzero, toInt32_small (by omega) (by omega)] at hneg
    omega
  · obtain ⟨e, he⟩ := hs c.calls
    rw [if_neg hzero]
    simp [moveBytes, he]

theorem firstSplice_fails (hs : SplicesAlike sys) (P : Prop) [Decidable P] (toFile : Bool) (c : UnisoCtx)
    (hbytes : bytes < 2 ^ 31) : (if P then doSplice sys toFile c bytes else (-1, c)).1 < 0 →
    (if P then doSplice sys toFile c bytes else (-1, c)).2.pos = c.pos := by
  split_ifs
  · intro hneg
    rw [doSplice_fails hs hbytes hneg]
  · intro _
    rfl

theorem skipReadLoop_reaches : ∀ (left : ℕ) (c : UnisoCtx), left ≤ n →
    c.pos + left ≤ sys.data.length → 0 ≤ (skipReadLoop sys bytes n left c).1 →
    (skipReadLoop sys bytes n left c).2.pos = c.pos + left := by
  induction n with
  | zero =>
    intro left c hn _ _
    obtain rfl : left = 0 := by omega
    rfl
  | succ n ih =>
    intro left c hn hin hres
    rw [skipReadLoop] at hres ⊢
    by_cases hleft : (left : ℤ) = 0
    · rw [if_pos hleft]
      simp only
      omega
    simp only [hleft, if_false] at hres ⊢
    obtain ⟨now, hnow, hrequest, hle, hpos⟩ := request_eq hleft
    rw [hnow, hrequest] at hres ⊢
    by_cases hneg : (doRead sys c now).1 < 0
    · rw [if_pos hneg] at hres
      omega
    obtain ⟨hr, hmoved⟩ := doRead_whole sys (show c.pos + now ≤ sys.data.length by omega) hneg
    rw [if_neg hneg, if_neg (by omega), ← Int.natCast_sub hle] at hres ⊢
    rw [ih (left - now) _ (by omega) (by omega) hres]
    omega

theorem skipSplice_reaches (hs : SplicesAlike sys) (hbytes : bytes < 2 ^ 31)
    (hin : c.pos + bytes ≤ sys.data.length) (hres : 0 ≤ (skipSplice sys c bytes).1) :
    (skipSplice sys c bytes).2.pos = c.pos + bytes := by
  unfold skipSplice at hres ⊢
  have hgot := firstSplice_got sys (c.skipMethod = 1) false c hbytes
  have hfails := firstSplice_fails hs (c.skipMethod = 1) false c hbytes
  generalize (if c.skipMethod = 1 then doSplice sys false c bytes else (-1, c)) = p at *
  by_cases hp : 0 ≤ p.1
  · rw [if_pos hp]
    have hmoved := hgot.moved hp
    have hshort := hgot.short hp
    omega
  rw [if_neg hp, toInt32_small (by omega) (by omega)] at hres ⊢
  rw [skipReadLoop_reaches bytes { p.2 with skipMethod := 2 } (Nat.le_refl _) (by simp only; omega) hres]
  simp only
  omega

theorem skipTo_reaches (hs : SplicesAlike sys) {rd : UnisoReader} (hbytes : rd.offset - c.pos < 2 ^ 31)
    (hpos : c.pos ≤ rd.offset) (hin : rd.offset ≤ sys.data.length)
    (hres : 0 ≤ (skipTo sys c rd).1) : (skipTo sys c rd).2.pos = rd.offset := by
  unfold skipTo at hres ⊢
  by_cases hlt : c.pos < rd.offset
  · rw [if_pos hlt] at hres ⊢
    have hend : c.pos + (rd.offset - c.pos) = rd.offset := by omega
    unfold doSkip at hres ⊢
    split_ifs at hres ⊢
    · exact hend
    · exact (skipSplice_reaches (c := { c with skipMethod := 1 }) hs hbytes (by simp only; omega)
        hres).trans hend
    · exact (skipSplice_reaches hs hbytes (by omega) hres).trans hend
  · rw [if_neg hlt]
    simp only
    omega

@[ext]
theorem UnisoFs.ext_fields {a b : UnisoFs} (hi : a.inode = b.inode) (hc : a.content = b.content)
    (hn : a.next = b.next) : a = b := by
  cases a
  subst hi hc hn
  rfl

theorem UnisoFs.write_nil : fs.write k pos [] = fs := by
  apply ext_fields
  · rfl
  · simp [write, setContent]
  · rfl

@[simp]
theorem UnisoFs.content_write {b : Bytes} : (fs.write k pos b).content k =
      (fs.content k).take pos ++ b ++ (fs.content k).drop (pos + b.length) :=
  update_self _ _ _

theorem UnisoFs.write_write (h : pos ≤ (fs.content k).length) {a b : Bytes} :
    (fs.write k pos a).write k (pos + a.length) b = fs.write k pos (a ++ b) := by
  have htake : ((fs.content k).take pos ++ a).length = pos + a.length := by
    rw [length_append, length_take_of_le h]
  apply ext_fields
  · rfl
  · simp only [write, setContent, update_self, update_idem]
    rw [take_left' htake, ← drop_drop, drop_left' htake, drop_drop,
      length_append, Nat.add_assoc, append_assoc, append_assoc, append_assoc,
      append_assoc]
  · rfl

variable (sys) in
theorem streamBytes_append {r : ℕ} (hpq : p ≤ q) (hqr : q ≤ r) :
    streamBytes sys p q ++ streamBytes sys q r = streamBytes sys p r := by
  have hsum : r - p = (q - p) + (r - q) := by omega
  have hplace : p + (q - p) = q := by omega
  rw [streamBytes, streamBytes, streamBytes, hsum, take_add, drop_drop, hplace]

variable (sys) in
theorem streamBytes_length (h : q = p ∨ q ≤ sys.data.length) : (streamBytes sys p q).length = q - p := by
  rw [streamBytes, length_take, length_drop]
  omega

/-- the bytes that are taken from the stream go to the file that is open -/
structure Puts (sys : UnisoSys) (c c' : UnisoCtx) : Prop where
  same : c' = { c with
    pos := c'.pos, calls := c'.calls, copyMethod := c'.copyMethod, fs := c'.fs, fd := c'.fd }
  pos : c.pos ≤ c'.pos
  inside : c'.pos = c.pos ∨ c'.pos ≤ sys.data.length
  fs : c'.fs = c.fs.write c.fd.1 c.fd.2 (streamBytes sys c.pos c'.pos)
  fd : c'.fd = (c.fd.1, c.fd.2 + (c'.pos - c.pos))

/-- the place in the file is not behind its end -/
def FdInside (c : UnisoCtx) : Prop := c.fd.2 ≤ (c.fs.content c.fd.1).length

theorem Puts.fdInside (h : Puts sys c c') (hc : FdInside c) : FdInside c' := by
  have hlen := streamBytes_length sys h.inside
  unfold FdInside at *
  rw [h.fd, h.fs]
  simp only [content_write, length_append]
  rw [length_take_of_le hc]
  omega

variable (sys) in
theorem Puts.refl (c : UnisoCtx) : Puts sys c c := by
  refine ⟨rfl, Nat.le_refl _, Or.inl rfl, ?_, ?_⟩
  · rw [streamBytes, Nat.sub_self, take_zero, write_nil]
  · rw [Nat.sub_self, Nat.add_zero]

theorem Puts.trans (ha : FdInside a) (h : Puts sys a b) (h' : Puts sys b c) : Puts sys a c := by
  have hlen := streamBytes_length sys h.inside
  have hpos := h.pos
  have hpos' := h'.pos
  refine ⟨?_, hpos.trans hpos', ?_, ?_, ?_⟩
  · rw [h'.same, h.same]
  · rcases h.inside with hi | hi <;> rcases h'.inside with hi' | hi' <;> omega
  · rw [h'.fs, h.fs, h.fd, ← hlen, write_write ha, streamBytes_append sys h.pos h'.pos]
  · rw [h'.fd, h.fd]
    simp only [Prod.mk.injEq, true_and]
    omega

theorem Puts.of_advances (h : Advances c c') (hpos : c'.pos = c.pos) : Puts sys c c' := by
  obtain ⟨-, -, -, hfs, hfd⟩ := Puts.refl sys c
  refine ⟨?_, hpos.ge, Or.inl hpos, ?_, ?_⟩
  · rw [h]
  · rw [hpos, h]
    exact hfs
  · rw [hpos, h]
    exact hfd

theorem moveBytes_puts (h : moveBytes sys sys.splices c n = (.ok k, c')) (hk : k ≠ 0) :
    Puts sys c (spliceTo sys true c c') := by
  obtain ⟨hpos, -, hin, -⟩ := moveBytes_ok sys _ h
  have hadvance := advances_rule.moveBytes sys sys.splices c n
  rw [h] at hadvance
  simp only at hadvance
  have hin' : c'.pos ≤ sys.data.length := hin (by omega)
  refine ⟨?_, ?_, Or.inr hin', ?_, ?_⟩
  · simp only [spliceTo, if_true, putBytes]
    rw [hadvance]
  · show c.pos ≤ c'.pos
    omega
  · show (c'.fs.write c'.fd.1 c'.fd.2 _) = _
    rw [hadvance]
    rfl
  show (c'.fd.1, c'.fd.2 + (streamBytes sys c.pos c'.pos).length) = _
  rw [streamBytes_length sys (Or.inr hin')]
  have hfd : c'.fd = c.fd := by rw [hadvance]
  rw [hfd]
  rfl

theorem doSpliceLoop_puts : ∀ (left : ℤ) {c : UnisoCtx}, FdInside c →
    Puts sys c (doSpliceLoop sys true bytes n left c).2 := by
  induction n with
  | zero => intro left c _; exact .refl sys c
  | succ n ih =>
    intro left c hc
    rw [doSpliceLoop]
    by_cases hleft : left = 0
    · rw [if_pos hleft]
      exact .refl sys c
    rw [if_neg hleft]
    rcases hmove : moveBytes sys sys.splices c (if left < 0 then sys.data.length else left.toNat)
      with ⟨e | k, c'⟩
    · have hadvance := advances_rule.moveBytes sys sys.splices c (if left < 0 then sys.data.length else left.toNat)
      rw [hmove] at hadvance
      exact .of_advances hadvance (moveBytes_error sys _ hmove).2
    · simp only
      by_cases hk : k = 0
      · rw [if_pos hk]
        have hadvance := advances_rule.moveBytes sys sys.splices c (if left < 0 then sys.data.length else left.toNat)
        have hpos := (moveBytes_ok sys _ hmove).1
        rw [hmove] at hadvance
        exact .of_advances hadvance (by simp only; omega)
      · rw [if_neg hk]
        have hputs := moveBytes_puts hmove hk
        exact hputs.trans hc (ih _ (hputs.fdInside hc))

theorem doWriteLoop_writes : ∀ (buf : Bytes) {c : UnisoCtx}, buf.length ≤ n → FdInside c →
    0 ≤ (doWriteLoop sys bytes n buf c).1 →
    (doWriteLoop sys bytes n buf c).1 = bytes ∧
    (doWriteLoop sys bytes n buf c).2 = { putBytes c buf with
      calls := (doWriteLoop sys bytes n buf c).2.calls } := by
  have hempty : ∀ c : UnisoCtx, putBytes c [] = c := fun c => by
    simp [putBytes, write_nil]
  induction n with
  | zero =>
    intro buf c hn _ _
    obtain rfl := eq_nil_of_length_eq_zero (Nat.le_zero.1 hn)
    rw [hempty]
    exact ⟨rfl, rfl⟩
  | succ n ih =>
    intro buf c hn hc hres
    rw [doWriteLoop] at hres ⊢
    by_cases hbuf : buf = []
    · rw [hbuf, hempty]
      exact ⟨rfl, rfl⟩
    rw [if_neg hbuf] at hres ⊢
    cases hm : sys.writes c.calls with
    | error e =>
      simp only [hm, negErrno] at hres
      omega
    | ok m =>
      simp only [hm] at hres ⊢
      have hin : FdInside (putBytes { c with calls := c.calls + 1 } (buf.take (m + 1))) := by
        unfold FdInside at *
        simp only [putBytes, content_write, length_append]
        rw [length_take_of_le hc]
        omega
      obtain ⟨hr, heq⟩ := ih (buf.drop (m + 1)) (by rw [length_drop]; omega) hin hres
      refine ⟨hr, ?_⟩
      rw [heq]
      simp only [putBytes, write_write hc, take_append_drop]
      congr 2
      have hlen := congrArg List.length (take_append_drop (m + 1) buf)
      rw [length_append] at hlen
      omega

theorem copyLoop_puts : ∀ (left : ℕ) {c : UnisoCtx}, left ≤ n → FdInside c →
    0 ≤ (copyLoop sys bytes n left c).1 →
    Puts sys c (copyLoop sys bytes n left c).2 ∧ (copyLoop sys bytes n left c).2.pos = c.pos + left := by
  induction n with
  | zero =>
    intro left c hn _ _
    obtain rfl : left = 0 := by omega
    exact ⟨.refl sys c, rfl⟩
  | succ n ih =>
    intro left c hn hc hres
    rw [copyLoop] at hres ⊢
    by_cases hleft : (left : ℤ) = 0
    · rw [if_pos hleft]
      exact ⟨.refl sys c, by simp only; omega⟩
    simp only [hleft, if_false] at hres ⊢
    obtain ⟨now, hnow, hrequest, hle, -⟩ := request_eq hleft
    rw [hnow, hrequest] at hres ⊢
    have hgot := doRead_got sys c now
    have hadvance := advances_rule.doRead sys c now
    generalize doRead sys c now = p at *
    by_cases hr : p.1 ≤ 0
    · rw [if_pos hr] at hres
      have heio : -eio < 0 := by decide
      split_ifs at hres <;> simp only at hres <;> omega
    rw [if_neg hr] at hres ⊢
    have hmoved := hgot.moved (by omega)
    have hin : p.2.pos ≤ sys.data.length := by
      rcases hgot.inside with h | h <;> omega
    have hlen := streamBytes_length sys (p := c.pos) (Or.inr hin)
    have hc2 : FdInside p.2 := by
      rw [hadvance]
      exact hc
    by_cases hw : (doWrite sys p.2 (streamBytes sys c.pos p.2.pos)).1 ≠ p.1
    · rw [if_pos hw] at hres
      exfalso
      by_cases hneg : (doWrite sys p.2 (streamBytes sys c.pos p.2.pos)).1 < 0
      · rw [if_pos hneg] at hres
        omega
      · have hall := (doWriteLoop_writes (streamBytes sys c.pos p.2.pos) (Nat.le_refl _) hc2
          (not_lt.1 hneg)).1
        exact hw (hall.trans (by omega))
    rw [if_neg hw] at hres ⊢
    obtain ⟨-, hwritten⟩ := doWriteLoop_writes (streamBytes sys c.pos p.2.pos) (Nat.le_refl _) hc2
      (show 0 ≤ (doWrite sys p.2 (streamBytes sys c.pos p.2.pos)).1 by omega)
    rw [← doWrite] at hwritten
    set q := doWrite sys p.2 (streamBytes sys c.pos p.2.pos)
    have hputs : Puts sys c q.2 := by
      have hqpos : q.2.pos = p.2.pos := by rw [hwritten]; rfl
      refine ⟨?_, by omega, Or.inr (by omega), ?_, ?_⟩
      · rw [hwritten, hadvance]
        rfl
      · rw [hwritten]
        simp only [putBytes]
        rw [hadvance]
      · rw [hwritten]
        simp only [putBytes, hlen]
        rw [hadvance]
    have hqpos : q.2.pos = p.2.pos := by rw [hwritten]; rfl
    have hsub : (left : ℤ) - p.1 = ((left - (p.2.pos - c.pos) : ℕ) : ℤ) := by omega
    rw [hsub] at hres ⊢
    obtain ⟨hrest, hend⟩ := ih (left - (p.2.pos - c.pos)) (c := q.2) (by omega) (hputs.fdInside hc) hres
    exact ⟨hputs.trans hc hrest, by omega⟩

theorem doCopy_puts (hs : SplicesAlike sys) (hbytes : bytes < 2 ^ 31) (hc : FdInside c)
    (hres : (doCopy sys c bytes).1 = bytes) :
    Puts sys c (doCopy sys c bytes).2 ∧ (doCopy sys c bytes).2.pos = c.pos + bytes := by
  have hint : toInt32 bytes = bytes := toInt32_small (by omega) (by omega)
  unfold doCopy at hres ⊢
  have hfirst : Puts sys c (if c.copyMethod = 0 then doSplice sys true c bytes else (-1, c)).2 := by
    split_ifs
    · exact doSpliceLoop_puts _ hc
    · exact .refl sys c
  have hgot := firstSplice_got sys (c.copyMethod = 0) true c hbytes
  have hfails := firstSplice_fails hs (c.copyMethod = 0) true c hbytes
  generalize (if c.copyMethod = 0 then doSplice sys true c bytes else (-1, c)) = p at *
  by_cases hp : 0 ≤ p.1
  · rw [if_pos hp] at hres ⊢
    have hmoved := hgot.moved hp
    exact ⟨hfirst, by omega⟩
  rw [if_neg hp, hint] at hres ⊢
  have hmethod : Puts sys c { p.2 with copyMethod := 2 } :=
    ⟨by rw [hfirst.same], hfirst.pos, hfirst.inside, hfirst.fs, hfirst.fd⟩
  obtain ⟨hputs, hend⟩ := copyLoop_puts bytes (c := { p.2 with copyMethod := 2 }) (Nat.le_refl _)
    (hmethod.fdInside hc) (by rw [hres]; omega)
  exact ⟨hmethod.trans hc hputs, by rw [hend]; simp only; omega⟩

/-- the files of some paths hold what they should. A path that is none of them is as it was at the
start, and no file of theirs has another path. -/
structure Filed (fs₀ fs : UnisoFs) (done : List (Bytes × Bytes)) : Prop where
  next : fs₀.next ≤ fs.next
  free : ∀ path, path ∉ done.map Prod.fst → fs.inode path = fs₀.inode path
  held : ∀ f ∈ done, ∃ k, fs.inode f.1 = some k ∧ fs.content k = f.2 ∧
    ∀ path, path ∉ done.map Prod.fst → fs₀.inode path ≠ some k

/-- no file has two paths -/
def NoLinks (fs : UnisoFs) : Prop := ∀ p q k, fs.inode p = some k → fs.inode q = some k → p = q

theorem Filed.read (h : Filed fs₀ fs done) (hf : f ∈ done) : fs.read f.1 = some f.2 := by
  obtain ⟨k, hk, hcontent, -⟩ := h.held f hf
  rw [UnisoFs.read, hk, Option.map_some, hcontent]

theorem Filed.add {fs' : UnisoFs} {content : Bytes} (h : Filed fs₀ fs done)
    (hpath : path ∉ done.map Prod.fst) (hnext : fs.next ≤ fs'.next)
    (hfree : ∀ q, q ≠ path → fs'.inode q = fs.inode q) (hinode : fs'.inode path = some k)
    (hcontent : fs'.content k = content) (hother : ∀ q, q ≠ path → q ∉ done.map Prod.fst → fs₀.inode q ≠ some k)
    (hkept : ∀ f ∈ done, ∀ j, fs.inode f.1 = some j → fs.content j = f.2 → fs'.content j = f.2) :
    Filed fs₀ fs' ((path, content) :: done) := by
  have hnot : ∀ {q}, q ∉ ((path, content) :: done).map Prod.fst → q ≠ path ∧ q ∉ done.map Prod.fst :=
    fun hq => not_or.1 fun hmem => hq (mem_cons.2 hmem)
  refine ⟨h.next.trans hnext, fun q hq => ?_, fun f hf => ?_⟩
  · rw [hfree q (hnot hq).1]
    exact h.free q (hnot hq).2
  rcases mem_cons.1 hf with rfl | hf
  · exact ⟨k, hinode, hcontent, fun q hq => hother q (hnot hq).1 (hnot hq).2⟩
  · obtain ⟨j, hj, hcontent', hother'⟩ := h.held f hf
    have hne : f.1 ≠ path := fun hp => hpath (hp ▸ mem_map_of_mem hf)
    exact ⟨j, (hfree _ hne).trans hj, hkept f hf j hj hcontent', fun q hq => hother' q (hnot hq).2⟩

theorem Filed.create (h : Filed fs₀ fs done) (hlinks : NoLinks fs₀)
    (hpath : path ∉ done.map Prod.fst) (b : Bytes) :
    Filed fs₀ ((fs.create path).1.setContent (fs.create path).2 b) ((path, b) :: done) := by
  have hfree := h.free path hpath
  unfold UnisoFs.create
  match hinode : fs.inode path with
  | some k =>
    rw [hinode] at hfree
    refine h.add hpath (Nat.le_refl _) (fun _ _ => rfl) hinode (Function.update_self _ _ _) ?_ ?_
    · intro q hq _ hk
      exact hq (hlinks q path k hk hfree.symm)
    intro f hf j hj hcontent
    obtain ⟨i, hi, -, hother⟩ := h.held f hf
    have hne : j ≠ k := by
      rintro rfl
      exact hother path hpath (hfree.symm.trans (hj.symm.trans hi))
    simp only [UnisoFs.setContent]
    rw [Function.update_of_ne hne, Function.update_of_ne hne, hcontent]
  | none =>
    refine h.add hpath (Nat.le_succ _) (fun q hq => Function.update_of_ne hq _ _)
      (Function.update_self _ _ _) (Function.update_self _ _ _) ?_ ?_
    · intro q _ _ hk
      exact absurd (fs₀.used q _ hk) (not_lt.2 h.next)
    intro f _ j hj hcontent
    have hne : j ≠ fs.next := (fs.used _ _ hj).ne
    simp only [UnisoFs.setContent, UnisoFs.add]
    rw [Function.update_of_ne hne, Function.update_of_ne hne, hcontent]

theorem Filed.link (h : Filed fs₀ fs done) (hf : f ∈ done) (hinode : fs.inode f.1 = some k)
    (hk : k < fs.next) (hpath : path ∉ done.map Prod.fst) :
    Filed fs₀ (fs.link hk path) ((path, f.2) :: done) := by
  obtain ⟨j, hj, hcontent, hother⟩ := h.held f hf
  obtain rfl : k = j := Option.some.inj (hinode.symm.trans hj)
  exact h.add hpath (Nat.le_refl _) (fun q hq => Function.update_of_ne hq _ _)
    (Function.update_self _ _ _) hcontent (fun q _ => hother q) fun _ _ _ _ hc => hc

/-- files are opened, and reads and writes of files are whole -/
structure WholeCalls (sys : UnisoSys) : Prop where
  opens : ∀ n, sys.opens n = .ok ()
  reads : ∀ n, ∃ m, sys.reads n = .ok m ∧ isofsTmpbufSize ≤ m + 1
  writes : ∀ n, ∃ m, sys.writes n = .ok m ∧ isofsTmpbufSize ≤ m + 1

theorem cloneLoop_clones (hcalls : WholeCalls sys) {src dst : ℕ} (hne : dst ≠ src) :
    ∀ (bytes p : ℕ) (c : UnisoCtx), bytes ≤ n → (c.fs.content src).length = p + bytes →
      c.fs.content dst = (c.fs.content src).take p →
      ∃ calls buf, cloneLoop sys src dst n bytes p p c = { c with
        calls := calls, cloneBuf := buf, fs := c.fs.setContent dst (c.fs.content src) } := by
  induction n with
  | zero =>
    intro bytes p c hn hlen hdst
    have hall : c.fs.content dst = c.fs.content src := by
      rw [hdst, take_of_length_le (by omega)]
    refine ⟨c.calls, c.cloneBuf, ?_⟩
    simp [cloneLoop, setContent, ← hall]
  | succ n ih =>
    intro bytes p c hn hlen hdst
    rw [cloneLoop]
    by_cases hzero : bytes = 0
    · have hall : c.fs.content dst = c.fs.content src := by
        rw [hdst, take_of_length_le (by omega)]
      refine ⟨c.calls, c.cloneBuf, ?_⟩
      rw [if_pos hzero]
      simp [setContent, ← hall]
    rw [if_neg hzero]
    obtain ⟨m, hm, hmsize⟩ := hcalls.reads c.calls
    obtain ⟨w, hw, hwsize⟩ := hcalls.writes (c.calls + 1)
    set now := min bytes isofsTmpbufSize with hnow
    have hpos : 0 < now := by
      have : 0 < isofsTmpbufSize := by decide
      omega
    simp only [hm, hw, min_eq_right (show now ≤ m + 1 by omega), min_eq_right (show now ≤ w + 1 by omega)]
    set got := ((c.fs.content src).drop p).take now with hgotdef
    have hgotlen : got.length = now := by
      rw [length_take, length_drop]
      omega
    have hput : (List.range now).map (fun i => got.getD i (c.cloneBuf i)) = got := by
      apply ext_getElem
      · rw [length_map, length_range, hgotlen]
      · intro i h1 h2
        rw [getElem_map, getElem_range, getD_eq_getElem?_getD, List.getElem?_eq_getElem h2,
          Option.getD_some]
    rw [hput, hgotlen]
    have htake : (c.fs.content src).take p ++ got = (c.fs.content src).take (p + now) := by
      rw [take_add]
    have hcontent : (c.fs.write dst p got).content dst = (c.fs.content src).take (p + now) := by
      have hp : ((c.fs.content src).take p).length = p := length_take_of_le (by omega)
      rw [content_write, hdst, take_of_length_le hp.le, htake, drop_of_length_le (by omega),
        append_nil]
    have hsrc : (c.fs.write dst p got).content src = c.fs.content src :=
      update_of_ne (Ne.symm hne) _ _
    obtain ⟨calls, buf, hrest⟩ := ih (bytes - now) (p + now)
      { c with calls := c.calls + 2, cloneBuf := fun i => got.getD i (c.cloneBuf i),
               fs := c.fs.write dst p got }
      (by omega) (by rw [hsrc]; omega) (by rw [hsrc]; exact hcontent)
    refine ⟨calls, buf, ?_⟩
    rw [hrest]
    simp only [hsrc]
    congr 1
    apply ext_fields
    · rfl
    · simp [write, setContent]
    · rfl

variable (path) in
theorem linkOrClone_files
    (hcalls : sys.links c.calls = true ∧ c.fs.inode path = none ∨ WholeCalls sys) (hlinks : NoLinks fs₀)
    (h : Filed fs₀ c.fs done) (hf : f ∈ done) (hpath : path ∉ done.map Prod.fst) :
    Filed fs₀ (linkOrClone sys c f.1 path f.2.length).fs ((path, f.2) :: done) ∧
      ∃ calls buf fs, linkOrClone sys c f.1 path f.2.length =
        { c with calls := calls, cloneBuf := buf, fs := fs } := by
  obtain ⟨k, hinode, hcontent, hother⟩ := h.held f hf
  unfold linkOrClone
  split
  · next hnone =>
    rw [hinode] at hnone
    cases hnone
  next j hj =>
  obtain rfl : k = j := Option.some.inj (hinode.symm.trans hj)
  split_ifs with hlink
  · exact ⟨h.link hf hinode (c.fs.used _ _ hinode) hpath, _, _, _, rfl⟩
  replace hcalls := hcalls.resolve_left hlink
  simp only [hcalls.opens]
  have hne : (c.fs.create path).2 ≠ k := by
    have hfree := h.free path hpath
    unfold create
    cases hp : c.fs.inode path with
    | some i =>
      intro hik
      simp only at hik
      exact hother path hpath (by rw [← hfree, hp, hik])
    | none => exact (c.fs.used _ _ hinode).ne'
  have hsrc : (c.fs.create path).1.content k = f.2 := by
    unfold create at hne ⊢
    cases hp : c.fs.inode path with
    | some i =>
      rw [hp] at hne
      exact (update_of_ne (Ne.symm hne) _ _).trans hcontent
    | none =>
      rw [hp] at hne
      exact (update_of_ne (Ne.symm hne) _ _).trans hcontent
  have hdst : (c.fs.create path).1.content (c.fs.create path).2 = [] := by
    unfold create
    split <;> exact update_self _ _ _
  obtain ⟨calls, buf, hclone⟩ := cloneLoop_clones hcalls hne f.2.length 0
    { c with calls := c.calls + 3, fs := (c.fs.create path).1 } (Nat.le_refl _)
    (by simp only [hsrc]; omega) (by simp [hdst])
  rw [hclone]
  simp only [hsrc]
  exact ⟨h.create hlinks hpath f.2, _, _, _, rfl⟩

end Alpine

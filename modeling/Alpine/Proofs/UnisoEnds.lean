import Alpine.Sanity.Fuel
import Alpine.Sanity.Uniso

/-! `uniso` returns for images that are whole: the volume descriptors come to their end within the
stream, and so does every directory that is read. A directory that is read takes bytes from the
stream, and only directories queue readers. Where the stream ends among the descriptors the last one
is looked at again for ever. -/

namespace Alpine

open List

variable (sys : UnisoSys)

def UnisoCtx.left (c : UnisoCtx) : ℕ := sys.data.length - c.pos

variable {c c' : UnisoCtx} {p : ℤ × UnisoCtx} {n : ℕ} {rd : UnisoReader}

theorem Forward.left_le (h : Forward c c') : c'.left sys ≤ c.left sys :=
  Nat.sub_le_sub_left h.pos _

variable {bytes i k : ℕ} {blocks data name : Bytes} {mem : ℕ → UInt8}

theorem Got.left_lt (h : Got sys c bytes bytes p) (hpos : 0 < p.1) : p.2.left sys < c.left sys := by
  have hmoved := (h.moved hpos.le).1
  have hinside := h.inside
  unfold UnisoCtx.left
  omega

theorem skipReadLoop_drains (hn : 0 < n)
    (hres : (skipReadLoop sys isofsTmpbufSize n isofsTmpbufSize c).1 = isofsTmpbufSize) :
    (skipReadLoop sys isofsTmpbufSize n isofsTmpbufSize c).2.left sys < c.left sys := by
  obtain ⟨n, rfl⟩ : ∃ k, n = k + 1 := ⟨n - 1, by omega⟩
  have hsize : ¬ (isofsTmpbufSize : ℤ) = 0 := by decide
  have hrequest : (if (isofsTmpbufSize : ℤ) < 0 then 2 ^ 31 else (isofsTmpbufSize : ℤ).toNat) =
      isofsTmpbufSize := by decide
  simp only [skipReadLoop, hsize, if_false, lt_irrefl, hrequest] at hres ⊢
  have hgot := doRead_got sys c isofsTmpbufSize
  generalize doRead sys c isofsTmpbufSize = p at *
  by_cases hneg : p.1 < 0
  · simp only [hneg, if_true] at hres
    omega
  by_cases hzero : p.1 = 0
  · rw [if_neg hneg, if_pos hzero] at hres
    exact absurd hres (show toInt32 (isofsTmpbufSize - isofsTmpbufSize) ≠ isofsTmpbufSize by decide)
  · simp only [hneg, hzero]
    exact lt_of_le_of_lt ((forward_rule.skipReadLoop sys _ _ _ _).left_le sys) (hgot.left_lt sys (by omega))

theorem doSkip_drains (hskip : c.skipMethod ≠ 0)
    (hres : (doSkip sys c isofsTmpbufSize).1 = isofsTmpbufSize) :
    (doSkip sys c isofsTmpbufSize).2.left sys < c.left sys := by
  have hsize : isofsTmpbufSize < 2 ^ 31 := by decide
  rw [doSkip, if_neg hskip, skipSplice] at hres ⊢
  have hgot := firstSplice_got sys (c.skipMethod = 1) false c hsize
  generalize (if c.skipMethod = 1 then doSplice sys false c isofsTmpbufSize else (-1, c)) = p at *
  by_cases hp : 0 ≤ p.1
  · rw [if_pos hp] at hres ⊢
    exact hgot.left_lt sys (by rw [hres]; decide)
  rw [if_neg hp] at hres ⊢
  have hpos : c.pos ≤ p.2.pos := by
    rcases hgot.inside with h | h <;> omega
  exact (skipReadLoop_drains sys (by decide) hres).trans_le (Nat.sub_le_sub_left hpos _)

theorem drainLoop_returns (n : ℕ) : ∀ c : UnisoCtx, c.skipMethod ≠ 0 → c.left sys < n →
    ∃ c', drainLoop sys n c = some c' := by
  induction n with
  | zero => intro c _ h; omega
  | succ n ih =>
    intro c hskip hleft
    simp only [drainLoop]
    split_ifs with hres
    · have hlt := doSkip_drains sys hskip hres
      exact ih _ ((forward_rule.doSkip sys c _).method hskip) (by omega)
    · exact ⟨_, rfl⟩

def NoVolume (c : UnisoCtx) : Prop := ∀ rd ∈ c.parserHead, rd.handler ≠ .volumeDescriptor

theorem Forward.noVolume (h : Forward c c') (hc : NoVolume c) : NoVolume c' := by
  rw [NoVolume, h.queue]
  exact hc

theorem queueReader_noVolume (h : NoVolume c) (hrd : rd.handler ≠ .volumeDescriptor) :
    NoVolume (queueReader c rd).2 := by
  unfold queueReader
  split_ifs
  · exact h
  · intro r hr
    rcases mem_append.1 hr with hr | hr
    · exact h r hr
    · rw [mem_singleton.1 hr]
      exact hrd
  intro r hr
  simp only [listAddSorted, mem_append, mem_cons] at hr
  rcases hr with hr | rfl | hr
  · exact h r ((List.rdropWhile_prefix _ _).subset hr)
  · exact hrd
  · exact h r ((rtakeWhile_suffix _ _).subset hr)

theorem queueDirent_noVolume (h : NoVolume c) {ide : ℕ → UInt8} :
    NoVolume (queueDirent sys c ide name).2 := by
  apply queueReader_noVolume
  · exact h
  · split_ifs <;> simp

theorem queueReader_pos : (queueReader c rd).2.pos = c.pos := by
  unfold queueReader
  split_ifs <;> rfl

theorem directoryLoop_queues {size : ℕ} : ∀ (offs : ℕ) (c : UnisoCtx), NoVolume c →
      NoVolume (directoryLoop sys name mem size n offs c) ∧
        (directoryLoop sys name mem size n offs c).pos = c.pos := by
  induction n with
  | zero => intro offs c h; exact ⟨h, rfl⟩
  | succ n ih =>
    intro offs c h
    simp only [directoryLoop]
    split_ifs
    · exact ih _ _ h
    · exact ih _ _ h
    · obtain ⟨hqueue, hpos⟩ := ih (offs + ((mem offs).toNat + 1) / 2 * 2) _ (queueDirent_noVolume sys h)
      exact ⟨hqueue, hpos.trans queueReader_pos⟩
    · exact ⟨h, rfl⟩

/-- a block of the stream that ends the volume descriptors: their terminator, or something else -/
def EndsVolume (p : ℕ) : Prop :=
  let block := fun i => sys.data.getD (p + i) 0
  hasStandardId block = false ∨ block 0 = isofsVdEnd

/-- the path of a directory and those of its records fit the buffer in which they are put together -/
def PathsFit (c : UnisoCtx) (rd : UnisoReader) : Prop :=
  rd.name.length + 1 < 512 ∧ ∀ mem, sys.heap c.calls = some mem →
    pathsFit sys c.jolietLevel rd.name (readTo sys mem c.pos (c.pos + rd.size)) rd.size rd.size 0 = true

/-- what a reader finds in the stream from a position on: the descriptors have an end there, and a
directory has all its bytes, with paths that fit -/
def ReadsWhole (c : UnisoCtx) (rd : UnisoReader) : Prop :=
  match rd.handler with
  | .volumeDescriptor => ∃ k, c.pos + (k + 1) * isofsBlockSize ≤ sys.data.length ∧
      EndsVolume sys (c.pos + k * isofsBlockSize)
  | .directory => rd.size ≤ sys.data.length - c.pos ∧ PathsFit sys c rd
  | .file => True

def UnisoStep (c c' : UnisoCtx) : Prop :=
  ∃ rd queue n, c.parserHead = rd :: queue ∧
    unisoRound sys n { c with parserHead := queue } rd = some (0, c')

/-- every reader that the loop comes to finds what it reads -/
def WholeImage : Prop :=
  ∀ c, Relation.ReflTransGen (UnisoStep sys) (unisoInit sys) c → ∀ rd queue, c.parserHead = rd :: queue →
    let p := skipTo sys { c with parserHead := queue } rd
    0 ≤ p.1 → ReadsWhole sys p.2 rd

theorem readTo_block {p : ℕ} (hi : i < isofsBlockSize) :
    readTo sys mem p (p + isofsBlockSize) i = sys.data.getD (p + i) 0 := by
  rw [readTo, if_pos (by omega)]

theorem hasStandardId_congr {f g : ℕ → UInt8} (h : ∀ i < isofsBlockSize, f i = g i) :
    hasStandardId f = hasStandardId g := by
  simp [hasStandardId, h _ (by decide : 1 < isofsBlockSize), h _ (by decide : 2 < isofsBlockSize),
    h _ (by decide : 3 < isofsBlockSize), h _ (by decide : 4 < isofsBlockSize),
    h _ (by decide : 5 < isofsBlockSize)]

theorem volumeSwitch_pos (buf : ℕ → UInt8) (c : UnisoCtx) (rootDir : ℕ → UInt8) :
    (volumeSwitch buf c rootDir).1.pos = c.pos := by
  unfold volumeSwitch
  split_ifs <;> rfl

theorem volumeLoop_returns : ∀ (buf rootDir : ℕ → UInt8) (c : UnisoCtx),
    c.pos + (k + 1) * isofsBlockSize ≤ sys.data.length → EndsVolume sys (c.pos + k * isofsBlockSize) →
    ∃ p, volumeLoop sys (k + 1) buf rootDir c = some p := by
  induction k with
  | zero =>
    intro buf rootDir c hin hend
    rw [Nat.one_mul] at hin
    rw [Nat.zero_mul, Nat.add_zero] at hend
    simp only [volumeLoop]
    by_cases hneg : (doRead sys c isofsBlockSize).1 < 0
    · exact ⟨_, if_pos hneg⟩
    rw [if_neg hneg, (doRead_whole sys hin hneg).2]
    -- the block that was read is the one that ends them
    have hblock : ∀ i < isofsBlockSize, readTo sys buf c.pos (c.pos + isofsBlockSize) i =
        sys.data.getD (c.pos + i) 0 := fun i hi => readTo_block sys hi
    rcases hend with hid | htype
    · rw [hasStandardId_congr hblock, hid]
      exact ⟨_, rfl⟩
    · rw [if_pos ((hblock 0 (by decide)).trans htype)]
      split_ifs <;> exact ⟨_, rfl⟩
  | succ k ih =>
    intro buf rootDir c hin hend
    rw [Nat.add_mul] at hin hend
    rw [volumeLoop]
    simp only
    by_cases hneg : (doRead sys c isofsBlockSize).1 < 0
    · exact ⟨_, if_pos hneg⟩
    have hpos := (doRead_whole sys (show c.pos + isofsBlockSize ≤ sys.data.length by omega) hneg).2
    split_ifs
    · exact ⟨_, rfl⟩
    · exact ⟨_, rfl⟩
    refine ih _ _ _ ?_ ?_
    · rw [volumeSwitch_pos]
      omega
    · rw [volumeSwitch_pos, hpos]
      rwa [Nat.add_assoc, Nat.add_comm isofsBlockSize]

theorem volumeLoop_noVolume : ∀ (buf rootDir : ℕ → UInt8) {c : UnisoCtx} {p : ℤ × UnisoCtx},
    NoVolume c → volumeLoop sys n buf rootDir c = some p → NoVolume p.2 := by
  induction n with
  | zero => intro buf rootDir c p _ h; cases h
  | succ n ih =>
    intro buf rootDir c p hc h
    have hread := (forward_rule.doRead sys c isofsBlockSize).noVolume hc
    have hswitch : ∀ buf, NoVolume (volumeSwitch buf (doRead sys c isofsBlockSize).2 rootDir).1 := by
      intro buf
      unfold volumeSwitch
      split_ifs <;> exact hread
    simp only [volumeLoop] at h
    split_ifs at h
    · rw [← Option.some.inj h]
      exact hread
    · rw [← Option.some.inj h]
      exact hread
    · rw [← Option.some.inj h]
      exact queueDirent_noVolume sys (hswitch _)
    · exact ih _ _ (hswitch _) h

/-- what a reader leaves: less of the stream, or no more in the queue -/
def Lessened (c c' : UnisoCtx) : Prop :=
  NoVolume c' ∧ (c'.left sys < c.left sys ∨
    c'.left sys ≤ c.left sys ∧ c'.parserHead.length ≤ c.parserHead.length)

theorem Forward.lessened (h : Forward c c') (hc : NoVolume c) : Lessened sys c c' :=
  ⟨h.noVolume hc, Or.inr ⟨h.left_le sys, (congrArg List.length h.queue).le⟩⟩

theorem Lessened.after {d : UnisoCtx} (h : Lessened sys c' d) (hf : Forward c c') : Lessened sys c d := by
  have hle := hf.left_le sys
  have hlen := congrArg List.length hf.queue
  refine ⟨h.1, ?_⟩
  rcases h.2 with h | h
  · exact Or.inl (by omega)
  · exact Or.inr ⟨by omega, by omega⟩

theorem unisoReadDirectory_lessened (hc : NoVolume c) (hwhole : rd.size ≤ sys.data.length - c.pos)
    (hfit : PathsFit sys c rd) : ∃ p, unisoReadDirectory sys c rd = some p ∧ Lessened sys c p.2 := by
  unfold unisoReadDirectory
  split
  · exact ⟨_, rfl, (Forward.refl c).lessened sys hc⟩
  next mem hmem =>
  have hforward := (forward_called c).trans
    (forward_rule.doRead sys { c with calls := c.calls + 1 } rd.size)
  simp only
  by_cases hneg : (doRead sys { c with calls := c.calls + 1 } rd.size).1 < 0
  · exact ⟨_, if_pos hneg, hforward.lessened sys hc⟩
  rw [if_neg hneg]
  by_cases hsize : rd.size = 0
  · rw [hsize] at hforward ⊢
    exact ⟨_, if_pos ⟨hfit.1, rfl⟩, hforward.lessened sys hc⟩
  have hin : c.pos + rd.size ≤ sys.data.length := by omega
  have hpos := (doRead_whole sys (c := { c with calls := c.calls + 1 }) hin hneg).2
  obtain ⟨hqueue, hkept⟩ := directoryLoop_queues sys 0 _ (hforward.noVolume hc)
  refine ⟨_, if_pos ⟨hfit.1, by rw [hpos]; exact hfit.2 mem hmem⟩, hqueue, Or.inl ?_⟩
  rw [UnisoCtx.left, hkept, hpos]
  show sys.data.length - (c.pos + rd.size) < sys.data.length - c.pos
  omega

theorem unisoRound_lessened (hrd : rd.handler ≠ .volumeDescriptor) (hc : NoVolume c)
    (hwhole : 0 ≤ (skipTo sys c rd).1 → ReadsWhole sys (skipTo sys c rd).2 rd) :
    ∃ p, (∀ n, unisoRound sys n c rd = some p) ∧ Lessened sys c p.2 := by
  have hforward := forward_rule.skipTo sys c rd
  unfold unisoRound
  generalize skipTo sys c rd = p at *
  by_cases hneg : p.1 < 0
  · exact ⟨p, fun n => if_pos hneg, hforward.lessened sys hc⟩
  simp only [hneg, if_false]
  have hp := hforward.noVolume hc
  have hreads := hwhole (by omega)
  unfold ReadsWhole at hreads
  match hhandler : rd.handler with
  | .volumeDescriptor => exact absurd hhandler hrd
  | .directory =>
    rw [hhandler] at hreads
    obtain ⟨q, hq, hless⟩ := unisoReadDirectory_lessened sys hp hreads.1 hreads.2
    exact ⟨q, fun n => by rw [unisoHandle, hhandler]; exact hq, hless.after sys hforward⟩
  | .file =>
    exact ⟨_, fun n => by rw [unisoHandle, hhandler],
      ((unisoReadFile_forward sys).lessened sys hp).after sys hforward⟩

theorem unisoLoop_returns (hwhole : WholeImage sys) (left queue : ℕ) : ∀ c : UnisoCtx, NoVolume c →
    Relation.ReflTransGen (UnisoStep sys) (unisoInit sys) c → c.left sys = left → c.parserHead.length = queue →
    ∃ n p, unisoLoop sys n c = some p := by
  induction left using Nat.strong_induction_on generalizing queue with
  | _ left ihleft =>
    induction queue using Nat.strong_induction_on with
    | _ queue ihqueue =>
      intro c hc hreach hleft hqueue
      match hhead : c.parserHead with
      | [] =>
        by_cases hskip : c.skipMethod = 0
        · exact ⟨1, (0, c), by rw [unisoLoop, hhead]; exact if_pos hskip⟩
        obtain ⟨c', hdrain⟩ := drainLoop_returns sys (left + 1) c hskip (by omega)
        refine ⟨left + 2, (0, c'), ?_⟩
        rw [unisoLoop, hhead]
        simp [hskip, hdrain]
      | rd :: rest =>
        rw [hhead] at hqueue
        obtain ⟨p, hround, hnone, hless⟩ := unisoRound_lessened sys
          (hc rd (by rw [hhead]; exact mem_cons_self))
          (fun r hr => hc r (by rw [hhead]; exact mem_cons_of_mem _ hr))
          (hwhole c hreach rd rest hhead)
        by_cases hp : p.1 = 0
        · have hstep : UnisoStep sys c p.2 := ⟨rd, rest, 0, hhead, by rw [hround, ← hp]⟩
          have hrest : ∃ n q, unisoLoop sys n p.2 = some q := by
            have hreach' := hreach.tail hstep
            rcases hless with hless | ⟨hle, hlen⟩
            · exact ihleft _ (hleft ▸ hless) _ p.2 hnone hreach' rfl rfl
            · rcases Nat.lt_or_eq_of_le hle with hlt | heq
              · exact ihleft _ (hleft ▸ hlt) _ p.2 hnone hreach' rfl rfl
              · exact ihqueue _ (hqueue ▸ Nat.lt_succ_of_le hlen) p.2 hnone hreach' (heq.trans hleft) rfl
          obtain ⟨n, q, hq⟩ := hrest
          refine ⟨n + 1, q, ?_⟩
          rw [unisoLoop, hhead]
          simp only [hround]
          rw [if_neg (by simpa using hp), hq]
        refine ⟨1, p, ?_⟩
        rw [unisoLoop, hhead]
        simp only [hround]
        rw [if_pos hp]

section

open Fuel

variable (j : ℕ) (c : UnisoCtx)

theorem volumeLoop_le (buf rootDir : ℕ → UInt8) :
    Le (volumeLoop sys n buf rootDir c) (volumeLoop sys (n + j) buf rootDir c) := by
  induction n generalizing buf rootDir c with
  | zero => exact Le.none _
  | succ n ih =>
    rw [Nat.succ_add]
    exact Le.ite _ (Le.refl _) (Le.ite _ (Le.refl _) (Le.ite _ (Le.refl _) (ih _ _ _)))

theorem drainLoop_le : Le (drainLoop sys n c) (drainLoop sys (n + j) c) := by
  induction n generalizing c with
  | zero => exact Le.none _
  | succ n ih =>
    rw [Nat.succ_add]
    exact Le.ite _ (ih _) (Le.refl _)

theorem unisoRound_le : Le (unisoRound sys n c rd) (unisoRound sys (n + j) c rd) := by
  refine Le.ite _ (Le.refl _) ?_
  unfold unisoHandle
  match rd.handler with
  | .volumeDescriptor => exact volumeLoop_le sys j _ _ _
  | .directory | .file => exact Le.refl _

theorem unisoLoop_le : Le (unisoLoop sys n c) (unisoLoop sys (n + j) c) := by
  induction n generalizing c with
  | zero => exact Le.none _
  | succ n ih =>
    rw [Nat.succ_add, unisoLoop, unisoLoop]
    match c.parserHead with
    | [] => exact Le.ite _ (Le.refl _) (Le.map _ (drainLoop_le sys j c))
    | rd :: rest =>
      intro p h
      match hround : unisoRound sys n { c with parserHead := rest } rd with
      | none =>
        simp only [hround] at h
        cases h
      | some q =>
        simp only [hround, unisoRound_le sys j _ q hround] at h ⊢
        exact Le.ite _ (Le.refl _) (ih _) p h

end

def volumeReader : UnisoReader := ⟨16 * isofsBlockSize, .volumeDescriptor, 0, []⟩

theorem unisoInit_head : (unisoInit sys).parserHead = [volumeReader] := rfl

/-- `uniso` returns for an image in which all that is read is there -/
theorem uniso_terminates (hwhole : WholeImage sys) : ∃ n r, uniso sys n = some r := by
  have hc : NoVolume { unisoInit sys with parserHead := [] } := fun rd hrd => absurd hrd not_mem_nil
  have hskip := forward_rule.skipTo sys { unisoInit sys with parserHead := [] } volumeReader
  have hreads := hwhole (unisoInit sys) .refl volumeReader [] (unisoInit_head sys)
  -- the round of the descriptors
  obtain ⟨k, p, hround, hnone⟩ : ∃ k p,
      unisoRound sys k { unisoInit sys with parserHead := [] } volumeReader = some p ∧ NoVolume p.2 := by
    simp only [unisoRound] at hreads ⊢
    by_cases hneg : (skipTo sys { unisoInit sys with parserHead := [] } volumeReader).1 < 0
    · exact ⟨0, _, if_pos hneg, hskip.noVolume hc⟩
    obtain ⟨k, hin, hend⟩ := hreads (not_lt.1 hneg)
    obtain ⟨p, hp⟩ := volumeLoop_returns sys sys.buf sys.rootDir _ hin hend
    exact ⟨k + 1, p, by rw [if_neg hneg]; exact hp, volumeLoop_noVolume sys _ _ (hskip.noVolume hc) hp⟩
  obtain ⟨n, q, hq⟩ : ∃ n q, unisoLoop sys n (unisoInit sys) = some q := by
    by_cases hp : p.1 = 0
    · have hstep : UnisoStep sys (unisoInit sys) p.2 := ⟨volumeReader, [], k, (unisoInit_head sys), by rw [hround, ← hp]⟩
      obtain ⟨n, q, hq⟩ := unisoLoop_returns sys hwhole _ _ p.2 hnone (.single hstep) rfl rfl
      refine ⟨k + n + 1, q, ?_⟩
      rw [unisoLoop, unisoInit_head]
      simp only [unisoRound_le sys n _ p hround]
      rw [if_neg (by simpa using hp), Nat.add_comm]
      exact unisoLoop_le sys k p.2 q hq
    refine ⟨k + 1, p, ?_⟩
    rw [unisoLoop, unisoInit_head]
    simp only [hround]
    rw [if_pos hp]
  exact ⟨n, q.1, by rw [uniso, hq, Option.map_some]⟩

def emptyFs : UnisoFs := ⟨fun _ => none, fun _ => [], 0, fun _ _ h => by cases h⟩

/-- a system that moves all that is asked for, on a stream that can seek, in an empty directory -/
def plainSys (data : Bytes) (rootDir : ℕ → UInt8) : UnisoSys where
  data := data
  reads _ := .ok (2 ^ 20)
  splices _ := .ok (2 ^ 20)
  writes _ := .ok (2 ^ 20)
  opens _ := .ok ()
  allocates _ := .ok ()
  links _ := true
  fs := emptyFs
  wctomb _ := none
  seeks := true
  heap _ := some fun _ => 0
  buf _ := 0
  rootDir := rootDir
  diskFree := 0
  blockSize := 4096

theorem moveBytes_plain {rootDir : ℕ → UInt8} :
    moveBytes (plainSys data rootDir) (plainSys data rootDir).reads c isofsBlockSize =
      (.ok (min isofsBlockSize (data.length - c.pos)),
        { c with pos := c.pos + min isofsBlockSize (data.length - c.pos), calls := c.calls + 1 }) := by
  have hmin : min (2 ^ 20 + 1) (min isofsBlockSize (data.length - c.pos)) =
      min isofsBlockSize (data.length - c.pos) :=
    min_eq_right ((Nat.min_le_left _ _).trans (by decide))
  simp only [moveBytes, plainSys, hmin]

theorem doReadLoop_zero : doReadLoop sys bytes n 0 c = ((bytes : ℤ), c) := by
  cases n with
  | zero => simp [doReadLoop]
  | succ n => rw [doReadLoop, if_pos rfl]

theorem doRead_plain (data : Bytes) (rootDir : ℕ → UInt8) (c : UnisoCtx) :
    (c.pos + isofsBlockSize ≤ data.length → doRead (plainSys data rootDir) c isofsBlockSize =
        ((isofsBlockSize : ℤ), { c with pos := c.pos + isofsBlockSize, calls := c.calls + 1 })) ∧
      (data.length ≤ c.pos → doRead (plainSys data rootDir) c isofsBlockSize =
        ((0 : ℤ), { c with calls := c.calls + 1 })) := by
  have hblock : isofsBlockSize ≠ 0 := by decide
  have hloop : doRead (plainSys data rootDir) c isofsBlockSize =
      doReadLoop (plainSys data rootDir) isofsBlockSize (2047 + 1) isofsBlockSize c := by
    rw [doRead, if_neg (by decide)]
    rfl
  rw [hloop, doReadLoop, if_neg hblock, moveBytes_plain]
  constructor
  · intro hin
    rw [min_eq_left (by omega)]
    simp [hblock, doReadLoop_zero]
  · intro hend
    rw [Nat.sub_eq_zero_of_le hend]
    simp

/-- at the end of the stream the descriptor in memory is looked at again and again -/
theorem volumeLoop_stuck {root : ℕ → UInt8} (n : ℕ) : ∀ {buf rootDir : ℕ → UInt8} {c : UnisoCtx},
    data.length ≤ c.pos → hasStandardId buf = true → buf 0 ≠ isofsVdEnd →
    volumeLoop (plainSys data root) n buf rootDir c = none := by
  induction n with
  | zero => intro buf rootDir c _ _ _; rfl
  | succ n ih =>
    intro buf rootDir c hend hid htype
    have hbuf : readTo (plainSys data root) buf c.pos c.pos = buf := by
      funext i
      rw [readTo, if_neg (by omega)]
    simp only [volumeLoop, (doRead_plain data root c).2 hend, hbuf, hid, htype]
    exact ih (by rw [volumeSwitch_pos]; exact hend) hid htype

/-- blocks behind the sixteen that are not looked at -/
def imageOf (blocks : Bytes) : Bytes := List.replicate (16 * isofsBlockSize) 0 ++ blocks

theorem imageOf_length (blocks : Bytes) : (imageOf blocks).length = 16 * isofsBlockSize + blocks.length := by
  rw [imageOf, length_append, length_replicate]

theorem getD_append_length {a : Bytes} (ha : a.length = n) (b : Bytes) (i : ℕ) :
    (a ++ b).getD (n + i) 0 = b.getD i 0 := by
  rw [getD_eq_getElem?_getD, getElem?_append_right (by omega), ha, Nat.add_sub_cancel_left,
    getD_eq_getElem?_getD]

theorem imageOf_getD : (imageOf blocks).getD (16 * isofsBlockSize + i) 0 = blocks.getD i 0 := by
  exact getD_append_length length_replicate blocks i

def volumeCtx : UnisoCtx := { unisoInit sys with parserHead := [], pos := 16 * isofsBlockSize }

theorem skipTo_plain (data : Bytes) (rootDir : ℕ → UInt8) :
    skipTo (plainSys data rootDir) { unisoInit (plainSys data rootDir) with parserHead := [] }
      volumeReader = (((16 * isofsBlockSize : ℕ) : ℤ), volumeCtx (plainSys data rootDir)) := by
  have hseeks : (plainSys data rootDir).seeks = true := rfl
  have hzero : (unisoInit (plainSys data rootDir)).pos = 0 := rfl
  have hmethod : (unisoInit (plainSys data rootDir)).skipMethod = 0 := rfl
  have hpos : 0 + (volumeReader.offset - 0) = 16 * isofsBlockSize := by decide
  rw [skipTo, if_pos (by rw [hzero]; decide), doSkip, if_pos hmethod, hseeks, if_pos rfl]
  have hint : toInt32 (volumeReader.offset - 0 : ℕ) = (16 * isofsBlockSize : ℕ) := by decide
  simp only [volumeCtx, hzero, hpos, hint]

variable (extent type : UInt8)

/-- a volume descriptor of a type with a directory record -/
def volumeBlock (record : Bytes) : Bytes :=
  type :: isofsStandardId ++ List.replicate 150 0 ++ record ++ List.replicate (isofsBlockSize - 190) 0

def rootRecord : Bytes :=
  [34, 0, extent, 0, 0, 0, 0, 0, 0, extent, 0, 8, 0, 0, 0, 0, 8, 0] ++ List.replicate 7 0 ++
    [2, 0, 0, 1, 0, 0, 1, 1, 0]

theorem volumeBlock_length (extent : UInt8) :
    (volumeBlock type (rootRecord extent)).length = isofsBlockSize := by
  simp only [volumeBlock, length_cons, length_append, length_replicate]
  rfl

/-- an image that is cut behind its primary volume descriptor is never done with -/
theorem uniso_never_returns :
    (imageOf (volumeBlock isofsVdPrimary (rootRecord 18))).length = 17 * isofsBlockSize ∧
    ∀ n, uniso (plainSys (imageOf (volumeBlock isofsVdPrimary (rootRecord 18))) fun _ => 0) n = none := by
  have hdata : (imageOf (volumeBlock isofsVdPrimary (rootRecord 18))).length = 17 * isofsBlockSize := by
    rw [imageOf_length, volumeBlock_length isofsVdPrimary 18]
    rfl
  refine ⟨hdata, ?_⟩
  have hskip := skipTo_plain (imageOf (volumeBlock isofsVdPrimary (rootRecord 18))) fun _ => 0
  set cut := plainSys (imageOf (volumeBlock isofsVdPrimary (rootRecord 18))) fun _ => 0
  have hvolume : ∀ n buf rootDir, volumeLoop cut n buf rootDir (volumeCtx cut) = none := by
    intro n buf rootDir
    cases n with
    | zero => rfl
    | succ n =>
      have hread : doRead cut (volumeCtx cut) isofsBlockSize = _ :=
        (doRead_plain _ (fun _ => 0) (volumeCtx cut)).1 hdata.ge
      have hblock : ∀ i < isofsBlockSize, readTo cut buf (volumeCtx cut).pos ((volumeCtx cut).pos + isofsBlockSize) i =
          (volumeBlock isofsVdPrimary (rootRecord 18)).getD i 0 :=
        fun i hi => (readTo_block cut hi).trans imageOf_getD
      have hid := (hasStandardId_congr hblock).trans (by decide : _ = true)
      have htype : readTo cut buf (volumeCtx cut).pos ((volumeCtx cut).pos + isofsBlockSize) 0 ≠ isofsVdEnd := by
        rw [hblock 0 (by decide)]
        decide
      rw [volumeLoop, hread]
      simp only [hid, htype]
      refine volumeLoop_stuck n ?_ hid htype
      rw [volumeSwitch_pos]
      exact hdata.le
  intro n
  cases n with
  | zero => rfl
  | succ n =>
    rw [uniso, unisoLoop, unisoInit_head]
    simp only [unisoRound, hskip]
    rw [unisoHandle]
    simp only [hvolume]
    rfl

/-- the descriptors of a volume whose root directory is at a block, and what follows them -/
def treeBlocks (rest : Bytes) : Bytes :=
  volumeBlock isofsVdPrimary (rootRecord extent) ++ (volumeBlock isofsVdEnd (rootRecord 0) ++ rest)

theorem treeBlocks_length (rest : Bytes) :
    (treeBlocks extent rest).length = 2 * isofsBlockSize + rest.length := by
  simp only [treeBlocks, length_append, volumeBlock_length]
  omega

theorem volumeBlock_record (extent : UInt8) (rest : Bytes) (hi : i < 34) :
    (volumeBlock type (rootRecord extent) ++ rest).getD (156 + i) 0 = (rootRecord extent).getD i 0 := by
  have hform : volumeBlock type (rootRecord extent) ++ rest =
      (type :: isofsStandardId ++ replicate 150 0) ++ (rootRecord extent ++
        (replicate (isofsBlockSize - 190) 0 ++ rest)) := by
    simp only [volumeBlock, append_assoc]
  have hlen : (type :: isofsStandardId ++ replicate 150 0 : Bytes).length = 156 := rfl
  have hrecord : i < (rootRecord extent).length := hi
  rw [hform, getD_append_length hlen, getD_eq_getElem?_getD, getElem?_append_left hrecord,
    getD_eq_getElem?_getD]

end Alpine

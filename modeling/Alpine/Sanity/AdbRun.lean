import Alpine.Sanity.AdbReader
import Alpine.Sanity.Istream

/-! A rule for the callback of the ADB readers. What every call keeps holds at the end of the run,
whichever reader it was, and the first call that fails is the last one. The second part of the rule
follows `-ECANCELED`: a stream that does not report it leaves it to the callback. -/

namespace Alpine

open Option

section quiet

variable {σ : Type}

/-- no read of the source fails with `-ECANCELED`, and closing does not make it up -/
structure IstreamOps.Quiet (ops : IstreamOps σ) : Prop where
  read : ∀ s n e s', ops.read s n = (.error e, s') → e ≠ -ecanceled
  close : ∀ s e, ops.close s e = -ecanceled → e = -ecanceled

def Istream.Quiet (is : Istream σ) : Prop := is.err ≠ -ecanceled

theorem blobOps_quiet : blobOps.Quiet where
  read s n e s' h := by simp [blobOps] at h
  close s e h := by
    simp only [blobOps] at h
    split_ifs at h with he
    · exact h
    · exact absurd h (by decide)

theorem fromBlob_quiet (b : Bytes) : (apkIstreamFromBlob b).Quiet := show (1 : ℤ) ≠ -ecanceled by decide

variable {ops : IstreamOps σ}

theorem IstreamOps.Quiet.keeps (hq : ops.Quiet) : ops.Keeps (· ≠ -ecanceled) Istream.Quiet where
  nonneg r hr := (lt_of_lt_of_le (by decide) hr).ne'
  eof := by decide
  full := by decide
  err h := h
  mark _ _ he := he
  take _ h _ := h
  move h := h
  fails h hr := ⟨hq.read _ _ _ _ hr, h⟩
  ends h _ := h
  direct _ h _ _ := h
  store h _ _ := h

variable {is : Istream σ} {r : ℤ}

theorem apkIstreamCloseError_quiet (hq : ops.Quiet) (h : is.Quiet)
    (hr : apkIstreamCloseError ops is r = -ecanceled) : r = -ecanceled := by
  by_contra hne
  have herr := hq.close _ _ hr
  split_ifs at herr
  · exact (apkIstreamError_keeps hq.keeps h hne).2 herr
  · exact h herr

theorem segmentOps_quiet (hq : ops.Quiet) : (segmentOps ops).Quiet where
  read s n e s' h := by
    simp only [segmentOps, segmentRead] at h
    split_ifs at h
    · simp at h
    cases hr : ops.read s.pis.src (min n s.bytesLeft) with
    | mk res s1 =>
      rw [hr] at h
      cases res with
      | error e1 =>
        cases h
        exact hq.read _ _ _ _ hr
      | ok b =>
        simp only at h
        split_ifs at h
        · cases h
          decide
        · cases h
  close s e h := by
    simp only [segmentOps] at h
    split_ifs at h
    · exact h
    · exact absurd h (by decide)

theorem apkIstreamSegment_quiet (is : Istream σ) (len : ℕ) : (apkIstreamSegment is len).Quiet := by
  unfold apkIstreamSegment
  split_ifs <;> exact show (0 : ℤ) ≠ -ecanceled by decide

/-- the states of a source that reading leads to -/
inductive ReadsTo (ops : IstreamOps σ) (s : σ) : σ → Prop
  | refl : ReadsTo ops s s
  | read {s1 : σ} (n : ℕ) (h : ReadsTo ops s s1) : ReadsTo ops s (ops.read s1 n).2

theorem ReadsTo.trans {s s1 s2 : σ} (h : ReadsTo ops s s1) (h' : ReadsTo ops s1 s2) :
    ReadsTo ops s s2 := by
  induction h' with
  | refl => exact h
  | read n _ ih => exact ReadsTo.read n ih

variable (ops) in
theorem ReadsTo.keeps (s : σ) : ops.Keeps (fun _ => True) fun is => ReadsTo ops s is.src where
  nonneg _ _ := trivial
  eof := trivial
  full := trivial
  err _ := trivial
  mark _ h _ := h
  take _ h _ := h
  move h := h
  fails {is n e s'} h hr := ⟨trivial, show ReadsTo ops s s' by simpa [hr] using h.read n⟩
  ends {is n s'} h hr := show ReadsTo ops s s' by simpa [hr] using h.read n
  direct {is n b s'} _ h hr _ := show ReadsTo ops s s' by simpa [hr] using h.read n
  store {is n b s'} h hr _ := show ReadsTo ops s s' by simpa [hr] using h.read n

theorem ReadsTo.segment {s s' : Segment σ} (h : ReadsTo (segmentOps ops) s s') :
    s'.pis.err = s.pis.err := by
  induction h with
  | refl => rfl
  | @read s1 n _ ih =>
    rw [← ih]
    simp only [segmentOps, segmentRead]
    split_ifs
    · rfl
    cases ops.read s1.pis.src (min n s1.bytesLeft) with
    | mk res s2 =>
      cases res with
      | error e => rfl
      | ok b =>
        simp only
        split_ifs <;> rfl

theorem apkIstreamSegment_err (is : Istream σ) (len : ℕ) :
    (apkIstreamSegment is len).src.pis.err = is.err := by
  unfold apkIstreamSegment
  split_ifs <;> rfl

theorem segmentCloseError_quiet (hq : ops.Quiet) {is : Istream (Segment σ)} (h : is.Quiet)
    (hs : is.src.pis.Quiet) (r : ℤ) :
    ((segmentCloseError ops is r).1 = -ecanceled → r = -ecanceled) ∧
      (segmentCloseError ops is r).2.Quiet := by
  -- the stream that is closed, with the error of the callback in it
  obtain ⟨m, hm, hsrc, herr⟩ : ∃ m : Istream (Segment σ),
      (if r < 0 then (apkIstreamError is r).2 else is) = m ∧ m.src = is.src ∧
        (m.err = -ecanceled → r = -ecanceled) := by
    refine ⟨_, rfl, ?_, ?_⟩
    · unfold apkIstreamError
      split_ifs <;> rfl
    split_ifs
    · intro he
      by_contra hne
      exact (apkIstreamError_keeps (segmentOps_quiet hq).keeps h hne).2 he
    · exact fun he => absurd he h
  unfold segmentCloseError segmentClose
  simp only [hm, hsrc]
  constructor
  · split_ifs
    · exact herr
    · exact fun h0 => absurd h0 (by decide)
  generalize hp : (if is.src.borrowed = true then
    ({ is.src.pis with
      buf := m.buf
      ptr := is.src.align % apkIstreamAlignSync
      fin := is.src.align % apkIstreamAlignSync } : Istream σ)
    else { is.src.pis with buf := m.buf }) = pis
  have hpq : pis.Quiet := by
    rw [← hp]
    split_ifs <;> exact hs
  split_ifs
  · exact (apkIstreamSkip_keeps hq.keeps hpq _).2
  · exact hpq

variable (ops) in
theorem segmentCloseError_neg (is : Istream (Segment σ)) (hr : r < 0) :
    (segmentCloseError ops is r).1 < 0 := by
  have herr : (apkIstreamError is r).2.err < 0 := by
    unfold apkIstreamError
    split_ifs with h
    · exact hr
    · push Not at h
      by_contra h0
      exact hr.ne (h (not_lt.1 h0))
  unfold segmentCloseError segmentClose
  simp only [if_pos hr, if_pos herr]
  exact herr

end quiet

section rule

variable {K κ σ : Type} (crypto : Crypto K) (t : Option (Trust K)) (ectx : Option ExtractCtx)
  (cb : AdbCallback κ) (q : Prop) (Inv : AdbReader κ → Prop) (Out : Option ℤ → AdbReader κ → Prop)

/-- a call that does not fail keeps `Inv`, one that fails leaves `Out` for the error made of its own -/
structure Called (out : ℤ × Istream σ × AdbReader κ) : Prop where
  goes : 0 ≤ out.1 → Inv out.2.2
  stops : ∀ r : ℤ, out.1 < 0 → r < 0 → (q → r = -ecanceled → out.1 = -ecanceled) → Out (some r) out.2.2

/-- What the three kinds of block do to the reader. Under `q` the callback uses a stream by reading
from it, and does not put `-ECANCELED` into it. -/
structure ReaderRule : Prop where
  ext : ∀ {rd}, Inv rd → rd.allowed.testBit adbBlockExt = false
  stop : ∀ {rd o}, Inv rd → (q → o ≠ some (-ecanceled)) → Out o rd
  refused : ∀ {rd rd' : AdbReader κ} {r : ℤ}, Inv rd → rd'.calls = rd.calls → rd'.cbs = rd.cbs →
    (rd'.db = rd.db ∨ rd.allowed.testBit adbBlockAdb = true) → r < 0 → (q → r ≠ -ecanceled) →
    Out (some r) rd'
  adb : ∀ {rd blk} (b : Bytes), Inv rd → rd.allowed.testBit adbBlockAdb = true →
    adbBlockType blk = adbBlockAdb → Called q Inv Out (readerCall cb blobOps (readerIdentity crypto ectx
      { rd with allowed := 2 ^ adbBlockSig ||| 2 ^ adbBlockData } b).2 blk .adb (apkIstreamFromBlob b))
  sig : ∀ {rd blk} (b : Bytes) {τ : Type} {ops : IstreamOps τ} {is : Istream τ}, Inv rd →
    rd.allowed.testBit adbBlockSig = true → adbBlockType blk = adbBlockSig →
    (q → ops.Quiet ∧ is.Quiet) →
    Called q Inv Out (readerCall cb ops (readerSignature crypto t rd b) blk (.sig b) is)
  data : ∀ {rd blk} {τ : Type} {ops : IstreamOps τ} {is : Istream τ}, Inv rd →
    rd.allowed.testBit adbBlockData = true → rd.trusted = true → adbBlockType blk = adbBlockData →
    (q → ops.Quiet ∧ is.Quiet) →
    Called q Inv Out (readerCall cb ops { rd with allowed := 2 ^ adbBlockData } blk .data is)
  quiet : q → ∀ (τ : Type) (ops : IstreamOps τ) (db : Adb) (s : κ) (blk : AdbBlock) (is : Istream τ),
    ops.Quiet → is.Quiet →
    (cb τ ops s db blk is).2.2.Quiet ∧ ReadsTo ops is.src (cb τ ops s db blk is).2.2.src

variable {crypto t ectx cb q Inv Out} (hrule : ReaderRule crypto t ectx cb q Inv Out)
  {rd rd' : AdbReader κ} {r : ℤ} {o : Option ℤ} {ops : IstreamOps σ} {is : Istream σ} {blk : AdbBlock}

theorem readerSignature_db {crypto : Crypto K} {t : Option (Trust K)} {b : Bytes} :
    (readerSignature crypto t rd b).db = rd.db := by
  unfold readerSignature
  split_ifs <;> rfl

include hrule

variable {beyond : Bytes} {expectedSchema fuel : ℕ} {seen : AdbSeen}

theorem parseSwitch_rule (h : Inv rd) (hty : ¬ RefusedType rd.allowed (adbBlockType blk))
    (b : Bytes) (hs : parseSwitch crypto t ectx rd (adbBlockType blk) b = (r, seen, rd')) :
    (r < 0 → Out (some r) rd') ∧
      (0 ≤ r → Called q Inv Out (readerCall cb blobOps rd' blk seen (apkIstreamFromBlob b))) := by
  obtain ⟨-, hcalls, hcbs, hne⟩ := parseSwitch_frame crypto t ectx
  have hquiet : q → blobOps.Quiet ∧ (apkIstreamFromBlob b).Quiet :=
    fun _ => ⟨blobOps_quiet, fromBlob_quiet b⟩
  obtain ⟨hbit, hk⟩ := type_cases hty
  rw [hs] at hcalls hcbs hne
  refine ⟨fun hr => hrule.refused h hcalls hcbs ?_ hr fun _ => hne, fun hr => ?_⟩
  · rcases hk with hk | hk | hk | hk
    · exact Or.inr (hk ▸ hbit)
    all_goals
      left
      rw [hk, parseSwitch, if_neg (by decide)] at hs
    · exact (Prod.mk.inj (Prod.mk.inj hs).2).2 ▸ readerSignature_db
    all_goals
      rw [if_neg (by decide)] at hs
      simp only at hs
      split_ifs at hs <;> exact (Prod.mk.inj (Prod.mk.inj hs).2).2 ▸ rfl
  rcases hk with hk | hk | hk | hk
  · have hadb := hrule.adb b h (hk ▸ hbit) hk
    rw [hk, parseSwitch, if_pos rfl] at hs
    simp only at hs
    split_ifs at hs <;> cases hs
    · exact absurd hr (by decide)
    · exact absurd hr (by decide)
    · exact hadb
    · exact hadb
  · rw [hk, parseSwitch] at hs
    cases hs
    exact hrule.sig b h (hk ▸ hbit) hk hquiet
  · rw [hk, parseSwitch, if_neg (by decide), if_neg (by decide)] at hs
    simp only at hs
    split_ifs at hs with ht <;> cases hs
    · exact hrule.data h (hk ▸ hbit) ht hk hquiet
    · exact absurd hr (by decide)
  · rw [hk, hrule.ext h] at hbit
    simp at hbit

theorem parseLoop_rule (data beyond : Bytes) (fuel pos : ℕ) (r : ℤ) (rd : AdbReader κ) (h : Inv rd)
    (hr : 0 ≤ r) : Out (parseLoop crypto t ectx cb data beyond fuel pos r rd).1
      (parseLoop crypto t ectx cb data beyond fuel pos r rd).2 := by
  have hcanceled : -ecanceled < 0 := by decide
  induction fuel generalizing pos r rd with
  | zero => exact hrule.stop h fun _ => by simp [parseLoop]
  | succ n ih =>
    have hstop : ∀ {e : ℤ}, e ≠ -ecanceled → Out (some e) rd :=
      fun he => hrule.stop h fun _ hx => he (some.inj hx)
    unfold parseLoop
    cases hb : adbBlockValidate data pos with
    | error e =>
      refine hstop ?_
      unfold adbBlockValidate at hb
      simp only at hb
      split_ifs at hb <;> cases hb <;> split_ifs <;> first | decide | omega
    | ok o =>
      cases o with
      | none => exact hstop (by omega)
      | some blk =>
        simp only
        by_cases hty : RefusedType rd.allowed (adbBlockType blk)
        · rw [if_pos hty]
          exact hstop (by decide)
        rw [if_neg hty]
        generalize ((data ++ beyond).drop (pos + adbBlockHdrsize blk)).take (adbBlockLength blk) = b
        obtain ⟨r1, seen, rd1, h1⟩ : ∃ r1 seen rd1,
          parseSwitch crypto t ectx rd (adbBlockType blk) b = (r1, seen, rd1) := ⟨_, _, _, rfl⟩
        obtain ⟨hfail, hcall⟩ := parseSwitch_rule hrule h hty b h1
        simp only [h1]
        by_cases hneg : r1 < 0
        · rw [if_pos hneg]
          exact hfail hneg
        obtain ⟨hgoes, hstops⟩ := hcall (not_lt.1 hneg)
        split_ifs with hneg2
        · exact hstops _ hneg2 hneg2 fun _ he => he
        · exact ih _ _ _ (hgoes (not_lt.1 hneg2)) (not_lt.1 hneg2)

omit hrule

theorem adbBlock_error : -apkeAdbBlock < 0 ∧ -apkeAdbBlock ≠ 0 ∧ -apkeAdbBlock ≠ -ecanceled := by decide

theorem untrusted_error : -apkeSignatureUntrusted < 0 ∧ -apkeSignatureUntrusted ≠ 0 ∧
    -apkeSignatureUntrusted ≠ -ecanceled := by decide

structure BlockRan (q : Prop) (Inv : AdbReader κ → Prop) (Out : Option ℤ → AdbReader κ → Prop)
    (out : ℤ × Istream σ × AdbReader κ) : Prop where
  goes : 0 ≤ out.1 → Inv out.2.2
  stops : out.1 < 0 → Out (some out.1) out.2.2
  quiet : q → out.2.1.Quiet

/-- what a round of the loop leaves behind, and what it leaves the loop with -/
structure RoundRan (q : Prop) (Inv : AdbReader κ → Prop) (Out : Option ℤ → AdbReader κ → Prop)
    (out : Option ℤ × Istream σ × AdbReader κ) : Prop where
  goes : out.1 = none → Inv out.2.2
  stops : ∀ r, out.1 = some r → Out (some r) out.2.2
  quiet : q → out.2.1.Quiet

variable (hops : q → ops.Quiet)

include hrule hops

section

variable (his : q → is.Quiet)
include his

theorem streamAdb_rule (h : Inv rd) (htype : adbBlockType blk = adbBlockAdb)
    (hbit : rd.allowed.testBit adbBlockAdb = true) (sz : ℕ) :
    BlockRan q Inv Out (streamAdb crypto ectx cb ops is rd blk sz) := by
  have hrefused : ∀ {rd' : AdbReader κ} {r : ℤ} {is' : Istream σ}, rd'.calls = rd.calls →
      rd'.cbs = rd.cbs → r < 0 → (q → r ≠ -ecanceled) → (q → is'.Quiet) →
      BlockRan q Inv Out (r, is', rd') := fun hcalls hcbs hr hc hquiet =>
    ⟨fun h0 => absurd hr (not_lt.2 h0), fun _ => hrule.refused h hcalls hcbs (Or.inr hbit) hr hc, hquiet⟩
  have hread := fun hq => apkIstreamRead_keeps (hops hq).keeps (his hq) sz
  unfold streamAdb
  obtain ⟨r1, b, is1, h1⟩ : ∃ r1 b is1, apkIstreamRead ops is sz = (r1, b, is1) := ⟨_, _, _, rfl⟩
  simp only [h1] at hread ⊢
  have his1 : q → is1.Quiet := fun hq => (hread hq).2
  split_ifs with hsz hneg hver hneg2 hcall
  · exact hrefused rfl rfl (by decide) (fun _ => by decide) his
  · exact hrefused rfl rfl hneg (fun hq => (hread hq).1) his1
  · exact hrefused rfl rfl (by decide) (fun _ => by decide) his1
  · exact hrefused rfl rfl hneg2 (fun _ => adbHandleIdentity_ne_canceled crypto ectx rd.vfy (some b)) his1
  · have hadb := hrule.adb b h hbit htype
    exact ⟨fun h0 => absurd hcall (not_lt.2 h0), fun _ => hadb.stops _ hcall hcall fun _ he => he, his1⟩
  · exact ⟨fun _ => (hrule.adb b h hbit htype).goes (not_lt.1 hcall), fun h0 => absurd h0 (lt_irrefl _),
      his1⟩

theorem streamSegment_rule (sz : ℕ)
    (hcall : Called q Inv Out (readerCall cb (segmentOps ops) rd blk seen (apkIstreamSegment is sz))) :
    BlockRan q Inv Out (streamSegment cb ops is rd blk seen sz) := by
  have hclose : q → ∀ r : ℤ,
      ((segmentCloseError ops (cb _ (segmentOps ops) rd.cbs rd.db blk (apkIstreamSegment is sz)).2.2 r).1 =
        -ecanceled → r = -ecanceled) ∧ (segmentCloseError ops
          (cb _ (segmentOps ops) rd.cbs rd.db blk (apkIstreamSegment is sz)).2.2 r).2.Quiet := by
    intro hq r
    obtain ⟨hquiet, hreads⟩ := hrule.quiet hq _ (segmentOps ops) rd.db rd.cbs blk
      (apkIstreamSegment is sz) (segmentOps_quiet (hops hq)) (apkIstreamSegment_quiet is sz)
    refine segmentCloseError_quiet (hops hq) hquiet ?_ r
    have herr := hreads.segment
    rw [apkIstreamSegment_err] at herr
    exact fun h0 => his hq (herr.symm.trans h0)
  obtain ⟨hgoes, hstops⟩ := hcall
  unfold streamSegment
  simp only [readerCall] at hgoes hstops ⊢
  generalize cb _ (segmentOps ops) rd.cbs rd.db blk (apkIstreamSegment is sz) = out at *
  have hneg := segmentCloseError_neg ops out.2.2 (r := out.1)
  refine ⟨fun h0 => hgoes (not_lt.1 fun hr => absurd h0 (not_le.2 (hneg hr))), fun h0 => ?_,
    fun hq => (hclose hq _).2⟩
  by_cases hr : out.1 < 0
  · exact hstops _ hr h0 fun hq => (hclose hq _).1
  refine hrule.stop (hgoes (not_lt.1 hr)) fun hq he => ?_
  have hcan : -ecanceled < 0 := by decide
  have := (hclose hq _).1 (some.inj he)
  omega

theorem streamBlock_rule (h : Inv rd) (hty : ¬ RefusedType rd.allowed (adbBlockType blk)) :
    BlockRan q Inv Out (streamBlock crypto t ectx cb ops is rd blk) := by
  have hsegment : ∀ {is' : Istream σ}, q → (segmentOps ops).Quiet ∧
      (apkIstreamSegment is' (adbBlockLength blk)).Quiet :=
    fun hq => ⟨segmentOps_quiet (hops hq), apkIstreamSegment_quiet _ _⟩
  obtain ⟨hbit, hcases⟩ := type_cases hty
  unfold streamBlock
  simp only
  rcases hcases with hk | hk | hk | hk <;> rw [hk] at hbit
  · rw [if_pos hk]
    exact streamAdb_rule hrule hops his h hk hbit _
  · rw [if_neg (by rw [hk]; decide), if_pos hk]
    have hpeek := fun hq => apkIstreamPeek_keeps (hops hq).keeps (his hq) (adbBlockLength blk)
    generalize apkIstreamPeek ops is (adbBlockLength blk) = p at hpeek ⊢
    obtain ⟨o, is1⟩ := p
    cases o with
    | error e =>
      exact ⟨fun _ => h, fun _ => hrule.stop h fun hq he => (hpeek hq).1 e rfl (some.inj he),
        fun hq => (hpeek hq).2⟩
    | ok sig =>
      exact streamSegment_rule hrule hops (fun hq => (hpeek hq).2) _ (hrule.sig sig h hbit hk hsegment)
  · rw [if_neg (by rw [hk]; decide), if_neg (by rw [hk]; decide)]
    split_ifs with ht
    · exact streamSegment_rule hrule hops his _ (hrule.data h hbit ht hk hsegment)
    · exact ⟨fun h0 : 0 ≤ -apkeSignatureUntrusted => absurd h0 (by decide), fun _ =>
        hrule.refused h rfl rfl (Or.inl rfl) untrusted_error.1 fun _ => untrusted_error.2.2, his⟩
  · rw [hrule.ext h] at hbit
    simp at hbit

theorem streamPadding_rule (h : Inv rd) {pad : ℕ} (hpad : pad < 2 ^ 31) : RoundRan q Inv Out
      (if (apkIstreamSkip ops is pad).1 < 0 then some (apkIstreamSkip ops is pad).1 else none,
        (apkIstreamSkip ops is pad).2, rd) := by
  have hskip := fun hq => apkIstreamSkip_keeps (hops hq).keeps (his hq) pad
  refine ⟨fun _ => h, fun r hr => hrule.stop h fun hq he => ?_, fun hq => (hskip hq).2⟩
  split_ifs at hr
  exact (hskip hq).1 hpad (some.inj (hr.trans he))

theorem streamChecked_rule (h : Inv rd) (blk : AdbBlock) :
    RoundRan q Inv Out (streamChecked crypto t ectx cb ops is rd blk) := by
  unfold streamChecked
  by_cases hty : RefusedType rd.allowed (adbBlockType blk)
  · rw [if_pos hty]
    refine ⟨nofun, fun r hr => hrule.stop h fun _ he => adbBlock_error.2.2 ?_, his⟩
    exact some.inj (hr.trans he)
  obtain ⟨hgoes, hstops, hquiet⟩ := streamBlock_rule hrule hops his h hty
  rw [if_neg hty]
  simp only
  split_ifs with hneg
  · exact ⟨nofun, fun r hr => some.inj hr ▸ hstops hneg, hquiet⟩
  · have hgood := hgoes (not_lt.1 hneg)
    exact streamPadding_rule hrule hops hquiet hgood (adbBlockPadding_lt blk)

theorem streamStep_rule (h : Inv rd) :
    RoundRan q Inv Out (streamStep crypto t ectx cb ops is rd) := by
  unfold streamStep
  have hpeek := fun hq => (apkIstreamPeek_keeps (hops hq).keeps (his hq) 4).2
  generalize apkIstreamPeek ops is 4 = p at hpeek ⊢
  obtain ⟨hdr, is1⟩ := p
  simp only
  have hread := fun hq => apkIstreamReadMax_keeps (hops hq).keeps (hpeek hq) (streamHdrsize hdr)
  split_ifs
  · exact ⟨nofun, fun r' hr => hrule.stop h fun hq he => (hread hq).1 (some.inj (hr.trans he)),
      fun hq => (hread hq).2⟩
  · exact streamChecked_rule hrule hops (fun hq => (hread hq).2) h _

end

theorem streamLoop_rule (fuel : ℕ) (is : Istream σ) (his : q → is.Quiet) (rd : AdbReader κ) (h : Inv rd) :
    Out (streamLoop crypto t ectx cb ops fuel is rd).1 (streamLoop crypto t ectx cb ops fuel is rd).2.2 ∧
      (q → (streamLoop crypto t ectx cb ops fuel is rd).2.1.Quiet) := by
  induction fuel generalizing is rd with
  | zero => exact ⟨hrule.stop h fun _ => nofun, his⟩
  | succ n ih =>
    unfold streamLoop
    obtain ⟨hgoes, hstops, hquiet⟩ := streamStep_rule hrule hops his h
    generalize streamStep crypto t ectx cb ops is rd = p at hgoes hstops hquiet ⊢
    obtain ⟨o, is1, rd1⟩ := p
    cases o with
    | none => exact ih is1 hquiet rd1 (hgoes rfl)
    | some r => exact ⟨hstops r rfl, hquiet⟩

omit hrule hops

/-- the code after the labels `err` on a loop that ended with `o`: an error stays an error, and a
result of 0 leaves the reader as it is -/
structure Ended (q : Prop) (o : Option ℤ) (rd : AdbReader κ) (out : Option ℤ × AdbReader κ) :
    Prop where
  calls : out.2.calls = rd.calls
  cbs : out.2.cbs = rd.cbs
  neg : ∀ r, o = some r → r < 0 → ∃ r', out.1 = some r' ∧ r' < 0
  canceled : q → out.1 = some (-ecanceled) → o = some (-ecanceled)
  zero : out.1 = some 0 → o = some 0 ∧ out.2 = rd ∧ rd.trusted = true ∧ rd.db.adb ≠ none

theorem ended_error {e : ℤ} (hcalls : rd'.calls = rd.calls) (hcbs : rd'.cbs = rd.cbs) (he : e < 0)
    (hc : e = -ecanceled → r = -ecanceled) : Ended q (some r) rd (some e, rd') where
  calls := hcalls
  cbs := hcbs
  neg _ _ _ := ⟨e, rfl, he⟩
  canceled _ h := congrArg some (hc (some.inj h))
  zero h := absurd (some.inj h) he.ne

theorem ended_zero (ht : rd.trusted = true) (hn : rd.db.adb ≠ none) :
    Ended q (some 0) rd (some 0, rd) where
  calls := rfl
  cbs := rfl
  neg _ hr hneg := absurd (some.inj hr) hneg.ne'
  canceled _ h := h
  zero _ := ⟨rfl, rfl, ht, hn⟩

theorem parseEnd_ended {q : Prop} : Ended q (some r) rd (some (parseEnd r rd).1, (parseEnd r rd).2) := by
  obtain ⟨ha, ha0, hac⟩ := adbBlock_error
  obtain ⟨hu, hu0, huc⟩ := untrusted_error
  unfold parseEnd
  by_cases hpos : 0 < r
  · simp only [if_pos hpos]
    exact ended_error rfl rfl ha fun h => absurd h hac
  by_cases hr : r = 0
  · subst hr
    cases ht : rd.trusted with
    | false =>
      exact ended_error rfl rfl hu fun h => absurd h huc
    | true =>
      by_cases hn : rd.db.adb = none
      · simp only [if_pos hn]
        exact ended_error rfl rfl ha fun h => absurd h hac
      · simp only [if_neg hn]
        exact ended_zero ht hn
  · simp only [if_neg hpos, if_pos hr]
    exact ended_error rfl rfl (by omega) id

theorem streamEnd_ended (q : Prop) (r : ℤ) (rd : AdbReader κ) :
    Ended q (some r) rd (some (streamEnd r rd).1, (streamEnd r rd).2) ∧ (streamEnd r rd).1 ≤ 0 := by
  obtain ⟨ha, ha0⟩ := adbBlock_error
  obtain ⟨hu, hu0⟩ := untrusted_error
  unfold streamEnd
  by_cases hpos : 0 < r
  · simp only [if_pos hpos]
    exact ⟨ended_error rfl rfl ha fun h => absurd h ha0.2, ha.le⟩
  simp only [if_neg hpos]
  by_cases hr : r ≠ 0 ∧ r ≠ -ecanceled
  · simp only [if_pos hr]
    exact ⟨ended_error rfl rfl (lt_of_le_of_ne (not_lt.1 hpos) hr.1) id, not_lt.1 hpos⟩
  simp only [if_neg hr]
  cases ht : rd.trusted with
  | false =>
    exact ⟨ended_error rfl rfl hu fun h => absurd h hu0.2, hu.le⟩
  | true =>
    simp only [Bool.not_true, Bool.false_eq_true, if_false]
    by_cases hn : rd.db.adb = none
    · simp only [if_pos hn]
      exact ⟨ended_error rfl rfl ha fun h => absurd h ha0.2, ha.le⟩
    simp only [if_neg hn, if_neg hr]
    refine ⟨?_, not_lt.1 hpos⟩
    by_cases h0 : r = 0
    · rw [h0]
      exact ended_zero ht hn
    · exact ended_error rfl rfl (lt_of_le_of_ne (not_lt.1 hpos) h0) id

theorem ended_none (rd : AdbReader κ) : Ended q none rd (none, rd) where
  calls := rfl
  cbs := rfl
  neg _ h := nomatch h
  canceled _ h := nomatch h
  zero h := nomatch h

/-- what is done to the result of a run: an error stays one, and 0 comes from 0 -/
theorem Ended.result {rd1 rd2 : AdbReader κ} {r' : ℤ} (h : Ended q o rd (some r, rd1))
    (hcalls : rd2.calls = rd1.calls) (hcbs : rd2.cbs = rd1.cbs) (hneg : r < 0 → r' < 0)
    (hc : q → r' = -ecanceled → r = -ecanceled) (hzero : r' = 0 → r = 0 ∧ rd2 = rd1) :
    Ended q o rd (some r', rd2) where
  calls := hcalls.trans h.calls
  cbs := hcbs.trans h.cbs
  neg e he hlt := by
    obtain ⟨x, hx, hx0⟩ := h.neg e he hlt
    exact ⟨r', rfl, hneg (some.inj hx ▸ hx0)⟩
  canceled hq he := h.canceled hq (congrArg some (hc hq (some.inj he)))
  zero he := by
    obtain ⟨rfl, rfl⟩ := hzero (some.inj he)
    exact h.zero rfl

def RunOut (q : Prop) (Out : Option ℤ → AdbReader κ → Prop) (out : Option ℤ × AdbReader κ) : Prop :=
  ∃ o rd, Out o rd ∧ Ended q o rd out

include hrule

theorem adbMParse_out {data : Bytes} (h : Inv rd) :
    RunOut q Out (adbMParse crypto t ectx cb data beyond fuel rd) := by
  have hout := parseLoop_rule hrule data beyond fuel 0 0 rd h le_rfl
  unfold adbMParse
  generalize parseLoop crypto t ectx cb data beyond fuel 0 0 rd = p at hout ⊢
  obtain ⟨o, rd1⟩ := p
  cases o with
  | none => exact ⟨none, rd1, hout, ended_none rd1⟩
  | some r => exact ⟨some r, rd1, hout, parseEnd_ended⟩

theorem mmapRun_out (data : Bytes) (h : Inv rd) :
    RunOut q Out (match adbMParse crypto t ectx cb data beyond fuel rd with
      | (some r, rd) => (some r, if r ≠ 0 then { rd with db := ⟨0, none⟩ } else rd)
      | (none, rd) => (none, rd)) := by
  obtain ⟨o, rd0, hout, hend⟩ := adbMParse_out hrule h
  generalize adbMParse crypto t ectx cb data beyond fuel rd = p at hend ⊢
  obtain ⟨o', rd1⟩ := p
  cases o' with
  | none => exact ⟨o, rd0, hout, hend⟩
  | some r =>
    refine ⟨o, rd0, hout, hend.result ?_ ?_ id (fun _ => id) fun h0 => ⟨h0, if_neg (not_not.2 h0)⟩⟩
    all_goals split_ifs <;> rfl

theorem adbMMmap_out {mmap : Bytes}
    (h : ∀ schema, Inv { rd with db := { rd.db with schema := schema } }) :
    RunOut q Out (adbMMmap crypto t ectx cb mmap beyond expectedSchema fuel rd) := by
  have herr : ∀ e : ℤ, e < 0 → e ≠ -ecanceled → RunOut q Out (some e, rd) := fun e he hc =>
    ⟨some e, rd, hrule.stop (h rd.db.schema) fun _ hx => hc (some.inj hx),
      ended_error rfl rfl he id⟩
  unfold adbMMmap
  split_ifs with h1 h2
  · exact herr _ (by decide) (by decide)
  · cases hh : adbFileHeader expectedSchema mmap with
    | error e => exact herr e (adbFileHeader_error hh).1 (adbFileHeader_error hh).2
    | ok schema => exact mmapRun_out hrule _ (h schema)
  · exact mmapRun_out hrule _ (h rd.db.schema)

omit hrule
include hops

theorem streamEnd_out (r : ℤ) (his : q → is.Quiet) (hout : Out (some r) rd) :
    RunOut q Out (some (apkIstreamCloseError ops is (streamEnd r rd).1), (streamEnd r rd).2) := by
  obtain ⟨hend, hle⟩ := streamEnd_ended q r rd
  have hneg : (streamEnd r rd).1 < 0 → apkIstreamCloseError ops is (streamEnd r rd).1 < 0 :=
    apkIstreamCloseError_neg ops is
  refine ⟨some r, rd, hout, hend.result rfl rfl hneg
    (fun hx => apkIstreamCloseError_quiet (hops hx) (his hx)) fun h0 => ⟨?_, rfl⟩⟩
  omega

include hrule

theorem streamRun_out (his : q → is.Quiet) (h : Inv rd) :
    RunOut q Out (match streamLoop crypto t ectx cb ops fuel is rd with
      | (none, _, rd) => (none, rd)
      | (some r, is, rd) =>
        (some (apkIstreamCloseError ops is (streamEnd r rd).1), (streamEnd r rd).2)) := by
  obtain ⟨hout, hquiet⟩ := streamLoop_rule hrule hops fuel is his rd h
  generalize streamLoop crypto t ectx cb ops fuel is rd = p at hout hquiet ⊢
  obtain ⟨o, is1, rd1⟩ := p
  cases o with
  | none => exact ⟨none, rd1, hout, ended_none rd1⟩
  | some r => exact streamEnd_out hops r hquiet hout

theorem adbMStream_out (his : q → is.Quiet) (expectedSchema fuel : ℕ)
    (h : ∀ schema, Inv { rd with db := { rd.db with schema := schema } }) :
    RunOut q Out (adbMStream crypto t ectx cb ops is expectedSchema fuel rd) := by
  have hread := fun hq => apkIstreamRead_keeps (hops hq).keeps (his hq) 8
  have hstop : ∀ e : ℤ, (q → e ≠ -ecanceled) → Out (some e) rd := fun e he =>
    hrule.stop (h rd.db.schema) fun hq hx => he hq (some.inj hx)
  unfold adbMStream
  simp only
  split_ifs with h1 h2
  · exact streamEnd_out hops _ (fun hq => (hread hq).2) (hstop _ fun hq => (hread hq).1)
  · cases hh : adbFileHeader expectedSchema (apkIstreamRead ops is 8).2.1 with
    | error e =>
      exact streamEnd_out hops _ (fun hq => (hread hq).2) (hstop _ fun _ => (adbFileHeader_error hh).2)
    | ok schema => exact streamRun_out hrule hops (fun hq => (hread hq).2) (h schema)
  · exact streamRun_out hrule hops his (h rd.db.schema)

theorem adbMProcess_out (his : q → is.Quiet) {cbs : κ} (h : ∀ schema, Inv (AdbReader.init t schema cbs)) :
    RunOut q Out (adbMProcess crypto t ectx cb ops is beyond expectedSchema fuel cbs) := by
  unfold adbMProcess
  cases apkIstreamMmap is with
  | some mmap => exact adbMMmap_out hrule h
  | none => exact adbMStream_out hrule hops his expectedSchema fuel h

end rule

section callback

variable {K κ : Type} (crypto : Crypto K) (t : Option (Trust K)) (ectx : Option ExtractCtx)
  (cb : AdbCallback κ) (q : Prop) (Good : Adb → List AdbSeen → κ → Prop)
  (Bad : ℤ → Adb → List AdbSeen → κ → Prop)

def BlockTypeOk (blk : AdbBlock) : Prop :=
  adbBlockType blk = adbBlockAdb ∨ adbBlockType blk = adbBlockSig ∨ adbBlockType blk = adbBlockData

/-- A call that does not fail keeps `Good`, a call that fails leaves `Bad`, where the list is that of
the blocks seen so far. Under `q` the callback uses a stream by reading from it, and does not put
`-ECANCELED` into it. -/
structure CallbackRule : Prop where
  call : ∀ (τ : Type) (ops : IstreamOps τ) (db : Adb) (seen : List AdbSeen) (s : κ) (blk : AdbBlock)
    (b : Bytes) (is : Istream τ), Good db seen s → BlockTypeOk blk → (q → ops.Quiet ∧ is.Quiet) →
    (0 ≤ (cb τ ops s db blk is).1 →
      Good db (seen ++ [seenOf (adbBlockType blk) b]) (cb τ ops s db blk is).2.1) ∧
    ((cb τ ops s db blk is).1 < 0 →
      Bad (cb τ ops s db blk is).1 db (seen ++ [seenOf (adbBlockType blk) b]) (cb τ ops s db blk is).2.1)
  quiet : q → ∀ (τ : Type) (ops : IstreamOps τ) (db : Adb) (s : κ) (blk : AdbBlock) (is : Istream τ),
    ops.Quiet → is.Quiet →
    (cb τ ops s db blk is).2.2.Quiet ∧ ReadsTo ops is.src (cb τ ops s db blk is).2.2.src

structure GoodReader (rd : AdbReader κ) : Prop where
  same : ∀ c ∈ rd.calls, c.db = rd.db
  good : Good rd.db (rd.calls.map AdbCall.block) rd.cbs
  ext : rd.allowed.testBit adbBlockExt = false
  start : rd.allowed.testBit adbBlockAdb = true →
    rd.calls = [] ∧ rd.allowed = 2 ^ adbBlockAdb ∧ ∀ db, Good db [] rd.cbs

/-- how a run ended: with no call that failed, or with one, and then with an error -/
inductive Ran (db : Adb) (o : Option ℤ) (rd : AdbReader κ) : Prop
  | good (same : ∀ c ∈ rd.calls, c.db = db) (hg : Good db (rd.calls.map AdbCall.block) rd.cbs)
      (ho : q → o ≠ some (-ecanceled))
  | bad (r r' : ℤ) (same : ∀ c ∈ rd.calls, c.db = db) (ho : o = some r) (hr : r < 0) (hr' : r' < 0)
      (hb : Bad r' db (rd.calls.map AdbCall.block) rd.cbs) (hc : q → r = -ecanceled → r' = -ecanceled)

variable {cb q Good Bad} {rd rd' : AdbReader κ}

theorem readerCall_rule (hrule : CallbackRule cb q Good Bad)
    (hsame : ∀ c ∈ rd.calls, c.db = rd.db) (hgood : Good rd.db (rd.calls.map AdbCall.block) rd.cbs)
    (hext : rd.allowed.testBit adbBlockExt = false) (hadb : rd.allowed.testBit adbBlockAdb = false)
    {τ : Type} {ops : IstreamOps τ} {blk : AdbBlock} (htype : BlockTypeOk blk) {seen : AdbSeen} (b : Bytes)
    (hseen : seenOf (adbBlockType blk) b = seen) {is : Istream τ} (hquiet : q → ops.Quiet ∧ is.Quiet) :
    Called q (GoodReader Good) (fun o rd => Ran q Good Bad rd.db o rd)
      (readerCall cb ops rd blk seen is) := by
  obtain ⟨hg, hb⟩ := hrule.call τ ops rd.db (rd.calls.map AdbCall.block) rd.cbs blk b
    is hgood htype hquiet
  rw [hseen] at hg hb
  have hsame' : ∀ c ∈ rd.calls ++ [⟨rd.db, seen⟩], c.db = rd.db := by
    intro c hc
    rcases List.mem_append.1 hc with hc | hc
    · exact hsame c hc
    · rw [List.mem_singleton.1 hc]
  unfold readerCall
  refine ⟨fun h0 => ⟨hsame', ?_, hext, fun hbit => absurd hbit (by rw [hadb]; decide)⟩,
    fun r h0 hr hc => Ran.bad r _ hsame' rfl hr h0 ?_ hc⟩
  · simpa only [List.map_append, List.map_cons, List.map_nil] using hg h0
  · simpa only [List.map_append, List.map_cons, List.map_nil] using hb h0

theorem GoodReader.adb_done (h : GoodReader Good rd) (hbit : rd.allowed.testBit adbBlockSig = true) :
    rd.allowed.testBit adbBlockAdb = false := by
  by_contra h0
  obtain ⟨-, hmask, -⟩ := h.start (by simpa using h0)
  rw [hmask] at hbit
  exact absurd hbit (by decide)

theorem CallbackRule.reader (hrule : CallbackRule cb q Good Bad) :
    ReaderRule crypto t ectx cb q (GoodReader Good) fun o rd => Ran q Good Bad rd.db o rd where
  ext h := h.ext
  stop h ho := Ran.good h.same h.good ho
  refused {rd rd' r} h hcalls hcbs hdb hr hc := by
    refine Ran.good ?_ ?_ fun hq he => hc hq (some.inj he) <;> rw [hcalls]
    all_goals rcases hdb with hdb | hbit
    · exact hdb ▸ h.same
    · exact (h.start hbit).1 ▸ nofun
    · exact hdb ▸ hcbs ▸ h.good
    · exact (h.start hbit).1 ▸ hcbs ▸ (h.start hbit).2.2 _
  adb {rd blk} b h hbit hk := by
    obtain ⟨hnil, -, hdb⟩ := h.start hbit
    refine readerCall_rule hrule ?_ ?_ ?_ ?_ (Or.inl hk) [] (by rw [hk]; rfl)
      fun _ => ⟨blobOps_quiet, fromBlob_quiet b⟩
    · exact hnil ▸ nofun
    · exact hnil ▸ hdb _
    · exact show (2 ^ adbBlockSig ||| 2 ^ adbBlockData).testBit adbBlockExt = false by decide
    · exact show (2 ^ adbBlockSig ||| 2 ^ adbBlockData).testBit adbBlockAdb = false by decide
  sig {rd blk} b {τ ops is} h hbit hk hquiet := by
    have hseen : seenOf (adbBlockType blk) b = .sig b := by rw [hk]; rfl
    have hdone := h.adb_done hbit
    unfold readerSignature
    split_ifs
    all_goals
      refine readerCall_rule hrule ?_ ?_ ?_ ?_ (Or.inr (Or.inl hk)) b hseen hquiet
      exacts [h.same, h.good, h.ext, hdone]
  data {rd blk τ ops is} h _ _ hk hquiet := by
    have hseen : seenOf (adbBlockType blk) [] = .data := by rw [hk]; rfl
    refine readerCall_rule hrule ?_ ?_ ?_ ?_ (Or.inr (Or.inr hk)) [] hseen hquiet
    · exact h.same
    · exact h.good
    · exact show (2 ^ adbBlockData).testBit adbBlockExt = false by decide
    · exact show (2 ^ adbBlockData).testBit adbBlockAdb = false by decide
  quiet := hrule.quiet

/-- what a whole run ends with; a result of 0 leaves the database to be used -/
def RunEnd (q : Prop) (Good : Adb → List AdbSeen → κ → Prop)
    (Bad : ℤ → Adb → List AdbSeen → κ → Prop) (out : Option ℤ × AdbReader κ) : Prop :=
  ∃ db, Ran q Good Bad db out.1 out.2 ∧ (out.1 = some 0 → out.2.db = db)

theorem Ran.ended {db : Adb} {o : Option ℤ} {out : Option ℤ × AdbReader κ}
    (h : Ran q Good Bad db o rd) (hend : Ended q o rd out) : Ran q Good Bad db out.1 out.2 := by
  cases h with
  | good same hg ho =>
    rw [← hend.calls] at same hg
    rw [← hend.cbs] at hg
    exact Ran.good same hg fun hq he => ho hq (hend.canceled hq he)
  | bad r r' same ho hr hr' hb hcan =>
    rw [← hend.calls] at same hb
    rw [← hend.cbs] at hb
    obtain ⟨x, hx, hx0⟩ := hend.neg r ho hr
    refine Ran.bad x r' same hx hx0 hr' hb fun hq he => hcan hq (some.inj ?_)
    exact ho.symm.trans (hend.canceled hq (he ▸ hx))

/-- what the calls of the callback keep holds at the end of `adb_m_process` -/
theorem adbMProcess_rule (hrule : CallbackRule cb q Good Bad) {σ : Type} {ops : IstreamOps σ}
    (hops : q → ops.Quiet) (is : Istream σ) (his : q → is.Quiet) (beyond : Bytes)
    (expectedSchema fuel : ℕ) (cbs : κ) (hstart : ∀ db, Good db [] cbs) :
    RunEnd q Good Bad (adbMProcess crypto t ectx cb ops is beyond expectedSchema fuel cbs) := by
  obtain ⟨o, rd, hran, hend⟩ := adbMProcess_out (hrule.reader crypto t ectx) hops his fun schema => ⟨nofun, hstart _,
      show (2 ^ adbBlockAdb).testBit adbBlockExt = false by decide, fun _ => ⟨rfl, rfl, hstart⟩⟩
  exact ⟨rd.db, hran.ended hend, fun h0 => congrArg AdbReader.db (hend.zero h0).2.1⟩

end callback

end Alpine

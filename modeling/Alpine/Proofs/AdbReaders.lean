import Alpine.Sanity.Istream
import Alpine.Sanity.AdbReader
import Alpine.Proofs.AdbBlocks

/-! The two readers of `adb_m_process` compared: the one for a file that is mapped into memory and
the one for a stream. They agree on a file whose blocks are whole, however the stream is cut into
pieces, and stop alike at a header that is cut off or at a block that is not allowed. They part where
only one of them looks at a size: an `ADB` block of 8 to 15 bytes, a block that is cut off, and a
signature that does not fit the buffer. -/

namespace Alpine

open List AdbReader

open AdbBlock (ofBytes)

section

variable {K κ : Type} (crypto : Crypto K) (t : Option (Trust K)) (ectx : Option ExtractCtx)

/-- A callback that depends on the type and the payload of a block only: `f` is its result and its new
state, and `left` the error that it leaves on the stream, which it uses by its operations. -/
def AdbCallback.OfPayload (cb : AdbCallback κ) (f : κ → Adb → ℕ → Bytes → ℤ × κ)
    (left : κ → Adb → ℕ → Bytes → ℤ) : Prop :=
  ∀ {τ : Type} {ops : IstreamOps τ} {R : τ → Bytes → Prop} {is : Istream τ} {p : Bytes}
    (s : κ) (db : Adb) (blk : AdbBlock), Delivers ops R → is.Holds R p → 0 ≤ is.err →
    ∃ is', cb τ ops s db blk is =
        ((f s db (adbBlockType blk) p).1, (f s db (adbBlockType blk) p).2, is') ∧
      IstreamUse ops is is' ∧
      (if is'.err < 0 then is'.err else 0) = left s db (adbBlockType blk) p

/-- the calls in `log`, each with its database, type and payload, are those that were made -/
structure Logged (f : κ → Adb → ℕ → Bytes → ℤ × κ) (cbs : κ) (log : List (Adb × ℕ × Bytes))
    (rd : AdbReader κ) : Prop where
  calls : rd.calls = log.map fun c => ⟨c.1, seenOf c.2.1 c.2.2⟩
  cbs : rd.cbs = log.foldl (fun s c => (f s c.1 c.2.1 c.2.2).2) cbs

def AdbReader.called (rd : AdbReader κ) (cbs : κ) (seen : AdbSeen) : AdbReader κ :=
  { rd with cbs := cbs, calls := rd.calls ++ [⟨rd.db, seen⟩] }

/-- the blocks that may follow one of a type -/
def nextAllowed (m type : ℕ) : ℕ :=
  if type = adbBlockAdb then 2 ^ adbBlockSig ||| 2 ^ adbBlockData
  else if type = adbBlockSig then m else 2 ^ adbBlockData

abbrev Refused (allowed : ℕ) (rest : Bytes) : Prop := RefusedType allowed (adbBlockType (ofBytes rest))

abbrev CutHeader (rest : Bytes) : Prop :=
  rest.length < 4 ∨ rest.length < adbBlockHdrsize (ofBytes rest)

/-- what becomes of a whole block in either reader -/
def blockOutcome (f : κ → Adb → ℕ → Bytes → ℤ × κ) (rd : AdbReader κ) (type : ℕ) (b : Bytes) :
    ℤ × AdbReader κ :=
  let sw := parseSwitch crypto t ectx rd type b
  if sw.1 < 0 then (sw.1, sw.2.2)
  else
    let c := f sw.2.2.cbs sw.2.2.db type b
    (c.1, sw.2.2.called c.2 sw.2.1)

/-- the error that the callback leaves on the stream of a block, if it gets there -/
def blockLeft (left : κ → Adb → ℕ → Bytes → ℤ) (rd : AdbReader κ) (type : ℕ) (b : Bytes) : ℤ :=
  let sw := parseSwitch crypto t ectx rd type b
  if sw.1 < 0 then 0 else left sw.2.2.cbs sw.2.2.db type b

variable {cb : AdbCallback κ} {f : κ → Adb → ℕ → Bytes → ℤ × κ} {left : κ → Adb → ℕ → Bytes → ℤ}

variable {rd rd' : AdbReader κ} {r r' : ℤ}

theorem Logged.block {cbs : κ} {log : List (Adb × ℕ × Bytes)} (h : Logged f cbs log rd)
    (hout : blockOutcome crypto t ectx f rd type b = out) : ∃ log', Logged f cbs log' out.2 := by
  subst hout
  obtain ⟨hseen, hcalls, hcbs, -⟩ := parseSwitch_frame crypto t ectx
  unfold blockOutcome
  simp only
  split_ifs
  · exact ⟨log, hcalls.trans h.calls, hcbs.trans h.cbs⟩
  refine ⟨log ++ [((parseSwitch crypto t ectx rd type b).2.2.db, type, b)], ?_, ?_⟩
  · rw [map_append, ← h.calls, ← hcalls, map_singleton, ← hseen]
    rfl
  · rw [foldl_append, ← h.cbs, ← hcbs]
    rfl

theorem parseSwitch_allowed {type : ℕ} {b : Bytes} :
    (parseSwitch crypto t ectx rd type b).2.2.allowed = nextAllowed rd.allowed type := by
  unfold parseSwitch nextAllowed
  by_cases hadb : type = adbBlockAdb
  · simp only
    split_ifs <;> rfl
  simp only [hadb]
  by_cases hsig : type = adbBlockSig
  · simp only [hsig]
    unfold readerSignature
    split_ifs <;> rfl
  · simp only [hsig]
    split_ifs <;> rfl

theorem blockOutcome_allowed (hout : blockOutcome crypto t ectx f rd type b = out) :
    out.2.allowed = nextAllowed rd.allowed type := by
  subst hout
  rw [← parseSwitch_allowed crypto t ectx]
  unfold blockOutcome
  simp only
  split_ifs <;> rfl

section stream

variable {σ : Type} {ops : IstreamOps σ} {R : σ → Bytes → Prop} {is : Istream σ}

variable {pay after rest : Bytes} {blk : AdbBlock}

/-- a result of the stream reader that is the one of the callback if that is an error -/
def SameStop (r c : ℤ) : Prop := (c < 0 → r = c) ∧ (0 ≤ c → 0 ≤ r)

theorem streamSegment_holds (hcb : cb.OfPayload f left) (hops : Delivers ops R) (rd : AdbReader κ)
    (blk : AdbBlock) (h : is.Ready R (pay ++ after)) (seen : AdbSeen)
    (hleft : left rd.cbs rd.db (adbBlockType blk) pay = 0 ∨
      left rd.cbs rd.db (adbBlockType blk) pay = (f rd.cbs rd.db (adbBlockType blk) pay).1) :
    ∃ r is', streamSegment cb ops is rd blk seen pay.length =
        (r, is', rd.called (f rd.cbs rd.db (adbBlockType blk) pay).2 seen) ∧
      SameStop r (f rd.cbs rd.db (adbBlockType blk) pay).1 ∧
      is'.Ready R after ∧ is'.buf.length = is.buf.length ∧
      (pay.length ≤ is.fin - is.ptr → is'.ptr % 8 = (is.ptr + pay.length) % 8) := by
  obtain ⟨R', hdel, hseg, hclose⟩ := apkIstreamSegment_holds hops.feeds h.toHolds
  obtain ⟨seg, hrun, huse, hsegerr⟩ := hcb rd.cbs rd.db blk hdel hseg.toHolds hseg.nonneg
  generalize f rd.cbs rd.db (adbBlockType blk) pay = c at hrun hleft ⊢
  rw [← hsegerr] at hleft
  unfold streamSegment readerCall
  simp only [hrun]
  unfold segmentCloseError
  -- the error of the callback is set on the segment before it is closed
  obtain ⟨seg', hseg', huse', hstop⟩ : ∃ seg', (if c.1 < 0 then (apkIstreamError seg c.1).2 else seg) = seg' ∧
      IstreamUse (segmentOps ops) (apkIstreamSegment is pay.length) seg' ∧
      SameStop (if seg'.err < 0 then seg'.err else 0) c.1 := by
    by_cases hneg : c.1 < 0
    · refine ⟨_, if_pos hneg, huse.fail c.1 hneg, fun _ => ?_, fun h0 => absurd h0 (not_le.2 hneg)⟩
      by_cases hs : seg.err < 0
      · rw [if_pos hs] at hleft
        simp only [apkIstreamError_of_neg hs, if_pos hs]
        omega
      · simp only [apkIstreamError_of_nonneg (not_lt.1 hs) hneg.ne, if_pos hneg]
    · refine ⟨seg, if_neg hneg, huse, fun h => absurd h hneg, fun _ => ?_⟩
      split_ifs at hleft ⊢ <;> omega
  rw [hseg']
  obtain ⟨is', hc, h', -, hb'⟩ := hclose seg' huse'
  have halign := fun hle => segmentClose_align h.ptr_le h.fin_le hle huse'
  rw [hc] at halign ⊢
  exact ⟨_, is', rfl, hstop, h' h.nonneg, hb', halign⟩

theorem readerCall_blob (hcb : cb.OfPayload f left) (rd : AdbReader κ) (blk : AdbBlock) (seen : AdbSeen)
    (b : Bytes) :
    ∃ is', readerCall cb blobOps rd blk seen (apkIstreamFromBlob b) =
      ((f rd.cbs rd.db (adbBlockType blk) b).1, is',
        rd.called (f rd.cbs rd.db (adbBlockType blk) b).2 seen) := by
  obtain ⟨is', hrun, -⟩ := hcb rd.cbs rd.db blk blobOps_delivers apkIstreamFromBlob_holds
    (show (0 : ℤ) ≤ 1 by decide)
  rw [readerCall, hrun]
  exact ⟨is', rfl⟩

section

variable (hcb : cb.OfPayload f left) (hops : Delivers ops R) (rd : AdbReader κ)
    (h : is.Ready R (pay ++ after))
include hcb hops h

theorem streamAdb_holds (ht : adbBlockType blk = adbBlockAdb) (h16 : 16 ≤ pay.length)
    (h63 : pay.length < 2 ^ 63) :
    ∃ r is', streamAdb crypto ectx cb ops is rd blk pay.length =
        (r, is', (blockOutcome crypto t ectx f rd adbBlockAdb pay).2) ∧
      SameStop r (blockOutcome crypto t ectx f rd adbBlockAdb pay).1 ∧
      is'.Ready R after ∧ is'.buf.length = is.buf.length ∧ is'.ptr % 8 = (is.ptr + pay.length) % 8 := by
  obtain ⟨is', hread, h', hb'⟩ := apkIstreamRead_holds hops h (n := pay.length)
    (by rw [length_append]; omega)
  have halign := apkIstreamRead_align ops is pay.length
  rw [take_left] at hread
  rw [hread] at halign
  rw [drop_left] at h'
  unfold streamAdb blockOutcome parseSwitch
  rw [if_neg (by omega), hread]
  simp only [lt_irrefl, reduceIte, if_neg (show ¬ pay.length < 8 by omega)]
  have hstop : ∀ {e : ℤ}, SameStop e e := ⟨fun _ => rfl, id⟩
  by_cases hver : pay.getD 0 0 ≠ 0
  · simp only [if_pos hver, if_pos (show -apkeAdbVersion < 0 by decide)]
    exact ⟨_, is', rfl, hstop, h', hb', halign⟩
  simp only [if_neg hver]
  obtain ⟨r, rd1⟩ := readerIdentity crypto ectx
    { rd with allowed := 2 ^ adbBlockSig ||| 2 ^ adbBlockData } pay
  by_cases hr : r < 0
  · simp only [if_pos hr]
    exact ⟨_, is', rfl, hstop, h', hb', halign⟩
  obtain ⟨is1, hcall⟩ := readerCall_blob hcb rd1 blk .adb pay
  simp only [if_neg hr, hcall, ht, lt_irrefl, reduceIte]
  refine ⟨_, is', rfl, ⟨fun hneg => if_pos hneg, fun h0 => ?_⟩, h', hb', halign⟩
  rw [if_neg (not_lt.2 h0)]

theorem streamBlock_holds (hlen : adbBlockLength blk = pay.length)
    (hadb : adbBlockType blk = adbBlockAdb → 16 ≤ pay.length ∧ pay.length < 2 ^ 63)
    (hsig : adbBlockType blk = adbBlockSig → is.ptr % 8 + pay.length ≤ is.buf.length)
    (hleft : adbBlockType blk ≠ adbBlockAdb →
      blockLeft crypto t ectx left rd (adbBlockType blk) pay = 0 ∨
      blockLeft crypto t ectx left rd (adbBlockType blk) pay =
        (blockOutcome crypto t ectx f rd (adbBlockType blk) pay).1) :
    ∃ r is', streamBlock crypto t ectx cb ops is rd blk =
        (r, is', (blockOutcome crypto t ectx f rd (adbBlockType blk) pay).2) ∧
      SameStop r (blockOutcome crypto t ectx f rd (adbBlockType blk) pay).1 ∧
      0 ≤ is'.err ∧ is'.buf.length = is.buf.length ∧
      (0 ≤ (blockOutcome crypto t ectx f rd (adbBlockType blk) pay).1 → is'.Ready R after) ∧
      (adbBlockType blk = adbBlockAdb ∨ adbBlockType blk = adbBlockSig →
        is'.ptr % 8 = (is.ptr + pay.length) % 8) := by
  unfold streamBlock
  simp only [hlen]
  by_cases ht : adbBlockType blk = adbBlockAdb
  · rw [ht]
    obtain ⟨r, is', hrun, hstop, h', hb', halign⟩ :=
      streamAdb_holds crypto t ectx hcb hops rd h ht (hadb ht).1 (hadb ht).2
    exact ⟨r, is', hrun, hstop, h'.nonneg, hb', fun _ => h', fun _ => halign⟩
  rw [if_neg ht]
  replace hleft := hleft ht
  by_cases ht' : adbBlockType blk = adbBlockSig
  · rw [if_pos ht']
    obtain ⟨is1, hpeek, h1, hb1⟩ := apkIstreamPeek_holds hops h (hsig ht')
    have hthere := (apkIstreamPeek_takes pay.length (.refl : IstreamTakes ops is [] is)).2
    have halign := apkIstreamPeek_align ops is pay.length
    rw [if_pos (by rw [length_append]; omega), take_left] at hpeek
    rw [hpeek] at hthere halign
    rw [ht'] at hleft ⊢
    obtain ⟨r, is', hrun, hstop, h', hb', halign'⟩ := streamSegment_holds hcb hops
      (readerSignature crypto t rd pay) blk h1 (.sig pay) (by rw [ht']; exact hleft)
    rw [hpeek]
    simp only
    rw [hrun]
    rw [ht'] at hstop ⊢
    refine ⟨r, is', rfl, hstop, h'.nonneg, hb'.trans hb1, fun _ => h', fun _ => ?_⟩
    rw [halign' hthere.1]
    dsimp only at halign
    omega
  rw [if_neg ht']
  have hout : parseSwitch crypto t ectx rd (adbBlockType blk) pay =
      (if rd.trusted then 0 else -apkeSignatureUntrusted, .data,
        { rd with allowed := 2 ^ adbBlockData }) := by
    unfold parseSwitch
    simp only
    split_ifs <;> rfl
  have hno : adbBlockType blk = adbBlockAdb ∨ adbBlockType blk = adbBlockSig → False :=
    fun h => h.elim ht ht'
  unfold blockLeft blockOutcome at hleft
  unfold blockOutcome
  simp only [hout] at hleft ⊢
  by_cases htr : rd.trusted = true
  · simp only [htr] at hleft ⊢
    obtain ⟨r, is', hrun, hstop, h', hb', -⟩ := streamSegment_holds hcb hops
      { rd with allowed := 2 ^ adbBlockData } blk h .data hleft
    rw [htr] at hrun
    rw [hrun]
    exact ⟨r, is', rfl, hstop, h'.nonneg, hb', fun _ => h', fun hk => (hno hk).elim⟩
  · have hneg : -apkeSignatureUntrusted < 0 := by decide
    simp only [htr]
    exact ⟨_, is, rfl, ⟨fun _ => rfl, fun h0 => absurd h0 (not_le.2 hneg)⟩, h.nonneg, rfl,
      fun h0 => absurd h0 (not_le.2 hneg), fun hk => (hno hk).elim⟩

end

theorem ofBytes_take (b : Bytes) :
    let blk := ofBytes b
    let hdr := ofBytes (b.take (adbBlockHdrsize blk))
    adbBlockType hdr = adbBlockType blk ∧ adbBlockLength hdr = adbBlockLength blk ∧
      adbBlockPadding hdr = adbBlockPadding blk := by
  intro blk hdr
  have hts : hdr.typeSize = blk.typeSize := by
    change leNat ((b.take (adbBlockHdrsize blk)).take 4) = leNat (b.take 4)
    rw [take_take, Nat.min_eq_left]
    rcases adbBlockHdrsize_cases blk with h | h <;> omega
  have hext : adbBlockIsExt hdr = adbBlockIsExt blk := by
    unfold adbBlockIsExt
    rw [hts]
  have hraw : adbBlockRawsize hdr = adbBlockRawsize blk := by
    unfold adbBlockRawsize
    rw [hext, hts]
    split_ifs with h
    · change leNat (((b.take (adbBlockHdrsize blk)).drop 8).take 8) = leNat ((b.drop 8).take 8)
      rw [adbBlockHdrsize, if_pos h, drop_take, take_take, Nat.min_self]
    · rfl
  have hhdr : adbBlockHdrsize hdr = adbBlockHdrsize blk := by
    unfold adbBlockHdrsize
    rw [hext]
  refine ⟨?_, ?_, ?_⟩
  · unfold adbBlockType
    rw [hext, hts]
  · unfold adbBlockLength
    rw [hraw, hhdr]
  · unfold adbBlockPadding
    rw [adbBlockSize_congr hraw, hraw]

theorem streamHdrsize_take (b : Bytes) :
    streamHdrsize (.ok (b.take 4)) = adbBlockHdrsize (ofBytes b) := by
  unfold streamHdrsize adbBlockHdrsize adbBlockIsExt ofBytes
  simp [take_take]

section

variable (cb : AdbCallback κ) (hops : Delivers ops R) (rd : AdbReader κ) (h : is.Ready R rest)
    (hroom : 12 ≤ is.buf.length)
include hops h hroom

/-- a header that is cut off ends the loop with the number of bytes that are left -/
theorem streamStep_short (hshort : CutHeader rest) :
    ∃ is', streamStep crypto t ectx cb ops is rd = (some (rest.length : ℤ), is', rd) ∧ 0 ≤ is'.err := by
  obtain ⟨is1, hpeek, h1, hb1⟩ := apkIstreamPeek_holds hops h (show is.ptr % 8 + 4 ≤ is.buf.length by omega)
  unfold streamStep
  rw [hpeek]
  have hlt : rest.length < streamHdrsize
      (if 4 ≤ rest.length then .ok (rest.take 4) else .error (-apkeEof)) := by
    by_cases h4 : 4 ≤ rest.length
    · rw [if_pos h4, streamHdrsize_take]
      omega
    · rw [if_neg h4]
      change rest.length < 16
      omega
  simp only
  generalize streamHdrsize _ = hs at hlt ⊢
  obtain ⟨is2, hread, h2, -⟩ := apkIstreamReadMax_holds hops h1 hs
  simp only [hread]
  rw [take_of_length_le hlt.le, if_pos (by omega)]
  exact ⟨is2, rfl, h2.nonneg⟩

theorem streamStep_header (hcut : ¬ CutHeader rest) :
    ∃ is', streamStep crypto t ectx cb ops is rd = streamChecked crypto t ectx cb ops is' rd
        (ofBytes (rest.take (adbBlockHdrsize (ofBytes rest)))) ∧
      is'.Ready R (rest.drop (adbBlockHdrsize (ofBytes rest))) ∧
      is'.buf.length = is.buf.length ∧ is'.ptr % 8 = (is.ptr + adbBlockHdrsize (ofBytes rest)) % 8 := by
  obtain ⟨is1, hpeek, h1, hb1⟩ := apkIstreamPeek_holds hops h (show is.ptr % 8 + 4 ≤ is.buf.length by omega)
  have halign := apkIstreamPeek_align ops is 4
  obtain ⟨h4, hhdr⟩ := not_or.1 hcut
  rw [if_pos (not_lt.1 h4)] at hpeek
  rw [hpeek] at halign
  unfold streamStep
  rw [hpeek]
  simp only [streamHdrsize_take]
  obtain ⟨is2, hread, h2, hb2⟩ := apkIstreamReadMax_holds hops h1 (adbBlockHdrsize (ofBytes rest))
  have halign' := apkIstreamReadMax_align ops is1 (adbBlockHdrsize (ofBytes rest))
  rw [hread, length_take_of_le (not_lt.1 hhdr)] at halign'
  rw [length_take_of_le (not_lt.1 hhdr)] at hread
  simp only [hread, ne_eq, not_true_eq_false, reduceIte]
  refine ⟨is2, rfl, h2, hb2.trans hb1, ?_⟩
  dsimp only at halign halign'
  omega

end

/-- a block that is there as a whole, with its padding -/
structure WholeBlock (blk : AdbBlock) (rest : Bytes) : Prop where
  hdrsize_le : adbBlockHdrsize blk ≤ adbBlockRawsize blk
  no_wrap : adbBlockRawsize blk + 7 < 2 ^ 64
  size_le : adbBlockSize blk ≤ rest.length

theorem WholeBlock.sizes (h : WholeBlock blk rest) :
    adbBlockHdrsize blk + adbBlockLength blk + adbBlockPadding blk = adbBlockSize blk ∧
      4 ≤ adbBlockHdrsize blk := by
  have hno := h.no_wrap
  have hlen := adbBlockLength_eq h.hdrsize_le (by omega)
  have hpad := adbBlockPadding_eq hno
  rcases adbBlockHdrsize_cases blk with hh | hh <;> omega

theorem WholeBlock.parts (h : WholeBlock blk rest) : 4 ≤ rest.length ∧ adbBlockHdrsize blk ≤ rest.length ∧
      adbBlockHdrsize blk + adbBlockLength blk ≤ rest.length ∧
      ((rest.drop (adbBlockHdrsize blk)).take (adbBlockLength blk)).length = adbBlockLength blk ∧
      adbBlockPadding blk ≤ (rest.drop (adbBlockHdrsize blk + adbBlockLength blk)).length := by
  obtain ⟨hsum, h4⟩ := h.sizes
  have hle := h.size_le
  rw [length_take, length_drop, length_drop]
  omega

theorem WholeBlock.aligned (h : WholeBlock blk rest) : adbBlockSize blk % 8 = 0 := by
  rw [adbBlockSize_eq h.no_wrap]
  exact Nat.mul_mod_left _ _

theorem WholeBlock.header (h : WholeBlock (ofBytes rest) rest) : ¬ CutHeader rest := by
  obtain ⟨h4, hhdr, -⟩ := h.parts
  exact not_or.2 ⟨not_lt.2 h4, not_lt.2 hhdr⟩

def payload (rest : Bytes) : Bytes :=
  (rest.drop (adbBlockHdrsize (ofBytes rest))).take (adbBlockLength (ofBytes rest))

theorem drop_take_append (l : Bytes) (i j : ℕ) : l.drop i = (l.drop i).take j ++ l.drop (i + j) := by
  rw [← drop_drop, take_append_drop]

theorem streamStep_whole (hcb : cb.OfPayload f left) (hops : Delivers ops R) (rd : AdbReader κ)
    {out : ℤ × AdbReader κ} (h : is.Ready R rest) (hroom : 12 ≤ is.buf.length)
    (hw : WholeBlock (ofBytes rest) rest) (h63 : rest.length < 2 ^ 63)
    (hallowed : ¬ Refused rd.allowed rest)
    (hadb : adbBlockType (ofBytes rest) = adbBlockAdb → 16 ≤ adbBlockLength (ofBytes rest))
    (hsig : adbBlockType (ofBytes rest) = adbBlockSig →
      (is.ptr + adbBlockHdrsize (ofBytes rest)) % 8 + adbBlockLength (ofBytes rest) ≤ is.buf.length)
    (hout : blockOutcome crypto t ectx f rd (adbBlockType (ofBytes rest)) (payload rest) = out)
    (hleft : adbBlockType (ofBytes rest) ≠ adbBlockAdb →
      blockLeft crypto t ectx left rd (adbBlockType (ofBytes rest)) (payload rest) = 0 ∨
      blockLeft crypto t ectx left rd (adbBlockType (ofBytes rest)) (payload rest) = out.1) :
    ∃ is', streamStep crypto t ectx cb ops is rd =
        (if out.1 < 0 then some out.1 else none, is', out.2) ∧ 0 ≤ is'.err ∧
      (0 ≤ out.1 → is'.Ready R (rest.drop (adbBlockSize (ofBytes rest))) ∧
        is'.buf.length = is.buf.length ∧
        (adbBlockType (ofBytes rest) = adbBlockAdb ∨ adbBlockType (ofBytes rest) = adbBlockSig →
          is'.ptr % 8 = is.ptr % 8)) := by
  obtain ⟨htype, hlen, hpad⟩ := ofBytes_take rest
  obtain ⟨-, -, hend, hpay, hpadding⟩ := hw.parts
  obtain ⟨is1, hstep, h1, hb1, halign1⟩ := streamStep_header crypto t ectx cb hops rd h hroom hw.header
  change (payload rest).length = _ at hpay
  have hsplit : rest.drop (adbBlockHdrsize (ofBytes rest)) = payload rest ++
      rest.drop (adbBlockHdrsize (ofBytes rest) + adbBlockLength (ofBytes rest)) := by
    exact drop_take_append _ _ _
  rw [hsplit] at h1
  have hadb' : adbBlockType (ofBytes (rest.take (adbBlockHdrsize (ofBytes rest)))) =
      adbBlockAdb → 16 ≤ (payload rest).length ∧ (payload rest).length < 2 ^ 63 := by
    intro ht
    rw [hpay]
    exact ⟨hadb (htype.symm.trans ht), (Nat.le_trans (Nat.le_add_left _ _) hend).trans_lt h63⟩
  have hsig' : adbBlockType (ofBytes (rest.take (adbBlockHdrsize (ofBytes rest)))) =
      adbBlockSig → is1.ptr % 8 + (payload rest).length ≤ is1.buf.length := by
    intro ht
    rw [hpay, hb1, halign1]
    exact hsig (htype.symm.trans ht)
  obtain ⟨r, is2, hblock, hstop, herr2, hb2, h2, halign2⟩ := streamBlock_holds crypto t ectx hcb hops rd h1
    (hlen.trans hpay.symm) hadb' hsig' (by rw [htype, hout]; exact hleft)
  rw [htype, hout] at hblock hstop h2
  rw [htype] at halign2
  rw [hstep]
  unfold streamChecked
  rw [htype, if_neg hallowed, hblock]
  simp only
  by_cases hneg : out.1 < 0
  · rw [hstop.1 hneg, if_pos hneg, if_pos hneg]
    exact ⟨is2, rfl, herr2, fun h0 => absurd h0 (not_le.2 hneg)⟩
  rw [if_neg (not_lt.2 (hstop.2 (not_lt.1 hneg))), if_neg hneg]
  obtain ⟨is3, hskip, h3, hb3⟩ := apkIstreamSkip_holds hops.feeds (h2 (not_lt.1 hneg)) hpadding
  have halign3 := apkIstreamSkip_align hops.feeds (h2 (not_lt.1 hneg)) hpadding
  rw [hskip] at halign3
  unfold streamPadding
  rw [hpad, hskip]
  simp only [toInt32_of_lt (adbBlockPadding_lt _), if_neg (not_lt.2 (Int.natCast_nonneg _))]
  rw [drop_drop, hw.sizes.1] at h3
  refine ⟨is3, rfl, h3.nonneg, fun _ => ⟨h3, hb3.trans (hb2.trans hb1), fun hk => ?_⟩⟩
  have hsize := hw.aligned
  rw [← hw.sizes.1] at hsize
  have halign2' := halign2 hk
  dsimp only at halign3
  omega

end stream

section memory

/-- what a mapping has from an offset on -/
structure RestAt (data : Bytes) (pos : ℕ) (rest : Bytes) : Prop where
  le : pos ≤ data.length
  drop : data.drop pos = rest

/-- a block of a size that cannot be -/
abbrev BadSize (rest : Bytes) : Prop :=
  adbBlockRawsize (ofBytes rest) < adbBlockHdrsize (ofBytes rest) ∨ rest.length < adbBlockSize (ofBytes rest)

variable {data rest : Bytes} {pos : ℕ} (h : RestAt data pos rest)
include h

theorem RestAt.length : rest.length = data.length - pos := by
  rw [← h.drop, length_drop]

theorem RestAt.next {size : ℕ} (hle : size ≤ rest.length) : RestAt data (pos + size) (rest.drop size) := by
  have hpos := h.le
  have hlen := h.length
  exact ⟨by omega, by rw [← h.drop, drop_drop]⟩

theorem adbBlockValidate_short (hshort : CutHeader rest) :
    adbBlockValidate data pos = if rest.length = 0 then .ok none else .error (-apkeAdbBlock) := by
  have hpos := h.le
  have hlen := h.length
  unfold adbBlockValidate
  simp only [h.drop, ← hlen]
  by_cases h0 : pos = data.length
  · rw [if_pos h0, if_pos (by omega)]
  rw [if_neg h0, if_neg (by omega : ¬ rest.length = 0)]
  by_cases h4 : rest.length < 4
  · rw [if_pos h4]
  · rw [if_neg h4, if_pos (hshort.resolve_left h4)]

theorem adbBlockValidate_header (hcut : ¬ CutHeader rest) : adbBlockValidate data pos =
    if BadSize rest then .error (-apkeAdbBlock) else .ok (some (ofBytes rest)) := by
  have hlen := h.length
  obtain ⟨h4, hhdr⟩ := not_or.1 hcut
  unfold adbBlockValidate
  simp only [h.drop, ← hlen]
  rw [if_neg (by omega), if_neg h4, if_neg hhdr]
  by_cases hraw : adbBlockRawsize (ofBytes rest) < adbBlockHdrsize (ofBytes rest)
  · rw [if_pos hraw, if_pos (Or.inl hraw)]
  · by_cases hsize : rest.length < adbBlockSize (ofBytes rest)
    · rw [if_neg hraw, if_pos hsize, if_pos (Or.inr hsize)]
    · rw [if_neg hraw, if_neg hsize, if_neg (not_or.2 ⟨hraw, hsize⟩)]

/-- what is behind the mapping is not read for a block that is in it -/
theorem RestAt.take_drop {beyond : Bytes} {i j : ℕ} (hle : i + j ≤ rest.length) :
    ((data ++ beyond).drop (pos + i)).take j = (rest.drop i).take j := by
  have hpos := h.le
  have hlen := h.length
  rw [← h.drop, drop_drop, drop_append_of_le_length (by omega),
    take_append_of_le_length (by rw [length_drop]; omega)]

theorem parseLoop_whole (hcb : cb.OfPayload f left) (rd : AdbReader κ) {out : ℤ × AdbReader κ}
    (beyond : Bytes) (n : ℕ) (r : ℤ) (hw : WholeBlock (ofBytes rest) rest)
    (hallowed : ¬ Refused rd.allowed rest)
    (hout : blockOutcome crypto t ectx f rd (adbBlockType (ofBytes rest)) (payload rest) = out) :
    parseLoop crypto t ectx cb data beyond (n + 1) pos r rd =
      if out.1 < 0 then (some out.1, out.2)
      else parseLoop crypto t ectx cb data beyond n (pos + adbBlockSize (ofBytes rest)) out.1 out.2 := by
  obtain ⟨-, -, hend, -⟩ := hw.parts
  have hval := adbBlockValidate_header h hw.header
  rw [if_neg (not_or.2 ⟨not_lt.2 hw.hdrsize_le, not_lt.2 hw.size_le⟩)] at hval
  have hpay : ((data ++ beyond).drop (pos + adbBlockHdrsize (ofBytes rest))).take
      (adbBlockLength (ofBytes rest)) = payload rest := h.take_drop hend
  rw [parseLoop, hval]
  simp only
  rw [hpay, if_neg hallowed]
  unfold blockOutcome at hout
  generalize parseSwitch crypto t ectx rd (adbBlockType (ofBytes rest))
    (payload rest) = sw at hout ⊢
  by_cases hsw : sw.1 < 0
  · rw [if_pos hsw] at hout
    rw [if_pos hsw, ← hout, if_pos hsw]
  rw [if_neg hsw] at hout
  obtain ⟨is', hcall⟩ := readerCall_blob hcb sw.2.2 (ofBytes rest) sw.2.1 (payload rest)
  rw [if_neg hsw, hcall, ← hout]

end memory

/-- an `ADB` block that both readers refuse for its size -/
def AdbTooShort (blk : AdbBlock) (rest : Bytes) : Prop :=
  adbBlockRawsize blk < adbBlockHdrsize blk ∨ adbBlockRawsize blk + 7 < 2 ^ 64 ∧
    (adbBlockLength blk < 8 ∨ adbBlockLength blk < 16 ∧ rest.length < adbBlockSize blk)

variable (f left) in
/-- Bytes that are read alike from a state of the reader on, with a buffer of `room` bytes: they end, or a
header is cut off, or the block is refused, or it is whole, an `ADB` block of at least 16 bytes, a
signature that fits the buffer behind its header. The callback then does not cancel and leaves no error
but its own on the stream, a positive result is not the last one, and if it goes on what follows is
read alike. -/
inductive ReadAlike (room : ℕ) : AdbReader κ → Bytes → Prop
  | short {rd : AdbReader κ} {rest : Bytes} (h : rest.length < 4 ∨
      rest.length < adbBlockHdrsize (ofBytes rest)) : ReadAlike room rd rest
  | refused {rd : AdbReader κ} {rest : Bytes} (h : adbBlockMax ≤ adbBlockType (ofBytes rest) ∨
      (!rd.allowed.testBit (adbBlockType (ofBytes rest))) = true) : ReadAlike room rd rest
  | adbShort {rd : AdbReader κ} {rest : Bytes} (ht : adbBlockType (ofBytes rest) = adbBlockAdb)
      (h : AdbTooShort (ofBytes rest) rest) : ReadAlike room rd rest
  | block {rd : AdbReader κ} {rest : Bytes} {out : ℤ × AdbReader κ}
      (hout : blockOutcome crypto t ectx f rd (adbBlockType (ofBytes rest)) (payload rest) = out)
      (hw : WholeBlock (ofBytes rest) rest)
      (hadb : adbBlockType (ofBytes rest) = adbBlockAdb → 16 ≤ adbBlockLength (ofBytes rest))
      (hsig : adbBlockType (ofBytes rest) = adbBlockSig →
        adbBlockHdrsize (ofBytes rest) % 8 + adbBlockLength (ofBytes rest) ≤ room)
      (hcancel : out.1 ≠ -ecanceled)
      (hleft : adbBlockType (ofBytes rest) ≠ adbBlockAdb →
        blockLeft crypto t ectx left rd (adbBlockType (ofBytes rest)) (payload rest) = 0 ∨
        blockLeft crypto t ectx left rd (adbBlockType (ofBytes rest)) (payload rest) = out.1)
      (hlast : 0 < out.1 → rest.drop (adbBlockSize (ofBytes rest)) ≠ [])
      (next : 0 ≤ out.1 → ReadAlike room out.2 (rest.drop (adbBlockSize (ofBytes rest)))) :
      ReadAlike room rd rest

/-- the result of a loop, where a positive one is a block that is not right -/
def loopResult (r : ℤ) : ℤ := if 0 < r then -apkeAdbBlock else r

/-- how the loops of both readers end: with one result, or with the number of bytes that were left
in the stream -/
structure EndAlike (r r' : ℤ) (rd rd' : AdbReader κ) : Prop where
  result : loopResult r' = loopResult r
  ne : r ≠ -ecanceled
  db : rd'.db = rd.db
  trusted : rd'.trusted = rd.trusted
  cbs : rd'.cbs = rd.cbs
  calls : rd'.calls = rd.calls

theorem endAlike_refl (hne : r ≠ -ecanceled) : EndAlike r r rd rd := ⟨rfl, hne, rfl, rfl, rfl, rfl⟩

theorem loopResult_of_pos (h : 0 < r) : loopResult r = -apkeAdbBlock := if_pos h

/-- both loops find a block that is not right: the one in memory returns a result that it has -/
theorem loopResult_stop (h : 0 ≤ r) (hr : r' = -apkeAdbBlock ∨ 0 < r') :
    loopResult r' = loopResult (if r = 0 then -apkeAdbBlock else r) ∧
      (if r = 0 then -apkeAdbBlock else r) ≠ -ecanceled := by
  have hblock : loopResult (-apkeAdbBlock) = -apkeAdbBlock := rfl
  have hr' : loopResult r' = -apkeAdbBlock := by
    rcases hr with rfl | hpos
    · rfl
    · exact loopResult_of_pos hpos
  rw [hr']
  split_ifs with h0
  · exact ⟨rfl, by decide⟩
  · have hpos : 0 < r := lt_of_le_of_ne h (Ne.symm h0)
    have hneg : -ecanceled < 0 := by decide
    exact ⟨(loopResult_of_pos hpos).symm, (hneg.trans hpos).ne'⟩

theorem loopResult_le : loopResult r ≤ 0 := by
  unfold loopResult
  split_ifs with h
  · decide
  · exact not_lt.1 h

theorem EndAlike.logged (h : EndAlike r r' rd rd') {cbs : κ} {log : List (Adb × ℕ × Bytes)}
    (hl : Logged f cbs log rd) : Logged f cbs log rd' :=
  ⟨h.calls.trans hl.calls, h.cbs.trans hl.cbs⟩

theorem EndAlike.ends (h : EndAlike r r' rd rd') : (streamEnd r' rd').1 = (parseEnd r rd).1 ∧
      (streamEnd r' rd').2.db.adb = (parseEnd r rd).2.db.adb ∧ (parseEnd r rd).1 ≤ 0 := by
  have hne : loopResult r ≠ -ecanceled := by
    unfold loopResult
    split_ifs
    · decide
    · exact h.ne
  have hle := loopResult_le (r := r)
  unfold streamEnd parseEnd
  rw [← loopResult, ← loopResult, h.result]
  generalize loopResult r = x at hne hle ⊢
  simp only [h.trusted, h.db]
  by_cases h0 : x = 0
  · subst h0
    by_cases ht : rd.trusted = true
    · by_cases hadb : rd.db.adb = none
      · simp [ht, hadb, apkeAdbBlock, ecanceled]
      · simp [ht, hadb, h.db]
    · simp [ht, apkeSignatureUntrusted, ecanceled]
  · simp [h0, hne, hle]

section

variable {σ : Type} {ops : IstreamOps σ} {R : σ → Bytes → Prop} {data : Bytes} {pos : ℕ}
  {is : Istream σ} {rd : AdbReader κ} {cbs : κ}

/-- both loops end alike, and the same calls were made -/
def LoopsAlike (cb : AdbCallback κ) (f : κ → Adb → ℕ → Bytes → ℤ × κ) (ops : IstreamOps σ)
    (data beyond : Bytes) (cbs : κ) (n pos : ℕ) (r₀ : ℤ) (is : Istream σ) (rd : AdbReader κ) : Prop :=
  ∃ r r' is' rd1 rd2 log, parseLoop crypto t ectx cb data beyond n pos r₀ rd = (some r, rd1) ∧
    streamLoop crypto t ectx cb ops n is rd = (some r', is', rd2) ∧ EndAlike r r' rd1 rd2 ∧
    0 ≤ is'.err ∧ Logged f cbs log rd1

variable {rest : Bytes} {blk : AdbBlock} {n : ℕ}

theorem adbTooShort_cases (h : AdbTooShort blk rest) (hraw : adbBlockRawsize blk < 2 ^ 64) :
    (adbBlockLength blk < 16 ∨ 2 ^ 63 ≤ adbBlockLength blk) ∧
      (¬ (adbBlockRawsize blk < adbBlockHdrsize blk ∨ rest.length < adbBlockSize blk) →
        adbBlockLength blk < 8) := by
  rcases h with h | ⟨-, h | h⟩
  · refine ⟨Or.inr ?_, fun hn => absurd (Or.inl h) hn⟩
    unfold adbBlockLength
    rcases adbBlockHdrsize_cases blk with hh | hh <;> omega
  · exact ⟨Or.inl (by omega), fun _ => h⟩
  · exact ⟨Or.inl h.1, fun hn => absurd (Or.inr h.2) hn⟩

section

variable {log : List (Adb × ℕ × Bytes)} (hops : Delivers ops R) (beyond : Bytes) (n : ℕ)
  (hat : RestAt data pos rest) (h : is.Ready R rest) (h12 : 12 ≤ is.buf.length)
  (hlog : Logged f cbs log rd) {r₀ : ℤ} (hr₀ : 0 ≤ r₀)

include hops hat h h12 hlog hr₀

theorem loopsAlike_short (hlast : 0 < r₀ → rest ≠ []) (hshort : CutHeader rest) :
    LoopsAlike crypto t ectx cb f ops data beyond cbs (n + 1) pos r₀ is rd := by
  obtain ⟨is', hstep, herr'⟩ := streamStep_short crypto t ectx cb hops rd h h12 hshort
  unfold LoopsAlike
  rw [parseLoop, adbBlockValidate_short hat hshort, streamLoop, hstep]
  by_cases h0 : rest.length = 0
  · obtain rfl : r₀ = 0 := by
      by_contra hne
      exact hlast (lt_of_le_of_ne hr₀ (Ne.symm hne)) (length_eq_zero_iff.1 h0)
    simp only [h0]
    exact ⟨_, _, is', rd, rd, log, rfl, rfl, endAlike_refl (by decide), herr', hlog⟩
  · simp only [if_neg h0]
    have hpos : (0 : ℤ) < rest.length := by omega
    obtain ⟨hres, hne⟩ := loopResult_stop hr₀ (Or.inr hpos)
    exact ⟨_, _, is', rd, rd, log, rfl, rfl, ⟨hres, hne, rfl, rfl, rfl, rfl⟩, herr', hlog⟩

theorem loopsAlike_refused (hcut : ¬ CutHeader rest) (href : Refused rd.allowed rest) :
    LoopsAlike crypto t ectx cb f ops data beyond cbs (n + 1) pos r₀ is rd := by
  obtain ⟨is', hstep, h', -⟩ := streamStep_header crypto t ectx cb hops rd h h12 hcut
  rw [streamChecked, (ofBytes_take _).1, if_pos href] at hstep
  unfold LoopsAlike
  rw [parseLoop, adbBlockValidate_header hat hcut, streamLoop, hstep]
  by_cases hbad : BadSize rest
  · simp only [if_pos hbad]
    obtain ⟨hres, hne⟩ := loopResult_stop hr₀ (Or.inl rfl)
    exact ⟨_, _, is', rd, rd, log, rfl, rfl, ⟨hres, hne, rfl, rfl, rfl, rfl⟩, h'.nonneg, hlog⟩
  · simp only [if_neg hbad, if_pos href]
    exact ⟨_, _, is', rd, rd, log, rfl, rfl, endAlike_refl (by decide), h'.nonneg, hlog⟩

theorem loopsAlike_adbShort (hcut : ¬ CutHeader rest) (hallowed : ¬ Refused rd.allowed rest)
    (ht : adbBlockType (ofBytes rest) = adbBlockAdb)
    (hshort : AdbTooShort (ofBytes rest) rest) :
    LoopsAlike crypto t ectx cb f ops data beyond cbs (n + 1) pos r₀ is rd := by
  have hneg : -apkeAdbBlock < 0 := by decide
  obtain ⟨hsz, h8⟩ := adbTooShort_cases hshort ofBytes_rawsize_lt
  obtain ⟨htype, hlen, -⟩ := ofBytes_take rest
  obtain ⟨is', hstep, h', -⟩ := streamStep_header crypto t ectx cb hops rd h h12 hcut
  rw [streamChecked, htype, if_neg hallowed, streamBlock, htype, if_pos ht, hlen, streamAdb,
    if_pos hsz] at hstep
  simp only [if_pos hneg] at hstep
  have hstream : streamLoop crypto t ectx cb ops (n + 1) is rd = (some (-apkeAdbBlock), is',
      { rd with allowed := 2 ^ adbBlockSig ||| 2 ^ adbBlockData }) := by rw [streamLoop, hstep]
  unfold LoopsAlike
  rw [hstream, parseLoop, adbBlockValidate_header hat hcut]
  by_cases hbad : BadSize rest
  · simp only [if_pos hbad]
    obtain ⟨hres, hne⟩ := loopResult_stop hr₀ (Or.inl rfl)
    exact ⟨_, _, is', rd, _, log, rfl, rfl, ⟨hres, hne, rfl, rfl, rfl, rfl⟩, h'.nonneg, hlog⟩
  have hb : ∀ b : Bytes, (b.take (adbBlockLength (ofBytes rest))).length < 8 :=
    fun b => (length_take_le _ _).trans_lt (h8 hbad)
  simp only [if_neg hbad, if_neg hallowed]
  rw [parseSwitch, if_pos ht]
  simp only [if_pos (hb _)]
  exact ⟨_, _, is', _, _, log, rfl, rfl, ⟨rfl, by decide, rfl, rfl, rfl, rfl⟩, h'.nonneg,
    ⟨hlog.calls, hlog.cbs⟩⟩

end

theorem WholeBlock.size_pos (h : WholeBlock blk rest) : 0 < adbBlockSize blk := by
  obtain ⟨hsum, h4⟩ := h.sizes
  omega

/-- a block that is not refused is of a type that is allowed -/
theorem allowed_ne_data (href : ¬ Refused rd.allowed rest)
    (ht : adbBlockType (ofBytes rest) = adbBlockAdb ∨ adbBlockType (ofBytes rest) = adbBlockSig) :
    rd.allowed ≠ 2 ^ adbBlockData := by
  intro hm
  refine href (Or.inr ?_)
  rw [hm]
  rcases ht with ht | ht <;> rw [ht] <;> decide

theorem nextAllowed_ne_data {m type : ℕ} (h : nextAllowed m type ≠ 2 ^ adbBlockData) :
    type = adbBlockAdb ∨ type = adbBlockSig := by
  unfold nextAllowed at h
  by_contra hno
  rw [not_or] at hno
  rw [if_neg hno.1, if_neg hno.2] at h
  exact h rfl

theorem loops_alike (hcb : cb.OfPayload f left) (hops : Delivers ops R) (beyond : Bytes)
    (h63 : data.length < 2 ^ 63) {room : ℕ} (h : ReadAlike crypto t ectx f left room rd rest) :
    ∀ (n pos : ℕ) (r₀ : ℤ) (is : Istream σ) (log : List (Adb × ℕ × Bytes)), RestAt data pos rest →
      is.Ready R rest → 12 ≤ is.buf.length → room ≤ is.buf.length →
      (rd.allowed ≠ 2 ^ adbBlockData → is.ptr % 8 = 0) → 0 ≤ r₀ → (0 < r₀ → rest ≠ []) →
    Logged f cbs log rd → rest.length < n →
    LoopsAlike crypto t ectx cb f ops data beyond cbs n pos r₀ is rd := by
  induction h with
  | short hshort =>
    rintro (_ | n) pos r₀ is log hat h h12 hroom halign hr₀ hlast hlog hn
    · exact absurd hn (Nat.not_lt_zero _)
    exact loopsAlike_short crypto t ectx hops beyond n hat h h12 hlog hr₀ hlast hshort
  | @refused rd rest href =>
    rintro (_ | n) pos r₀ is log hat h h12 hroom halign hr₀ hlast hlog hn
    · exact absurd hn (Nat.not_lt_zero _)
    by_cases hshort : CutHeader rest
    · exact loopsAlike_short crypto t ectx hops beyond n hat h h12 hlog hr₀ hlast hshort
    exact loopsAlike_refused crypto t ectx hops beyond n hat h h12 hlog hr₀ hshort href
  | @adbShort rd rest ht hsmall =>
    rintro (_ | n) pos r₀ is log hat h h12 hroom halign hr₀ hlast hlog hn
    · exact absurd hn (Nat.not_lt_zero _)
    by_cases hshort : CutHeader rest
    · exact loopsAlike_short crypto t ectx hops beyond n hat h h12 hlog hr₀ hlast hshort
    by_cases href : Refused rd.allowed rest
    · exact loopsAlike_refused crypto t ectx hops beyond n hat h h12 hlog hr₀ hshort href
    · exact loopsAlike_adbShort crypto t ectx hops beyond n hat h h12 hlog hr₀ hshort href ht hsmall
  | @block rd rest out hout hw hadb hsig hcancel hleft hend _ ih =>
    rintro (_ | n) pos r₀ is log hat h h12 hroom halign hr₀ hlast hlog hn
    · exact absurd hn (Nat.not_lt_zero _)
    by_cases href : Refused rd.allowed rest
    · exact loopsAlike_refused crypto t ectx hops beyond n hat h h12 hlog hr₀ hw.header href
    have hlt : rest.length < 2 ^ 63 := by
      rw [hat.length]
      exact (Nat.sub_le _ _).trans_lt h63
    -- in front of a signature the stream is at a multiple of 8
    have hsig' : adbBlockType (ofBytes rest) = adbBlockSig →
        (is.ptr + adbBlockHdrsize (ofBytes rest)) % 8 + adbBlockLength (ofBytes rest) ≤ is.buf.length := by
      intro ht
      have h0 := halign (allowed_ne_data href (Or.inr ht))
      have := hsig ht
      omega
    obtain ⟨is', hstep, herr', hnext⟩ := streamStep_whole crypto t ectx hcb hops rd h h12 hw hlt
      href hadb hsig' hout hleft
    have hparse := parseLoop_whole crypto t ectx hat hcb rd beyond n r₀ hw href hout
    obtain ⟨log', hlog'⟩ := hlog.block crypto t ectx hout
    have hall := blockOutcome_allowed crypto t ectx hout
    unfold LoopsAlike
    rw [hparse, streamLoop, hstep]
    by_cases hneg : out.1 < 0
    · simp only [if_pos hneg]
      exact ⟨_, _, is', out.2, out.2, log', rfl, rfl, endAlike_refl hcancel, herr', hlog'⟩
    rw [if_neg hneg, if_neg hneg]
    obtain ⟨hready, hb, hkept⟩ := hnext (not_lt.1 hneg)
    have hn' : (rest.drop (adbBlockSize (ofBytes rest))).length < n := by
      have hsize := hw.size_pos
      have hle := hw.size_le
      rw [length_drop]
      omega
    refine ih (not_lt.1 hneg) n _ out.1 is' log' (hat.next hw.size_le) hready (hb ▸ h12) (hb ▸ hroom) ?_
      (not_lt.1 hneg) hend hlog' hn'
    intro hne
    rw [hall] at hne
    have hty := nextAllowed_ne_data hne
    rw [hkept hty]
    exact halign (allowed_ne_data href hty)

theorem parseEnd_frame : (parseEnd r rd).2.calls = rd.calls ∧ (parseEnd r rd).2.cbs = rd.cbs ∧
      ((parseEnd r rd).1 ≠ 0 → (parseEnd r rd).2.db.adb = none) := by
  have h2 : (parseEnd r rd).2 =
      if (parseEnd r rd).1 ≠ 0 then { rd with db := { rd.db with adb := none } } else rd := rfl
  rw [h2]
  by_cases he : (parseEnd r rd).1 ≠ 0
  · rw [if_pos he]
    exact ⟨rfl, rfl, fun _ => rfl⟩
  · rw [if_neg he]
    exact ⟨rfl, rfl, fun hne => absurd hne he⟩

theorem streamEnd_frame : (streamEnd r rd).2.calls = rd.calls ∧ (streamEnd r rd).2.cbs = rd.cbs := by
  unfold streamEnd
  simp only
  split_ifs <;> exact ⟨rfl, rfl⟩

theorem LoopsAlike.finish {beyond : Bytes}
    (h : LoopsAlike crypto t ectx cb f ops data beyond cbs n 0 0 is rd)
    (hclose : ∀ s e, ops.close s e = if e < 0 then e else 0) :
    ∃ r r' is' rd1 rd2 log, adbMParse crypto t ectx cb data beyond n rd = (some r, rd1) ∧
      streamLoop crypto t ectx cb ops n is rd = (some r', is', rd2) ∧
      apkIstreamCloseError ops is' (streamEnd r' rd2).1 = r ∧
      (streamEnd r' rd2).2.db.adb = (if r ≠ 0 then { rd1 with db := ⟨0, none⟩ } else rd1).db.adb ∧
      Logged f cbs log (if r ≠ 0 then { rd1 with db := ⟨0, none⟩ } else rd1) ∧
      Logged f cbs log (streamEnd r' rd2).2 := by
  obtain ⟨r, r', is', rd1, rd2, log, hparse, hstream, halike, herr', hlog⟩ := h
  obtain ⟨hres, hadb, hle⟩ := halike.ends
  obtain ⟨hcalls, hcbs, hnone⟩ := parseEnd_frame
  obtain ⟨hcalls', hcbs'⟩ := streamEnd_frame
  have hlog' := halike.logged hlog
  refine ⟨_, r', is', _, rd2, log, by rw [adbMParse, hparse], hstream, ?_, ?_, ?_,
    hcalls'.trans hlog'.calls, hcbs'.trans hlog'.cbs⟩
  · rw [hres]
    exact apkIstreamCloseError_eq hclose herr' hle
  · split_ifs with hr
    · exact hadb.trans (hnone hr)
    · exact hadb
  · split_ifs <;> exact ⟨hcalls.trans hlog.calls, hcbs.trans hlog.cbs⟩

theorem adbFileHeader_take {expectedSchema : ℕ} :
    adbFileHeader expectedSchema (data.take 8) = adbFileHeader expectedSchema data := by
  unfold adbFileHeader
  simp [take_take, drop_take]

variable (f left) in
/-- a file that is read alike with a buffer of `room` bytes: it has a file header, unless the schema
is implied, and if that is accepted its blocks are read alike -/
def FileAlike (cbs : κ) (room expectedSchema : ℕ) (data : Bytes) : Prop :=
  if expectedSchema.testBit 31 then
    ReadAlike crypto t ectx f left room (init t (expectedSchema % 2 ^ 31) cbs) data
  else 8 ≤ data.length ∧ ∀ schema, adbFileHeader expectedSchema data = .ok schema →
    ReadAlike crypto t ectx f left room { init t 0 cbs with db := ⟨schema, none⟩ } (data.drop 8)

end

end

/-- the two readers of `adb_m_process` give the same result, call the callback for the same blocks
with the same payloads, and leave the same database, if the file is read alike -/
theorem adb_readers_agree {K κ σ σ' : Type} (crypto : Crypto K) (t : Option (Trust K))
    (ectx : Option ExtractCtx) {cb : AdbCallback κ} {f : κ → Adb → ℕ → Bytes → ℤ × κ}
    {left : κ → Adb → ℕ → Bytes → ℤ} (hcb : cb.OfPayload f left) {ops : IstreamOps σ} {R : σ → Bytes → Prop} (hops : Delivers ops R)
    (hclose : ∀ s e, ops.close s e = if e < 0 then e else 0) (ops' : IstreamOps σ')
    {mapped : Istream σ'} {is : Istream σ} (hmapped : mapped.singleRead = true)
    (his : is.singleRead = false) (hholds : is.Holds R mapped.buf) (herr : 0 ≤ is.err)
    (halign : is.ptr % 8 = 0) (h12 : 12 ≤ is.buf.length) (h63 : mapped.buf.length < 2 ^ 63)
    {expectedSchema : ℕ} {cbs : κ}
    (hfile : FileAlike crypto t ectx f left cbs is.buf.length expectedSchema mapped.buf) (beyond : Bytes)
    {fuel : ℕ} (hfuel : mapped.buf.length < fuel) :
    ∃ r rd1 rd2 log,
      adbMProcess crypto t ectx cb ops' mapped beyond expectedSchema fuel cbs = (some r, rd1) ∧
      adbMProcess crypto t ectx cb ops is beyond expectedSchema fuel cbs = (some r, rd2) ∧
      rd2.db.adb = rd1.db.adb ∧ Logged f cbs log rd1 ∧ Logged f cbs log rd2 := by
  have hmmap : apkIstreamMmap mapped = some mapped.buf := by rw [apkIstreamMmap, if_pos hmapped]
  have hstream : apkIstreamMmap is = none := by rw [apkIstreamMmap, his]; rfl
  unfold adbMProcess
  simp only [hmmap, hstream]
  unfold adbMMmap adbMStream
  have hfirst : ∀ schema, Logged f cbs [] (AdbReader.init t schema cbs) := fun _ => ⟨rfl, rfl⟩
  by_cases himp : expectedSchema.testBit 31 = true
  · rw [FileAlike, if_pos himp] at hfile
    simp only [himp, reduceIte]
    have hloops := loops_alike crypto t ectx hcb hops beyond h63 hfile fuel 0 0 is []
      ⟨Nat.zero_le _, drop_zero⟩ ⟨hholds, herr⟩ h12 le_rfl (fun _ => halign) le_rfl
      (fun h => absurd h (lt_irrefl _)) (hfirst (expectedSchema % 2 ^ 31)) hfuel
    obtain ⟨r, r', is', rd1, rd2, log, hparse, hrun, hr, hadb, hlog1, hlog2⟩ :=
      hloops.finish crypto t ectx hclose
    simp only [hparse, hrun, hr]
    exact ⟨r, _, _, log, rfl, rfl, hadb, hlog1, hlog2⟩
  rw [FileAlike, if_neg himp] at hfile
  obtain ⟨h8, hblocks⟩ := hfile
  obtain ⟨is1, hread, h1, hb1⟩ := apkIstreamRead_holds hops ⟨hholds, herr⟩ h8
  have halign1 : is1.ptr % 8 = 0 := by
    have := apkIstreamRead_align ops is 8
    rw [hread, length_take_of_le h8] at this
    dsimp only at this
    omega
  simp only [himp, Bool.false_eq_true, reduceIte, if_neg (not_lt.2 h8), hread, adbFileHeader_take]
  cases hhdr : adbFileHeader expectedSchema mapped.buf with
  | error e =>
    have he : e < 0 ∧ e ≠ -ecanceled := adbFileHeader_error hhdr
    have hend : streamEnd e (init t 0 cbs) = (e, init t 0 cbs) := by
      simp [streamEnd, he.1.ne, he.2, not_lt.2 he.1.le, init]
    simp only [hend]
    rw [apkIstreamCloseError_eq hclose h1.nonneg he.1.le]
    exact ⟨e, _, _, [], rfl, rfl, rfl, hfirst 0, hfirst 0⟩
  | ok schema =>
    simp only
    have hlen : (mapped.buf.drop 8).length < 2 ^ 63 ∧ (mapped.buf.drop 8).length < fuel := by
      rw [length_drop]
      omega
    have hloops := loops_alike crypto t ectx hcb hops beyond hlen.1 (hblocks schema hhdr) fuel 0 0
      is1 [] ⟨Nat.zero_le _, drop_zero⟩ h1 (hb1 ▸ h12) hb1.ge (fun _ => halign1) le_rfl
      (fun h => absurd h (lt_irrefl _)) (hfirst schema) hlen.2
    obtain ⟨r, r', is', rd1, rd2, log, hparse, hrun, hr, hadb, hlog1, hlog2⟩ :=
      hloops.finish crypto t ectx hclose
    have hinit : ({ init t 0 cbs with db := { (init t 0 cbs).db with
      schema := schema } } : AdbReader κ) = { init t 0 cbs with db := ⟨schema, none⟩ } := rfl
    rw [hinit, hparse, hrun]
    simp only [hr]
    exact ⟨r, _, _, log, rfl, rfl, hadb, hlog1, hlog2⟩

def adbDummyCb : AdbCallback Unit := fun _ _ s _ _ is => (0, s, is)

def noCrypto : Crypto Unit := ⟨fun _ _ => none, fun _ => [], fun _ _ _ => false⟩

def zeroFile (len : ℕ) : Bytes :=
  htole32 adbFormatMagic ++ htole32 0 ++ htole32 (4 + len) ++ List.replicate (len + 4) 0

/-- an `ADB` block of 8 bytes is accepted in memory and refused in a stream -/
theorem adb_readers_differ :
    let mapped := adbMProcess noCrypto (some ⟨[], true⟩) none adbDummyCb blobOps
      (apkIstreamFromBlob (zeroFile 8)) [] 0 25 ()
    let streamed := adbMProcess noCrypto (some ⟨[], true⟩) none adbDummyCb (pieceOps 64)
      (pieceStream 64 (zeroFile 8)) [] 0 25 ()
    mapped.1 = some 0 ∧ mapped.2.db.adb = some (List.replicate 8 0) ∧
      mapped.2.calls.map AdbCall.block = [.adb] ∧
      streamed.1 = some (-apkeAdbBlock) ∧ streamed.2.db.adb = none ∧ streamed.2.calls = [] := by
  decide +kernel

/-- a callback that keeps the type and the payload of each block -/
def recordCb : AdbCallback (List (ℕ × Bytes)) := fun _ ops s _ blk is =>
  match apkIstreamReadMax ops is (2 ^ 16) with
  | (_, b, is) => (0, s ++ [(adbBlockType blk, b)], is)

theorem recordCb_ofPayload :
    recordCb.OfPayload (fun s _ type p => (0, s ++ [(type, p.take (2 ^ 16))])) fun _ _ _ _ => 0 := by
  intro τ ops R is p s db blk hops h herr
  obtain ⟨is', hread, h', -⟩ := apkIstreamReadMax_holds hops ⟨h, herr⟩ (2 ^ 16)
  have hrun : (apkIstreamReadMax ops is (2 ^ 16)).2.2 = is' := by rw [hread]
  refine ⟨is', ?_, hrun ▸ .readMax (2 ^ 16) .refl, if_neg (not_lt.2 h'.nonneg)⟩
  rw [recordCb, hread]

theorem adb_readers_agree_pieces : ∃ r rd1 rd2 log,
      adbMProcess noCrypto (some ⟨[], true⟩) none recordCb blobOps
        (apkIstreamFromBlob (zeroFile 16)) [] 0 33 [] = (some r, rd1) ∧
      adbMProcess noCrypto (some ⟨[], true⟩) none recordCb (pieceOps 5)
        (pieceStream 64 (zeroFile 16)) [] 0 33 [] = (some r, rd2) ∧
      rd2.db.adb = rd1.db.adb ∧
      Logged (fun s _ type p => (0, s ++ [(type, p.take (2 ^ 16))])) [] log rd1 ∧
      Logged (fun s _ type p => (0, s ++ [(type, p.take (2 ^ 16))])) [] log rd2 := by
  have hholds : (pieceStream 64 (zeroFile 16)).Holds (· = ·)
      (apkIstreamFromBlob (zeroFile 16)).buf := pieceStream_holds (by decide) _
  have hfile : FileAlike noCrypto (some ⟨[], true⟩) none
      (fun s _ type p => (0, s ++ [(type, p.take (2 ^ 16))])) (fun _ _ _ _ => 0) []
      (pieceStream 64 (zeroFile 16)).buf.length 0 (apkIstreamFromBlob (zeroFile 16)).buf := by
    refine ⟨by decide, fun schema hschema => ?_⟩
    obtain rfl : 0 = schema := Except.ok.inj ((by decide +kernel :
      adbFileHeader 0 (apkIstreamFromBlob (zeroFile 16)).buf = .ok 0).symm.trans hschema)
    refine .block rfl ⟨by decide +kernel, by decide +kernel, by decide +kernel⟩
      (fun _ => by decide +kernel) (fun h => absurd h (by decide +kernel)) (by decide +kernel)
      (fun h => absurd (by decide +kernel) h) (fun h => absurd h (by decide +kernel))
      fun _ => .short (Or.inl ?_)
    decide +kernel
  exact adb_readers_agree noCrypto (some ⟨[], true⟩) none recordCb_ofPayload
    (pieceOps_delivers (by decide)) (fun _ _ => rfl) blobOps rfl rfl hholds le_rfl rfl (by decide)
    (by decide) hfile [] (by decide)

end Alpine

import Alpine.Proofs.TarRoundTrip

/-! Streams from the outside: what calls have taken from a stream is the beginning of what it held, in a
segment as well. A segment at the end of its parent fails, unless the buffer is so small that a read of no
bytes passes for the end. The count of skipped bytes is returned as an `int`. -/

namespace Alpine

open List

section

variable {σ : Type}

variable {ops : IstreamOps σ} {R : σ → Bytes → Prop} {F : Prop} {is is1 is' : Istream σ} {p d : Bytes} {n : ℕ}

theorem IstreamTakes.use (h : IstreamTakes ops is d is') : IstreamUse ops is is' := by
  induction h with
  | refl => exact .refl
  | fill _ ih => exact ih.fill
  | take n _ hn ih => exact ih.take n hn
  | readMax n _ ih => exact ih.readMax n
  | fail e _ he ih => exact ih.fail e he

inductive IstreamCall
  | readMax (size : ℕ)
  | peek (len : ℕ)
  | get (len : ℕ)
  | getMax (max : ℕ)

/-- the bytes that a call takes from the stream, and the stream after it -/
def IstreamCall.run (ops : IstreamOps σ) (is : Istream σ) : IstreamCall → Bytes × Istream σ
  | .readMax n => (apkIstreamReadMax ops is n).2
  | .peek len => ([], (apkIstreamPeek ops is len).2)
  | .get len => ((apkIstreamGet ops is len).1.toOption.getD [], (apkIstreamGet ops is len).2)
  | .getMax max => (apkIstreamGetMax ops is max).2

def takeCalls (ops : IstreamOps σ) (is : Istream σ) (calls : List IstreamCall) : Bytes × Istream σ :=
  calls.foldl (fun st call => (st.1 ++ (call.run ops st.2).1, (call.run ops st.2).2)) ([], is)

/-- it gets something or fails -/
theorem apkIstreamGetMax_takes (ht : IstreamTakes ops is d is1) (max : ℕ) :
    ∃ r b is', apkIstreamGetMax ops is1 max = (r, b, is') ∧ IstreamTakes ops is (d ++ b) is' ∧ b.length ≤ max ∧
      ((∀ is2, IstreamTakes ops is d is2 → is2.ptr ≤ is2.fin ∧ is2.fin ≤ is2.buf.length) → 0 < max →
        r = 0 ∧ b ≠ [] ∨ r < 0 ∧ b = []) := by
  unfold apkIstreamGetMax
  have ht' : IstreamTakes ops is d (if is1.ptr = is1.fin then (apkIstreamFill ops is1).2 else is1) := by
    split_ifs
    · exact ht.fill
    · exact ht
  generalize (if is1.ptr = is1.fin then (apkIstreamFill ops is1).2 else is1) = is2 at ht' ⊢
  by_cases hbuf : is2.ptr = is2.fin
  · have : -apkeEof < 0 := by decide
    rw [if_neg (not_not.2 hbuf)]
    exact ⟨_, [], is2, rfl, by simpa using ht', Nat.zero_le _, fun _ _ => Or.inr ⟨by split_ifs <;> omega, rfl⟩⟩
  rw [if_pos hbuf]
  have hlen : (is2.buffered.take max).length ≤ is2.fin - is2.ptr := by
    rw [Istream.buffered, take_take, length_take]
    omega
  have htake := ht'.take _ hlen
  rw [length_take, ← take_eq_take_min, ← length_take] at htake
  refine ⟨_, _, _, rfl, htake, length_take_le _ _, fun hb hmax => Or.inl ⟨rfl, ne_nil_of_length_pos ?_⟩⟩
  have := hb is2 ht'
  rw [length_take, Istream.buffered_length this.2]
  omega

theorem IstreamTakes.call (ht : IstreamTakes ops is d is1) (call : IstreamCall) :
    IstreamTakes ops is (d ++ (call.run ops is1).1) (call.run ops is1).2 := by
  cases call with
  | readMax n => exact ht.readMax n
  | peek len => simpa [IstreamCall.run] using (apkIstreamPeek_takes len ht).1
  | get len =>
    have hpeek := apkIstreamPeek_takes len ht
    simp only [IstreamCall.run, apkIstreamGet]
    generalize apkIstreamPeek ops is1 len = r at hpeek ⊢
    rcases r with ⟨e | b, is2⟩
    · simpa [Except.toOption] using hpeek.1.fail e hpeek.2
    · obtain ⟨htake, hlen, rfl⟩ := hpeek
      exact htake.take len hlen
  | getMax max =>
    obtain ⟨r, b, is', hget, htake, -⟩ := apkIstreamGetMax_takes ht max
    rw [IstreamCall.run, hget]
    exact htake

variable (ops is) in
theorem takeCalls_takes (calls : List IstreamCall) :
    IstreamTakes ops is (takeCalls ops is calls).1 (takeCalls ops is calls).2 := by
  induction calls using List.reverseRecOn with
  | nil => exact .refl
  | append_singleton calls call ih =>
    rw [takeCalls, foldl_append]
    exact ih.call call

theorem istream_calls (hops : Feeds ops R F) (h : is.Holds R p) (calls : List IstreamCall) :
    ∃ p', p = (takeCalls ops is calls).1 ++ p' ∧ (takeCalls ops is calls).2.Holds R p' ∧
      (takeCalls ops is calls).2.buf.length = is.buf.length ∧
      ∀ len b is', apkIstreamPeek ops (takeCalls ops is calls).2 len = (.ok b, is') → b <+: p' ∧ b.length = len := by
  obtain ⟨p', hp, h', hb, -⟩ := (takeCalls_takes ops is calls).holds hops h
  refine ⟨p', hp, h', hb, fun len b is' hpeek => ?_⟩
  have hnext := apkIstreamPeek_takes len (takeCalls_takes ops is calls)
  rw [hpeek] at hnext
  obtain ⟨htake, hlen, rfl⟩ := hnext
  obtain ⟨p'', hp', h'', -⟩ := htake.holds hops h
  obtain rfl : p' = p'' := append_cancel_left (hp.symm.trans hp')
  rw [h''.buffered_take hlen, length_take, Nat.min_eq_left (hlen.trans h''.length_le)]
  exact ⟨List.take_prefix _ _, rfl⟩

theorem istream_calls_pieces :
    ∃ p', [1, 2, 3] = (takeCalls (pieceOps 1) (pieceStream 16 [1, 2, 3]) [.readMax 1, .getMax 1]).1 ++ p' := by
  obtain ⟨p', hp, -⟩ := istream_calls (pieceOps_delivers one_pos).feeds (pieceStream_holds
    (show 8 ≤ 16 by decide) [1, 2, 3]) [.readMax 1, .getMax 1]
  exact ⟨p', hp⟩

/-- the segment of a stream that ends before it: its source fails there -/
theorem segment_short {len : ℕ} (hops : Feeds ops R F) (h : is.Holds R p) (hlen : p.length < len) :
    ∃ R', Feeds (segmentOps ops) R' True ∧ (apkIstreamSegment is len).Ready R' p ∧
      (apkIstreamSegment is len).err = 0 ∧ (apkIstreamSegment is len).buf = is.buf ∧
      (apkIstreamSegment is len).fin = is.fin := by
  obtain ⟨rest, hR, hp, hrest⟩ := h.source
  have hbuf := Istream.buffered_length h.fin_le
  have hseg : apkIstreamSegment is len =
      { buf := is.buf, ptr := is.ptr, fin := is.fin, err := 0, singleRead := false,
        src := ⟨is, true, len - (is.fin - is.ptr), is.fin⟩ } := by
    rw [apkIstreamSegment, if_neg (by have := h.length_le; omega)]
  rw [hseg]
  refine ⟨fun seg q => R seg.pis.src q ∧ q.length < seg.bytesLeft, ?_, ⟨⟨h.ptr_le, h.fin_le, rest, ⟨hR, ?_⟩, hp,
    fun hne => ⟨le_rfl, (hrest hne).2⟩⟩, le_rfl⟩, rfl, rfl, rfl⟩
  · rintro seg q n ⟨hq, hlt⟩
    change (∃ c s' b', segmentRead ops seg n = _ ∧ _) ∨ _ ∧ _ ∧ ∃ e s', segmentRead ops seg n = _ ∧ _
    unfold segmentRead
    by_cases h0 : min n seg.bytesLeft = 0
    · rw [if_pos h0]
      exact Or.inl ⟨[], seg, q, rfl, rfl, ⟨hq, hlt⟩, fun _ => Or.inl (by omega)⟩
    rw [if_neg h0]
    rcases hops.piece hq (n := min n seg.bytesLeft) (fun _ => by omega) with
      ⟨rfl, r, s, hread, hR', hr⟩ | ⟨c, s, rest', hread, rfl, hR', hc, hle⟩
    · rcases hr with ⟨rfl, -⟩ | ⟨e, rfl, -⟩
      all_goals
        simp only [hread]
        exact Or.inr ⟨trivial, trivial, _, _, rfl, hR', hlt⟩
    simp only [hread, if_neg hc]
    rw [length_append] at hlt
    exact Or.inl ⟨c, _, rest', rfl, rfl, ⟨hR', show rest'.length < seg.bytesLeft - c.length by omega⟩,
      fun hnil => absurd hnil hc⟩
  · change rest.length < len - (is.fin - is.ptr)
    rw [hp, length_append] at hlen
    omega

/-- the end of a stream is where nothing is left of what it held -/
theorem Istream.Holds.eq_nil (h : is.Holds R p) (hend : 0 < is.err) (hbuf : is.buffered = []) : p = [] := by
  obtain ⟨rest, -, rfl, hrest⟩ := h.source
  rw [hbuf]
  by_contra hne
  exact absurd (hrest (by simpa using hne)).1 (not_le.2 hend)

variable (ops) in
/-- a full buffer of four to seven bytes has no room for the byte that is asked for, and the segment ends as if
there were none to come -/
theorem segment_full {len : ℕ} (h : is.Holds R p) (hlen : p.length < len) (h4 : 4 ≤ is.buf.length)
    (h8 : is.buf.length < 8) (hfull : is.fin = is.buf.length) :
    ∃ seg, IstreamTakes (segmentOps ops) (apkIstreamSegment is len) is.buffered seg ∧ 0 < seg.err ∧
      seg.buffered = [] := by
  have hseg : apkIstreamSegment is len =
      { buf := is.buf, ptr := is.ptr, fin := is.fin, err := 0, singleRead := false,
        src := ⟨is, true, len - (is.fin - is.ptr), is.fin⟩ } := by
    rw [apkIstreamSegment, if_neg (by have := h.length_le; omega)]
  have hptr := h.ptr_le
  have htaken : (apkIstreamSegment is len).buffered.take (is.fin - is.ptr) = is.buffered := by
    rw [hseg, Istream.buffered, Istream.buffered, take_take, min_self]
  have hstart : IstreamTakes (segmentOps ops) (apkIstreamSegment is len) [] (apkIstreamSegment is len) := .refl
  have ht := hstart.take (is.fin - is.ptr) (by rw [hseg])
  rw [nil_append, htaken] at ht
  -- a read of one byte asks the source for none
  have hread : apkIstreamReadMax (segmentOps ops) { apkIstreamSegment is len with ptr := is.fin } 1 =
      (0, [], { apkIstreamSegment is len with ptr := is.fin, err := 1 }) := by
    have hmod : is.fin % apkIstreamAlignSync = is.fin := Nat.mod_eq_of_lt (hfull ▸ h8)
    have hquarter : ¬ is.fin < 4 := by omega
    have hnone : ∀ s : Segment σ, (segmentOps ops).read s 0 = (.ok [], s) := by
      intro s
      change segmentRead ops s 0 = _
      simp [segmentRead]
    rw [hseg]
    simp [apkIstreamReadMax, readMaxLoop, hmod, hquarter, ← hfull, hnone, apkIstreamError]
  have hptr' : (apkIstreamSegment is len).ptr + (is.fin - is.ptr) = is.fin := by
    rw [hseg]
    exact Nat.add_sub_cancel' hptr
  rw [hptr'] at ht
  have hend := ht.readMax 1
  rw [hread, append_nil] at hend
  exact ⟨_, hend, one_pos, Istream.buffered_nil (by rw [hseg])⟩

/-- a segment delivers the next bytes of its parent, fails if the parent is shorter, and leaves it behind the
segment, or failed if it was, exactly if the parent has all the bytes or a buffer that a read of one byte can
fill -/
theorem segment_delivers_iff (len : ℕ) (hops : Feeds ops R F) (h : is.Holds R p) :
    ((∀ d seg, IstreamTakes (segmentOps ops) (apkIstreamSegment is len) d seg → d <+: p.take len ∧
        (0 < seg.err → seg.buffered = [] → d = p.take len ∧ len ≤ p.length) ∧
        (len ≤ p.length → ∃ is', segmentClose ops seg = (if seg.err < 0 then seg.err else 0, is') ∧
          (0 ≤ is.err → is'.Ready R (p.drop len)) ∧
          (is.err < 0 → is'.err = is.err ∧ (is'.Holds R (p.drop len) ∨ is'.ptr = is'.fin)))) ∧
      ∃ r seg, apkIstreamReadMax (segmentOps ops) (apkIstreamSegment is len) len = (r, p.take len, seg) ∧
        (len ≤ p.length → r = len) ∧ (p.length < len → r < 0)) ↔
      len ≤ p.length ∨ 8 ≤ is.buf.length ∨ is.buf.length < 4 ∨ is.fin < is.buf.length := by
  by_cases hlen : len ≤ p.length
  · refine iff_of_true ?_ (Or.inl hlen)
    have hpay : (p.take len).length = len := length_take_of_le hlen
    rw [← take_append_drop len p] at h
    obtain ⟨R', hdel, hready, hclose⟩ := apkIstreamSegment_holds hops h
    rw [hpay] at hready hclose
    refine ⟨fun d seg ht => ?_, ?_⟩
    · obtain ⟨p', hp, h', -⟩ := ht.holds hdel.feeds hready.toHolds
      refine ⟨hp ▸ prefix_append d p', fun hend hbuf => ⟨?_, hlen⟩, fun _ => ?_⟩
      · rw [hp, h'.eq_nil hend hbuf, append_nil]
      · obtain ⟨is', hrun, hok, hfailed, -⟩ := hclose seg ht.use
        exact ⟨is', hrun, hok, hfailed⟩
    · obtain ⟨seg, hread, -⟩ := apkIstreamReadMax_holds hdel hready len
      rw [take_of_length_le hpay.le, hpay] at hread
      exact ⟨len, seg, hread, fun _ => rfl, fun hlt => absurd hlt (not_lt.2 hlen)⟩
  rw [or_iff_right hlen]
  constructor
  · rintro ⟨hall, -⟩
    by_contra hno
    have hfin := h.fin_le
    obtain ⟨seg, ht, hend, hbuf⟩ := segment_full ops h (not_le.1 hlen) (by omega) (by omega) (by omega)
    exact hlen ((hall _ seg ht).2.1 hend hbuf).2
  intro hroomy
  obtain ⟨R', hfeed, hready, herr, hbuf, hfin⟩ := segment_short hops h (not_le.1 hlen)
  have hroomy' : (apkIstreamSegment is len).Roomy := by rwa [Istream.Roomy, hbuf, hfin]
  rw [take_of_length_le (not_le.1 hlen).le]
  refine ⟨fun d seg ht => ?_, ?_⟩
  · obtain ⟨p', rfl, -, -, -, hend⟩ := ht.holds hfeed hready.toHolds
    exact ⟨prefix_append d p', fun hpos => absurd trivial
      (hend (fun _ => hroomy') (fun hpos => absurd herr hpos.ne') hpos), fun hle => absurd hle hlen⟩
  obtain ⟨r, seg, hread, -, -, -, hr⟩ := apkIstreamReadMax_feeds hfeed hready len
  rw [take_of_length_le (not_le.1 hlen).le] at hread
  refine ⟨r, seg, hread, fun hle => absurd hle hlen, fun hlt => ?_⟩
  rcases hr with hr | ⟨-, hshort, -⟩
  · exact hr.1
  · exact absurd trivial (hshort hlt herr hroomy')

theorem segment_delivers_two :
    ∃ r seg, apkIstreamReadMax (segmentOps (pieceOps 1)) (apkIstreamSegment (pieceStream 16 [1, 2, 3]) 2) 2 =
      (r, [1, 2], seg) := by
  obtain ⟨-, r, seg, h, -⟩ := (segment_delivers_iff 2 (pieceOps_delivers one_pos).feeds
    (pieceStream_holds (show 8 ≤ 16 by decide) [1, 2, 3])).2 (Or.inr (Or.inl (show 8 ≤ 16 by decide)))
  exact ⟨r, seg, h⟩

/-- a blob of four bytes has no fifth, but the segment ends as if it had -/
theorem segment_ends_early :
    let seg := (apkIstreamReadMax (segmentOps blobOps) (apkIstreamSegment (apkIstreamFromBlob [1, 2, 3, 4]) 5) 4).2.2
    let r := apkIstreamReadMax (segmentOps blobOps) seg 1
    seg.src.bytesLeft = 1 ∧ r.1 = 0 ∧ r.2.2.err = 1 := by
  decide

/-- the bytes that a stream still gives out: once it has failed, those in its buffer -/
def Istream.left (is : Istream σ) (p : Bytes) : ℕ := if is.err < 0 then is.fin - is.ptr else p.length

/-- what `apk_istream_get_max` returns when there are no more, if the source does not fail -/
def Istream.endCode (is : Istream σ) : ℤ := if is.err < 0 then is.err else -apkeEof

theorem Istream.Holds.left_le (h : is.Holds R p) : is.left p ≤ p.length := by
  have := h.length_le
  unfold left
  split_ifs <;> omega

theorem apkIstreamGetMax_more (hops : Feeds ops R F) (h : is.Holds R p) {max : ℕ} (hmax : 0 < max)
    (hleft : 0 < is.left p) : ∃ k is', apkIstreamGetMax ops is max = (0, p.take k, is') ∧ 0 < k ∧ k ≤ max ∧
      is'.Holds R (p.drop k) ∧ is'.left (p.drop k) + k = is.left p ∧ is'.endCode = is.endCode := by
  by_cases herr : is.err < 0
  · have hlen := h.length_le
    have hbuf : (is.buffered.take max).length = min max (is.fin - is.ptr) := by
      rw [length_take, Istream.buffered_length h.fin_le]
    rw [Istream.left, if_pos herr] at hleft
    refine ⟨min max (is.fin - is.ptr), { is with ptr := is.ptr + min max (is.fin - is.ptr) }, ?_, by omega, by omega,
      h.advance (by omega), ?_, rfl⟩
    · unfold apkIstreamGetMax
      simp only [if_neg (show ¬ is.ptr = is.fin by omega)]
      rw [if_pos (by omega), ← h.buffered_take (by omega), hbuf, ← hbuf, length_take, ← take_eq_take_min]
    · simp only [Istream.left, if_pos herr]
      omega
  rw [Istream.left, if_neg herr] at hleft
  obtain ⟨k, is', hget, hk, hkm, hkp, h', -⟩ := apkIstreamGetMax_holds hops ⟨h, not_lt.1 herr⟩ hmax
    (ne_nil_of_length_pos hleft)
  refine ⟨k, is', hget, hk, hkm, h'.toHolds, ?_, ?_⟩
  · rw [Istream.left, Istream.left, if_neg herr, if_neg (not_lt.2 h'.nonneg), length_drop]
    omega
  · rw [Istream.endCode, Istream.endCode, if_neg herr, if_neg (not_lt.2 h'.nonneg)]

theorem apkIstreamGetMax_none (hops : Feeds ops R F) (h : is.Holds R p) (max : ℕ) (hleft : is.left p = 0) : ∃ r is', apkIstreamGetMax ops is max = (r, [], is') ∧ r < 0 ∧ is'.Holds R p ∧
      (¬F → r = is.endCode) := by
  have hptr := h.ptr_le
  by_cases herr : is.err < 0
  · rw [Istream.left, if_pos herr] at hleft
    have hget := apkIstreamGetMax_failed ops (show is.ptr = is.fin by omega) herr max
    exact ⟨_, is, hget, herr, h, fun _ => (if_pos herr).symm⟩
  rw [Istream.left, if_neg herr] at hleft
  have hbuf : is.ptr = is.fin := by have := h.length_le; omega
  obtain ⟨r, is', hfill, h', -, -, hcases⟩ := apkIstreamFill_feeds hops h
  have hbuf' : is'.ptr = is'.fin := by have := h'.length_le; have := h'.ptr_le; omega
  have heof : -apkeEof < 0 := by decide
  refine ⟨if is'.err < 0 then is'.err else -apkeEof, is', ?_, by split_ifs <;> omega, h', fun hF => ?_⟩
  · simp [apkIstreamGetMax, hbuf, hfill, hbuf']
  have herr' : ¬ is'.err < 0 := by
    rcases hcases with ⟨rfl, -⟩ | ⟨-, ⟨-, -, ⟨-, he, -⟩ | ⟨-, -, hF'⟩⟩ | ⟨-, he, -⟩⟩
    · exact herr
    · omega
    · exact absurd hF' hF
    · omega
  rw [if_neg herr', Istream.endCode, if_neg herr]

theorem skipLoop_left (hops : Feeds ops R F) : ∀ (left : ℕ) (done : ℤ) (is : Istream σ) (p : Bytes),
    is.Holds R p → left ≤ n → ∃ r c p' is', skipLoop ops n left done is = (r, is') ∧ p = c ++ p' ∧ is'.Holds R p' ∧
      (left ≤ is.left p ∧ r = done + left ∧ c.length = left ∨ is.left p < left ∧ r < 0 ∧ c.length < left) := by
  induction n with
  | zero =>
    intro left done is p h hleft
    obtain rfl : left = 0 := by omega
    exact ⟨done, [], p, is, rfl, rfl, h, Or.inl ⟨Nat.zero_le _, by simp, rfl⟩⟩
  | succ n ih =>
    intro left done is p h hleft
    unfold skipLoop
    by_cases h0 : left = 0
    · subst h0
      exact ⟨done, [], p, is, rfl, rfl, h, Or.inl ⟨Nat.zero_le _, by simp, rfl⟩⟩
    have hpos := Nat.pos_of_ne_zero h0
    rw [if_neg h0]
    by_cases hnone : is.left p = 0
    · obtain ⟨r, is', hget, hneg, h', -⟩ := apkIstreamGetMax_none hops h left hnone
      rw [hget]
      exact ⟨r, [], p, is', if_pos hneg, rfl, h', Or.inr ⟨by omega, hneg, hpos⟩⟩
    obtain ⟨k, is1, hget, hk, hkl, h1, hsum, -⟩ := apkIstreamGetMax_more hops h hpos (Nat.pos_of_ne_zero hnone)
    have hlen : (p.take k).length = k := length_take_of_le (by have := h.left_le; omega)
    obtain ⟨r, c, p', is', hrun, hp, h', hr⟩ := ih (left - k) (done + k) is1 (p.drop k) h1 (by omega)
    rw [hget]
    simp only [lt_irrefl, reduceIte, hlen]
    refine ⟨r, p.take k ++ c, p', is', hrun, by rw [append_assoc, ← hp, take_append_drop], h', ?_⟩
    rw [length_append, hlen]
    omega

/-- what a copy comes to: a write fails, or all bytes are copied, or there are too few -/
theorem streamCopyLoop_left {τ : Type} (write : τ → Bytes → ℤ × τ) (cancel : τ → ℤ → τ) {size : ℕ}
    (hops : Feeds ops R F) : ∀ (left done : ℕ) (is : Istream σ) (p : Bytes) (os : τ), is.Holds R p → left ≤ n →
      done + left = size → ∃ r m rest, streamCopyLoop ops write cancel size n left done is os = (r, m, rest) ∧
        (r < 0 ∧ m < size ∧ (∃ os b, (write os b).1 < 0) ∨
          left ≤ is.left p ∧ r = toInt64 size ∧ m = size ∨
          is.left p < left ∧ m = done + is.left p ∧ ((size ≠ apkIoAll ∨ ¬F ∧ is.endCode ≠ -apkeEof) → r < 0) ∧
            (size = apkIoAll → ¬F → is.endCode = -apkeEof → r = toInt64 m)) := by
  induction n with
  | zero =>
    intro left done is p os h hleft hsum
    obtain rfl : done = size := by omega
    exact ⟨_, _, _, rfl, Or.inr (Or.inl ⟨by omega, rfl, rfl⟩)⟩
  | succ n ih =>
    intro left done is p os h hleft hsum
    unfold streamCopyLoop
    by_cases h0 : left = 0
    · obtain rfl : done = size := by omega
      rw [if_pos h0]
      exact ⟨_, _, _, rfl, Or.inr (Or.inl ⟨by omega, rfl, rfl⟩)⟩
    have hpos := Nat.pos_of_ne_zero h0
    rw [if_neg h0]
    by_cases hnone : is.left p = 0
    · obtain ⟨r, is', hget, hneg, -, hcode⟩ := apkIstreamGetMax_none hops h left hnone
      simp only [hget, if_pos hneg]
      by_cases hend : r = -apkeEof ∧ size = apkIoAll
      · rw [if_pos hend]
        refine ⟨_, _, _, rfl, Or.inr (Or.inr ⟨by omega, by omega, fun hbad => ?_, fun _ _ _ => rfl⟩)⟩
        obtain ⟨hF, hcode'⟩ := hbad.resolve_left (not_not.2 hend.2)
        exact absurd ((hcode hF).symm.trans hend.1) hcode'
      · rw [if_neg hend]
        exact ⟨_, _, _, rfl, Or.inr (Or.inr ⟨by omega, by omega, fun _ => hneg, fun hall hF hcode' =>
          absurd ⟨(hcode hF).trans hcode', hall⟩ hend⟩)⟩
    obtain ⟨k, is1, hget, hk, hkl, h1, hleft1, hend1⟩ :=
      apkIstreamGetMax_more hops h hpos (Nat.pos_of_ne_zero hnone)
    have hlen : (p.take k).length = k := length_take_of_le (by have := h.left_le; omega)
    simp only [hget, lt_irrefl, reduceIte, hlen]
    by_cases hw : (write os (p.take k)).1 < 0
    · rw [if_pos hw]
      exact ⟨_, _, _, rfl, Or.inl ⟨hw, by omega, os, _, hw⟩⟩
    rw [if_neg hw]
    obtain ⟨r, m, rest, hrun, hcases⟩ := ih (left - k) (done + k) is1 (p.drop k) (write os (p.take k)).2 h1
      (by omega) (by omega)
    rw [hend1] at hcases
    exact ⟨r, m, rest, hrun, hcases.imp_right (Or.imp (fun hr => ⟨by omega, hr.2⟩)
      fun hr => ⟨by omega, by omega, hr.2.2⟩)⟩

theorem toInt32_nonneg_iff (n : ℕ) : 0 ≤ toInt32 n ↔ n % 2 ^ 32 < 2 ^ 31 := by
  unfold toInt32
  omega

/-- an entry of an archive: its header and its data -/
structure TarItem where
  hdr : TarHeader
  data : Bytes

namespace TarItem

/-- a header that the parser takes: not one with a long name or a pax header for the next, and without a `prefix` -/
structure Ok (env : TarEnv) (x : TarItem) : Prop where
  sized : x.hdr.Sized
  named : ¬ x.hdr.bytes.head?.getD 0 = 0
  magic : x.hdr.magic.take 5 = ascs ['u', 's', 't', 'a', 'r']
  plain : x.hdr.pfx.head?.getD 0 = 0
  flag : x.hdr.typeflag ≠ asc 'L' ∧ x.hdr.typeflag ≠ asc 'x'
  entry : ∃ e, tarEntry env x.hdr none = some e ∧ e.entry.size = x.data.length

def bytes (x : TarItem) : Bytes := x.hdr.bytes ++ x.data ++ tarPad x.data.length

/-- a global header, or a type that the parser does not know, is skipped with its padding -/
def Fits (x : TarItem) : Prop :=
  tarFileType x.hdr.typeflag = 0 → roundUp x.data.length 512 % 2 ^ 32 < 2 ^ 31

end TarItem

section

variable {κ : Type} {env : TarEnv} {cb : TarCallback κ} {f : κ → ArchiveEntry → Bytes → κ} {x : TarItem}
    {st : TarParser κ} {rest : Bytes}

theorem fileType_masked (m : ℕ) (c : UInt8) : (m &&& 0o7777 ||| tarFileType c) &&& sIfmt = 0 ↔ tarFileType c = 0 := by
  rw [Nat.and_or_distrib_right, Nat.and_assoc, show 0o7777 &&& sIfmt = 0 by decide, Nat.and_zero, Nat.zero_or]
  unfold tarFileType
  split_ifs <;> decide

theorem tarEntry_plain {hdr : TarHeader} {e : PaxEntry} (hpfx : hdr.pfx.head?.getD 0 = 0)
    (h : tarEntry env hdr none = some e) : e.named = none ∧ e.entry.name = cstr hdr.name ∧
      e.entry.linkTarget = none ∧ ∃ m, e.entry.mode = m &&& 0o7777 := by
  simp only [tarEntry, hpfx, ne_eq, not_true_eq_false, false_and, if_false] at h
  split_ifs at h
  cases h
  exact ⟨rfl, rfl, rfl, _, rfl⟩

theorem tarTooLong_short {entry : ArchiveEntry} (hname : entry.name.length ≤ 100)
    (hlink : ∀ l ∈ entry.linkTarget, l.length ≤ 100) : tarTooLong entry = false := by
  have hmax : 100 < pathMax - 10 := by decide
  rw [tarTooLong, decide_eq_false_iff_not]
  rintro (h | h)
  · omega
  · cases hl : entry.linkTarget with
    | none =>
      rw [hl] at h
      cases h
    | some l =>
      have hshort := hlink l hl
      rw [hl, Option.any_some, decide_eq_true_eq] at h
      omega

/-- the data of an entry is skipped with its padding -/
theorem tarSkip_item (hops : Delivers ops R) (h : is.Ready R (x.data ++ (tarPad x.data.length ++ rest)))
    (st : TarParser κ) : ∃ is', is'.Ready R rest ∧ tarSkip ops is st (roundUp x.data.length 512) =
      (if roundUp x.data.length 512 % 2 ^ 32 < 2 ^ 31 then none else some (toInt32 (roundUp x.data.length 512)), is', st) := by
  have hlen : (x.data ++ tarPad x.data.length).length = roundUp x.data.length 512 := by
    rw [length_append, tarPad, length_replicate]
    unfold roundUp
    omega
  rw [← append_assoc] at h
  generalize roundUp x.data.length 512 = n at hlen ⊢
  obtain ⟨is', hskip, h', -⟩ := apkIstreamSkip_holds hops.feeds h (n := n) (by rw [length_append]; omega)
  rw [drop_left' hlen] at h'
  unfold tarSkip
  by_cases h0 : n = 0
  · subst h0
    rw [length_eq_zero_iff.1 hlen] at h
    exact ⟨is, h, by simp⟩
  rw [if_neg h0, hskip]
  refine ⟨is', h', ?_⟩
  simp only [← toInt32_nonneg_iff]
  split_ifs <;> first | rfl | omega

/-- the loop over one entry: the parser comes to the next one, or stops with an error if the count of the bytes
that it skips is one -/
theorem tarLoop_item (hcb : cb.OfPayload f) (hops : Delivers ops R) (hx : x.Ok env)
    (h : InFront R is st (x.bytes ++ rest)) (n : ℕ) :
    (x.Fits → ∃ is' st', InFront R is' st' rest ∧ tarLoop env ops cb (n + 1) is st = tarLoop env ops cb n is' st') ∧
      (¬ x.Fits → ∃ r is' st', r < 0 ∧ 0 ≤ is'.err ∧ tarLoop env ops cb (n + 1) is st = (some r, is', st')) := by
  obtain ⟨e, hentry, hsize⟩ := hx.entry
  obtain ⟨h, hpax, hname⟩ := h
  rw [TarItem.bytes, append_assoc, append_assoc] at h
  obtain ⟨is1, h1, hrun⟩ := tarLoop_record env cb hops h hx.sized.length n st
  rw [if_neg hx.named, TarHeader.ofBytes_bytes hx.sized] at hrun
  obtain ⟨hnamed, hn, hlink, m, hmode⟩ := tarEntry_plain hx.plain hentry
  have hlen : ∀ b : Bytes, b.length = 100 → (cstr b).length ≤ 100 := fun b hb =>
    hb ▸ (takeWhile_sublist _).length_le
  -- the entry behind the switch
  obtain ⟨entry, hsame, hrest⟩ : ∃ entry : ArchiveEntry, entry.size = x.data.length ∧
      tarHeader env ops cb is1 st x.hdr = if tarFileType x.hdr.typeflag = 0 then
        tarSkip ops is1 { st with name := none } (roundUp x.data.length 512)
        else tarCall ops cb is1 { st with name := none } entry := by
    refine ⟨{ e.entry with
      mode := e.entry.mode ||| tarFileType x.hdr.typeflag
      linkTarget :=
        if x.hdr.typeflag = asc '1' ∨ x.hdr.typeflag = asc '2' then
          some (e.entry.linkTarget.getD (cstr x.hdr.linkname))
        else e.entry.linkTarget }, hsize, ?_⟩
    rw [tarHeader, if_neg (not_not.2 hx.magic), hname, hentry]
    simp only [hpax, ne_eq, not_true_eq_false, if_false, hnamed]
    rw [tarSwitch, if_neg hx.flag.1, if_neg hx.flag.2]
    simp only
    rw [tarTooLong_short (hn ▸ hlen _ hx.sized.name), if_neg Bool.false_ne_true, hmode, ite_not]
    · simp only [fileType_masked, hsize]
    · intro l hl
      rw [hlink] at hl
      split_ifs at hl
      · rw [← Option.some.inj hl]
        exact hlen _ hx.sized.linkname
      · cases hl
  rw [hrun, hrest]
  by_cases htype : tarFileType x.hdr.typeflag = 0
  · obtain ⟨is2, h2, hskip⟩ := tarSkip_item hops h1 { st with name := none }
    rw [if_pos htype, hskip]
    refine ⟨fun hfits => ?_, fun hno => ?_⟩
    · rw [if_pos (hfits htype)]
      exact ⟨is2, { st with name := none }, ⟨h2, hpax, rfl⟩, rfl⟩
    · have hbig : ¬ roundUp x.data.length 512 % 2 ^ 32 < 2 ^ 31 := fun hlt => hno fun _ => hlt
      have hneg := hbig
      rw [← toInt32_nonneg_iff, not_le] at hneg
      rw [if_neg hbig]
      refine ⟨_, is2, { st with name := none }, hneg, h2.nonneg, ?_⟩
      rw [tarThen, tarErr, if_neg (not_le.2 hneg)]
  · obtain ⟨is2, hcall, h2⟩ := tarCall_holds entry { st with name := none } hcb hops
      (by rwa [hsame]) hsame.symm
    rw [if_neg htype, hcall]
    exact ⟨fun _ => ⟨is2, _, ⟨h2, rfl, rfl⟩, rfl⟩, fun hno => absurd (fun h => absurd h htype) hno⟩

/-- an archive is parsed to its end exactly if no entry that is skipped has a size that the count makes an error -/
theorem tarLoop_items (hcb : cb.OfPayload f) (hops : Delivers ops R) {l : List TarItem} (hl : ∀ x ∈ l, x.Ok env)
    (h : InFront R is st (l.flatMap TarItem.bytes ++ endBytes)) (hn : l.length + 3 ≤ n) :
    ∃ r is' st', tarLoop env ops cb n is st = (some r, is', st') ∧ r ≤ 0 ∧ 0 ≤ is'.err ∧
      (r = 0 ↔ ∀ x ∈ l, x.Fits) := by
  induction l generalizing n is st with
  | nil =>
    obtain ⟨m, rfl⟩ := Nat.exists_eq_add_of_le' hn
    obtain ⟨is', st', hrun, herr, -⟩ := tarLoop_end env cb hops h.ready m st
    exact ⟨0, is', st', hrun, le_rfl, herr, by simp⟩
  | cons x l ih =>
    rw [length_cons] at hn
    obtain ⟨k, rfl⟩ : ∃ k, n = k + 1 := ⟨n - 1, by omega⟩
    rw [flatMap_cons, append_assoc] at h
    obtain ⟨hx, hl⟩ := forall_mem_cons.1 hl
    obtain ⟨hgood, hbad⟩ := tarLoop_item hcb hops hx h k
    rw [forall_mem_cons]
    by_cases hfits : x.Fits
    · obtain ⟨is1, st1, h1, hrun⟩ := hgood hfits
      rw [hrun, and_iff_right hfits]
      exact ih hl h1 (by omega)
    · obtain ⟨r, is', st', hneg, herr, hrun⟩ := hbad hfits
      exact ⟨r, is', st', hrun, hneg.le, herr, iff_of_false hneg.ne fun h => hfits h.1⟩

end

theorem Feeds.delivers (h : Feeds ops R F) (hF : ¬F) : Delivers ops R := by
  intro s b n hR
  rcases h s b n hR with ⟨c, s', b', hread, hb, hR', hc⟩ | ⟨-, hF', -⟩
  · exact ⟨c, s', b', hread, hb, hR', fun hnil => (hc hnil).imp id And.left⟩
  · exact absurd hF' hF

/-- the result of a copy says if all bytes were copied: it is an `int64_t`, and the size `APK_IO_ALL` asks for what
there is -/
def CopyFits (size left : ℕ) (code : ℤ) : Prop :=
  size < 2 ^ 63 ∨ left < size ∧ (size = apkIoAll → 2 ^ 63 ≤ left ∨ code ≠ -apkeEof)

theorem toInt64_nonneg_iff {n : ℕ} (h : n < 2 ^ 64) : 0 ≤ toInt64 n ↔ n < 2 ^ 63 := by
  unfold toInt64
  omega

theorem apkIstreamSkip_result (hops : Feeds ops R F) (h : is.Holds R p) (size : ℕ) :
    ∃ c p', p = c ++ p' ∧ (apkIstreamSkip ops is size).2.Holds R p' ∧
      ((0 ≤ (apkIstreamSkip ops is size).1 ↔ c.length = size) ↔ is.left p < size ∨ size % 2 ^ 32 < 2 ^ 31) := by
  obtain ⟨r, c, p', is', hrun, hp, h', hr⟩ := skipLoop_left (n := size) hops size 0 is p h le_rfl
  have hskip : apkIstreamSkip ops is size = (if r < 0 then r else toInt32 r, is') := by
    simp [apkIstreamSkip, hrun]
  refine ⟨c, p', hp, by rwa [hskip], ?_⟩
  rw [hskip]
  rcases hr with ⟨hleft, rfl, hc⟩ | ⟨hleft, hneg, hc⟩
  · rw [if_neg (by omega), zero_add, toInt32_nonneg_iff]
    simp [hc, not_lt.2 hleft]
  · simp [hneg, hc.ne, hleft]

theorem apkStreamCopy_result (hops : Feeds ops R F) (h : is.Holds R p) {size : ℕ} {τ : Type}
    (write : τ → Bytes → ℤ × τ) (cancel : τ → ℤ → τ) (os : τ) (h64 : size < 2 ^ 64) (hall : size = apkIoAll → ¬F) :
    (CopyFits size (is.left p) is.endCode → (0 ≤ (apkStreamCopy ops write cancel is os size).1 ↔
      (apkStreamCopy ops write cancel is os size).2.1 = size)) ∧
    ((∀ os b, 0 ≤ (write os b).1) → (0 ≤ (apkStreamCopy ops write cancel is os size).1 ↔
      (apkStreamCopy ops write cancel is os size).2.1 = size) → CopyFits size (is.left p) is.endCode) := by
  obtain ⟨r, m, rest, hrun, hcases⟩ := streamCopyLoop_left (n := size) write cancel hops
    size 0 is p os h le_rfl (Nat.zero_add _)
  have hnonneg := toInt64_nonneg_iff h64
  rw [apkStreamCopy, hrun]
  simp only
  rcases hcases with ⟨hneg, hm, os', b, hfail⟩ | ⟨hleft, hr, hm⟩ | ⟨hleft, hm, hneg, hend⟩
  · exact ⟨fun _ => iff_of_false (not_le.2 hneg) hm.ne, fun hwrite => absurd (hwrite os' b) (not_le.2 hfail)⟩
  · rw [hr, hm]
    refine ⟨fun hfits => iff_of_true (hnonneg.2 ?_) rfl, fun _ hiff => Or.inl (hnonneg.1 (hiff.2 rfl))⟩
    exact hfits.resolve_right fun hno => absurd hno.1 (not_lt.2 hleft)
  rw [hm, Nat.zero_add] at hend ⊢
  have hm := toInt64_nonneg_iff (hleft.trans h64)
  refine ⟨fun hfits => iff_of_false (not_le.2 ?_) hleft.ne, fun _ hiff => Or.inr ⟨hleft, fun hsize => ?_⟩⟩
  · by_cases hsize : size = apkIoAll
    · by_cases hcode : is.endCode = -apkeEof
      · have hbig : size < 2 ^ 63 ∨ 2 ^ 63 ≤ is.left p :=
          hfits.imp_right fun hno => (hno.2 hsize).resolve_right (not_not.2 hcode)
        rw [hend hsize (hall hsize) hcode, ← not_le, hm]
        unfold apkIoAll at hsize
        omega
      · exact hneg (Or.inr ⟨hall hsize, hcode⟩)
    · exact hneg (Or.inl hsize)
  · by_contra hno
    rw [not_or, not_le, not_not] at hno
    rw [hend hsize (hall hsize) hno.2, hm] at hiff
    exact hleft.ne (hiff.1 hno.1)

theorem apkTarParse_result (hops : Feeds ops R F) (h : is.Holds R p) (hcb : cb.OfPayload f) (cbs : κ)
    (hclose : ∀ s e, ops.close s e = if e < 0 then e else 0) (hF : ¬F) (herr : 0 ≤ is.err) {l : List TarItem}
    (hl : ∀ x ∈ l, x.Ok env) (hp : p = l.flatMap TarItem.bytes ++ endBytes) :
    (apkTarParse env ops cb is (l.length + 3) cbs).1 = some 0 ↔ ∀ x ∈ l, x.Fits := by
  rw [hp] at h
  obtain ⟨r, is', st', hrun, hr, herr', hiff⟩ := tarLoop_items hcb (hops.delivers hF) hl
    (⟨⟨h, herr⟩, rfl, rfl⟩ : InFront R is (TarParser.init cbs) _) le_rfl
  rw [← hiff, apkTarParse, hrun]
  simp [apkIstreamCloseError_eq hclose herr' hr]

end

end Alpine

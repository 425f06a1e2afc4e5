import Alpine.Spec.Io

/-! What a stream delivers, whatever the pieces its source reads it in. `Delivers` says of a kind
of source that it gives out its bytes and then ends, `Feeds` that it may fail there, and `Istream.Holds`
that the buffer and the source together hold some bytes. Every operation of a stream is then described
by those bytes alone. -/

namespace Alpine

open List Istream

section

variable {σ : Type}

/-- a source that gives out its bytes in pieces of any size and then ends -/
def Delivers (ops : IstreamOps σ) (R : σ → Bytes → Prop) : Prop :=
  ∀ s b n, R s b → ∃ c s' b', ops.read s n = (.ok c, s') ∧ b = c ++ b' ∧ R s' b' ∧
    (c = [] → n = 0 ∨ b = [])

/-- a source that gives out its bytes and then ends, or fails there if `F` says so -/
def Feeds (ops : IstreamOps σ) (R : σ → Bytes → Prop) (F : Prop) : Prop :=
  ∀ s b n, R s b → (∃ c s' b', ops.read s n = (.ok c, s') ∧ b = c ++ b' ∧ R s' b' ∧
    (c = [] → n = 0 ∨ b = [] ∧ ¬F)) ∨ b = [] ∧ F ∧ ∃ e s', ops.read s n = (.error e, s') ∧ R s' []

theorem Delivers.feeds {ops : IstreamOps σ} {R : σ → Bytes → Prop} (hops : Delivers ops R) :
    Feeds ops R False := by
  intro s b n hR
  obtain ⟨c, s', b', hread, hb, hR', hc⟩ := hops s b n hR
  exact Or.inl ⟨c, s', b', hread, hb, hR', by simpa using hc⟩

/-- the buffer and the source hold the bytes `p` together; past an end that was seen the source
has none -/
structure Istream.Holds (R : σ → Bytes → Prop) (is : Istream σ) (p : Bytes) : Prop where
  ptr_le : is.ptr ≤ is.fin
  fin_le : is.fin ≤ is.buf.length
  source : ∃ rest, R is.src rest ∧ p = is.buffered ++ rest ∧ (rest ≠ [] → is.err ≤ 0 ∧ 8 ≤ is.buf.length)

/-- a read of `apk_istream_read_max` into the empty buffer asks for a byte at least: a buffer of less than four
bytes is passed by -/
def Istream.Roomy (is : Istream σ) : Prop := 8 ≤ is.buf.length ∨ is.buf.length < 4 ∨ is.fin < is.buf.length

variable {is : Istream σ} {off : ℕ} {b : Bytes}

theorem Istream.Roomy.keep {is' : Istream σ} (h : is.Roomy) (hb : is'.buf.length = is.buf.length)
    (hfin : is.buf.length < 8 → is'.fin = is.fin) : is'.Roomy := by
  unfold Roomy at h ⊢
  omega

theorem Istream.buffered_length (h : is.fin ≤ is.buf.length) : is.buffered.length = is.fin - is.ptr := by
  rw [buffered, length_take, length_drop]
  omega

theorem Istream.store_length (h : off + b.length ≤ is.buf.length) :
    (is.store off b).length = is.buf.length := by
  rw [store, length_append, length_append, length_take, length_drop]
  omega

theorem Istream.store_take (h : off ≤ is.buf.length) :
    (is.store off b).take (off + b.length) = is.buf.take off ++ b := by
  have hlen : (is.buf.take off ++ b).length = off + b.length := by simp; omega
  rw [store, take_append_of_le_length hlen.ge, take_of_length_le hlen.le]

theorem Istream.store_drop {k : ℕ} (h : off ≤ is.buf.length) (hk : off + b.length ≤ k) :
    (is.store off b).drop k = is.buf.drop k := by
  have hlen : (is.buf.take off ++ b).length = off + b.length := by simp; omega
  rw [store, drop_append, drop_of_length_le (by omega), nil_append, drop_drop, hlen,
    Nat.add_sub_cancel' hk]

theorem Istream.buffered_eq : is.buffered = (is.buf.take is.fin).drop is.ptr := by
  rw [buffered, drop_take]

theorem Istream.buffered_nil (h : is.ptr = is.fin) : is.buffered = [] := by
  rw [buffered, h, Nat.sub_self, take_zero]

section holds

variable {ops : IstreamOps σ} {R : σ → Bytes → Prop} {F : Prop} {is : Istream σ} {p : Bytes}

theorem Istream.Holds.length_le (h : is.Holds R p) : is.fin - is.ptr ≤ p.length := by
  obtain ⟨rest, -, rfl, -⟩ := h.source
  rw [length_append, buffered_length h.fin_le]
  omega

variable {len n : ℕ} {e : ℤ} {after pay : Bytes} {s : σ} {is' : Istream σ}

theorem Istream.Holds.advance (h : is.Holds R p) (hn : n ≤ is.fin - is.ptr) :
    ({ is with ptr := is.ptr + n } : Istream σ).Holds R (p.drop n) := by
  obtain ⟨rest, hR, rfl, hrest⟩ := h.source
  have hlen := buffered_length h.fin_le
  have hptr := h.ptr_le
  refine ⟨by change is.ptr + n ≤ is.fin; omega, h.fin_le, rest, hR, ?_, hrest⟩
  rw [drop_append_of_le_length (by omega), buffered_eq, buffered_eq, drop_drop]

theorem Istream.Holds.buffered_take (h : is.Holds R p) (hn : n ≤ is.fin - is.ptr) :
    is.buffered.take n = p.take n := by
  obtain ⟨rest, -, rfl, -⟩ := h.source
  rw [take_append_of_le_length (by rw [buffered_length h.fin_le]; exact hn)]

theorem Istream.Holds.source_eq (h : is.Holds R p) (he : is.ptr = is.fin) :
    R is.src p ∧ (p ≠ [] → is.err ≤ 0 ∧ 8 ≤ is.buf.length) := by
  obtain ⟨rest, hR, rfl, hrest⟩ := h.source
  rw [buffered_nil he]
  exact ⟨hR, hrest⟩

theorem Istream.holds_empty (he : is.ptr = is.fin) (hfin : is.fin ≤ is.buf.length) (hR : R is.src p)
    (hp : p ≠ [] → is.err ≤ 0 ∧ 8 ≤ is.buf.length) : is.Holds R p :=
  ⟨he.le, hfin, p, hR, by rw [buffered_nil he, nil_append], hp⟩

theorem Istream.Holds.stored (h : is.Holds R p) {c rest : Bytes}
    (hp : p = is.buffered ++ (c ++ rest)) (hR : R s rest) (hfit : is.fin + c.length ≤ is.buf.length)
    (hrest : rest ≠ [] → is.err ≤ 0 ∧ 8 ≤ is.buf.length) :
    ({ is with src := s, buf := is.store is.fin c, fin := is.fin + c.length } : Istream σ).Holds R p := by
  have hlen := store_length hfit
  have hptr := h.ptr_le
  refine ⟨by change is.ptr ≤ is.fin + c.length; omega, by rw [hlen]; exact hfit, rest, hR, ?_, ?_⟩
  · rw [hp, ← append_assoc, buffered_eq, buffered_eq]
    change _ = ((is.store is.fin c).take (is.fin + c.length)).drop is.ptr ++ rest
    rw [store_take h.fin_le, drop_append_of_le_length]
    rw [length_take]
    omega
  · rw [hlen]
    exact hrest

/-- at the end a read gives nothing or fails, before it gives a piece -/
theorem Feeds.piece (hops : Feeds ops R F) (hR : R s p) (hn : p ≠ [] → 0 < n) :
    (p = [] ∧ ∃ r s', ops.read s n = (r, s') ∧ R s' [] ∧
        (r = .ok [] ∧ (n = 0 ∨ ¬F) ∨ ∃ e, r = .error e ∧ e < 0 ∧ F)) ∨
      ∃ c s' rest, ops.read s n = (.ok c, s') ∧ p = c ++ rest ∧ R s' rest ∧ c ≠ [] ∧ c.length ≤ n := by
  rcases hops _ _ n hR with ⟨c, s', rest, hread, rfl, hR', hc⟩ | ⟨rfl, hF, e, s', hread, hR'⟩
  · by_cases hnil : c = []
    · subst hnil
      have hrest : rest = [] := by
        by_contra hne
        have hpos := hn hne
        rcases hc rfl with h | h
        · omega
        · exact hne h.1
      subst hrest
      exact Or.inl ⟨rfl, _, s', hread, hR', Or.inl ⟨rfl, (hc rfl).imp id And.right⟩⟩
    · exact Or.inr ⟨c, s', rest, hread, rfl, hR', hnil, ops.read_le _ _ _ _ hread⟩
  · exact Or.inl ⟨rfl, _, s', hread, hR', Or.inr ⟨e, rfl, ops.read_neg _ _ _ _ hread, hF⟩⟩

/-- the loop has copied what there is of the bytes it was to copy; it fails, or says if there were fewer -/
structure ReadsMax (R : σ → Bytes → Prop) (F : Prop) (is : Istream σ) (left : ℕ) (out p : Bytes)
    (x : ℤ × Bytes × Istream σ) : Prop where
  bytes : x.2.1 = out ++ p.take left
  holds : x.2.2.Holds R (p.drop left)
  err : x.2.2.err = is.err
  room : x.2.2.buf.length = is.buf.length
  fin : is.buf.length < 8 → x.2.2.fin = is.fin
  result : x.1 < 0 ∧ F ∨ x.1 = 0 ∧ (p.length < left → is.err = 0 → is.Roomy → ¬F)

section

variable {left : ℕ} {out c : Bytes} {is1 : Istream σ}

/-- a piece was copied, and the rest of the loop copies on from there -/
theorem ReadsMax.more {x : ℤ × Bytes × Istream σ}
    (h : ReadsMax R F is1 (left - c.length) (out ++ c) (p.drop c.length) x) (hc : c <+: p)
    (hle : c.length ≤ left) (he : is1.err = is.err) (hb : is1.buf.length = is.buf.length)
    (hfin : is.buf.length < 8 → is1.fin = is.fin) : ReadsMax R F is left out p x := by
  obtain ⟨hbytes, hholds, herr, hroom, hsame, hresult⟩ := h
  rw [he, length_drop] at hresult
  have hcp := hc.length_le
  refine ⟨?_, ?_, herr.trans he, hroom.trans hb, fun h8 => (hsame (hb ▸ h8)).trans (hfin h8),
    hresult.imp id fun hr => ⟨hr.1, fun _ h0 hroomy => hr.2 (by omega) h0 (hroomy.keep hb hfin)⟩⟩
  · obtain ⟨q, rfl⟩ := hc
    rw [hbytes, append_assoc, drop_left, take_append, take_of_length_le hle]
  · rwa [drop_drop, Nat.add_sub_cancel' hle] at hholds

/-- nothing is left -/
theorem ReadsMax.dry {r : ℤ} (he : is1.ptr = is1.fin) (hfin : is1.fin ≤ is1.buf.length)
    (hR : R is1.src []) (herr : is1.err = is.err) (hb : is1.buf.length = is.buf.length)
    (hsame : is.buf.length < 8 → is1.fin = is.fin)
    (hr : r < 0 ∧ F ∨ r = 0 ∧ (0 < left → is.err = 0 → is.Roomy → ¬F)) :
    ReadsMax R F is left out [] (r, out, is1) :=
  ⟨by simp, by simpa using holds_empty he hfin hR (by simp), herr, hb, hsame, hr⟩

end

theorem readMaxLoop_feeds (hops : Feeds ops R F) (left : ℕ) (is : Istream σ) (out p : Bytes)
    (h : is.Holds R p) (herr : 0 ≤ is.err) (hleft : left ≤ n) :
    ReadsMax R F is left out p (readMaxLoop ops n left is out) := by
  induction n generalizing left is out p with
  | zero =>
    obtain rfl : left = 0 := by omega
    exact ⟨by simp [readMaxLoop], h, rfl, rfl, fun _ => rfl, Or.inr ⟨rfl, nofun⟩⟩
  | succ n ih =>
    unfold readMaxLoop
    by_cases h0 : left = 0
    · subst h0
      exact ⟨by simp, h, rfl, rfl, fun _ => rfl, Or.inr ⟨rfl, nofun⟩⟩
    rw [if_neg h0]
    have hptr := h.ptr_le
    have hfin := h.fin_le
    by_cases hbuf : is.ptr = is.fin
    · rw [if_neg (not_not.2 hbuf)]
      obtain ⟨hR, hp⟩ := h.source_eq hbuf
      by_cases he : is.err = 0
      · rw [if_neg (not_not.2 he)]
        by_cases hbig : is.buf.length / 4 < left
        · rw [if_pos hbig]
          rcases hops.piece hR (n := left) (fun _ => by omega) with
            ⟨rfl, _, s, hread, hR', ⟨rfl, hF⟩ | ⟨e, rfl, hr⟩⟩ | ⟨c, s, rest, hread, rfl, hR', hnil, hle⟩
          · simp only [hread]
            exact .dry hbuf hfin hR' rfl rfl (fun _ => rfl) (Or.inr ⟨rfl, fun _ _ _ => hF.resolve_left h0⟩)
          · simp only [hread]
            exact .dry hbuf hfin hR' rfl rfl (fun _ => rfl) (Or.inl hr)
          have hpos := length_pos_of_ne_nil hnil
          have hb := hp (by simp [hnil])
          have hmod : (is.ptr + c.length) % apkIstreamAlignSync < 8 := Nat.mod_lt _ (by decide)
          simp only [hread, if_neg hnil]
          refine .more (ih _ _ _ _ ?_ herr (by omega)) (prefix_append _ _) hle rfl rfl
            fun h8 => absurd hb.2 (not_le.2 h8)
          rw [drop_left]
          exact holds_empty rfl (hmod.le.trans hb.2) hR' fun _ => hb
        rw [if_neg hbig]
        have hmod : is.ptr % apkIstreamAlignSync < 8 := Nat.mod_lt _ (by decide)
        have hmod' : is.ptr % apkIstreamAlignSync ≤ is.ptr := Nat.mod_le _ _
        have hsmall : is.ptr < 8 → is.ptr % apkIstreamAlignSync = is.ptr := Nat.mod_eq_of_lt
        generalize is.ptr % apkIstreamAlignSync = o at hmod hmod' hsmall ⊢
        have hsame : is.buf.length < 8 → o = is.fin := by omega
        have hempty : ({ is with ptr := o, fin := o } : Istream σ).Holds R p :=
          holds_empty rfl (by change o ≤ is.buf.length; omega) hR hp
        rcases hops.piece hR (n := is.buf.length - o) (fun hne => by have := (hp hne).2; omega) with
          ⟨rfl, _, s, hread, hR', ⟨rfl, hF⟩ | ⟨e, rfl, hr⟩⟩ | ⟨c, s, rest, hread, rfl, hR', hnil, hle⟩
        · simp only [hread]
          refine .dry rfl hempty.fin_le hR' rfl rfl hsame (Or.inr ⟨rfl, fun _ _ hroomy => hF.resolve_left ?_⟩)
          unfold Roomy at hroomy
          omega
        · simp only [hread]
          exact .dry rfl hempty.fin_le hR' rfl rfl hsame (Or.inl hr)
        have hpos := length_pos_of_ne_nil hnil
        have hb := hp (by simp [hnil])
        simp only [hread, if_neg hnil]
        -- the piece is stored at the start of the buffer and copied from there
        have hstored := hempty.stored (by rw [buffered_nil rfl, nil_append])
          hR' (by change o + c.length ≤ is.buf.length; omega) fun _ => hb
        have hlen : (c.take left).length = min left c.length := length_take
        refine .more (ih _ _ _ _ (hstored.advance ?_) herr (by omega))
          ((List.take_prefix _ _).trans (prefix_append _ _)) (by omega) rfl (store_length (by omega))
          fun h8 => absurd hb.2 (not_le.2 h8)
        change _ ≤ o + c.length - o
        omega
      rw [if_pos he]
      have hnil : p = [] := by
        by_contra hne
        have := (hp hne).1
        omega
      subst hnil
      exact .dry hbuf hfin hR rfl rfl (fun _ => rfl) (Or.inr ⟨rfl, fun _ h0 => absurd h0 he⟩)
    rw [if_pos hbuf]
    have hlen : (is.buffered.take left).length = min left (is.fin - is.ptr) := by
      rw [length_take, buffered_length hfin]
    refine .more (ih _ _ _ _ (h.advance (by omega)) herr (by omega)) ?_ (by omega) rfl rfl fun _ => rfl
    obtain ⟨rest, -, rfl, -⟩ := h.source
    exact (List.take_prefix _ _).trans (prefix_append _ _)

theorem Istream.Holds.marked (h : is.Holds R p) (he : 0 < e → p = []) :
    ({ is with err := e } : Istream σ).Holds R p := by
  obtain ⟨rest, hR, hp, hrest⟩ := h.source
  refine ⟨h.ptr_le, h.fin_le, rest, hR, hp, fun hne => ⟨?_, (hrest hne).2⟩⟩
  by_contra hpos
  rw [he (not_le.1 hpos)] at hp
  exact hne (append_eq_nil_iff.1 hp.symm).2

/-- a stream that holds its bytes and has no error -/
structure Istream.Ready (R : σ → Bytes → Prop) (is : Istream σ) (p : Bytes) : Prop
    extends Istream.Holds R is p where
  nonneg : 0 ≤ is.err

theorem apkIstreamError_of_nonneg (herr : 0 ≤ is.err) (he : e ≠ 0) :
    apkIstreamError is e = (if e < 0 then e else 0, { is with err := e }) := by
  simp [apkIstreamError, herr, he]

theorem apkIstreamError_zero (herr : 0 ≤ is.err) : apkIstreamError is 0 = (0, is) := by
  simp [apkIstreamError, not_lt.2 herr]

theorem apkIstreamError_of_neg (herr : is.err < 0) : apkIstreamError is e = (is.err, is) := by
  simp [apkIstreamError, not_le.2 herr]

theorem Istream.Holds.error (h : is.Holds R p) (he : 0 < e → p = []) :
    (apkIstreamError is e).2.Holds R p := by
  unfold apkIstreamError
  split_ifs
  · exact h.marked he
  · exact h

/-- a read takes what there is; it fails, or marks the end, only if that is less than it was asked for -/
theorem apkIstreamReadMax_feeds (hops : Feeds ops R F) (h : is.Ready R p) (n : ℕ) :
    ∃ r is', apkIstreamReadMax ops is n = (r, p.take n, is') ∧ is'.Holds R (p.drop n) ∧
      is'.buf.length = is.buf.length ∧ (is.buf.length < 8 → is'.fin = is.fin) ∧
      (r < 0 ∧ is'.err = r ∧ F ∨ r = (p.take n).length ∧ (p.length < n → is.err = 0 → is.Roomy → ¬F) ∧
        (is'.err = is.err ∨ is'.err = 1 ∧ p.length < n ∧ is.err = 0)) := by
  obtain ⟨hrun, h', he, hb, hfin, hr⟩ := readMaxLoop_feeds hops n is [] p h.toHolds h.nonneg le_rfl
  rw [apkIstreamReadMax, if_neg (not_lt.2 h.nonneg)]
  generalize readMaxLoop ops n n is [] = x at *
  obtain ⟨r, _, is'⟩ := x
  cases hrun
  have herr := he ▸ h.nonneg
  rcases hr with ⟨hneg, hF⟩ | ⟨rfl, hend⟩
  · simp only [if_pos hneg, apkIstreamError_of_nonneg herr hneg.ne]
    exact ⟨_, _, rfl, h'.marked fun hpos => absurd hpos (not_lt.2 hneg.le), hb, hfin, Or.inl ⟨hneg, rfl, hF⟩⟩
  by_cases hnil : p.take n = []
  · simp only [hnil]
    by_cases hm : n ≠ 0 ∧ is'.err = 0
    · rw [if_pos hm, apkIstreamError_of_nonneg hm.2.ge one_ne_zero]
      have hp : p = [] := (take_eq_nil_iff.1 hnil).resolve_left hm.1
      exact ⟨_, _, rfl, h'.marked fun _ => by rw [hp, drop_nil], hb, hfin, Or.inr ⟨rfl, hend, Or.inr ⟨rfl,
        by rw [hp]; exact Nat.pos_of_ne_zero hm.1, he ▸ hm.2⟩⟩⟩
    · rw [if_neg hm, apkIstreamError_zero herr]
      exact ⟨_, is', rfl, h', hb, hfin, Or.inr ⟨rfl, hend, Or.inl he⟩⟩
  · simp only [hnil]
    exact ⟨_, is', rfl, h', hb, hfin, Or.inr ⟨rfl, hend, Or.inl he⟩⟩

theorem apkIstreamReadMax_holds (hops : Delivers ops R) (h : is.Ready R p) (n : ℕ) :
    ∃ is', apkIstreamReadMax ops is n = (((p.take n).length : ℤ), p.take n, is') ∧
      is'.Ready R (p.drop n) ∧ is'.buf.length = is.buf.length := by
  obtain ⟨r, is', hrun, h', hb, -, hr⟩ := apkIstreamReadMax_feeds hops.feeds h n
  obtain ⟨rfl, -, he⟩ := hr.resolve_left fun hr => hr.2.2
  have := h.nonneg
  exact ⟨is', hrun, ⟨h', by omega⟩, hb⟩

theorem apkIstreamRead_holds (hops : Delivers ops R) (h : is.Ready R p) (hn : n ≤ p.length) :
    ∃ is', apkIstreamRead ops is n = (0, p.take n, is') ∧ is'.Ready R (p.drop n) ∧
      is'.buf.length = is.buf.length := by
  obtain ⟨is', hrun, h'⟩ := apkIstreamReadMax_holds hops h n
  have hlen : (p.take n).length = n := length_take_of_le hn
  rw [apkIstreamRead, hrun, hlen]
  simp only
  exact ⟨is', rfl, h'⟩

theorem Istream.Holds.moved (h : is.Holds R p) {o : ℕ} (ho : o ≤ is.ptr) :
    ({ is with buf := is.store o is.buffered, ptr := o, fin := o + is.buffered.length } :
      Istream σ).Holds R p := by
  obtain ⟨rest, hR, hp, hrest⟩ := h.source
  have hptr := h.ptr_le
  have hfin := h.fin_le
  have hlen := buffered_length hfin
  have hstore : (is.store o is.buffered).length = is.buf.length := store_length (by omega)
  refine ⟨Nat.le_add_right _ _, ?_, rest, hR, ?_, by rwa [hstore]⟩
  · rw [hstore]
    change o + is.buffered.length ≤ is.buf.length
    omega
  rw [hp]
  congr 1
  refine Eq.trans ?_ buffered_eq.symm
  change is.buffered = ((is.store o is.buffered).take (o + is.buffered.length)).drop o
  rw [store_take (by omega), drop_append_of_le_length (by rw [length_take]; omega),
    drop_of_length_le (by rw [length_take]; omega), nil_append]

/-- what a fill does: nothing after the end, or with a buffer that is full; else it fails or finds the end, or
adds to the buffer -/
theorem apkIstreamFill_feeds (hops : Feeds ops R F) (h : is.Holds R p) :
    ∃ r is', apkIstreamFill ops is = (r, is') ∧ is'.Holds R p ∧ is'.buf.length = is.buf.length ∧
      (is.buf.length < 8 → is'.fin = is.fin) ∧ ((is' = is ∧ ((is.err ≠ 0 ∧ r = is.err) ∨
          (is.err = 0 ∧ is.ptr < 8 ∧ is.fin = is.buf.length ∧ r = -apkeBufferSize))) ∨
        (is.err = 0 ∧ ((p.length = is.fin - is.ptr ∧ is'.fin - is'.ptr = is.fin - is.ptr ∧
            (r = 0 ∧ is'.err = 1 ∧ ¬F ∨ r < 0 ∧ is'.err = r ∧ F)) ∨
          (r = 0 ∧ is'.err = 0 ∧ is.fin - is.ptr < is'.fin - is'.ptr)))) := by
  unfold apkIstreamFill
  by_cases he : is.err = 0
  · rw [if_neg (not_not.2 he)]
    by_cases hfull : is.ptr < apkIstreamAlignSync ∧ is.fin = is.buf.length
    · rw [if_pos hfull]
      exact ⟨_, is, rfl, h, rfl, fun _ => rfl, Or.inl ⟨rfl, Or.inr ⟨he, hfull.1, hfull.2, rfl⟩⟩⟩
    rw [if_neg hfull]
    have hptr := h.ptr_le
    have hfin := h.fin_le
    -- the buffer with what it held at its start
    obtain ⟨is1, his1, h1, herr1, hlen1, hsame, hdiff, hroom⟩ : ∃ is1, (if is.ptr < apkIstreamAlignSync then is
        else { is with
          buf := is.store (is.ptr % apkIstreamAlignSync) is.buffered
          ptr := is.ptr % apkIstreamAlignSync
          fin := is.ptr % apkIstreamAlignSync + is.buffered.length }) = is1 ∧
        is1.Holds R p ∧ is1.err = 0 ∧ is1.buf.length = is.buf.length ∧ (is.buf.length < 8 → is1.fin = is.fin) ∧
        is1.fin - is1.ptr = is.fin - is.ptr ∧ is1.fin < is1.buf.length := by
      have hlen := buffered_length hfin
      by_cases hlow : is.ptr < apkIstreamAlignSync
      · exact ⟨is, if_pos hlow, h, he, rfl, fun _ => rfl, rfl, by omega⟩
      have hbig : 8 ≤ is.ptr := not_lt.1 hlow
      have hmod : is.ptr % apkIstreamAlignSync < apkIstreamAlignSync := Nat.mod_lt _ (by decide)
      have hb : (is.store (is.ptr % apkIstreamAlignSync) is.buffered).length = is.buf.length :=
        store_length (by omega)
      refine ⟨_, if_neg hlow, h.moved (Nat.mod_le _ _), he, hb, fun h8 => absurd hbig (by omega), ?_, ?_⟩
      · change is.ptr % apkIstreamAlignSync + is.buffered.length - is.ptr % apkIstreamAlignSync = _
        omega
      · rw [hb]
        change is.ptr % apkIstreamAlignSync + is.buffered.length < _
        omega
    rw [his1]
    obtain ⟨rest, hR, hp, hrest⟩ := h1.source
    rcases hops.piece hR (n := is1.buf.length - is1.fin) (fun _ => by omega) with
      ⟨rfl, r, s, hread, hR', hr⟩ | ⟨c, s, rest', hread, rfl, hR', hnil, hle⟩
    · have hlen : p.length = is.fin - is.ptr := by
        rw [hp, append_nil, buffered_length h1.fin_le, hdiff]
      -- the stream is marked with the end or the error
      have hmark : ∀ e : ℤ, ({ is1 with src := s, err := e } : Istream σ).Holds R p := fun e =>
        ⟨h1.ptr_le, h1.fin_le, [], hR', hp, fun hne => absurd rfl hne⟩
      rcases hr with ⟨rfl, hF⟩ | ⟨e, rfl, hneg, hF⟩
      · simp only [hread]
        rw [apkIstreamError_of_nonneg (by exact herr1.ge) one_ne_zero]
        exact ⟨_, _, rfl, hmark 1, hlen1, hsame, Or.inr ⟨he, Or.inl ⟨hlen, hdiff, Or.inl ⟨rfl, rfl,
          hF.resolve_left (by omega)⟩⟩⟩⟩
      · simp only [hread]
        rw [apkIstreamError_of_nonneg (by exact herr1.ge) hneg.ne, if_pos hneg]
        exact ⟨_, _, rfl, hmark e, hlen1, hsame, Or.inr ⟨he, Or.inl ⟨hlen, hdiff, Or.inr ⟨hneg, rfl, hF⟩⟩⟩⟩
    have hpos := length_pos_of_ne_nil hnil
    simp only [hread, if_neg hnil]
    have h8 := (hrest (by simp [hnil])).2
    refine ⟨_, _, rfl, h1.stored hp hR' (by omega) fun _ => hrest (by simp [hnil]), ?_,
      fun hlt => absurd h8 (not_le.2 (hlen1 ▸ hlt)), Or.inr ⟨he, Or.inr ⟨rfl, herr1, ?_⟩⟩⟩
    · exact (store_length (by omega)).trans hlen1
    · change is.fin - is.ptr < is1.fin + c.length - is1.ptr
      have := h1.ptr_le
      omega
  · rw [if_pos he]
    exact ⟨_, is, rfl, h, rfl, fun _ => rfl, Or.inl ⟨rfl, Or.inl ⟨he, rfl⟩⟩⟩

section align

/-! Bytes keep their place modulo 8: the position of the buffer moves on with what is taken from the stream. -/

variable (ops) (is)

theorem apkIstreamError_ptr (e : ℤ) : (apkIstreamError is e).2.ptr = is.ptr := by
  unfold apkIstreamError
  split_ifs <;> rfl

theorem readMaxLoop_align (n left : ℕ) (out : Bytes) :
    (is.ptr + (readMaxLoop ops n left is out).2.1.length) % 8 =
      ((readMaxLoop ops n left is out).2.2.ptr + out.length) % 8 := by
  induction n generalizing left is out with
  | zero => rfl
  | succ n ih =>
    unfold readMaxLoop
    split_ifs with h0 hbuf he hbig
    · rfl
    · simp only
      generalize is.buffered.take left = b
      have := ih { is with ptr := is.ptr + b.length } (left - b.length) (out ++ b)
      rw [length_append] at this
      dsimp only at this
      omega
    · rfl
    · rcases hread : ops.read is.src left with ⟨e | b, s⟩
      · rfl
      simp only
      split_ifs
      · rfl
      have := ih { is with
        src := s
        ptr := (is.ptr + b.length) % apkIstreamAlignSync
        fin := (is.ptr + b.length) % apkIstreamAlignSync } (left - b.length) (out ++ b)
      rw [length_append] at this
      dsimp only [apkIstreamAlignSync] at this ⊢
      omega
    · simp only
      rcases hread : ops.read is.src (is.buf.length - is.ptr % apkIstreamAlignSync) with ⟨e | b, s⟩
      · dsimp only [apkIstreamAlignSync]
        omega
      simp only
      split_ifs
      · dsimp only [apkIstreamAlignSync]
        omega
      generalize b.take left = c
      have := ih { is with
        src := s
        buf := is.store (is.ptr % apkIstreamAlignSync) b
        ptr := is.ptr % apkIstreamAlignSync + c.length
        fin := is.ptr % apkIstreamAlignSync + b.length } (left - c.length) (out ++ c)
      rw [length_append] at this
      dsimp only [apkIstreamAlignSync] at this ⊢
      omega

theorem apkIstreamReadMax_align (n : ℕ) : (apkIstreamReadMax ops is n).2.2.ptr % 8 =
    (is.ptr + (apkIstreamReadMax ops is n).2.1.length) % 8 := by
  have hloop := readMaxLoop_align ops is n n []
  unfold apkIstreamReadMax
  split_ifs
  · rfl
  generalize readMaxLoop ops n n is [] = x at hloop ⊢
  obtain ⟨r, out, is'⟩ := x
  by_cases hr : r < 0
  · simp only [if_pos hr, apkIstreamError_ptr]
    exact hloop.symm
  by_cases hnil : out = []
  · subst hnil
    simp only [if_neg hr, if_true, apkIstreamError_ptr]
    exact hloop.symm
  · simp only [if_neg hr, if_neg hnil]
    exact hloop.symm

theorem apkIstreamRead_align (n : ℕ) : (apkIstreamRead ops is n).2.2.ptr % 8 =
    (is.ptr + (apkIstreamRead ops is n).2.1.length) % 8 := by
  have hmax := apkIstreamReadMax_align ops is n
  unfold apkIstreamRead
  simp only
  split_ifs
  · exact hmax
  · rw [apkIstreamError_ptr]
    exact hmax

theorem apkIstreamFill_align : (apkIstreamFill ops is).2.ptr % 8 = is.ptr % 8 := by
  have hmod : is.ptr % apkIstreamAlignSync % 8 = is.ptr % 8 := Nat.mod_mod _ _
  unfold apkIstreamFill
  split_ifs
  · rfl
  · rfl
  -- the bytes stay where they are, or are moved to the start of the buffer
  · simp only
    rcases ops.read is.src (is.buf.length - is.fin) with ⟨e | b, s⟩
    · simp only [apkIstreamError_ptr]
    · by_cases hb : b = []
      · simp only [if_pos hb, apkIstreamError_ptr]
      · simp only [if_neg hb]
  · simp only
    generalize ops.read is.src _ = x
    rcases x with ⟨e | b, s⟩
    · simp only [apkIstreamError_ptr, hmod]
    · by_cases hb : b = []
      · simp only [if_pos hb, apkIstreamError_ptr, hmod]
      · simp only [if_neg hb, hmod]

theorem peekLoop_align (len n : ℕ) : (peekLoop ops len n is).2.ptr % 8 = is.ptr % 8 := by
  induction n generalizing is with
  | zero => rfl
  | succ n ih =>
    unfold peekLoop
    split_ifs
    · rfl
    have hfill := apkIstreamFill_align ops is
    by_cases hr : (apkIstreamFill ops is).1 = 0
    · simp only [if_pos hr, ih, hfill]
    · simp only [if_neg hr, hfill]

theorem apkIstreamPeek_align (len : ℕ) : (apkIstreamPeek ops is len).2.ptr % 8 = is.ptr % 8 := by
  unfold apkIstreamPeek
  split_ifs
  · rfl
  · exact peekLoop_align ops is len _

theorem apkIstreamGetMax_align (max : ℕ) : (apkIstreamGetMax ops is max).2.2.ptr % 8 =
    (is.ptr + (apkIstreamGetMax ops is max).2.1.length) % 8 := by
  have hfill := apkIstreamFill_align ops is
  unfold apkIstreamGetMax
  simp only
  split_ifs <;> simp only [length_nil] <;> omega

theorem skipLoop_align (n left : ℕ) {done : ℤ} (hdone : 0 ≤ done)
    (h : (skipLoop ops n left done is).1 = done + left) :
    (skipLoop ops n left done is).2.ptr % 8 = (is.ptr + left) % 8 := by
  induction n generalizing left done is with
  | zero =>
    have : done = done + left := h
    obtain rfl : left = 0 := by omega
    rfl
  | succ n ih =>
    unfold skipLoop at h ⊢
    by_cases h0 : left = 0
    · subst h0
      rfl
    rw [if_neg h0] at h ⊢
    have hget := apkIstreamGetMax_align ops is left
    have hle : (apkIstreamGetMax ops is left).2.1.length ≤ left := by
      unfold apkIstreamGetMax
      simp only
      split_ifs <;> simp
    generalize apkIstreamGetMax ops is left = x at hget hle h ⊢
    obtain ⟨r, b, is'⟩ := x
    simp only at hget hle h ⊢
    by_cases hr : r < 0
    · rw [if_pos hr] at h
      have : r = done + left := h
      omega
    rw [if_neg hr] at h ⊢
    rw [ih is' (left - b.length) (by omega) (by rw [h]; omega)]
    omega

end align

section

variable (hops : Delivers ops R)
include hops

theorem apkIstreamFill_holds (h : is.Ready R p)
    (hroom : is.err = 0 → is.ptr < 8 → is.fin < is.buf.length) :
    0 < is.err ∧ p = is.buffered ∧ apkIstreamFill ops is = (is.err, is) ∨
      is.err = 0 ∧ ∃ is', apkIstreamFill ops is = (0, is') ∧ is'.Ready R p ∧ is'.buf.length = is.buf.length ∧
        (is'.err = 1 ∧ p = is.buffered ∧ is'.fin - is'.ptr = is.fin - is.ptr ∨
          is'.err = 0 ∧ is.fin - is.ptr < is'.fin - is'.ptr) := by
  have herr := h.nonneg
  obtain ⟨rest, -, hp, hrest⟩ := h.source
  have hlen := congrArg List.length hp
  rw [length_append, buffered_length h.fin_le] at hlen
  have hall : rest = [] → p = is.buffered := by
    rintro rfl
    rwa [append_nil] at hp
  obtain ⟨r, is', hfill, h', hb, -, hcases⟩ := apkIstreamFill_feeds hops.feeds h.toHolds
  rw [hfill]
  rcases hcases with ⟨rfl, ⟨he, rfl⟩ | ⟨he, hlow, hfull, rfl⟩⟩ |
    ⟨he, ⟨hend, hsame, ⟨rfl, hmark, -⟩ | ⟨-, -, hF⟩⟩ | ⟨rfl, hmore, hlt⟩⟩
  · have hpos : 0 < is'.err := by omega
    refine Or.inl ⟨hpos, hall (by_contra fun hne => ?_), rfl⟩
    have := (hrest hne).1
    omega
  · have := hroom he hlow
    omega
  · exact Or.inr ⟨he, is', rfl, ⟨h', by omega⟩, hb,
      Or.inl ⟨hmark, hall (length_eq_zero_iff.1 (by omega)), hsame⟩⟩
  · exact hF.elim
  · exact Or.inr ⟨he, is', rfl, ⟨h', hmore.ge⟩, hb, Or.inr ⟨hmore, hlt⟩⟩

theorem peekLoop_holds : ∀ is : Istream σ, is.Ready R p → is.ptr % 8 + len ≤ is.buf.length →
    len - (is.fin - is.ptr) + (if is.err = 0 then 1 else 0) < n →
    ∃ is', peekLoop ops len n is = (if len ≤ p.length then .ok (p.take len) else .error (-apkeEof), is') ∧
      is'.Ready R p ∧ is'.buf.length = is.buf.length := by
  induction n with
  | zero => intro is _ _ hn; exact absurd hn (Nat.not_lt_zero _)
  | succ n ih =>
    intro is h hroom hn
    unfold peekLoop
    have hle := h.length_le
    by_cases hthere : len ≤ is.fin - is.ptr
    · rw [if_pos hthere, if_pos (hthere.trans hle), h.buffered_take hthere]
      exact ⟨is, rfl, h, rfl⟩
    rw [if_neg hthere]
    rcases apkIstreamFill_holds hops h (fun _ _ => by omega) with
      ⟨hpos, hp, hfill⟩ | ⟨he, is', hfill, h', hb, hcases⟩
    · -- the end was seen before
      have hlen := buffered_length h.fin_le
      simp only [hfill]
      rw [if_neg hpos.ne', if_pos hpos, hp, if_neg (by omega), ← hp]
      exact ⟨is, rfl, h, rfl⟩
    simp only [hfill]
    have halign := apkIstreamFill_align ops is
    rw [hfill] at halign
    obtain ⟨is'', hrun, h'', hb'⟩ := ih is' h' (by rw [halign, hb]; exact hroom) (by
      rcases hcases with ⟨hmark, -, hsame⟩ | ⟨hmore, hlt⟩
      · simp only [hmark, one_ne_zero, reduceIte, he] at hn ⊢
        omega
      · simp only [hmore, reduceIte, he] at hn ⊢
        omega)
    exact ⟨is'', hrun, h'', hb'.trans hb⟩

theorem apkIstreamPeek_holds (h : is.Ready R p) (hroom : is.ptr % 8 + len ≤ is.buf.length) :
    ∃ is', apkIstreamPeek ops is len =
        (if len ≤ p.length then .ok (p.take len) else .error (-apkeEof), is') ∧
      is'.Ready R p ∧ is'.buf.length = is.buf.length := by
  rw [apkIstreamPeek, if_neg (not_lt.2 h.nonneg)]
  refine peekLoop_holds hops is h hroom ?_
  split_ifs <;> omega

end

section

variable (hops : Feeds ops R F)
include hops

theorem apkIstreamGetMax_holds (h : is.Ready R p) {max : ℕ} (hmax : 0 < max) (hp : p ≠ []) :
    ∃ k is', apkIstreamGetMax ops is max = (0, p.take k, is') ∧ 0 < k ∧ k ≤ max ∧ k ≤ p.length ∧
      is'.Ready R (p.drop k) ∧ is'.buf.length = is.buf.length := by
  -- the buffer is filled first if it is empty
  obtain ⟨is1, his1, h1, hb1, hne⟩ : ∃ is1,
      (if is.ptr = is.fin then (apkIstreamFill ops is).2 else is) = is1 ∧ is1.Ready R p ∧
        is1.buf.length = is.buf.length ∧ is1.ptr ≠ is1.fin := by
    by_cases hbuf : is.ptr = is.fin
    · have hsrc := (h.source_eq hbuf).2 hp
      have hpos := length_pos_of_ne_nil hp
      have herr := h.nonneg
      obtain ⟨r, is', hfill, h', hb, -, hcases⟩ := apkIstreamFill_feeds hops h.toHolds
      rcases hcases with ⟨-, ⟨he, -⟩ | ⟨-, hlow, hfull, -⟩⟩ | ⟨-, ⟨hend, -⟩ | ⟨-, hmore, hlt⟩⟩
      · omega
      · omega
      · omega
      · exact ⟨is', by rw [if_pos hbuf, hfill], ⟨h', hmore.ge⟩, hb, by omega⟩
    · exact ⟨is, if_neg hbuf, h, rfl, hbuf⟩
  have hptr := h1.ptr_le
  have hlen : (is1.buffered.take max).length = min max (is1.fin - is1.ptr) := by
    rw [length_take, buffered_length h1.fin_le]
  have hle := h1.length_le
  refine ⟨(is1.buffered.take max).length, _, ?_, by omega, by omega, by omega,
    ⟨h1.advance (by omega), h1.nonneg⟩, hb1⟩
  unfold apkIstreamGetMax
  simp only
  rw [his1, if_pos hne, ← h1.buffered_take (by omega), length_take, ← take_eq_take_min]

theorem skipLoop_holds : ∀ (left : ℕ) (done : ℤ) (is : Istream σ)
    (p : Bytes), is.Ready R p → left ≤ n → left ≤ p.length →
    ∃ is', skipLoop ops n left done is = (done + left, is') ∧
      is'.Ready R (p.drop left) ∧ is'.buf.length = is.buf.length := by
  induction n with
  | zero =>
    intro left done is p h hleft _
    obtain rfl : left = 0 := by omega
    exact ⟨is, by simp [skipLoop], h, rfl⟩
  | succ n ih =>
    intro left done is p h hleft hp
    unfold skipLoop
    by_cases h0 : left = 0
    · subst h0
      exact ⟨is, by simp, h, rfl⟩
    rw [if_neg h0]
    obtain ⟨k, is1, hget, hk, hkl, hkp, h1, hb1⟩ := apkIstreamGetMax_holds hops h
      (show 0 < left by omega) (ne_nil_of_length_pos (by omega))
    have hlen : (p.take k).length = k := length_take_of_le hkp
    simp only [hget, lt_irrefl, reduceIte, hlen]
    obtain ⟨is', hrun, h', hb'⟩ := ih (left - k) (done + k) is1 (p.drop k) h1
      (by omega) (by rw [length_drop]; omega)
    rw [drop_drop, Nat.add_sub_cancel' hkl] at h'
    refine ⟨is', ?_, h', hb'.trans hb1⟩
    rw [hrun, add_assoc, ← Nat.cast_add, Nat.add_sub_cancel' hkl]

theorem apkIstreamSkip_holds (h : is.Ready R p) (hn : n ≤ p.length) :
    ∃ is', apkIstreamSkip ops is n = (toInt32 n, is') ∧ is'.Ready R (p.drop n) ∧
      is'.buf.length = is.buf.length := by
  obtain ⟨is', hrun, h'⟩ := skipLoop_holds hops n 0 is p h le_rfl hn
  refine ⟨is', ?_, h'⟩
  rw [apkIstreamSkip, hrun]
  simp

theorem apkIstreamSkip_align (h : is.Ready R p) (hn : n ≤ p.length) :
    (apkIstreamSkip ops is n).2.ptr % 8 = (is.ptr + n) % 8 := by
  obtain ⟨is', hrun, -⟩ := skipLoop_holds hops n 0 is p h le_rfl hn
  exact skipLoop_align ops is n n le_rfl (by rw [hrun])

end

variable (ops) in
/-- a stream that has failed and has nothing left in its buffer -/
theorem apkIstreamGetMax_failed (hbuf : is.ptr = is.fin) (herr : is.err < 0) (max : ℕ) :
    apkIstreamGetMax ops is max = (is.err, [], is) := by
  have hfill : apkIstreamFill ops is = (is.err, is) := if_pos herr.ne
  simp [apkIstreamGetMax, hbuf, hfill, herr]

variable (ops) in
theorem apkIstreamSkip_failed (hbuf : is.ptr = is.fin) (herr : is.err < 0) (hn : n ≠ 0) :
    apkIstreamSkip ops is n = (is.err, is) := by
  obtain ⟨k, rfl⟩ := Nat.exists_eq_succ_of_ne_zero hn
  have hloop : skipLoop ops (k + 1) (k + 1) 0 is = (is.err, is) := by
    rw [skipLoop, if_neg hn, apkIstreamGetMax_failed ops hbuf herr]
    exact if_pos herr
  rw [apkIstreamSkip, hloop]
  simp [herr]

/-- what a user of a stream may do with it: fill the buffer, take bytes from it, read, and fail;
all other operations are made of these -/
inductive IstreamUse (ops : IstreamOps σ) (is : Istream σ) : Istream σ → Prop
  | refl : IstreamUse ops is is
  | fill {is1 : Istream σ} : IstreamUse ops is is1 → IstreamUse ops is (apkIstreamFill ops is1).2
  | take {is1 : Istream σ} (n : ℕ) : IstreamUse ops is is1 → n ≤ is1.fin - is1.ptr →
      IstreamUse ops is { is1 with ptr := is1.ptr + n }
  | readMax {is1 : Istream σ} (n : ℕ) : IstreamUse ops is is1 →
      IstreamUse ops is (apkIstreamReadMax ops is1 n).2.2
  | fail {is1 : Istream σ} (e : ℤ) : IstreamUse ops is is1 → e < 0 →
      IstreamUse ops is (apkIstreamError is1 e).2

/-- the same with the bytes that the user has got -/
inductive IstreamTakes (ops : IstreamOps σ) (is : Istream σ) : Bytes → Istream σ → Prop
  | refl : IstreamTakes ops is [] is
  | fill {d : Bytes} {is1 : Istream σ} : IstreamTakes ops is d is1 →
      IstreamTakes ops is d (apkIstreamFill ops is1).2
  | take {d : Bytes} {is1 : Istream σ} (n : ℕ) : IstreamTakes ops is d is1 → n ≤ is1.fin - is1.ptr →
      IstreamTakes ops is (d ++ is1.buffered.take n) { is1 with ptr := is1.ptr + n }
  | readMax {d : Bytes} {is1 : Istream σ} (n : ℕ) : IstreamTakes ops is d is1 →
      IstreamTakes ops is (d ++ (apkIstreamReadMax ops is1 n).2.1) (apkIstreamReadMax ops is1 n).2.2
  | fail {d : Bytes} {is1 : Istream σ} (e : ℤ) : IstreamTakes ops is d is1 → e < 0 →
      IstreamTakes ops is d (apkIstreamError is1 e).2

theorem IstreamUse.takes (h : IstreamUse ops is is') : ∃ d, IstreamTakes ops is d is' := by
  induction h with
  | refl => exact ⟨_, .refl⟩
  | fill _ ih => exact ⟨_, ih.choose_spec.fill⟩
  | take n _ hn ih => exact ⟨_, ih.choose_spec.take n hn⟩
  | readMax n _ ih => exact ⟨_, ih.choose_spec.readMax n⟩
  | fail e _ he ih => exact ⟨_, ih.choose_spec.fail e he⟩

theorem IstreamTakes.holds (hops : Feeds ops R F) (h : is.Holds R p) (ht : IstreamTakes ops is d is') :
    ∃ p', p = d ++ p' ∧ is'.Holds R p' ∧ is'.buf.length = is.buf.length ∧
      (is.buf.length < 8 → is'.fin = is.fin) ∧
      ((F → is.Roomy) → (0 < is.err → ¬F) → 0 < is'.err → ¬F) := by
  induction ht with
  | refl => exact ⟨p, rfl, h, rfl, fun _ => rfl, fun _ hend => hend⟩
  | fill _ ih =>
    obtain ⟨p', hp, h1, hb1, hfin1, hend1⟩ := ih
    obtain ⟨r, is', hfill, h', hb', hfin', hcases⟩ := apkIstreamFill_feeds hops h1
    rw [hfill]
    refine ⟨p', hp, h', hb'.trans hb1, fun h8 => (hfin' (hb1 ▸ h8)).trans (hfin1 h8), fun hroomy hend hpos => ?_⟩
    rcases hcases with ⟨rfl, -⟩ | ⟨-, ⟨-, -, ⟨-, -, hF⟩ | ⟨hneg, rfl, -⟩⟩ | ⟨-, he, -⟩⟩
    · exact hend1 hroomy hend hpos
    · exact hF
    · exact absurd hpos (not_lt.2 hneg.le)
    · exact absurd he hpos.ne'
  | take n _ hn ih =>
    obtain ⟨p', rfl, h1, hb1, hfin1, hend1⟩ := ih
    refine ⟨p'.drop n, ?_, h1.advance hn, hb1, hfin1, hend1⟩
    rw [h1.buffered_take hn, append_assoc, take_append_drop]
  | @readMax d is1 n _ ih =>
    obtain ⟨p', rfl, h1, hb1, hfin1, hend1⟩ := ih
    by_cases herr : 0 ≤ is1.err
    · obtain ⟨r, is', hread, h', hb', hfin', hr⟩ := apkIstreamReadMax_feeds hops ⟨h1, herr⟩ n
      rw [hread]
      refine ⟨p'.drop n, by rw [append_assoc, take_append_drop], h', hb'.trans hb1,
        fun h8 => (hfin' (hb1 ▸ h8)).trans (hfin1 h8), fun hroomy hend hpos hF => ?_⟩
      rcases hr with ⟨hneg, rfl, -⟩ | ⟨-, hshort, he | ⟨-, hlt, he⟩⟩
      · exact absurd hpos (not_lt.2 hneg.le)
      · exact hend1 hroomy hend (he ▸ hpos) hF
      · exact hshort hlt he ((hroomy hF).keep hb1 hfin1) hF
    · rw [apkIstreamReadMax, if_pos (not_le.1 herr)]
      exact ⟨p', by simp, h1, hb1, hfin1, hend1⟩
  | @fail d is1 e _ he ih =>
    obtain ⟨p', hp, h1, hb1, hfin1, hend1⟩ := ih
    refine ⟨p', hp, h1.error fun hpos => absurd hpos (not_lt.2 he.le), ?_, ?_, ?_⟩
    all_goals
      unfold apkIstreamError
      split_ifs
    · exact hb1
    · exact hb1
    · exact hfin1
    · exact hfin1
    · exact fun _ _ hpos => absurd hpos (not_lt.2 he.le)
    · exact hend1

/-- what a peek shows: the next bytes, which are in the buffer, or an error -/
def Peeked (len : ℕ) : Except ℤ Bytes × Istream σ → Prop
  | (.ok b, is) => len ≤ is.fin - is.ptr ∧ is.buffered.take len = b
  | (.error e, _) => e < 0

variable {d : Bytes} {is1 : Istream σ}

theorem peekLoop_takes (len : ℕ) (ht : IstreamTakes ops is d is1) :
    IstreamTakes ops is d (peekLoop ops len n is1).2 ∧ Peeked len (peekLoop ops len n is1) := by
  induction n generalizing is1 with
  | zero => exact ⟨ht, show -apkeEof < 0 by decide⟩
  | succ n ih =>
    unfold peekLoop
    by_cases hlen : len ≤ is1.fin - is1.ptr
    · rw [if_pos hlen]
      exact ⟨ht, hlen, rfl⟩
    rw [if_neg hlen]
    simp only
    by_cases hr : (apkIstreamFill ops is1).1 = 0
    · rw [if_pos hr]
      exact ih ht.fill
    rw [if_neg hr]
    refine ⟨ht.fill, show (if _ then _ else _ : ℤ) < 0 from ?_⟩
    have : -apkeEof < 0 := by decide
    split_ifs <;> omega

theorem apkIstreamPeek_takes (len : ℕ) (ht : IstreamTakes ops is d is1) :
    IstreamTakes ops is d (apkIstreamPeek ops is1 len).2 ∧ Peeked len (apkIstreamPeek ops is1 len) := by
  unfold apkIstreamPeek
  by_cases herr : is1.err < 0
  · rw [if_pos herr]
    exact ⟨ht, herr⟩
  · rw [if_neg herr]
    exact peekLoop_takes len ht

theorem IstreamUse.holds (hops : Delivers ops R) (h : is.Holds R p) (hu : IstreamUse ops is is') :
    ∃ k, is'.Holds R (p.drop k) ∧ is'.buf.length = is.buf.length := by
  obtain ⟨d, ht⟩ := hu.takes
  obtain ⟨p', rfl, h', hb, -⟩ := ht.holds hops.feeds h
  exact ⟨d.length, by rwa [drop_left], hb⟩

/-- What the steps of a stream keep, and the results they give: bytes of the buffer are taken, or moved to its
start, and a read fails, ends, or brings bytes, into the buffer or past it. -/
structure IstreamOps.Keeps (ops : IstreamOps σ) (E : ℤ → Prop) (P : Istream σ → Prop) : Prop where
  nonneg : ∀ r, 0 ≤ r → E r
  eof : E (-apkeEof)
  full : E (-apkeBufferSize)
  err : ∀ {is}, P is → E is.err
  mark : ∀ {is} e, P is → E e → P { is with err := e }
  take : ∀ {is} n, P is → n ≤ is.fin - is.ptr → P { is with ptr := is.ptr + n }
  move : ∀ {is}, P is → P { is with
    buf := is.store (is.ptr % apkIstreamAlignSync) is.buffered
    ptr := is.ptr % apkIstreamAlignSync
    fin := is.ptr % apkIstreamAlignSync + is.buffered.length }
  fails : ∀ {is n e s}, P is → ops.read is.src n = (.error e, s) → E e ∧ P { is with src := s }
  ends : ∀ {is n s}, P is → ops.read is.src n = (.ok [], s) → P { is with src := s }
  direct : ∀ {is n b s} o, P is → ops.read is.src n = (.ok b, s) → b ≠ [] →
    P { is with src := s, ptr := o, fin := o }
  store : ∀ {is n b s}, P is → ops.read is.src n = (.ok b, s) → b ≠ [] →
    P { is with src := s, buf := is.store is.fin b, fin := is.fin + b.length }

section keeps

variable {E : ℤ → Prop} {P : Istream σ → Prop} (hk : ops.Keeps E P)
include hk

theorem apkIstreamError_keeps (h : P is) (he : E e) :
    E (apkIstreamError is e).1 ∧ P (apkIstreamError is e).2 := by
  have h0 := hk.nonneg 0 le_rfl
  unfold apkIstreamError
  simp only
  split_ifs
  · exact ⟨he, hk.mark e h he⟩
  · exact ⟨h0, hk.mark e h he⟩
  · exact ⟨hk.err h, h⟩
  · exact ⟨h0, h⟩

theorem readMaxLoop_keeps (n left : ℕ) (is : Istream σ) (out : Bytes) (h : P is) :
    E (readMaxLoop ops n left is out).1 ∧ P (readMaxLoop ops n left is out).2.2 := by
  have h0 := hk.nonneg 0 le_rfl
  induction n generalizing left is out with
  | zero => exact ⟨h0, h⟩
  | succ n ih =>
    unfold readMaxLoop
    split_ifs with h1 h2 h3 h4
    · exact ⟨h0, h⟩
    · refine ih _ _ _ (hk.take _ h ?_)
      rw [buffered, take_take, length_take]
      omega
    · exact ⟨h0, h⟩
    · rcases hr : ops.read is.src left with ⟨e | b, s⟩
      · exact hk.fails h hr
      simp only
      split_ifs with hb
      · exact ⟨h0, hk.ends h (hb ▸ hr)⟩
      · exact ih _ _ _ (hk.direct _ h hr hb)
    -- the buffer is empty, and starts again
    have hempty := hk.move h
    rw [buffered_nil (not_not.1 h2), store, append_nil, length_nil, add_zero,
      take_append_drop] at hempty
    simp only
    rcases hr : ops.read is.src (is.buf.length - is.ptr % apkIstreamAlignSync) with ⟨e | b, s⟩
    · exact hk.fails hempty hr
    simp only
    split_ifs with hb
    · exact ⟨h0, hk.ends hempty (hb ▸ hr)⟩
    refine ih _ _ _ (hk.take _ (hk.store hempty hr hb) ?_)
    rw [length_take]
    simp only
    omega

theorem apkIstreamReadMax_keeps (h : P is) (size : ℕ) :
    E (apkIstreamReadMax ops is size).1 ∧ P (apkIstreamReadMax ops is size).2.2 := by
  obtain ⟨h1, h2⟩ := readMaxLoop_keeps hk size size is [] h
  unfold apkIstreamReadMax
  split_ifs with hneg
  · exact ⟨hk.err h, h⟩
  simp only
  split_ifs
  · exact apkIstreamError_keeps hk h2 h1
  · exact apkIstreamError_keeps hk h2 (hk.nonneg 1 (by decide))
  · exact apkIstreamError_keeps hk h2 (hk.nonneg 0 le_rfl)
  · exact ⟨hk.nonneg _ (Nat.cast_nonneg _), h2⟩

theorem apkIstreamFill_keeps (h : P is) : E (apkIstreamFill ops is).1 ∧ P (apkIstreamFill ops is).2 := by
  unfold apkIstreamFill
  by_cases h1 : is.err ≠ 0
  · rw [if_pos h1]
    exact ⟨hk.err h, h⟩
  rw [if_neg h1]
  by_cases h2 : is.ptr < apkIstreamAlignSync ∧ is.fin = is.buf.length
  · rw [if_pos h2]
    exact ⟨hk.full, h⟩
  rw [if_neg h2]
  simp only
  generalize hm : (if is.ptr < apkIstreamAlignSync then is else _) = m
  have hmk : P m := by
    rw [← hm]
    split_ifs
    · exact h
    · exact hk.move h
  rcases hr : ops.read m.src (m.buf.length - m.fin) with ⟨e | b, s⟩
  · obtain ⟨he, hs⟩ := hk.fails hmk hr
    exact apkIstreamError_keeps hk hs he
  simp only
  split_ifs with hb
  · exact apkIstreamError_keeps hk (hk.ends hmk (hb ▸ hr)) (hk.nonneg 1 (by decide))
  · exact ⟨hk.nonneg 0 le_rfl, hk.store hmk hr hb⟩

theorem apkIstreamRead_keeps (h : P is) (size : ℕ) :
    E (apkIstreamRead ops is size).1 ∧ P (apkIstreamRead ops is size).2.2 := by
  obtain ⟨-, h'⟩ := apkIstreamReadMax_keeps hk h size
  unfold apkIstreamRead
  simp only
  split_ifs
  · exact ⟨hk.nonneg 0 le_rfl, h'⟩
  · exact apkIstreamError_keeps hk h' hk.eof

theorem peekLoop_keeps (n : ℕ) (is : Istream σ) (h : P is) :
    (∀ e, (peekLoop ops len n is).1 = .error e → E e) ∧ P (peekLoop ops len n is).2 := by
  induction n generalizing is with
  | zero =>
    refine ⟨fun e he => ?_, h⟩
    cases he
    exact hk.eof
  | succ n ih =>
    unfold peekLoop
    split_ifs with h1
    · exact ⟨nofun, h⟩
    obtain ⟨hf, hf'⟩ := apkIstreamFill_keeps hk h
    simp only
    split_ifs with hr
    · exact ih _ hf'
    all_goals
      refine ⟨fun e he => ?_, hf'⟩
      cases he
    · exact hk.eof
    · exact hf

theorem apkIstreamPeek_keeps (h : P is) (len : ℕ) :
    (∀ e, (apkIstreamPeek ops is len).1 = .error e → E e) ∧ P (apkIstreamPeek ops is len).2 := by
  unfold apkIstreamPeek
  split_ifs
  · refine ⟨fun e he => ?_, h⟩
    cases he
    exact hk.err h
  · exact peekLoop_keeps hk _ is h

theorem apkIstreamGetMax_keeps (h : P is) (max : ℕ) :
    E (apkIstreamGetMax ops is max).1 ∧ (apkIstreamGetMax ops is max).2.1.length ≤ max ∧
      P (apkIstreamGetMax ops is max).2.2 := by
  unfold apkIstreamGetMax
  simp only
  generalize hm : (if is.ptr = is.fin then (apkIstreamFill ops is).2 else is) = m
  have hmk : P m := by
    rw [← hm]
    split_ifs
    · exact (apkIstreamFill_keeps hk h).2
    · exact h
  split_ifs
  · refine ⟨hk.nonneg 0 le_rfl, length_take_le _ _, hk.take _ hmk ?_⟩
    rw [buffered, take_take, length_take]
    omega
  · exact ⟨hk.err hmk, Nat.zero_le _, hmk⟩
  · exact ⟨hk.eof, Nat.zero_le _, hmk⟩

theorem skipLoop_keeps (n left done : ℕ) (is : Istream σ) (h : P is) :
    E (skipLoop ops n left done is).1 ∧ (skipLoop ops n left done is).1 ≤ done + left ∧
      P (skipLoop ops n left done is).2 := by
  have hdone := hk.nonneg done (Nat.cast_nonneg _)
  induction n generalizing left done is with
  | zero => exact ⟨hdone, by simp [skipLoop], h⟩
  | succ n ih =>
    unfold skipLoop
    split_ifs with h1
    · exact ⟨hdone, by simp, h⟩
    obtain ⟨hg, hle, hg'⟩ := apkIstreamGetMax_keeps hk h left
    generalize apkIstreamGetMax ops is left = p at hg hle hg' ⊢
    obtain ⟨r, b, is'⟩ := p
    simp only at hle ⊢
    split_ifs with hneg
    · exact ⟨hg, show r ≤ _ by omega, hg'⟩
    · have := ih (left - b.length) (done + b.length) is' hg' (hk.nonneg _ (Nat.cast_nonneg _))
      push_cast [Nat.cast_sub hle] at this
      exact ⟨this.1, by linarith [this.2.1], this.2.2⟩

theorem apkIstreamSkip_keeps (h : P is) (size : ℕ) :
    (size < 2 ^ 31 → E (apkIstreamSkip ops is size).1) ∧ P (apkIstreamSkip ops is size).2 := by
  obtain ⟨hr, hle, h'⟩ := skipLoop_keeps hk size size 0 is h
  refine ⟨fun hsize => ?_, h'⟩
  simp only [apkIstreamSkip, toInt32]
  split_ifs
  · exact hr
  · push_cast at hle
    exact hk.nonneg _ (by omega)

theorem apkIstreamGet_keeps (h : P is) (len : ℕ) :
    (∀ e, (apkIstreamGet ops is len).1 = .error e → E e) ∧ P (apkIstreamGet ops is len).2 := by
  have hpeek := (apkIstreamPeek_takes len (.refl : IstreamTakes ops is [] is)).2
  obtain ⟨he, h'⟩ := apkIstreamPeek_keeps hk h len
  unfold apkIstreamGet
  generalize apkIstreamPeek ops is len = r at hpeek he h' ⊢
  rcases r with ⟨e | b, is1⟩
  · exact ⟨fun _ h => he _ h, (apkIstreamError_keeps hk h' (he e rfl)).2⟩
  · exact ⟨nofun, hk.take len h' hpeek.1⟩

end keeps

theorem IstreamUse.keeps {P : Istream σ → Prop} (hk : ops.Keeps (fun _ => True) P) (h : P is)
    (hu : IstreamUse ops is is') : P is' := by
  induction hu with
  | refl => exact h
  | fill _ ih => exact (apkIstreamFill_keeps hk ih).2
  | take n _ hn ih => exact hk.take n ih hn
  | readMax n _ ih => exact (apkIstreamReadMax_keeps hk ih n).2
  | fail e _ _ ih => exact (apkIstreamError_keeps hk ih trivial).2

/-- what stays as it is behind the buffered bytes while a stream without a source is used -/
structure Istream.Dry (is is' : Istream σ) : Prop where
  src : is'.src = is.src
  ptr_le : is'.ptr ≤ is'.fin
  fin_le : is'.fin ≤ is.fin
  buf_length : is'.buf.length = is.buf.length
  buf_drop : is'.buf.drop is.fin = is.buf.drop is.fin

theorem keeps_dry (hdry : ∀ m, ops.read is.src m = (.ok [], is.src)) (hfin : is.fin ≤ is.buf.length) :
    ops.Keeps (fun _ => True) (Istream.Dry is) where
  nonneg _ _ := trivial
  eof := trivial
  full := trivial
  err _ := trivial
  mark _ h _ := ⟨h.src, h.ptr_le, h.fin_le, h.buf_length, h.buf_drop⟩
  take {is'} n h hn := ⟨h.src, show is'.ptr + n ≤ is'.fin by have := h.ptr_le; omega, h.fin_le, h.buf_length,
    h.buf_drop⟩
  move {is'} h := by
    have hlen := buffered_length (h.fin_le.trans (h.buf_length ▸ hfin))
    have hmod : is'.ptr % apkIstreamAlignSync ≤ is'.ptr := Nat.mod_le _ _
    have hptr := h.ptr_le
    have hle := h.fin_le
    have hbuf := h.buf_length
    generalize is'.ptr % apkIstreamAlignSync = o at hmod ⊢
    refine ⟨h.src, Nat.le_add_right _ _, show o + is'.buffered.length ≤ is.fin by omega,
      (store_length (by omega)).trans hbuf, ?_⟩
    exact (store_drop (by omega) (by omega)).trans h.buf_drop
  fails h hr := by
    rw [h.src, hdry] at hr
    cases hr
  ends h hr := by
    rw [h.src, hdry] at hr
    cases hr
    exact ⟨rfl, h.ptr_le, h.fin_le, h.buf_length, h.buf_drop⟩
  direct _ h hr hb := by
    rw [h.src, hdry] at hr
    cases hr
    exact absurd rfl hb
  store h hr hb := by
    rw [h.src, hdry] at hr
    cases hr
    exact absurd rfl hb

/-- the source of a segment that took over the buffer of `is`, whose stream goes on with `after` -/
structure SegmentSource (R : σ → Bytes → Prop) (is : Istream σ) (after : Bytes) (seg : Segment σ)
    (q : Bytes) : Prop where
  borrowed : seg.borrowed = true
  pis : ∃ s, seg.pis = { is with src := s } ∧ R s (q ++ after)
  bytesLeft : seg.bytesLeft = q.length
  align : seg.align % apkIstreamAlignSync ≤ is.buf.length
  open_ : q ++ after ≠ [] → is.err ≤ 0 ∧ 8 ≤ is.buf.length

theorem segmentSource_delivers (hops : Feeds ops R F) (is : Istream σ) (after : Bytes) :
    Delivers (segmentOps ops) (SegmentSource R is after) := by
  intro seg q n h
  change ∃ c s' b', segmentRead ops seg n = _ ∧ _
  unfold segmentRead
  by_cases h0 : min n seg.bytesLeft = 0
  · rw [if_pos h0]
    refine ⟨[], seg, q, rfl, rfl, h, fun _ => ?_⟩
    rw [← length_eq_zero_iff, ← h.bytesLeft]
    omega
  rw [if_neg h0]
  obtain ⟨s, hpis, hR⟩ := h.pis
  have hq := h.bytesLeft
  have hne : q ++ after ≠ [] := ne_nil_of_length_pos (by rw [length_append]; omega)
  obtain ⟨hnil, -⟩ | ⟨c, s', rest, hread, heq, hR', hc, hle⟩ :=
    hops.piece hR (n := min n seg.bytesLeft) (fun _ => by omega)
  · exact absurd hnil hne
  have hcq : q = c ++ q.drop c.length := by
    have := congrArg (take c.length) heq
    rw [take_append_of_le_length (by omega), take_left] at this
    rw [← this, length_take_of_le (by omega), take_append_drop]
  have hrest : rest = q.drop c.length ++ after := by
    have := congrArg (drop c.length) heq
    rw [drop_append_of_le_length (by omega), drop_left] at this
    exact this.symm
  have hsrc : seg.pis.src = s := by rw [hpis]
  rw [hsrc]
  simp only [hread, if_neg hc]
  refine ⟨c, _, q.drop c.length, rfl, hcq, ⟨h.borrowed, ⟨s', ?_, hrest ▸ hR'⟩, ?_, ?_, ?_⟩,
    fun hn => absurd hn hc⟩
  · simp [hpis]
  · change seg.bytesLeft - c.length = _
    rw [length_drop, hq]
  · have : (seg.align + c.length) % apkIstreamAlignSync < 8 := Nat.mod_lt _ (by decide)
    have := (h.open_ hne).2
    change (seg.align + c.length) % apkIstreamAlignSync ≤ _
    omega
  · exact fun _ => h.open_ hne

/-- what a segment of a stream is: it delivers `pay`, and closing it leaves the stream at `after`, whatever was
done with the segment, unless the stream had failed: it then stays at an error -/
def SegmentOf (ops : IstreamOps σ) (R : σ → Bytes → Prop) (is : Istream σ) (pay after : Bytes) : Prop :=
  ∃ R', Delivers (segmentOps ops) R' ∧ (apkIstreamSegment is pay.length).Ready R' pay ∧
    ∀ seg, IstreamUse (segmentOps ops) (apkIstreamSegment is pay.length) seg →
      ∃ is', segmentClose ops seg = (if seg.err < 0 then seg.err else 0, is') ∧ (0 ≤ is.err → is'.Ready R after) ∧
        (is.err < 0 → is'.err = is.err ∧ (is'.Holds R after ∨ is'.ptr = is'.fin)) ∧ is'.buf.length = is.buf.length

/-- a segment that is a part of the buffer; its source has nothing -/
theorem segment_inside (h : is.Holds R (pay ++ after)) (hin : pay.length < is.fin - is.ptr) :
    SegmentOf ops R is pay after := by
  have hseg : apkIstreamSegment is pay.length =
      { buf := is.buf, ptr := is.ptr, fin := is.ptr + pay.length, err := 0, singleRead := false,
        src := ⟨{ is with ptr := is.ptr + pay.length }, false, 0, 0⟩ } := by
    rw [apkIstreamSegment, if_pos hin]
  have hend : is.ptr + pay.length ≤ is.buf.length := by
    have := h.fin_le
    omega
  have hdry : ∀ (seg : Segment σ) (m : ℕ), seg.bytesLeft = 0 →
      (segmentOps ops).read seg m = (.ok [], seg) := by
    intro seg m h0
    change segmentRead ops seg m = _
    simp [segmentRead, h0]
  refine ⟨fun seg q => seg.bytesLeft = 0 ∧ q = [], ?_, ?_, ?_⟩
  · rintro seg q n ⟨h0, rfl⟩
    exact ⟨[], seg, [], hdry seg n h0, rfl, ⟨h0, rfl⟩, fun _ => Or.inr rfl⟩
  · rw [hseg]
    refine ⟨⟨Nat.le_add_right _ _, hend, [], ⟨rfl, rfl⟩, ?_, fun hne => absurd rfl hne⟩, le_rfl⟩
    have htake := h.buffered_take (n := pay.length) hin.le
    rw [take_left, buffered, take_take, Nat.min_eq_left hin.le] at htake
    rw [append_nil, buffered]
    rw [Nat.add_sub_cancel_left, htake]
  intro seg hu
  rw [hseg] at hu
  have hkept := hu.keeps (keeps_dry (fun m => hdry _ m rfl) hend) ⟨rfl, Nat.le_add_right _ _, le_rfl, rfl, rfl⟩
  -- the stream has its bytes where they were, in the buffer that comes back
  have hadv := h.advance (n := pay.length) hin.le
  rw [drop_left] at hadv
  obtain ⟨rest, hR, hafter, hrest⟩ := hadv.source
  have hlen : seg.buf.length = is.buf.length := hkept.buf_length
  have hclose : segmentClose ops seg = (if seg.err < 0 then seg.err else 0,
      { is with ptr := is.ptr + pay.length, buf := seg.buf }) := by
    rw [segmentClose, hkept.src]
    simp
  have hback : ({ is with ptr := is.ptr + pay.length, buf := seg.buf } : Istream σ).Holds R after := by
    refine ⟨hadv.ptr_le, hlen ▸ hadv.fin_le, rest, hR, ?_, ?_⟩
    · rw [hafter]
      congr 1
      exact congrArg (take (is.fin - (is.ptr + pay.length))) hkept.buf_drop.symm
    · rw [hlen]
      exact hrest
  exact ⟨_, hclose, fun herr => ⟨hback, herr⟩, fun _ => ⟨rfl, Or.inl hback⟩, hlen⟩

/-- a segment that takes over the buffer -/
theorem segment_borrowed (hops : Feeds ops R F) (h : is.Holds R (pay ++ after))
    (hin : is.fin - is.ptr ≤ pay.length) : SegmentOf ops R is pay after := by
  have hfin := h.fin_le
  have hseg : apkIstreamSegment is pay.length =
      { buf := is.buf, ptr := is.ptr, fin := is.fin, err := 0, singleRead := false,
        src := ⟨is, true, pay.length - (is.fin - is.ptr), is.fin⟩ } := by
    rw [apkIstreamSegment, if_neg (not_lt.2 hin)]
  obtain ⟨rest, hR, hp, hrest⟩ := h.source
  have hlen := buffered_length hfin
  -- the buffer has the first bytes of the segment, the source the others
  obtain ⟨q, hpay, rfl⟩ : ∃ q, pay = is.buffered ++ q ∧ rest = q ++ after := by
    have hle : is.buffered.length ≤ pay.length := by omega
    have hpre : is.buffered <+: pay ++ after := hp ▸ prefix_append _ _
    obtain ⟨q, rfl⟩ := prefix_of_prefix_length_le hpre (prefix_append _ _) hle
    rw [append_assoc, append_cancel_left_eq] at hp
    exact ⟨q, rfl, hp.symm⟩
  have hq : pay.length - (is.fin - is.ptr) = q.length := by
    rw [hpay, length_append]
    omega
  have hsrc : SegmentSource R is after ⟨is, true, pay.length - (is.fin - is.ptr), is.fin⟩ q :=
    ⟨rfl, ⟨is.src, rfl, hR⟩, hq, (Nat.mod_le _ _).trans hfin, hrest⟩
  have hdel := segmentSource_delivers hops is after
  have hready : (apkIstreamSegment is pay.length).Ready (SegmentSource R is after) pay := by
    rw [hseg]
    exact ⟨⟨h.ptr_le, hfin, q, hsrc, hpay, fun hne => ⟨le_rfl, (hrest (by simp [hne])).2⟩⟩, le_rfl⟩
  refine ⟨SegmentSource R is after, hdel, hready, fun seg hu => ?_⟩
  obtain ⟨k, hseg', hb⟩ := hu.holds hdel hready.toHolds
  obtain ⟨q', hq', -, -⟩ := hseg'.source
  obtain ⟨s, hpis, hR'⟩ := hq'.pis
  have hbuf : seg.buf.length = is.buf.length := by rw [hb, hseg]
  -- the buffer comes back empty, and the source is where the segment left it
  have hback : ({ seg.src.pis with
      buf := seg.buf
      ptr := seg.src.align % apkIstreamAlignSync
      fin := seg.src.align % apkIstreamAlignSync } : Istream σ).Holds R (q' ++ after) := by
    rw [hpis]
    refine holds_empty rfl (hbuf ▸ hq'.align) hR' fun hne => ?_
    rw [hbuf]
    exact hq'.open_ hne
  have herr : seg.src.pis.err = is.err := by rw [hpis]
  rw [segmentClose]
  simp only [hq'.borrowed, reduceIte]
  by_cases h0 : seg.src.bytesLeft = 0
  · have hnil : q' = [] := length_eq_zero_iff.1 (hq'.bytesLeft ▸ h0)
    rw [if_neg (not_not.2 h0)]
    rw [hnil] at hback
    exact ⟨_, rfl, fun hnonneg => ⟨hback, herr.ge.trans' hnonneg⟩, fun _ => ⟨herr, Or.inl hback⟩, hbuf⟩
  rw [if_pos h0]
  by_cases hneg : is.err < 0
  · rw [apkIstreamSkip_failed ops rfl (by exact herr.trans_lt hneg) h0]
    exact ⟨_, rfl, fun hnonneg => absurd hneg (not_lt.2 hnonneg), fun _ => ⟨herr, Or.inr rfl⟩, hbuf⟩
  obtain ⟨is', hskip, h', hb''⟩ := apkIstreamSkip_holds hops ⟨hback, herr.ge.trans' (not_lt.1 hneg)⟩
    (n := seg.src.bytesLeft) (by rw [hq'.bytesLeft, length_append]; omega)
  rw [hskip]
  rw [hq'.bytesLeft, drop_left] at h'
  exact ⟨is', rfl, fun _ => h', fun hlt => absurd hlt hneg, hb''.trans hbuf⟩

theorem apkIstreamSegment_holds (hops : Feeds ops R F) (h : is.Holds R (pay ++ after)) :
    SegmentOf ops R is pay after := by
  rcases Nat.lt_or_ge pay.length (is.fin - is.ptr) with hin | hin
  · exact segment_inside h hin
  · exact segment_borrowed hops h hin

/-- a segment that was in the buffer has nothing behind it, and leaves the stream in its place -/
theorem segmentClose_align {n : ℕ} {seg : Istream (Segment σ)} (hptr : is.ptr ≤ is.fin)
    (hfin : is.fin ≤ is.buf.length) (hn : n ≤ is.fin - is.ptr)
    (hu : IstreamUse (segmentOps ops) (apkIstreamSegment is n) seg) :
    (segmentClose ops seg).2.ptr % 8 = (is.ptr + n) % 8 := by
  have hdry : (apkIstreamSegment is n).src.bytesLeft = 0 ∧
      (apkIstreamSegment is n).fin ≤ (apkIstreamSegment is n).buf.length := by
    unfold apkIstreamSegment
    split_ifs
    · exact ⟨rfl, show is.ptr + n ≤ is.buf.length by omega⟩
    · exact ⟨show n - (is.fin - is.ptr) = 0 by omega, hfin⟩
  have hread : ∀ m, (segmentOps ops).read (apkIstreamSegment is n).src m =
      (.ok [], (apkIstreamSegment is n).src) := by
    intro m
    change segmentRead ops _ m = _
    simp [segmentRead, hdry.1]
  have hkept := hu.keeps (keeps_dry hread hdry.2) ⟨rfl, ?_, le_rfl, rfl, rfl⟩
  · rw [segmentClose, hkept.src]
    simp only [hdry.1, ne_eq, not_true_eq_false, if_false]
    unfold apkIstreamSegment
    by_cases hin : n < is.fin - is.ptr
    · simp [if_pos hin]
    · obtain rfl : n = is.fin - is.ptr := by omega
      simp [apkIstreamAlignSync, Nat.add_sub_cancel' hptr]
  · unfold apkIstreamSegment
    split_ifs
    · exact Nat.le_add_right _ _
    · exact hptr

theorem apkIstreamCloseError_eq (hclose : ∀ s e, ops.close s e = if e < 0 then e else 0)
    (herr : 0 ≤ is.err) {r : ℤ} (hr : r ≤ 0) : apkIstreamCloseError ops is r = r := by
  unfold apkIstreamCloseError apkIstreamClose
  rcases hr.lt_or_eq with hneg | rfl
  · rw [if_pos hneg, apkIstreamError_of_nonneg herr hneg.ne, hclose, if_pos hneg]
  · rw [if_neg (lt_irrefl 0), hclose, if_neg (not_lt.2 herr)]

end holds

end

theorem blobOps_delivers : Delivers blobOps fun _ q => q = [] := by
  rintro s q n rfl
  exact ⟨[], (), [], rfl, rfl, rfl, fun _ => Or.inr rfl⟩

theorem apkIstreamFromBlob_holds {b : Bytes} : (apkIstreamFromBlob b).Holds (fun _ q => q = []) b := by
  refine ⟨Nat.zero_le _, le_rfl, [], rfl, ?_, fun hne => absurd rfl hne⟩
  rw [append_nil]
  change b = (b.take b.length).drop 0
  rw [drop_zero, take_length]

/-- a source in memory that gives out at most `k` bytes at a time -/
def pieceOps (k : ℕ) : IstreamOps Bytes where
  read s n := (.ok (s.take (min n k)), s.drop (min n k))
  close _ err := if err < 0 then err else 0
  read_le := by
    rintro s n b s' h
    cases h
    exact (length_take_le _ _).trans (Nat.min_le_left _ _)
  read_neg := by
    rintro s n e s' h
    cases h
  close_neg := by
    intro s e he
    rw [if_pos he]
    exact he

theorem pieceOps_delivers {k : ℕ} (hk : 0 < k) : Delivers (pieceOps k) (· = ·) := by
  rintro s b n rfl
  refine ⟨_, _, _, rfl, (take_append_drop _ _).symm, rfl, fun h => ?_⟩
  rcases take_eq_nil_iff.1 h with h | h
  · exact Or.inl (by omega)
  · exact Or.inr h

def pieceStream (room : ℕ) (b : Bytes) : Istream Bytes := ⟨List.replicate room 0, 0, 0, 0, false, b⟩

theorem pieceStream_holds {room : ℕ} (h8 : 8 ≤ room) (b : Bytes) : (pieceStream room b).Holds (· = ·) b :=
  holds_empty rfl (Nat.zero_le _) rfl fun _ => ⟨le_rfl, by
    rw [pieceStream, length_replicate]
    exact h8⟩

end Alpine

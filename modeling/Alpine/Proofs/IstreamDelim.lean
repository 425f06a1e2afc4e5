import Alpine.Sanity.Blob
import Alpine.Sanity.Istream

/-! Pieces of a stream up to a token: the content split at it. A blob ends with its last byte, and has no
empty piece at its end. -/

namespace Alpine

open List

section split

variable {a : UInt8} {sep l r : Bytes}

theorem splitAtBlob_eq_none (hsep : sep ≠ []) : splitAtBlob sep l = none ↔ ¬ sep <:+: l := by
  induction l with
  | nil => simp [splitAtBlob, hsep]
  | cons c l ih =>
    rw [splitAtBlob, infix_cons_iff]
    by_cases h : sep <+: c :: l
    · simp [h]
    · simp [h, ih]

theorem splitAtBlob_append (ha : a ∉ l) :
    splitAtBlob (a :: sep) (l ++ (a :: sep ++ r)) = some (l, r) := by
  induction l with
  | nil => simp [splitAtBlob]
  | cons c l ih =>
    simp only [mem_cons, not_or] at ha
    rw [cons_append, splitAtBlob, if_neg (by simp [ha.1]), ih ha.2]
    rfl

end split

section

variable {σ : Type}

variable {ops : IstreamOps σ} {R : σ → Bytes → Prop} {is : Istream σ} {p : Bytes} {n : ℕ} {t : UInt8}

/-- the blobs that `n` calls of `apk_istream_get_delim` return, up to the first call that fails -/
def getDelims (ops : IstreamOps σ) (t : UInt8) : ℕ → Istream σ → List Bytes
  | 0, _ => []
  | n + 1, is =>
    match apkIstreamGetDelim ops is [t] with
    | (r, data, is) => if r < 0 then [] else data :: getDelims ops t n is

/-- without an empty piece at the end -/
def dropEmptyLast (pieces : List Bytes) : List Bytes :=
  if pieces.getLast? = some [] then pieces.dropLast else pieces

/-- what a call leaves of a stream that held `p`: the bytes behind the token, or the end -/
def DelimTaken (R : σ → Bytes → Prop) (t : UInt8) (p : Bytes) (is : Istream σ) (call : ℤ × Bytes × Istream σ) :
    Prop :=
  ∃ data is', call = (0, data, is') ∧ is'.buf.length = is.buf.length ∧ t ∉ data ∧
    ((∃ p', p = data ++ t :: p' ∧ is'.Ready R p' ∧ is'.err = is.err) ∨
      p = data ∧ is'.ptr = is'.fin ∧ 0 < is'.err)

theorem delimLoop_holds (hops : Delivers ops R) : ∀ is : Istream σ, is.Ready R p →
    (is.err = 0 → ∀ q ∈ p.splitOn t, q.length + 8 ≤ is.buf.length) →
    is.buf.length - (is.fin - is.ptr) + (if is.err = 0 then 1 else 0) < n →
    DelimTaken R t p is (delimLoop ops [t] n is) := by
  induction n with
  | zero => intro is _ _ hn; exact absurd hn (Nat.not_lt_zero _)
  | succ n ih =>
    intro is h hfit hn
    have hlen := Istream.buffered_length h.fin_le
    obtain ⟨rest, hR, hp, hrest⟩ := h.source
    unfold delimLoop
    by_cases ht : t ∈ is.buffered
    · obtain ⟨q, left, hq, htq⟩ := eq_append_cons_of_mem ht
      rw [hq, show q ++ t :: left = q ++ ([t] ++ left) from rfl, splitAtBlob_append htq]
      rw [hq, length_append, length_cons] at hlen
      have hadv := h.advance (n := q.length + 1) (by omega)
      rw [show is.ptr + (q.length + 1) = is.fin - left.length by omega] at hadv
      refine ⟨q, _, rfl, rfl, htq, Or.inl ⟨left ++ rest, by rw [hp, hq, append_assoc]; rfl, ⟨?_, h.nonneg⟩, rfl⟩⟩
      rwa [hp, hq, append_assoc, ← drop_drop, drop_left] at hadv
    have hnone : splitAtBlob [t] is.buffered = none := by
      rw [splitAtBlob_eq_none (by simp), singleton_infix_iff]
      exact ht
    have hroom : is.err = 0 → is.fin - is.ptr + 8 ≤ is.buf.length := by
      intro he
      obtain ⟨q, qs, hqs⟩ := exists_cons_of_ne_nil (splitOnP_ne_nil (· == t) rest)
      have hhead := hfit he (is.buffered ++ q) (by rw [hp, splitOn_append ht, splitOn, hqs]; simp)
      rw [length_append] at hhead
      omega
    simp only [hnone]
    rcases apkIstreamFill_holds hops h (fun he _ => by have := hroom he; omega) with ⟨hpos, hall, hfill⟩ | ⟨he, is', hfill, h', hb, hcases⟩
    · simp only [hfill]
      rw [if_neg hpos.ne', if_neg (not_lt.2 hpos.le)]
      exact ⟨_, _, rfl, rfl, ht, Or.inr ⟨hall, rfl, hpos⟩⟩
    simp only [hfill]
    obtain ⟨data, is'', hrun, hb', htd, hleft⟩ := ih is' h' (fun _ => by rw [hb]; exact hfit he) (by
      rcases hcases with ⟨hmark, -, hsame⟩ | ⟨hmore, hlt⟩
      · simp only [hmark, one_ne_zero, reduceIte, he] at hn ⊢
        omega
      · have := h'.fin_le
        simp only [hmore, reduceIte, he] at hn ⊢
        omega)
    refine ⟨data, is'', hrun, hb'.trans hb, htd, ?_⟩
    rcases hleft with ⟨p', rfl, h'', he''⟩ | hend
    · refine Or.inl ⟨p', rfl, h'', ?_⟩
      -- there is no token when the end is found
      rcases hcases with ⟨-, hall, -⟩ | ⟨hmore, -⟩
      · exact absurd (hall ▸ mem_append_right _ mem_cons_self) ht
      · rw [he'', hmore, he]
    · exact Or.inr hend

theorem getDelims_end (hptr : is.ptr = is.fin) (hpos : 0 < is.err) : getDelims ops t n is = [] := by
  cases n with
  | zero => rfl
  | succ n =>
    rw [getDelims, apkIstreamGetDelim, if_pos ⟨hpos.ne', hptr⟩, if_neg (not_lt.2 hpos.le)]
    rfl

theorem getDelims_holds (hops : Delivers ops R) (h : is.Ready R p)
    (hfit : is.err = 0 → ∀ q ∈ p.splitOn t, q.length + 8 ≤ is.buf.length) (hn : (p.splitOn t).length < n) :
    getDelims ops t n is = if is.err = 0 then p.splitOn t else dropEmptyLast (p.splitOn t) := by
  induction n generalizing is p with
  | zero => exact absurd hn (Nat.not_lt_zero _)
  | succ n ih =>
    have herr := h.nonneg
    by_cases hend : is.err ≠ 0 ∧ is.ptr = is.fin
    · have hnil : p = [] := by
        by_contra hp
        have := (h.source_eq hend.2).2 hp
        omega
      rw [getDelims_end hend.2 (by omega), if_neg hend.1, hnil]
      rfl
    obtain ⟨data, is', hrun, hb, htd, hleft⟩ := delimLoop_holds (n := is.buf.length + 3) (t := t) hops is h hfit (by
      split_ifs <;> omega)
    rw [getDelims, apkIstreamGetDelim, if_neg hend, hrun]
    simp only [lt_irrefl, reduceIte]
    rcases hleft with ⟨p', rfl, h', he⟩ | ⟨rfl, hptr, hpos⟩
    · rw [splitOn_cut htd] at hfit hn ⊢
      rw [ih h' (by rw [he, hb]; exact fun h0 q hq => hfit h0 q (mem_cons_of_mem _ hq))
        (Nat.lt_of_succ_lt_succ hn), he]
      split_ifs
      · rfl
      · obtain ⟨q, qs, hqs⟩ := exists_cons_of_ne_nil (splitOnP_ne_nil (· == t) p')
        simp [dropEmptyLast, splitOn, hqs, apply_ite (data :: ·)]
    · rw [getDelims_end hptr hpos, splitOn_whole htd]
      split_ifs with h0
      · rfl
      have hlen := h.length_le
      have hptr := h.ptr_le
      rw [dropEmptyLast, if_neg]
      rintro ⟨⟩
      exact hend ⟨h0, hptr.antisymm (Nat.sub_eq_zero_iff_le.1 (Nat.le_zero.1 hlen))⟩

theorem get_delim_splits_iff (hops : Delivers ops R) (h : is.Ready R p) (h0 : is.err = 0)
    (hfit : ∀ q ∈ p.splitOn t, q.length + 8 ≤ is.buf.length) (hn : (p.splitOn t).length < n) :
    getDelims ops t n is = p.splitOn t ∧
      (getDelims blobOps t n (apkIstreamFromBlob p) = p.splitOn t ↔ (p.splitOn t).getLast? ≠ some []) := by
  have hblob : (apkIstreamFromBlob p).Ready (fun _ q => q = []) p := ⟨apkIstreamFromBlob_holds, zero_le_one⟩
  rw [getDelims_holds hops h (fun _ => hfit) hn, if_pos h0, getDelims_holds blobOps_delivers hblob nofun hn,
    if_neg (show (apkIstreamFromBlob p).err ≠ 0 from one_ne_zero), dropEmptyLast]
  refine ⟨rfl, ?_⟩
  split_ifs with hlast
  · have hpos : 0 < (p.splitOn t).length := length_pos_of_ne_nil (splitOnP_ne_nil _ p)
    refine iff_of_false (fun heq => ?_) (not_not.2 hlast)
    have hlen := congrArg List.length heq
    rw [length_dropLast] at hlen
    omega
  · exact iff_of_true rfl hlast

end

theorem get_delim_splits_three :
    getDelims (pieceOps 1) 10 3 (pieceStream 16 [97, 10, 98]) = [[97], [98]] ∧
      getDelims blobOps 10 3 (apkIstreamFromBlob [97, 10, 98]) = [[97], [98]] := by
  have h : (pieceStream 16 [97, 10, 98]).Holds (· = ·) [97, 10, 98] := pieceStream_holds (by decide) _
  obtain ⟨hread, hblob⟩ := get_delim_splits_iff (t := 10) (n := 3) (pieceOps_delivers one_pos)
    ⟨h, le_rfl⟩ rfl (by decide +kernel) (by decide +kernel)
  exact ⟨hread, hblob.2 (by decide +kernel)⟩

/-- the empty piece behind the last token, which a blob does not give -/
theorem get_delim_trailing : (∀ q ∈ splitOn (10 : UInt8) [97, 10], q.length + 8 ≤ 16) ∧
      getDelims (pieceOps 1) 10 3 (pieceStream 16 [97, 10]) = [[97], []] ∧
      getDelims blobOps 10 3 (apkIstreamFromBlob [97, 10]) = [[97]] := by
  decide +kernel

end Alpine

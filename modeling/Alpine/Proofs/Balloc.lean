import Alpine.Spec.Balloc

/-! What the block allocator hands out is aligned, inside a block and apart from all the rest, as long
as the size of a request is no number that wraps around. -/

namespace Alpine

open List

/-- what `malloc` gives on a 64-bit platform: aligned blocks in the lower half of the addresses, apart
from each other -/
structure Heap (pages : List Block) : Prop where
  block : ∀ b ∈ pages, b.addr % 16 = 0 ∧ b.addr + b.size ≤ 2 ^ 63
  apart : pages.Pairwise fun a b => a.addr + a.size ≤ b.addr ∨ b.addr + b.size ≤ a.addr

theorem Heap.before {pages all : List Block} (h : Heap all) (hpages : pages <:+ all) : Heap pages :=
  ⟨fun b hb => h.block b (hpages.subset hb), h.apart.sublist hpages.sublist⟩

/-- a range is behind the header of a block and ends in that block -/
def Range.In (x : Range) (b : Block) : Prop :=
  b.addr + ballocHeader ≤ x.ptr ∧ x.ptr + x.size ≤ b.addr + b.size

def Range.Apart (x y : Range) : Prop := x.ptr + x.size ≤ y.ptr ∨ y.ptr + y.size ≤ x.ptr

structure Served (ranges : List Range) (pages : List Block) : Prop where
  aligned : ∀ x ∈ ranges, x.ptr % x.align = 0
  inside : ∀ x ∈ ranges, ∃ b ∈ pages, x.In b
  apart : ranges.Pairwise Range.Apart

/-- the ranges of the newest block are in front of the cursor -/
structure Serving (s : List Range × ApkBalloc) (b : Block) (rest : List Block) : Prop
    extends Served s.1 s.2.pages where
  page : s.2.pageSize + ballocHeader < 2 ^ 64
  pages : s.2.pages = b :: rest
  cur : b.addr + ballocHeader ≤ s.2.cur ∧ s.2.cur ≤ b.addr + b.size
  fin : s.2.fin + ballocHeader = b.addr + b.size
  before : ∀ x ∈ s.1, x.ptr + x.size ≤ s.2.cur ∨ ∃ b' ∈ rest, x.In b'

variable {malloc : List Block → ℕ → ℕ} {pageSize size align x : ℕ} {ranges : List Range}
  {b : Block} {rest : List Block} {s : List Range × ApkBalloc} {r : ℕ × ℕ}

theorem roundUpPtr_spec (halign : align ∈ [1, 2, 4, 8]) (hx : x ≤ 2 ^ 63) :
    x ≤ roundUpPtr x align ∧ roundUpPtr x align ≤ 2 ^ 63 ∧ roundUpPtr x align % align = 0 ∧
      (x % 8 = 0 → roundUpPtr x align = x) := by
  have hcases : align = 1 ∨ align = 2 ∨ align = 4 ∨ align = 8 := by simpa using halign
  unfold roundUpPtr
  rcases hcases with rfl | rfl | rfl | rfl <;> omega

/-- a range of the newest block that is behind those before -/
theorem Served.cons {fin : ℕ} (new : Range) (h : Served ranges (b :: rest)) (hheap : Heap (b :: rest))
    (hpage : pageSize + ballocHeader < 2 ^ 64) (hin : new.In b) (hnew : new.ptr % new.align = 0)
    (hfin : fin + ballocHeader = b.addr + b.size)
    (hbefore : ∀ x ∈ ranges, x.ptr + x.size ≤ new.ptr ∨ ∃ b' ∈ rest, x.In b') :
    Serving (new :: ranges, ⟨pageSize, new.ptr + new.size, fin, b :: rest⟩) b rest := by
  have hlast : b.addr + ballocHeader ≤ new.ptr + new.size := hin.1.trans (Nat.le_add_right _ _)
  refine ⟨⟨forall_mem_cons.2 ⟨hnew, h.aligned⟩, forall_mem_cons.2 ⟨⟨b, mem_cons_self, hin⟩, h.inside⟩,
    pairwise_cons.2 ⟨fun x hx => ?_, h.apart⟩⟩, hpage, rfl, ⟨hlast, hin.2⟩, hfin,
    forall_mem_cons.2 ⟨Or.inl le_rfl, fun x hx => (hbefore x hx).imp_left fun hle => Nat.le_add_right_of_le hle⟩⟩
  rcases hbefore x hx with hle | ⟨b', hb', hin'⟩
  · exact Or.inr hle
  · have hblocks := (pairwise_cons.1 hheap.apart).1 b' hb'
    unfold Range.In at hin hin'
    unfold Range.Apart
    omega

section

variable (hheap : Heap (ballocStep malloc s r).2.pages) (halign : r.2 ∈ [1, 2, 4, 8]) (hsize : r.1 < 2 ^ 63)
include hheap halign hsize

/-- a request that gets a page of its own -/
theorem ballocStep_page (h : Served s.1 s.2.pages) (hpage : s.2.pageSize + ballocHeader < 2 ^ 64)
    (hfull : (roundUpPtr s.2.cur r.2 + r.1) % 2 ^ 64 > s.2.fin) :
    ∃ b rest, Serving (ballocStep malloc s r) b rest := by
  unfold ballocStep apkBallocAligned at hheap ⊢
  simp only [hfull] at hheap ⊢
  have hmax : r.1 ≤ max s.2.pageSize r.1 ∧ max s.2.pageSize r.1 + ballocHeader < 2 ^ 64 := by
    unfold ballocHeader at *
    omega
  rw [Nat.mod_eq_of_lt hmax.2] at hheap ⊢
  obtain ⟨haddr, hend⟩ := hheap.block _ mem_cons_self
  generalize max s.2.pageSize r.1 = bytes at *
  generalize malloc s.2.pages (bytes + ballocHeader) = bp at *
  simp only [ballocHeader] at *
  obtain ⟨-, -, hmod, hround⟩ := roundUpPtr_spec halign (show bp + 8 ≤ 2 ^ 63 by omega)
  rw [Nat.mod_eq_of_lt (by omega : bp + 8 < 2 ^ 64), Nat.mod_eq_of_lt (by omega : bp + bytes < 2 ^ 64)]
  rw [hround (by omega)] at hmod ⊢
  rw [Nat.mod_eq_of_lt (by omega)]
  have hserved : Served s.1 (⟨bp, bytes + 8⟩ :: s.2.pages) :=
    ⟨h.aligned, fun x hx => (h.inside x hx).imp fun b hb => ⟨mem_cons_of_mem _ hb.1, hb.2⟩, h.apart⟩
  refine ⟨_, _, hserved.cons ⟨bp + 8, r.1, r.2⟩ hheap hpage ⟨le_rfl, ?_⟩ hmod rfl
    fun x hx => Or.inr (h.inside x hx)⟩
  simp only
  omega

theorem Serving.step (h : Serving s b rest) : ∃ b rest, Serving (ballocStep malloc s r) b rest := by
  by_cases hfull : (roundUpPtr s.2.cur r.2 + r.1) % 2 ^ 64 > s.2.fin
  · exact ballocStep_page hheap halign hsize h.toServed h.page hfull
  obtain ⟨ranges, pageSize, cur, fin, pages⟩ := s
  obtain ⟨hserved, hpage, rfl, hcur, hfin, hbefore⟩ := h
  unfold ballocStep apkBallocAligned at hheap ⊢
  simp only [hfull, if_false] at hheap ⊢
  simp only at *
  have hb := (hheap.block b mem_cons_self).2
  obtain ⟨hle, hhigh, hmod, -⟩ := roundUpPtr_spec halign (hcur.2.trans hb)
  rw [Nat.mod_eq_of_lt (by omega)] at hfull ⊢
  refine ⟨b, rest, hserved.cons ⟨_, r.1, r.2⟩ hheap hpage ⟨hcur.1.trans hle, ?_⟩ hmod hfin fun x hx => ?_⟩
  · simp only
    omega
  · exact (hbefore x hx).imp_left fun hx => hx.trans hle

end

/-- the ranges and the blocks stay -/
theorem ballocStep_keeps (requests : List (ℕ × ℕ)) (s : List Range × ApkBalloc) :
    let run := requests.foldl (ballocStep malloc) s
    s.1 <:+ run.1 ∧ s.2.pages <:+ run.2.pages ∧ ∀ r ∈ requests, ∃ x ∈ run.1, x.size = r.1 := by
  induction requests generalizing s with
  | nil => exact ⟨suffix_rfl, suffix_rfl, by simp⟩
  | cons r requests ih =>
    obtain ⟨hranges, hpages, hall⟩ := ih (ballocStep malloc s r)
    have hstep : s.2.pages <:+ (ballocStep malloc s r).2.pages := by
      unfold ballocStep apkBallocAligned
      simp only
      split_ifs
      · exact suffix_cons _ _
      · exact suffix_rfl
    exact ⟨(suffix_cons _ _).trans hranges, hstep.trans hpages,
      forall_mem_cons.2 ⟨⟨_, hranges.subset mem_cons_self, rfl⟩, hall⟩⟩

theorem Serving.run (requests : List (ℕ × ℕ)) (h : Serving s b rest)
    (hheap : Heap (requests.foldl (ballocStep malloc) s).2.pages)
    (hrequests : ∀ r ∈ requests, r.2 ∈ [1, 2, 4, 8]) (hsizes : ∀ r ∈ requests, r.1 < 2 ^ 63) :
    let run := requests.foldl (ballocStep malloc) s
    Served run.1 run.2.pages := by
  induction requests generalizing s b rest with
  | nil => exact h.toServed
  | cons r requests ih =>
    rw [forall_mem_cons] at hrequests hsizes
    have hnext := hheap.before (ballocStep_keeps requests (ballocStep malloc s r)).2.1
    obtain ⟨b', rest', h'⟩ := Serving.step hnext hrequests.1 hsizes.1 h
    exact ih h' hheap hrequests.2 hsizes.2

/-- the ranges are aligned, inside a block and apart exactly when no request is of half of the addresses
or more, and the first one not of nothing -/
theorem balloc_ranges_iff (malloc : List Block → ℕ → ℕ) (pageSize : ℕ) (requests : List (ℕ × ℕ))
    (hpage : pageSize + ballocHeader < 2 ^ 64) (hrequests : ∀ r ∈ requests, r.2 ∈ [1, 2, 4, 8])
    (hheap : Heap (ballocRun malloc pageSize requests).2.pages) :
    Served (ballocRun malloc pageSize requests).1 (ballocRun malloc pageSize requests).2.pages ↔
    (∀ r ∈ requests, r.1 < 2 ^ 63) ∧ ∀ r ∈ requests.head?, r.1 ≠ 0 := by
  cases requests with
  | nil => exact ⟨fun _ => by simp, fun _ => ⟨by simp [ballocRun], by simp [ballocRun], Pairwise.nil⟩⟩
  | cons r requests =>
  have hround := (roundUpPtr_spec (hrequests r mem_cons_self) (Nat.zero_le _)).2.2.2 rfl
  refine ⟨fun hserved => ?_, fun ⟨hsizes, hfirst⟩ => ?_⟩
  · have hsmall : ∀ x ∈ (ballocRun malloc pageSize (r :: requests)).1, 0 < x.ptr ∧ x.size < 2 ^ 63 := by
      intro x hx
      obtain ⟨b, hb, hin⟩ := hserved.inside x hx
      have hend := (hheap.block b hb).2
      unfold Range.In ballocHeader at hin
      omega
    refine ⟨fun r' hr' => ?_, ?_⟩
    · obtain ⟨x, hx, hsize⟩ := (ballocStep_keeps (r :: requests) _).2.2 r' hr'
      exact hsize ▸ (hsmall x hx).2
    · -- a first request of nothing fits into the page that is not there
      rintro r' ⟨⟩ hzero
      have hnull : (apkBallocAligned malloc (apkBallocInit pageSize) r.1 r.2).1 = 0 := by
        unfold apkBallocAligned apkBallocInit
        simp [hround, hzero]
      exact (hsmall _ ((ballocStep_keeps requests _).1.subset mem_cons_self)).1.ne' hnull
  · rw [forall_mem_cons] at hrequests hsizes
    have hfull : (roundUpPtr 0 r.2 + r.1) % 2 ^ 64 > 0 := by
      have := hfirst r rfl
      omega
    obtain ⟨b, rest, h⟩ := ballocStep_page (s := ([], apkBallocInit pageSize))
      (hheap.before (ballocStep_keeps requests _).2.1) hrequests.1 hsizes.1
      ⟨by simp, by simp, Pairwise.nil⟩ hpage hfull
    exact h.run requests hheap hrequests.2 hsizes.2

/-- two requests of a page each, and one of nothing -/
theorem balloc_ranges_iff_three :
    let run := ballocRun (fun pages _ => 4096 * (pages.length + 1)) 64 [(60, 8), (65, 1), (0, 4)]
    Heap run.2.pages ∧ Served run.1 run.2.pages := by
  have hheap : Heap (ballocRun (fun pages _ => 4096 * (pages.length + 1)) 64
      [(60, 8), (65, 1), (0, 4)]).2.pages := ⟨by decide, by decide⟩
  exact ⟨hheap, (balloc_ranges_iff _ 64 _ (by decide) (by decide) hheap).2 (by decide)⟩

/-- a request that wraps around gets a block of four bytes -/
theorem balloc_wraps :
    let run := ballocRun (fun _ _ => 4096) 64 [(2 ^ 64 - 4, 1)]
    Heap run.2.pages ∧ run.1 = [⟨4104, 2 ^ 64 - 4, 1⟩] ∧ run.2.pages = [⟨4096, 4⟩] := by
  exact ⟨⟨by decide, by decide⟩, by decide, by decide⟩

end Alpine

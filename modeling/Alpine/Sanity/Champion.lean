import Mathlib

/-! A scan that keeps one element and replaces it by each later one that beats it. The relation
need not be an order. The result does not depend on the order of the list exactly when one
element beats all the others and is beaten by none of them. -/

namespace Champion

open List

variable {α : Type} (beats : α → α → Bool)

def keep : Option α → α → Option α
  | none, x => some x
  | some y, x => some (if beats x y then x else y)

variable (c : Option α)

def scan (l : List α) : Option α := l.foldl (keep beats) c

/-- `w` beats every other element of the list, and no other element beats it -/
def Dominates (w : α) (l : List α) : Prop :=
  w ∈ l ∧ ∀ q ∈ l, q ≠ w → beats w q = true ∧ beats q w = false

variable {beats}

theorem keep_some_eq (beats : α → α → Bool) (c : α) (x : α) :
    keep beats (some c) x = some x ∨ keep beats (some c) x = some c := by
  simp only [keep]
  split_ifs
  · exact Or.inl rfl
  · exact Or.inr rfl

theorem scan_some_mem (beats : α → α → Bool) (c : α) (l : List α) :
    ∃ w, scan beats (some c) l = some w ∧ (w = c ∨ w ∈ l) := by
  induction l generalizing c with
  | nil => exact ⟨c, rfl, Or.inl rfl⟩
  | cons x l ih =>
    have hstep : scan beats (some c) (x :: l) = scan beats (keep beats (some c) x) l := rfl
    rw [hstep]
    rcases keep_some_eq beats c x with h | h <;> rw [h]
    · obtain ⟨w, hw, rfl | hmem⟩ := ih x
      · exact ⟨w, hw, Or.inr mem_cons_self⟩
      · exact ⟨w, hw, Or.inr (mem_cons_of_mem _ hmem)⟩
    · obtain ⟨w, hw, hc | hmem⟩ := ih c
      · exact ⟨w, hw, Or.inl hc⟩
      · exact ⟨w, hw, Or.inr (mem_cons_of_mem _ hmem)⟩

theorem scan_append (l m : List α) :
    scan beats c (l ++ m) = scan beats (scan beats c l) m := foldl_append

variable {l : List α} {w : α}

theorem scan_keeps (h : ∀ q ∈ l, q ≠ w → beats q w = false) : scan beats (some w) l = some w := by
  induction l with
  | nil => rfl
  | cons x l ih =>
    have hx : keep beats (some w) x = some w := by
      by_cases hxw : x = w
      · simp [keep, hxw]
      · simp [keep, h x mem_cons_self hxw]
    have hstep : scan beats (some w) (x :: l) = scan beats (keep beats (some w) x) l := rfl
    rw [hstep, hx]
    exact ih fun q hq => h q (mem_cons_of_mem _ hq)

theorem scan_of_dominates (h : Dominates beats w l) (c : Option α)
    (hc : ∀ q, c = some q → q ≠ w → beats w q = true) : scan beats c l = some w := by
  obtain ⟨hw, hd⟩ := h
  obtain ⟨l₁, l₂, rfl⟩ := append_of_mem hw
  have hkept : keep beats (scan beats c l₁) w = some w := by
    have hbefore : scan beats c l₁ = none ∨
        ∃ q, scan beats c l₁ = some q ∧ (q = w ∨ beats w q = true) := by
      have hcase : ∀ q, q ∈ l₁ → q = w ∨ beats w q = true := fun q hq => by
        by_cases hqw : q = w
        · exact Or.inl hqw
        · exact Or.inr (hd q (mem_append_left _ hq) hqw).1
      cases c with
      | none =>
        cases l₁ with
        | nil => exact Or.inl rfl
        | cons x l₁ =>
          obtain ⟨q, hq, hmem⟩ := scan_some_mem beats x l₁
          refine Or.inr ⟨q, hq, hcase q ?_⟩
          rcases hmem with rfl | hmem
          · exact mem_cons_self
          · exact mem_cons_of_mem _ hmem
      | some y =>
        obtain ⟨q, hq, hmem⟩ := scan_some_mem beats y l₁
        refine Or.inr ⟨q, hq, ?_⟩
        rcases hmem with rfl | hmem
        · by_cases hqw : q = w
          · exact Or.inl hqw
          · exact Or.inr (hc q rfl hqw)
        · exact hcase q hmem
    rcases hbefore with h | ⟨q, h, rfl | hb⟩
    · rw [h]; rfl
    · rw [h]; simp [keep]
    · rw [h]; simp [keep, hb]
  rw [scan_append]
  change scan beats (keep beats (scan beats c l₁) w) l₂ = some w
  rw [hkept]
  exact scan_keeps fun q hq hqw =>
    (hd q (mem_append_right _ (mem_cons_of_mem _ hq)) hqw).2

/-- where of two elements exactly one beats the other and no three beat each other in turn, one
element dominates -/
theorem exists_dominates (hne : l ≠ [])
    (htotal : ∀ a ∈ l, ∀ b ∈ l, a ≠ b → (beats a b = true ↔ beats b a = false))
    (hcycle : ∀ a ∈ l, ∀ b ∈ l, ∀ c ∈ l, a ≠ b → b ≠ c → c ≠ a → beats a b = true → beats b c = true → beats c a = false) :
    ∃ w, Dominates beats w l := by
  induction l with
  | nil => exact absurd rfl hne
  | cons x l ih =>
    by_cases hl : l = []
    · subst hl
      refine ⟨x, mem_cons_self, fun q hq hqx => ?_⟩
      exact absurd (mem_singleton.1 hq) hqx
    have hin : ∀ {y}, y ∈ l → y ∈ x :: l := mem_cons_of_mem x
    obtain ⟨w, hw, hd⟩ := ih hl (fun a ha b hb => htotal a (hin ha) b (hin hb))
      fun a ha b hb c hc => hcycle a (hin ha) b (hin hb) c (hin hc)
    by_cases hxw : x = w
    · subst hxw
      refine ⟨x, mem_cons_self, fun q hq hqx => ?_⟩
      exact hd q ((mem_cons.1 hq).resolve_left hqx) hqx
    cases hb : beats x w with
    | false =>
      refine ⟨w, hin hw, fun q hq hqw => ?_⟩
      rcases mem_cons.1 hq with rfl | hq
      · exact ⟨(htotal w (hin hw) q mem_cons_self (Ne.symm hqw)).2 hb, hb⟩
      · exact hd q hq hqw
    | true =>
      refine ⟨x, mem_cons_self, fun q hq hqx => ?_⟩
      have hql := (mem_cons.1 hq).resolve_left hqx
      have hqxb : beats q x = false := by
        by_cases hqw : q = w
        · rw [hqw]
          exact (htotal x mem_cons_self w (hin hw) hxw).1 hb
        · exact hcycle x mem_cons_self w (hin hw) q hq hxw (Ne.symm hqw) hqx hb (hd q hql hqw).1
      exact ⟨(htotal x mem_cons_self q hq (Ne.symm hqx)).2 hqxb, hqxb⟩

theorem scan_run {q : α} (hall : ∀ x ∈ l, x = q) (hne : l ≠ []) :
    scan beats c l = keep beats c q := by
  cases l with
  | nil => exact absurd rfl hne
  | cons x l =>
    obtain rfl := hall x mem_cons_self
    change scan beats (keep beats c x) l = keep beats c x
    have hrest : ∀ y : α, (x ≠ y → beats x y = false) → scan beats (some y) l = some y := by
      intro y hy
      apply scan_keeps
      intro z hz hzy
      obtain rfl := hall z (mem_cons_of_mem _ hz)
      exact hy hzy
    cases c with
    | none => exact hrest x fun h => absurd rfl h
    | some y =>
      simp only [keep]
      split_ifs with hb
      · exact hrest x fun h => absurd rfl h
      · exact hrest y fun _ => eq_false_of_ne_true hb

section

variable [DecidableEq α]

/-- the list with the copies of `a` first, then those of `b` -/
def front (a b : α) (l : List α) : List α :=
  l.filter (· = a) ++ (l.filter (fun x => x = b ∧ x ≠ a) ++ l.filter (fun x => x ≠ b ∧ x ≠ a))

theorem front_perm (a b : α) (l : List α) : (front a b l).Perm l := by
  have h1 := filter_append_perm (fun x => decide (x = a)) l
  have h2 := filter_append_perm (fun x => decide (x = b)) (l.filter fun x => !decide (x = a))
  refine List.Perm.trans (List.Perm.append_left _ ?_) h1
  simpa using h2

/-- when `a` comes first, `b` after it and neither again, only one of the two ways leads to `w` -/
theorem scan_front (beats : α → α → Bool) {a b : α} (ha : a ∈ l) (hb : b ∈ l) (hab : a ≠ b) :
    ∃ w, scan beats none (front a b l) = some w ∧
      (w = (if beats b a then b else a) ∨ (w ≠ a ∧ w ≠ b)) := by
  have hfirst : scan beats none (l.filter (· = a)) = some a := by
    rw [scan_run none (q := a) (by simp) (ne_nil_of_mem (mem_filter.2 ⟨ha, by simp⟩))]
    rfl
  have hsecond : scan beats (some a) (l.filter (fun x => x = b ∧ x ≠ a)) =
      some (if beats b a then b else a) := by
    rw [scan_run (some a) (q := b) (by simp +contextual)
      (ne_nil_of_mem (mem_filter.2 ⟨hb, by simp [Ne.symm hab]⟩))]
    rfl
  obtain ⟨w, hw, h⟩ := scan_some_mem beats (if beats b a then b else a)
    (l.filter (fun x => x ≠ b ∧ x ≠ a))
  refine ⟨w, ?_, ?_⟩
  · rw [front, scan_append, hfirst, scan_append, hsecond, hw]
  rcases h with h | h
  · exact Or.inl h
  · have := (mem_filter.1 h).2
    simp only [decide_eq_true_eq] at this
    exact Or.inr ⟨this.2, this.1⟩

variable (beats) in
theorem scan_perm_iff (l : List α) : (∀ m, m.Perm l → scan beats none m = scan beats none l) ↔
      l = [] ∨ ∃ w, Dominates beats w l := by
  refine ⟨fun hall => ?_, ?_⟩
  · cases hl : l with
    | nil => exact Or.inl rfl
    | cons x xs =>
      rw [← hl]
      obtain ⟨w, hw, hmem⟩ := scan_some_mem beats x xs
      have hwl : w ∈ l := by
        rw [hl]
        exact mem_cons.2 hmem
      have hscan : scan beats none l = some w := by rw [hl]; exact hw
      refine Or.inr ⟨w, hwl, fun q hq hqw => ⟨?_, ?_⟩⟩
      · -- `q` first: `w` must beat it, since it has no second chance
        obtain ⟨v, hv, h⟩ := scan_front beats hq hwl hqw
        rw [hall _ (front_perm q w l), hscan] at hv
        cases hv
        rcases h with h | h
        · by_contra hb
          rw [if_neg hb] at h
          exact hqw h.symm
        · exact absurd rfl h.2
      -- `w` first: `q` must not beat it
      obtain ⟨v, hv, h⟩ := scan_front beats hwl hq (Ne.symm hqw)
      rw [hall _ (front_perm w q l), hscan] at hv
      cases hv
      rcases h with h | h
      · by_contra hb
        rw [if_pos (eq_true_of_ne_false hb)] at h
        exact hqw h.symm
      · exact absurd rfl h.1
  rintro (rfl | ⟨w, hd⟩) m hm
  · rw [List.Perm.eq_nil hm]
  · have hdm : Dominates beats w m := ⟨hm.mem_iff.2 hd.1, fun q hq => hd.2 q (hm.mem_iff.1 hq)⟩
    rw [scan_of_dominates hd none (by simp), scan_of_dominates hdm none (by simp)]

end

end Champion

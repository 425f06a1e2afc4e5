import Mathlib

/-! Computations with fuel: `none` is one that has not returned. The rules for loops that the
solver is proved with: more fuel does not change a result, what every round keeps a loop keeps,
and a loop returns when its rounds do, which a count of elements may measure. -/

namespace Fuel

variable {α β σ : Type}

/-- what the first returns, the second returns too -/
def Le (a b : Option α) : Prop := ∀ x, a = some x → b = some x

theorem Le.refl (a : Option α) : Le a a := fun _ h => h

theorem Le.none (b : Option α) : Le none b := fun _ h => absurd h (by simp)

variable {a b : Option α} {f : α → Option β} {l : List α}

theorem Le.bind {g : α → Option β} (h : Le a b) (hf : ∀ x, Le (f x) (g x)) : Le (a >>= f) (b >>= g) := by
  intro y hy
  obtain ⟨x, hx, hfx⟩ := Option.bind_eq_some_iff.1 hy
  exact Option.bind_eq_some_iff.2 ⟨x, h x hx, hf x y hfx⟩

theorem Le.map (f : α → β) (h : Le a b) : Le (a.map f) (b.map f) := by
  intro y hy
  obtain ⟨x, hx, hfx⟩ := Option.map_eq_some_iff.1 hy
  exact Option.map_eq_some_iff.2 ⟨x, h x hx, hfx⟩

theorem Le.ite {a' b' : Option α} (c : Prop) [Decidable c] (h : Le a a') (h' : Le b b') :
    Le (if c then a else b) (if c then a' else b') := by
  split_ifs
  · exact h
  · exact h'

theorem Le.foldlM {f g : σ → α → Option σ} (h : ∀ s x, Le (f s x) (g s x)) (l : List α) (s : σ) :
    Le (l.foldlM f s) (l.foldlM g s) := by
  induction l generalizing s with
  | nil => exact Le.refl _
  | cons x l ih => exact Le.bind (h s x) fun s' => ih s'

theorem foldl_counted {R : ℕ → σ → σ → Prop} (hrefl : ∀ s, R 0 s s)
    (htrans : ∀ {j k a b c}, R j a b → R k b c → R (j + k) a c) {f : σ → α → σ} (k : ℕ)
    (h : ∀ s, ∀ x ∈ l, R k s (f s x)) (s : σ) : R (l.length * k) s (l.foldl f s) := by
  induction l generalizing s with
  | nil =>
    rw [List.length_nil, Nat.zero_mul]
    exact hrefl s
  | cons x l ih =>
    rw [List.length_cons, Nat.succ_mul, Nat.add_comm]
    exact htrans (h s x List.mem_cons_self) (ih (fun t y hy => h t y (List.mem_cons_of_mem _ hy)) _)

section

variable [Fintype α] {p q : α → Prop} [DecidablePred p] [DecidablePred q] (h : ∀ x, q x → p x)
include h

theorem card_filter_le : (Finset.univ.filter q).card ≤ (Finset.univ.filter p).card :=
  Finset.card_le_card (Finset.monotone_filter_right _ fun x _ => h x)

theorem card_filter_lt {x : α} (hp : p x) (hq : ¬ q x) :
    (Finset.univ.filter q).card < (Finset.univ.filter p).card := by
  refine Finset.card_lt_card ⟨Finset.monotone_filter_right _ fun x _ => h x, fun hsub => hq ?_⟩
  exact (Finset.mem_filter.1 (hsub (Finset.mem_filter.2 ⟨Finset.mem_univ x, hp⟩))).2

omit h in
theorem unset {a b : Bool} (h : a = true → b = true) (hb : b = false) : a = false := by
  by_contra ha
  simp [h (eq_true_of_ne_false ha)] at hb

end

section

variable {R : σ → σ → Prop}

theorem foldl_rel (hrefl : ∀ s, R s s) (htrans : ∀ a b c, R a b → R b c → R a c) {f : σ → α → σ}
    (h : ∀ s, ∀ x ∈ l, R s (f s x)) (s : σ) : R s (l.foldl f s) :=
  foldl_counted (R := fun _ => R) hrefl (fun h h' => htrans _ _ _ h h') 0 h s

end

theorem bind_returns {Q : α → Prop} {R : β → Prop} (ha : ∃ x, a = some x ∧ Q x)
    (hf : ∀ x, Q x → ∃ y, f x = some y ∧ R y) : ∃ y, (a >>= f) = some y ∧ R y := by
  obtain ⟨x, hx, hq⟩ := ha
  obtain ⟨y, hy, hr⟩ := hf x hq
  exact ⟨y, Option.bind_eq_some_iff.2 ⟨x, hx, hy⟩, hr⟩

/-- what each round does for its element, and the other rounds keep, is done for all of them -/
theorem foldlM_marks {Q : σ → Prop} {M : α → σ → Prop} {f : σ → α → Option σ}
    (h : ∀ s, ∀ x ∈ l, Q s → ∃ s', f s x = some s' ∧ Q s' ∧ M x s' ∧ ∀ y, M y s → M y s') {s : σ} (hs : Q s) :
    ∃ s', l.foldlM f s = some s' ∧ Q s' ∧ (∀ x ∈ l, M x s') ∧ ∀ y, M y s → M y s' := by
  induction l generalizing s with
  | nil => exact ⟨s, rfl, hs, by simp, fun _ hy => hy⟩
  | cons x l ih =>
    obtain ⟨s₁, h₁, hq, hx, hkeep⟩ := h s x List.mem_cons_self hs
    obtain ⟨s₂, h₂, hq', hl, hkeep'⟩ := ih (fun t y hy => h t y (List.mem_cons_of_mem _ hy)) hq
    refine ⟨s₂, ?_, hq', List.forall_mem_cons.2 ⟨hkeep' x hx, hl⟩, fun y hy => hkeep' y (hkeep y hy)⟩
    exact Option.bind_eq_some_iff.2 ⟨s₁, h₁, h₂⟩

theorem foldlM_returns {Q : σ → Prop} {f : σ → α → Option σ}
    (h : ∀ s, ∀ x ∈ l, Q s → ∃ s', f s x = some s' ∧ Q s') {s : σ} (hs : Q s) :
    ∃ s', l.foldlM f s = some s' ∧ Q s' := by
  obtain ⟨s', h', hq, -⟩ := foldlM_marks (M := fun _ _ => True) (fun s x hx hs => by simpa using h s x hx hs) hs
  exact ⟨s', h', hq⟩

end Fuel

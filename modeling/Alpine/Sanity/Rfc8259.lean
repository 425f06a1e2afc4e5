import Mathlib

/-! JSON texts (RFC 8259) as bytes: which texts there are, and the value that each stands for. A text
is moreover encoded in UTF-8. -/

namespace Rfc8259

open List

def IsTail (c : UInt8) : Prop := 0x80 ≤ c ∧ c ≤ 0xbf

/-- the encodings of characters, as in the table of RFC 3629 -/
inductive Utf8 : List UInt8 → Prop
  | nil : Utf8 []
  | one {a : UInt8} {t : List UInt8} (ha : a < 0x80) (h : Utf8 t) : Utf8 (a :: t)
  | two {a b : UInt8} {t : List UInt8} (ha : 0xc2 ≤ a ∧ a ≤ 0xdf) (hb : IsTail b) (h : Utf8 t) :
      Utf8 (a :: b :: t)
  | three {a b c : UInt8} {t : List UInt8} (ha : 0xe0 ≤ a ∧ a ≤ 0xef) (hb : IsTail b) (hc : IsTail c)
      (hlow : a = 0xe0 → 0xa0 ≤ b) (hhigh : a = 0xed → b ≤ 0x9f) (h : Utf8 t) : Utf8 (a :: b :: c :: t)
  | four {a b c d : UInt8} {t : List UInt8} (ha : 0xf0 ≤ a ∧ a ≤ 0xf4) (hb : IsTail b) (hc : IsTail c)
      (hd : IsTail d) (hlow : a = 0xf0 → 0x90 ≤ b) (hhigh : a = 0xf4 → b ≤ 0x8f) (h : Utf8 t) :
      Utf8 (a :: b :: c :: d :: t)

variable {c : UInt8} {s t : List UInt8} {n : ℕ}

theorem Utf8.append (hs : Utf8 s) (ht : Utf8 t) : Utf8 (s ++ t) := by
  induction hs with
  | nil => exact ht
  | one ha _ ih => exact .one ha ih
  | two ha hb _ ih => exact .two ha hb ih
  | three ha hb hc hlow hhigh _ ih => exact .three ha hb hc hlow hhigh ih
  | four ha hb hc hd hlow hhigh _ ih => exact .four ha hb hc hd hlow hhigh ih

theorem utf8_of_ascii (h : ∀ c ∈ s, c < 0x80) : Utf8 s := by
  induction s with
  | nil => exact .nil
  | cons c s ih =>
    exact .one (h c mem_cons_self) (ih fun d hd => h d (mem_cons_of_mem _ hd))

inductive Part
  | value
  | items
  | members

/-- values, the items of an array and the members of an object -/
inductive Tree : Part → Type
  | str (s : List UInt8) : Tree .value
  | num (q : ℚ) : Tree .value
  | bool (b : Bool) : Tree .value
  | null : Tree .value
  | arr (items : Tree .items) : Tree .value
  | obj (members : Tree .members) : Tree .value
  | nil : Tree .items
  | cons (v : Tree .value) (items : Tree .items) : Tree .items
  | none : Tree .members
  | member (key : List UInt8) (v : Tree .value) (members : Tree .members) : Tree .members

def Ws (w : List UInt8) : Prop := ∀ c ∈ w, c = 0x20 ∨ c = 0x09 ∨ c = 0x0a ∨ c = 0x0d

theorem ws_nil : Ws [] := fun _ h => absurd h not_mem_nil

/-- the escapes of two letters: the second letter, and what they stand for -/
def escapes : List (UInt8 × UInt8) :=
  [(0x22, 0x22), (0x5c, 0x5c), (0x2f, 0x2f), (0x62, 0x08), (0x66, 0x0c), (0x6e, 0x0a), (0x72, 0x0d),
    (0x74, 0x09)]

def hexValue (c : UInt8) : Option ℕ :=
  if 0x30 ≤ c ∧ c ≤ 0x39 then some (c.toNat - 0x30)
  else if 0x41 ≤ c ∧ c ≤ 0x46 then some (c.toNat - 0x37)
  else if 0x61 ≤ c ∧ c ≤ 0x66 then some (c.toNat - 0x57)
  else .none

def hex4 (a b c d : UInt8) : Option ℕ :=
  match hexValue a, hexValue b, hexValue c, hexValue d with
  | some a, some b, some c, some d => some (((a * 16 + b) * 16 + c) * 16 + d)
  | _, _, _, _ => .none

def utf8 (n : ℕ) : List UInt8 :=
  if n < 0x80 then [UInt8.ofNat n]
  else if n < 0x800 then [UInt8.ofNat (0xc0 + n / 0x40), UInt8.ofNat (0x80 + n % 0x40)]
  else if n < 0x10000 then
    [UInt8.ofNat (0xe0 + n / 0x1000), UInt8.ofNat (0x80 + n / 0x40 % 0x40), UInt8.ofNat (0x80 + n % 0x40)]
  else
    [UInt8.ofNat (0xf0 + n / 0x40000), UInt8.ofNat (0x80 + n / 0x1000 % 0x40),
      UInt8.ofNat (0x80 + n / 0x40 % 0x40), UInt8.ofNat (0x80 + n % 0x40)]

/-- the letters between the quotation marks, and the string they stand for -/
inductive Chars : List UInt8 → List UInt8 → Prop
  | nil : Chars [] []
  | plain {c : UInt8} {t s : List UInt8} (hc : 0x20 ≤ c) (hquote : c ≠ 0x22) (hslash : c ≠ 0x5c)
      (h : Chars t s) : Chars (c :: t) (c :: s)
  | escape {e d : UInt8} {t s : List UInt8} (he : (e, d) ∈ escapes) (h : Chars t s) :
      Chars (0x5c :: e :: t) (d :: s)
  | unicode {a b c d : UInt8} {n : ℕ} {t s : List UInt8} (hn : hex4 a b c d = some n)
      (hplain : n < 0xd800 ∨ 0xe000 ≤ n) (h : Chars t s) :
      Chars (0x5c :: 0x75 :: a :: b :: c :: d :: t) (utf8 n ++ s)
  | pair {a b c d a' b' c' d' : UInt8} {n n' : ℕ} {t s : List UInt8} (hn : hex4 a b c d = some n)
      (hn' : hex4 a' b' c' d' = some n') (hhigh : 0xd800 ≤ n ∧ n < 0xdc00)
      (hlow : 0xdc00 ≤ n' ∧ n' < 0xe000) (h : Chars t s) :
      Chars (0x5c :: 0x75 :: a :: b :: c :: d :: 0x5c :: 0x75 :: a' :: b' :: c' :: d' :: t)
        (utf8 (0x10000 + (n - 0xd800) * 0x400 + (n' - 0xdc00)) ++ s)

def IsDigit (c : UInt8) : Prop := 0x30 ≤ c ∧ c ≤ 0x39

def Digits (t : List UInt8) : Prop := t ≠ [] ∧ ∀ c ∈ t, IsDigit c

def digitsValue (t : List UInt8) : ℕ := t.foldl (fun n c => n * 10 + (c.toNat - 0x30)) 0

structure Number where
  minus : Bool
  int : List UInt8
  frac : List UInt8
  expMark : UInt8
  expSign : List UInt8
  exp : List UInt8
  int_digits : Digits int
  int_head : int.head? = some 0x30 → int = [0x30]
  frac_digits : ∀ c ∈ frac, IsDigit c
  exp_mark : expMark = 0x65 ∨ expMark = 0x45
  exp_sign : expSign = [] ∨ expSign = [0x2b] ∨ expSign = [0x2d]
  exp_digits : ∀ c ∈ exp, IsDigit c

def Number.text (n : Number) : List UInt8 :=
  (if n.minus then [0x2d] else []) ++ n.int ++ (if n.frac = [] then [] else 0x2e :: n.frac) ++
    (if n.exp = [] then [] else n.expMark :: n.expSign ++ n.exp)

def Number.value (n : Number) : ℚ :=
  (if n.minus then -1 else 1) *
    (digitsValue n.int + digitsValue n.frac / 10 ^ n.frac.length) *
    (if n.expSign = [0x2d] then (10 ^ digitsValue n.exp)⁻¹ else 10 ^ digitsValue n.exp)

/-- the texts of values, and of items and members without the white space around them -/
inductive Text : {p : Part} → Tree p → List UInt8 → Prop
  | str {t s : List UInt8} (h : Chars t s) : Text (.str s) (0x22 :: t ++ [0x22])
  | num (n : Number) : Text (.num n.value) n.text
  | true : Text (.bool Bool.true) [0x74, 0x72, 0x75, 0x65]
  | false : Text (.bool Bool.false) [0x66, 0x61, 0x6c, 0x73, 0x65]
  | null : Text .null [0x6e, 0x75, 0x6c, 0x6c]
  | arrNil {w : List UInt8} (hw : Ws w) : Text (.arr .nil) (0x5b :: w ++ [0x5d])
  | arr {w w' t : List UInt8} {items : Tree .items} (hw : Ws w) (h : Text items t) (hw' : Ws w') :
      Text (.arr items) (0x5b :: w ++ t ++ w' ++ [0x5d])
  | objNone {w : List UInt8} (hw : Ws w) : Text (.obj .none) (0x7b :: w ++ [0x7d])
  | obj {w w' t : List UInt8} {members : Tree .members} (hw : Ws w) (h : Text members t) (hw' : Ws w') :
      Text (.obj members) (0x7b :: w ++ t ++ w' ++ [0x7d])
  | item {t : List UInt8} {v : Tree .value} (h : Text v t) : Text (.cons v .nil) t
  | items {w w' t t' : List UInt8} {v : Tree .value} {items : Tree .items} (h : Text v t) (hw : Ws w)
      (hw' : Ws w') (h' : Text items t') : Text (.cons v items) (t ++ w ++ 0x2c :: w' ++ t')
  | member {w w' k key t : List UInt8} {v : Tree .value} (hk : Chars k key) (hw : Ws w) (hw' : Ws w')
      (h : Text v t) : Text (.member key v .none) (0x22 :: k ++ 0x22 :: w ++ 0x3a :: w' ++ t)
  | members {w w' w₁ w₁' k key t t' : List UInt8} {v : Tree .value} {members : Tree .members}
      (hk : Chars k key) (hw : Ws w) (hw' : Ws w') (h : Text v t) (hw₁ : Ws w₁) (hw₁' : Ws w₁')
      (h' : Text members t') :
      Text (.member key v members) (0x22 :: k ++ 0x22 :: w ++ 0x3a :: w' ++ t ++ w₁ ++ 0x2c :: w₁' ++ t')

def JsonText (v : Tree .value) (text : List UInt8) : Prop :=
  Utf8 text ∧ ∃ w t w', text = w ++ t ++ w' ∧ Ws w ∧ Text v t ∧ Ws w'

/-- a byte that can stand in a text: no control byte but those of white space -/
def Allowed (c : UInt8) : Prop := 0x20 ≤ c ∨ c = 0x09 ∨ c = 0x0a ∨ c = 0x0d

theorem Ws.allowed {w : List UInt8} (hw : Ws w) : ∀ c ∈ w, Allowed c := by
  intro c hc
  rcases hw c hc with rfl | h
  · exact .inl (by decide)
  · exact .inr h

theorem allowed_of_le {k : UInt8} (hk : 0x20 ≤ k) (h : k ≤ c) : Allowed c :=
  .inl (UInt8.le_trans hk h)

/-- a byte that stands for itself in a string -/
def IsLetter (c : UInt8) : Prop := 0x20 ≤ c ∧ c ≠ 0x22 ∧ c ≠ 0x5c

theorem hexValue_letter (h : hexValue c = some n) : IsLetter c := by
  have hrange : ∀ {k l : UInt8}, k ≤ c ∧ c ≤ l → 0x20 ≤ k ∧ ¬ (k ≤ 0x22 ∧ 0x22 ≤ l) ∧ ¬ (k ≤ 0x5c ∧ 0x5c ≤ l) →
      IsLetter c := by
    rintro k l hc ⟨hk, hquote, hslash⟩
    exact ⟨UInt8.le_trans hk hc.1, fun h => hquote (h ▸ hc), fun h => hslash (h ▸ hc)⟩
  unfold hexValue at h
  split_ifs at h with h₁ h₂ h₃
  · exact hrange h₁ (by decide)
  · exact hrange h₂ (by decide)
  · exact hrange h₃ (by decide)

theorem hex4_letters {a b d : UInt8} (h : hex4 a b c d = some n) : IsLetter a ∧ IsLetter b ∧ IsLetter c ∧ IsLetter d := by
  unfold hex4 at h
  split at h
  next ha hb hc hd => exact ⟨hexValue_letter ha, hexValue_letter hb, hexValue_letter hc, hexValue_letter hd⟩
  · cases h

theorem Chars.visible (h : Chars t s) : ∀ c ∈ t, 0x20 ≤ c := by
  have hslash : (0x20 : UInt8) ≤ 0x5c := by decide
  have hu : (0x20 : UInt8) ≤ 0x75 := by decide
  induction h with
  | nil => exact fun _ h => absurd h not_mem_nil
  | plain hc _ _ _ ih => exact forall_mem_cons.2 ⟨hc, ih⟩
  | escape he _ ih =>
    have : ∀ p ∈ escapes, (0x20 : UInt8) ≤ p.1 := by simp [escapes]
    exact forall_mem_cons.2 ⟨hslash, forall_mem_cons.2 ⟨this _ he, ih⟩⟩
  | unicode hn _ _ ih =>
    obtain ⟨ha, hb, hc, hd⟩ := hex4_letters hn
    simp only [forall_mem_cons]
    exact ⟨hslash, hu, ha.1, hb.1, hc.1, hd.1, ih⟩
  | pair hn hn' _ _ _ ih =>
    obtain ⟨ha, hb, hc, hd⟩ := hex4_letters hn
    obtain ⟨ha', hb', hc', hd'⟩ := hex4_letters hn'
    simp only [forall_mem_cons]
    exact ⟨hslash, hu, ha.1, hb.1, hc.1, hd.1, hslash, hu, ha'.1, hb'.1, hc'.1, hd'.1, ih⟩

theorem Chars.allowed (h : Chars t s) : ∀ c ∈ t, Allowed c := fun c hc => .inl (h.visible c hc)

theorem IsDigit.allowed (h : IsDigit c) : Allowed c :=
  allowed_of_le (k := 0x30) (by decide) h.1

/-- a letter of a number -/
def IsNumeric (c : UInt8) : Prop := IsDigit c ∨ c ∈ ([0x2b, 0x2d, 0x2e, 0x45, 0x65] : List UInt8)

theorem Number.numeric (n : Number) : ∀ c ∈ n.text, IsNumeric c := by
  have hint : ∀ c ∈ n.int, IsNumeric c := fun c hc => .inl (n.int_digits.2 c hc)
  have hfrac : ∀ c ∈ n.frac, IsNumeric c := fun c hc => .inl (n.frac_digits c hc)
  have hexp : ∀ c ∈ n.exp, IsNumeric c := fun c hc => .inl (n.exp_digits c hc)
  have hmark : IsNumeric n.expMark := by
    rcases n.exp_mark with h | h <;> exact .inr (by rw [h]; decide)
  have hsign : ∀ c ∈ n.expSign, IsNumeric c := by
    rcases n.exp_sign with h | h | h <;> rw [h]
    · exact fun _ h => absurd h not_mem_nil
    all_goals exact fun c hc => .inr (by rw [mem_singleton.1 hc]; decide)
  have hminus : ∀ c ∈ (if n.minus then [(0x2d : UInt8)] else []), IsNumeric c := by
    intro c hc
    split_ifs at hc
    · exact .inr (by rw [mem_singleton.1 hc]; decide)
    · cases hc
  unfold Number.text
  simp only [forall_mem_append]
  refine ⟨⟨⟨hminus, hint⟩, ?_⟩, ?_⟩
  · split_ifs
    · exact fun _ h => absurd h not_mem_nil
    · exact forall_mem_cons.2 ⟨.inr (by decide), hfrac⟩
  split_ifs
  · exact fun _ h => absurd h not_mem_nil
  · exact forall_mem_cons.2 ⟨hmark, forall_mem_append.2 ⟨hsign, hexp⟩⟩

theorem Number.allowed (n : Number) : ∀ c ∈ n.text, Allowed c := by
  intro c hc
  rcases n.numeric c hc with h | h
  · exact h.allowed
  · have : ∀ c ∈ ([0x2b, 0x2d, 0x2e, 0x45, 0x65] : List UInt8), 0x20 ≤ c := by simp
    exact .inl (this c h)

theorem Text.allowed {p : Part} {v : Tree p} (h : Text v t) : ∀ c ∈ t, Allowed c := by
  have hletter : ∀ {c : UInt8}, 0x20 ≤ c → Allowed c := fun h => .inl h
  induction h with
  | num n => exact n.allowed
  | item _ ih => exact ih
  | true | false | null => exact fun c hc => hletter (by revert c; simp)
  | str h =>
    simp only [cons_append, forall_mem_cons, forall_mem_append]
    exact ⟨hletter (by decide), h.allowed, hletter (by decide), fun _ h => absurd h not_mem_nil⟩
  | arrNil hw | objNone hw =>
    simp only [cons_append, forall_mem_cons, forall_mem_append]
    exact ⟨hletter (by decide), hw.allowed, hletter (by decide), fun _ h => absurd h not_mem_nil⟩
  | arr hw _ hw' ih | obj hw _ hw' ih =>
    simp only [cons_append, forall_mem_cons, forall_mem_append]
    exact ⟨hletter (by decide), ⟨⟨hw.allowed, ih⟩, hw'.allowed⟩, hletter (by decide),
      fun _ h => absurd h not_mem_nil⟩
  | items _ hw hw' _ ih ih' =>
    simp only [append_assoc, cons_append, forall_mem_cons, forall_mem_append]
    exact ⟨ih, hw.allowed, hletter (by decide), hw'.allowed, ih'⟩
  | member hk hw hw' _ ih =>
    simp only [append_assoc, cons_append, forall_mem_cons, forall_mem_append]
    exact ⟨hletter (by decide), hk.allowed, hletter (by decide), hw.allowed, hletter (by decide),
      hw'.allowed, ih⟩
  | members hk hw hw' _ hw₁ hw₁' _ ih ih' =>
    simp only [append_assoc, cons_append, forall_mem_cons, forall_mem_append]
    exact ⟨hletter (by decide), hk.allowed, hletter (by decide), hw.allowed, hletter (by decide),
      hw'.allowed, ih, hw₁.allowed, hletter (by decide), hw₁'.allowed, ih'⟩

theorem JsonText.allowed {v : Tree .value} {text : List UInt8} (h : JsonText v text) :
    ∀ c ∈ text, Allowed c := by
  obtain ⟨-, w, t, w', rfl, hw, ht, hw'⟩ := h
  simp only [forall_mem_append]
  exact ⟨⟨hw.allowed, ht.allowed⟩, hw'.allowed⟩

/-- a text and what follows it are told apart by the first byte that cannot belong to the text -/
theorem split_unique {P : UInt8 → Prop} {w w' a b : List UInt8} (hw : ∀ c ∈ w, P c) (hw' : ∀ c ∈ w', P c)
    (ha : ∀ c ∈ a.head?, ¬ P c) (hb : ∀ c ∈ b.head?, ¬ P c) (h : w ++ a = w' ++ b) : w = w' ∧ a = b := by
  induction w generalizing w' with
  | nil =>
    cases w' with
    | nil => exact ⟨rfl, h⟩
    | cons c w' =>
      obtain rfl : a = c :: (w' ++ b) := h
      exact absurd (hw' c mem_cons_self) (ha c rfl)
  | cons c w ih =>
    cases w' with
    | nil =>
      obtain rfl : c :: (w ++ a) = b := h
      exact absurd (hw c mem_cons_self) (hb c rfl)
    | cons c' w' =>
      obtain ⟨rfl, htail⟩ := cons.inj h
      obtain ⟨rfl, hrest⟩ := ih (fun d hd => hw d (mem_cons_of_mem _ hd)) (fun d hd => hw' d (mem_cons_of_mem _ hd)) htail
      exact ⟨rfl, hrest⟩

def IsWs (c : UInt8) : Prop := c = 0x20 ∨ c = 0x09 ∨ c = 0x0a ∨ c = 0x0d

theorem Text.head {p : Part} {v : Tree p} (h : Text v t) : ∃ c t', t = c :: t' ∧ ¬ IsWs c := by
  induction h with
  | num n =>
    obtain ⟨c, t', ht⟩ : ∃ c t', n.text = c :: t' := by
      refine exists_cons_of_ne_nil fun h => n.int_digits.1 ?_
      simp only [Number.text, append_eq_nil_iff] at h
      exact h.1.1.2
    refine ⟨c, t', ht, fun hws => ?_⟩
    have hnum := n.numeric c (by rw [ht]; exact mem_cons_self)
    rcases hws with rfl | rfl | rfl | rfl <;> revert hnum <;> unfold IsNumeric IsDigit <;> decide
  | item _ ih => exact ih
  | items _ _ _ _ ih _ =>
    obtain ⟨c, t', rfl, hc⟩ := ih
    exact ⟨c, _, rfl, hc⟩
  | true | false | null => exact ⟨_, _, rfl, by unfold IsWs; decide⟩
  | str | arrNil | arr | objNone | obj | member | members => exact ⟨_, _, rfl, by unfold IsWs; decide⟩

theorem utf8_length (n : ℕ) : (utf8 n).length ≤ 4 := by
  unfold utf8
  split_ifs <;> simp

/-- a string is no longer than its text, and as long only if no letter is escaped -/
theorem Chars.length_le (h : Chars t s) : s.length ≤ t.length ∧
    (t.length = s.length → t = s ∧ ∀ c ∈ s, IsLetter c) := by
  induction h with
  | nil => exact ⟨le_rfl, fun _ => ⟨rfl, by simp⟩⟩
  | plain hc hquote hslash _ ih =>
    refine ⟨Nat.succ_le_succ ih.1, fun h => ?_⟩
    obtain ⟨rfl, hall⟩ := ih.2 (Nat.succ.inj h)
    exact ⟨rfl, forall_mem_cons.2 ⟨⟨hc, hquote, hslash⟩, hall⟩⟩
  | escape _ _ ih =>
    simp only [length_cons]
    exact ⟨by omega, fun h => by omega⟩
  | @unicode _ _ _ _ n _ _ _ _ _ ih =>
    have := utf8_length n
    simp only [length_cons, length_append]
    exact ⟨by omega, fun h => by omega⟩
  | @pair _ _ _ _ _ _ _ _ n n' _ _ _ _ _ _ _ ih =>
    have := utf8_length (0x10000 + (n - 0xd800) * 0x400 + (n' - 0xdc00))
    simp only [length_cons, length_append]
    exact ⟨by omega, fun h => by omega⟩

theorem idxOf_append_le {l : List UInt8} : (l ++ s).idxOf c ≤ l.length + s.idxOf c := by
  rw [idxOf_append]
  split_ifs with h
  · exact (idxOf_lt_length_iff.2 h).le.trans (Nat.le_add_right _ _)
  · exact (Nat.add_comm _ _).le

theorem idxOf_append_of_letters {l : List UInt8} (h : ∀ c ∈ l, c ≠ 0x22) :
    (l ++ s).idxOf 0x22 = l.length + s.idxOf 0x22 := by
  rw [idxOf_append, if_neg fun hmem => h _ hmem rfl, Nat.add_comm]

/-- a quotation mark in the text stands for one that comes earlier in the string -/
theorem Chars.quote_earlier (h : Chars t s) (hmem : 0x22 ∈ t) : s.idxOf 0x22 < t.idxOf 0x22 := by
  have hescape : ∀ p ∈ escapes, p.1 = 0x22 ↔ p.2 = 0x22 := by simp [escapes]
  have hlater : ∀ {l t s x : List UInt8}, (∀ c ∈ l, c ≠ 0x22) → 0x22 ∈ l ++ t → x.length ≤ l.length →
      (0x22 ∈ t → s.idxOf 0x22 < t.idxOf 0x22) → (x ++ s).idxOf 0x22 < (l ++ t).idxOf 0x22 := by
    intro l t s x hl hmem hlen ih
    have := ih ((mem_append.1 hmem).resolve_left fun h => hl _ h rfl)
    have := idxOf_append_le (c := 0x22) (l := x) (s := s)
    rw [idxOf_append_of_letters hl]
    omega
  induction h with
  | nil => cases hmem
  | @plain c t s hc hquote hslash h ih => exact hlater (l := [c]) (x := [c]) (by simpa using hquote) hmem le_rfl ih
  | @escape e d t s he h ih =>
    by_cases hd : d = 0x22
    · obtain rfl := (hescape _ he).2 hd
      subst hd
      rw [idxOf_cons_self, idxOf_cons_ne _ (by decide)]
      exact Nat.succ_pos _
    · have hne : e ≠ 0x22 := fun h => hd ((hescape _ he).1 h)
      exact hlater (l := [0x5c, e]) (x := [d]) (by simpa using hne) hmem (by simp) ih
  | @unicode a b c d n t s hn hplain h ih =>
    obtain ⟨ha, hb, hc, hd⟩ := hex4_letters hn
    refine hlater (l := [0x5c, 0x75, a, b, c, d]) ?_ hmem ((utf8_length n).trans (by simp)) ih
    simp [ha.2.1, hb.2.1, hc.2.1, hd.2.1]
  | @pair a b c d a' b' c' d' n n' t s hn hn' hhigh hlow h ih =>
    obtain ⟨ha, hb, hc, hd⟩ := hex4_letters hn
    obtain ⟨ha', hb', hc', hd'⟩ := hex4_letters hn'
    refine hlater (l := [0x5c, 0x75, a, b, c, d, 0x5c, 0x75, a', b', c', d']) ?_ hmem
      ((utf8_length _).trans (by simp)) ih
    simp [ha.2.1, hb.2.1, hc.2.1, hd.2.1, ha'.2.1, hb'.2.1, hc'.2.1, hd'.2.1]

/-- a text that looks like the string it stands for, up to the quotation mark after either, is it -/
theorem Chars.of_raw {r r' : List UInt8} (h : Chars t s) (heq : s ++ 0x22 :: r = t ++ 0x22 :: r') :
    s = t ∧ r = r' ∧ ∀ c ∈ s, IsLetter c := by
  obtain ⟨hle, hsame⟩ := h.length_le
  have hpre : s <+: t ++ 0x22 :: r' := heq ▸ prefix_append _ _
  obtain ⟨u, rfl⟩ := prefix_of_prefix_length_le hpre (prefix_append _ _) hle
  cases u with
  | nil =>
    rw [append_nil] at heq hsame ⊢
    exact ⟨rfl, (cons.inj (append_cancel_left heq)).2, (hsame rfl).2⟩
  | cons c u =>
    exfalso
    rw [append_assoc, append_cancel_left_eq, cons_append] at heq
    obtain ⟨rfl, -⟩ := cons.inj heq
    have hmem : 0x22 ∈ s ++ 0x22 :: u := by simp
    have hlt := h.quote_earlier hmem
    rw [idxOf_append] at hlt
    split_ifs at hlt with hs
    · exact lt_irrefl _ hlt
    · rw [idxOf_eq_length_iff.2 hs, idxOf_cons_self] at hlt
      omega

/-- the letters of a string up to the quotation mark that ends it -/
def closing : List UInt8 → Option (List UInt8 × List UInt8)
  | [] => .none
  | c :: t =>
    if c = 0x22 then some ([], t)
    else if c = 0x5c then
      match t with
      | [] => .none
      | e :: t => (closing t).map fun r => (c :: e :: r.1, r.2)
    else (closing t).map fun r => (c :: r.1, r.2)

theorem closing_letter (h : c ≠ 0x22 ∧ c ≠ 0x5c) (t : List UInt8) :
    closing (c :: t) = (closing t).map fun r => (c :: r.1, r.2) := by
  rw [closing.eq_def]
  simp only [h.1, h.2, if_false]

theorem closing_escape (e : UInt8) (t : List UInt8) :
    closing (0x5c :: e :: t) = (closing t).map fun r => (0x5c :: e :: r.1, r.2) := rfl

theorem Chars.closing (h : Chars t s) (r : List UInt8) : Rfc8259.closing (t ++ 0x22 :: r) = some (t, r) := by
  induction h with
  | nil =>
    rw [nil_append, Rfc8259.closing.eq_def]
    exact if_pos rfl
  | plain _ hquote hslash _ ih => rw [cons_append, closing_letter ⟨hquote, hslash⟩, ih]; rfl
  | escape _ _ ih => rw [cons_append, cons_append, closing_escape, ih]; rfl
  | unicode hn _ _ ih =>
    obtain ⟨ha, hb, hc, hd⟩ := hex4_letters hn
    simp only [cons_append, closing_escape, closing_letter ha.2, closing_letter hb.2, closing_letter hc.2,
      closing_letter hd.2, ih, Option.map_some]
  | pair hn hn' _ _ _ ih =>
    obtain ⟨ha, hb, hc, hd⟩ := hex4_letters hn
    obtain ⟨ha', hb', hc', hd'⟩ := hex4_letters hn'
    simp only [cons_append, closing_escape, closing_letter ha.2, closing_letter hb.2, closing_letter hc.2,
      closing_letter hd.2, closing_letter ha'.2, closing_letter hb'.2, closing_letter hc'.2, closing_letter hd'.2, ih,
      Option.map_some]

theorem Text.num_inv {q : ℚ} (h : Text (.num q) t) : ∀ c ∈ t, IsNumeric c := by
  generalize hv : Tree.num q = v at h
  cases h with
  | num n => exact n.numeric
  | _ => cases hv

theorem Text.arr_inv {l : Tree .items} (h : Text (.arr l) t) : (l = .nil ∧ ∃ w, Ws w ∧ t = 0x5b :: w ++ [0x5d]) ∨
    ∃ w u w', Ws w ∧ Text l u ∧ Ws w' ∧ t = 0x5b :: w ++ u ++ w' ++ [0x5d] := by
  cases h with
  | arrNil hw => exact .inl ⟨rfl, _, hw, rfl⟩
  | arr hw h hw' => exact .inr ⟨_, _, _, hw, h, hw', rfl⟩

theorem Text.obj_inv {l : Tree .members} (h : Text (.obj l) t) : (l = .none ∧ ∃ w, Ws w ∧ t = 0x7b :: w ++ [0x7d]) ∨
    ∃ w u w', Ws w ∧ Text l u ∧ Ws w' ∧ t = 0x7b :: w ++ u ++ w' ++ [0x7d] := by
  cases h with
  | objNone hw => exact .inl ⟨rfl, _, hw, rfl⟩
  | obj hw h hw' => exact .inr ⟨_, _, _, hw, h, hw', rfl⟩

theorem Text.cons_inv {v : Tree .value} {l : Tree .items} (h : Text (.cons v l) t) : (l = .nil ∧ Text v t) ∨
    ∃ u w w' u', Text v u ∧ Ws w ∧ Ws w' ∧ Text l u' ∧ t = u ++ w ++ 0x2c :: w' ++ u' := by
  cases h with
  | item h => exact .inl ⟨rfl, h⟩
  | items h hw hw' h' => exact .inr ⟨_, _, _, _, h, hw, hw', h', rfl⟩

theorem Text.member_inv {key : List UInt8} {v : Tree .value} {l : Tree .members} (h : Text (.member key v l) t) :
    ∃ k w w' u rest, Chars k key ∧ Ws w ∧ Ws w' ∧ Text v u ∧ t = 0x22 :: k ++ 0x22 :: w ++ 0x3a :: w' ++ u ++ rest ∧
      ((l = .none ∧ rest = []) ∨ ∃ w w' u', Ws w ∧ Ws w' ∧ Text l u' ∧ rest = w ++ 0x2c :: w' ++ u') := by
  cases h with
  | member hk hw hw' h => exact ⟨_, _, _, _, [], hk, hw, hw', h, by simp, .inl ⟨rfl, rfl⟩⟩
  | members hk hw hw' h hw₁ hw₁' h' =>
    exact ⟨_, _, _, _, _, hk, hw, hw', h, by simp, .inr ⟨_, _, _, hw₁, hw₁', h', rfl⟩⟩

theorem not_text_nil : ¬ Text (.nil : Tree .items) t := by
  intro h
  cases h

theorem not_text_none : ¬ Text (.none : Tree .members) t := by
  intro h
  cases h

end Rfc8259

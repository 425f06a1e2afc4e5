import Alpine.Sanity.VersionKey

/-! The language of versions. `apk_version_validate` accepts the byte strings of the documented
form `number{.number}...{letter}{_suffix{number}}...{~hash}{-r#}` and no others. What may
follow a token depends on its kind alone, so the form is cut into one language for each
kind, and `tokenNext` takes the language of a kind to that of the next one. -/

namespace Alpine

open List Token

def IsNumber (n : Bytes) : Prop := n ≠ [] ∧ ∀ c ∈ n, asc '0' ≤ c ∧ c ≤ asc '9'

def IsHash (h : Bytes) : Prop :=
  h ≠ [] ∧ ∀ c ∈ h, (asc '0' ≤ c ∧ c ≤ asc '9') ∨ (asc 'a' ≤ c ∧ c ≤ asc 'f')

/-- the parts of a version as the manual lists them -/
structure VersionParts where
  first : Bytes
  more : List Bytes
  letter : Option UInt8
  suffixes : List (Suffix × Bytes)
  hash : Option Bytes
  revision : Option Bytes
  first_ok : IsNumber first
  more_ok : ∀ n ∈ more, IsNumber n
  letter_ok : ∀ c ∈ letter, asc 'a' ≤ c ∧ c ≤ asc 'z'
  suffixes_ok : ∀ p ∈ suffixes, p.1 ≠ .invalid ∧ p.1 ≠ .none ∧ (p.2 = [] ∨ IsNumber p.2)
  hash_ok : ∀ h ∈ hash, IsHash h
  revision_ok : ∀ n ∈ revision, IsNumber n

def revisionText (r : Option Bytes) : Bytes := r.elim [] fun n => asc '-' :: asc 'r' :: n

def hashText (h : Option Bytes) : Bytes := h.elim [] fun h => asc '~' :: h

def suffixesText (l : List (Suffix × Bytes)) : Bytes :=
  l.flatMap fun p => asc '_' :: (p.1.text ++ p.2)

def numbersText (l : List Bytes) : Bytes := l.flatMap fun n => asc '.' :: n

def VersionParts.text (p : VersionParts) : Bytes :=
  p.first ++ (numbersText p.more ++ (p.letter.toList ++ (suffixesText p.suffixes ++
    (hashText p.hash ++ revisionText p.revision))))

inductive RevPart : Bytes → Prop
  | none : RevPart []
  | rev {n : Bytes} : IsNumber n → RevPart (asc '-' :: asc 'r' :: n)

inductive HashPart : Bytes → Prop
  | rev {b : Bytes} : RevPart b → HashPart b
  | hash {h r : Bytes} : IsHash h → RevPart r → HashPart (asc '~' :: (h ++ r))

inductive SufPart : Bytes → Prop
  | hash {b : Bytes} : HashPart b → SufPart b
  | suffix {s : Suffix} {n r : Bytes} : s ≠ .invalid → s ≠ .none → (n = [] ∨ IsNumber n) →
      SufPart r → SufPart (asc '_' :: (s.text ++ (n ++ r)))

inductive DotPart : Bytes → Prop
  | suf {b : Bytes} : SufPart b → DotPart b
  | letter {c : UInt8} {r : Bytes} : asc 'a' ≤ c ∧ c ≤ asc 'z' → SufPart r → DotPart (c :: r)
  | dot {n r : Bytes} : IsNumber n → DotPart r → DotPart (asc '.' :: (n ++ r))

open DotPart RevPart SufPart

/-- the bytes that may follow a token of a kind -/
def Follows : Token → Bytes → Prop
  | .initialDigit, b => DotPart b
  | .digit, b => DotPart b
  | .letter, b => SufPart b
  | .suffix, b => ∃ n r, (n = [] ∨ IsNumber n) ∧ SufPart r ∧ b = n ++ r
  | .suffixNo, b => SufPart b
  | .commitHash, b => RevPart b
  | .revisionNo, b => b = []
  | .tokenEnd, _ => True
  | .invalid, _ => False

variable (t : TokenState) {c : UInt8} {r : Bytes}

theorem RevPart.cases_head (h : RevPart (c :: r)) : c = asc '-' ∧ ∃ n, IsNumber n ∧ r = asc 'r' :: n := by
  cases h with
  | rev hn => exact ⟨rfl, _, hn, rfl⟩

theorem HashPart.cases_head (h : HashPart (c :: r)) :
    RevPart (c :: r) ∨ c = asc '~' ∧ ∃ h r', IsHash h ∧ RevPart r' ∧ r = h ++ r' := by
  cases h with
  | rev h => exact Or.inl h
  | hash hh hr => exact Or.inr ⟨rfl, _, _, hh, hr, rfl⟩

theorem SufPart.cases_head (h : SufPart (c :: r)) :
    HashPart (c :: r) ∨ c = asc '_' ∧ ∃ (s : Suffix) (n r' : Bytes), s ≠ .invalid ∧ s ≠ .none ∧
      (n = [] ∨ IsNumber n) ∧ SufPart r' ∧ r = s.text ++ (n ++ r') := by
  cases h with
  | hash h => exact Or.inl h
  | suffix h1 h2 hn hr => exact Or.inr ⟨rfl, _, _, _, h1, h2, hn, hr, rfl⟩

theorem DotPart.cases_head (h : DotPart (c :: r)) :
    SufPart (c :: r) ∨ (asc 'a' ≤ c ∧ c ≤ asc 'z') ∧ SufPart r ∨
      c = asc '.' ∧ ∃ n r', IsNumber n ∧ DotPart r' ∧ r = n ++ r' := by
  cases h with
  | suf h => exact Or.inl h
  | letter hc hr => exact Or.inr (Or.inl ⟨hc, hr⟩)
  | dot hn hr => exact Or.inr (Or.inr ⟨rfl, _, _, hn, hr, rfl⟩)

theorem RevPart.head (h : RevPart (c :: r)) : c = asc '-' := h.cases_head.1

theorem HashPart.head (h : HashPart (c :: r)) : c = asc '-' ∨ c = asc '~' := by
  rcases h.cases_head with h | ⟨rfl, -⟩
  · exact Or.inl h.head
  · exact Or.inr rfl

theorem SufPart.head (h : SufPart (c :: r)) : c = asc '-' ∨ c = asc '~' ∨ c = asc '_' := by
  rcases h.cases_head with h | ⟨rfl, -⟩
  · exact h.head.imp_right Or.inl
  · exact Or.inr (Or.inr rfl)

variable {b : Bytes} {k : Token} {p : UInt8 → Bool} {s : Suffix}

theorem sufPart_no_run (hp : p (asc '-') = false ∧ p (asc '~') = false ∧ p (asc '_') = false)
    (h : SufPart r) : r.takeWhile p = [] := by
  cases r with
  | nil => rfl
  | cons c r =>
    apply takeWhile_cons_of_neg
    rcases h.head with rfl | rfl | rfl
    · rw [hp.1]; exact Bool.false_ne_true
    · rw [hp.2.1]; exact Bool.false_ne_true
    · rw [hp.2.2]; exact Bool.false_ne_true

theorem revPart_no_run (h : RevPart r) : r.takeWhile (apkCtype .hexdigit) = [] := by
  cases r with
  | nil => rfl
  | cons c r =>
    rw [h.head]
    exact takeWhile_cons_of_neg (by decide)

theorem dotPart_no_digit (h : DotPart r) : r.takeWhile isDigit = [] := by
  cases r with
  | nil => rfl
  | cons c r =>
    rcases h.cases_head with h | ⟨hc, -⟩ | ⟨rfl, -⟩
    · exact sufPart_no_run (by decide) h
    · apply takeWhile_cons_of_neg
      rw [isDigit_iff]
      have ha : (97 : ℕ) ≤ c.toNat := UInt8.le_iff_toNat_le.1 hc.1
      omega
    · exact takeWhile_cons_of_neg (by decide)

theorem isNumber_iff {n : Bytes} : IsNumber n ↔ n ≠ [] ∧ ∀ c ∈ n, isDigit c = true := by
  simp [IsNumber, isDigit]

theorem isHash_iff {h : Bytes} : IsHash h ↔ h ≠ [] ∧ ∀ c ∈ h, apkCtype .hexdigit c = true := by
  simp [IsHash, apkCtype]

theorem takeWhile_all : ∀ c ∈ b.takeWhile p, p c = true :=
  fun _ hc => mem_takeWhile_imp hc

theorem number_split {P : Bytes → Prop} (hP : ∀ r, P r → r.takeWhile isDigit = []) (b : Bytes) :
    (∃ n r, IsNumber n ∧ P r ∧ b = n ++ r) ↔ b.takeWhile isDigit ≠ [] ∧ P (b.dropWhile isDigit) := by
  constructor
  · rintro ⟨n, r, hn, hr, rfl⟩
    obtain ⟨h1, h2⟩ := takeWhile_append_run (isNumber_iff.1 hn).2 (hP r hr)
    rw [h1, h2]
    exact ⟨hn.1, hr⟩
  · rintro ⟨h1, h2⟩
    exact ⟨_, _, isNumber_iff.2 ⟨h1, takeWhile_all⟩, h2, takeWhile_append_dropWhile.symm⟩

theorem hash_split : (∃ h r, IsHash h ∧ RevPart r ∧ b = h ++ r) ↔
      b.takeWhile (apkCtype .hexdigit) ≠ [] ∧ RevPart (b.dropWhile (apkCtype .hexdigit)) := by
  constructor
  · rintro ⟨h, r, hh, hr, rfl⟩
    obtain ⟨h1, h2⟩ := takeWhile_append_run (isHash_iff.1 hh).2 (revPart_no_run hr)
    rw [h1, h2]
    exact ⟨hh.1, hr⟩
  · rintro ⟨h1, h2⟩
    exact ⟨_, _, isHash_iff.2 ⟨h1, takeWhile_all⟩, h2, takeWhile_append_dropWhile.symm⟩

theorem suffix_text_lower : ∀ c ∈ s.text, apkCtype .versionSuffix c = true := by
  cases s <;> decide +kernel

theorem suffixValue_text (h1 : s ≠ .invalid) (h2 : s ≠ .none) : suffixValue s.text = s := by
  cases s <;> first | rfl | exact absurd rfl h1 | exact absurd rfl h2

theorem suffixValue_known {w : Bytes} (h : suffixValue w ≠ .invalid) :
    suffixValue w ≠ .none ∧ w = (suffixValue w).text := by
  unfold suffixValue at h ⊢
  cases w with
  | nil => exact absurd rfl h
  | cons c rest =>
    simp only at h ⊢
    generalize hv : (if c = asc 'a' then Suffix.alpha
      else if c = asc 'b' then .beta
      else if c = asc 'c' then .cvs
      else if c = asc 'g' then .git
      else if c = asc 'h' then .hg
      else if c = asc 'p' then (if rest = [] then .p else .pre)
      else if c = asc 'r' then .rc
      else if c = asc 's' then .svn
      else .invalid) = val at h ⊢
    have hnone : val ≠ .none := by
      rw [← hv]
      split_ifs <;> decide
    by_cases hi : val = .invalid
    · rw [if_pos hi] at h
      exact absurd rfl h
    rw [if_neg hi] at h ⊢
    by_cases hc : apkBlobCompare (c :: rest) val.text = 0
    · rw [if_neg (not_not.2 hc)]
      exact ⟨hnone, apkBlobCompare_eq_zero hc⟩
    · rw [if_pos hc] at h
      exact absurd rfl h

theorem suffix_follows (hc : isDigit c = false) : Follows .suffix (c :: r) ↔ SufPart (c :: r) := by
  constructor
  · rintro ⟨n, r', rfl | hn, hr, hb⟩
    · rw [hb]
      exact hr
    obtain ⟨hne, hall⟩ := isNumber_iff.1 hn
    cases n with
    | nil => exact absurd rfl hne
    | cons d n =>
      obtain ⟨rfl, -⟩ := cons.inj hb
      rw [hall c (by simp)] at hc
      simp at hc
  · intro h
    exact ⟨[], c :: r, Or.inl rfl, h, rfl⟩

theorem follows_suf (hk : k.toNat ≤ suffixNo.toNat) (hd : isDigit c = false)
    (hl : ¬ (asc 'a' ≤ c ∧ c ≤ asc 'z')) (hp : c ≠ asc '.') :
    Follows k (c :: r) ↔ SufPart (c :: r) := by
  have hdot : DotPart (c :: r) ↔ SufPart (c :: r) := by
    constructor
    · intro h
      rcases h.cases_head with h | ⟨hc, -⟩ | ⟨hc, -⟩
      · exact h
      · exact absurd hc hl
      · exact absurd hc hp
    · exact suf
  cases k with
  | initialDigit | digit => exact hdot
  | letter => exact Iff.rfl
  | suffix => exact suffix_follows hd
  | suffixNo => exact Iff.rfl
  | commitHash | revisionNo | tokenEnd | invalid => exact absurd hk (by decide)

theorem suffix_split :
    (∃ (s : Suffix) (n r : Bytes), s ≠ .invalid ∧ s ≠ .none ∧ (n = [] ∨ IsNumber n) ∧ SufPart r ∧
      b = s.text ++ (n ++ r)) ↔
      suffixValue (b.takeWhile (apkCtype .versionSuffix)) ≠ .invalid ∧
        Follows .suffix (b.dropWhile (apkCtype .versionSuffix)) := by
  constructor
  · rintro ⟨s, n, r, h1, h2, hn, hr, rfl⟩
    have hrun : (n ++ r).takeWhile (apkCtype .versionSuffix) = [] := by
      rcases hn with rfl | hn
      · exact sufPart_no_run (by decide) hr
      obtain ⟨hne, hall⟩ := isNumber_iff.1 hn
      cases n with
      | nil => exact absurd rfl hne
      | cons d n =>
        have hd := isDigit_iff.1 (hall d (by simp))
        apply takeWhile_cons_of_neg
        simp only [apkCtype, decide_eq_true_eq, not_and]
        intro ha
        have ha' : (97 : ℕ) ≤ d.toNat := ha
        omega
    obtain ⟨ht, hd⟩ := takeWhile_append_run suffix_text_lower hrun
    rw [ht, hd, suffixValue_text h1 h2]
    exact ⟨h1, n, r, hn, hr, rfl⟩
  rintro ⟨hs, n, r, hn, hr, hb⟩
  obtain ⟨hnone, htext⟩ := suffixValue_known hs
  refine ⟨_, n, r, hs, hnone, hn, hr, ?_⟩
  rw [← htext, ← hb]
  exact takeWhile_append_dropWhile.symm

theorem sufPart_underscore :
    SufPart (asc '_' :: r) ↔ suffixValue (r.takeWhile (apkCtype .versionSuffix)) ≠ .invalid ∧
      Follows .suffix (r.dropWhile (apkCtype .versionSuffix)) := by
  rw [← suffix_split]
  constructor
  · intro h
    rcases h.cases_head with h | ⟨-, h⟩
    · rcases h.head with h | h <;> exact absurd h (by decide)
    · exact h
  · rintro ⟨s, n, r', h1, h2, hn, hr, rfl⟩
    exact suffix h1 h2 hn hr

theorem sufPart_tilde : SufPart (asc '~' :: r) ↔ r.takeWhile (apkCtype .hexdigit) ≠ [] ∧
      RevPart (r.dropWhile (apkCtype .hexdigit)) := by
  rw [← hash_split]
  constructor
  · intro h
    rcases h.cases_head with h | ⟨h, -⟩
    · rcases h.cases_head with h | ⟨-, h⟩
      · exact absurd h.head (by decide)
      · exact h
    · exact absurd h (by decide)
  · rintro ⟨h, r', hh, hr, rfl⟩
    exact hash (HashPart.hash hh hr)

theorem sufPart_dash : SufPart (asc '-' :: r) ↔ RevPart (asc '-' :: r) := by
  constructor
  · intro h
    rcases h.cases_head with h | ⟨h, -⟩
    · rcases h.cases_head with h | ⟨h, -⟩
      · exact h
      · exact absurd h (by decide)
    · exact absurd h (by decide)
  · exact fun h => hash (HashPart.rev h)

theorem revPart_dash : RevPart (asc '-' :: r) ↔ ∃ r', r = asc 'r' :: r' ∧ r'.takeWhile isDigit ≠ [] ∧
      r'.dropWhile isDigit = [] := by
  constructor
  · intro h
    obtain ⟨-, n, hn, rfl⟩ := h.cases_head
    obtain ⟨h1, h2⟩ := takeWhile_append_run (r := []) (isNumber_iff.1 hn).2 rfl
    rw [append_nil] at h1 h2
    exact ⟨n, rfl, by rw [h1]; exact hn.1, h2⟩
  rintro ⟨r', rfl, h1, h2⟩
  apply rev
  rw [isNumber_iff]
  have hall : r'.takeWhile isDigit = r' := by
    have := takeWhile_append_dropWhile (p := isDigit) (l := r')
    rwa [h2, append_nil] at this
  refine ⟨fun hn => h1 (by rw [hn]; rfl), fun c hc => ?_⟩
  rw [← hall] at hc
  exact mem_takeWhile_imp hc

theorem follows_rank (hlt : k.toNat < tokenEnd.toNat) (hk : suffixNo.toNat < k.toNat)
    (h : Follows k (c :: r)) : k = .commitHash ∧ c = asc '-' := by
  cases k with
  | commitHash => exact ⟨rfl, head h⟩
  | revisionNo => exact absurd h (by simp [Follows])
  | tokenEnd | invalid => exact absurd hlt (by decide)
  | initialDigit | digit | letter | suffix | suffixNo => exact absurd hk (by decide)

theorem isDigit_not_lower (h : isDigit c = true) : ¬ (asc 'a' ≤ c ∧ c ≤ asc 'z') := by
  rintro ⟨ha, -⟩
  have h1 : (97 : ℕ) ≤ c.toNat := UInt8.le_iff_toNat_le.1 ha
  have h2 := (isDigit_iff.1 h).2
  omega

theorem lower_not_digit (h : asc 'a' ≤ c ∧ c ≤ asc 'z') : isDigit c = false := by
  by_contra hd
  exact isDigit_not_lower (Bool.not_eq_false _ ▸ hd) h

theorem follows_dot (hk : k.toNat ≤ digit.toNat) : Follows k b ↔ DotPart b := by
  cases k with
  | initialDigit | digit => exact Iff.rfl
  | letter | suffix | suffixNo | commitHash | revisionNo | tokenEnd | invalid => exact absurd hk (by decide)

theorem not_follows (hlt : k.toNat < tokenEnd.toNat) (hk : digit.toNat < k.toNat)
    (hsuf : ¬ SufPart (c :: r)) (hdash : c ≠ asc '-') (hd : k ≠ .suffix ∨ isDigit c = false) :
    ¬ Follows k (c :: r) := by
  intro h
  cases k with
  | letter | suffixNo => exact hsuf h
  | suffix => exact hsuf ((suffix_follows (hd.resolve_left fun hne => hne rfl)).1 h)
  | commitHash => exact hdash (head h)
  | revisionNo => exact absurd h (by simp [Follows])
  | initialDigit | digit => exact absurd hk (by decide)
  | tokenEnd | invalid => exact absurd hlt (by decide)

theorem next_letter (hc : asc 'a' ≤ c ∧ c ≤ asc 'z') (hlt : t.token.toNat < tokenEnd.toNat) :
    Follows t.token (c :: r) ↔ Follows (tokenNext t (c :: r)).1.token (tokenNext t (c :: r)).2 := by
  have hne : ∀ {x : UInt8}, ¬ (asc 'a' ≤ x ∧ x ≤ asc 'z') → c ≠ x := fun hx he => hx (he ▸ hc)
  have hsuf : ¬ SufPart (c :: r) := by
    intro h
    rcases h.head with h | h | h <;> exact absurd h (hne (by decide))
  unfold tokenNext
  simp only [if_pos hc]
  by_cases hk : digit.toNat < t.token.toNat
  · rw [if_pos hk]
    exact ⟨not_follows hlt hk hsuf (hne (by decide)) (Or.inr (lower_not_digit hc)), False.elim⟩
  rw [if_neg hk, follows_dot (not_lt.1 hk)]
  constructor
  · intro h
    rcases cases_head h with h | ⟨-, h⟩ | ⟨h, -⟩
    · exact absurd h hsuf
    · exact h
    · exact absurd h (hne (by decide))
  · exact fun h => letter hc h

theorem follows_parseDigits (b : Bytes) :
    Follows (tokenParseDigits t b).1.token (tokenParseDigits t b).2 ↔
      b.takeWhile isDigit ≠ [] ∧ Follows t.token (b.dropWhile isDigit) := by
  rw [tokenParseDigits_eq]
  by_cases h : b.takeWhile isDigit = []
  · simp [h, Follows]
  · simp [h]

theorem next_dot (hlt : t.token.toNat < tokenEnd.toNat) : Follows t.token (asc '.' :: r) ↔
      Follows (tokenNext t (asc '.' :: r)).1.token (tokenNext t (asc '.' :: r)).2 := by
  have hsuf : ¬ SufPart (asc '.' :: r) := by
    intro h
    rcases h.head with h | h | h <;> exact absurd h (by decide)
  have hdot : DotPart (asc '.' :: r) ↔ r.takeWhile isDigit ≠ [] ∧ DotPart (r.dropWhile isDigit) := by
    rw [← number_split fun _ => dotPart_no_digit]
    constructor
    · intro h
      rcases h.cases_head with h | ⟨h, -⟩ | ⟨-, h⟩
      · exact absurd h hsuf
      · exact absurd h (by decide)
      · exact h
    · rintro ⟨n, r', hn, hr, rfl⟩
      exact DotPart.dot hn hr
  unfold tokenNext
  simp only
  rw [if_neg (by decide), if_pos trivial]
  by_cases hk : digit.toNat < t.token.toNat
  · rw [if_pos hk]
    exact ⟨not_follows hlt hk hsuf (by decide) (Or.inr (by decide)), False.elim⟩
  rw [if_neg hk, follows_dot (not_lt.1 hk), hdot]
  cases hk' : t.token with
  | initialDigit | digit =>
    simp only [tokenNumber, hk']
    rw [follows_parseDigits]
    exact Iff.rfl
  | letter | suffix | suffixNo | commitHash | revisionNo | tokenEnd | invalid =>
    rw [hk'] at hk
    exact absurd (by decide) hk

theorem next_digit (hc : isDigit c = true) (hlt : t.token.toNat < tokenEnd.toNat)
    (hmax : digit.toNat < t.token.toNat) :
    Follows t.token (c :: r) ↔ Follows (tokenNext t (c :: r)).1.token (tokenNext t (c :: r)).2 := by
  have hd : asc '0' ≤ c ∧ c ≤ asc '9' := by simpa [isDigit] using hc
  have hp : c ≠ asc '.' := fun he => absurd (he ▸ hc) (by decide)
  have hsuf : ¬ SufPart (c :: r) := by
    intro h
    have hrun := sufPart_no_run (p := isDigit) (by decide) h
    rw [takeWhile_cons_of_pos hc] at hrun
    simp at hrun
  unfold tokenNext
  simp only
  rw [if_neg (isDigit_not_lower hc), if_neg hp, if_pos hd]
  by_cases hs : t.token = .suffix
  · simp only [tokenNumber, hs]
    rw [follows_parseDigits]
    have hsplit := number_split (P := SufPart) (fun r h => sufPart_no_run (p := isDigit) (by decide) h)
      (c :: r)
    constructor
    · rintro ⟨n, r', rfl | hn, hr, hb⟩
      · exact absurd (hb ▸ hr) hsuf
      · exact hsplit.1 ⟨n, r', hn, hr, hb⟩
    · intro h
      obtain ⟨n, r', hn, hr, hb⟩ := hsplit.2 h
      exact ⟨n, r', Or.inr hn, hr, hb⟩
  refine ⟨fun h => absurd h (not_follows hlt hmax hsuf ?_ (Or.inl hs)), fun h => ?_⟩
  · rintro rfl
    exact absurd hc (by decide)
  cases hk : t.token with
  | letter | suffixNo | commitHash | revisionNo =>
    simp only [tokenNumber, hk] at h
    exact h.elim
  | suffix => exact absurd hk hs
  | initialDigit | digit => rw [hk] at hmax; exact absurd hmax (by decide)
  | tokenEnd | invalid => rw [hk] at hlt; exact absurd hlt (by decide)

theorem next_underscore (hlt : t.token.toNat < tokenEnd.toNat) : Follows t.token (asc '_' :: r) ↔
      Follows (tokenNext t (asc '_' :: r)).1.token (tokenNext t (asc '_' :: r)).2 := by
  unfold tokenNext
  simp only
  rw [if_neg (by decide), if_neg (by decide), if_neg (by decide), if_pos trivial]
  by_cases hk : suffixNo.toNat < t.token.toNat
  · rw [if_pos hk]
    exact ⟨fun h => absurd (follows_rank hlt hk h).2 (by decide), False.elim⟩
  rw [follows_suf (not_lt.1 hk) (by decide) (by decide) (by decide), sufPart_underscore]
  split_ifs with hs
  · exact ⟨fun h => h.1 hs, False.elim⟩
  · exact ⟨fun h => h.2, fun h => ⟨hs, h⟩⟩

theorem next_tilde (hlt : t.token.toNat < tokenEnd.toNat) : Follows t.token (asc '~' :: r) ↔
      Follows (tokenNext t (asc '~' :: r)).1.token (tokenNext t (asc '~' :: r)).2 := by
  unfold tokenNext
  simp only
  rw [if_neg (by decide), if_neg (by decide), if_neg (by decide), if_neg (by decide), if_pos trivial]
  by_cases hk : commitHash.toNat ≤ t.token.toNat
  · rw [if_pos hk]
    exact ⟨fun h => absurd (follows_rank hlt hk h).2 (by decide), False.elim⟩
  have hle : t.token.toNat ≤ suffixNo.toNat := Nat.lt_succ_iff.1 (not_le.1 hk)
  rw [follows_suf hle (by decide) (by decide) (by decide), sufPart_tilde]
  split_ifs with hs
  · exact ⟨fun h => h.1 (length_eq_zero_iff.1 hs), False.elim⟩
  · exact ⟨fun h => h.2, fun h => ⟨fun he => hs (length_eq_zero_iff.2 he), h⟩⟩

theorem pull_dash_r : apkBlobPullBlobMatch (asc '-' :: r) (ascs ['-', 'r']) =
      if r.head? = some (asc 'r') then some r.tail else none := by
  cases r with
  | nil => rfl
  | cons c r =>
    unfold apkBlobPullBlobMatch
    simp only [ascs, map_cons, map_nil, length_cons, length_nil, take_succ_cons, take_zero, memcmp]
    by_cases hc : c = asc 'r'
    · simp [hc]
    have hne : (c.toNat : ℤ) - (asc 'r').toNat ≠ 0 := by
      intro h0
      apply hc
      rw [← UInt8.toNat_inj]
      omega
    simp [hne]

theorem next_dash (hlt : t.token.toNat < tokenEnd.toNat) : Follows t.token (asc '-' :: r) ↔
      Follows (tokenNext t (asc '-' :: r)).1.token (tokenNext t (asc '-' :: r)).2 := by
  unfold tokenNext
  simp only
  rw [if_neg (by decide), if_neg (by decide), if_neg (by decide), if_neg (by decide),
    if_neg (by decide), if_pos trivial]
  by_cases hk : revisionNo.toNat ≤ t.token.toNat
  · rw [if_pos hk]
    have hlt' : suffixNo.toNat < t.token.toNat := lt_of_lt_of_le (by decide) hk
    refine ⟨fun h => ?_, False.elim⟩
    have hc := (follows_rank hlt hlt' h).1
    rw [hc] at hk
    exact absurd hk (by decide)
  have hrev : Follows t.token (asc '-' :: r) ↔ RevPart (asc '-' :: r) := by
    by_cases hs : t.token.toNat ≤ suffixNo.toNat
    · rw [follows_suf hs (by decide) (by decide) (by decide), sufPart_dash]
    have hc : t.token = .commitHash := toNat_inj (by
      have h1 : suffixNo.toNat = 4 := rfl
      have h2 : revisionNo.toNat = 6 := rfl
      have h3 : commitHash.toNat = 5 := rfl
      omega)
    rw [hc]
    exact Iff.rfl
  rw [if_neg hk, hrev, revPart_dash, pull_dash_r]
  cases r with
  | nil =>
    refine ⟨fun h => ?_, False.elim⟩
    simp at h
  | cons c r =>
    simp only [head?_cons, Option.some.injEq]
    by_cases hc : c = asc 'r'
    · rw [if_pos hc]
      rw [follows_parseDigits]
      constructor
      · rintro ⟨r', h, h1, h2⟩
        obtain ⟨-, rfl⟩ := cons.inj h
        exact ⟨h1, h2⟩
      · rintro ⟨h1, h2⟩
        exact ⟨r, by rw [hc], h1, h2⟩
    rw [if_neg hc]
    refine ⟨fun h => ?_, False.elim⟩
    obtain ⟨r', h, -⟩ := h
    exact hc (cons.inj h).1

/-- the tokenizer takes the language of one kind to that of the next -/
theorem follows_next (b : Bytes) (hlt : t.token.toNat < tokenEnd.toNat)
    (hmax : t.token.toNat ≤ digit.toNat → b.takeWhile isDigit = []) :
    Follows t.token b ↔ Follows (tokenNext t b).1.token (tokenNext t b).2 := by
  cases b with
  | nil =>
    refine ⟨fun _ => trivial, fun _ => ?_⟩
    have hsuf : SufPart [] := hash (HashPart.rev none)
    cases hk : t.token with
    | initialDigit | digit => exact suf hsuf
    | letter => exact hsuf
    | suffix => exact ⟨[], [], Or.inl rfl, hsuf, rfl⟩
    | suffixNo => exact hsuf
    | commitHash => exact none
    | revisionNo => rfl
    | tokenEnd | invalid => rw [hk] at hlt; exact absurd hlt (by decide)
  | cons c r =>
    by_cases hl : asc 'a' ≤ c ∧ c ≤ asc 'z'
    · exact next_letter t hl hlt
    by_cases hp : c = asc '.'
    · rw [hp]
      exact next_dot t hlt
    by_cases hd : isDigit c = true
    · refine next_digit t hd hlt (not_le.1 fun hle => ?_)
      have hrun := hmax hle
      rw [takeWhile_cons_of_pos hd] at hrun
      simp at hrun
    by_cases hu : c = asc '_'
    · rw [hu]
      exact next_underscore t hlt
    by_cases ht : c = asc '~'
    · rw [ht]
      exact next_tilde t hlt
    by_cases hm : c = asc '-'
    · rw [hm]
      exact next_dash t hlt
    -- no other byte can stand in a version
    have hd' : ¬ (asc '0' ≤ c ∧ c ≤ asc '9') := by simpa [isDigit] using hd
    unfold tokenNext
    simp only
    rw [if_neg hl, if_neg hp, if_neg hd', if_neg hu, if_neg ht, if_neg hm]
    refine ⟨fun h => ?_, False.elim⟩
    by_cases hk : t.token.toNat ≤ suffixNo.toNat
    · rw [follows_suf hk (by simpa using hd) hl hp] at h
      rcases h.head with h | h | h
      · exact hm h
      · exact ht h
      · exact hu h
    · exact hm (follows_rank hlt (not_le.1 hk) h).2

theorem validateLoop_iff {n : ℕ} (fuel : ℕ) (t : TokenState) (b : Bytes)
    (hok : t.token ≠ .invalid → TokenOk n t b) (hf : tokensLeft t b < fuel) :
    validateLoop fuel (t, b) = true ↔ Follows t.token b := by
  induction fuel generalizing t b with
  | zero => exact absurd hf (Nat.not_lt_zero _)
  | succ fuel ih =>
    unfold validateLoop
    by_cases hlt : t.token.toNat < tokenEnd.toNat
    · have hinv : t.token ≠ .invalid := by
        intro he
        rw [he] at hlt
        exact absurd hlt (by decide)
      have hk := hok hinv
      rw [if_pos hlt, follows_next t b hlt hk.maximal]
      exact ih _ _ (fun _ => tokenNext_ok hk)
        (lt_of_lt_of_le (tokensLeft_next hlt) (Nat.lt_succ_iff.1 hf))
    rw [if_neg hlt]
    cases hk : t.token with
    | tokenEnd | invalid => simp [Follows]
    | initialDigit | digit | letter | suffix | suffixNo | commitHash | revisionNo => rw [hk] at hlt; exact absurd (by decide) hlt

theorem revPart_iff :
    RevPart b ↔ ∃ rev : Option Bytes, (∀ n ∈ rev, IsNumber n) ∧ b = revisionText rev := by
  constructor
  · intro h
    cases h with
    | none => exact ⟨none, by simp, rfl⟩
    | @rev n hn => exact ⟨some n, by simpa using hn, rfl⟩
  rintro ⟨rev, hrev, rfl⟩
  cases rev with
  | none => exact none
  | some n => exact rev (hrev n rfl)

theorem hashPart_iff :
    HashPart b ↔ ∃ (hash : Option Bytes) (r : Bytes), (∀ h ∈ hash, IsHash h) ∧ RevPart r ∧
      b = hashText hash ++ r := by
  constructor
  · intro h
    cases h with
    | rev h => exact ⟨none, b, by simp, h, rfl⟩
    | @hash h r hh hr => exact ⟨some h, r, by simpa using hh, hr, rfl⟩
  rintro ⟨hash, r, hh, hr, rfl⟩
  cases hash with
  | none => exact HashPart.rev hr
  | some h => exact HashPart.hash (hh h rfl) hr

theorem sufPart_iff : SufPart b ↔ ∃ (l : List (Suffix × Bytes)) (r : Bytes),
      (∀ p ∈ l, p.1 ≠ .invalid ∧ p.1 ≠ .none ∧ (p.2 = [] ∨ IsNumber p.2)) ∧ HashPart r ∧
      b = suffixesText l ++ r := by
  constructor
  · intro h
    induction h with
    | hash h => exact ⟨[], _, by simp, h, rfl⟩
    | @suffix s n r h1 h2 hn _ ih =>
      obtain ⟨l, r', hl, hr', rfl⟩ := ih
      refine ⟨(s, n) :: l, r', ?_, hr', ?_⟩
      · rintro p hp
        rcases mem_cons.1 hp with rfl | hp
        · exact ⟨h1, h2, hn⟩
        · exact hl p hp
      · simp [suffixesText]
  rintro ⟨l, r, hl, hr, rfl⟩
  induction l with
  | nil => exact hash hr
  | cons p l ih =>
    obtain ⟨h1, h2, hn⟩ := hl p (by simp)
    have hstep := suffix h1 h2 hn (ih fun q hq => hl q (by simp [hq]))
    simpa [suffixesText] using hstep

theorem dotPart_iff :
    DotPart b ↔ ∃ (l : List Bytes) (letter : Option UInt8) (r : Bytes), (∀ n ∈ l, IsNumber n) ∧
      (∀ c ∈ letter, asc 'a' ≤ c ∧ c ≤ asc 'z') ∧ SufPart r ∧
      b = numbersText l ++ (letter.toList ++ r) := by
  constructor
  · intro h
    induction h with
    | suf h => exact ⟨[], none, _, by simp, by simp, h, rfl⟩
    | @letter c r hc hr => exact ⟨[], some c, r, by simp, by simpa using hc, hr, rfl⟩
    | @dot n r hn _ ih =>
      obtain ⟨l, letter, r', hl, hc, hr', rfl⟩ := ih
      refine ⟨n :: l, letter, r', ?_, hc, hr', ?_⟩
      · intro m hm
        rcases mem_cons.1 hm with rfl | hm
        · exact hn
        · exact hl m hm
      · simp [numbersText]
  rintro ⟨l, letter, r, hl, hc, hr, rfl⟩
  induction l with
  | nil =>
    cases letter with
    | none => exact suf hr
    | some c => exact DotPart.letter (hc c rfl) hr
  | cons n l ih =>
    have hstep := DotPart.dot (hl n (by simp)) (ih fun m hm => hl m (by simp [hm]))
    simpa [numbersText] using hstep

theorem apkVersionValidate_iff {v : Bytes} :
    apkVersionValidate v = true ↔ ∃ n r, IsNumber n ∧ DotPart r ∧ v = n ++ r := by
  have hloop := validateLoop_iff (v.length + 1) (tokenFirst v).1 (tokenFirst v).2 (tokenFirst_ok v)
    (tokensLeft_first v)
  rw [apkVersionValidate, hloop, tokenFirst, follows_parseDigits]
  exact (number_split (fun _ => dotPart_no_digit) v).symm

/-- the accepted byte strings are the documented versions -/
theorem version_validate_grammar (v : Bytes) :
    apkVersionValidate v = true ↔ ∃ p : VersionParts, p.text = v := by
  rw [apkVersionValidate_iff]
  constructor
  · rintro ⟨n, r, hn, hr, rfl⟩
    obtain ⟨more, letter, r1, hmore, hletter, hr1, rfl⟩ := dotPart_iff.1 hr
    obtain ⟨sufs, r2, hsufs, hr2, rfl⟩ := sufPart_iff.1 hr1
    obtain ⟨hash, r3, hhash, hr3, rfl⟩ := hashPart_iff.1 hr2
    obtain ⟨rev, hrev, rfl⟩ := revPart_iff.1 hr3
    exact ⟨⟨n, more, letter, sufs, hash, rev, hn, hmore, hletter, hsufs, hhash, hrev⟩, rfl⟩
  rintro ⟨p, rfl⟩
  have hrev : RevPart (revisionText p.revision) := revPart_iff.2 ⟨_, p.revision_ok, rfl⟩
  have hhash := hashPart_iff.2 ⟨_, _, p.hash_ok, hrev, rfl⟩
  have hsuf := sufPart_iff.2 ⟨_, _, p.suffixes_ok, hhash, rfl⟩
  have hdot := dotPart_iff.2 ⟨_, _, _, p.more_ok, p.letter_ok, hsuf, rfl⟩
  exact ⟨p.first, _, p.first_ok, hdot, rfl⟩

end Alpine

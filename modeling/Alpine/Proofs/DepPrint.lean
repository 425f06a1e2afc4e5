import Alpine.Sanity.DepText
import Alpine.Sanity.FdbLines

/-! A dependency is printed and read again. What comes back is told from what was printed by three
things: a name ends at its first zero byte, an operator that allows every order has no text of its
own, and a tag that starts with two `@` is read as the tag without the first. -/

namespace Alpine

open List DepParts

structure MarkedTags (tags : List Bytes) : Prop where
  default : 0 < tags.length
  room : tags.length ≤ 16
  marked : ∀ t ∈ tags.drop 1, t.head? = some (asc '@')

def fullTag (tag : Bytes) : Bytes := if tag.head? = some (asc '@') then tag else asc '@' :: tag

variable {tags : List Bytes} {b tag : Bytes} {c : UInt8}

theorem apkDbGetTagId_congr {a : Bytes} (h : fullTag a = fullTag b) :
    apkDbGetTagId tags a = apkDbGetTagId tags b := by
  unfold fullTag at h
  unfold apkDbGetTagId
  simp [h]

/-- the entry of a tag, or the next one if there is room -/
theorem apkDbGetTagId_eq (tags : List Bytes) (tag : Bytes) : apkDbGetTagId tags tag =
    ((tags.drop 1).findIdx? (· = fullTag tag)).elim
      (if tags.length ≥ 16 then (-1, tags) else ((tags.length : ℤ), tags ++ [fullTag tag]))
      fun i => (((i + 1 : ℕ) : ℤ), tags) := by
  unfold apkDbGetTagId fullTag
  simp only
  split
  next i hfind => rw [hfind]; rfl
  next hfind => rw [hfind]; rfl

structure TagEntry (tags : List Bytes) (full : Bytes) (i : ℕ) (tags' : List Bytes) : Prop where
  pos : 0 < i
  lt : i < 16
  entry : tags'[i]? = some full
  table : MarkedTags tags'
  again : ∀ tag, fullTag tag = full → apkDbGetTagId tags' tag = ((i : ℤ), tags')

theorem fullTag_head : (fullTag tag).head? = some (asc '@') := by
  unfold fullTag
  split_ifs with h
  · exact h
  · rfl

theorem apkDbGetTagId_cases (h : MarkedTags tags) (tag : Bytes) :
    (∃ (i : ℕ) (tags' : List Bytes), apkDbGetTagId tags tag = ((i : ℤ), tags') ∧ tags <+: tags' ∧
      TagEntry tags (fullTag tag) i tags') ∨
    apkDbGetTagId tags tag = (-1, tags) := by
  have hpos := h.default
  have hroom := h.room
  cases hfind : (tags.drop 1).findIdx? (· = fullTag tag) with
  | some j =>
    have hid : ∀ tag', fullTag tag' = fullTag tag →
        apkDbGetTagId tags tag' = (((j + 1 : ℕ) : ℤ), tags) := by
      intro tag' ht
      rw [apkDbGetTagId_congr ht, apkDbGetTagId_eq, hfind]
      rfl
    obtain ⟨hj, hentry, -⟩ := findIdx?_eq_some_iff_getElem.1 hfind
    refine Or.inl ⟨j + 1, tags, hid tag rfl, prefix_rfl, Nat.succ_pos j, ?_, ?_, h, hid⟩
    · rw [length_drop] at hj
      omega
    · rw [getElem_drop] at hentry
      rw [Nat.add_comm, getElem?_eq_getElem (by rw [length_drop] at hj; omega)]
      exact congrArg some (of_decide_eq_true hentry)
  | none =>
    have hunfold := apkDbGetTagId_eq tags tag
    rw [hfind, Option.elim_none] at hunfold
    by_cases hfull : tags.length ≥ 16
    · rw [if_pos hfull] at hunfold
      exact Or.inr hunfold
    rw [if_neg hfull] at hunfold
    refine Or.inl ⟨tags.length, tags ++ [fullTag tag], hunfold, prefix_append _ _, hpos,
      by omega, by simp, ⟨?_, ?_, ?_⟩, ?_⟩
    · rw [length_append]
      omega
    · rw [length_append, length_singleton]
      omega
    · intro t ht
      rw [drop_append_of_le_length (by omega), mem_append, mem_singleton] at ht
      rcases ht with ht | rfl
      · exact h.marked t ht
      · exact fullTag_head
    intro tag' ht
    rw [apkDbGetTagId_congr ht]
    have hfound : ((tags ++ [fullTag tag]).drop 1).findIdx? (· = fullTag tag) =
        some (tags.length - 1) := by
      rw [drop_append_of_le_length (by omega), findIdx?_append, hfind]
      simp
    rw [apkDbGetTagId_eq, hfound]
    refine Prod.ext ?_ rfl
    simp only [Option.elim_some]
    omega

def printedText (d : Dependency Bytes) (tag : Bytes) : Bytes :=
  (if apkDepConflict d then [asc '!'] else []) ++ ((cstr d.name ++ tag) ++
    (apkVersionOpString d.op ++ d.version.getD []))

theorem join_pushDepPieces {d : Dependency Bytes} : joinPieces (pushDepPieces tags d) =
      (if d.repositoryTag ≠ 0 then tags[d.repositoryTag]? else some []).map (printedText d) := by
  unfold pushDepPieces printedText
  by_cases htag : d.repositoryTag ≠ 0
  · rw [if_pos htag]
    cases tags[d.repositoryTag]? with
    | none => split_ifs <;> simp [joinPieces]
    | some t => split_ifs <;> simp [joinPieces]
  · rw [if_neg htag]
    split_ifs <;> simp [joinPieces]

theorem pushPieces_of_join {size : ℕ} {u : Bytes} {pieces : List (Option Bytes)}
    (h : joinPieces pieces = some u) (hsize : b.length + u.length ≤ size) :
    pushPieces size (some b) pieces = some (b ++ u) := by
  induction pieces generalizing b u with
  | nil =>
    obtain rfl : [] = u := by simpa [joinPieces] using h
    simp [pushPieces]
  | cons p pieces ih =>
    obtain ⟨a, rfl, h⟩ := Option.bind_eq_some_iff.1 h
    obtain ⟨v, hv, rfl⟩ := Option.map_eq_some_iff.1 h
    rw [length_append] at hsize
    have hpush : pushPiece size (some b) (some a) = some (b ++ a) :=
      if_pos (by omega)
    change pushPieces size (pushPiece size (some b) (some a)) pieces = some (b ++ (a ++ v))
    rw [hpush, ih hv (by rw [length_append]; omega), append_assoc]

/-- a dependency is what reading its text gives, for a buffer with room for the text -/
def ReadsBackText (allowTag : Bool) (tags : List Bytes) (d : Dependency Bytes) : Prop :=
  ∃ text, (∀ size, text.length ≤ size → apkBlobPushDep size tags d = some text) ∧
    ∃ d' rest tags', apkBlobPullDepTag allowTag tags text = (some (d', rest), tags') ∧
      d'.name = d.name ∧ d'.op = d.op ∧ d'.version = d.version ∧
      d'.repositoryTag = d.repositoryTag

theorem depMasks_text : ∀ m ∈ depMasks, (m &&& apkDepmaskAny ≠ apkDepmaskAny → m ∈ plainOps) ∧
    apkVersionOpString (apkVersionConflict ||| m) = apkVersionOpString m ∧
    (m &&& apkDepmaskAny = apkDepmaskAny →
      ∀ c ∈ apkVersionOpString m, apkCtype .dependencyComparer c = false) ∧
    ((apkVersionConflict ||| m) &&& apkDepmaskAny = m &&& apkDepmaskAny) := by
  decide +kernel

theorem DepParts.opString {p : DepParts} : apkVersionOpString p.op = apkVersionOpString p.mask := by
  unfold op
  split_ifs
  · exact (depMasks_text _ p.mask_mem).2.1
  · rw [Nat.zero_or]

theorem DepParts.op_any {p : DepParts} : p.op &&& apkDepmaskAny = p.mask &&& apkDepmaskAny := by
  unfold op
  split_ifs
  · exact (depMasks_text _ p.mask_mem).2.2.2
  · rw [Nat.zero_or]

theorem exists_printed {p : DepParts} {name : Bytes}
    (hname : ∀ c ∈ name, apkCtype .dependencyComparer c = false)
    (hhead : p.conflict = false → name.head? ≠ some (asc '!'))
    (hop : p.version ≠ none → p.mask &&& apkDepmaskAny ≠ apkDepmaskAny) :
    ∃ q : DepParts, q.name = name ∧ q.op = p.op ∧ q.version.map (·.2) = p.version.map (·.2) ∧
      q.text = p.mark ++ (name ++ (apkVersionOpString p.op ++ (p.version.map (·.2)).getD [])) := by
  cases hv : p.version with
  | none =>
    have hmask : p.mask = apkDepmaskAny := by rw [mask, hv]; rfl
    refine ⟨⟨p.conflict, name, none, hname, hhead, nofun, nofun⟩, rfl, ?_, rfl, ?_⟩
    · rw [op, op, hmask]
      rfl
    · rw [p.opString, hmask]
      rfl
  | some v =>
    have hplain := (depMasks_text _ p.mask_mem).1 (hop (by rw [hv]; exact Option.some_ne_none v))
    obtain ⟨-, -, hstr, -, -, hne, hcomp⟩ := plainOps_spec _ hplain
    refine ⟨⟨p.conflict, name, some (apkVersionOpString p.mask, v.2), hname, hhead, ?_, ?_⟩,
      rfl, ?_, rfl, ?_⟩
    · rintro _ ⟨⟩
      exact ⟨hne, fun c hc => (hcomp c hc).1⟩
    · rintro _ ⟨⟩
      exact p.version_bytes v hv
    · change (if p.conflict then apkVersionConflict else 0) |||
        apkVersionResultMaskBlob (apkVersionOpString p.mask) = p.op
      rw [hstr]
      rfl
    · rw [p.opString]
      rfl

def printedTag (tags : List Bytes) (d : Dependency Bytes) : Option Bytes :=
  if d.repositoryTag ≠ 0 then tags[d.repositoryTag]? else some []

inductive NameOrigin (p : DepParts) (d : Dependency Bytes) (allowTag : Bool) (tags' : List Bytes) :
    Bytes → Prop
  | plain (hname : p.name = d.name) (hat : asc '@' ∉ d.name) (htag : d.repositoryTag = 0) :
      NameOrigin p d allowTag tags' []
  | tagged (tags : List Bytes) (tag : Bytes) (hallow : allowTag = true)
      (hname : p.name = d.name ++ asc '@' :: tag) (hat : asc '@' ∉ d.name)
      (hentry : TagEntry tags (fullTag tag) d.repositoryTag tags') :
      NameOrigin p d allowTag tags' (fullTag tag)

variable {p : DepParts} {d : Dependency Bytes} {allowTag : Bool} {tags' : List Bytes} {t : Bytes}

theorem nameOrigin (htags : MarkedTags tags) (hdep : p.dep allowTag tags = (some d, tags'))
    (ht : printedTag tags' d = some t) : NameOrigin p d allowTag tags' t := by
  unfold printedTag at ht
  rcases dep_cases hdep with ⟨hsplit, rfl, rfl⟩ | ⟨name, tag, hsplit, rfl, rfl, rfl⟩
  · obtain rfl : [] = t := by simpa using ht
    exact .plain rfl (apkBlobSplit_eq_none hsplit) rfl
  obtain ⟨hname, hat⟩ := apkBlobSplit_some hsplit
  rcases apkDbGetTagId_cases htags tag with ⟨i, tags', hid, -, hentry⟩ | hid
  · have hlt := hentry.lt
    have hpos := hentry.pos
    have hi : ((i : ℤ) % 64).toNat = i := by omega
    simp only [hid, hi] at ht ⊢
    rw [if_pos (by omega), hentry.entry] at ht
    cases ht
    exact .tagged tags tag rfl hname hat hentry
  -- without room for the tag its number is outside of the table
  have hlen := htags.room
  have hout : tags[63]? = none := getElem?_eq_none (by omega)
  rw [hid] at ht
  exact absurd (hout.symm.trans ht) nofun

theorem mem_fullTag (h : c ∈ fullTag tag) : c ∈ asc '@' :: tag := by
  unfold fullTag at h
  split_ifs at h
  · exact mem_cons_of_mem _ h
  · exact h

theorem NameOrigin.mem (h : NameOrigin p d allowTag tags' t) (hc : c ∈ cstr d.name ++ t) :
    c ∈ p.name := by
  rcases mem_append.1 hc with hc | hc
  · have hmem : c ∈ d.name := (List.takeWhile_prefix _).subset hc
    cases h with
    | plain hname => rwa [hname]
    | tagged tags tag hallow hname =>
      rw [hname]
      exact mem_append_left _ hmem
  cases h with
  | plain hname => cases hc
  | tagged tags tag hallow hname =>
    rw [hname]
    exact mem_append_right _ (mem_fullTag hc)

theorem NameOrigin.head (h : NameOrigin p d allowTag tags' t) (hc : p.conflict = false) :
    (cstr d.name ++ t).head? ≠ some (asc '!') := by
  have hp := p.name_head hc
  have ht : t.head? ≠ some (asc '!') := by
    cases h with
    | plain => simp
    | tagged tags tag =>
      rw [fullTag_head]
      decide
  cases hname : d.name with
  | nil => exact ht
  | cons x l =>
    have hx : x ≠ asc '!' := by
      cases h with
      | plain hn =>
        rw [hn, hname] at hp
        simpa using hp
      | tagged tags tag hallow hn =>
        rw [hn, hname] at hp
        simpa using hp
    by_cases hzero : x = 0
    · simpa [cstr, hzero] using ht
    · simp [cstr, hzero, hx]

theorem opString_separator : ∀ m ∈ depMasks,
    ∀ c ∈ apkVersionOpString m, apkCtype .dependencySeparator c = false := by
  decide +kernel

section

variable {p : DepParts} {d : Dependency Bytes} {allowTag : Bool} {tags tags' : List Bytes} {t : Bytes}

theorem DepParts.conflict_eq (hop : d.op = p.op) : apkDepConflict d = p.conflict := by
  obtain ⟨-, hzero, hbit⟩ := depMasks_spec _ p.mask_mem
  unfold apkDepConflict
  rw [hop, op]
  cases p.conflict with
  | true => exact decide_eq_true hbit
  | false => simpa using hzero

theorem depToken_printed (h : NameOrigin p d allowTag tags' t) (hop : d.op = p.op)
    (hver : d.version = p.version.map (·.2))
    (hsep : ∀ c ∈ p.text, apkCtype .dependencySeparator c = false) :
    depToken (printedText d t) = printedText d t := by
  have hbytes : ∀ c ∈ printedText d t, apkCtype .dependencySeparator c = false := by
    intro c hc
    simp only [printedText, mem_append] at hc
    rcases hc with hc | (hc | hc) | hc | hc
    · split_ifs at hc
      · rw [mem_singleton.1 hc]
        decide
      · cases hc
    · exact hsep c (by simp [text, h.mem (mem_append_left _ hc)])
    · exact hsep c (by simp [text, h.mem (mem_append_right _ hc)])
    · rw [hop, p.opString] at hc
      exact opString_separator _ p.mask_mem c hc
    refine hsep c ?_
    unfold DepParts.text DepParts.tail
    rw [hver] at hc
    cases hv : p.version with
    | none => simp [hv] at hc
    | some v =>
      rw [hv] at hc
      have hc' : c ∈ v.2 := hc
      simp [hc']
  exact takeWhile_eq_self_iff.2 fun c hc => by simp [hbytes c hc]

variable {r : Bytes}

theorem fullTag_eq_iff : fullTag r = asc '@' :: r ↔ ¬ [asc '@', asc '@'] <+: asc '@' :: r := by
  unfold fullTag
  cases r with
  | nil => decide
  | cons x r =>
    by_cases hx : x = asc '@'
    · subst hx
      simp
    · simp [hx, Ne.symm hx]

theorem tag_again {tags0 : List Bytes} {i : ℕ} (hentry : TagEntry tags0 (asc '@' :: r) i tags') :
    (((apkDbGetTagId tags' r).1 % 64).toNat = i ↔ ¬ [asc '@', asc '@'] <+: asc '@' :: r) := by
  have hlt := hentry.lt
  rw [← fullTag_eq_iff]
  constructor
  · intro hi
    rcases apkDbGetTagId_cases hentry.table r with ⟨j, tags'', hid, hkept, hentry'⟩ | hid
    · have hlt' := hentry'.lt
      have hij : j = i := by
        rw [hid] at hi
        omega
      subst hij
      obtain ⟨more, rfl⟩ := hkept
      obtain ⟨hj, -⟩ := List.getElem?_eq_some_iff.1 hentry.entry
      have hsame := hentry'.entry
      rw [getElem?_append_left hj, hentry.entry] at hsame
      exact (Option.some.inj hsame).symm
    · rw [hid] at hi
      omega
  · intro hfull
    rw [hentry.again r hfull]
    omega

section

variable (h : NameOrigin p d allowTag tags' t) (hop : d.op = p.op)
    (hver : d.version = p.version.map (·.2))
    (hsep : ∀ c ∈ p.text, apkCtype .dependencySeparator c = false)
include h hop hver hsep

/-- reading what is printed: all but the name up to a zero byte and the tag is as it was -/
theorem pull_printed (hany : d.version ≠ none → d.op &&& apkDepmaskAny ≠ apkDepmaskAny) :
    ∃ d' tags'', apkBlobPullDepTag allowTag tags' (printedText d t) =
        (some (d', depRest (printedText d t)), tags'') ∧
      d'.name = cstr d.name ∧ d'.op = d.op ∧ d'.version = d.version ∧
      (d'.repositoryTag = d.repositoryTag ↔ (d.repositoryTag ≠ 0 → ¬ [asc '@', asc '@'] <+: t)) := by
  obtain ⟨q, hqname, hqop, hqver, hqtext⟩ := exists_printed
    (fun c hc => p.name_bytes c (h.mem hc)) h.head fun hne => by
      rw [← p.op_any, ← hop]
      refine hany ?_
      rw [hver]
      simpa using hne
  have htext : depToken (printedText d t) = q.text := by
    rw [depToken_printed h hop hver hsep, hqtext, printedText, conflict_eq hop, hop, hver]
    rfl
  rw [apkBlobPullDepTag_parts htext]
  unfold dep
  rw [hqname, hqop, hqver, ← hop, ← hver]
  have hcstr : asc '@' ∉ d.name → asc '@' ∉ cstr d.name :=
    fun hat hc => hat ((List.takeWhile_prefix _).subset hc)
  cases h with
  | plain hname hat htag =>
    rw [append_nil, apkBlobSplit_none (hcstr hat)]
    exact ⟨_, _, rfl, rfl, rfl, rfl, by simp [htag]⟩
  | tagged tags tag hallow hname hat hentry =>
    obtain ⟨r, hr⟩ := head?_eq_some_iff.1 fullTag_head
    have hpos := hentry.pos
    rw [hr] at hentry ⊢
    rw [apkBlobSplit_append (hcstr hat), hallow]
    refine ⟨_, _, rfl, rfl, rfl, rfl, ?_⟩
    rw [tag_again hentry]
    simp [Nat.ne_of_gt hpos]

theorem version_lost {v : Bytes} (hv : d.version = some v)
    (hany : d.op &&& apkDepmaskAny = apkDepmaskAny) {d' : Dependency Bytes} {rest : Bytes}
    {tags'' : List Bytes}
    (hpull : apkBlobPullDepTag allowTag tags' (printedText d t) = (some (d', rest), tags'')) :
    d'.version ≠ d.version := by
  intro heq
  obtain ⟨q, hqtext, hqdep, -⟩ := exists_parts_of_pull hpull
  rw [depToken_printed h hop hver hsep] at hqtext
  rw [(dep_fields hqdep).2.1, hv] at heq
  obtain ⟨⟨bop, v'⟩, hq, rfl⟩ := Option.map_eq_some_iff.1 heq
  obtain ⟨hne, hcomp⟩ := q.op_bytes _ hq
  -- the operator would have to be among the bytes before the version
  have hbefore : (if p.conflict then [asc '!'] else []) ++ ((cstr d.name ++ t) ++
      apkVersionOpString p.mask) = q.mark ++ (q.name ++ bop) := by
    refine (append_left_inj v').1 ?_
    rw [printedText, DepParts.conflict_eq hop, hop, p.opString, hv, DepParts.text, DepParts.tail,
      hq] at hqtext
    simpa using hqtext
  obtain ⟨c, l, hc⟩ := exists_cons_of_ne_nil hne
  have hmemop : c ∈ bop := by
    rw [show bop = c :: l from hc]
    exact mem_cons_self
  have hcc : apkCtype .dependencyComparer c = true := hcomp c hmemop
  have hmem : c ∈ (if p.conflict then [asc '!'] else []) ++ ((cstr d.name ++ t) ++
      apkVersionOpString p.mask) := by
    rw [hbefore]
    exact mem_append_right _ (mem_append_right _ hmemop)
  have hno : apkCtype .dependencyComparer c = false := by
    rw [mem_append, mem_append] at hmem
    rcases hmem with hmem | hmem | hmem
    · split_ifs at hmem
      · rw [mem_singleton.1 hmem]
        decide
      · cases hmem
    · exact p.name_bytes c (h.mem hmem)
    · refine (depMasks_text _ p.mask_mem).2.2.1 ?_ c hmem
      rw [← p.op_any, ← hop, hany]
  rw [hcc] at hno
  cases hno

end

end

/-- a dependency whose text says all of it -/
structure Printable (tags : List Bytes) (d : Dependency Bytes) : Prop where
  name : (0 : UInt8) ∉ d.name
  op : d.version ≠ none → d.op &&& apkDepmaskAny ≠ apkDepmaskAny
  tag : d.repositoryTag ≠ 0 → ∃ t, tags[d.repositoryTag]? = some t ∧ ¬ [asc '@', asc '@'] <+: t

/-- a dependency that was read is read back from its text exactly if the text says all of it -/
theorem dep_text_round_trip_iff {allowTag : Bool} {tags tags' : List Bytes} {s rest : Bytes}
    {d : Dependency Bytes} (htags : MarkedTags tags)
    (hpull : apkBlobPullDepTag allowTag tags s = (some (d, rest), tags')) :
    ReadsBackText allowTag tags' d ↔ Printable tags' d := by
  obtain ⟨p, htoken, hdep, -⟩ := exists_parts_of_pull hpull
  obtain ⟨hop, hver, -⟩ := DepParts.dep_fields hdep
  have hsep : ∀ c ∈ p.text, apkCtype .dependencySeparator c = false := by
    intro c hc
    rw [← htoken] at hc
    simpa using mem_takeWhile_imp hc
  constructor
  · rintro ⟨text, hprint, d', rest', tags'', hread, hname, hop', hver', htag'⟩
    obtain ⟨u, hjoin, rfl⟩ := pushPieces_some (hprint text.length le_rfl)
    rw [join_pushDepPieces] at hjoin
    obtain ⟨t, ht, rfl⟩ := Option.map_eq_some_iff.1 hjoin
    have horigin := nameOrigin htags hdep ht
    have hany : d.version ≠ none → d.op &&& apkDepmaskAny ≠ apkDepmaskAny := by
      intro hne hany
      obtain ⟨v, hv⟩ := Option.ne_none_iff_exists'.mp hne
      exact version_lost horigin hop hver hsep hv hany hread hver'
    obtain ⟨d2, tags2, hread2, hname2, -, -, htag2⟩ := pull_printed horigin hop hver hsep hany
    obtain ⟨⟨rfl, -⟩, -⟩ : (d2 = d' ∧ _) ∧ _ := by simpa using hread2.symm.trans hread
    refine ⟨(cstr_eq_iff _).1 (hname2.symm.trans hname), hany, fun hne => ⟨t, ?_, ?_⟩⟩
    · rwa [if_pos hne] at ht
    · exact htag2.1 htag' hne
  intro hp
  obtain ⟨t, ht, htt⟩ : ∃ t, printedTag tags' d = some t ∧
      (d.repositoryTag ≠ 0 → ¬ [asc '@', asc '@'] <+: t) := by
    unfold printedTag
    by_cases hne : d.repositoryTag ≠ 0
    · obtain ⟨t, ht, htt⟩ := hp.tag hne
      exact ⟨t, by rw [if_pos hne, ht], fun _ => htt⟩
    · exact ⟨[], if_neg hne, fun h => absurd h hne⟩
  obtain ⟨d', tags'', hread, hname, hop', hver', htag⟩ :=
    pull_printed (nameOrigin htags hdep ht) hop hver hsep hp.op
  refine ⟨printedText d t, fun size hsize => ?_, d', _, tags'', hread, ?_, hop', hver', htag.2 htt⟩
  · have hjoin : joinPieces (pushDepPieces tags' d) = some (printedText d t) := by
      rw [join_pushDepPieces]
      exact congrArg (Option.map _) ht
    exact pushPieces_of_join hjoin ((Nat.zero_add _).trans_le hsize)
  · rw [hname, (cstr_eq_iff _).2 hp.name]

theorem dep_text_round_trip_tagged : ReadsBackText true [[], ascs ['@', 'e']]
        ⟨ascs ['a'], versionOf '1', apkVersionConflict ||| apkVersionLess, false, 1, 0⟩ ↔
      Printable [[], ascs ['@', 'e']]
        ⟨ascs ['a'], versionOf '1', apkVersionConflict ||| apkVersionLess, false, 1, 0⟩ :=
  dep_text_round_trip_iff ⟨by decide, by decide, by decide⟩
    (show apkBlobPullDepTag true [[]] (ascs ['!', 'a', '@', 'e', '<', '1']) =
      (some (⟨ascs ['a'], versionOf '1', apkVersionConflict ||| apkVersionLess, false, 1, 0⟩, []),
        [[], ascs ['@', 'e']]) by decide +kernel)

/-- `a<=>1` is printed as `a1`, which is another name -/
theorem dep_text_loses_version :
    ∃ d d', apkBlobPullDepTag true [[]] (ascs ['a', '<', '=', '>', '1']) = (some (d, []), [[]]) ∧
      d.broken = false ∧ apkBlobPushDep 256 [[]] d = some (ascs ['a', '1']) ∧
      apkBlobPullDepTag true [[]] (ascs ['a', '1']) = (some (d', []), [[]]) ∧
      d'.name ≠ d.name ∧ d'.version ≠ d.version :=
  ⟨⟨ascs ['a'], versionOf '1', apkDepmaskAny, false, 0, 0⟩,
    ⟨ascs ['a', '1'], none, apkDepmaskAny, false, 0, 0⟩, by decide +kernel⟩

end Alpine

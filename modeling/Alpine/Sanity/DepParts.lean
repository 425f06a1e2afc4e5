import Alpine.Sanity.Blob

/-! The parts of a dependency as text: `apk_dep_parse` accepts what is put together from them, and
nothing else. -/

namespace Alpine

open List

def plainOps : List ℕ :=
  [apkVersionLess, apkVersionLess ||| apkVersionEqual,
    apkVersionLess ||| apkVersionEqual ||| apkVersionFuzzy, apkVersionEqual ||| apkVersionFuzzy,
    apkVersionEqual, apkVersionGreater ||| apkVersionEqual,
    apkVersionGreater ||| apkVersionEqual ||| apkVersionFuzzy, apkVersionGreater,
    apkDepmaskChecksum]

theorem plainOps_spec : ∀ m ∈ plainOps,
    (m &&& apkVersionConflict = 0 ∧ (apkVersionConflict ||| m) &&& apkVersionConflict ≠ 0) ∧
    apkVersionOpString (apkVersionConflict ||| m) = apkVersionOpString m ∧
    apkVersionResultMaskBlob (apkVersionOpString m) = m ∧ m ≠ 0 ∧ 0 ||| m = m ∧
    apkVersionOpString m ≠ [] ∧
    ∀ c ∈ apkVersionOpString m, apkCtype .dependencyComparer c = true ∧
      apkCtype .dependencySeparator c = false := by decide +kernel

def depMasks : List ℕ := apkDepmaskAny :: (apkDepmaskAny ||| apkVersionFuzzy) :: plainOps

theorem depMasks_step : ∀ r ∈ 0 :: depMasks,
    ∀ bit ∈ [apkVersionLess, apkVersionGreater, apkVersionEqual, apkVersionFuzzy ||| apkVersionEqual],
      r ||| bit ∈ depMasks := by
  decide +kernel

variable {bop : Bytes} {p : DepParts}

theorem resultMask_go_mem (h : ∀ c ∈ bop, apkCtype .dependencyComparer c = true) {r : ℕ}
    (hr : r ∈ 0 :: depMasks) (hne : bop = [] → r ∈ depMasks) :
    apkVersionResultMaskBlob.go bop r ∈ depMasks := by
  induction bop generalizing r with
  | nil => exact hne rfl
  | cons c bop ih =>
    have hstep : ∀ bit ∈ [apkVersionLess, apkVersionGreater, apkVersionEqual,
        apkVersionFuzzy ||| apkVersionEqual],
        apkVersionResultMaskBlob.go bop (r ||| bit) ∈ depMasks := by
      intro bit hbit
      have hmem := depMasks_step r hr bit hbit
      exact ih (fun d hd => h d (mem_cons_of_mem _ hd)) (mem_cons_of_mem _ hmem) fun _ => hmem
    have hc := h c mem_cons_self
    simp only [apkCtype, decide_eq_true_eq] at hc
    unfold apkVersionResultMaskBlob.go
    split_ifs with h1 h2 h3 h4
    · exact hstep _ (by simp)
    · exact hstep _ (by simp)
    · exact hstep _ (by simp)
    · exact hstep _ (by simp)
    · tauto

theorem resultMask_mem (h : ∀ c ∈ bop, apkCtype .dependencyComparer c = true) (hne : bop ≠ []) :
    apkVersionResultMaskBlob bop ∈ depMasks :=
  resultMask_go_mem h mem_cons_self fun h0 => absurd h0 hne

theorem depMasks_spec : ∀ m ∈ depMasks, m ≠ 0 ∧ m &&& apkVersionConflict = 0 ∧
    (apkVersionConflict ||| m) &&& apkVersionConflict ≠ 0 := by
  decide +kernel

structure DepParts where
  conflict : Bool
  name : Bytes
  /-- the text of the operator, and the version -/
  version : Option (Bytes × Bytes)
  name_bytes : ∀ c ∈ name, apkCtype .dependencyComparer c = false
  name_head : conflict = false → name.head? ≠ some (asc '!')
  op_bytes : ∀ v ∈ version, v.1 ≠ [] ∧ ∀ c ∈ v.1, apkCtype .dependencyComparer c = true
  version_bytes : ∀ v ∈ version, v.2 ≠ [] ∧
    ∀ c, v.2.head? = some c → apkCtype .dependencyComparer c = false

open DepParts

def DepParts.mark (p : DepParts) : Bytes := if p.conflict then [asc '!'] else []

def DepParts.tail (p : DepParts) : Bytes := p.version.elim [] fun v => v.1 ++ v.2

def DepParts.text (p : DepParts) : Bytes := p.mark ++ (p.name ++ p.tail)

def DepParts.mask (p : DepParts) : ℕ :=
  p.version.elim apkDepmaskAny fun v => apkVersionResultMaskBlob v.1

def DepParts.op (p : DepParts) : ℕ := (if p.conflict then apkVersionConflict else 0) ||| p.mask

theorem DepParts.mask_mem : p.mask ∈ depMasks := by
  unfold mask
  cases h : p.version with
  | none => exact mem_cons_self
  | some v =>
    obtain ⟨hne, hall⟩ := p.op_bytes v h
    exact resultMask_mem hall hne

theorem DepParts.head_iff (p : DepParts) : p.text.head? = some (asc '!') ↔ p.conflict = true := by
  unfold text mark
  cases hc : p.conflict with
  | true => simp
  | false =>
    have hname := p.name_head hc
    cases hn : p.name with
    | cons c l =>
      rw [hn] at hname
      simpa using hname
    | nil =>
      unfold tail
      cases hv : p.version with
      | none => simp
      | some v =>
        obtain ⟨hne, hall⟩ := p.op_bytes v hv
        obtain ⟨c, l, hcl⟩ := exists_cons_of_ne_nil hne
        have hcomp := hall c (by rw [hcl]; exact mem_cons_self)
        have hbang : c ≠ asc '!' := by
          rintro rfl
          exact absurd hcomp (by decide)
        simp [hcl, hbang]

theorem DepParts.drop_mark :
    (if p.text.head? = some (asc '!') then p.text.drop 1 else p.text) = p.name ++ p.tail := by
  simp only [p.head_iff]
  unfold text mark
  split_ifs <;> rfl

theorem DepParts.name_run (p : DepParts) : ∀ c ∈ p.name, (!apkCtype .dependencyComparer c) = true := by
  intro c hc
  rw [p.name_bytes c hc]
  rfl

theorem apkDepParse_parts (p : DepParts) :
    apkDepParse p.text = some (p.name, p.op, p.version.map (·.2)) := by
  have hbit : (if p.text.head? = some (asc '!') then apkVersionConflict else 0) =
      if p.conflict then apkVersionConflict else 0 := by
    simp [p.head_iff]
  unfold apkDepParse
  simp only [p.drop_mark, hbit]
  unfold DepParts.op DepParts.mask DepParts.tail
  cases hv : p.version with
  | none =>
    obtain ⟨-, hend⟩ := takeWhile_append_run p.name_run (r := []) rfl
    rw [append_nil] at hend
    simp [hend]
  | some v =>
    obtain ⟨hne, hall⟩ := p.op_bytes v hv
    obtain ⟨hvne, hhead⟩ := p.version_bytes v hv
    have hvstop : v.2.takeWhile (apkCtype .dependencyComparer) = [] := by
      obtain ⟨c, l, hcl⟩ := exists_cons_of_ne_nil hvne
      rw [hcl] at hhead ⊢
      exact takeWhile_cons_of_neg (by simp [hhead c rfl])
    obtain ⟨hs1, hs2⟩ := takeWhile_append_run hall hvstop
    have hopstop : (v.1 ++ v.2).takeWhile (fun c => !apkCtype .dependencyComparer c) = [] := by
      obtain ⟨c, l, hcl⟩ := exists_cons_of_ne_nil hne
      rw [hcl]
      simp [hall c (by rw [hcl]; exact mem_cons_self)]
    obtain ⟨hn1, hn2⟩ := takeWhile_append_run p.name_run hopstop
    have hmask := (depMasks_spec _ (resultMask_mem hall hne)).1
    simp only [Option.elim_some, hn1, hn2, apkBlobSpn, hs1, hs2, if_neg hmask, if_neg hvne,
      Option.map_some]
    rw [if_neg (by simp [hne])]

theorem dropWhile_head {p : UInt8 → Bool} {b : Bytes} {c : UInt8}
    (h : (b.dropWhile p).head? = some c) : p c = false := by
  have hne : b.dropWhile p ≠ [] := by
    rintro h0
    rw [h0] at h
    cases h
  have hnot := head_dropWhile_not p hne
  rw [List.head?_eq_some_head hne] at h
  rwa [Option.some.inj h] at hnot

theorem mark_append (spec : Bytes) :
    (if decide (spec.head? = some (asc '!')) = true then [asc '!'] else []) ++
      (if spec.head? = some (asc '!') then spec.drop 1 else spec) = spec := by
  by_cases h : spec.head? = some (asc '!')
  · obtain ⟨l, rfl⟩ := List.head?_eq_some_iff.1 h
    simp
  · simp [h]

theorem exists_parts {spec name : Bytes} {op : ℕ} {version : Option Bytes}
    (h : apkDepParse spec = some (name, op, version)) :
    ∃ p : DepParts, p.text = spec ∧ p.name = name ∧ p.op = op ∧ p.version.map (·.2) = version := by
  have hmark := mark_append spec
  have hbit : (if decide (spec.head? = some (asc '!')) = true then apkVersionConflict else 0) =
      if spec.head? = some (asc '!') then apkVersionConflict else 0 := by simp
  have hhead : decide (spec.head? = some (asc '!')) = false →
      (if spec.head? = some (asc '!') then spec.drop 1 else spec).head? ≠ some (asc '!') := by
    intro hc
    have hc' : ¬ spec.head? = some (asc '!') := by simpa using hc
    rwa [if_neg hc']
  unfold apkDepParse at h
  simp only at h
  generalize (if spec.head? = some (asc '!') then spec.drop 1 else spec) = rest at *
  rw [← hbit] at h
  generalize decide (spec.head? = some (asc '!')) = conflict at *
  have hsplit := takeWhile_append_dropWhile (p := fun c => !apkCtype .dependencyComparer c) (l := rest)
  have hname : ∀ c ∈ rest.takeWhile fun c => !apkCtype .dependencyComparer c,
      apkCtype .dependencyComparer c = false := by
    intro c hc
    simpa using mem_takeWhile_imp hc
  by_cases hbop : rest.dropWhile (fun c => !apkCtype .dependencyComparer c) = []
  · -- no operator
    rw [if_pos hbop] at h
    obtain ⟨rfl, rfl, rfl⟩ : rest = name ∧ _ = op ∧ none = version := by simpa using h
    rw [hbop, append_nil] at hsplit
    rw [hsplit] at hname
    refine ⟨⟨conflict, rest, none, hname, hhead, by simp, by simp⟩, ?_, rfl, rfl, rfl⟩
    simpa [DepParts.text, DepParts.mark, DepParts.tail] using hmark
  rw [if_neg hbop] at h
  set bop := rest.dropWhile fun c => !apkCtype .dependencyComparer c
  have hop := takeWhile_append_dropWhile (p := apkCtype .dependencyComparer) (l := bop)
  have hver : (apkBlobSpn bop .dependencyComparer).2 ≠ [] := by
    intro h0
    simp [h0] at h
  have hmask : apkVersionResultMaskBlob (apkBlobSpn bop .dependencyComparer).1 ≠ 0 := by
    intro h0
    simp [h0] at h
  rw [if_neg hver, if_neg hmask] at h
  obtain ⟨rfl, rfl, rfl⟩ : rest.takeWhile (fun c => !apkCtype .dependencyComparer c) = name ∧
      _ = op ∧ some (apkBlobSpn bop .dependencyComparer).2 = version := by simpa using h
  have hfirst : (apkBlobSpn bop .dependencyComparer).1 ≠ [] := by
    obtain ⟨c, l, hcl⟩ := exists_cons_of_ne_nil hbop
    have hc : apkCtype .dependencyComparer c = true := by
      simpa using dropWhile_head (show bop.head? = some c by rw [hcl]; rfl)
    simp [apkBlobSpn, hcl, hc]
  refine ⟨⟨conflict, rest.takeWhile fun c => !apkCtype .dependencyComparer c,
    some (apkBlobSpn bop .dependencyComparer), hname, fun hc => ?_, ?_, ?_⟩, ?_, rfl, rfl, rfl⟩
  · intro hbang
    refine hhead hc ?_
    rw [← hsplit, List.head?_append, hbang]
    rfl
  · rintro v ⟨⟩
    exact ⟨hfirst, fun c hc => mem_takeWhile_imp hc⟩
  · rintro v ⟨⟩
    exact ⟨hver, fun c hc => dropWhile_head hc⟩
  · rw [hop.symm] at hsplit
    exact (congrArg _ hsplit).trans hmark

end Alpine

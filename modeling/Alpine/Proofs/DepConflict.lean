import Alpine.Proofs.VersionFuzzy
import Alpine.Sanity.DepText

/-! What `!` before a dependency means. The conflict bit goes with the operator, so a version that
is matched is no longer matched; but a checksum is told from a version by its operator alone. -/

namespace Alpine

open DepParts

theorem compareTail_result (ta tb : TokenState) (fuzzy : Bool) : IsResult (compareTail ta tb fuzzy) := by
  unfold compareTail IsResult
  split_ifs <;> simp

theorem compareLoop_result (n : ℕ) (a b : TokenState × Bytes) (fuzzy : Bool) :
    IsResult (compareLoop n a b fuzzy) := by
  induction n generalizing a b with
  | zero => exact compareTail_result _ _ _
  | succ n ih =>
    rw [compareLoop]
    simp only
    split_ifs
    · exact tokenCmp_result _ _
    · exact ih _ _
    · exact compareTail_result _ _ _

variable {p : DepParts} {s : Bytes} {a b : Option Bytes}

theorem compareFuzzy_mem {fuzzy : Bool} : apkVersionCompareFuzzy a b fuzzy ∈
      [apkVersionLess, apkVersionEqual, apkVersionGreater, apkDepmaskAny] := by
  unfold apkVersionCompareFuzzy
  split
  · decide
  · decide
  · decide
  rcases compareLoop_result (_ + 1) (tokenFirst _) (tokenFirst _) fuzzy with h | h | h
  all_goals
    rw [h]
    decide

theorem depMasks_negated : ∀ m ∈ depMasks,
    ((apkVersionConflict ||| m) &&& apkDepmaskAny = m &&& apkDepmaskAny) ∧
    ((apkVersionConflict ||| m) &&& apkVersionFuzzy = m &&& apkVersionFuzzy) ∧
    ((apkVersionConflict ||| m) &&& apkDepmaskChecksum = m &&& apkDepmaskChecksum) ∧
    ∀ r ∈ [apkVersionLess, apkVersionEqual, apkVersionGreater, apkDepmaskAny],
      r &&& (apkVersionConflict ||| m) = r &&& m := by
  decide +kernel

theorem apkVersionMatch_negated {m : ℕ} (hm : m ∈ depMasks) :
    apkVersionMatch a (apkVersionConflict ||| m) b = !apkVersionMatch a m b := by
  obtain ⟨hany, hfuzzy, -, hres⟩ := depMasks_negated m hm
  obtain ⟨-, hzero, hbit⟩ := depMasks_spec m hm
  unfold apkVersionMatch
  rw [hany, hfuzzy, hres _ compareFuzzy_mem, if_pos hbit, if_neg (by simp [hzero])]

/-- `!` before the parts: the mark of a conflict, or the first byte of the name -/
def DepParts.negate (p : DepParts) : DepParts where
  conflict := true
  name := if p.conflict then asc '!' :: p.name else p.name
  version := p.version
  name_bytes := by
    intro c hc
    split_ifs at hc
    · rcases List.mem_cons.1 hc with rfl | hc
      · decide
      · exact p.name_bytes c hc
    · exact p.name_bytes c hc
  name_head := nofun
  op_bytes := p.op_bytes
  version_bytes := p.version_bytes

theorem DepParts.negate_text : p.negate.text = asc '!' :: p.text := by
  unfold text mark
  change [asc '!'] ++ ((if p.conflict then asc '!' :: p.name else p.name) ++ p.tail) = _
  cases p.conflict <;> rfl

theorem DepParts.negate_op : p.negate.op = apkVersionConflict ||| p.mask := rfl

theorem DepParts.negate_broken : p.negate.broken = p.broken := by
  have hmask : ∀ q : DepParts, q.op &&& apkDepmaskChecksum = q.mask &&& apkDepmaskChecksum := by
    intro q
    unfold op
    split_ifs
    · exact (depMasks_negated _ q.mask_mem).2.2.1
    · rw [Nat.zero_or]
  unfold broken
  rw [hmask, hmask]
  rfl

theorem DepParts.negate_dep {allowTag : Bool} {tags tags' : List Bytes} {d : Dependency Bytes}
    (h : p.dep allowTag tags = (some d, tags')) :
    p.negate.dep allowTag tags =
      (some { d with name := if p.conflict then asc '!' :: d.name else d.name
                     op := p.negate.op }, tags') := by
  have hsplit : apkBlobSplit p.negate.name (asc '@') = (apkBlobSplit p.name (asc '@')).map fun lr =>
        (if p.conflict then asc '!' :: lr.1 else lr.1, lr.2) := by
    change apkBlobSplit (if p.conflict then asc '!' :: p.name else p.name) (asc '@') = _
    split_ifs
    · rfl
    · simp
  unfold dep
  rw [hsplit, p.negate_broken]
  rcases dep_cases h with ⟨hnone, rfl, rfl⟩ | ⟨name, tag, hsome, rfl, rfl, rfl⟩
  · rw [hnone]
    rfl
  · rw [hsome]
    rfl

theorem depToken_bang : depToken (asc '!' :: s) = asc '!' :: depToken s :=
  List.takeWhile_cons_of_pos (by decide)

theorem head_iff_conflict (h : depToken s = p.text) : s.head? = some (asc '!') ↔ p.conflict = true := by
  rw [← p.head_iff, ← h]
  cases s with
  | nil => simp [depToken]
  | cons c s =>
    unfold depToken
    by_cases hc : apkCtype .dependencySeparator c = true
    · have hbang : c ≠ asc '!' := by
        rintro rfl
        exact absurd hc (by decide)
      simp [hc, hbang]
    · simp [hc]

theorem conflict_ne_checksum : ∀ m ∈ depMasks, apkVersionConflict ||| m ≠ apkDepmaskChecksum := by
  decide +kernel

section

variable {P : Type} [DecidableEq P] (db : Database Bytes P)

variable {d : Dependency Bytes} {m : ℕ} {deppkg : Option P}

theorem apkDepIsProvided_negated (hm : m ∈ depMasks) (hop : d.op = apkVersionConflict ||| m)
    {p : Provider P} (hp : deppkg ≠ some p.pkg) :
    apkDepIsProvided db deppkg d (some p) =
      !apkVersionMatch (atomBlob p.version) m (atomBlob d.version) := by
  rw [apkDepIsProvided, if_neg (fun h => hp h.2), if_neg (hop ▸ conflict_ne_checksum m hm), hop,
    apkVersionMatch_negated hm]

theorem apkDepIsProvided_plain (hm : m ∈ depMasks) (hop : d.op = m) {p : Provider P} :
    apkDepIsProvided db deppkg d (some p) =
      if m = apkDepmaskChecksum then apkDepMatchChecksum db d p.pkg
      else apkVersionMatch (atomBlob p.version) m (atomBlob d.version) := by
  have hno : apkDepConflict d = false := by
    unfold apkDepConflict
    rw [hop]
    exact decide_eq_false (not_not.2 (depMasks_spec m hm).2.1)
  rw [apkDepIsProvided, if_neg (by simp [hno]), hop]

/-- the negation of a dependency is provided where the dependency is not, but for a text that is
negated already, and for a checksum, which is compared as a version once it is negated -/
theorem conflict_negates_iff {allowTag : Bool} {tags tags' : List Bytes} {s rest : Bytes}
    {d : Dependency Bytes} (hd : apkBlobPullDepTag allowTag tags s = (some (d, rest), tags')) :
    ∃ d', apkBlobPullDepTag allowTag tags (asc '!' :: s) = (some (d', rest), tags') ∧
      ∀ (deppkg : Option P) (p : Provider P), deppkg ≠ some p.pkg →
        (apkDepIsProvided db deppkg d' (some p) = !apkDepIsProvided db deppkg d (some p) ↔
          s.head? ≠ some (asc '!') ∧ (d.op = apkDepmaskChecksum → (apkDepMatchChecksum db d p.pkg = true ↔
              apkVersionCompare (atomBlob p.version) (atomBlob d.version) &&&
                apkDepmaskChecksum ≠ 0))) := by
  obtain ⟨p, htoken, hdep, rfl⟩ := exists_parts_of_pull hd
  obtain ⟨hop, -, -⟩ := dep_fields hdep
  have htoken' : depToken (asc '!' :: s) = p.negate.text := by
    rw [depToken_bang, htoken, p.negate_text]
  refine ⟨{ d with name := if p.conflict then asc '!' :: d.name else d.name
                   op := p.negate.op }, ?_, fun deppkg q hq => ?_⟩
  · rw [apkBlobPullDepTag_parts htoken', negate_dep hdep]
    rfl
  rw [apkDepIsProvided_negated db p.mask_mem p.negate_op hq, ne_eq, head_iff_conflict htoken]
  cases hc : p.conflict with
  | true =>
    -- the mark is there already, so the operator is the same
    have hop' : d.op = apkVersionConflict ||| p.mask := by
      rw [hop, op, if_pos hc]
    rw [apkDepIsProvided_negated db p.mask_mem hop' hq]
    simp
  | false =>
    have hop' : d.op = p.mask := by
      rw [hop, op, hc]
      exact Nat.zero_or _
    rw [apkDepIsProvided_plain db p.mask_mem hop', hop']
    by_cases hsum : p.mask = apkDepmaskChecksum
    · have hmatch : apkVersionMatch (atomBlob q.version) apkDepmaskChecksum (atomBlob d.version) =
          decide (apkVersionCompare (atomBlob q.version) (atomBlob d.version) &&&
            apkDepmaskChecksum ≠ 0) := rfl
      simp only [hsum, hmatch]
      cases apkDepMatchChecksum db d q.pkg <;> simp
    · simp [hsum]

end

def loneDb : Database Bytes Unit where
  package _ := plainPackage (ascs ['a']) (versionOf '1') [] [] [] 0
  display n := n
  providers n := if n = ascs ['a'] then [⟨(), versionOf '1'⟩] else []
  rdepends _ := []
  rinstallIf _ := []
  solverFlagsSet _ := false
  installed := []
  repoTags := [1]
  availableRepos := 1
  activeLayers := 1
  performingPreupgrade := false
  forceBrokenWorld := false
  undecodedDigest _ := []
  provider_own := by decide
  provider_from := by
    intro n q hq
    split_ifs at hq with hn
    · obtain rfl := List.mem_singleton.1 hq
      exact Or.inl ⟨hn, rfl⟩
    · cases hq

def checksumSpec : Bytes := ascs (['a', '>', '<', 'Q', '1'] ++ List.replicate 27 'A' ++ ['='])

/-- neither a checksum that does not match nor its negation is provided -/
theorem checksum_not_negated : ∃ d d', apkBlobPullDepTag false [[]] checksumSpec = (some (d, []), [[]]) ∧
      apkBlobPullDepTag false [[]] (asc '!' :: checksumSpec) = (some (d', []), [[]]) ∧
      apkDepIsProvided loneDb none d (some ⟨(), versionOf '1'⟩) = false ∧
      apkDepIsProvided loneDb none d' (some ⟨(), versionOf '1'⟩) = false := by
  refine ⟨⟨ascs ['a'], some (checksumSpec.drop 3), apkDepmaskChecksum, false, 0, 0⟩,
    ⟨ascs ['a'], some (checksumSpec.drop 3), apkVersionConflict ||| apkDepmaskChecksum, false, 0, 0⟩,
    ?_⟩
  decide +kernel

theorem conflict_negates_versioned :
    ∃ d', apkBlobPullDepTag false [[]] (ascs ['!', 'a', '>', '1']) = (some (d', []), [[]]) ∧
      ∀ (deppkg : Option Unit) (p : Provider Unit), deppkg ≠ some p.pkg →
        (apkDepIsProvided loneDb deppkg d' (some p) = !apkDepIsProvided loneDb deppkg
              ⟨ascs ['a'], versionOf '1', apkVersionGreater, false, 0, 0⟩ (some p) ↔
          (ascs ['a', '>', '1']).head? ≠ some (asc '!') ∧
            (apkVersionGreater = apkDepmaskChecksum → (apkDepMatchChecksum loneDb
                ⟨ascs ['a'], versionOf '1', apkVersionGreater, false, 0, 0⟩ p.pkg = true ↔
              apkVersionCompare (atomBlob p.version) (atomBlob (versionOf '1')) &&&
                apkDepmaskChecksum ≠ 0))) :=
  conflict_negates_iff loneDb (s := ascs ['a', '>', '1']) (by decide +kernel)

end Alpine

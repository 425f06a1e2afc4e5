import Alpine.Sanity.DepParts
import Alpine.Spec.DepText

/-! `apk_blob_pull_dep` reads the dependency of the parts that the next token has. -/

namespace Alpine

def depToken (b : Bytes) : Bytes := b.takeWhile fun c => !apkCtype .dependencySeparator c

def depRest (b : Bytes) : Bytes :=
  (apkBlobSpn (b.dropWhile fun c => !apkCtype .dependencySeparator c) .dependencySeparator).2

def DepParts.broken (p : DepParts) : Bool :=
  p.op &&& apkDepmaskChecksum ≠ apkDepmaskChecksum ∧ !(p.version.map (·.2)).any apkVersionValidate

def DepParts.dep (p : DepParts) (allowTag : Bool) (tags : List Bytes) :
    Option (Dependency Bytes) × List Bytes :=
  match apkBlobSplit p.name (asc '@') with
  | none => (some ⟨p.name, p.version.map (·.2), p.op, p.broken, 0, 0⟩, tags)
  | some (name, tag) =>
    if !allowTag then (none, tags)
    else
      let id := apkDbGetTagId tags tag
      (some ⟨name, p.version.map (·.2), p.op, p.broken, (id.1 % 64).toNat, 0⟩, id.2)

variable {p : DepParts} {allowTag : Bool} {tags tags' : List Bytes} {d : Dependency Bytes}

variable {b : Bytes}

theorem apkBlobPullDepTag_parts (h : depToken b = p.text) : apkBlobPullDepTag allowTag tags b =
      (((p.dep allowTag tags).1.map fun d => (d, depRest b)), (p.dep allowTag tags).2) := by
  unfold apkBlobPullDepTag DepParts.dep
  unfold depToken at h
  simp only [h, apkDepParse_parts]
  cases apkBlobSplit p.name (asc '@') with
  | none => rfl
  | some r =>
    split_ifs <;> rfl

theorem exists_parts_of_pull {rest : Bytes}
    (h : apkBlobPullDepTag allowTag tags b = (some (d, rest), tags')) :
    ∃ p : DepParts, depToken b = p.text ∧ p.dep allowTag tags = (some d, tags') ∧ rest = depRest b := by
  cases hparse : apkDepParse (depToken b) with
  | none =>
    unfold apkBlobPullDepTag at h
    unfold depToken at hparse
    simp [hparse] at h
  | some r =>
    obtain ⟨p, htext, -⟩ := exists_parts hparse
    refine ⟨p, htext.symm, ?_⟩
    rw [apkBlobPullDepTag_parts htext.symm] at h
    cases hdep : p.dep allowTag tags with
    | mk d' tags'' =>
      rw [hdep] at h
      cases d' with
      | none => simp at h
      | some d' =>
        obtain ⟨⟨rfl, rfl⟩, rfl⟩ : (d' = d ∧ depRest b = rest) ∧ tags'' = tags' := by simpa using h
        exact ⟨rfl, rfl⟩

theorem DepParts.dep_cases (h : p.dep allowTag tags = (some d, tags')) :
    (apkBlobSplit p.name (asc '@') = none ∧ tags' = tags ∧
      d = ⟨p.name, p.version.map (·.2), p.op, p.broken, 0, 0⟩) ∨
    ∃ name tag, apkBlobSplit p.name (asc '@') = some (name, tag) ∧ allowTag = true ∧
      tags' = (apkDbGetTagId tags tag).2 ∧
      d = ⟨name, p.version.map (·.2), p.op, p.broken, ((apkDbGetTagId tags tag).1 % 64).toNat, 0⟩ := by
  unfold DepParts.dep at h
  cases hsplit : apkBlobSplit p.name (asc '@') with
  | none =>
    rw [hsplit] at h
    obtain ⟨rfl, rfl⟩ : _ = d ∧ tags = tags' := by simpa using h
    exact Or.inl ⟨rfl, rfl, rfl⟩
  | some r =>
    rw [hsplit] at h
    cases allowTag with
    | false => simp at h
    | true =>
      obtain ⟨rfl, rfl⟩ : _ = d ∧ _ = tags' := by simpa using h
      exact Or.inr ⟨r.1, r.2, rfl, rfl, rfl, rfl⟩

theorem DepParts.dep_fields (h : p.dep allowTag tags = (some d, tags')) :
    d.op = p.op ∧ d.version = p.version.map (·.2) ∧ d.broken = p.broken := by
  rcases DepParts.dep_cases h with ⟨-, -, rfl⟩ | ⟨_, _, -, -, -, rfl⟩
  · exact ⟨rfl, rfl, rfl⟩
  · exact ⟨rfl, rfl, rfl⟩

end Alpine

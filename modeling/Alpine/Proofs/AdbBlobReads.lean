import Alpine.Spec.AdbRead

/-! Where the blobs of a database point to. `adb_r_blob` checks that the bytes of a blob are in the
database, but it returns their number with the NULL of the failed check, and who hashes or copies the
blob looks at the number. -/

namespace Alpine

variable {adb : Bytes} {v : ℕ}

/-- the bytes that the length announces are there, if the length is -/
def BlobFits (adb : Bytes) (v : ℕ) : Prop :=
  let width := blobWidth (adbValType v)
  width = 0 ∨ adb.length < adbValValue v + width ∨
    adbValValue v + width + leNat ((adb.drop (adbValValue v)).take width) ≤ adb.length

def BlobPtr.Inside (adb : Bytes) (b : BlobPtr) : Prop := ∃ p, b.ptr = some p ∧ p + b.len ≤ adb.length

theorem adbRBlobPtr_safe_iff :
    (adbRBlobPtr adb v).Inside adb ∨ adbRBlobPtr adb v = ⟨none, 0⟩ ↔ BlobFits adb v := by
  unfold BlobPtr.Inside BlobFits adbRBlobPtr adbRBlobPtrOf adbRPtr
  grind

theorem adbRBlob_eq_ptr : adbRBlob adb v =
    (adbRBlobPtr adb v).ptr.map fun p => (adb.drop p).take (adbRBlobPtr adb v).len := by
  have hof (width : ℕ) : adbRBlobOf adb v width = (adbRBlobPtrOf adb v width).ptr.map fun p =>
      (adb.drop p).take (adbRBlobPtrOf adb v width).len := by
    unfold adbRBlobOf adbRBlobPtrOf adbRPtr adbRDeref
    grind
  unfold adbRBlob adbRBlobPtr blobWidth
  simp only [hof]
  split_ifs <;> first | rfl | contradiction

theorem pkgtmplReads_le {pkginfo : AdbObj} {r : ℕ × (ℕ → ℕ)} (h : r ∈ pkgtmplReads adb pkginfo)
    (n : ℕ) : r.2 n ≤ n := by
  have hdigest : adbDigestRead n ≤ n := by
    unfold adbDigestRead
    split_ifs <;> omega
  have hcommit : commitRead n ≤ n := by
    unfold commitRead
    split_ifs <;> omega
  simp only [pkgtmplReads, List.mem_append, List.mem_cons, List.mem_flatMap, List.mem_map,
    List.not_mem_nil, or_false] at h
  rcases h with (h | ⟨_, _, _, _, rfl | rfl⟩) | ⟨_, _, rfl⟩
  · rcases h with rfl | rfl | rfl | rfl | rfl | rfl | rfl | rfl | rfl | rfl <;> simp [*]
  all_goals exact le_rfl

theorem adb_blob_reads_inside (adb : Bytes) :
    (∀ v, (adbRBlobPtr adb v).Inside adb ∨ adbRBlobPtr adb v = ⟨none, 0⟩ ↔ BlobFits adb v) ∧
      ∀ pkginfo, (∀ r ∈ pkgtmplReads adb pkginfo, BlobFits adb r.1) →
        ∀ r ∈ pkgtmplReads adb pkginfo, r.2 (adbRBlobPtr adb r.1).len = 0 ∨
          ∃ data, readBytes adb (adbRBlobPtr adb r.1).ptr (r.2 (adbRBlobPtr adb r.1).len) = .ok data := by
  refine ⟨fun v => adbRBlobPtr_safe_iff, fun pkginfo hfits r hr => ?_⟩
  have hle := pkgtmplReads_le hr (adbRBlobPtr adb r.1).len
  rcases adbRBlobPtr_safe_iff.2 (hfits r hr) with ⟨p, hp, hin⟩ | hnull
  · rw [hp]
    exact Or.inr ⟨_, if_neg (by omega)⟩
  · rw [hnull] at hle ⊢
    exact Or.inl (Nat.le_zero.1 hle)

theorem adb_blob_reads_inside_name :
    let adb : Bytes := [1, asc 'a']
    let pkginfo : AdbObj := ⟨2, [2, adbVal adbTypeBlob8 0]⟩
    ∀ r ∈ pkgtmplReads adb pkginfo, r.2 (adbRBlobPtr adb r.1).len = 0 ∨
      ∃ data, readBytes adb (adbRBlobPtr adb r.1).ptr (r.2 (adbRBlobPtr adb r.1).len) = .ok data :=
  (adb_blob_reads_inside [1, asc 'a']).2 ⟨2, [2, adbVal adbTypeBlob8 0]⟩ (by
    unfold BlobFits
    decide)

/-- the name of a package is hashed through NULL -/
theorem adb_blob_null_read :
    let adb : Bytes := [200]
    let pkginfo : AdbObj := ⟨2, [2, adbVal adbTypeBlob8 0]⟩
    adbRBlobPtr adb (adbRoVal pkginfo adbiPiName) = ⟨none, 200⟩ ∧
      ∃ r ∈ pkgtmplReads adb pkginfo, r.1 = adbRoVal pkginfo adbiPiName ∧
        readBytes adb (adbRBlobPtr adb r.1).ptr (r.2 (adbRBlobPtr adb r.1).len) = .error .null := by
  decide

end Alpine

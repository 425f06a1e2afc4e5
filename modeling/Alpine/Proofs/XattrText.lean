import Alpine.Proofs.AdbRoundTrip
import Alpine.Proofs.BlobCodecs

/-! The text of an extended attribute, and what is stored when it is read back: the sign that stands in
the text between name and value takes the place of the zero byte. -/

namespace Alpine

open List

theorem hexText_no_equals {binary : Bytes} : asc '=' ∉ hexText binary := by
  have hdigit : ∀ n < 16, asc '=' ≠ xd n := by decide
  induction binary with
  | nil => exact not_mem_nil
  | cons c b ih =>
    simp only [hexText, mem_cons, not_or]
    exact ⟨hdigit _ nibble_lt, hdigit _ nibble_lt, ih⟩

variable {adb name value : Bytes} {val : ℕ} {fresh : ℕ → UInt8} {hash : List Bytes → ℕ} {db : AdbWriter}

theorem xattrTostring_fits {bufsz : ℕ} (hname : 0 ∉ name)
    (hval : adbRBlob adb val = some (name ++ 0 :: value))
    (hfits : name.length + 1 + 2 * value.length ≤ bufsz) :
    xattrTostring adb val bufsz = some (name ++ asc '=' :: hexText value) := by
  have hk : ¬ bufsz < name.length := by omega
  have hs : ¬ bufsz - name.length < [asc '='].length := by
    simp only [length_cons, length_nil]
    omega
  have hv : ¬ bufsz - name.length - [asc '='].length < value.length * 2 := by
    simp only [length_cons, length_nil]
    omega
  simp only [xattrTostring, hval, Option.bind_some, apkBlobSplit_append hname, apkBlobPushBlob,
    apkBlobPushHexdump, if_neg hk, if_neg hs, if_neg hv, nil_append, append_assoc,
    singleton_append]

theorem bytes_getD {b : Bytes} : Window.bytes (fun i => b.getD i 0) ⟨0, b.length⟩ = b := by
  refine ext_getElem (by simp [Window.length_bytes]) fun i h1 h2 => ?_
  simp [Window.bytes, h2]

theorem xattrFromstring_text (hvalue : value.length ≤ 256) :
    xattrFromstring fresh hash db (name ++ asc '=' :: hexText value) =
      adbWBlobVec fresh hash db [name ++ [asc '='], value] := by
  have hlen := length_hexText value
  have heven : ¬ (hexText value).length % 2 = 1 := by omega
  have hsmall : ¬ 256 < (hexText value).length / 2 := by omega
  have hdst : (replicate ((hexText value).length / 2) (0 : UInt8)).length = value.length := by
    rw [length_replicate]
    omega
  have hpull := pullHexdump_fold (fun i => (hexText value).getD i 0)
    (Int.natCast_nonneg (hexText value).length) hdst hexText_fold
    (bytes_getD.trans (append_nil _).symm)
  have hname : (name ++ asc '=' :: hexText value).take (name.length + 1) = name ++ [asc '='] := by
    rw [append_cons, take_left' (by simp)]
  simp only [xattrFromstring, apkBlobRsplit_append hexText_no_equals, hname, if_neg heven, if_neg hsmall]
  rw [hpull]
  rfl

/-- what is read back from the text of an attribute: its sign has taken the place of the zero byte -/
theorem xattr_stored (hdb : db.Ready) (hname : 0 ∉ name)
    (hval : adbRBlob adb val = some (name ++ 0 :: value))
    (hfits : name.length + 1 + 2 * value.length ≤ 256)
    (hroom : db.lenAfter hash (.blobVec ⟨[name ++ [asc '='], value], by simp⟩) ≤ 2 ^ 28) :
    ∃ text v db', xattrTostring adb val 256 = some text ∧
      xattrFromstring fresh hash db text = some (v, db') ∧
      adbRBlob db'.adb v = some (name ++ asc '=' :: value) := by
  obtain ⟨v, db', hwrite, -, -, hat, -⟩ := adbWrite_some fresh hash hdb hroom
  refine ⟨_, v, db', xattrTostring_fits hname hval hfits, ?_, ?_⟩
  · rw [xattrFromstring_text (by omega)]
    exact hwrite
  · have hread := hat.readsBack (by simp)
    simpa using hread

/-- an attribute that fits the buffer of the dump comes back with `=` behind its name, so never as it
was -/
theorem xattr_text_replaces_zero (fresh : ℕ → UInt8) (hash : List Bytes → ℕ) {db : AdbWriter}
    (hdb : db.Ready) {adb : Bytes} {val : ℕ} {name value : Bytes} (hname : 0 ∉ name)
    (hval : adbRBlob adb val = some (name ++ 0 :: value))
    (hfits : name.length + 1 + 2 * value.length ≤ 256)
    (hroom : db.lenAfter hash (.blobVec ⟨[name ++ [asc '='], value], by simp⟩) ≤ 2 ^ 28) :
    ∃ text v db', xattrTostring adb val 256 = some text ∧
      xattrFromstring fresh hash db text = some (v, db') ∧
      adbRBlob db'.adb v = some (name ++ asc '=' :: value) ∧ adbRBlob db'.adb v ≠ adbRBlob adb val := by
  obtain ⟨text, v, db', htext, hstore, hread⟩ := xattr_stored hdb hname hval hfits hroom
  refine ⟨text, v, db', htext, hstore, hread, ?_⟩
  rw [hread, hval]
  simp only [ne_eq, Option.some.injEq, append_cancel_left_eq, cons.injEq]
  decide

/-- a database whose only blob is the attribute `a` with the value `05` -/
def xattrDb : Bytes := List.replicate 8 0 ++ [3, 97, 0, 5]

def xattrVal : ℕ := adbVal adbTypeBlob8 8

theorem xattrDb_room : ∀ db ∈ adbWInitDynamic (fun _ => 0) 1,
    db.lenAfter List.length (.blobVec ⟨[[97, asc '='], [5]], by simp⟩) ≤ 2 ^ 28 := by
  decide +kernel

theorem xattr_text_replaces_zero_short : ∃ db text v db', adbWInitDynamic (fun _ => 0) 1 = some db ∧
      xattrTostring xattrDb xattrVal 256 = some text ∧
      xattrFromstring (fun _ => 0) List.length db text = some (v, db') ∧
      adbRBlob db'.adb v = some [97, asc '=', 5] ∧ adbRBlob db'.adb v ≠ adbRBlob xattrDb xattrVal := by
  obtain ⟨db, hinit, hready⟩ := adbWInitDynamic_some (show 0 < 1 by decide)
  obtain ⟨text, v, db', h⟩ := xattr_text_replaces_zero (fun _ => 0) List.length hready
    (show (0 : UInt8) ∉ [97] by decide) (show adbRBlob xattrDb xattrVal = some ([97] ++ 0 :: [5]) by decide)
    (by decide) (xattrDb_room db hinit)
  exact ⟨db, text, v, db', hinit, h⟩

theorem xattr_text_changes_bytes : ∃ db text v db', adbWInitDynamic (fun _ => 0) 1 = some db ∧
      adbRBlob xattrDb xattrVal = some [97, 0, 5] ∧
      xattrTostring xattrDb xattrVal 256 = some text ∧
      xattrFromstring (fun _ => 0) List.length db text = some (v, db') ∧
      adbRBlob db'.adb v ≠ some [97, 0, 5] := by
  obtain ⟨db, hinit, hready⟩ := adbWInitDynamic_some (show 0 < 1 by decide)
  have hval : adbRBlob xattrDb xattrVal = some ([97] ++ 0 :: [5]) := by decide
  obtain ⟨text, v, db', htext, hstore, hread⟩ := xattr_stored hready
    (show (0 : UInt8) ∉ [97] by decide) hval (by decide) (xattrDb_room db hinit)
  exact ⟨db, text, v, db', hinit, hval, htext, hstore, by rw [hread]; decide⟩

end Alpine

import Alpine.Spec.PkgName
import Alpine.Sanity.Blob

/-! The lookup of a package by its file name tries the beginnings of the file name that end before a
separator. It finds a package just if one of those that render to the file name has such a beginning as
its name, which a directory in front of the name prevents. -/

namespace Alpine

open List

variable {sz room : ℕ} {res : Bytes → Except ℤ Bytes} {fmt out text : Bytes}

variable {c : UInt8} {pkg : NamedPkg}

theorem splitAtBlob_some {sep l r : Bytes} (h : splitAtBlob sep fmt = some (l, r)) : fmt = l ++ sep ++ r := by
  induction fmt generalizing l with
  | nil => cases h
  | cons x fmt ih =>
    rw [splitAtBlob] at h
    split_ifs at h with hsep
    · obtain ⟨rest, hrest⟩ := isPrefixOf_iff_prefix.1 hsep
      obtain ⟨rfl, rfl⟩ : [] = l ∧ (x :: fmt).drop sep.length = r := by simpa using h
      rw [← hrest, drop_left]
      rfl
    obtain ⟨⟨l', r'⟩, hsplit, heq⟩ := Option.map_eq_some_iff.1 h
    obtain ⟨rfl, rfl⟩ : x :: l' = l ∧ r' = r := by simpa using heq
    rw [ih hsplit]
    rfl

theorem pullUintLoop_slash {val : ℕ} {b : Bytes} (h : (pullUintLoop 10 val b).2 = []) : asc '/' ∉ b := by
  induction b generalizing val with
  | nil => exact not_mem_nil
  | cons c b ih =>
    rw [pullUintLoop] at h
    split_ifs at h with h0 hdigit
    rw [mem_cons, not_or]
    refine ⟨?_, ih h⟩
    rintro rfl
    exact hdigit (by decide)

/-- what a rendering comes to: a separator of directories stays in the text -/
def Renders (slash : Prop) : Except ℤ Bytes → Prop
  | .ok text => slash → asc '/' ∈ text
  | .error e => e ≠ 0

theorem substLoop_renders (hres : ∀ key, Renders (asc '/' ∈ key) (res key) ∧
      ∀ value, res key = .ok value → asc '/' ∉ key) :
    Renders (asc '/' ∈ out ∨ asc '/' ∈ fmt) (substLoop sz res room fmt out) := by
  induction room generalizing fmt out with
  | zero => exact show -apkeFormatInvalid ≠ 0 by decide
  | succ room ih =>
    have hsize : ∀ {slash : Prop}, Renders slash (.error (-apkeBufferSize)) :=
      show -apkeBufferSize ≠ 0 by decide
    have hformat : ∀ {slash : Prop}, Renders slash (.error (-apkeFormatInvalid)) :=
      show -apkeFormatInvalid ≠ 0 by decide
    -- a value is rendered behind the literal text
    have hvalue : ∀ {literal key fmt' : Bytes} (len : Bytes) (cut : Bytes → Bytes), asc '/' ∉ len →
        (asc '/' ∈ fmt → asc '/' ∈ literal ∨ asc '/' ∈ key ∨ asc '/' ∈ len ∨ asc '/' ∈ fmt') →
        Renders (asc '/' ∈ out ∨ asc '/' ∈ fmt) (do
          let value ← res key
          if (out ++ literal).length + value.length > sz then .error (-apkeBufferSize)
          else substLoop sz res room fmt' (out ++ literal ++ cut value)) := by
      intro literal key fmt' len cut hlen hparts
      cases hk : res key with
      | error e => exact (hk ▸ (hres key).1 : Renders _ (.error e))
      | ok value =>
        have hkey := (hres key).2 value hk
        have hnext := @ih fmt' (out ++ literal ++ cut value)
        simp only [bind, Except.bind]
        split_ifs
        · exact hsize
        cases hs : substLoop sz res room fmt' (out ++ literal ++ cut value) with
        | error e => exact (hs ▸ hnext : Renders _ (.error e))
        | ok text =>
          intro hslash
          refine (hs ▸ hnext : Renders _ (.ok text)) ?_
          simp only [mem_append]
          tauto
    rw [substLoop]
    split
    · split_ifs
      · exact fun hslash => mem_append.2 hslash
      · exact hsize
    rename_i literal key hsplit
    obtain rfl := splitAtBlob_some hsplit
    dsimp only
    split_ifs
    · exact hsize
    split
    · exact hformat
    rename_i key fmt' hkey
    obtain ⟨rfl, -⟩ := apkBlobSplit_some hkey
    have hvar : asc '/' ∉ [asc '$', asc '\x7b'] ∧ asc '/' ≠ asc '\x7d' ∧ asc '/' ≠ asc ':' := by decide
    split
    · refine hvalue [] id not_mem_nil ?_
      simp only [mem_append, mem_cons]
      tauto
    · rename_i key len hlen
      obtain ⟨rfl, -⟩ := apkBlobSplit_some hlen
      split_ifs with hpull
      · exact hformat
      · refine hvalue _ (take _) (pullUintLoop_slash (not_not.1 hpull)) ?_
        simp only [mem_append, mem_cons]
        tauto

theorem apkPkgSubst_renders (pkg : NamedPkg) (key : Bytes) :
    Renders (asc '/' ∈ key) (apkPkgSubst pkg key) ∧
      ∀ value, apkPkgSubst pkg key = .ok value → asc '/' ∉ key := by
  have hkeys : asc '/' ∉ lit "name" ∧ asc '/' ∉ lit "version" ∧ asc '/' ∉ lit "arch" ∧
      asc '/' ∉ lit "hash" := by decide +kernel
  unfold apkPkgSubst
  simp only [apkBlobCompare_eq_zero_iff]
  split_ifs with h h h h
  · exact ⟨fun hs => absurd (h ▸ hs) hkeys.1, fun _ _ => h ▸ hkeys.1⟩
  · exact ⟨fun hs => absurd (h ▸ hs) hkeys.2.1, fun _ _ => h ▸ hkeys.2.1⟩
  · exact ⟨fun hs => absurd (h ▸ hs) hkeys.2.2.1, fun _ _ => h ▸ hkeys.2.2.1⟩
  · exact ⟨fun hs => absurd (h ▸ hs) hkeys.2.2.2, fun _ _ => h ▸ hkeys.2.2.2⟩
  · exact ⟨show -apkePackageNameSpec ≠ 0 by decide, nofun⟩

theorem apkPkgSubstValidate_var {spec : Bytes} (h : apkPkgSubstValidate spec = 0) :
    nameVar.isPrefixOf (nameFormat spec) = true := by
  have hno : -apkePackageNameSpec ≠ 0 := by decide
  unfold apkPkgSubstValidate at h
  split at h
  · rename_i r hr
    subst h
    exact absurd rfl (hr ▸ substLoop_renders (apkPkgSubst_renders _) :
      Renders (asc '/' ∈ [] ∨ asc '/' ∈ spec) (.error 0))
  simp only at h
  split_ifs at h with hvar
  · exact absurd h hno
  · exact absurd h hno
  · simpa using hvar

/-- the format that the lookup renders with is the one that the file name comes from -/
theorem lookup_format {spec filename : Bytes}
    (hfile : apkBlobSubst pathMax spec (apkPkgSubst pkg) = .ok filename) :
    (if asc '/' ∈ filename then spec else nameFormat spec) = spec := by
  split_ifs with hslash
  · rfl
  have hspec : asc '/' ∉ spec := fun hs => hslash ((hfile ▸ substLoop_renders (apkPkgSubst_renders _) :
    Renders (asc '/' ∈ [] ∨ asc '/' ∈ spec) (.ok filename)) (Or.inr hs))
  unfold nameFormat
  rw [apkBlobRsplit_none hspec]
  rfl

theorem matchesFile_iff {format name filename : Bytes} {size : ℕ} :
    matchesFile format name filename size pkg = true ↔ pkg.name = name ∧ pkg.size = size ∧
      apkBlobSubst pathMax format (apkPkgSubst pkg) = .ok filename := by
  unfold matchesFile
  rw [Bool.and_eq_true, Bool.and_eq_true, decide_eq_true_iff, decide_eq_true_iff, and_assoc]
  refine and_congr_right fun _ => and_congr_right fun _ => ?_
  cases apkBlobSubst pathMax format (apkPkgSubst pkg) with
  | error e => simp
  | ok b =>
    simp only [decide_eq_true_iff, apkBlobCompare_eq_zero_iff, Except.ok.injEq]
    exact eq_comm

/-- what comes behind the name in the last piece of a specification -/
def nameSeparator (spec : Bytes) : UInt8 := (nameFormat spec).getD 7 0

theorem take_separator {filename : Bytes} {i : ℕ} (hi : i < filename.length) :
    filename.take i ++ [c] <+: filename ↔ filename.getD i 0 = c := by
  rw [getD_eq_getElem _ _ hi]
  constructor
  · intro h
    have := prefix_iff_eq_take.1 h
    rw [length_append, length_take_of_le hi.le, length_singleton, take_succ_eq_append_getElem hi,
      append_cancel_left_eq] at this
    exact (cons.inj this).1.symm
  · rintro rfl
    rw [← take_succ_eq_append_getElem hi]
    exact List.take_prefix _ _

/-- A package is found by the file name of a package, with its size, just if one of the packages of this
size that render to the file name has a name that is not empty and that the file name begins with,
up to a separator. -/
theorem file_name_found_iff (db : NameTable) {spec : Bytes} (hspec : apkPkgSubstValidate spec = 0)
    {pkg : NamedPkg} {filename : Bytes}
    (hfile : apkBlobSubst pathMax spec (apkPkgSubst pkg) = .ok filename) :
    (∃ found, apkDbGetPkgByName db filename pkg.size spec = some found ∧ found ∈ db.providers found.name ∧
      apkBlobSubst pathMax spec (apkPkgSubst found) = .ok filename ∧ found.size = pkg.size) ↔
    ∃ p, p ∈ db.providers p.name ∧ apkBlobSubst pathMax spec (apkPkgSubst p) = .ok filename ∧
      p.size = pkg.size ∧ p.name ≠ [] ∧ p.name ++ [nameSeparator spec] <+: filename := by
  have hlookup : apkDbGetPkgByName db filename pkg.size spec =
      (range' 1 (filename.length - 1)).findSome? fun i =>
        if filename.getD i 0 ≠ nameSeparator spec then none
        else (db.providers (filename.take i)).find?
          (matchesFile spec (filename.take i) filename pkg.size) := by
    unfold apkDbGetPkgByName
    simp only [apkPkgSubstValidate_var hspec, lookup_format hfile, Bool.not_true, Bool.false_eq_true,
      if_false, nameSeparator]
    rfl
  rw [hlookup]
  constructor
  · rintro ⟨found, hfound, hmem, hrender, hsize⟩
    obtain ⟨i, hi, hfind⟩ := exists_of_findSome?_eq_some hfound
    rw [mem_range'_1] at hi
    have hlt : i < filename.length := by omega
    split_ifs at hfind with hsep
    obtain ⟨hname, -⟩ := matchesFile_iff.1 (find?_some hfind)
    refine ⟨found, hmem, hrender, hsize, ?_, ?_⟩
    · rw [hname]
      exact ne_nil_of_length_pos (by rw [length_take]; omega)
    · rw [hname]
      exact (take_separator hlt).2 (not_not.1 hsep)
  · rintro ⟨p, hmem, hrender, hsize, hne, hstart⟩
    have hlen := hstart.length_le
    rw [length_append, length_singleton] at hlen
    have htake : filename.take p.name.length = p.name :=
      (prefix_iff_eq_take.1 ((prefix_append _ _).trans hstart)).symm
    have hsep := (take_separator hlen).1 (htake.symm ▸ hstart)
    cases hfound : (range' 1 (filename.length - 1)).findSome? _ with
    | none =>
      -- the name of the package is one of those that are tried
      have hpos := length_pos_iff.2 hne
      have hnone := findSome?_eq_none_iff.1 hfound p.name.length (by
        rw [mem_range'_1]
        omega)
      rw [if_neg (not_not.2 hsep), htake, find?_eq_none] at hnone
      exact absurd (matchesFile_iff.2 ⟨rfl, hsize, hrender⟩) (hnone p hmem)
    | some found =>
      obtain ⟨i, -, hi⟩ := exists_of_findSome?_eq_some hfound
      split_ifs at hi
      obtain ⟨-, hsize', hrender'⟩ := matchesFile_iff.1 (find?_some hi)
      exact ⟨found, rfl, db.own _ _ (mem_of_find?_eq_some hi), hrender', hsize'⟩

def fooPkg : NamedPkg := ⟨lit "foo", lit "1.0", lit "x86_64", [], 7⟩

def fooTable : NameTable where
  providers name := if name = fooPkg.name then [fooPkg] else []
  own name p hp := by
    split_ifs at hp
    · rw [mem_singleton.1 hp, if_pos rfl]
      exact mem_singleton.2 rfl
    · cases hp

theorem fooPkg_mem : fooPkg ∈ fooTable.providers fooPkg.name := by
  rw [show fooTable.providers fooPkg.name = [fooPkg] from if_pos rfl]
  exact mem_singleton.2 rfl

/-- a directory that is named like the file does no harm -/
theorem file_name_found_foo : ∃ found,
    apkDbGetPkgByName fooTable (lit "foo-1.0/foo-1.0.apk") 7
        (nameVar ++ lit "-$\x7bversion\x7d/" ++ nameVar ++ lit "-$\x7bversion\x7d.apk") = some found ∧
      found.size = 7 := by
  have hspec : apkPkgSubstValidate
      (nameVar ++ lit "-$\x7bversion\x7d/" ++ nameVar ++ lit "-$\x7bversion\x7d.apk") = 0 := by decide +kernel
  have hfile : apkBlobSubst pathMax
      (nameVar ++ lit "-$\x7bversion\x7d/" ++ nameVar ++ lit "-$\x7bversion\x7d.apk")
      (apkPkgSubst fooPkg) = .ok (lit "foo-1.0/foo-1.0.apk") := by with_unfolding_all rfl
  obtain ⟨found, hfound, -, -, hsize⟩ := (file_name_found_iff fooTable hspec hfile).2
    ⟨fooPkg, fooPkg_mem, hfile, rfl, by decide +kernel, by decide +kernel⟩
  exact ⟨found, hfound, hsize⟩

/-- with the architecture as a directory the names that are tried start with the directory -/
theorem file_name_directory_lost :
    let spec := lit "$\x7barch\x7d/$\x7bname\x7d-$\x7bversion\x7d.apk"
    apkPkgSubstValidate spec = 0 ∧ fooPkg ∈ fooTable.providers fooPkg.name ∧
      apkBlobSubst pathMax spec (apkPkgSubst fooPkg) = .ok (lit "x86_64/foo-1.0.apk") ∧
      apkDbGetPkgByName fooTable (lit "x86_64/foo-1.0.apk") fooPkg.size spec = none := by
  refine ⟨?_, fooPkg_mem, ?_, ?_⟩
  · decide +kernel
  · with_unfolding_all rfl
  · decide +kernel

end Alpine

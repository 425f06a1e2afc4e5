import Alpine.Proofs.DepPrint
import Alpine.Proofs.FdbRoundTrip

/-! The buffers of `apk_db_fdb_write`. What the readers accept has no bound but that of a line, so a
package can be installed and then not be written. -/

namespace Alpine

/-- the pieces are there, and together they fit a buffer -/
def fitsBuffer (size : ℕ) (pieces : List (Option Bytes)) : Bool :=
  (joinPieces pieces).any fun t => decide (t.length ≤ size)

/-- each dependency of a list fits 256 bytes, with the blank before it if something is written before -/
def depsFit : Bool → List (Dependency Bytes) → Bool
  | _, [] => true
  | before, d :: ds =>
    decide (before.toNat + (depText d).length ≤ 256) && depsFit (before || decide (depText d ≠ [])) ds

/-- every text of a package fits the buffer that it goes through: the header, each dependency, the
lines of the package with those of its first directory, and from there on the lines of each directory
and of each file -/
structure HasRoom (tags : List Bytes) (p : FdbPackage) : Prop where
  header : fitsBuffer 2048 (headerPieces p) = true
  deps : ∀ ds ∈ [p.info.depends, p.info.provides, p.info.installIf], depsFit false ds = true
  first : ∀ d ∈ p.diris.head?, fitsBuffer fdbBufSize (ipkgPieces tags p.ipkg ++ dirPieces d) = true
  dirs : ∀ d ∈ p.diris.tail, fitsBuffer fdbBufSize (dirPieces d) = true
  files : ∀ d ∈ p.diris, ∀ f ∈ d.files, f.audited = false → fitsBuffer fdbBufSize (filePieces f) = true

section Results

variable {α β : Type} {x : Option α} {f : α → Option β} {g : α → β} {C : Prop}

theorem bind_results_iff (h : ∀ a, x = some a → ((∃ t, f a = some t) ↔ C)) :
    (∃ t, x.bind f = some t) ↔ (∃ a, x = some a) ∧ C := by
  cases x with
  | none => simp
  | some a => simp [← h a rfl]

theorem map_results_iff : (∃ t, x.map g = some t) ↔ ∃ a, x = some a := by
  cases x <;> simp

end Results

variable {pieces : List (Option Bytes)} {size : ℕ} {b t : Bytes}

theorem pushPieces_length (hb : b.length ≤ size) (h : pushPieces size (some b) pieces = some t) :
    t.length ≤ size := by
  induction pieces generalizing b with
  | nil => rwa [← Option.some.inj h]
  | cons p pieces ih =>
    have hstep : pushPieces size (pushPiece size (some b) p) pieces = some t := h
    cases p with
    | none =>
      rw [pushPiece, Option.bind_some, Option.bind_none, pushPieces_none] at hstep
      cases hstep
    | some p =>
      simp only [pushPiece, Option.bind_some] at hstep
      split_ifs at hstep with hfits
      · exact ih (by simpa using hfits) hstep
      · rw [pushPieces_none] at hstep
        cases hstep

theorem pushPieces_fits_iff : (∃ t, pushPieces size (some []) pieces = some t) ↔ fitsBuffer size pieces = true := by
  rw [fitsBuffer, Option.any_eq_true]
  constructor
  · rintro ⟨t, ht⟩
    obtain ⟨u, hu, htu⟩ := pushPieces_some ht
    rw [htu] at ht
    exact ⟨u, hu, decide_eq_true (pushPieces_length (Nat.zero_le _) ht)⟩
  · rintro ⟨u, hu, hfits⟩
    exact ⟨_, pushPieces_of_join hu (by simpa using hfits)⟩

theorem depsWrite_iff (ds : List (Dependency Bytes)) (os : Bytes) :
    (∃ t, depsWrite ds os = some t) ↔ depsFit (decide (os ≠ [])) ds = true := by
  induction ds generalizing os with
  | nil => exact iff_of_true ⟨os, rfl⟩ rfl
  | cons d ds ih =>
    have hjoin : joinPieces ((if os = [] then [] else [some [asc ' ']]) ++ (depPieces none d).map some) =
        some ((if os = [] then [] else [asc ' ']) ++ depText d) := by
      rw [joinPieces_append, joinPieces_map_some]
      split_ifs <;> rfl
    rw [depsWrite, depsFit, Bool.and_eq_true]
    refine (bind_results_iff fun b hb => ?_).trans (and_congr_left' (pushPieces_fits_iff.trans ?_))
    · obtain ⟨u, hu, rfl⟩ := pushPieces_some hb
      rw [ih, ← Option.some.inj (hjoin.symm.trans hu)]
      by_cases hos : os = [] <;> simp [hos]
    · rw [fitsBuffer, hjoin]
      by_cases hos : os = [] <;> simp [hos, Nat.add_comm]

theorem writeDepends_iff (c : Char) (ds : List (Dependency Bytes)) :
    (∃ t, writeDepends c ds = some t) ↔ depsFit false ds = true := by
  unfold writeDepends
  split_ifs with hds
  · rw [hds]
    exact iff_of_true ⟨_, rfl⟩ rfl
  · exact map_results_iff.trans (depsWrite_iff ds [])

theorem writeFiles_iff (files : List FdbFile) : (∃ t, writeFiles files = some t) ↔
    ∀ f ∈ files, f.audited = false → fitsBuffer fdbBufSize (filePieces f) = true := by
  induction files with
  | nil => exact iff_of_true ⟨[], rfl⟩ (by simp)
  | cons f files ih =>
    rw [writeFiles, List.forall_mem_cons]
    split_ifs with ha
    · simp [ha, ih]
    · rw [bind_results_iff fun b _ => map_results_iff, pushPieces_fits_iff, ih]
      simp [ha]

theorem writeDiris_iff (diris : List FdbDir) :
    (∃ t, writeDiris (pushPieces fdbBufSize (some []) pieces) diris = some t) ↔
      (∀ d ∈ diris.head?, fitsBuffer fdbBufSize (pieces ++ dirPieces d) = true) ∧
      (∀ d ∈ diris.tail, fitsBuffer fdbBufSize (dirPieces d) = true) ∧
      ∀ d ∈ diris, ∀ f ∈ d.files, f.audited = false → fitsBuffer fdbBufSize (filePieces f) = true := by
  induction diris generalizing pieces with
  | nil => exact iff_of_true ⟨[], rfl⟩ (by simp)
  | cons d diris ih =>
    -- the buffer is empty behind the first directory
    have hrest : (∃ t, writeDiris (some []) diris = some t) ↔ _ := @ih []
    rw [writeDiris, bind_results_iff fun b _ => bind_results_iff fun t _ => map_results_iff.trans hrest,
      writeFiles_iff, pushPieces, pushPieces, ← List.foldl_append, ← pushPieces, pushPieces_fits_iff,
      List.forall_mem_cons]
    simp only [List.nil_append, List.head?_cons, Option.mem_some_iff, forall_eq', List.tail_cons]
    have hdirs : (∀ d ∈ diris, fitsBuffer fdbBufSize (dirPieces d) = true) ↔
        (∀ d ∈ diris.head?, fitsBuffer fdbBufSize (dirPieces d) = true) ∧
          ∀ d ∈ diris.tail, fitsBuffer fdbBufSize (dirPieces d) = true := by
      cases diris <;> simp
    rw [hdirs]
    tauto

/-- A package is written exactly if its texts have room. -/
theorem fdb_write_room_iff (tags : List Bytes) (p : FdbPackage) :
    (∃ text, apkDbFdbWrite tags p = some text) ↔ HasRoom tags p := by
  rw [apkDbFdbWrite, bind_results_iff fun h _ => map_results_iff.trans (writeDiris_iff p.diris),
    apkPkgWriteIndexHeader, bind_results_iff fun h _ => bind_results_iff fun d _ =>
      bind_results_iff fun v _ => map_results_iff, pushPieces_fits_iff, writeDepends_iff, writeDepends_iff,
    writeDepends_iff]
  constructor
  · rintro ⟨⟨hheader, hdepends, hprovides, hinstallIf⟩, hfirst, hdirs, hfiles⟩
    exact ⟨hheader, by simp [hdepends, hprovides, hinstallIf], hfirst, hdirs, hfiles⟩
  · rintro ⟨hheader, hdeps, hfirst, hdirs, hfiles⟩
    simp only [List.forall_mem_cons] at hdeps
    exact ⟨⟨hheader, hdeps.1, hdeps.2.1, hdeps.2.2.1⟩, hfirst, hdirs, hfiles⟩

def longIndex : Bytes :=
  lit "C:Q1AAAAAAAAAAAAAAAAAAAAAAAAAAA=\nP:a\nV:1\nT:" ++ List.replicate 2048 (asc 'x') ++ ln ++ ln

/-- the index is read, and its package cannot be written once it is installed -/
theorem fdb_write_no_room : (apkDbIndexRead (emptyFdb [[]] false) longIndex).map (fun st =>
      st.result.map fun p => (p.name, p.info.description.length, apkDbFdbWrite [[]] p)) =
      some [(lit "a", 2048, none)] := by
  decide +kernel

end Alpine

import Alpine.Sanity.FdbReads

/-! Which file a line `a:` or `Z:` of the installed database is about. The reader forgets the current
directory at the end of a record, but nothing makes it forget the current file, so that such a line
may change a file of another directory or of another package. -/

namespace Alpine

def scopeStep (name : Option Bytes) : Bytes → Option Bytes
  | field :: _ :: l =>
    if field = asc 'R' then some l else if field = asc 'F' then none else name
  | _ => none

/-- the name in the latest line `R:` behind the last line `F:` and the last end of a record -/
def fileScope (ls : List Bytes) : Option Bytes := ls.foldl scopeStep none

def isFileLine (l : Bytes) : Bool := [asc 'R', asc ':'].isPrefixOf l

def dirStep (dir : Bool) : Bytes → Bool
  | field :: _ :: _ => dir || field = asc 'F'
  | _ => false

/-- whether there is a line `F:` behind the last end of a record -/
def inDirectory (ls : List Bytes) : Bool := ls.foldl dirStep false

/-- a value that a line `a:` or `Z:` cannot be read with -/
def WrongValue (c : Char) (v : Bytes) : Prop :=
  if c = 'a' then pullAcl v = none else apkBlobPullDigest v = none

/-- a line `a:` or `Z:` that is refused for what it is or what comes before it: there is no file at all,
no directory that an ACL needs, or a value that is not right -/
def Refusable (before : List Bytes) (c : Char) (v : Bytes) : Prop :=
  (∀ l ∈ before, isFileLine l = false) ∨ c = 'a' ∧ inDirectory before = false ∨ WrongValue c v

/-- the file under the key has changed, and no other -/
def ChangesOnly (key : Bytes × Bytes) (st st' : FdbState) : Prop :=
  st'.packages = st.packages ∧
    ∃ g : DbFile → DbFile, st'.files = st.files.map fun e => if e.1 = key then (e.1, g e.2) else e

/-- a line is applied to the file in its scope and to no other, and refused if there is none -/
def EntryScoped (before : List Bytes) (st : FdbState) (l : Bytes) : Prop :=
  match fileScope before with
  | none => fdbLine st l = none
  | some name => ∃ dir, st.diri = some dir ∧
      ∀ st', fdbLine st l = some st' → ChangesOnly (dir, name) st st'

/-- the locals of `apk_db_fdb_read` at its start, on a database that may hold packages already -/
def fdbStart (db : FdbState) : FdbState :=
  { db with tmpl := emptyTmpl, ipkg := none, diri := none, file := none }

variable {st st' : FdbState} {l v : Bytes} {c : Char}

theorem fdbLine_entry (hc : c ∈ entryLetters) (st : FdbState) (v : Bytes) : ∃ i ds,
    fdbLine st (line c v) = fdbEntry { st with ipkg := some (i, ds) } i ds (asc c) v 1 := by
  obtain ⟨t, ipkg, diri, file, files, packages, tags, force, held⟩ := st
  cases ipkg with
  | none => exact ⟨emptyIpkg, [], by simp [fdbLine, line, addInfo_entry hc]⟩
  | some p => exact ⟨p.1, p.2, by simp [fdbLine, line, addInfo_entry hc]⟩

variable {field : UInt8}

/-- what a line does to the current file, the current directory and the name of the package -/
structure LineFrame (field : UInt8) (st st' : FdbState) : Prop where
  file : field ≠ asc 'R' → st'.file = st.file
  diri : field ≠ asc 'F' → st'.diri = st.diri
  dir : field = asc 'F' → st'.diri ≠ none ∧ st.tmpl.name ≠ none
  name : st'.tmpl.name = none → st.tmpl.name = none

theorem fdbEntry_frame {i : IpkgInfo} {ds : List Diri} {r : ℤ}
    (h : fdbEntry st i ds field v r = some st') : LineFrame field st st' := by
  unfold fdbEntry at h
  by_cases hF : field = asc 'F'
  · subst hF
    simp +decide only [if_false, if_true] at h
    split_ifs at h with hname
    all_goals
      cases h
      exact ⟨fun _ => rfl, fun hne => absurd rfl hne, fun _ => ⟨nofun, hname⟩, id⟩
  have hkept : (field ≠ asc 'R' → st'.file = st.file) ∧ st'.diri = st.diri ∧
      st'.tmpl.name = st.tmpl.name := by
    by_cases hfirst : field = asc 'g' ∨ field = asc 'a' ∨ field = asc 'M'
    · grind [Option.map_eq_some_iff, FdbState.mapFile]
    · push Not at hfirst
      grind [Option.map_eq_some_iff, FdbState.mapFile]
  exact ⟨hkept.1, fun _ => hkept.2.1, fun heq => absurd heq hF, fun hnone => hkept.2.2 ▸ hnone⟩

theorem addInfo_name {held : Bytes → ℕ → UInt8} {t : Tmpl} :
    (apkPkgtmplAddInfo held t field v).2.name = none → t.name = none := by
  have hstep {p : Prop} [Decidable p] {x y : ℤ × Tmpl} (hx : x.2.name = none → t.name = none)
      (hy : y.2.name = none → t.name = none) : (if p then x else y).2.name = none → t.name = none := by
    split_ifs
    · exact hx
    · exact hy
  refine hstep nofun ?_
  iterate 6 refine hstep id ?_
  refine hstep (by cases apkBlobPullDigest v <;> exact id) ?_
  iterate 10 refine hstep id ?_
  exact id

theorem fdbLine_frame (h : fdbLine st (field :: asc ':' :: v) = some st') : LineFrame field st st' := by
  have hname : (apkPkgtmplAddInfo st.held st.tmpl field v).2.name = none → st.tmpl.name = none := addInfo_name
  have hF : field = asc 'F' → apkPkgtmplAddInfo st.held st.tmpl field v = (1, st.tmpl) := by
    rintro rfl
    exact addInfo_entry (c := 'F') (by decide)
  unfold fdbLine at h
  obtain ⟨t, ipkg, diri, file, files, packages, tags, force, held⟩ := st
  simp only [ne_eq, not_true_eq_false, if_false] at h hname hF
  generalize apkPkgtmplAddInfo held t field v = r at h hname hF
  -- an entry is read with the fields of the package that are there so far
  have hframe : ∀ {st₁ : FdbState}, LineFrame field st₁ st' → st₁.file = file → st₁.diri = diri →
      st₁.tmpl = r.2 → LineFrame field ⟨t, ipkg, diri, file, files, packages, tags, force, held⟩ st' := by
    intro st₁ hf hfile hdiri htmpl
    refine ⟨fun hR => (hf.file hR).trans hfile, fun hne => (hf.diri hne).trans hdiri, fun heq => ?_,
      fun hnone => hname (htmpl ▸ hf.name hnone)⟩
    have := hf.dir heq
    rw [htmpl, hF heq] at this
    exact this
  have hkeep : field ≠ asc 'F' → some ⟨r.2, ipkg, diri, file, files, packages, tags, force, held⟩ = some st' →
      LineFrame field ⟨t, ipkg, diri, file, files, packages, tags, force, held⟩ st' := by
    rintro hne ⟨⟩
    exact ⟨fun _ => rfl, fun _ => rfl, fun heq => absurd heq hne, hname⟩
  by_cases hr : r.1 = 0
  · rw [if_pos hr] at h
    refine hkeep (fun heq => ?_) h
    rw [hF heq] at hr
    exact absurd hr one_ne_zero
  rw [if_neg hr] at h
  split at h
  · exact hframe (fdbEntry_frame h) rfl rfl rfl
  split_ifs at h with h1
  · exact hframe (fdbEntry_frame h) rfl rfl rfl
  · refine hkeep (fun heq => h1 ?_) h
    rw [hF heq]

theorem fdbLine_end (hl : l.length < 2) (h : fdbLine st l = some st') :
    st'.file = st.file ∧ (st'.diri = none ∨ st' = st ∧ st.tmpl.name = none) := by
  have hadd {i : IpkgInfo} {ds : List Diri} (h : apkDbPkgAdd st i ds = some st') :
      st'.file = st.file ∧ st'.diri = none := by
    unfold apkDbPkgAdd at h
    grind
  rcases l with _ | ⟨field, _ | ⟨colon, v⟩⟩
  · unfold fdbLine at h
    grind
  · unfold fdbLine at h
    grind
  · simp at hl

theorem fdbLine_file (h : fdbLine st (line 'R' v) = some st') :
    ∃ dir, st'.diri = some dir ∧ st'.file = some (dir, v) := by
  obtain ⟨i, ds, hline⟩ := fdbLine_entry (c := 'R') (by decide) st v
  rw [hline] at h
  simp +decide only [fdbEntry, if_false, if_true] at h
  split at h
  · rename_i dir hdir
    split_ifs at h
    all_goals
      cases h
      exact ⟨dir, hdir, rfl⟩
  · simp at h

/-- what the reader knows of the current file and directory after the lines -/
structure Scoped (ls : List Bytes) (st : FdbState) : Prop where
  current : ∀ name, fileScope ls = some name → ∃ dir, st.diri = some dir ∧ st.file = some (dir, name)
  unset : st.file = none ↔ ∀ l ∈ ls, isFileLine l = false
  dir : st.diri = none ↔ inDirectory ls = false
  named : st.diri ≠ none → st.tmpl.name ≠ none

section

variable {ls : List Bytes}

theorem fileScope_concat (l : Bytes) : fileScope (ls ++ [l]) = scopeStep (fileScope ls) l := by simp [fileScope]

theorem inDirectory_concat (l : Bytes) : inDirectory (ls ++ [l]) = dirStep (inDirectory ls) l := by simp [inDirectory]

theorem noFileLine_concat (l : Bytes) : (∀ x ∈ ls ++ [l], isFileLine x = false) ↔
    (∀ x ∈ ls, isFileLine x = false) ∧ isFileLine l = false := by
  simp [or_imp, forall_and]

/-- a record ends -/
theorem Scoped.ended (h : Scoped ls st) (hl : fdbLine st l = some st') (hlen : l.length < 2)
    (hs : scopeStep (fileScope ls) l = none) (hd : dirStep (inDirectory ls) l = false)
    (hf : isFileLine l = false) : Scoped (ls ++ [l]) st' := by
  obtain ⟨hfile, hdiri⟩ := fdbLine_end hlen hl
  have hnone : st'.diri = none := by
    rcases hdiri with hdiri | ⟨rfl, hname⟩
    · exact hdiri
    · by_contra hne
      exact h.named hne hname
  refine ⟨fun name hname => ?_, ?_, ?_, fun hne => absurd hnone hne⟩
  · rw [fileScope_concat, hs] at hname
    cases hname
  · rw [hfile, noFileLine_concat, h.unset]
    exact (and_iff_left hf).symm
  · rw [inDirectory_concat, hd]
    exact iff_of_true hnone rfl

/-- a line `R:` -/
theorem Scoped.file (h : Scoped ls st) (hl : fdbLine st (line 'R' v) = some st') :
    Scoped (ls ++ [line 'R' v]) st' := by
  have hframe := fdbLine_frame hl
  obtain ⟨dir, hd, hf⟩ := fdbLine_file hl
  have hsame : st'.diri = st.diri := hframe.diri (by decide)
  refine ⟨fun name hname => ?_, ?_, ?_, fun hne hnone => h.named (hsame ▸ hne) (hframe.name hnone)⟩
  · rw [fileScope_concat] at hname
    obtain rfl : v = name := by simpa [scopeStep, line] using hname
    exact ⟨dir, hd, hf⟩
  · rw [hf, noFileLine_concat]
    simp [isFileLine, line]
  · rw [hsame, h.dir, inDirectory_concat]
    simp +decide [dirStep, line]

theorem Scoped.line (h : Scoped ls st) (hl : fdbLine st l = some st') : Scoped (ls ++ [l]) st' := by
  rcases l with _ | ⟨field, _ | ⟨colon, v⟩⟩
  · exact h.ended hl (by simp) rfl rfl rfl
  · exact h.ended hl (by simp) rfl rfl (by simp [isFileLine, List.isPrefixOf])
  obtain rfl : colon = asc ':' := by
    by_contra hc
    simp [fdbLine, hc] at hl
  by_cases hR : field = asc 'R'
  · subst hR
    exact h.file hl
  have hframe := fdbLine_frame hl
  have hnamed : st.tmpl.name ≠ none → st'.tmpl.name ≠ none := fun hne hnone => hne (hframe.name hnone)
  have hno : isFileLine (field :: asc ':' :: v) = false := by
    simp [isFileLine, List.isPrefixOf, Ne.symm hR]
  have hunset : st'.file = none ↔ ∀ x ∈ ls ++ [field :: asc ':' :: v], isFileLine x = false := by
    rw [hframe.file hR, noFileLine_concat, h.unset]
    exact (and_iff_left hno).symm
  by_cases hF : field = asc 'F'
  · obtain ⟨hd, hname⟩ := hframe.dir hF
    refine ⟨fun name hname => ?_, hunset, ?_, fun _ => hnamed hname⟩
    · rw [fileScope_concat, scopeStep, if_neg hR, if_pos hF] at hname
      cases hname
    · rw [inDirectory_concat]
      simp [dirStep, hF, hd]
  · have hsame := hframe.diri hF
    refine ⟨fun name hname => ?_, hunset, ?_, fun hne => hnamed (h.named (hsame ▸ hne))⟩
    · rw [fileScope_concat, show scopeStep (fileScope ls) (field :: asc ':' :: v) = fileScope ls by
        simp [scopeStep, hR, hF]] at hname
      rw [hsame, hframe.file hR]
      exact h.current name hname
    · rw [hsame, h.dir, inDirectory_concat]
      simp [dirStep, hF]

end

theorem reads_scoped {db : FdbState} {ls : List Bytes} (h : Reads ls (fdbStart db) st) :
    Scoped ls st := by
  induction ls using List.reverseRecOn generalizing st with
  | nil =>
    cases h
    exact ⟨nofun, iff_of_true rfl nofun, iff_of_true rfl rfl, fun hne => absurd rfl hne⟩
  | append_singleton ls l ih =>
    unfold Reads at h
    rw [List.foldlM_append] at h
    obtain ⟨mid, hmid, hl⟩ := Option.bind_eq_some_iff.1 h
    exact (ih hmid).line (by simpa using hl)

variable (st v) in
/-- what a line `a:` or `Z:` needs, and what it does -/
theorem fileEntry_effect (hc : c = 'a' ∨ c = 'Z') :
    (fdbLine st (line c v) = none ↔ st.file = none ∨ c = 'a' ∧ st.diri = none ∨ WrongValue c v) ∧
      ∀ key st', st.file = some key → fdbLine st (line c v) = some st' → ChangesOnly key st st' := by
  obtain ⟨i, ds, hline⟩ := fdbLine_entry (c := c) (by rcases hc with rfl | rfl <;> decide) st v
  rw [hline]
  rcases hc with rfl | rfl
  · simp +decide only [fdbEntry, WrongValue, if_false, if_true]
    rcases st.file with _ | key
    · exact ⟨by simp, nofun⟩
    rcases st.diri with _ | dir
    · exact ⟨by simp, nofun⟩
    refine ⟨by simp, fun key' st' hkey h => ?_⟩
    cases hkey
    obtain ⟨acl, -, rfl⟩ := Option.map_eq_some_iff.1 h
    exact ⟨rfl, fun f => { f with acl := acl }, rfl⟩
  · simp +decide only [fdbEntry, WrongValue, if_false]
    rcases st.file with _ | key
    · exact ⟨by simp, nofun⟩
    refine ⟨by simp, fun key' st' hkey h => ?_⟩
    cases hkey
    obtain ⟨d, -, rfl⟩ := Option.map_eq_some_iff.1 h
    exact ⟨rfl, _, rfl⟩

theorem apkDbFdbRead_refused {text : Bytes} {before after : List Bytes}
    (htext : fittingLines 0 (text.splitOnP (· = asc '\n')) = before ++ l :: after)
    {db : FdbState} (hst : Reads before db st) (hl : fdbLine st l = none) : apkDbFdbRead db text = none := by
  unfold Reads at hst
  unfold apkDbFdbRead
  simp only
  split_ifs with hfit
  · rw [← hfit, htext]
    simp [hst, hl]
  · rfl

def beforeAcl : List Bytes :=
  [lit "C:Q1AAAAAAAAAAAAAAAAAAAAAAAAAAA=", lit "P:a", lit "V:1", lit "F:d", lit "R:f"]

def ownerLine : Bytes := line 'a' (lit "1:1:600")

end Alpine

import Alpine.Spec.ExtractV3
import Alpine.Sanity.AdbRun

/-! The enumeration of the paths array that `apk_extract_v3_next_file` goes through, and how far one
call of it gets. A directory whose name does not fit the path builder is taken for the root, and left out.
The position survives between two data blocks as the entry at which the last call stopped, with the list of
the entries behind it. -/

namespace Alpine

open List Option

structure PathBuilder.Holds (pb : PathBuilder) (text : Bytes) : Prop where
  len : pb.namelen = text.length
  name : ∃ rest, pb.name = text ++ 0 :: rest

variable {pb : PathBuilder} {text b adb : Bytes} {env : TarEnv} {fi : V3FileInfo}

theorem PathBuilder.Holds.cstr (h : pb.Holds text) : apkPathbuilderCstr pb = cstr text := by
  obtain ⟨rest, hname⟩ := h.name
  unfold apkPathbuilderCstr
  rw [hname, cstr_append_zero]

def joinPath (dir file : Bytes) : Bytes := if dir = [] then file else dir ++ asc '/' :: file

theorem apkPathbuilderPushb_holds (h : pb.Holds text) (hfit : text.length + b.length + 2 < pathMax) :
    (apkPathbuilderPushb pb b).1 = text.length ∧
      (apkPathbuilderPushb pb b).2.Holds (joinPath text b) := by
  obtain ⟨hlen, rest, hname⟩ := h
  unfold apkPathbuilderPushb
  rw [if_neg (by omega)]
  refine ⟨by rw [hlen], ?_⟩
  unfold joinPath
  by_cases htext : text = []
  · subst htext
    refine ⟨by simp [hlen], pb.name.drop (b.length + 1), ?_⟩
    simp [hlen, PathBuilder.store]
  have hpos : text.length ≠ 0 := by simpa using htext
  refine ⟨?_, pb.name.drop (text.length + (b.length + 2)), ?_⟩
  · simp only [hlen, ne_eq, hpos, not_false_eq_true, if_true, if_neg htext, length_append,
      length_cons, length_nil]
    omega
  simp only [hlen, ne_eq, hpos, if_neg htext, PathBuilder.store]
  have htake : pb.name.take text.length = text := by rw [hname, take_left]
  rw [htake]
  simp

theorem apkPathbuilderPushb_full (hfull : pathMax ≤ pb.namelen + b.length + 2) :
    apkPathbuilderPushb pb b = (-enametoolong, pb) := if_pos hfull

theorem apkPathbuilderSetb_holds (hfit : b.length + 2 < pathMax) :
    (apkPathbuilderSetb pb b).2.Holds b := by
  unfold apkPathbuilderSetb apkPathbuilderPushb
  rw [if_neg (by simpa using hfit)]
  exact ⟨by simp, pb.name.drop (b.length + 1), by simp [PathBuilder.store]⟩

theorem apkPathbuilderPop_holds {file : Bytes} (h : pb.Holds (joinPath text file)) :
    (apkPathbuilderPop pb text.length).Holds text := by
  obtain ⟨-, rest, hname⟩ := h
  unfold apkPathbuilderPop
  rw [if_neg (by omega)]
  refine ⟨by simp, pb.name.drop (text.length + 1), ?_⟩
  have htake : pb.name.take text.length = text := by
    rw [hname]
    unfold joinPath
    split_ifs with htext
    · simp [htext]
    · rw [append_assoc, take_left]
  simp [PathBuilder.store, htake]

theorem pushPop_holds (h : pb.Holds text) (b : Bytes) :
    (apkPathbuilderPop (apkPathbuilderPushb pb b).2 (apkPathbuilderPushb pb b).1).Holds text := by
  by_cases hfit : text.length + b.length + 2 < pathMax
  · obtain ⟨hn, hjoin⟩ := apkPathbuilderPushb_holds h hfit
    rw [hn]
    exact apkPathbuilderPop_holds hjoin
  · rw [apkPathbuilderPushb_full (by rw [h.len]; omega)]
    exact h

/-- the text in the buffer, whatever it is, is as short as that of a path that fits -/
def PathBuilder.Ended (pb : PathBuilder) : Prop :=
  ∃ text rest, pb.name = text ++ 0 :: rest ∧ text.length + 1 < pathMax

theorem PathBuilder.new_ended : PathBuilder.new.Ended := ⟨[], _, rfl, by decide⟩

theorem PathBuilder.Holds.ended (h : pb.Holds text) (hlen : text.length + 1 < pathMax) : pb.Ended := by
  obtain ⟨rest, hname⟩ := h.name
  exact ⟨text, rest, hname, hlen⟩

theorem PathBuilder.Ended.cstr_length (h : pb.Ended) : (apkPathbuilderCstr pb).length + 1 < pathMax := by
  obtain ⟨text, rest, hname, hlen⟩ := h
  have hle : (cstr text).length ≤ text.length := (takeWhile_sublist _).length_le
  unfold apkPathbuilderCstr
  rw [hname, cstr_append_zero]
  omega

theorem joinPath_length (dir file : Bytes) : (joinPath dir file).length ≤ dir.length + file.length + 1 := by
  unfold joinPath
  split_ifs
  · omega
  · rw [length_append, length_cons]
    omega

/-- a name that does not fit leaves the builder empty, with its old text -/
theorem apkPathbuilderSetb_full (hfull : pathMax ≤ b.length + 2) :
    (apkPathbuilderSetb pb b).2 = { pb with namelen := 0 } := by
  unfold apkPathbuilderSetb
  rw [apkPathbuilderPushb_full (by simpa using hfull)]

theorem apkPathbuilderPushb_empty (h : pb.namelen = 0) (hfit : b.length + 2 < pathMax) :
    (apkPathbuilderPushb pb b).1 = 0 ∧ (apkPathbuilderPushb pb b).2.Holds b := by
  have hset : (apkPathbuilderSetb pb b).2.Holds b := apkPathbuilderSetb_holds hfit
  have hpb : { pb with namelen := 0 } = pb := by rw [← h]
  rw [apkPathbuilderSetb, hpb] at hset
  exact ⟨by rw [apkPathbuilderPushb, if_neg (by omega), h]; rfl, hset⟩

/-- what is pushed in a directory does not matter once it has been taken off -/
theorem pushPop_empty (h : pb.namelen = 0) (hended : pb.Ended) (b : Bytes) :
    let pb' := apkPathbuilderPop (apkPathbuilderPushb pb b).2 (apkPathbuilderPushb pb b).1
    pb'.namelen = 0 ∧ pb'.Ended := by
  by_cases hfit : b.length + 2 < pathMax
  · obtain ⟨hn, hb⟩ := apkPathbuilderPushb_empty h hfit
    have hjoin : (apkPathbuilderPushb pb b).2.Holds (joinPath [] b) := hb
    have hpop := apkPathbuilderPop_holds hjoin
    rw [hn]
    exact ⟨hpop.len, hpop.ended (by decide)⟩
  · rw [apkPathbuilderPushb_full (by omega)]
    exact ⟨h, hended⟩

section

variable (adb : Bytes)

variable (i j : ℕ)

def v3Paths : AdbObj := adbRoObj adb (adbRRootobj adb) adbiPkgPaths
def v3Path : AdbObj := adbRoObj adb (v3Paths adb) i
def v3Files : AdbObj := adbRoObj adb (v3Path adb i) adbiDiFiles
def v3File : AdbObj := adbRoObj adb (v3Files adb i) j

def v3DirName : Bytes := (adbRoBlob adb (v3Path adb i) adbiDiName).getD []
def v3FileName : Bytes := (adbRoBlob adb (v3File adb i j) adbiFiName).getD []
def v3FileSize : ℕ := adbRoInt adb (v3File adb i j) adbiFiSize

def v3DirEntry : List V3Entry := if v3DirName adb i = [] then [] else [.dir i]

def v3FilesFrom (n : ℕ) : List V3Entry := (List.range' j n).map (.file i)

def v3PathEntries : List V3Entry :=
  v3DirEntry adb i ++ v3FilesFrom i adbiFirst (adbRaNum (v3Files adb i))

/-- the entries of the paths array: each named directory, then its files -/
def v3Entries : List V3Entry :=
  (List.range' adbiFirst (adbRaNum (v3Paths adb))).flatMap (v3PathEntries adb)

/-- a directory as the loop takes it -/
def v3DirVisit : List V3Entry := if (v3DirName adb i).length + 2 < pathMax then v3DirEntry adb i else []

def v3PathVisits : List V3Entry :=
  v3DirVisit adb i ++ v3FilesFrom i adbiFirst (adbRaNum (v3Files adb i))

/-- the entries that the loops go through -/
def v3Visits : List V3Entry :=
  (List.range' adbiFirst (adbRaNum (v3Paths adb))).flatMap (v3PathVisits adb)

def v3After : List V3Entry :=
  v3FilesFrom i (j + 1) (adbRaNum (v3Files adb i) - j) ++
    (List.range' (i + 1) (adbRaNum (v3Paths adb) - i)).flatMap (v3PathVisits adb)

/-- the index of the directory -/
def V3Entry.path : V3Entry → ℕ
  | .dir i => i
  | .file i _ => i

/-- a file whose content comes in a data block: its size is not zero, and it has no target -/
def NeedsData : V3Entry → Prop
  | .dir _ => False
  | .file i j => v3FileSize adb i j ≠ 0 ∧ adbRoBlob adb (v3File adb i j) adbiFiTarget = none

def v3EntryPath : V3Entry → Bytes
  | .dir i => v3DirName adb i
  | .file i j => joinPath (v3DirName adb i) (v3FileName adb i j)

/-- the names together are short enough for the path builder -/
def EntryFits : V3Entry → Prop
  | .dir i => (v3DirName adb i).length + 2 < pathMax
  | .file i j => (v3DirName adb i).length + (v3FileName adb i j).length + 2 < pathMax

/-- the path of an entry if that fits, and another text otherwise -/
structure NameOf (e : V3Entry) (name : Bytes) : Prop where
  fits : EntryFits adb e → name = cstr (v3EntryPath adb e)
  other : ¬ EntryFits adb e → name ≠ v3EntryPath adb e

def v3EntryInfo (env : TarEnv) (name : Bytes) : V3Entry → Option V3FileInfo
  | .dir i => v3DirInfo env adb (v3Path adb i) name
  | .file i j => v3FileInfo env adb (v3File adb i j) name

/-- a call for an entry: with what the database says about it, and with its path if that fits -/
structure CallOf (env : TarEnv) (e : V3Entry) (c : V3Call) : Prop where
  entry : c.entry = e
  info : v3EntryInfo adb env c.info.name e = some c.info
  name : NameOf adb e c.info.name

variable {χ : Type} (file : FileCallback χ)

/-- a call without a data block, for an entry that needs none -/
structure PlainCall (env : TarEnv) (e : V3Entry) (c : V3Call) : Prop extends CallOf adb env e c where
  plain : ¬ NeedsData adb e
  block : c.block = none
  result : ∃ s, c.result = (file.null s c.info).1

/-- How far one call of `apk_extract_v3_next_file` gets in a list of entries: the calls it makes, its
result unless it comes to the end, and the entries that are left. It stops at a file that needs a
data block, at an entry that is not as the schema wants it, and at a callback that says so. -/
inductive Walk (env : TarEnv) :
    List V3Entry → List V3Call → Option ℤ → List V3Entry → Prop
  | done : Walk env [] [] none []
  | data {e : V3Entry} {es : List V3Entry} (h : NeedsData adb e) :
      Walk env (e :: es) [] (some 0) (e :: es)
  | schema {e : V3Entry} {es : List V3Entry} :
      Walk env (e :: es) [] (some (-apkeAdbSchema)) (e :: es)
  | stop {e : V3Entry} {es : List V3Entry} {c : V3Call} (hc : PlainCall adb file env e c)
      (hr : c.result ≠ 0) : Walk env (e :: es) [c] (some c.result) es
  | step {e : V3Entry} {es rest : List V3Entry} {c : V3Call} {mid : List V3Call} {o : Option ℤ}
      (hc : PlainCall adb file env e c) (hr : c.result = 0) (hw : Walk env es mid o rest) :
      Walk env (e :: es) (c :: mid) o rest

variable {adb file} {env : TarEnv}

variable {es rest : List V3Entry} {mid : List V3Call} {o : Option ℤ}

/-- nothing is left out, and nothing comes twice -/
theorem Walk.entries (h : Walk adb file env es mid o rest) : mid.map V3Call.entry ++ rest = es := by
  induction h with
  | done => rfl
  | data h => rfl
  | schema => rfl
  | stop hc hr => simp [hc.entry]
  | step hc hr hw ih => simp [hc.entry, ih]

theorem Walk.calls (h : Walk adb file env es mid o rest) :
    ∀ c ∈ mid, PlainCall adb file env c.entry c := by
  have hself : ∀ {e : V3Entry} {c : V3Call}, PlainCall adb file env e c → PlainCall adb file env c.entry c := by
    intro e c hc
    rw [hc.entry]
    exact hc
  induction h with
  | done => simp
  | data h => simp
  | schema => simp
  | stop hc hr =>
    intro c hmem
    rw [mem_singleton.1 hmem]
    exact hself hc
  | step hc hr hw ih =>
    intro c hmem
    rcases mem_cons.1 hmem with rfl | hmem
    · exact hself hc
    · exact ih c hmem

theorem Walk.end (h : Walk adb file env es mid none rest) : rest = [] := by
  generalize ho : (none : Option ℤ) = o at h
  induction h with
  | done => rfl
  | data h => cases ho
  | schema => cases ho
  | stop hc hr => cases ho
  | step hc hr hw ih => exact ih ho

variable {r : ℤ}

theorem Walk.stopped (h : Walk adb file env es mid o rest) (ho : o = some r) (h0 : r ≠ 0) :
    r = -apkeAdbSchema ∨ ∃ s fi, r = (file.null s fi).1 := by
  induction h with
  | done => cases ho
  | data h => exact absurd (some.inj ho).symm h0
  | schema => exact Or.inl (some.inj ho).symm
  | stop hc hr =>
    obtain ⟨s, hs⟩ := hc.result
    exact Or.inr ⟨s, _, (some.inj ho).symm.trans hs⟩
  | step hc hr hw ih => exact ih ho

theorem Walk.append {es' rest' : List V3Entry} {mid' : List V3Call}
    (h : Walk adb file env es mid none rest) (h' : Walk adb file env es' mid' o rest') :
    Walk adb file env (es ++ es') (mid ++ mid') o rest' := by
  generalize ho : (none : Option ℤ) = o1 at h
  induction h with
  | done => exact h'
  | data h => cases ho
  | schema => cases ho
  | stop hc hr => cases ho
  | step hc hr hw ih => exact Walk.step hc hr (ih ho)

theorem Walk.within (h : Walk adb file env es mid (some r) rest) (es' : List V3Entry) :
    Walk adb file env (es ++ es') mid (some r) (rest ++ es') := by
  generalize ho : some r = o at h
  induction h with
  | done => cases ho
  | data h => exact Walk.data h
  | schema => exact Walk.schema
  | stop hc hr => exact Walk.stop hc hr
  | step hc hr hw ih => exact Walk.step hc hr (ih ho)

end

variable {fi' : V3FileInfo} {name : Bytes}

theorem apkExtractV3Acl_name {o : AdbObj} (h : apkExtractV3Acl env adb fi o = some fi') :
    fi'.name = fi.name := by
  obtain ⟨xattrs, -, rfl⟩ := map_eq_some_iff.1 h
  rfl

theorem v3Target_name {target : Bytes} (h : v3Target fi target = some fi') : fi'.name = fi.name := by
  unfold v3Target at h
  simp only at h
  split_ifs at h <;> cases h <;> rfl

theorem v3FileInfo_name {file : AdbObj} (h : v3FileInfo env adb file name = some fi) :
    fi.name = name := by
  unfold v3FileInfo at h
  simp only at h
  obtain ⟨fi1, h1, h2⟩ := bind_eq_some_iff.1 h
  have hname := apkExtractV3Acl_name h1
  split at h2
  · exact (v3Target_name h2).trans hname
  · split_ifs at h2
    cases h2
    exact hname

theorem v3DirInfo_name {path : AdbObj} (h : v3DirInfo env adb path name = some fi) : fi.name = name := by
  obtain ⟨fi1, h1, rfl⟩ := map_eq_some_iff.1 h
  exact apkExtractV3Acl_name h1

section

variable {χ : Type} {env : TarEnv} {adb : Bytes} {file : FileCallback χ}

variable (env adb file) in
theorem extractV3Null_cases (c : ExtractV3 χ) : extractV3Null env adb file c = (-apkeAdbSchema, c) ∨
    ∃ fi r user, v3FileInfo env adb c.file (apkPathbuilderCstr c.pb) = some fi ∧
      r = (file.null c.user fi).1 ∧
      extractV3Null env adb file c = (r, c.called user ⟨.file c.curPath c.curFile, fi, none, r⟩) := by
  unfold extractV3Null
  cases h : v3FileInfo env adb c.file (apkPathbuilderCstr c.pb) with
  | none => exact Or.inl rfl
  | some fi => exact Or.inr ⟨fi, _, _, rfl, rfl, rfl⟩

variable (env adb file) in
theorem apkExtractV3Directory_cases {c : ExtractV3 χ} :
    apkExtractV3Directory env adb file c = (-apkeAdbSchema, c) ∨
    ∃ fi r user, v3DirInfo env adb c.path (apkPathbuilderCstr c.pb) = some fi ∧
      r = (file.null c.user fi).1 ∧
      apkExtractV3Directory env adb file c = (r, c.called user ⟨.dir c.curPath, fi, none, r⟩) := by
  unfold apkExtractV3Directory
  cases h : v3DirInfo env adb c.path (apkPathbuilderCstr c.pb) with
  | none => exact Or.inl rfl
  | some fi => exact Or.inr ⟨fi, _, _, rfl, rfl, rfl⟩

structure Here (adb : Bytes) (c : ExtractV3 χ) (i : ℕ) : Prop where
  paths : c.paths = v3Paths adb
  path : c.path = v3Path adb i
  files : c.files = v3Files adb i
  curPath : c.curPath = i

/-- what the loop over the files of a directory leaves alone -/
def FilesFrame (c c' : ExtractV3 χ) : Prop :=
  c' = { c with file := c'.file, pb := c'.pb, curFile := c'.curFile, user := c'.user, calls := c'.calls }

variable {c c' : ExtractV3 χ} {i j : ℕ}

structure WaitsAt (adb : Bytes) (c : ExtractV3 χ) (i j : ℕ) : Prop extends Here adb c i where
  curFile : c.curFile = j
  file : c.file = v3File adb i j
  needs : NeedsData adb (.file i j)
  ended : c.pb.Ended
  name : NameOf adb (.file i j) (apkPathbuilderCstr c.pb)

/-- the builder in a directory: it has the name of the directory, or is empty where that does not fit -/
structure InDir (adb : Bytes) (pb : PathBuilder) (i : ℕ) : Prop where
  ended : pb.Ended
  fits : EntryFits adb (.dir i) → pb.Holds (v3DirName adb i)
  full : ¬ EntryFits adb (.dir i) → pb.namelen = 0

theorem not_fits_path (h : ¬ EntryFits adb (.dir i)) (j : ℕ) :
    pathMax ≤ (v3EntryPath adb (.file i j)).length + 1 := by
  have hlong : pathMax ≤ (v3DirName adb i).length + 2 := not_lt.1 h
  have hne : v3DirName adb i ≠ [] := by
    intro hnil
    rw [hnil] at hlong
    exact absurd hlong (by decide)
  rw [v3EntryPath, joinPath, if_neg hne, length_append, length_cons]
  omega

/-- the builder while a file of the directory is looked at, and after that -/
theorem InDir.push {pb : PathBuilder} (h : InDir adb pb i) (j : ℕ) :
    let push := apkPathbuilderPushb pb (v3FileName adb i j)
    push.2.Ended ∧ NameOf adb (.file i j) (apkPathbuilderCstr push.2) ∧ InDir adb (apkPathbuilderPop push.2 push.1) i := by
  intro push
  by_cases hdir : EntryFits adb (.dir i)
  · have hpb := h.fits hdir
    have hpop := pushPop_holds hpb (v3FileName adb i j)
    have hin : InDir adb (apkPathbuilderPop push.2 push.1) i :=
      ⟨hpop.ended (Nat.lt_of_succ_lt hdir), fun _ => hpop, fun hno => absurd hdir hno⟩
    by_cases hfit : EntryFits adb (.file i j)
    · have hjoin := (apkPathbuilderPushb_holds hpb hfit).2
      have hlen := joinPath_length (v3DirName adb i) (v3FileName adb i j)
      have hroom : (v3DirName adb i).length + (v3FileName adb i j).length + 2 < pathMax := hfit
      exact ⟨hjoin.ended (by omega), ⟨fun _ => hjoin.cstr, fun hno => absurd hfit hno⟩, hin⟩
    · have hroom : pathMax ≤ (v3DirName adb i).length + (v3FileName adb i j).length + 2 := not_lt.1 hfit
      have hfull : push.2 = pb := by
        rw [show push = (-enametoolong, pb) from apkPathbuilderPushb_full (by rw [hpb.len]; exact hroom)]
      refine ⟨hfull ▸ h.ended, ⟨fun hyes => absurd hyes hfit, fun _ heq => ?_⟩, hin⟩
      -- the path of the directory is shorter
      have hlen := congrArg length heq
      have hle : (cstr (v3DirName adb i)).length ≤ (v3DirName adb i).length := (takeWhile_sublist _).length_le
      rw [hfull, hpb.cstr, v3EntryPath, joinPath] at hlen
      split_ifs at hlen with hnil
      · rw [hnil] at hroom hle hlen
        have hmax : (2 : ℕ) < pathMax := by decide
        simp only [length_nil] at hroom hle
        omega
      · rw [length_append, length_cons] at hlen
        omega
  · have hempty := h.full hdir
    obtain ⟨hn, hended⟩ := pushPop_empty hempty h.ended (v3FileName adb i j)
    have hpush : push.2.Ended := by
      by_cases hfit : (v3FileName adb i j).length + 2 < pathMax
      · exact (apkPathbuilderPushb_empty hempty hfit).2.ended (by omega)
      · rw [show push = (-enametoolong, pb) from apkPathbuilderPushb_full (by rw [hempty]; omega)]
        exact h.ended
    refine ⟨hpush, ⟨fun hyes => absurd (show (v3DirName adb i).length + 2 < pathMax from ?_) hdir, fun _ heq => ?_⟩,
      hended, fun hyes => absurd hyes hdir, fun _ => hn⟩
    · have hroom : (v3DirName adb i).length + (v3FileName adb i j).length + 2 < pathMax := hyes
      omega
    · have hlen := hpush.cstr_length
      have hpath := not_fits_path hdir j
      rw [heq] at hlen
      omega

variable (env file) in
theorem filesLoop_walk (n : ℕ) (hc : Here adb c i) (hj : c.curFile = j)
    (hpb : InDir adb c.pb i) :
    ∃ mid rest, FilesFrame c (filesLoop env adb file n c).2 ∧
      (filesLoop env adb file n c).2.calls = c.calls ++ mid ∧
      Walk adb file env (v3FilesFrom i j n) mid (filesLoop env adb file n c).1 rest ∧
      ((filesLoop env adb file n c).1 = none → (filesLoop env adb file n c).2.pb.Ended) ∧
      ((filesLoop env adb file n c).1 = some 0 → ∃ k, k < n ∧ rest = v3FilesFrom i (j + k) (n - k) ∧
        WaitsAt adb (filesLoop env adb file n c).2 i (j + k)) := by
  induction n generalizing j c with
  | zero =>
    exact ⟨[], [], rfl, by simp [filesLoop], Walk.done, fun _ => hpb.ended, fun h => absurd h (by simp [filesLoop])⟩
  | succ n ih =>
    have hes : v3FilesFrom i j (n + 1) = .file i j :: v3FilesFrom i (j + 1) n := by
      simp [v3FilesFrom, range'_succ]
    have hfile : adbRoObj adb c.files c.curFile = v3File adb i j := by rw [hc.files, hj]; rfl
    unfold filesLoop
    simp only [hfile]
    -- the state after the name of the file has been pushed
    generalize hp : apkPathbuilderPushb c.pb ((adbRoBlob adb (v3File adb i j) adbiFiName).getD []) = push
    obtain ⟨hended, hjoin, hpop⟩ : push.2.Ended ∧ NameOf adb (.file i j) (apkPathbuilderCstr push.2) ∧
        InDir adb (apkPathbuilderPop push.2 push.1) i := by
      rw [← hp]
      exact hpb.push j
    by_cases hdata : adbRoInt adb (v3File adb i j) adbiFiSize ≠ 0 ∧
        adbRoBlob adb (v3File adb i j) adbiFiTarget = none
    · rw [if_pos hdata]
      refine ⟨[], _, rfl, (append_nil _).symm, Walk.data hdata, nofun, fun _ => ⟨0, by omega, hes.symm, ?_⟩⟩
      exact ⟨⟨hc.paths, hc.path, hc.files, hc.curPath⟩, hj, rfl, hdata, hended, hjoin⟩
    rw [if_neg hdata]
    rcases extractV3Null_cases env adb file { c with file := v3File adb i j, pb := push.2 } with
      hcall | ⟨fi, r, user, hfi, hres, hcall⟩
    · rw [hcall]
      simp only
      exact ⟨[], _, rfl, (append_nil _).symm, Walk.schema, nofun, fun h => absurd (some.inj h) (by decide)⟩
    have hplain : PlainCall adb file env (.file i j) ⟨.file c.curPath c.curFile, fi, none, r⟩ := by
      have hname := v3FileInfo_name hfi
      refine ⟨⟨by rw [hc.curPath, hj], ?_, ?_⟩, hdata, rfl, _, hres⟩
      · rw [hname]
        exact hfi
      · rw [hname]
        exact hjoin
    rw [hcall]
    by_cases hr : r ≠ 0
    · rw [if_pos hr]
      exact ⟨_, _, rfl, rfl, Walk.stop hplain hr, nofun, fun h => absurd (some.inj h) hr⟩
    rw [if_neg hr]
    simp only [ExtractV3.called]
    obtain ⟨mid, rest, hframe, hcalls, hwalk, hend, hwait⟩ := ih (j := j + 1)
      (c := { c with
        file := v3File adb i j, curFile := c.curFile + 1, pb := apkPathbuilderPop push.2 push.1
        user := user, calls := c.calls ++ [⟨.file c.curPath c.curFile, fi, none, r⟩] })
      ⟨hc.paths, hc.path, hc.files, hc.curPath⟩ (by simp [hj]) hpop
    refine ⟨_ :: mid, rest, ?_, ?_, Walk.step hplain (not_not.1 hr) hwalk, hend, fun h0 => ?_⟩
    · unfold FilesFrame at hframe ⊢
      rw [hframe]
    · rw [hcalls, append_assoc, singleton_append]
    obtain ⟨k, hk, hrest, hat⟩ := hwait h0
    refine ⟨k + 1, by omega, ?_, ?_⟩
    · rw [hrest, Nat.add_sub_add_right, Nat.add_right_comm]
      rfl
    · rw [show j + (k + 1) = j + 1 + k by omega]
      exact hat

/-- the entries of a directory from a file on; the directory itself comes before its first file -/
def v3FromFile (adb : Bytes) (i j : ℕ) : List V3Entry :=
  (if j = adbiFirst then v3DirVisit adb i else []) ++
    v3FilesFrom i j (adbRaNum (v3Files adb i) + 1 - j)

theorem v3FromFile_first : v3FromFile adb i adbiFirst = v3PathVisits adb i := by
  rfl

/-- what the loop over the directories leaves alone in one round -/
def PathFrame (c c' : ExtractV3 χ) : Prop :=
  c'.paths = c.paths ∧ c'.curPath = c.curPath

theorem FilesFrame.path (h : FilesFrame c c') : PathFrame c c' := by
  rw [h]
  exact ⟨rfl, rfl⟩

theorem InDir.named {pb : PathBuilder} (h : InDir adb pb i) :
    (pb.namelen ≠ 0 → v3DirVisit adb i = [.dir i] ∧ NameOf adb (.dir i) (apkPathbuilderCstr pb)) ∧
      (pb.namelen = 0 → v3DirVisit adb i = []) := by
  by_cases hdir : EntryFits adb (.dir i)
  · have hpb := h.fits hdir
    rw [hpb.len, v3DirVisit, if_pos (show (v3DirName adb i).length + 2 < pathMax from hdir), v3DirEntry]
    refine ⟨fun hne => ⟨if_neg fun hnil => hne (by rw [hnil]; rfl), fun _ => hpb.cstr, fun hno => absurd hdir hno⟩,
      fun hlen => if_pos (length_eq_zero_iff.1 hlen)⟩
  · exact ⟨fun hne => absurd (h.full hdir) hne, fun _ => if_neg hdir⟩

variable (env file) in
theorem directoryStep_walk (hc : Here adb c i) (hpb : InDir adb c.pb i) : ∃ r user mid rest,
      directoryStep env adb file c = (r, { c with user := user, calls := c.calls ++ mid }) ∧
      Walk adb file env (if c.curFile = adbiFirst then v3DirVisit adb i else []) mid
        (if r = 0 then none else some r) rest := by
  unfold directoryStep
  by_cases hcond : c.pb.namelen ≠ 0 ∧ c.curFile = adbiFirst
  · obtain ⟨hvisit, hnamed⟩ := hpb.named.1 hcond.1
    rw [if_pos hcond, if_pos hcond.2, hvisit]
    rcases apkExtractV3Directory_cases env adb file with hcall | ⟨fi, r, user, hfi, hres, hcall⟩
    · refine ⟨-apkeAdbSchema, c.user, [], _, ?_, Walk.schema⟩
      rw [hcall, append_nil]
    have hplain : PlainCall adb file env (.dir i) ⟨.dir c.curPath, fi, none, r⟩ := by
      have hname := v3DirInfo_name hfi
      rw [hc.path] at hfi
      refine ⟨⟨by rw [hc.curPath], ?_, ?_⟩, id, rfl, _, hres⟩
      · rw [hname]
        exact hfi
      · rw [hname]
        exact hnamed
    by_cases hr : r = 0
    · refine ⟨r, user, [⟨.dir c.curPath, fi, none, r⟩], [], hcall, ?_⟩
      rw [if_pos hr]
      exact Walk.step hplain hr Walk.done
    · refine ⟨r, user, [⟨.dir c.curPath, fi, none, r⟩], [], hcall, ?_⟩
      rw [if_neg hr]
      exact Walk.stop hplain hr
  have hes : (if c.curFile = adbiFirst then v3DirVisit adb i else []) = [] := by
    split_ifs with h1
    · exact hpb.named.2 (by_contra fun hne => hcond ⟨hne, h1⟩)
    · rfl
  rw [if_neg hcond, hes]
  exact ⟨0, c.user, [], [], by rw [append_nil], Walk.done⟩

/-- `apk_pathbuilder_setb` with the name of a directory -/
theorem inDir_set {pb : PathBuilder} (h : pb.Ended) (i : ℕ) :
    InDir adb (apkPathbuilderSetb pb (v3DirName adb i)).2 i := by
  by_cases hdir : EntryFits adb (.dir i)
  · have hset : (apkPathbuilderSetb pb (v3DirName adb i)).2.Holds (v3DirName adb i) := apkPathbuilderSetb_holds hdir
    exact ⟨hset.ended (Nat.lt_of_succ_lt hdir), fun _ => hset, fun hno => absurd hdir hno⟩
  · rw [apkPathbuilderSetb_full (not_lt.1 hdir)]
    exact ⟨h, fun hyes => absurd hyes hdir, fun _ => rfl⟩

theorem pathLoad_here (hpaths : c.paths = v3Paths adb) (hi : c.curPath = i) (hj : c.curFile = j)
    (hhere : j ≠ adbiFirst → Here adb c i) (hended : c.pb.Ended) :
    Here adb (pathLoad adb c) i ∧ InDir adb (pathLoad adb c).pb i ∧
      (pathLoad adb c).calls = c.calls ∧ (pathLoad adb c).curFile = j ∧
      PathFrame c (pathLoad adb c) := by
  unfold pathLoad
  simp only
  split_ifs with h1
  · have hpath : adbRoObj adb c.paths c.curPath = v3Path adb i := by
      rw [hpaths, hi]
      rfl
    rw [hpath]
    exact ⟨⟨hpaths, rfl, rfl, hi⟩, inDir_set hended i, rfl, hj, rfl, rfl⟩
  · have hc := hhere (hj ▸ h1)
    rw [hc.path]
    exact ⟨⟨hpaths, rfl, hc.files, hi⟩, inDir_set hended i, rfl, hj, rfl, rfl⟩

theorem PathFrame.trans {c'' : ExtractV3 χ} (h : PathFrame c c') (h' : PathFrame c' c'') :
    PathFrame c c'' :=
  ⟨h'.1.trans h.1, h'.2.trans h.2⟩

variable (env file) in
theorem pathStep_walk (hpaths : c.paths = v3Paths adb) (hi : c.curPath = i) (hj : c.curFile = j)
    (hhere : j ≠ adbiFirst → Here adb c i) (hended : c.pb.Ended) :
    ∃ mid rest, PathFrame c (pathStep env adb file c).2 ∧
      (pathStep env adb file c).2.calls = c.calls ++ mid ∧
      Walk adb file env (v3FromFile adb i j) mid (pathStep env adb file c).1 rest ∧
      ((pathStep env adb file c).1 = none → (pathStep env adb file c).2.pb.Ended) ∧
      ((pathStep env adb file c).1 = some 0 → ∃ k, j ≤ k ∧ k ≤ adbRaNum (v3Files adb i) ∧
        rest = v3FilesFrom i k (adbRaNum (v3Files adb i) + 1 - k) ∧
        WaitsAt adb (pathStep env adb file c).2 i k) := by
  obtain ⟨hc1, hpb, hcalls1, hfile1, hframe1⟩ := pathLoad_here hpaths hi hj hhere hended
  unfold pathStep v3FromFile
  generalize pathLoad adb c = c1 at hc1 hpb hcalls1 hfile1 hframe1 ⊢
  obtain ⟨r, user, mid1, rest1, hstep, hwalk1⟩ :=
    directoryStep_walk env file hc1 hpb
  obtain ⟨c2, hc2⟩ : ∃ c2, c2 = { c1 with user := user, calls := c1.calls ++ mid1 } := ⟨_, rfl⟩
  have hhere2 : Here adb c2 i := by
    rw [hc2]
    exact ⟨hc1.paths, hc1.path, hc1.files, hc1.curPath⟩
  have hframe2 : PathFrame c c2 := by
    rw [hc2]
    exact hframe1
  have hfile2 : c2.curFile = j := by rw [hc2]; exact hfile1
  have hcalls2 : c2.calls = c.calls ++ mid1 := by rw [hc2, ← hcalls1]
  have hpb2 : InDir adb c2.pb i := by rw [hc2]; exact hpb
  rw [hstep, ← hc2]
  rw [hfile1] at hwalk1
  simp only [hhere2.files, hfile2]
  by_cases hr : r = 0
  · rw [if_pos hr] at hwalk1
    rw [if_neg (not_not.2 hr)]
    obtain ⟨mid2, rest2, hframe3, hcalls3, hwalk2, hend, hwait⟩ := filesLoop_walk env file
      (adbRaNum (v3Files adb i) + 1 - j) hhere2 hfile2 hpb2
    refine ⟨mid1 ++ mid2, rest2, hframe2.trans hframe3.path, ?_, hwalk1.append hwalk2, hend, fun h0 => ?_⟩
    · rw [hcalls3, hcalls2, append_assoc]
    obtain ⟨k, hk, hrest, hat⟩ := hwait h0
    refine ⟨j + k, by omega, by omega, ?_, hat⟩
    rw [hrest]
    congr 1
    omega
  · rw [if_neg hr] at hwalk1
    rw [if_pos hr]
    exact ⟨mid1, _, hframe2, hcalls2, hwalk1.within _, nofun, fun h0 => absurd (some.inj h0) hr⟩

/-- the entries of the directories from one on, where the first has been entered up to a file -/
def v3FromPath (adb : Bytes) (i j : ℕ) : ℕ → List V3Entry
  | 0 => []
  | n + 1 => v3FromFile adb i j ++ (List.range' (i + 1) n).flatMap (v3PathVisits adb)

theorem v3FromPath_first (i n : ℕ) :
    v3FromPath adb i adbiFirst n = (List.range' i n).flatMap (v3PathVisits adb) := by
  cases n with
  | zero => rfl
  | succ n => rw [v3FromPath, v3FromFile_first, range'_succ, flatMap_cons]

structure Paused (adb : Bytes) (c : ExtractV3 χ) (i j : ℕ) : Prop extends WaitsAt adb c i j where
  path_pos : 1 ≤ i
  path_le : i ≤ adbRaNum (v3Paths adb)
  file_pos : 1 ≤ j
  file_le : j ≤ adbRaNum (v3Files adb i)

variable (env file) in
theorem pathsLoop_walk (hended : c.pb.Ended) (n : ℕ) (hpaths : c.paths = v3Paths adb)
    (hi : c.curPath = i) (hpos : 1 ≤ i) (hj : c.curFile = j) (hjpos : 1 ≤ j)
    (hhere : j ≠ adbiFirst → Here adb c i) (hn : i + n = adbRaNum (v3Paths adb) + 1) :
    ∃ o mid rest, (pathsLoop env adb file n c).2.calls = c.calls ++ mid ∧
      Walk adb file env (v3FromPath adb i j n) mid o rest ∧
      (pathsLoop env adb file n c).1 = o.getD 1 ∧
      (o = some 0 → ∃ i' j', rest = .file i' j' :: v3After adb i' j' ∧
        Paused adb (pathsLoop env adb file n c).2 i' j') := by
  induction n generalizing c i j with
  | zero =>
    exact ⟨none, [], [], (append_nil _).symm, Walk.done, rfl, fun h => absurd h (by simp)⟩
  | succ n ih =>
    obtain ⟨mid1, rest1, hframe, hcalls1, hwalk1, hend, hwait⟩ := pathStep_walk env file
      hpaths hi hj hhere hended
    unfold pathsLoop
    generalize pathStep env adb file c = p at hframe hcalls1 hwalk1 hend hwait ⊢
    obtain ⟨o, c1⟩ := p
    cases o with
    | some r =>
      refine ⟨some r, mid1, _, hcalls1, hwalk1.within _, rfl, fun h0 => ?_⟩
      obtain ⟨k, hjk, hk, hrest, hat⟩ := hwait h0
      refine ⟨i, k, ?_, hat, hpos, by omega, by omega, hk⟩
      have hsplit : adbRaNum (v3Files adb i) + 1 - k = adbRaNum (v3Files adb i) - k + 1 := by omega
      have hleft : n = adbRaNum (v3Paths adb) - i := by omega
      rw [hrest, hsplit, hleft]
      simp [v3After, v3FilesFrom, range'_succ]
    | none =>
      obtain ⟨o2, mid2, rest2, hcalls2, hwalk2, hres, hwait2⟩ := ih
        (c := { c1 with curPath := c1.curPath + 1, curFile := adbiFirst }) (i := i + 1) (j := adbiFirst)
        (hend rfl) (hframe.1.trans hpaths) (congrArg (· + 1) (hframe.2.trans hi)) (by omega) rfl le_rfl
        (fun h => absurd rfl h) (by omega)
      refine ⟨o2, mid1 ++ mid2, rest2, ?_, ?_, hres, fun h0 => ?_⟩
      · rw [hcalls2, hcalls1, append_assoc]
      · rw [v3FromPath_first] at hwalk2
        exact hwalk1.append hwalk2
      · exact hwait2 h0

/-- what the next call of `apk_extract_v3_next_file` has before it -/
inductive Ahead (adb : Bytes) (c : ExtractV3 χ) : List V3Entry → Prop
  | start (h : c.curPath = 0) (hended : c.pb.Ended) : Ahead adb c (v3Visits adb)
  | resume {i j : ℕ} (h : Paused adb c i j) : Ahead adb c (v3After adb i j)

/-- what became of such a call: `v3meta` failed, there is no callback for files, or the entries were
gone through -/
inductive NextFile (adb : Bytes) (env : TarEnv) (ops : ExtractOps χ)
    (v3meta : χ → Bytes → AdbObj → ℤ × χ) (c c' : ExtractV3 χ) (es : List V3Entry) (r : ℤ) : Prop
  | failed (s : χ) (o : AdbObj) (hmeta : r = (v3meta s adb o).1) (hr : r < 0)
      (hcalls : c'.calls = c.calls)
  | canceled (hops : ops.file = none) (hr : r = -ecanceled) (hcalls : c'.calls = c.calls)
  | walked (file : FileCallback χ) (hfile : ops.file = some file) (o : Option ℤ) (mid : List V3Call)
      (rest : List V3Entry) (hcalls : c'.calls = c.calls ++ mid)
      (hwalk : Walk adb file env es mid o rest) (hr : r = o.getD 1)
      (hnext : o = some 0 → ∃ i j, rest = .file i j :: v3After adb i j ∧ Paused adb c' i j)

open NextFile

theorem v3After_last (hj : adbRaNum (v3Files adb i) ≤ j) :
    v3After adb i j = v3FromPath adb (i + 1) adbiFirst (adbRaNum (v3Paths adb) - i) := by
  rw [v3FromPath_first, v3After, Nat.sub_eq_zero_of_le hj]
  rfl

theorem v3After_next (hi : i ≤ adbRaNum (v3Paths adb)) (hj : 1 ≤ j) :
    v3After adb i j = v3FromPath adb i (j + 1) (adbRaNum (v3Paths adb) + 1 - i) := by
  rw [show adbRaNum (v3Paths adb) + 1 - i = adbRaNum (v3Paths adb) - i + 1 by omega, v3FromPath,
    v3FromFile, if_neg (show j + 1 ≠ adbiFirst by unfold adbiFirst; omega), Nat.add_sub_add_right]
  rfl

variable (env) in
theorem apkExtractV3NextFile_next (ops : ExtractOps χ)
    (v3meta : χ → Bytes → AdbObj → ℤ × χ) {es : List V3Entry} (h : Ahead adb c es) :
    NextFile adb env ops v3meta c (apkExtractV3NextFile env adb ops v3meta c).2 es
      (apkExtractV3NextFile env adb ops v3meta c).1 := by
  unfold apkExtractV3NextFile
  cases h with
  | start h0 hended =>
    rw [if_pos h0]
    obtain ⟨r, user, hmeta⟩ : ∃ r user, v3meta c.user adb (adbRRootobj adb) = (r, user) := ⟨_, _, rfl⟩
    simp only [hmeta]
    by_cases hr : r < 0
    · rw [if_pos hr]
      exact failed c.user (adbRRootobj adb) (by rw [hmeta]) hr rfl
    rw [if_neg hr]
    cases hfile : ops.file with
    | none => exact canceled hfile rfl rfl
    | some file =>
      obtain ⟨o, mid, rest, hcalls, hwalk, hres, hnext⟩ := pathsLoop_walk env file
        (c := { c with
          paths := v3Paths adb, curPath := adbiFirst, curFile := adbiFirst
          user := user })
        hended (adbRaNum (v3Paths adb) + 1 - adbiFirst) rfl rfl le_rfl rfl le_rfl (fun h => absurd rfl h) (by simp [adbiFirst]; omega)
      rw [v3FromPath_first] at hwalk
      exact walked file hfile o mid rest hcalls hwalk hres hnext
  | @resume i j h =>
    rw [if_neg (by rw [h.curPath]; have := h.path_pos; omega)]
    simp only
    cases hfile : ops.file with
    | none =>
      refine canceled hfile rfl ?_
      split_ifs <;> rfl
    | some file =>
      have hle := h.path_le
      by_cases hlast : adbRaNum c.files < c.curFile + 1
      · rw [if_pos hlast]
        rw [h.files, h.curFile] at hlast
        obtain ⟨o, mid, rest, hcalls, hwalk, hres, hnext⟩ := pathsLoop_walk env file
          (c := { c with curPath := c.curPath + 1, curFile := adbiFirst }) (i := i + 1)
          h.ended (adbRaNum c.paths + 1 - (c.curPath + 1)) h.paths (congrArg (· + 1) h.curPath) (by omega) rfl le_rfl (fun h => absurd rfl h)
          (by rw [h.paths, h.curPath]; omega)
        have hn : adbRaNum c.paths + 1 - (c.curPath + 1) = adbRaNum (v3Paths adb) - i := by
          rw [h.paths, h.curPath]
          omega
        rw [v3After_last (by omega)]
        rw [hn] at hwalk
        exact walked file hfile o mid rest hcalls hwalk hres hnext
      rw [if_neg hlast]
      have hjpos := h.file_pos
      obtain ⟨o, mid, rest, hcalls, hwalk, hres, hnext⟩ := pathsLoop_walk env file
        (c := { c with curFile := c.curFile + 1 }) (i := i) (j := j + 1)
        h.ended (adbRaNum c.paths + 1 - c.curPath) h.paths h.curPath h.path_pos (congrArg (· + 1) h.curFile) (by omega)
        (fun _ => ⟨h.paths, h.path, h.files, h.curPath⟩)
        (by rw [h.paths, h.curPath]; omega)
      have hn : adbRaNum c.paths + 1 - c.curPath = adbRaNum (v3Paths adb) + 1 - i := by
        rw [h.paths, h.curPath]
      rw [v3After_next hle hjpos]
      rw [hn] at hwalk
      exact walked file hfile o mid rest hcalls hwalk hres hnext

end

end Alpine

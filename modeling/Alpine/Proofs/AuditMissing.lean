import Alpine.Spec.Audit

/-! What `audit --system` says about installed files that are gone. The sweep over the installed
files passes over every file whose directory the walk has not marked, and the walk marks only
directories that it finds on disk. So a deleted file is reported exactly if its directory is still
there. -/

namespace Alpine

open List AuditState

mutual

/-- the entry `bent` below `bdir` is `path` or has it below -/
def Node.has (bdir bent path : Bytes) : Node → Prop
  | .noStat => path = bdir ++ bent
  | .file _ _ _ => path = bdir ++ bent
  | .dir _ _ entries => path = bdir ++ bent ∨ entries.has (bdir ++ bent ++ [asc '/']) path

def Entries.has (bdir path : Bytes) : Entries → Prop
  | .nil => False
  | .cons name node rest => node.has bdir name.bytes path ∨ rest.has bdir path

end

mutual

/-- `path` is a directory on disk that the database knows and whose path fits into the buffer, and
so is every directory above it, which can also be opened -/
def Node.hasDir (known : Bytes → Prop) (bdir bent path : Bytes) : Node → Prop
  | .noStat => False
  | .file _ _ _ => False
  | .dir _ opens entries =>
    bdir.length + bent.length + 1 < pathMax ∧ known (bdir ++ bent) ∧ (path = bdir ++ bent ∨
        opens = true ∧ entries.hasDir known (bdir ++ bent ++ [asc '/']) path)

def Entries.hasDir (known : Bytes → Prop) (bdir path : Bytes) : Entries → Prop
  | .nil => False
  | .cons name node rest => node.hasDir known bdir name.bytes path ∨ rest.hasDir known bdir path

end

/-- the path of the walk ends in exactly one separator, or is empty -/
def ProperBase (bdir : Bytes) : Prop :=
  ∀ name, dirFilePath (apkBlobTrimEnd bdir (asc '/')) name = bdir ++ name

theorem properBase_nil : ProperBase [] := fun _ => rfl

theorem FsName.properBase (bdir : Bytes) (c : FsName) : ProperBase (bdir ++ c.bytes ++ [asc '/']) := by
  intro name
  obtain ⟨l, x, hc⟩ := (eq_nil_or_concat c.bytes).resolve_left c.ne_nil
  have hx : x ≠ asc '/' := by
    rintro rfl
    exact c.no_slash (by rw [hc]; simp)
  have htrim : apkBlobTrimEnd (bdir ++ c.bytes ++ [asc '/']) (asc '/') = bdir ++ c.bytes := by
    unfold apkBlobTrimEnd
    rw [rdropWhile_concat_pos _ _ _ (by simp), hc, concat_eq_append, ← append_assoc,
      rdropWhile_concat_neg _ _ _ (by simpa using hx)]
  rw [htrim, dirFilePath, if_neg (by simp [c.ne_nil])]
  simp

section

variable {O : Type}

def AuditLine.IsMissing : AuditLine O → Prop
  | .reason c _ _ _ _ => c = 'X'
  | _ => False

/-- the directory is the same but for the mark, which is set as before or for `r` -/
def Marked (r : Prop) : Option AuditDir → Option AuditDir → Prop
  | none, d' => d' = none
  | some d, d' => ∃ m, d' = some { d with modified := m } ∧ (m = true ↔ d.modified = true ∨ r)

def auditMore (p : Bytes → Bytes → Bool) (f : AuditFile O) : AuditFile O :=
  { f with audited := f.audited || p f.dir f.name }

/-- the walk marks the directories `R`, audits only files of `A` and reports none as missing -/
structure Walked (R : Bytes → Prop) (A : Bytes → Prop) (st st' : AuditState O) : Prop where
  dirs : ∀ n, Marked (R n) (st.dirs n) (st'.dirs n)
  files : ∃ p : Bytes → Bytes → Bool, st'.files = st.files.map (auditMore p) ∧
    ∀ d n, p d n = true → A (dirFilePath d n)
  output : ∀ l ∈ st'.output, l.IsMissing → l ∈ st.output

variable {R R' A A' : Bytes → Prop} {st st' st'' : AuditState O}

variable {f : AuditFile O} {r : Prop} {l : List (AuditFile O)} {k : ℕ} {symlink : Bool}
    {fi : StatInfo} {n : Bytes}

theorem Marked.refl (hr : ¬ r) (d : Option AuditDir) : Marked r d d := by
  cases d with
  | none => rfl
  | some d => exact ⟨d.modified, rfl, by simp [hr]⟩

theorem Marked.trans {r' : Prop} {a b c : Option AuditDir} (h : Marked r a b) (h' : Marked r' b c) :
    Marked (r ∨ r') a c := by
  cases a with
  | none =>
    subst h
    exact h'
  | some d =>
    obtain ⟨m, rfl, hm⟩ := h
    obtain ⟨m', rfl, hm'⟩ := h'
    exact ⟨m', rfl, by rw [hm', hm, or_assoc]⟩

theorem auditMore_false : l.map (auditMore fun _ _ => false) = l := by
  have h : (auditMore fun _ _ => false) = (id : AuditFile O → AuditFile O) := by
    funext f
    simp [auditMore]
  rw [h, map_id]

theorem auditMore_map {p q : Bytes → Bytes → Bool} :
    (l.map (auditMore p)).map (auditMore q) = l.map (auditMore fun d n => p d n || q d n) := by
  simp [auditMore, Bool.or_assoc]

theorem Walked.refl (hR : ∀ n, ¬ R n) (st : AuditState O) : Walked R A st st where
  dirs := fun n => Marked.refl (hR n) _
  files := ⟨fun _ _ => false, auditMore_false.symm, by simp⟩
  output := fun _ h _ => h

theorem Walked.trans (h : Walked R A st st') (h' : Walked R' A' st' st'') :
    Walked (fun n => R n ∨ R' n) (fun p => A p ∨ A' p) st st'' where
  dirs := fun n => (h.dirs n).trans (h'.dirs n)
  files := by
    obtain ⟨p, hp, hA⟩ := h.files
    obtain ⟨p', hp', hA'⟩ := h'.files
    refine ⟨fun d n => p d n || p' d n, by rw [hp', hp, auditMore_map], fun d n hdn => ?_⟩
    rcases Bool.or_eq_true_iff.1 hdn with hdn | hdn
    · exact Or.inl (hA d n hdn)
    · exact Or.inr (hA' d n hdn)
  output := fun l hl hm => h.output l (h'.output l hl hm) hm

theorem Walked.mono (h : Walked R A st st') (hR : ∀ n, R n ↔ R' n) (hA : ∀ p, A p → A' p) :
    Walked R' A' st st' where
  dirs := fun n => propext (hR n) ▸ h.dirs n
  files := by
    obtain ⟨p, hp, hA'⟩ := h.files
    exact ⟨p, hp, fun d n hdn => hA _ (hA' d n hdn)⟩
  output := h.output

theorem Walked.isSome (h : Walked R A st st') (n : Bytes) : (st'.dirs n).isSome = (st.dirs n).isSome := by
  have := h.dirs n
  cases hd : st.dirs n with
  | none =>
    rw [hd] at this
    rw [show st'.dirs n = none from this]
  | some d =>
    rw [hd] at this
    obtain ⟨m, h', -⟩ := this
    rw [h']
    rfl

/-- what the walk needs of the directories below the length `k` and of the files: no counter of
references is zero, directories have an owner and files a package -/
structure Walkable (k : ℕ) (st : AuditState O) : Prop where
  refs : ∀ n d, st.dirs n = some d → k < n.length → d.refs ≠ 0 ∧ d.refs < 2 ^ 16
  owner : ∀ n d, st.dirs n = some d → k < n.length → d.ownerAcl ≠ none
  pkg : ∀ f ∈ st.files, f.pkg ≠ none

theorem Walked.walkable (h : Walked R A st st') (hs : Walkable k st) : Walkable k st' := by
  have hdir : ∀ n d', st'.dirs n = some d' →
      ∃ d, st.dirs n = some d ∧ d'.refs = d.refs ∧ d'.ownerAcl = d.ownerAcl := by
    intro n d' hd'
    have hn := h.dirs n
    cases hd : st.dirs n with
    | none =>
      rw [hd, hd'] at hn
      exact absurd hn (by simp [Marked])
    | some d =>
      rw [hd, hd'] at hn
      obtain ⟨m, hm, -⟩ := hn
      cases hm
      exact ⟨d, rfl, rfl, rfl⟩
  refine ⟨fun n d' hd' hn => ?_, fun n d' hd' hn => ?_, fun f hf => ?_⟩
  · obtain ⟨d, hd, hrefs, -⟩ := hdir n d' hd'
    rw [hrefs]
    exact hs.refs n d hd hn
  · obtain ⟨d, hd, -, howner⟩ := hdir n d' hd'
    rw [howner]
    exact hs.owner n d hd hn
  obtain ⟨p, hp, -⟩ := h.files
  rw [hp, mem_map] at hf
  obtain ⟨g, hg, rfl⟩ := hf
  exact hs.pkg g hg

variable {env : AuditEnv O} {bdir bent : Bytes}

theorem markAudited_files : (markAudited bdir bent st).files = st.files.map
      (auditMore fun d n => d = apkBlobTrimEnd bdir (asc '/') ∧ n = bent) := by
  refine map_congr_left fun f _ => ?_
  by_cases h : f.dir = apkBlobTrimEnd bdir (asc '/') ∧ f.name = bent
  · simp [AuditFile.isAt, auditMore, h]
  · simp [AuditFile.isAt, auditMore, h]

theorem walked_of_marked (hb : ProperBase bdir) (hdirs : st'.dirs = st.dirs)
    (hfiles : st'.files = (markAudited bdir bent st).files)
    (hout : ∀ l ∈ st'.output, l.IsMissing → l ∈ st.output) :
    Walked (fun _ => False) (fun p => p = bdir ++ bent) st st' where
  dirs := fun n => hdirs ▸ Marked.refl (fun h => h) _
  files := by
    refine ⟨_, hfiles.trans markAudited_files, fun d n hdn => ?_⟩
    obtain ⟨rfl, rfl⟩ := of_decide_eq_true hdn
    exact hb n
  output := hout

theorem compareFile_spec (hpkg : f.pkg ≠ none) :
    ∃ reason, compareFile env f symlink fi = some reason ∧ reason ≠ some 'X' := by
  obtain ⟨pkg, hp⟩ := Option.ne_none_iff_exists'.mp hpkg
  unfold compareFile
  rw [hp]
  simp only
  split_ifs <;> exact ⟨_, rfl, by simp⟩

theorem auditFile_spec (hpkg : f.pkg ≠ none) {hashed : ℕ → ℕ → Bool × StatInfo} :
    ∃ rf, auditFile env (some f) fi hashed symlink = some rf ∧ rf.1 ≠ some 'X' := by
  unfold auditFile
  simp only
  split_ifs
  · exact ⟨_, rfl, by simp⟩
  · obtain ⟨reason, hr, hne⟩ := compareFile_spec hpkg
    exact ⟨_, by rw [hr]; rfl, hne⟩

/-- a directory that the walk is in -/
abbrev AuditDir.entered (d : AuditDir) : AuditDir := { d with refs := (d.refs + 1) % 2 ^ 16, modified := true }

variable {bfull : Bytes} {d : AuditDir}

theorem auditDirUnref_taken (hrefs : d.refs ≠ 0 ∧ d.refs < 2 ^ 16)
    (hd : st.dirs bfull = some d.entered) :
    auditDirUnref (bfull.length + 1) bfull st = st.setDir bfull { d with modified := true } := by
  have hback : ((d.refs + 1) % 2 ^ 16 + (2 ^ 16 - 1)) % 2 ^ 16 = d.refs := by omega
  unfold auditDirUnref
  rw [hd]
  simp only [hback]
  rw [if_pos (Or.inl hrefs.1)]

theorem walked_dir {st1 st2 : AuditState O} (hd : st.dirs bfull = some d)
    (hrefs : d.refs ≠ 0 ∧ d.refs < 2 ^ 16)
    (hdirs : st1.dirs = (st.setDir bfull d.entered).dirs)
    (hfiles : st1.files = st.files) (hout : ∀ l ∈ st1.output, l.IsMissing → l ∈ st.output)
    (h : Walked R A st1 st2) :
    Walked (fun n => n = bfull ∨ R n) A st (auditDirUnref (bfull.length + 1) bfull st2) := by
  have hin : st1.dirs bfull = some d.entered := by
    rw [hdirs]
    exact if_pos rfl
  have hleft : st2.dirs bfull = some d.entered := by
    have := h.dirs bfull
    rw [hin] at this
    obtain ⟨m, hm, hiff⟩ := this
    rw [hm, hiff.2 (Or.inl rfl)]
  rw [auditDirUnref_taken hrefs hleft]
  refine ⟨fun n => ?_, hfiles ▸ h.files, fun l hl hm => hout l (h.output l hl hm) hm⟩
  by_cases hn : n = bfull
  · subst hn
    rw [hd]
    exact ⟨true, if_pos rfl, by simp⟩
  have hother : st1.dirs n = st.dirs n := by
    rw [hdirs]
    exact if_neg hn
  have hset : (st2.setDir bfull { d with modified := true }).dirs n = st2.dirs n := if_neg hn
  rw [hset, ← hother, show (n = bfull ∨ R n) = R n from propext (or_iff_right hn)]
  exact h.dirs n

/-- the directories that the walk asks the database for -/
def known (st : AuditState O) (n : Bytes) : Prop := (st.dirs n).isSome = true

theorem Walked.known_eq (h : Walked R A st st') : known st' = known st := by
  funext n
  unfold known
  rw [h.isSome]

theorem known_setDir {d' : AuditDir} (hd : st.dirs bfull = some d)
    (hdirs : st'.dirs = (st.setDir bfull d').dirs) : known st' = known st := by
  funext n
  unfold known
  rw [hdirs]
  by_cases hn : n = bfull
  · subst hn
    rw [hd]
    simp [setDir]
  · simp [setDir, hn]

theorem Walkable.below (hs : Walkable k st) (hk : k < bfull.length)
    (hdirs : st'.dirs = (st.setDir bfull d).dirs) (hfiles : st'.files = st.files) :
    Walkable (bfull ++ [asc '/']).length st' := by
  have hother : ∀ n, (bfull ++ [asc '/']).length < n.length → st'.dirs n = st.dirs n := by
    intro n hn
    rw [hdirs]
    refine if_neg ?_
    rintro rfl
    simp at hn
  rw [length_append] at hother ⊢
  refine ⟨fun n d hd hn => ?_, fun n d hd hn => ?_, hfiles ▸ hs.pkg⟩
  · exact hs.refs n d (hother n hn ▸ hd) (by omega)
  · exact hs.owner n d (hother n hn ▸ hd) (by omega)

/-- the database as it is opened: nothing is marked, audited or printed yet, the root and the
directories of the files are in it, directories have an owner and their 16-bit counters of
references are not zero, and files have a package -/
structure Opened (st : AuditState O) : Prop where
  walkable : Walkable 0 st
  root : ∃ d, st.dirs [] = some d ∧ d.refs ≠ 0 ∧ d.refs < 2 ^ 16
  unmarked : ∀ n d, st.dirs n = some d → d.modified = false
  unaudited : ∀ f ∈ st.files, f.audited = false
  dir : ∀ f ∈ st.files, known st f.dir
  output : st.output = []

def swept (env : AuditEnv O) (dirs : Bytes → Option AuditDir) (f : AuditFile O) : Bool :=
  !f.audited && ((dirs f.dir).getD emptyDir).modified &&
    determineFileProtectMode env ((dirs f.dir).getD emptyDir) f.name ≠ .ignore

def missingLine (env : AuditEnv O) (f : AuditFile O) : AuditLine O :=
  .reason 'X' (if (dirFilePath f.dir f.name).length < pathMax then dirFilePath f.dir f.name else [])
    (some (f.dir, f.name)) (reportedAcl env 'X' none (some f)) none

/-- the mark is not part of what protects a file -/
theorem Walked.protectMode (h : Walked R A st st') {name : Bytes} :
    determineFileProtectMode env ((st'.dirs n).getD emptyDir) name =
      determineFileProtectMode env ((st.dirs n).getD emptyDir) name := by
  have hn := h.dirs n
  cases hd : st.dirs n with
  | none =>
    rw [hd] at hn
    rw [show st'.dirs n = none from hn]
  | some d =>
    rw [hd] at hn
    obtain ⟨m, hm, -⟩ := hn
    rw [hm]
    rfl

theorem Walked.modified_iff (h : Walked R A st st') (ho : Opened st) (hn : known st n) :
    ((st'.dirs n).getD emptyDir).modified = true ↔ R n := by
  obtain ⟨d, hd⟩ := Option.isSome_iff_exists.1 hn
  have hm := h.dirs n
  rw [hd] at hm
  obtain ⟨m, hst', hiff⟩ := hm
  rw [hst', Option.getD_some, hiff, ho.unmarked n d hd]
  simp

/-- the file is printed with `X` and its path -/
def ReportedMissing (f : AuditFile O) (output : List (AuditLine O)) : Prop :=
  ∃ acl fi, .reason 'X' (dirFilePath f.dir f.name) (some (f.dir, f.name)) acl fi ∈ output

variable [DecidableEq O]

/-- a report changes neither directories nor files, and says `X` only if that is its reason -/
theorem reportAudit_spec (env : AuditEnv O) (reason : Option Char) (bfull : Bytes)
    (dir : Option AuditDir) (file : Option (AuditFile O)) (fi : Option StatInfo)
    (st : AuditState O) :
    (reportAudit env reason bfull dir file fi st).dirs = st.dirs ∧
      (reportAudit env reason bfull dir file fi st).files = st.files ∧
      (reason ≠ some 'X' → ∀ l ∈ (reportAudit env reason bfull dir file fi st).output,
        l.IsMissing → l ∈ st.output) := by
  have hprint : ∀ line : AuditLine O, ¬ line.IsMissing →
      ∀ l ∈ (st.print line).output, l.IsMissing → l ∈ st.output := by
    intro line hline l hl hm
    rcases mem_append.1 hl with hl | hl
    · exact hl
    · rw [mem_singleton.1 hl] at hm
      exact absurd hm hline
  unfold reportAudit
  split
  · exact ⟨rfl, rfl, fun _ l hl _ => hl⟩
  next c =>
  by_cases hpkgs : env.packagesOnly
  · rw [if_pos hpkgs]
    split
    · exact ⟨rfl, rfl, fun _ l hl _ => hl⟩
    · split_ifs
      · exact ⟨rfl, rfl, fun _ l hl _ => hl⟩
      · exact ⟨rfl, rfl, fun _ => hprint _ fun h => h⟩
  rw [if_neg hpkgs]
  by_cases hverb : env.verbosity < 1
  · rw [if_pos hverb]
    exact ⟨rfl, rfl, fun _ => hprint _ fun h => h⟩
  · rw [if_neg hverb]
    exact ⟨rfl, rfl, fun hc => hprint _ fun h => hc (congrArg some h)⟩

theorem auditFileItem_walked (hmode : env.mode = .system) (hs : ∀ f ∈ st.files, f.pkg ≠ none)
    (hb : ProperBase bdir) (fi : StatInfo) (hashed : ℕ → ℕ → Bool × StatInfo)
    (symlink : Option Bytes) :
    ∃ st', auditFileItem env bdir bent fi hashed symlink st = some st' ∧
      Walked (fun _ => False) (fun p => p = bdir ++ bent) st st' := by
  have hmarked : Walked (fun _ => False) (fun p => p = bdir ++ bent) st (markAudited bdir bent st) :=
    walked_of_marked hb rfl rfl fun l hl _ => hl
  unfold auditFileItem fileReason
  rw [hmode]
  cases hq : auditFileQuery st bdir bent with
  | none => exact ⟨_, rfl, hmarked⟩
  | some f =>
    have hf : f ∈ st.files := mem_of_find?_eq_some hq
    simp only [Option.isNone_some, Bool.false_eq_true, false_and, if_false]
    split_ifs
    · exact ⟨_, rfl, hmarked⟩
    obtain ⟨rf, hrf, hne⟩ := auditFile_spec (hs f hf)
    obtain ⟨hdirs, hfiles, hout⟩ := reportAudit_spec env rf.1 (bdir ++ bent) none (some f)
      (some rf.2) (markAudited bdir bent st)
    exact ⟨_, by rw [hrf]; rfl, walked_of_marked hb hdirs hfiles (hout hne)⟩

theorem enterDir_known (hmode : env.mode = .system) (hd : st.dirs bfull = some d)
    (hrefs : d.refs ≠ 0 ∧ d.refs < 2 ^ 16) (howner : d.ownerAcl ≠ none) (fi : StatInfo) :
    ∃ st', enterDir env bfull fi st = some (.child st' true) ∧ st'.dirs = (st.setDir bfull d.entered).dirs ∧
      st'.files = st.files ∧ ∀ l ∈ st'.output, l.IsMissing → l ∈ st.output := by
  obtain ⟨acl, hacl⟩ := Option.ne_none_iff_exists'.mp howner
  have hone : (d.refs + 1) % 2 ^ 16 ≠ 1 := by omega
  have haudit : ∃ reason, auditDirectory env { d with refs := (d.refs + 1) % 2 ^ 16 } fi =
      some (reason, d.entered) ∧
      (reason = none ∨ reason = some 'm') := by
    unfold auditDirectory
    simp only [hone, if_false, hacl, AuditDir.entered]
    split_ifs
    · exact ⟨_, rfl, Or.inr rfl⟩
    · exact ⟨_, rfl, Or.inl rfl⟩
  obtain ⟨reason, haudit, hreason⟩ := haudit
  obtain ⟨hdirs, hfiles, hout⟩ := reportAudit_spec env reason (bfull ++ [asc '/'])
    (some d.entered) none (some fi)
    (st.setDir bfull d.entered)
  refine ⟨_, ?_, hdirs, hfiles, hout (by rcases hreason with rfl | rfl <;> simp)⟩
  unfold enterDir
  rw [hmode]
  simp only [hd]
  unfold enterChild
  rw [haudit]
  rcases hreason with rfl | rfl <;> rfl

mutual

theorem auditItem_walked (hmode : env.mode = .system) (bdir : Bytes) (c : FsName) (node : Node)
    (st : AuditState O) (hs : Walkable bdir.length st) (hb : ProperBase bdir) :
    ∃ st', auditItem env bdir c.bytes node st = some st' ∧
      Walked (fun n => node.hasDir (known st) bdir c.bytes n)
        (fun p => node.has bdir c.bytes p) st st' := by
  by_cases hfit : bdir.length + c.bytes.length + 1 ≥ pathMax
  · refine ⟨st, ?_, Walked.refl (fun n hn => ?_) st⟩
    · cases node <;> simp [auditItem, if_pos hfit]
    cases node with
    | noStat => exact hn
    | file _ _ _ => exact hn
    | dir _ _ _ => exact absurd hn.1 (by omega)
  match node with
  | .noStat =>
    obtain ⟨hdirs, hfiles, hout⟩ := reportAudit_spec env (some 'e') (bdir ++ c.bytes) none
      (auditFileQuery st bdir c.bytes) none (markAudited bdir c.bytes st)
    exact ⟨_, by simp [auditItem, if_neg hfit], walked_of_marked hb hdirs hfiles (hout (by simp))⟩
  | .file fi hashed symlink =>
    obtain ⟨st', hst', hw⟩ := auditFileItem_walked hmode hs.pkg hb fi hashed symlink
    exact ⟨st', by simp [auditItem, if_neg hfit, hst'], hw⟩
  | .dir fi opens entries =>
    cases hd : st.dirs (bdir ++ c.bytes) with
    | none =>
      refine ⟨st, ?_, Walked.refl (fun n hn => ?_) st⟩
      · simp [auditItem, enterDir, hmode, hd]
      · exact absurd hn.2.1 (by simp [known, hd])
    | some d =>
      have hlen : bdir.length < (bdir ++ c.bytes).length := by
        have := length_pos_of_ne_nil c.ne_nil
        rw [length_append]
        omega
      have hrefs := hs.refs _ d hd hlen
      obtain ⟨st1, henter, hdirs, hfiles, hout⟩ :=
        enterDir_known hmode hd hrefs (hs.owner _ d hd hlen) fi
      -- below the directory its own counter, which may be 0 now, is not looked at again
      have hs1 : Walkable (bdir ++ c.bytes ++ [asc '/']).length st1 := hs.below hlen hdirs hfiles
      have hreach : ∀ n, (n = bdir ++ c.bytes ∨ opens = true ∧
          entries.hasDir (known st) (bdir ++ c.bytes ++ [asc '/']) n) ↔
          (Node.dir fi opens entries).hasDir (known st) bdir c.bytes n := by
        intro n
        exact ⟨fun h => ⟨by omega, by simp [known, hd], h⟩, fun h => h.2.2⟩
      have hitem : auditItem env bdir c.bytes (.dir fi opens entries) st =
          (if opens then auditEntries env (bdir ++ c.bytes ++ [asc '/']) entries st1
            else some st1).map (auditDirUnref ((bdir ++ c.bytes).length + 1) (bdir ++ c.bytes)) := by
        simp [auditItem, if_neg hfit, henter]
      rw [hitem]
      cases opens with
      | false =>
        have hw : Walked (fun _ => False) (fun _ => False) st1 st1 := Walked.refl (fun _ h => h) st1
        refine ⟨_, rfl, (walked_dir hd hrefs hdirs hfiles hout hw).mono (fun n => ?_) fun p hp => hp.elim⟩
        rw [← hreach n]
        simp
      | true =>
        obtain ⟨st2, h2, hw⟩ := auditEntries_walked hmode _ entries st1 hs1 (c.properBase bdir)
        rw [known_setDir hd hdirs] at hw
        rw [h2]
        refine ⟨_, rfl, (walked_dir hd hrefs hdirs hfiles hout hw).mono (fun n => ?_)
          fun p hp => Or.inr hp⟩
        rw [← hreach n]
        simp

theorem auditEntries_walked (hmode : env.mode = .system) (bdir : Bytes) (entries : Entries)
    (st : AuditState O) (hs : Walkable bdir.length st) (hb : ProperBase bdir) :
    ∃ st', auditEntries env bdir entries st = some st' ∧
      Walked (fun n => entries.hasDir (known st) bdir n) (fun p => entries.has bdir p) st st' := by
  match entries with
  | .nil => exact ⟨st, rfl, Walked.refl (fun n hn => hn) st⟩
  | .cons c node rest =>
    obtain ⟨st1, h1, hw1⟩ := auditItem_walked hmode bdir c node st hs hb
    obtain ⟨st2, h2, hw2⟩ := auditEntries_walked hmode bdir rest st1 (hw1.walkable hs) hb
    rw [hw1.known_eq] at hw2
    exact ⟨st2, by simp [auditEntries, h1, h2], hw1.trans hw2⟩

end

/-- the walk from the root marks the root and the directories that it finds -/
theorem auditDirectoryTree_walked (hmode : env.mode = .system) (h : Opened st) {root : Entries} :
    ∃ st', auditDirectoryTree env root st = some st' ∧
      Walked (fun n => n = [] ∨ root.hasDir (known st) [] n) (fun p => root.has [] p) st st' := by
  obtain ⟨d, hd, hrefs⟩ := h.root
  set st1 := st.setDir [] d.entered with hst1
  have hget : (auditDirGet env 1 [] st).setDir []
      { ((auditDirGet env 1 [] st).dirs []).getD emptyDir with modified := true } = st1 := by
    have : auditDirGet env 1 [] st = st.setDir [] { d with refs := (d.refs + 1) % 2 ^ 16 } := by
      simp only [auditDirGet, hd, Option.isSome_some, Option.getD_some, true_and]
      rw [if_pos hrefs.1]
    rw [this]
    simp only [setDir, if_true, Option.getD_some]
    congr 1
    funext n
    by_cases hn : n = []
    · rw [if_pos hn, if_pos hn]
    · rw [if_neg hn, if_neg hn, if_neg hn]
  have hs1 : Walkable 0 st1 := by
    refine ⟨fun n d' hd' hn => ?_, fun n d' hd' hn => ?_, h.walkable.pkg⟩
    all_goals
      have hne : n ≠ [] := ne_nil_of_length_pos hn
      rw [hst1, setDir] at hd'
      simp only [if_neg hne] at hd'
    · exact h.walkable.refs n d' hd' hn
    · exact h.walkable.owner n d' hd' hn
  obtain ⟨st2, h2, hw⟩ := auditEntries_walked hmode [] root st1 hs1 properBase_nil
  rw [known_setDir hd rfl] at hw
  refine ⟨_, ?_, walked_dir hd hrefs rfl rfl (fun l hl _ => hl) hw⟩
  unfold auditDirectoryTree
  simp only [hget, h2]
  rfl

theorem auditMissingFile_eq (hpkgs : env.packagesOnly = false) (hverb : 1 ≤ env.verbosity) :
    auditMissingFile env st f =
      if swept env st.dirs f then st.print (missingLine env f) else st := by
  have hreport : ∀ path, reportAudit env (some 'X') path none (some f) none st =
      st.print (.reason 'X' path (some (f.dir, f.name)) (reportedAcl env 'X' none (some f)) none) := by
    intro path
    unfold reportAudit
    simp [hpkgs, if_neg (not_lt.2 hverb)]
  unfold auditMissingFile swept
  simp only [hreport]
  cases f.audited with
  | true => simp
  | false =>
    cases ((st.dirs f.dir).getD emptyDir).modified with
    | false => simp
    | true =>
      by_cases hmode : determineFileProtectMode env ((st.dirs f.dir).getD emptyDir) f.name = .ignore
      · simp [hmode]
      · simp [missingLine]

theorem sweep_output (hpkgs : env.packagesOnly = false) (hverb : 1 ≤ env.verbosity)
    {files : List (AuditFile O)} :
    (files.foldl (auditMissingFile env) st).output =
      st.output ++ (files.filter (swept env st.dirs)).map (missingLine env) := by
  induction files generalizing st with
  | nil => simp
  | cons f files ih =>
    rw [foldl_cons, auditMissingFile_eq hpkgs hverb, filter_cons]
    split_ifs
    · rw [ih]
      simp [print]
    · rw [ih]

/-- a file that no path of the tree leads to is reported exactly if its directory is the root or a
directory that the walk reaches, and its path fits into the buffer -/
theorem audit_system_reports_missing_iff (env : AuditEnv O) (hmode : env.mode = .system)
    (huser : env.usermode = false) (hpkgs : env.packagesOnly = false) (hverb : 1 ≤ env.verbosity)
    (root : Entries) (st : AuditState O) (ho : Opened st) (f : AuditFile O) (hf : f ∈ st.files)
    (hprotect : determineFileProtectMode env ((st.dirs f.dir).getD emptyDir) f.name = .none)
    (hmissing : ¬ root.has [] (dirFilePath f.dir f.name)) :
    ∃ st', auditMain env root st = .ok (some st') ∧ (ReportedMissing f st'.output ↔
        (f.dir = [] ∨ root.hasDir (known st) [] f.dir) ∧
          (dirFilePath f.dir f.name).length < pathMax) := by
  obtain ⟨st1, hwalk, hw⟩ := auditDirectoryTree_walked hmode ho
  refine ⟨st1.files.foldl (auditMissingFile env) st1, ?_, ?_⟩
  · unfold auditMain
    rw [huser, hwalk]
    simp [hmode]
  have hdir := hw.modified_iff ho (ho.dir f hf)
  rw [sweep_output hpkgs hverb]
  constructor
  · rintro ⟨acl, fi, hline⟩
    rcases mem_append.1 hline with hline | hline
    · -- the walk itself says of no file that it is missing
      have := hw.output _ hline rfl
      rw [ho.output] at this
      exact absurd this not_mem_nil
    obtain ⟨g, hg, heq⟩ := mem_map.1 hline
    obtain ⟨-, hswept⟩ := mem_filter.1 hg
    simp only [missingLine, AuditLine.reason.injEq, Option.some.injEq, Prod.mk.injEq] at heq
    obtain ⟨-, hpath, ⟨hd, hname⟩, -, -⟩ := heq
    simp only [swept, Bool.and_eq_true, hd] at hswept
    refine ⟨hdir.1 hswept.1.2, ?_⟩
    rw [← hpath]
    split_ifs with hlen
    · exact hlen
    · simp [pathMax]
  rintro ⟨hreached, hlen⟩
  obtain ⟨p, hp, hA⟩ := hw.files
  have hnot : p f.dir f.name = false := by
    by_contra hpf
    exact hmissing (hA _ _ (by simpa using hpf))
  have hsame : auditMore p f = f := by simp [auditMore, hnot]
  have hmem : f ∈ st1.files := by
    rw [hp, ← hsame]
    exact mem_map_of_mem hf
  refine ⟨reportedAcl env 'X' none (some f), none,
    mem_append_right _ (mem_map.2 ⟨f, mem_filter.2 ⟨hmem, ?_⟩, ?_⟩)⟩
  · simp only [swept, Bool.and_eq_true, ho.unaudited f hf]
    refine ⟨⟨rfl, hdir.2 hreached⟩, ?_⟩
    rw [hw.protectMode, hprotect]
    decide
  · simp [missingLine, if_pos hlen]

end

def systemEnv : AuditEnv Unit where
  mode := .system
  verbosity := 1
  recursive := false
  checkPermissions := false
  packagesOnly := false
  ignoreBusyboxSymlinks := false
  details := false
  usermode := false
  apknewSuffix := []
  protectedPaths := []
  fnmatch := fun _ _ => false
  brokenXattr := fun _ => false

def ownedDir : AuditDir := ⟨1, false, .none, false, [], some apkDefaultAclDir⟩

def fileInDir : AuditFile Unit where
  acl := apkDefaultAclFile
  digestAlg := apkDigestNone
  digest := []
  broken := false
  dir := [asc 'd']
  name := [asc 'f']
  pkg := some ()
  audited := false

def oneFileDb : AuditState Unit where
  dirs := fun n => if n = [] ∨ n = [asc 'd'] then some ownedDir else none
  files := [fileInDir]
  seen := fun _ => false
  output := []

theorem oneFileDb_opened : Opened oneFileDb := by
  have hdirs : ∀ n d, oneFileDb.dirs n = some d → d = ownedDir := by
    intro n d hd
    simp only [oneFileDb] at hd
    split_ifs at hd
    exact (Option.some.inj hd).symm
  refine ⟨⟨fun n d hd _ => ?_, fun n d hd _ => ?_, ?_⟩, ⟨ownedDir, rfl, by decide⟩,
    fun n d hd => ?_, ?_, ?_, rfl⟩
  · rw [hdirs n d hd]
    decide
  · rw [hdirs n d hd]
    decide
  · simp [oneFileDb, fileInDir]
  · rw [hdirs n d hd]
    rfl
  · simp [oneFileDb, fileInDir]
  · simp [oneFileDb, fileInDir, known]

def dirD : FsName := ⟨[asc 'd'], by decide, by decide⟩

def emptyDirOnDisk : Entries := .cons dirD (.dir ⟨0o755, 0, 0, 0, [], 0, []⟩ true .nil) .nil

/-- with the directory on disk the deleted file is reported -/
theorem audit_system_reports_missing_one :
    ∃ st', auditMain systemEnv emptyDirOnDisk oneFileDb = .ok (some st') ∧
      ReportedMissing fileInDir st'.output := by
  obtain ⟨st', hrun, hiff⟩ := audit_system_reports_missing_iff systemEnv rfl rfl rfl (by decide)
    emptyDirOnDisk oneFileDb oneFileDb_opened fileInDir (by simp [oneFileDb]) (by decide)
    (by simp [emptyDirOnDisk, Entries.has, Node.has, dirD, fileInDir, dirFilePath])
  refine ⟨st', hrun, hiff.2 ⟨Or.inr ?_, by decide⟩⟩
  simp [emptyDirOnDisk, Entries.hasDir, Node.hasDir, dirD, fileInDir, known, oneFileDb, pathMax]

/-- with the directory deleted too, nothing is printed -/
theorem audit_system_misses_deleted_dir : fileInDir ∈ oneFileDb.files ∧
      determineFileProtectMode systemEnv ((oneFileDb.dirs fileInDir.dir).getD emptyDir)
        fileInDir.name = .none ∧
      ¬ Entries.nil.has [] (dirFilePath fileInDir.dir fileInDir.name) ∧
      ∃ st', auditMain systemEnv .nil oneFileDb = .ok (some st') ∧ st'.output = [] := by
  refine ⟨by simp [oneFileDb], by decide, fun h => h, _, rfl, ?_⟩
  rfl

end Alpine

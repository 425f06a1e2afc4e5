import Alpine.Spec.Install

/-! The paths that the installation of an archive hands to the file system. Names with a component
`.` or `..` are refused where a `/` follows the component, and not where the name ends with it. -/

namespace Alpine

open List InstallState

def components (path : Bytes) : List Bytes := path.splitOnP (· = asc '/')

def dot : Bytes := [asc '.']
def dotDot : Bytes := [asc '.', asc '.']

def SafePath (path : Bytes) : Prop :=
  path.head? ≠ some (asc '/') ∧ dot ∉ components path ∧ dotDot ∉ components path

instance (path : Bytes) : Decidable (SafePath path) := inferInstanceAs (Decidable (_ ∧ _))

def EndsInDots (name : Bytes) : Prop :=
  name = dot ∨ name = dotDot ∨ asc '/' :: dot <:+ name ∨ asc '/' :: dotDot <:+ name

instance (name : Bytes) : Decidable (EndsInDots name) := inferInstanceAs (Decidable (_ ∨ _))

variable {l r : Bytes}

theorem components_append : components (l ++ asc '/' :: r) = components l ++ components r :=
  splitOnP_append_cons l r (by simp)

variable {c path name : Bytes} {ae : FileInfo}

theorem components_of_notMem (h : asc '/' ∉ c) : components c = [c] := by
  unfold components
  rw [splitOnP_eq_singleton]
  intro x hx
  simp only [decide_eq_false_iff_not]
  rintro rfl
  exact h hx

theorem mem_components (h : c ∈ components path) :
    ∃ l r, path = l ++ c ++ r ∧ (l = [] ∨ [asc '/'] <:+ l) ∧ (r = [] ∨ [asc '/'] <+: r) := by
  induction hn : path.length using Nat.strong_induction_on generalizing path with
  | _ n ih =>
    by_cases hs : asc '/' ∈ path
    · obtain ⟨a, b, rfl⟩ := append_of_mem hs
      simp only [length_append, length_cons] at hn
      rw [components_append, mem_append] at h
      rcases h with h | h
      · obtain ⟨l, r, rfl, hl, hr⟩ := ih a.length (by omega) h rfl
        refine ⟨l, r ++ asc '/' :: b, by simp, hl, Or.inr ?_⟩
        rcases hr with rfl | hr
        · exact ⟨b, rfl⟩
        · exact hr.trans (prefix_append _ _)
      obtain ⟨l, r, rfl, hl, hr⟩ := ih b.length (by omega) h rfl
      refine ⟨a ++ asc '/' :: l, r, by simp, Or.inr ?_, hr⟩
      rcases hl with rfl | hl
      · exact suffix_append _ _
      · exact hl.trans ((suffix_cons _ _).trans (suffix_append _ _))
    · rw [components_of_notMem hs, mem_singleton] at h
      exact ⟨[], [], by simp [h], Or.inl rfl, Or.inl rfl⟩

theorem strstr_iff {needle s : Bytes} : strstr needle s = true ↔ needle <:+: s := by
  induction s with
  | nil => simp [strstr]
  | cons c s ih => rw [strstr, Bool.or_eq_true, isPrefixOf_iff_prefix, ih, infix_cons_iff]

theorem component_cases (h : c ∈ components name) :
    (c ++ [asc '/'] <+: name ∨ asc '/' :: c ++ [asc '/'] <:+: name) ∨
      (name = c ∨ asc '/' :: c <:+ name) := by
  obtain ⟨l, r, rfl, hl, hr⟩ := mem_components h
  rcases hl with rfl | ⟨l, rfl⟩ <;> rcases hr with rfl | ⟨r, rfl⟩
  · exact Or.inr (Or.inl (by simp))
  · exact Or.inl (Or.inl ⟨r, by simp⟩)
  · exact Or.inr (Or.inr ⟨l, by simp⟩)
  · exact Or.inl (Or.inr ⟨l, r, by simp⟩)

theorem safePath_of_accepted (hm : maliciousName name = false) (hd : ¬ EndsInDots name) :
    SafePath name := by
  simp only [maliciousName, Bool.or_eq_false_iff, decide_eq_false_iff_not] at hm
  simp only [← Bool.not_eq_true, isPrefixOf_iff_prefix, strstr_iff] at hm
  obtain ⟨⟨⟨⟨⟨hrel, -⟩, hp1⟩, hp2⟩, hi1⟩, hi2⟩ := hm
  simp only [EndsInDots, not_or] at hd
  obtain ⟨he1, he2, hs1, hs2⟩ := hd
  refine ⟨hrel, fun h => ?_, fun h => ?_⟩
  · rcases component_cases h with (h | h) | h | h
    exacts [hp1 h, hi1 h, he1 h, hs1 h]
  · rcases component_cases h with (h | h) | h | h
    exacts [hp2 h, hi2 h, he2 h, hs2 h]

theorem not_safePath_of_endsInDots (h : EndsInDots name) : ¬ SafePath name := by
  rintro ⟨-, h1, h2⟩
  rcases h with rfl | rfl | ⟨l, rfl⟩ | ⟨l, rfl⟩
  · exact h1 (by decide)
  · exact h2 (by decide)
  · exact h1 (by rw [components_append]; exact mem_append_right _ (by decide))
  · exact h2 (by rw [components_append]; exact mem_append_right _ (by decide))

theorem safePath_nil : SafePath [] := by decide

theorem SafePath.before {p rest : Bytes} (h : SafePath (p ++ asc '/' :: rest)) : SafePath p := by
  obtain ⟨hrel, h1, h2⟩ := h
  rw [components_append] at h1 h2
  refine ⟨fun hp => hrel ?_, fun hp => h1 (mem_append_left _ hp), fun hp => h2 (mem_append_left _ hp)⟩
  cases p with
  | nil => simp at hp
  | cons c p => simpa using hp

theorem SafePath.trimEnd (h : SafePath path) : SafePath (apkBlobTrimEnd path (asc '/')) := by
  induction path using List.reverseRecOn with
  | nil => exact h
  | append_singleton path c ih =>
    unfold apkBlobTrimEnd at ih ⊢
    by_cases hc : c = asc '/'
    · subst hc
      rw [rdropWhile_concat_pos _ _ _ (by simp)]
      exact ih h.before
    · rw [rdropWhile_concat_neg _ _ _ (by simpa using hc)]
      exact h

theorem apkBlobRsplit_eq {b : Bytes} {c : UInt8} (h : apkBlobRsplit b c = some (l, r)) :
    b = l ++ c :: r := by
  induction b generalizing l with
  | nil => simp [apkBlobRsplit] at h
  | cons x b ih =>
    rw [apkBlobRsplit] at h
    cases hb : apkBlobRsplit b c with
    | some lr =>
      simp only [hb] at h
      obtain ⟨rfl, rfl⟩ := h
      rw [ih hb, cons_append]
    | none =>
      simp only [hb] at h
      split_ifs at h with hx
      obtain ⟨rfl, rfl⟩ := h
      rw [hx, nil_append]

theorem SafePath.dirParent (h : SafePath path) : SafePath (dirParent path) := by
  unfold Alpine.dirParent
  cases hr : apkBlobRsplit path (asc '/') with
  | none => exact safePath_nil
  | some lr =>
    rw [apkBlobRsplit_eq hr] at h
    exact h.before.trimEnd

theorem dirParent_length_lt (h : path ≠ []) : (dirParent path).length < path.length := by
  unfold Alpine.dirParent
  cases hr : apkBlobRsplit path (asc '/') with
  | none => exact length_pos_of_ne_nil h
  | some lr =>
    have hlen := congrArg List.length (apkBlobRsplit_eq hr)
    have htrim := (List.rdropWhile_prefix (· = asc '/') lr.1).length_le
    simp only [length_append, length_cons] at hlen
    simp only [apkBlobTrimEnd]
    omega

theorem apkDbDirPrepare_depth {O : Type} (env : InstallEnv O) {depth depth' : ℕ}
    (h : name.length < depth) (h' : name.length < depth') (expectedAcl : Option Acl) (newAcl : Acl)
    (st : InstallState O) :
    apkDbDirPrepare env depth name expectedAcl newAcl st =
      apkDbDirPrepare env depth' name expectedAcl newAcl st := by
  induction depth generalizing depth' name expectedAcl newAcl st with
  | zero => omega
  | succ depth ih =>
    obtain ⟨depth', rfl⟩ : ∃ d, depth' = d + 1 := ⟨depth' - 1, by omega⟩
    unfold apkDbDirPrepare
    by_cases hn : name = []
    · rw [if_pos hn, if_pos hn]
    have hlt := dirParent_length_lt hn
    have hup := ih (show (Alpine.dirParent name).length < depth by omega)
      (show (Alpine.dirParent name).length < depth' by omega)
    simp [hup]

section

variable {O : Type} {env : InstallEnv O} {st : InstallState O} {name : Bytes}

def CallsSafe (st : InstallState O) : Prop := ∀ c ∈ st.calls, SafePath c.path

theorem CallsSafe.call (h : CallsSafe st) (c : FsCall) (hc : SafePath c.path) :
    CallsSafe (st.call c) := by
  intro c' hc'
  rcases mem_append.1 hc' with h' | h'
  · exact h c' h'
  · rw [mem_singleton.1 h']
    exact hc

theorem CallsSafe.setDir (h : CallsSafe st) (dir : DbDir O) : CallsSafe (st.setDir name dir) := h

theorem CallsSafe.setDiri (h : CallsSafe st) (acl : Acl) : CallsSafe (setDiri name acl st) := h

variable {acl : Acl}

section

variable (h : CallsSafe st) (hn : SafePath name)
include h hn

theorem CallsSafe.mkdir : CallsSafe (apkDbDirMkdir env name acl st) := by
  unfold apkDbDirMkdir
  split_ifs
  · exact h
  · exact h.call (.dirCreate name _) hn
  · exact h.call (.dirCreate name _) hn

theorem CallsSafe.checkOrCreate (expectedAcl : Option Acl) (newAcl : Acl) :
    CallsSafe (dirCheckOrCreate env name expectedAcl newAcl st) := by
  unfold dirCheckOrCreate
  cases expectedAcl with
  | none => exact h.mkdir hn
  | some acl =>
    split_ifs
    · exact CallsSafe.mkdir (h.call (.dirCheck name _) hn) hn
    · exact h.call (.dirCheck name _) hn
    · exact h.call (.dirCheck name _) hn

theorem CallsSafe.prepare (depth : ℕ) (expectedAcl : Option Acl) (newAcl : Acl) :
    CallsSafe (apkDbDirPrepare env depth name expectedAcl newAcl st) := by
  induction depth generalizing st name expectedAcl newAcl with
  | zero => exact h
  | succ depth ih =>
    unfold apkDbDirPrepare
    simp only
    split_ifs
    · exact h
    · exact h
    · exact (h.setDir _).checkOrCreate hn _ _
    · refine CallsSafe.checkOrCreate ?_ hn _ _
      exact ih (h.setDir _) hn.dirParent _ _

theorem CallsSafe.updatePermissions : CallsSafe (apkDbDirUpdatePermissions env name acl st) := by
  unfold apkDbDirUpdatePermissions
  split_ifs
  · exact h
  · exact h
  · exact CallsSafe.call (h.setDir _) (.dirUpdatePerms name _) hn
  · exact CallsSafe.call (h.setDir _) (.dirUpdatePerms name _) hn

theorem CallsSafe.applyDiriPermissions (acl : Acl) :
    CallsSafe (apkDbDirApplyDiriPermissions env name acl st) := by
  unfold apkDbDirApplyDiriPermissions
  split
  · exact h
  split_ifs
  · exact h
  · exact CallsSafe.updatePermissions h hn
  · exact h

end

theorem CallsSafe.installDir (h : CallsSafe st) (hn : SafePath ae.name) :
    CallsSafe (installDir env ae st) :=
  ((h.setDiri _).applyDiriPermissions hn.trimEnd _).prepare hn.trimEnd _ _ _

variable [DecidableEq O]

theorem putFile_calls {dir : Bytes} {old : Option (Option O × DbFile)} {file : DbFile} :
    (putFile env dir name old file st).calls = st.calls := by
  unfold putFile
  split_ifs <;> rfl

theorem CallsSafe.extractFile (h : CallsSafe st) (hn : SafePath ae.name) (target : Option DbFile)
    (dir : Bytes) (old : Option (Option O × DbFile)) :
    CallsSafe (extractFile env ae target dir name old st).2 := by
  intro c hc
  simp only [Alpine.extractFile, addInstalledSize, putFile_calls] at hc
  exact h.call (.extract ae.name) hn c hc

theorem CallsSafe.replaceFile (h : CallsSafe st) (hn : SafePath ae.name) (target : Option DbFile)
    (dir : Bytes) : CallsSafe (replaceFile env ae target dir name st).2 := by
  unfold Alpine.replaceFile
  simp only
  split
  · exact h.extractFile hn _ _ _
  split
  · split_ifs
    · exact h.extractFile hn _ _ _
    · exact h
  · exact h
  · exact h.extractFile hn _ _ _

theorem CallsSafe.linkOrFile (h : CallsSafe st) (hn : SafePath ae.name) (dir : Bytes) :
    CallsSafe (linkOrFile env ae dir name st).2 := by
  unfold Alpine.linkOrFile
  split
  · exact h.replaceFile hn _ _
  · split
    · exact h
    · exact h.replaceFile hn _ _

theorem CallsSafe.installFile (h : CallsSafe st) (hn : SafePath ae.name) :
    CallsSafe (installFile env ae st).2 := by
  unfold Alpine.installFile
  simp only
  split_ifs
  · exact h.linkOrFile hn _
  · exact h
  · exact (h.setDiri _).linkOrFile hn _

theorem apkDbInstallFile_callsSafe (env : InstallEnv O) (h : CallsSafe st)
    (hn : EndsInDots ae.name → maliciousName ae.name = true) :
    CallsSafe (apkDbInstallFile env ae st).2 := by
  unfold apkDbInstallFile
  split_ifs with hm hdir
  · exact h
  · exact CallsSafe.installDir h (safePath_of_accepted (by simpa using hm) fun hd => hm (hn hd))
  · exact CallsSafe.installFile h (safePath_of_accepted (by simpa using hm) fun hd => hm (hn hd))

theorem installFiles_callsSafe {aes : List FileInfo}
    (hn : ∀ ae ∈ aes, EndsInDots ae.name → maliciousName ae.name = true) (h : CallsSafe st) :
    CallsSafe (installFiles env aes st).2 := by
  induction aes generalizing st with
  | nil => exact h
  | cons ae aes ih =>
    have hstep := apkDbInstallFile_callsSafe env h (hn ae mem_cons_self)
    unfold installFiles
    split_ifs
    · exact hstep
    · exact ih (fun a ha => hn a (mem_cons_of_mem _ ha)) hstep

end

def quietEnv : InstallEnv Unit where
  pkg := ()
  replacesFile := fun _ => .yes
  replacesDir := fun _ => .yes
  forceOverwrite := false
  simulate := false
  usermode := false
  sha256_160 := false
  digestCalc := fun _ => []
  fsExtract := fun _ => 0
  fsdirCreate := fun _ => 0
  fsdirCheck := fun _ => 0
  fsdirUpdatePerms := fun _ => 0

/-- nothing is installed, and the archive has brought the given directory and link target -/
def freshState (dir linkTarget : Bytes) : InstallState Unit where
  dirs := fun _ => ⟨false, false, false, none⟩
  diris := [(dir, apkDefaultAclDir), ((splitPath linkTarget).1.getD [], apkDefaultAclDir)]
  files := [((splitPath linkTarget).1.getD [], (splitPath linkTarget).2,
    ⟨apkDefaultAclFile, apkDigestNone, [], false⟩)]
  installed := fun _ _ => none
  brokenFiles := false
  brokenXattr := false
  installedSize := 0
  numDirUpdateErrors := 0
  calls := []

/-- the state in which the entry is installed as it stands -/
def readyState (ae : FileInfo) : InstallState Unit :=
  freshState ((splitPath ae.name).1.getD []) (ae.linkTarget.getD [])

theorem readyState_findFile {target : Bytes} (h : ae.linkTarget = some target) :
    ∃ f, apkDbIpkgFindFile (readyState ae) target = some f := by
  unfold apkDbIpkgFindFile
  simp [readyState, freshState, h, hasDiri]

theorem readyState_linkOrFile {dir : Bytes} :
    .extract ae.name ∈ (linkOrFile quietEnv ae dir name (readyState ae)).2.calls := by
  have hreplace : ∀ target, .extract ae.name ∈
      (replaceFile quietEnv ae target dir name (readyState ae)).2.calls := by
    simp [replaceFile, extractFile, addInstalledSize, putFile_calls, call, readyState, freshState]
  unfold linkOrFile
  split
  · exact hreplace none
  next target h =>
  obtain ⟨f, hf⟩ := readyState_findFile (by
    split_ifs at h
    exact h)
  rw [hf]
  exact hreplace (some f)

theorem readyState_extracts (hm : maliciousName ae.name = false) (hd : ae.isDir = false) :
    .extract ae.name ∈ (apkDbInstallFile quietEnv ae (readyState ae)).2.calls := by
  have hdiri : (readyState ae).hasDiri ((splitPath ae.name).1.getD []) = true := by
    simp [readyState, freshState, hasDiri]
  simp only [apkDbInstallFile, hm, hd, installFile, hdiri]
  exact readyState_linkOrFile

theorem readyState_creates (hm : maliciousName ae.name = false) (hd : ae.isDir = true)
    (hne : apkBlobTrimEnd ae.name (asc '/') ≠ []) :
    .dirCreate (apkBlobTrimEnd ae.name (asc '/')) (apkDbAclAtomizeDigest ae) ∈
      (apkDbInstallFile quietEnv ae (readyState ae)).2.calls := by
  simp only [apkDbInstallFile, hm, hd]
  simp [installDir, setDiri, apkDbDirApplyDiriPermissions, apkDbDirPrepare, dirCheckOrCreate, hne,
    apkDbDirMkdir, quietEnv, readyState, freshState, setDir, call,
    addInstalledSize, DirOwner.aclOr, apkDbDirGetMode]

theorem EndsInDots.trimEnd (h : EndsInDots name) : apkBlobTrimEnd name (asc '/') = name ∧ name ≠ [] := by
  have hlast : ∃ l, name = l ++ [asc '.'] := by
    rcases h with rfl | rfl | ⟨l, rfl⟩ | ⟨l, rfl⟩
    · exact ⟨[], rfl⟩
    · exact ⟨[asc '.'], rfl⟩
    · exact ⟨l ++ [asc '/'], by simp [dot]⟩
    · exact ⟨l ++ [asc '/', asc '.'], by simp [dotDot]⟩
  obtain ⟨l, rfl⟩ := hlast
  exact ⟨rdropWhile_concat_neg _ _ _ (by decide), by simp⟩

/-- an accepted name that ends in a dot component reaches the file system -/
theorem readyState_unsafe (hm : maliciousName ae.name = false) (hd : EndsInDots ae.name) :
    ¬ CallsSafe (apkDbInstallFile quietEnv ae (readyState ae)).2 := by
  intro hsafe
  cases hdir : ae.isDir with
  | false => exact not_safePath_of_endsInDots hd (hsafe _ (readyState_extracts hm hdir))
  | true =>
    obtain ⟨htrim, hne⟩ := hd.trimEnd
    have hcall := readyState_creates hm hdir (by rwa [htrim])
    have := hsafe _ hcall
    rw [htrim] at this
    exact not_safePath_of_endsInDots hd this

/-- archives of `allowed` entries give the file system safe paths only, in every database and
whatever the file system answers, exactly if each entry whose name ends in a dot component is
refused for another reason -/
theorem install_paths_safe_iff (allowed : FileInfo → Prop) :
    (∀ (O : Type) (_ : DecidableEq O) (env : InstallEnv O) (st : InstallState O)
        (aes : List FileInfo), st.calls = [] → (∀ ae ∈ aes, allowed ae) →
        ∀ c ∈ (installFiles env aes st).2.calls, SafePath c.path) ↔
      ∀ ae, allowed ae → EndsInDots ae.name → maliciousName ae.name = true := by
  constructor
  · intro h ae hallowed hd
    by_contra hm
    refine readyState_unsafe (by simpa using hm) hd ?_
    have hrun := h Unit inferInstance quietEnv (readyState ae) [ae] rfl (by simpa using hallowed)
    unfold installFiles at hrun
    split_ifs at hrun <;> exact hrun
  intro h O _ env st aes hcalls hallowed
  refine installFiles_callsSafe (fun ae hae => h ae (hallowed ae hae)) ?_
  intro c hc
  rw [hcalls] at hc
  exact absurd hc not_mem_nil

def dirEntry (name : Bytes) : FileInfo :=
  ⟨name, none, 0, 0, 0, sIfdir ||| 0o755, apkDigestNone, [], []⟩

/-- an archive with the directories `u` and `u/..`: the second is created, outside of the first -/
theorem install_creates_parent_dir :
    ∃ c ∈ (installFiles quietEnv [dirEntry [asc 'u'], dirEntry [asc 'u', asc '/', asc '.', asc '.']]
        (freshState [] [])).2.calls,
      c = .dirCreate [asc 'u', asc '/', asc '.', asc '.'] apkDefaultAclDir ∧ ¬ SafePath c.path := by
  refine ⟨.dirCreate [asc 'u', asc '/', asc '.', asc '.'] apkDefaultAclDir, ?_, rfl, ?_⟩
  · decide
  · decide

end Alpine

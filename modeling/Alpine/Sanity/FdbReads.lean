import Alpine.Sanity.FdbLines

/-! Reading the lines of a package one after the other: what each of them does to the state of
`apk_db_fdb_read`, from the fields of the header to the files of the last directory. -/

namespace Alpine

open List

/-- the lines take the reader from one state to the other -/
def Reads (ls : List Bytes) (st st' : FdbState) : Prop := ls.foldlM fdbLine st = some st'

theorem Reads.nil (st : FdbState) : Reads [] st st := rfl

variable {ls tags : List Bytes} {st st' : FdbState} {a b : Tmpl} {c : Char} {v : Bytes} {k : ℕ}

variable {ls' : List Bytes} {p : FdbPackage} {i : IpkgInfo} {ds : List Diri}

theorem Reads.append {a b c : FdbState} (h : Reads ls a b) (h' : Reads ls' b c) :
    Reads (ls ++ ls') a c := by
  unfold Reads at *
  rw [foldlM_append, h]
  exact h'

theorem Reads.single {l : Bytes} (h : fdbLine st l = some st') : Reads [l] st st' := by
  unfold Reads
  rw [foldlM_cons, h]
  rfl

/-- the lines change the template only, as long as the installed package has not begun -/
def ReadsInfo (ls : List Bytes) (t t' : Tmpl) : Prop :=
  ∀ st : FdbState, st.ipkg = none → st.tmpl = t → Reads ls st { st with tmpl := t' }

theorem ReadsInfo.append {c : Tmpl} (h : ReadsInfo ls a b) (h' : ReadsInfo ls' b c) :
    ReadsInfo (ls ++ ls') a c :=
  fun st hi ht => (h st hi ht).append (h' { st with tmpl := b } hi rfl)

theorem ReadsInfo.nil (t : Tmpl) : ReadsInfo [] t t := by
  rintro st - rfl
  exact Reads.nil st

theorem readsInfo_line {r : ℤ} (hr : r = 0 ∨ r = 2) (h : ∀ held, apkPkgtmplAddInfo held a (asc c) v = (r, b)) :
    ReadsInfo [line c v] a b := by
  rintro st hi rfl
  refine Reads.single ?_
  rcases hr with rfl | rfl <;> simp [fdbLine, line, h, hi]

theorem readsInfo_value (h : ∀ held, apkPkgtmplAddInfo held a (asc c) v = (0, b)) : ReadsInfo [line c v] a b :=
  readsInfo_line (Or.inl rfl) h

theorem readsInfo_field (h : ∀ held, apkPkgtmplAddInfo held a (asc c) v = (0, b)) (hempty : v = [] → b = a) :
    ReadsInfo (fieldLine c v) a b := by
  unfold fieldLine
  split_ifs with hv
  · rw [hempty hv]
    exact ReadsInfo.nil a
  · exact readsInfo_value h

theorem pullUint_number {v : ℕ} (h : v < 2 ^ 64) : (apkBlobPullUint (uintText v 10) 10).1 = v := by
  have := apkBlobPullUint_uintText (Or.inr rfl) h (Or.inl rfl)
  rw [append_nil] at this
  rw [this]

theorem readsInfo_count {v : ℕ} {f : ℕ → Tmpl} (hv : v < 2 ^ 64)
    (h : ∀ held, apkPkgtmplAddInfo held a (asc c) (uintText v 10) = (0, f (apkBlobPullUint (uintText v 10) 10).1)) :
    ReadsInfo [line c (uintText v 10)] a (f v) := by
  rw [pullUint_number hv] at h
  exact readsInfo_value h

theorem readsInfo_number {v : ℕ} {f : ℕ → Tmpl} (hv : v < 2 ^ 64)
    (h : ∀ held, apkPkgtmplAddInfo held a (asc c) (uintText v 10) = (0, f (apkBlobPullUint (uintText v 10) 10).1))
    (hempty : v = 0 → f v = a) : ReadsInfo (numberLine c v) a (f v) := by
  unfold numberLine
  split_ifs with h0
  · rw [hempty h0]
    exact ReadsInfo.nil a
  · exact readsInfo_count hv h

/-- the name is no longer than C takes it to be, and the numbers fit their types -/
structure HeaderOk (p : FdbPackage) : Prop where
  name : ∀ c ∈ p.name, c ≠ 0
  size : p.info.size < 2 ^ 64
  installedSize : p.info.installedSize < 2 ^ 64
  buildTime : p.info.buildTime < 2 ^ 64
  providerPriority : p.info.providerPriority < 2 ^ 16

def headerTmpl (p : FdbPackage) : Tmpl :=
  ⟨p.hash, some p.name, some p.version,
    { p.info with depends := [], provides := [], installIf := [], tags := [] }⟩

theorem readsInfo_header (hlen : p.hash.length = 20) (h : HeaderOk p) :
    ReadsInfo (headerLines p) emptyTmpl (headerTmpl p) := by
  obtain ⟨hash, name, version, info, ipkg, diris⟩ := p
  obtain ⟨arch, size, isize, desc, url, license, origin, maint, btime, commit, prio, dep, prov, iif,
    tags⟩ := info
  obtain ⟨hname, hsize, hisize, hbtime, hprio⟩ := h
  have hcstr : cstr name = name := by
    unfold cstr
    rw [takeWhile_eq_self_iff]
    intro c hc
    simpa using hname c hc
  let info (arch : Bytes) (size isize : ℕ) (desc url license origin maint : Bytes) (btime : ℕ)
      (commit : Bytes) (prio : ℕ) : Tmpl :=
    ⟨hash, some name, some version, ⟨arch, size, isize, desc, url, license, origin, maint, btime,
      commit, prio, [], [], [], []⟩⟩
  have hC : ReadsInfo [line 'C' (digestOf hash)] emptyTmpl { emptyTmpl with id := hash } := by
    refine readsInfo_value ?_
    simp +decide [apkPkgtmplAddInfo, apkBlobPullDigest_digestText (digestText_of_length hlen)]
  have hall := hC
    |>.append (readsInfo_value (c := 'P') (b := ⟨hash, some name, none, emptyTmpl.info⟩) (fun _ => rfl))
    |>.append (readsInfo_value (c := 'V') (b := info [] 0 0 [] [] [] [] [] 0 [] 0) (fun _ => rfl))
    |>.append (readsInfo_field (c := 'A') (b := info arch 0 0 [] [] [] [] [] 0 [] 0) (fun _ => rfl)
      (by rintro rfl; rfl))
    |>.append (readsInfo_count (c := 'S') (f := (info arch · 0 [] [] [] [] [] 0 [] 0)) hsize (fun _ => rfl))
    |>.append (readsInfo_count (c := 'I') (f := (info arch size · [] [] [] [] [] 0 [] 0)) hisize (fun _ => rfl))
    |>.append (readsInfo_value (c := 'T') (b := info arch size isize desc [] [] [] [] 0 [] 0) (fun _ => rfl))
    |>.append (readsInfo_value (c := 'U') (b := info arch size isize desc url [] [] [] 0 [] 0) (fun _ => rfl))
    |>.append (readsInfo_value (c := 'L') (b := info arch size isize desc url license [] [] 0 [] 0) (fun _ => rfl))
    |>.append (readsInfo_field (c := 'o') (b := info arch size isize desc url license origin [] 0 [] 0) (fun _ => rfl)
      (by rintro rfl; rfl))
    |>.append (readsInfo_field (c := 'm') (b := info arch size isize desc url license origin maint 0 [] 0) (fun _ => rfl)
      (by rintro rfl; rfl))
    |>.append (readsInfo_number (c := 't') (f := (info arch size isize desc url license origin maint · [] 0))
      hbtime (fun _ => rfl) (by rintro rfl; rfl))
    |>.append (readsInfo_field (c := 'c')
      (b := info arch size isize desc url license origin maint btime commit 0) (fun _ => rfl) (by rintro rfl; rfl))
    |>.append (readsInfo_number (c := 'k')
      (f := fun n => info arch size isize desc url license origin maint btime commit (n % 2 ^ 16))
      (lt_trans hprio (by norm_num)) (fun _ => rfl) (by rintro rfl; rfl))
  rw [Nat.mod_eq_of_lt hprio] at hall
  simpa [headerLines, headerTmpl, hcstr, info] using hall

theorem readsInfo_deps {ds : List (Dependency Bytes)} (hp : ∀ d ∈ ds, PlainDep d)
    {f : Bool × List (Dependency Bytes) → Tmpl}
    (h : ∀ held, apkPkgtmplAddInfo held a (asc c) (depsText ds) =
      (if depsOk (apkBlobPullDeps (depsText ds)) then 0 else 2, f (apkBlobPullDeps (depsText ds))))
    (hempty : ds = [] → f (true, []) = a) :
    ReadsInfo (depsLine c ds) a (f (true, ds.map normalDep)) := by
  rw [apkBlobPullDeps_depsText hp] at h
  unfold depsLine
  split_ifs with hds
  · subst hds
    rw [map_nil, hempty rfl]
    exact ReadsInfo.nil a
  refine readsInfo_line ?_ h
  split_ifs
  · exact Or.inl rfl
  · exact Or.inr rfl

/-- the template with the dependencies and the tags that are read so far -/
def infoTmpl (p : FdbPackage) (ws : List Bytes) : Tmpl :=
  ⟨p.hash, some p.name, some p.version,
    { p.info with depends := p.info.depends.map normalDep
                  provides := p.info.provides.map normalDep
                  installIf := p.info.installIf.map normalDep
                  tags := ws }⟩

theorem readsInfo_info (hlen : p.hash.length = 20) (h : HeaderOk p) (hp : PlainDeps p)
    (hif : ∀ d ∈ p.info.installIf, (normalDep d).broken = false) :
    ReadsInfo (headerLines p ++ depsLine 'D' p.info.depends ++ depsLine 'p' p.info.provides ++
      depsLine 'i' p.info.installIf) emptyTmpl (infoTmpl p []) := by
  obtain ⟨hdep, hprov, hiif, -⟩ := hp
  let t (ds vs is : List (Dependency Bytes)) : Tmpl :=
    ⟨p.hash, some p.name, some p.version,
      { p.info with depends := ds, provides := vs, installIf := is, tags := [] }⟩
  have hD := readsInfo_deps (c := 'D') hdep (a := t [] [] []) (f := fun r => t r.2 [] []) (fun _ => rfl) fun _ => rfl
  have hv := readsInfo_deps (c := 'p') hprov (a := t (p.info.depends.map normalDep) [] [])
    (f := fun r => t (p.info.depends.map normalDep) r.2 []) (fun _ => rfl) fun _ => rfl
  have hi := readsInfo_deps (c := 'i') hiif
    (f := fun r => t (p.info.depends.map normalDep) (p.info.provides.map normalDep)
      (if depsOk r then r.2 else [])) (fun _ => rfl) fun _ => rfl
  have hok : depsOk (true, p.info.installIf.map normalDep) = true := by
    simpa [depsOk] using hif
  simp only [hok] at hi
  exact (((readsInfo_header hlen h).append hD).append hv).append hi

/-- the letters of the entries that are no fields of the header -/
def entryLetters : List Char := ['F', 'M', 'R', 'Z', 'r', 'q', 'a', 's', 'f', 'g']

theorem addInfo_entry (hc : c ∈ entryLetters) {t : Tmpl} {held : Bytes → ℕ → UInt8} :
    apkPkgtmplAddInfo held t (asc c) v = (1, t) := by
  simp only [entryLetters, mem_cons, not_mem_nil, or_false] at hc
  rcases hc with rfl | rfl | rfl | rfl | rfl | rfl | rfl | rfl | rfl | rfl <;> rfl

theorem reads_entry (hc : c ∈ entryLetters) (hi : st.ipkg = some (i, ds))
    (h : fdbEntry st i ds (asc c) v 1 = some st') : Reads [line c v] st st' := by
  refine Reads.single ?_
  have hline : fdbLine st (line c v) = fdbEntry st i ds (asc c) v 1 := by
    obtain ⟨t, ipkg, diri, file, files, packages, tags, force, held⟩ := st
    obtain rfl : ipkg = some (i, ds) := hi
    simp [fdbLine, line, addInfo_entry hc]
  rw [hline, h]

/-- the end of a package, or an entry -/
def EntryLine (l : Bytes) : Prop := l = [] ∨ ∃ c ∈ entryLetters, ∃ v, l = line c v

/-- the first entry begins the installed package, and the end of the package does if none did -/
theorem reads_open (hne : ls ≠ []) (hls : ∀ l ∈ ls, EntryLine l) (hi : st.ipkg = none)
    (hname : st.tmpl.name ≠ none) (h : Reads ls { st with ipkg := some (emptyIpkg, []) } st') :
    Reads ls st st' := by
  obtain ⟨l, ls, rfl⟩ := exists_cons_of_ne_nil hne
  have hfirst : fdbLine st l = fdbLine { st with ipkg := some (emptyIpkg, []) } l := by
    rcases hls l mem_cons_self with rfl | ⟨c, hc, v, rfl⟩
    · simp [fdbLine, hi, hname, apkDbPkgAdd]
    · simp [fdbLine, line, addInfo_entry hc, hi]
  unfold Reads at h ⊢
  rwa [foldlM_cons, hfirst]

def within (tags : List Bytes) (force : Bool) (t : Tmpl) (i : IpkgInfo) (ds : List Diri)
    (diri : Option Bytes) (file : Option (Bytes × Bytes))
    (files : List ((Bytes × Bytes) × DbFile)) : FdbState :=
  ⟨t, some (i, ds), diri, file, files, [], tags, force, fun _ _ => 0⟩

/-- words that a blank can separate -/
def Word (w : Bytes) : Prop := w ≠ [] ∧ asc ' ' ∉ w ∧ asc '\n' ∉ w

theorem words_intercalate {ws : List Bytes} (hne : ws ≠ []) (h : ∀ w ∈ ws, Word w) :
    words ([asc ' '].intercalate ws) = ws := by
  have hsplit := splitOn_intercalate (asc ' ') (fun w hw => (h w hw).2.1) hne
  unfold words
  rw [show (fun c : UInt8 => decide (c = asc ' ')) = (· == asc ' ') from rfl, ← List.splitOn,
    hsplit, filter_eq_self]
  intro w hw
  simpa using (h w hw).1

/-- the table of tags: index 0 is for no tag, and the others stand there once and with their `@` -/
structure TagTable (tags : List Bytes) : Prop where
  room : tags.length ≤ 16
  nodup : (tags.drop 1).Nodup
  plain : ∀ t ∈ tags.drop 1, ∃ plain, t = asc '@' :: plain ∧ plain.head? ≠ some (asc '@') ∧
    asc '\n' ∉ plain

theorem getD_drop_one (h0 : k ≠ 0) (hk : k < tags.length) :
    ∃ h : k - 1 < (tags.drop 1).length, tags.getD k [] = (tags.drop 1)[k - 1] := by
  refine ⟨by rw [length_drop]; omega, ?_⟩
  rw [getD_eq_getElem?_getD, List.getElem?_eq_getElem hk, Option.getD_some, getElem_drop]
  congr 1
  omega

section

variable (h : TagTable tags) (h0 : k ≠ 0) (hk : k < tags.length)
include h h0 hk

theorem TagTable.get :
    ∃ plain, tags.getD k [] = asc '@' :: plain ∧ plain.head? ≠ some (asc '@') ∧ asc '\n' ∉ plain := by
  obtain ⟨hlen, hget⟩ := getD_drop_one h0 hk
  rw [hget]
  exact h.plain _ (getElem_mem hlen)

theorem apkDbGetTagId_plain : apkDbGetTagId tags ((tags.getD k []).drop 1) = ((k : ℤ), tags) := by
  obtain ⟨hlen, hget⟩ := getD_drop_one h0 hk
  obtain ⟨plain, hplain, hat, -⟩ := h.get h0 hk
  have hfind : (tags.drop 1).findIdx? (· = tags.getD k []) = some (k - 1) := by
    rw [hget, List.findIdx?_eq_some_iff_getElem]
    refine ⟨hlen, by simp, fun j hj heq => ?_⟩
    have := (h.nodup.getElem_inj_iff).1 (of_decide_eq_true heq)
    omega
  unfold apkDbGetTagId
  rw [show (tags.getD k []).drop 1 = plain by rw [hplain]; rfl, if_neg hat, ← hplain]
  simp only [hfind, Prod.mk.injEq, and_true]
  omega

theorem TagTable.no_newline : asc '\n' ∉ (tags.getD k []).drop 1 := by
  obtain ⟨plain, hplain, -, hline⟩ := h.get h0 hk
  rw [hplain]
  exact hline

end

theorem readFlags_flagsText (force : Bool) (i j : IpkgInfo) (hj : j.brokenFiles = false ∧
    j.brokenScript = false ∧ j.brokenXattr = false ∧ j.sha256_160 = false) :
    readFlags force (flagsText i) j = some { j with
      brokenFiles := i.brokenFiles, brokenScript := i.brokenScript, brokenXattr := i.brokenXattr,
      sha256_160 := i.sha256_160 } := by
  obtain ⟨r, q, s, f1, f2, f3, f4⟩ := j
  obtain ⟨rfl, rfl, rfl, rfl⟩ := hj
  unfold flagsText
  cases i.brokenFiles <;> cases i.brokenScript <;> cases i.brokenXattr <;> cases i.sha256_160 <;> rfl

section
variable {tags : List Bytes} {force : Bool} {t : Tmpl} {i : IpkgInfo} {ds : List Diri}
  {diri : Option Bytes} {file : Option (Bytes × Bytes)} {files : List ((Bytes × Bytes) × DbFile)}

theorem reads_tags {ws : List Bytes} (h : ∀ w ∈ ws, Word w) :
    Reads (tagsLine ws) (within tags force t i ds diri file files)
      (within tags force { t with info := { t.info with tags := t.info.tags ++ ws } } i ds diri file
        files) := by
  unfold tagsLine
  split_ifs with hws
  · rw [hws, append_nil]
    exact Reads.nil _
  refine reads_entry (by decide) rfl ?_
  rw [show fdbEntry _ i ds (asc 'g') _ 1 = some (within tags force { t with info :=
    { t.info with tags := t.info.tags ++ words ([asc ' '].intercalate ws) } } i ds diri file
      files) from rfl, words_intercalate hws h]

theorem reads_replaces (hnone : i.replaces = []) {rs : List (Dependency Bytes)}
    (h : ∀ d ∈ rs, PlainDep d) :
    Reads (depsLine 'r' rs) (within tags force t i ds diri file files)
      (within tags force t { i with replaces := rs.map normalDep } ds diri file files) := by
  unfold depsLine
  split_ifs with hrs
  · rw [hrs, map_nil, ← hnone]
    exact Reads.nil _
  refine reads_entry (by decide) rfl ?_
  have hr : fdbEntry (within tags force t i ds diri file files) i ds (asc 'r') (depsText rs) 1 =
      if (apkBlobPullDeps (depsText rs)).1 then
        some (within tags force t { i with replaces := i.replaces ++
          (apkBlobPullDeps (depsText rs)).2 } ds diri file files) else none := rfl
  rw [hr, apkBlobPullDeps_depsText h, hnone]
  rfl

theorem reads_priority (hnone : i.replacesPriority = 0) {n : ℕ} (h : n < 2 ^ 16) :
    Reads (numberLine 'q' n) (within tags force t i ds diri file files)
      (within tags force t { i with replacesPriority := n } ds diri file files) := by
  unfold numberLine
  split_ifs with hn
  · rw [hn, ← hnone]
    exact Reads.nil _
  refine reads_entry (by decide) rfl ?_
  rw [show fdbEntry _ i ds (asc 'q') _ 1 = some (within tags force t { i with replacesPriority :=
    (apkBlobPullUint (uintText n 10) 10).1 % 2 ^ 16 } ds diri file files) from rfl,
    pullUint_number (lt_trans h (by norm_num)), Nat.mod_eq_of_lt h]

theorem reads_repositoryTag (hnone : i.repositoryTag = 0) (htable : TagTable tags)
    (hk : k ≠ 0 → k < tags.length) :
    Reads (if k ≠ 0 then [line 's' ((tags.getD k []).drop 1)] else [])
      (within tags force t i ds diri file files)
      (within tags force t { i with repositoryTag := k } ds diri file files) := by
  split_ifs with h0
  · refine reads_entry (by decide) rfl ?_
    have hs : fdbEntry (within tags force t i ds diri file files) i ds (asc 's')
        ((tags.getD k []).drop 1) 1 =
        some (within (apkDbGetTagId tags ((tags.getD k []).drop 1)).2 force t { i with
          repositoryTag := ((apkDbGetTagId tags ((tags.getD k []).drop 1)).1 % 2 ^ 6).toNat } ds diri
          file files) := rfl
    have hlt : k < 16 := lt_of_lt_of_le (hk h0) htable.room
    have hmod : ((k : ℤ) % 2 ^ 6).toNat = k := by omega
    rw [hs, apkDbGetTagId_plain htable h0 (hk h0), hmod]
  · rw [not_not.1 h0, ← hnone]
    exact Reads.nil _

variable {acl : Acl} {j : IpkgInfo} {d : FdbDir} {f : FdbFile} {dir : Bytes}

theorem reads_flags
    (hnone : i.brokenFiles = false ∧ i.brokenScript = false ∧ i.brokenXattr = false ∧ i.sha256_160 = false) :
    Reads (fieldLine 'f' (flagsText j)) (within tags force t i ds diri file files)
      (within tags force t { i with
        brokenFiles := j.brokenFiles, brokenScript := j.brokenScript, brokenXattr := j.brokenXattr,
        sha256_160 := j.sha256_160 } ds diri file files) := by
  have hflags := readFlags_flagsText force j i hnone
  unfold fieldLine
  split_ifs with hf
  · rw [hf, readFlags, Option.some.injEq] at hflags
    rw [← hflags]
    exact Reads.nil _
  refine reads_entry (by decide) rfl ?_
  rw [show fdbEntry (within tags force t i ds diri file files) i ds (asc 'f') (flagsText j) 1 =
    (readFlags force (flagsText j) i).map fun i => within tags force t i ds diri file files from
    rfl, hflags]
  rfl

def normalIpkg (i : IpkgInfo) : IpkgInfo := { i with replaces := i.replaces.map normalDep }

theorem reads_ipkg (hr : ∀ d ∈ j.replaces, PlainDep d) (hq : j.replacesPriority < 2 ^ 16)
    (htable : TagTable tags) (hs : j.repositoryTag ≠ 0 → j.repositoryTag < tags.length) :
    Reads (ipkgLines tags j) (within tags force t emptyIpkg ds diri file files)
      (within tags force t (normalIpkg j) ds diri file files) :=
  (((reads_replaces rfl hr).append (reads_priority rfl hq)).append
    (reads_repositoryTag rfl htable hs)).append (reads_flags ⟨rfl, rfl, rfl, rfl⟩)

structure AclOk (acl : Acl) : Prop where
  mode : acl.mode < 2 ^ 12
  uid : acl.uid < 2 ^ 32
  gid : acl.gid < 2 ^ 32

theorem pullAcl_aclText (h : AclOk acl) (hw : AclWritten acl) : pullAcl (aclText acl) = some acl := by
  obtain ⟨mode, uid, gid, hash⟩ := acl
  obtain ⟨hmode, huid, hgid⟩ := h
  have hbits : mode % 2 ^ 32 &&& 0o7777 = mode := by
    rw [Nat.mod_eq_of_lt (lt_trans hmode (by norm_num)),
      show (0o7777 : ℕ) = 2 ^ 12 - 1 from rfl, Nat.and_two_pow_sub_one_eq_mod]
    exact Nat.mod_eq_of_lt hmode
  have hlong : ∀ n : ℕ, n < 2 ^ 32 → n < 2 ^ 64 := fun n hn => lt_trans hn (by norm_num)
  have hcolon : ∀ b : Bytes, apkBlobPullChar (asc ':' :: b) ':' = some b := fun b => by
    simp [apkBlobPullChar]
  unfold pullAcl aclText
  simp only [apkBlobPullUint_uintText (Or.inr rfl) (hlong uid huid) (Or.inr ⟨_, rfl⟩), hcolon,
    Option.bind_some, apkBlobPullUint_uintText (Or.inr rfl) (hlong gid hgid) (Or.inr ⟨_, rfl⟩)]
  have hnumbers : mode % 2 ^ 32 &&& 0o7777 = mode ∧ uid < 2 ^ 32 ∧ gid < 2 ^ 32 :=
    ⟨hbits, huid, hgid⟩
  have hmode64 : mode < 2 ^ 64 := lt_trans hmode (by norm_num)
  by_cases hx : hash = []
  · rw [if_neg (not_not.2 hx), apkBlobPullUint_uintText (Or.inl rfl) hmode64 (Or.inl rfl)]
    simpa [apkBlobPullBlobMatch, hx] using hnumbers
  have hdigest := apkBlobPullDigest_digestText (digestText_of_length (hw.resolve_left hx))
  have hmatch : ∀ b : Bytes, apkBlobPullBlobMatch (asc ':' :: b) [asc ':'] = some b := by
    simp [apkBlobPullBlobMatch, memcmp_self]
  rw [if_pos hx, apkBlobPullUint_uintText (Or.inl rfl) hmode64 (Or.inr ⟨_, rfl⟩)]
  simpa [hmatch, hdigest] using hnumbers

theorem map_last {α : Type} {l : List α} {x : α} {q : α → Prop} [DecidablePred q] {f : α → α}
    (hl : ∀ e ∈ l, ¬ q e) (hx : q x) :
    (l ++ [x]).map (fun e => if q e then f e else e) = l ++ [f x] := by
  rw [map_append, map_singleton, if_pos hx, map_congr_left fun e he => if_neg (hl e he), map_id']

/-- the name and the ACL of a directory can be told from the lines -/
structure DirOk (d : FdbDir) : Prop where
  length : d.name.length < 2 ^ 16
  trimmed : apkBlobTrimEnd d.name (asc '/') = d.name
  line : asc '\n' ∉ d.name
  acl : AclOk d.acl

theorem reads_dir (h : DirOk d) (hw : AclWritten d.acl) (hname : t.name ≠ none)
    (hfresh : ∀ x ∈ ds, x.name ≠ d.name) :
    Reads (dirLines d) (within tags force t i ds diri file files)
      (within tags force t i (ds ++ [⟨d.name, d.acl, []⟩]) (some d.name) file files) := by
  have hF : Reads [line 'F' (d.name.take (d.name.length % 2 ^ 16))]
      (within tags force t i ds diri file files)
      (within tags force t i (ds ++ [⟨d.name, apkDefaultAclDir, []⟩]) (some d.name) file files) := by
    rw [Nat.mod_eq_of_lt h.length, take_length]
    refine reads_entry (by decide) rfl ?_
    have hany : ds.any (·.name = d.name) = false := by simpa using hfresh
    have hf : fdbEntry (within tags force t i ds diri file files) i ds (asc 'F') d.name 1 =
        if t.name = none then none
        else if ds.any (·.name = d.name) then
          some (within tags force t i ds (some d.name) file files)
        else some (within tags force t i (ds ++ [⟨apkBlobTrimEnd d.name (asc '/'),
          apkDefaultAclDir, []⟩]) (some (apkBlobTrimEnd d.name (asc '/'))) file files) := rfl
    rw [hf, if_neg hname, hany, h.trimmed]
    rfl
  refine hF.append (c := within tags force t i (ds ++ [⟨d.name, d.acl, []⟩]) (some d.name) file files) ?_
  split_ifs with hacl
  · refine reads_entry (by decide) rfl ?_
    have hm : fdbEntry (within tags force t i (ds ++ [⟨d.name, apkDefaultAclDir, []⟩])
        (some d.name) file files) i (ds ++ [⟨d.name, apkDefaultAclDir, []⟩]) (asc 'M')
        (aclText d.acl) 1 = (pullAcl (aclText d.acl)).map fun acl =>
          within tags force t i (mapDiri d.name (fun d => { d with acl := acl })
            (ds ++ [⟨d.name, apkDefaultAclDir, []⟩])) (some d.name) file files := rfl
    rw [hm, pullAcl_aclText h.acl hw, Option.map_some, mapDiri, map_last hfresh rfl]
  · rw [not_not.1 hacl]
    exact Reads.nil _

/-- what is known of a file that is read back -/
def normalDbFile (f : FdbFile) : DbFile := ⟨f.acl, f.digestAlg, f.digest, false⟩

/-- the name, the ACL and the digest of a file can be told from the lines; the digests of a package
are all of one kind, which its flag gives -/
structure FileOk (sha256_160 : Bool) (f : FdbFile) : Prop where
  length : f.name.length < 2 ^ 8
  line : asc '\n' ∉ f.name
  acl : AclOk f.acl
  digest : f.digestAlg = apkDigestNone ∧ f.digest = [] ∨
    f.digestAlg = if sha256_160 then apkDigestSha256_160 else apkDigestSha1

theorem fileDigest_eq (h : FileOk i.sha256_160 f) (hw : FileWritten f)
    (halg : f.digestAlg ≠ apkDigestNone) {r : Bytes} :
    fileDigest i.sha256_160 (apkDigestSha1, f.digest, r) ⟨f.acl, apkDigestNone, [], false⟩ =
      normalDbFile f := by
  rcases h.digest with ⟨hnone, -⟩ | hd
  · exact absurd hnone halg
  unfold fileDigest apkDbfDigestSet normalDbFile
  rw [hd]
  have hlen := hw.2 halg
  cases i.sha256_160 <;> simp [apkDigestAlgLen, ← hlen]

theorem reads_file {ns : List Bytes} (h : FileOk i.sha256_160 f) (hw : FileWritten f)
    (hds : ∀ x ∈ ds, x.name ≠ dir) (hfresh : ∀ e ∈ files, e.1 ≠ (dir, f.name)) :
    Reads (fileLines f) (within tags force t i (ds ++ [⟨dir, acl, ns⟩]) (some dir) file files)
      (within tags force t i (ds ++ [⟨dir, acl, ns ++ [f.name]⟩]) (some dir) (some (dir, f.name))
        (files ++ [((dir, f.name), normalDbFile f)])) := by
  let st (file : DbFile) : FdbState := within tags force t i
    (ds ++ [⟨dir, acl, ns ++ [f.name]⟩]) (some dir) (some (dir, f.name))
    (files ++ [((dir, f.name), file)])
  have hmap : ∀ (x : DbFile) (g : DbFile → DbFile), (st x).mapFile (dir, f.name) g = st (g x) := by
    intro x g
    simp only [FdbState.mapFile, st, within]
    rw [map_last hfresh rfl]
  have hR : Reads [line 'R' (f.name.take (f.name.length % 2 ^ 8))]
      (within tags force t i (ds ++ [⟨dir, acl, ns⟩]) (some dir) file files)
      (st ⟨apkDefaultAclFile, apkDigestNone, [], false⟩) := by
    rw [Nat.mod_eq_of_lt h.length, take_length]
    refine reads_entry (by decide) rfl ?_
    have hany : files.any (·.1 = (dir, f.name)) = false := by simpa using hfresh
    have hr : fdbEntry (within tags force t i (ds ++ [⟨dir, acl, ns⟩]) (some dir) file files) i
        (ds ++ [⟨dir, acl, ns⟩]) (asc 'R') f.name 1 =
        if files.any (·.1 = (dir, f.name)) then some (within tags force t i
          (ds ++ [⟨dir, acl, ns⟩]) (some dir) (some (dir, f.name)) files)
        else some (within tags force t i (mapDiri dir (fun d => { d with files := d.files ++ [f.name] })
            (ds ++ [⟨dir, acl, ns⟩])) (some dir) (some (dir, f.name))
          (files ++ [((dir, f.name), ⟨apkDefaultAclFile, apkDigestNone, [], false⟩)])) := rfl
    rw [hr, hany, mapDiri, map_last hds rfl]
    rfl
  have ha : Reads (aclLine 'a' f.acl apkDefaultAclFile)
      (st ⟨apkDefaultAclFile, apkDigestNone, [], false⟩) (st ⟨f.acl, apkDigestNone, [], false⟩) := by
    unfold aclLine
    split_ifs with hacl
    · refine reads_entry (by decide) rfl ?_
      rw [show fdbEntry (st _) i _ (asc 'a') (aclText f.acl) 1 =
        (pullAcl (aclText f.acl)).map fun acl => (st _).mapFile (dir, f.name) fun f =>
          { f with acl := acl } from rfl, pullAcl_aclText h.acl hw.1, Option.map_some, hmap]
    · rw [not_not.1 hacl]
      exact Reads.nil _
  have hZ : Reads (digestLine f) (st ⟨f.acl, apkDigestNone, [], false⟩) (st (normalDbFile f)) := by
    unfold digestLine
    split_ifs with halg
    · refine reads_entry (by decide) rfl ?_
      rw [show fdbEntry (st _) i _ (asc 'Z') (digestOf f.digest) 1 =
        (apkBlobPullDigest (digestOf f.digest)).map fun d =>
          (st _).mapFile (dir, f.name) (fileDigest i.sha256_160 d) from rfl,
        apkBlobPullDigest_digestText (digestText_of_length (hw.2 halg)), Option.map_some, hmap,
        fileDigest_eq h hw halg]
    have hnone := not_not.1 halg
    have hempty : f.digest = [] := by
      rcases h.digest with hd | hd
      · exact hd.2
      · rw [hnone] at hd
        cases hsha : i.sha256_160 <;> rw [hsha] at hd <;> exact absurd hd (by decide)
    rw [normalDbFile, hnone, hempty]
    exact Reads.nil _
  exact hR.append (ha.append hZ)

theorem reads_files {fs : List FdbFile} (h : ∀ f ∈ fs, FileOk i.sha256_160 f ∧ FileWritten f)
    (hnodup : (fs.map (·.name)).Nodup) (hds : ∀ x ∈ ds, x.name ≠ dir) (ns : List Bytes)
    (hfresh : ∀ f ∈ fs, ∀ e ∈ files, e.1 ≠ (dir, f.name)) :
    ∃ last, Reads (fs.flatMap fileLines)
      (within tags force t i (ds ++ [⟨dir, acl, ns⟩]) (some dir) file files)
      (within tags force t i (ds ++ [⟨dir, acl, ns ++ fs.map (·.name)⟩]) (some dir) last
        (files ++ fs.map fun f => ((dir, f.name), normalDbFile f))) := by
  induction fs generalizing ns file files with
  | nil => exact ⟨file, by simpa using Reads.nil _⟩
  | cons f fs ih =>
    obtain ⟨hnot, hnodup⟩ := nodup_cons.1 hnodup
    have hf := h f mem_cons_self
    have hkey : ∀ f' ∈ fs, ∀ e ∈ files ++ [((dir, f.name), normalDbFile f)], e.1 ≠ (dir, f'.name) := by
      intro f' hf' e he
      rcases mem_append.1 he with he | he
      · exact hfresh f' (mem_cons_of_mem _ hf') e he
      · rw [mem_singleton.1 he]
        intro heq
        exact hnot (mem_map.2 ⟨f', hf', (Prod.mk.inj heq).2.symm⟩)
    obtain ⟨last, hrest⟩ := ih (fun f' hf' => h f' (mem_cons_of_mem _ hf')) hnodup (ns ++ [f.name]) hkey
    rw [flatMap_cons]
    refine ⟨last, Reads.append (reads_file hf.1 hf.2 hds (hfresh f mem_cons_self)) ?_⟩
    simpa using hrest

/-- what the reader holds of a directory, and of its files -/
def dirRecord (d : FdbDir) : Diri := ⟨d.name, d.acl, (keptFiles d).map (·.name)⟩

def fileRecords (d : FdbDir) : List ((Bytes × Bytes) × DbFile) :=
  (keptFiles d).map fun f => ((d.name, f.name), normalDbFile f)

theorem reads_diri (h : DirOk d) (hf : ∀ f ∈ keptFiles d, FileOk i.sha256_160 f)
    (hnodup : ((keptFiles d).map (·.name)).Nodup) (hw : DirWritten d) (hname : t.name ≠ none)
    (hdirs : ∀ x ∈ ds, x.name ≠ d.name) (hfiles : ∀ e ∈ files, e.1.1 ≠ d.name) :
    ∃ last, Reads (diriLines d) (within tags force t i ds diri file files)
      (within tags force t i (ds ++ [dirRecord d]) (some d.name) last (files ++ fileRecords d)) := by
  have hfresh : ∀ f ∈ keptFiles d, ∀ e ∈ files, e.1 ≠ (d.name, f.name) := fun f _ e he heq =>
    hfiles e he (congrArg Prod.fst heq)
  obtain ⟨last, hread⟩ := reads_files (fun f hk => ⟨hf f hk, hw.2 f hk⟩) hnodup hdirs [] hfresh
  exact ⟨last, (reads_dir h hw.1 hname hdirs).append hread⟩

/-- the directories that can be told from the lines -/
structure DirisOk (sha256_160 : Bool) (dirs : List FdbDir) : Prop where
  dir : ∀ d ∈ dirs, DirOk d
  file : ∀ d ∈ dirs, ∀ f ∈ keptFiles d, FileOk sha256_160 f
  dir_nodup : (dirs.map (·.name)).Nodup
  file_nodup : ∀ d ∈ dirs, ((keptFiles d).map (·.name)).Nodup

theorem DirisOk.tail {sha256_160 : Bool} {d : FdbDir} {dirs : List FdbDir}
    (h : DirisOk sha256_160 (d :: dirs)) :
    DirisOk sha256_160 dirs ∧ ∀ d' ∈ dirs, d.name ≠ d'.name := by
  obtain ⟨hnot, hnodup⟩ := nodup_cons.1 h.dir_nodup
  exact ⟨⟨fun d' hd' => h.dir d' (mem_cons_of_mem _ hd'),
    fun d' hd' => h.file d' (mem_cons_of_mem _ hd'), hnodup,
    fun d' hd' => h.file_nodup d' (mem_cons_of_mem _ hd')⟩,
    fun d' hd' heq => hnot (mem_map.2 ⟨d', hd', heq.symm⟩)⟩

theorem reads_diris {dirs : List FdbDir} (h : DirisOk i.sha256_160 dirs)
    (hw : ∀ d ∈ dirs, DirWritten d) (hname : t.name ≠ none)
    (hdirs : ∀ d ∈ dirs, ∀ x ∈ ds, x.name ≠ d.name)
    (hfiles : ∀ d ∈ dirs, ∀ e ∈ files, e.1.1 ≠ d.name) :
    ∃ lastDir lastFile, Reads (dirs.flatMap diriLines) (within tags force t i ds diri file files)
      (within tags force t i (ds ++ dirs.map dirRecord) lastDir lastFile
        (files ++ dirs.flatMap fileRecords)) := by
  induction dirs generalizing ds diri file files with
  | nil => exact ⟨diri, file, by simpa using Reads.nil _⟩
  | cons d dirs ih =>
    obtain ⟨hrest, hother⟩ := h.tail
    have hmem : d ∈ d :: dirs := mem_cons_self
    obtain ⟨last, hd⟩ := reads_diri (h.dir d hmem) (h.file d hmem) (h.file_nodup d hmem) (hw d hmem)
      hname (hdirs d hmem) (hfiles d hmem)
    have hdirs' : ∀ d' ∈ dirs, ∀ x ∈ ds ++ [dirRecord d], x.name ≠ d'.name := by
      intro d' hd' x hx
      rcases mem_append.1 hx with hx | hx
      · exact hdirs d' (mem_cons_of_mem _ hd') x hx
      · rw [mem_singleton.1 hx]
        exact hother d' hd'
    have hfiles' : ∀ d' ∈ dirs, ∀ e ∈ files ++ fileRecords d, e.1.1 ≠ d'.name := by
      intro d' hd' e he
      rcases mem_append.1 he with he | he
      · exact hfiles d' (mem_cons_of_mem _ hd') e he
      · obtain ⟨f, -, rfl⟩ := mem_map.1 he
        exact hother d' hd'
    obtain ⟨lastDir, lastFile, hread⟩ := ih hrest (fun d' hd' => hw d' (mem_cons_of_mem _ hd'))
      hdirs' hfiles'
    refine ⟨lastDir, lastFile, ?_⟩
    rw [flatMap_cons]
    refine Reads.append hd ?_
    simpa using hread

end

theorem reads_end {force : Bool} {hash name version : Bytes} {info : PkgInfo} {diri : Option Bytes}
    {file : Option (Bytes × Bytes)} {files : List ((Bytes × Bytes) × DbFile)}
    (hlen : hash.length = 20) :
    Reads [[]] (within tags force ⟨hash, some name, some version, info⟩ i ds diri file files)
      ⟨emptyTmpl, none, none, file, files, [⟨hash, name, version, info, i, ds⟩], tags, force,
        fun _ _ => 0⟩ := by
  refine Reads.single ?_
  simp [fdbLine, within, apkDbPkgAdd, ← hlen]

end Alpine

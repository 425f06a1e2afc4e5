import Alpine.Sanity.FdbText

/-! The text that `apk_db_fdb_write` gives is a sequence of lines. A buffer that is not NULL in the
end holds all that was pushed to it, so only the lines remain of the pieces. -/

namespace Alpine

open List Option

def unlines (ls : List Bytes) : Bytes := ls.flatMap (· ++ ln)

variable {ls : List Bytes} {size : ℕ} {pieces : List (Option Bytes)} {b hash : Bytes}
    {p : FdbPackage} {acl : Acl}

theorem unlines_append {ls' : List Bytes} : unlines (ls ++ ls') = unlines ls ++ unlines ls' := by
  simp [unlines]

theorem unlines_cons {l : Bytes} : unlines (l :: ls) = l ++ ln ++ unlines ls := by
  simp [unlines]

theorem splitOnP_unlines (h : ∀ l ∈ ls, asc '\n' ∉ l) :
    (unlines ls).splitOnP (· = asc '\n') = ls ++ [[]] := by
  induction ls with
  | nil => rfl
  | cons l ls ih =>
    have hl : l.splitOnP (· = asc '\n') = [l] := by
      refine splitOnP_eq_singleton fun c hc => ?_
      simp only [decide_eq_false_iff_not]
      rintro rfl
      exact h l mem_cons_self hc
    have hcons : unlines (l :: ls) = l ++ asc '\n' :: unlines ls := by simp [unlines, ln]
    rw [hcons, splitOnP_append_cons _ _ (by simp), hl, ih fun l' hl' => h l' (mem_cons_of_mem _ hl')]
    rfl

theorem unlines_of_separators (l : Bytes) (ls : List Bytes) :
    l ++ ls.flatMap (asc '\n' :: ·) ++ ln = unlines (l :: ls) := by
  induction ls generalizing l with
  | nil => simp [unlines]
  | cons l' ls ih =>
    rw [show unlines (l :: l' :: ls) = l ++ asc '\n' :: unlines (l' :: ls) by simp [unlines, ln], ← ih l']
    simp

/-- the pieces one after the other, unless one of them is missing -/
def joinPieces : List (Option Bytes) → Option Bytes
  | [] => some []
  | p :: ps => p.bind fun a => (joinPieces ps).map (a ++ ·)

theorem joinPieces_append (ps qs : List (Option Bytes)) :
    joinPieces (ps ++ qs) = (joinPieces ps).bind fun a => (joinPieces qs).map (a ++ ·) := by
  induction ps with
  | nil => simp [joinPieces]
  | cons p ps ih =>
    rw [cons_append, joinPieces, joinPieces, ih]
    cases p with
    | none => rfl
    | some a =>
      cases joinPieces ps with
      | none => rfl
      | some b => cases joinPieces qs <;> simp

theorem joinPieces_map_some (qs : List Bytes) : joinPieces (qs.map some) = some qs.flatten := by
  induction qs with
  | nil => rfl
  | cons q qs ih => simp [joinPieces, ih]

theorem pushPieces_none : pushPieces size none pieces = none := by
  induction pieces with
  | nil => rfl
  | cons p pieces ih => exact ih

variable {t u : Bytes} {ds : List (Dependency Bytes)} {c : Char} {tags : List Bytes}

theorem pushPieces_some (h : pushPieces size (some b) pieces = some t) :
    ∃ u, joinPieces pieces = some u ∧ t = b ++ u := by
  induction pieces generalizing b with
  | nil => exact ⟨[], rfl, by simpa [pushPieces] using h.symm⟩
  | cons p pieces ih =>
    have hstep : pushPieces size (pushPiece size (some b) p) pieces = some t := h
    cases p with
    | none =>
      rw [show pushPiece size (some b) none = none from rfl, pushPieces_none] at hstep
      simp at hstep
    | some q =>
      unfold pushPiece at hstep
      simp only [bind_some] at hstep
      split_ifs at hstep
      · obtain ⟨u, hu, rfl⟩ := ih hstep
        exact ⟨q ++ u, by simp [joinPieces, hu], by simp⟩
      · rw [pushPieces_none] at hstep
        simp at hstep

def line (c : Char) (value : Bytes) : Bytes := asc c :: asc ':' :: value

def fieldLine (c : Char) (value : Bytes) : List Bytes := if value = [] then [] else [line c value]

def numberLine (c : Char) (value : ℕ) : List Bytes :=
  if value = 0 then [] else [line c (uintText value 10)]

theorem join_fieldPieces {value : Bytes} :
    joinPieces (fieldPieces c value) = some ((fieldLine c value).flatMap (asc '\n' :: ·)) := by
  unfold fieldPieces fieldLine
  split_ifs
  · rfl
  · simp [joinPieces, line]

theorem join_numberPieces {value : ℕ} :
    joinPieces (numberPieces c value) = some ((numberLine c value).flatMap (asc '\n' :: ·)) := by
  unfold numberPieces numberLine
  split_ifs
  · rfl
  · simp [joinPieces, line]

def digestOf (hash : Bytes) : Bytes := (digestText hash).getD []

theorem digestText_of_length (h : hash.length = 20) : digestText hash = some (digestOf hash) := by
  simp [digestOf, digestText, h]

theorem digestText_of_ne (h : hash.length ≠ 20) : digestText hash = none := by
  simp [digestText, h]

def headerLines (p : FdbPackage) : List Bytes :=
  line 'C' (digestOf p.hash) ::
  ([line 'P' (cstr p.name), line 'V' p.version] ++ fieldLine 'A' p.info.arch ++
  [line 'S' (uintText p.info.size 10), line 'I' (uintText p.info.installedSize 10),
    line 'T' p.info.description, line 'U' p.info.url, line 'L' p.info.license] ++
  fieldLine 'o' p.info.origin ++ fieldLine 'm' p.info.maintainer ++
  numberLine 't' p.info.buildTime ++ fieldLine 'c' p.info.commit ++
  numberLine 'k' p.info.providerPriority)

theorem header_lines (h : pushPieces 2048 (some []) (headerPieces p) = some t) :
    p.hash.length = 20 ∧ t = unlines (headerLines p) := by
  obtain ⟨u, hu, rfl⟩ := pushPieces_some h
  by_cases hlen : p.hash.length = 20
  · refine ⟨hlen, ?_⟩
    simp only [headerPieces, joinPieces_append, join_fieldPieces, join_numberPieces, joinPieces,
      digestText_of_length hlen, bind_some, map_some, some.injEq] at hu
    rw [← hu, headerLines, ← unlines_of_separators]
    simp [line]
  · simp [headerPieces, joinPieces, digestText_of_ne hlen] at hu

def depsLine (c : Char) (ds : List (Dependency Bytes)) : List Bytes :=
  if ds = [] then [] else [line c (depsText ds)]

theorem depsWrite_eq (hp : ∀ d ∈ ds, PlainDep d) {os : Bytes} (h : depsWrite ds os = some t) :
    t = os ++ (if os = [] ∨ ds = [] then [] else [asc ' ']) ++ depsText ds := by
  induction ds generalizing os with
  | nil =>
    cases h
    simp [depsText]
  | cons d ds ih =>
    have hd := hp d mem_cons_self
    rw [depsWrite, bind_eq_some_iff] at h
    obtain ⟨b, hb, h⟩ := h
    have hb' : b = (if os = [] then [] else [asc ' ']) ++ depText d := by
      obtain ⟨u, hu, rfl⟩ := pushPieces_some hb
      rw [joinPieces_append, joinPieces_map_some] at hu
      split_ifs at hu ⊢ <;> simpa [joinPieces, depText] using hu.symm
    have hne : os ++ b ≠ [] := by
      rw [hb']
      simp [depText_ne_nil hd]
    rw [ih (fun d' hd' => hp d' (mem_cons_of_mem _ hd')) h]
    by_cases hds : ds = []
    · subst hds
      rw [hb']
      by_cases hos : os = [] <;> simp [depsText]
    · rw [depsText_cons hds, if_neg (by simp [hne, hds]), hb']
      by_cases hos : os = [] <;> simp

theorem writeDepends_lines (hp : ∀ d ∈ ds, PlainDep d) (h : writeDepends c ds = some t) :
    t = unlines (depsLine c ds) := by
  unfold writeDepends at h
  unfold depsLine
  split_ifs at h ⊢ with hds
  · cases h
    rfl
  · obtain ⟨b, hb, rfl⟩ := map_eq_some_iff.1 h
    rw [depsWrite_eq hp hb]
    simp [unlines, line]

def tagsLine (tags : List Bytes) : List Bytes :=
  if tags = [] then [] else [line 'g' ([asc ' '].intercalate tags)]

theorem tagsText_lines : tagsText tags = unlines (tagsLine tags) := by
  unfold tagsText tagsLine
  split_ifs <;> simp [unlines, line]

def aclText (acl : Acl) : Bytes :=
  uintText acl.uid 10 ++ asc ':' :: (uintText acl.gid 10 ++ asc ':' :: (uintText acl.mode 8 ++
    if acl.xattrHash ≠ [] then asc ':' :: digestOf acl.xattrHash else []))

/-- only digests of 20 bytes have a text -/
def AclWritten (acl : Acl) : Prop := acl.xattrHash = [] ∨ acl.xattrHash.length = 20

theorem join_aclPieces (h : joinPieces (aclPieces c acl) = some u) :
    AclWritten acl ∧ u = line c (aclText acl) ++ ln := by
  unfold aclPieces at h
  by_cases hx : acl.xattrHash = []
  · refine ⟨Or.inl hx, ?_⟩
    simp [hx, joinPieces] at h
    simp [← h, line, aclText, hx]
  by_cases hlen : acl.xattrHash.length = 20
  · refine ⟨Or.inr hlen, ?_⟩
    simp [hx, joinPieces, digestText_of_length hlen] at h
    simp [← h, line, aclText, hx]
  · simp [hx, joinPieces, digestText_of_ne hlen] at h

def aclLine (c : Char) (acl default : Acl) : List Bytes :=
  if acl ≠ default then [line c (aclText acl)] else []

theorem join_aclLine {default : Acl} (hdefault : default.xattrHash = [])
    (h : joinPieces (if acl ≠ default then aclPieces c acl else []) = some u) :
    AclWritten acl ∧ u = unlines (aclLine c acl default) := by
  unfold aclLine
  by_cases hacl : acl = default
  · simp only [hacl, ne_eq, not_true_eq_false, if_false, joinPieces, some.injEq] at h ⊢
    exact ⟨Or.inl hdefault, h.symm⟩
  · rw [if_pos hacl] at h ⊢
    obtain ⟨hw, rfl⟩ := join_aclPieces h
    exact ⟨hw, by simp [unlines]⟩

variable (d : FdbDir) (f : FdbFile)

def dirLines : List Bytes :=
  line 'F' (d.name.take (d.name.length % 2 ^ 16)) :: aclLine 'M' d.acl apkDefaultAclDir

theorem join_dirPieces {d : FdbDir} (h : joinPieces (dirPieces d) = some u) :
    AclWritten d.acl ∧ u = unlines (dirLines d) := by
  rw [dirPieces, joinPieces_append, bind_eq_some_iff] at h
  obtain ⟨a, ha, h⟩ := h
  obtain ⟨b, hb, rfl⟩ := map_eq_some_iff.1 h
  obtain ⟨hw, rfl⟩ := join_aclLine rfl hb
  refine ⟨hw, ?_⟩
  simp only [joinPieces, bind_some, map_some, some.injEq] at ha
  rw [← ha, dirLines, unlines_cons]
  simp [line]

def digestLine : List Bytes :=
  if f.digestAlg ≠ apkDigestNone then [line 'Z' (digestOf f.digest)] else []

def fileLines : List Bytes :=
  line 'R' (f.name.take (f.name.length % 2 ^ 8)) :: (aclLine 'a' f.acl apkDefaultAclFile ++ digestLine f)

/-- the digest of a file that is written has 20 bytes -/
def FileWritten : Prop :=
  AclWritten f.acl ∧ (f.digestAlg ≠ apkDigestNone → f.digest.length = 20)

theorem join_filePieces {f : FdbFile} (h : joinPieces (filePieces f) = some u) :
    FileWritten f ∧ u = unlines (fileLines f) := by
  rw [filePieces, joinPieces_append, joinPieces_append] at h
  obtain ⟨ab, hab, h⟩ := bind_eq_some_iff.1 h
  obtain ⟨a, ha, hab⟩ := bind_eq_some_iff.1 hab
  obtain ⟨b, hb, rfl⟩ := map_eq_some_iff.1 hab
  obtain ⟨z, hz, rfl⟩ := map_eq_some_iff.1 h
  obtain ⟨hw, rfl⟩ := join_aclLine rfl hb
  simp only [joinPieces, bind_some, map_some, some.injEq] at ha
  have hdigest : (f.digestAlg ≠ apkDigestNone → f.digest.length = 20) ∧ z = unlines (digestLine f) := by
    unfold digestLine
    by_cases halg : f.digestAlg = apkDigestNone
    · simp only [halg, ne_eq, not_true_eq_false, if_false, joinPieces, some.injEq] at hz ⊢
      exact ⟨fun h => h.elim, hz.symm⟩
    rw [if_pos halg] at hz ⊢
    by_cases hlen : f.digest.length = 20
    · simp only [joinPieces, digestText_of_length hlen, bind_some, map_some, some.injEq] at hz
      exact ⟨fun _ => hlen, by simp [← hz, unlines, line]⟩
    · simp [joinPieces, digestText_of_ne hlen] at hz
  refine ⟨⟨hw, hdigest.1⟩, ?_⟩
  rw [hdigest.2, ← ha, fileLines, unlines_cons, unlines_append]
  simp [line]

def flagsText (i : IpkgInfo) : Bytes :=
  (if i.brokenFiles then [asc 'f'] else []) ++ (if i.brokenScript then [asc 's'] else []) ++
    (if i.brokenXattr then [asc 'x'] else []) ++ if i.sha256_160 then [asc 'S'] else []

/-- the lines of the package that go out with its first directory -/
def ipkgLines (tags : List Bytes) (i : IpkgInfo) : List Bytes :=
  depsLine 'r' i.replaces ++ numberLine 'q' i.replacesPriority ++
    (if i.repositoryTag ≠ 0 then [line 's' ((tags.getD i.repositoryTag []).drop 1)] else []) ++
    fieldLine 'f' (flagsText i)

theorem depsPieces_flatten (hp : ∀ d ∈ ds, PlainDep d) : (depsPieces tags ds).flatten = depsText ds := by
  induction ds with
  | nil => rfl
  | cons d ds ih =>
    have hd := hp d mem_cons_self
    have hrest : ∀ d' ∈ ds, PlainDep d' := fun d' hd' => hp d' (mem_cons_of_mem _ hd')
    rw [depsPieces, hd.depPieces_some]
    cases ds with
    | nil => simp [depsText_singleton, depText]
    | cons d' ds =>
      rw [depsText_cons (by simp), ← ih hrest, depsPieces]
      simp [depText]

theorem join_ipkgPieces {i : IpkgInfo} (hp : ∀ d ∈ i.replaces, PlainDep d) :
    joinPieces (ipkgPieces tags i) = some (unlines (ipkgLines tags i)) := by
  have hr : joinPieces (if i.replaces ≠ [] then
      some [asc 'r', asc ':'] :: (depsPieces tags i.replaces).map some ++ [some ln] else []) =
      some (unlines (depsLine 'r' i.replaces)) := by
    unfold depsLine
    by_cases h : i.replaces = []
    · simp [h, joinPieces, unlines]
    · rw [if_pos h, if_neg h, joinPieces_append]
      simp [joinPieces, joinPieces_map_some, depsPieces_flatten hp, unlines, line]
  have hq : joinPieces (if i.replacesPriority ≠ 0 then
      [some [asc 'q', asc ':'], some (uintText i.replacesPriority 10), some ln] else []) =
      some (unlines (numberLine 'q' i.replacesPriority)) := by
    unfold numberLine
    by_cases h : i.replacesPriority = 0 <;> simp [h, joinPieces, unlines, line]
  have hs : joinPieces (if i.repositoryTag ≠ 0 then
      [some [asc 's', asc ':'], some ((tags.getD i.repositoryTag []).drop 1), some ln] else []) =
      some (unlines (if i.repositoryTag ≠ 0 then
        [line 's' ((tags.getD i.repositoryTag []).drop 1)] else [])) := by
    by_cases h : i.repositoryTag = 0 <;> simp [h, joinPieces, unlines, line]
  have hf : joinPieces (if i.brokenFiles ∨ i.brokenScript ∨ i.brokenXattr ∨ i.sha256_160 then
      [some [asc 'f', asc ':']] ++ (if i.brokenFiles then [some [asc 'f']] else []) ++
        (if i.brokenScript then [some [asc 's']] else []) ++
        (if i.brokenXattr then [some [asc 'x']] else []) ++
        (if i.sha256_160 then [some [asc 'S']] else []) ++ [some ln] else []) =
      some (unlines (fieldLine 'f' (flagsText i))) := by
    unfold fieldLine flagsText
    cases i.brokenFiles <;> cases i.brokenScript <;> cases i.brokenXattr <;> cases i.sha256_160 <;>
      simp [joinPieces, unlines, line]
  rw [ipkgPieces, joinPieces_append, joinPieces_append, joinPieces_append, hr, hq, hs, hf]
  simp [ipkgLines, unlines_append]

def keptFiles : List FdbFile := d.files.filter (!·.audited)

theorem writeFiles_lines {files : List FdbFile} (h : writeFiles files = some t) :
    (∀ f ∈ files.filter (!·.audited), FileWritten f) ∧
      t = unlines ((files.filter (!·.audited)).flatMap fileLines) := by
  induction files generalizing t with
  | nil =>
    cases h
    simp [unlines]
  | cons f files ih =>
    rw [writeFiles] at h
    by_cases ha : f.audited = true
    · rw [if_pos ha] at h
      simpa [ha] using ih h
    rw [if_neg ha] at h
    obtain ⟨b, hb, h⟩ := bind_eq_some_iff.1 h
    obtain ⟨t', ht', rfl⟩ := map_eq_some_iff.1 h
    obtain ⟨u, hu, rfl⟩ := pushPieces_some hb
    obtain ⟨hw, rfl⟩ := join_filePieces hu
    obtain ⟨hws, rfl⟩ := ih ht'
    rw [filter_cons_of_pos (by simpa using ha)]
    refine ⟨?_, by simp [unlines_append]⟩
    simpa using ⟨hw, by simpa using hws⟩

def diriLines : List Bytes := dirLines d ++ (keptFiles d).flatMap fileLines

def DirWritten : Prop := AclWritten d.acl ∧ ∀ f ∈ keptFiles d, FileWritten f

theorem writeDiris_lines {diris : List FdbDir} (h : writeDiris (some b) diris = some t) :
    (∀ d ∈ diris, DirWritten d) ∧
      t = (if diris = [] then [] else b) ++ unlines (diris.flatMap diriLines) := by
  induction diris generalizing b t with
  | nil =>
    cases h
    simp [unlines]
  | cons d diris ih =>
    obtain ⟨b', hb', h⟩ := bind_eq_some_iff.1 h
    obtain ⟨t1, ht1, h⟩ := bind_eq_some_iff.1 h
    obtain ⟨t2, ht2, rfl⟩ := map_eq_some_iff.1 h
    obtain ⟨u, hu, rfl⟩ := pushPieces_some hb'
    obtain ⟨hw, rfl⟩ := join_dirPieces hu
    obtain ⟨hfiles, rfl⟩ := writeFiles_lines ht1
    obtain ⟨hws, rfl⟩ := ih ht2
    refine ⟨?_, by simp [unlines_append, diriLines, keptFiles]⟩
    intro d' hd'
    rcases mem_cons.1 hd' with rfl | hd'
    · exact ⟨hw, hfiles⟩
    · exact hws d' hd'

def fdbLines (tags : List Bytes) (p : FdbPackage) : List Bytes :=
  headerLines p ++ depsLine 'D' p.info.depends ++ depsLine 'p' p.info.provides ++
    depsLine 'i' p.info.installIf ++ tagsLine p.info.tags ++ ipkgLines tags p.ipkg ++
    p.diris.flatMap diriLines ++ [[]]

/-- the dependencies of a package can be told from their text -/
def PlainDeps (p : FdbPackage) : Prop :=
  (∀ d ∈ p.info.depends, PlainDep d) ∧ (∀ d ∈ p.info.provides, PlainDep d) ∧
    (∀ d ∈ p.info.installIf, PlainDep d) ∧ ∀ d ∈ p.ipkg.replaces, PlainDep d

/-- what is written are the lines, if there is a directory to bring out those of the package or
there are none to bring out -/
theorem apkDbFdbWrite_lines {text : Bytes} (hp : PlainDeps p)
    (hdiris : p.diris ≠ [] ∨ p.ipkg = emptyIpkg) (h : apkDbFdbWrite tags p = some text) :
    (p.hash.length = 20 ∧ ∀ d ∈ p.diris, DirWritten d) ∧ text = unlines (fdbLines tags p) := by
  obtain ⟨hdep, hprov, hif, hrep⟩ := hp
  obtain ⟨hd, hhd, h⟩ := bind_eq_some_iff.1 h
  obtain ⟨t, ht, rfl⟩ := map_eq_some_iff.1 h
  obtain ⟨h0, hh0, hhd⟩ := bind_eq_some_iff.1 hhd
  obtain ⟨d1, hd1, hhd⟩ := bind_eq_some_iff.1 hhd
  obtain ⟨d2, hd2, hhd⟩ := bind_eq_some_iff.1 hhd
  obtain ⟨d3, hd3, rfl⟩ := map_eq_some_iff.1 hhd
  obtain ⟨hlen, rfl⟩ := header_lines hh0
  rw [writeDepends_lines hdep hd1, writeDepends_lines hprov hd2, writeDepends_lines hif hd3,
    tagsText_lines]
  have hbody : (∀ d ∈ p.diris, DirWritten d) ∧
      t = unlines (ipkgLines tags p.ipkg ++ p.diris.flatMap diriLines) := by
    cases hbuf : pushPieces fdbBufSize (some []) (ipkgPieces tags p.ipkg) with
    | none =>
      rw [hbuf] at ht
      rcases hdiris with hdiris | hempty
      · obtain ⟨d, ds, hds⟩ := exists_cons_of_ne_nil hdiris
        rw [hds, writeDiris, pushPieces_none] at ht
        simp at ht
      · rw [hempty] at hbuf
        exact absurd hbuf (by simp [ipkgPieces, emptyIpkg, pushPieces])
    | some b =>
      rw [hbuf] at ht
      obtain ⟨u, hu, rfl⟩ := pushPieces_some hbuf
      rw [join_ipkgPieces hrep, some.injEq] at hu
      obtain ⟨hw, rfl⟩ := writeDiris_lines ht
      refine ⟨hw, ?_⟩
      rw [unlines_append, ← hu]
      split_ifs with hnone
      · rcases hdiris with hdiris | hempty
        · exact absurd hnone hdiris
        · rw [hempty]
          rfl
      · rfl
  obtain ⟨hw, rfl⟩ := hbody
  refine ⟨⟨hlen, hw⟩, ?_⟩
  simp [fdbLines, unlines]

end Alpine

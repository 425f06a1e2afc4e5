import Alpine.Sanity.FdbReads

/-! A package that is written to the installed database is read back as it was, if its texts have
no end of a line, its dependencies can be told from their text, and there is a directory to bring
out the lines of the package. Without one those lines stay in the buffer and are lost. -/

namespace Alpine

open List

theorem lookup_of_nodup {α β : Type} [BEq α] [LawfulBEq α] {l : List (α × β)}
    (hnodup : (l.map Prod.fst).Nodup) {k : α} {v : β} (h : (k, v) ∈ l) : l.lookup k = some v := by
  induction l with
  | nil => simp at h
  | cons e l ih =>
    obtain ⟨k', v'⟩ := e
    obtain ⟨hnot, hnodup⟩ := nodup_cons.1 hnodup
    rcases mem_cons.1 h with heq | hmem
    · cases heq
      simp
    have hne : k ≠ k' := by
      rintro rfl
      exact hnot (mem_map.2 ⟨_, hmem, rfl⟩)
    rw [lookup_cons, beq_false_of_ne hne]
    exact ih hnodup hmem

variable {force sha256_160 : Bool} {dirs : List FdbDir} {v : Bytes} {i : IpkgInfo}

theorem DirisOk.keys_nodup (h : DirisOk sha256_160 dirs) :
    ((dirs.flatMap fileRecords).map Prod.fst).Nodup := by
  induction dirs with
  | nil => simp
  | cons d dirs ih =>
    obtain ⟨hrest, hother⟩ := h.tail
    rw [flatMap_cons, map_append, nodup_append]
    refine ⟨?_, ih hrest, ?_⟩
    · have hmap : (fileRecords d).map Prod.fst = ((keptFiles d).map (·.name)).map (d.name, ·) := by
        simp [fileRecords]
      rw [hmap]
      exact (h.file_nodup d mem_cons_self).map fun a b hab => (Prod.mk.inj hab).2
    intro a ha b hb hab
    obtain ⟨e, he, rfl⟩ := mem_map.1 ha
    obtain ⟨f, -, rfl⟩ := mem_map.1 he
    obtain ⟨e', he', rfl⟩ := mem_map.1 hb
    obtain ⟨d', hd', he'⟩ := mem_flatMap.1 he'
    obtain ⟨f', -, rfl⟩ := mem_map.1 he'
    exact hother d' hd' (Prod.mk.inj hab).1

def normalDir (d : FdbDir) : FdbDir :=
  ⟨d.name, d.acl, (keptFiles d).map fun f => ⟨normalDbFile f, f.name, false⟩⟩

theorem DirisOk.lookup (h : DirisOk sha256_160 dirs) {d : FdbDir} (hd : d ∈ dirs) :
    ((dirRecord d).files.filterMap fun n => ((dirs.flatMap fileRecords).lookup (d.name, n)).map
      fun f => (⟨f, n, false⟩ : FdbFile)) = (normalDir d).files := by
  have hlookup : ∀ f ∈ keptFiles d,
      (dirs.flatMap fileRecords).lookup (d.name, f.name) = some (normalDbFile f) := fun f hf =>
    lookup_of_nodup h.keys_nodup (mem_flatMap.2 ⟨d, hd, mem_map.2 ⟨f, hf, rfl⟩⟩)
  unfold dirRecord normalDir
  rw [filterMap_map, filterMap_eq_map_iff_forall_eq_some]
  intro f hf
  rw [Function.comp_apply, hlookup f hf]
  rfl

def AllLines (q : Bytes → Prop) (ls : List Bytes) : Prop := ∀ l ∈ ls, q l

section
variable {q : Bytes → Prop}

theorem AllLines.append {ls ls' : List Bytes} (h : AllLines q ls) (h' : AllLines q ls') :
    AllLines q (ls ++ ls') := forall_mem_append.2 ⟨h, h'⟩

theorem AllLines.flatMap {α : Type} {l : List α} {f : α → List Bytes}
    (h : ∀ a ∈ l, AllLines q (f a)) : AllLines q (l.flatMap f) := by
  intro b hb
  obtain ⟨a, ha, hb⟩ := mem_flatMap.1 hb
  exact h a ha b hb

theorem allLines_nil : AllLines q [] := by simp [AllLines]

variable {l : Bytes} {b : Prop}

theorem allLines_single (h : q l) : AllLines q [l] := by simpa [AllLines] using h

theorem allLines_ite [Decidable b] (h : b → q l) : AllLines q (if b then [l] else []) := by
  split_ifs with hb
  · exact allLines_single (h hb)
  · exact allLines_nil

theorem allLines_unless [Decidable b] (h : q l) : AllLines q (if b then [] else [l]) := by
  split_ifs with hb
  · exact allLines_nil
  · exact allLines_single h

theorem allLines_ipkg {tags : List Bytes} (hr : q (line 'r' (depsText i.replaces)))
    (hq : q (line 'q' (uintText i.replacesPriority 10)))
    (hs : i.repositoryTag ≠ 0 → q (line 's' ((tags.getD i.repositoryTag []).drop 1)))
    (hf : q (line 'f' (flagsText i))) : AllLines q (ipkgLines tags i) :=
  (((allLines_unless hr).append (allLines_unless hq)).append (allLines_ite hs)).append
    (allLines_unless hf)

theorem allLines_diri {d : FdbDir} (hF : q (line 'F' (d.name.take (d.name.length % 2 ^ 16))))
    (hM : q (line 'M' (aclText d.acl)))
    (hR : ∀ f ∈ keptFiles d, q (line 'R' (f.name.take (f.name.length % 2 ^ 8))))
    (ha : ∀ f ∈ keptFiles d, q (line 'a' (aclText f.acl)))
    (hZ : ∀ f ∈ keptFiles d, f.digestAlg ≠ apkDigestNone → q (line 'Z' (digestOf f.digest))) :
    AllLines q (diriLines d) := by
  have hdir : AllLines q (dirLines d) := (allLines_single hF).append (allLines_ite fun _ => hM)
  refine hdir.append (AllLines.flatMap fun f hf => ?_)
  exact (allLines_single (hR f hf)).append
    ((allLines_ite fun _ => ha f hf).append (allLines_ite (hZ f hf)))

end

variable {c : Char} {p : FdbPackage} {tags : List Bytes}

theorem entryLine_line (hc : c ∈ entryLetters) : EntryLine (line c v) :=
  Or.inr ⟨c, hc, v, rfl⟩

theorem entryLine_body : AllLines EntryLine
    (tagsLine p.info.tags ++ ipkgLines tags p.ipkg ++ p.diris.flatMap diriLines ++ [[]]) := by
  have hdiris : AllLines EntryLine (p.diris.flatMap diriLines) := AllLines.flatMap fun d _ =>
    allLines_diri (entryLine_line (by decide)) (entryLine_line (by decide))
      (fun f _ => entryLine_line (by decide)) (fun f _ => entryLine_line (by decide))
      fun f _ _ => entryLine_line (by decide)
  have hipkg : AllLines EntryLine (ipkgLines tags p.ipkg) :=
    allLines_ipkg (entryLine_line (by decide)) (entryLine_line (by decide))
      (fun _ => entryLine_line (by decide)) (entryLine_line (by decide))
  exact (((allLines_unless (entryLine_line (by decide))).append hipkg).append hdiris).append
    (allLines_single (Or.inl rfl))

def OneLine (l : Bytes) : Prop := asc '\n' ∉ l

theorem oneLine_line (hc : asc '\n' ≠ asc c) (hv : asc '\n' ∉ v) : OneLine (line c v) := by
  have hcolon : asc '\n' ≠ asc ':' := by decide
  simpa [OneLine, line, hc, hcolon] using hv

theorem oneLine_number (hc : asc '\n' ≠ asc c) {v : ℕ} :
    OneLine (line c (uintText v 10)) := oneLine_line hc (uintText_no_newline (Or.inr rfl))

theorem oneLine_digest (hc : asc '\n' ≠ asc c) {hash : Bytes} (h : hash.length = 20) :
    OneLine (line c (digestOf hash)) :=
  oneLine_line hc (digestText_no_newline (digestText_of_length h))

theorem intercalate_no_newline {ws : List Bytes} (h : ∀ w ∈ ws, asc '\n' ∉ w) :
    asc '\n' ∉ [asc ' '].intercalate ws := by
  induction ws with
  | nil => simp
  | cons w ws ih =>
    have hw := h w mem_cons_self
    cases ws with
    | nil => simpa using hw
    | cons w' ws =>
      have hblank : asc '\n' ≠ asc ' ' := by decide
      rw [intercalate_cons_cons]
      simp only [mem_append, mem_singleton, not_or]
      exact ⟨⟨hw, hblank⟩, ih fun v hv => h v (mem_cons_of_mem _ hv)⟩

theorem oneLine_deps (hc : asc '\n' ≠ asc c) {ds : List (Dependency Bytes)}
    (h : ∀ d ∈ ds, PlainDep d) : OneLine (line c (depsText ds)) := by
  refine oneLine_line hc (intercalate_no_newline fun w hw hmem => ?_)
  obtain ⟨d, hd, rfl⟩ := mem_map.1 hw
  exact absurd ((h d hd).no_separator _ hmem) (by decide)

theorem oneLine_acl (hc : asc '\n' ≠ asc c) {acl : Acl} (h : AclWritten acl) :
    OneLine (line c (aclText acl)) := by
  refine oneLine_line hc ?_
  have hcolon : asc '\n' ≠ asc ':' := by decide
  have hhash : asc '\n' ∉ (if acl.xattrHash ≠ [] then asc ':' :: digestOf acl.xattrHash else []) := by
    split_ifs with hx
    · have := digestText_no_newline (digestText_of_length (h.resolve_left hx))
      simpa [hcolon] using this
    · simp
  simp only [aclText, mem_append, mem_cons, not_or]
  exact ⟨uintText_no_newline (Or.inr rfl), hcolon, uintText_no_newline (Or.inr rfl), hcolon,
    uintText_no_newline (Or.inl rfl), hhash⟩

/-- what is written can be told from the text -/
structure Readable (tags : List Bytes) (p : FdbPackage) : Prop where
  header : HeaderOk p
  texts : ∀ s ∈ [p.name, p.version, p.info.arch, p.info.description, p.info.url, p.info.license,
    p.info.origin, p.info.maintainer, p.info.commit], asc '\n' ∉ s
  deps : PlainDeps p
  installIf : ∀ d ∈ p.info.installIf, (normalDep d).broken = false
  pkgTags : ∀ w ∈ p.info.tags, Word w
  replacesPriority : p.ipkg.replacesPriority < 2 ^ 16
  table : TagTable tags
  repositoryTag : p.ipkg.repositoryTag ≠ 0 → p.ipkg.repositoryTag < tags.length
  diris : DirisOk p.ipkg.sha256_160 p.diris
  lines : fittingLines 0 (fdbLines tags p) = fdbLines tags p

theorem fittingLines_blank (offs : ℕ) : fittingLines offs [[]] = [[]] := by
  have hmod : offs % 8 < apkIoBufsize := lt_of_lt_of_le (Nat.mod_lt _ (by decide)) (show 8 ≤ apkIoBufsize by decide)
  rw [fittingLines, length_nil, Nat.add_zero, if_pos hmod, fittingLines]

theorem fittingLines_append (ls ls' : List Bytes) (offs : ℕ) : fittingLines offs (ls ++ ls') = ls ++ ls' ↔
    fittingLines offs ls = ls ∧ fittingLines (offs + (unlines ls).length) ls' = ls' := by
  induction ls generalizing offs with
  | nil => simp [fittingLines, unlines]
  | cons l ls ih =>
    have hoffs : offs + (unlines (l :: ls)).length = offs + l.length + 1 + (unlines ls).length := by
      simp [unlines, ln]
      omega
    rw [cons_append, fittingLines, fittingLines, hoffs]
    split_ifs <;> simp [ih]

theorem oneLine_header (hlen : p.hash.length = 20)
    (h : ∀ s ∈ [p.name, p.version, p.info.arch, p.info.description, p.info.url, p.info.license,
      p.info.origin, p.info.maintainer, p.info.commit], asc '\n' ∉ s) :
    AllLines OneLine (headerLines p) := by
  simp only [forall_mem_cons] at h
  obtain ⟨hname, hversion, harch, hdesc, hurl, hlicense, horigin, hmaint, hcommit, -⟩ := h
  have hP : asc '\n' ∉ cstr p.name := fun hmem => hname ((takeWhile_sublist _).mem hmem)
  have hstart : AllLines OneLine [line 'P' (cstr p.name), line 'V' p.version] :=
    (allLines_single (oneLine_line (by decide) hP)).append
      (allLines_single (oneLine_line (by decide) hversion))
  have hnumbers : AllLines OneLine [line 'S' (uintText p.info.size 10),
      line 'I' (uintText p.info.installedSize 10)] :=
    (allLines_single (oneLine_number (by decide))).append (allLines_single (oneLine_number (by decide)))
  have htexts : AllLines OneLine [line 'T' p.info.description, line 'U' p.info.url,
      line 'L' p.info.license] :=
    (allLines_single (oneLine_line (by decide) hdesc)).append
      ((allLines_single (oneLine_line (by decide) hurl)).append
        (allLines_single (oneLine_line (by decide) hlicense)))
  have hfield : ∀ {c : Char} {v : Bytes}, asc '\n' ≠ asc c → asc '\n' ∉ v →
      AllLines OneLine (fieldLine c v) := fun hc hv => allLines_unless (oneLine_line hc hv)
  have hnumber : ∀ {c : Char} {v : ℕ}, asc '\n' ≠ asc c → AllLines OneLine (numberLine c v) :=
    fun hc => allLines_unless (oneLine_number hc)
  exact (allLines_single (oneLine_digest (by decide) hlen)).append
    (((((((hstart.append (hfield (by decide) harch)).append (hnumbers.append htexts)).append
      (hfield (by decide) horigin)).append (hfield (by decide) hmaint)).append
      (hnumber (by decide))).append (hfield (by decide) hcommit)).append (hnumber (by decide)))

theorem oneLine_fdb (h : Readable tags p) (hlen : p.hash.length = 20)
    (hw : ∀ d ∈ p.diris, DirWritten d) : AllLines OneLine (fdbLines tags p) := by
  obtain ⟨hdep, hprov, hif, hrep⟩ := h.deps
  have htags : AllLines OneLine (tagsLine p.info.tags) := allLines_unless
    (oneLine_line (by decide) (intercalate_no_newline fun w hw => (h.pkgTags w hw).2.2))
  have hflags : asc '\n' ∉ flagsText p.ipkg := by
    unfold flagsText
    cases p.ipkg.brokenFiles <;> cases p.ipkg.brokenScript <;> cases p.ipkg.brokenXattr <;>
      cases p.ipkg.sha256_160 <;> decide
  have hipkg : AllLines OneLine (ipkgLines tags p.ipkg) :=
    allLines_ipkg (oneLine_deps (by decide) hrep) (oneLine_number (by decide))
      (fun h0 => oneLine_line (by decide) (h.table.no_newline h0 (h.repositoryTag h0)))
      (oneLine_line (by decide) hflags)
  have hdiris : AllLines OneLine (p.diris.flatMap diriLines) := AllLines.flatMap fun d hd =>
    allLines_diri (oneLine_line (by decide) fun hmem => (h.diris.dir d hd).line (mem_of_mem_take hmem))
      (oneLine_acl (by decide) (hw d hd).1)
      (fun f hf => oneLine_line (by decide) fun hmem =>
        (h.diris.file d hd f hf).line (mem_of_mem_take hmem))
      (fun f hf => oneLine_acl (by decide) ((hw d hd).2 f hf).1)
      (fun f hf halg => oneLine_digest (by decide) (((hw d hd).2 f hf).2 halg))
  have hdeps : ∀ {c : Char} {ds : List (Dependency Bytes)}, asc '\n' ≠ asc c →
      (∀ d ∈ ds, PlainDep d) → AllLines OneLine (depsLine c ds) := fun hc hds =>
    allLines_unless (oneLine_deps hc hds)
  have hend : AllLines OneLine [[]] := by simp [AllLines, OneLine]
  exact (((((((oneLine_header hlen h.texts).append (hdeps (by decide) hdep)).append
    (hdeps (by decide) hprov)).append (hdeps (by decide) hif)).append htags).append hipkg).append
    hdiris).append hend

/-- the package without its audited files, and with the marks that reading a dependency gives it -/
def FdbPackage.normal (p : FdbPackage) : FdbPackage :=
  ⟨p.hash, p.name, p.version,
    { p.info with depends := p.info.depends.map normalDep
                  provides := p.info.provides.map normalDep
                  installIf := p.info.installIf.map normalDep },
    normalIpkg p.ipkg, p.diris.map normalDir⟩

def readState (tags : List Bytes) (force : Bool) (p : FdbPackage) (file : Option (Bytes × Bytes)) :
    FdbState :=
  ⟨emptyTmpl, none, none, file, p.diris.flatMap fileRecords,
    [⟨p.hash, p.name, p.version, (infoTmpl p p.info.tags).info, normalIpkg p.ipkg,
      p.diris.map dirRecord⟩], tags, force, fun _ _ => 0⟩

theorem readState_result (h : Readable tags p) {file : Option (Bytes × Bytes)} :
    (readState tags force p file).result = [p.normal] := by
  have hdirs : (p.diris.map dirRecord).map (fun d => (⟨d.name, d.acl, d.files.filterMap fun n =>
      ((p.diris.flatMap fileRecords).lookup (d.name, n)).map fun f => ⟨f, n, false⟩⟩ : FdbDir)) =
      p.diris.map normalDir := by
    rw [map_map]
    refine map_congr_left fun d hd => ?_
    exact congrArg (FdbDir.mk d.name d.acl) (h.diris.lookup hd)
  exact congrArg (fun ds => [(⟨p.hash, p.name, p.version, (infoTmpl p p.info.tags).info,
    normalIpkg p.ipkg, ds⟩ : FdbPackage)]) hdirs

section

variable (h : Readable tags p) (hlen : p.hash.length = 20) (hw : ∀ d ∈ p.diris, DirWritten d)
include h hlen hw

theorem reads_body :
    ∃ file, Reads (tagsLine p.info.tags ++ ipkgLines tags p.ipkg ++ p.diris.flatMap diriLines ++ [[]])
      (within tags force (infoTmpl p []) emptyIpkg [] none none []) (readState tags force p file) := by
  have hname : (infoTmpl p p.info.tags).name ≠ none := by simp [infoTmpl]
  obtain ⟨dir, file, hdiris⟩ : ∃ dir file, Reads (p.diris.flatMap diriLines)
      (within tags force (infoTmpl p p.info.tags) (normalIpkg p.ipkg) [] none none [])
      (within tags force (infoTmpl p p.info.tags) (normalIpkg p.ipkg) (p.diris.map dirRecord) dir
        file (p.diris.flatMap fileRecords)) :=
    reads_diris h.diris hw hname (by simp) (by simp)
  exact ⟨file, (((reads_tags h.pkgTags).append (reads_ipkg h.deps.2.2.2 h.replacesPriority h.table
    h.repositoryTag)).append hdiris).append (reads_end hlen)⟩

theorem apkDbFdbRead_lines :
    ∃ st, apkDbFdbRead (emptyFdb tags force) (unlines (fdbLines tags p)) = some st ∧
      st.result = [p.normal] := by
  have hinfo := readsInfo_info hlen h.header h.deps h.installIf (emptyFdb tags force) rfl rfl
  obtain ⟨file, hbody⟩ := reads_body h hlen hw
  have hname : (infoTmpl p []).name ≠ none := by simp [infoTmpl]
  have hopen : Reads _ { emptyFdb tags force with tmpl := infoTmpl p [] } _ :=
    reads_open (by simp) entryLine_body rfl hname hbody
  have hempty : Reads [[]] (readState tags force p file) (readState tags force p file) :=
    Reads.single rfl
  refine ⟨readState tags force p file, ?_, readState_result h⟩
  have hall := (hinfo.append hopen).append hempty
  have hfits : fittingLines 0 (fdbLines tags p ++ [[]]) = fdbLines tags p ++ [[]] := by
    exact (fittingLines_append _ _ 0).2 ⟨h.lines, fittingLines_blank _⟩
  unfold apkDbFdbRead
  rw [splitOnP_unlines (oneLine_fdb h hlen hw)]
  simp only [if_pos hfits]
  simpa [Reads, fdbLines] using hall

end

theorem apkDbFdbWrite_no_diris (h : p.diris = []) :
    apkDbFdbWrite tags { p with ipkg := i } = apkDbFdbWrite tags p := by
  simp [apkDbFdbWrite, apkPkgWriteIndexHeader, headerPieces, h, writeDiris]

theorem Readable.without_ipkg (h : Readable tags p) (hnone : p.diris = []) :
    Readable tags { p with ipkg := emptyIpkg } where
  header := ⟨h.header.name, h.header.size, h.header.installedSize, h.header.buildTime,
    h.header.providerPriority⟩
  texts := h.texts
  deps := ⟨h.deps.1, h.deps.2.1, h.deps.2.2.1, by simp [emptyIpkg]⟩
  installIf := h.installIf
  pkgTags := h.pkgTags
  replacesPriority := by simp [emptyIpkg]
  table := h.table
  repositoryTag := fun h0 => absurd rfl h0
  diris := by
    rw [hnone]
    exact ⟨by simp, by simp, by simp, by simp⟩
  lines := by
    -- the lines before those of the package are the same
    have hempty : ipkgLines tags emptyIpkg = [] := rfl
    have hlines := h.lines
    simp only [fdbLines, hnone, flatMap_nil, append_nil] at hlines
    rw [fittingLines_append, fittingLines_append] at hlines
    simp only [fdbLines, hnone, hempty, flatMap_nil, append_nil]
    exact (fittingLines_append _ _ 0).2 ⟨hlines.1.1, fittingLines_blank _⟩

theorem normalIpkg_eq_empty (h : normalIpkg i = emptyIpkg) : i = emptyIpkg := by
  obtain ⟨replaces, priority, tag, f, s, x, sha⟩ := i
  simpa [normalIpkg, emptyIpkg] using h

def taggedPackage (diris : List FdbDir) : FdbPackage :=
  ⟨List.replicate 20 7, lit "tool", lit "1.0-r0",
    ⟨lit "x86_64", 10, 20, lit "a tool", [], lit "MIT", lit "tool", [], 5, [], 0, [], [], [],
      [lit "fast"]⟩,
    ⟨[⟨lit "old", none, apkDepmaskAny, false, 0, 0⟩], 3, 1, false, true, false, true⟩, diris⟩

def edgeTags : List Bytes := [[], lit "@edge"]

def binDir : FdbDir :=
  ⟨lit "usr/bin", ⟨0o700, 0, 0, []⟩,
    [⟨⟨apkDefaultAclFile, apkDigestSha256_160, List.replicate 20 9, false⟩, lit "tool", false⟩]⟩

theorem readable_tagged : Readable edgeTags (taggedPackage [binDir]) where
  header := ⟨by decide +kernel, by decide +kernel, by decide +kernel, by decide +kernel,
    by decide +kernel⟩
  texts := by decide +kernel
  deps := by
    refine ⟨by simp [taggedPackage], by simp [taggedPackage], by simp [taggedPackage], ?_⟩
    intro d hd
    obtain rfl := mem_singleton.1 hd
    exact ⟨by decide +kernel, by decide +kernel, by decide +kernel, rfl, Or.inl rfl⟩
  installIf := by simp [taggedPackage]
  pkgTags := by
    intro w hw
    obtain rfl := mem_singleton.1 hw
    exact ⟨by decide +kernel, by decide +kernel, by decide +kernel⟩
  replacesPriority := by decide +kernel
  table := by
    refine ⟨by decide +kernel, by decide +kernel, fun t ht => ?_⟩
    obtain rfl := mem_singleton.1 ht
    exact ⟨lit "edge", by decide +kernel, by decide +kernel, by decide +kernel⟩
  repositoryTag := by decide +kernel
  diris := by
    refine ⟨fun d hd => ?_, fun d hd f hf => ?_, by decide +kernel, by decide +kernel⟩
    · obtain rfl := mem_singleton.1 hd
      exact ⟨by decide +kernel, by decide +kernel, by decide +kernel,
        ⟨by decide +kernel, by decide +kernel, by decide +kernel⟩⟩
    obtain rfl := mem_singleton.1 hd
    obtain rfl : f = _ := mem_singleton.1 hf
    exact ⟨by decide +kernel, by decide +kernel,
      ⟨by decide +kernel, by decide +kernel, by decide +kernel⟩, Or.inr (by decide +kernel)⟩
  lines := by decide +kernel

end Alpine

import Alpine.Sanity.UnisoQueue
import Alpine.Proofs.UnisoEnds

/-! What `uniso` unpacks. The stream is read forward once, so a record is found only if its extent is
behind that of its directory, and its bytes are its own only if they have not gone by when its turn comes.
In a run in which all records are found in their places, every file gets the bytes of its extent; two files
may have the same extent. A file in front of its directory is left out, and `uniso` still succeeds. -/

namespace Alpine

open List IsoRecord Option UnisoFs

variable {sys : UnisoSys}

/-- an image with its tree: the paths are all different, and they fit their buffers -/
structure IsoImage (sys : UnisoSys) (root : IsoRecord) (tree : IsoForest) (level : ℕ) : Prop where
  volume : ∃ count, VolumeRoot sys.data root level count
  matched : (IsoForest.cons root tree .nil).Matches sys level
  start : root.start < 2 ^ 32
  path : ∀ r ∈ root :: tree.records, 0 ∉ r.path ∧ r.path ≠ [] ∧ r.path.length < 512
  paths : ((root :: tree.records).map IsoRecord.path).Nodup
  splices : SplicesAlike sys
  links : NoLinks sys.fs

/-- an extent of the image that is ahead, and not too far to be skipped to -/
def ExtentAhead (sys : UnisoSys) (c : UnisoCtx) (rd : UnisoReader) : Prop :=
  c.pos ≤ rd.offset ∧ rd.offset - c.pos < 2 ^ 31 ∧ rd.offset + rd.size ≤ sys.data.length

/-- a reader is in its place when its turn comes: its extent is ahead, and that of a directory in front of
those of its records. The extent of a file may also be that of the file before, if that can be linked or copied -/
def InPlace (sys : UnisoSys) (c : UnisoCtx) (rd : UnisoReader) : Prop :=
  match rd.handler with
  | .volumeDescriptor => True
  | .directory =>
    let dir := streamBytes sys rd.offset (rd.offset + rd.size)
    ExtentAhead sys c rd ∧ PlainDirectory sys c.jolietLevel dir ∧
      ∀ r ∈ isoEntries sys c.jolietLevel rd.name dir, rd.offset + rd.size ≤ r.start ∧ r.start < 2 ^ 32
  | .file => ExtentAhead sys c rd ∧ rd.size < 2 ^ 31 ∨
      rd.offset < c.pos ∧ c.prevName ≠ [] ∧ c.prevOffset = rd.offset ∧ c.prevSize = rd.size ∧
        (sys.links c.calls = true ∧ c.fs.inode rd.name = none ∨ WholeCalls sys)

/-- every reader of a run is in its place when its turn comes -/
def ForwardRun (sys : UnisoSys) : Prop :=
  ∀ c, Relation.ReflTransGen (UnisoStep sys) (unisoInit sys) c → ∀ rd queue, c.parserHead = rd :: queue →
    InPlace sys c rd

theorem bytes_eq_stream (r : IsoRecord) : r.bytes sys.data = streamBytes sys r.start r.stop := by
  rw [bytes, streamBytes, IsoRecord.stop, Nat.add_sub_cancel_left]

variable (extent : UInt8) {c : UnisoCtx} {rd : UnisoReader}

/-- a place that is ahead is reached -/
theorem ExtentAhead.reached (h : ExtentAhead sys c rd) (hs : SplicesAlike sys) (hnonneg : 0 ≤ (skipTo sys c rd).1) :
    (skipTo sys c rd).2.pos = rd.offset :=
  skipTo_reaches hs h.2.1 h.1 ((Nat.le_add_right _ _).trans h.2.2) hnonneg

theorem openFile_opens (hres : 0 ≤ (openFile sys c rd).1) :
    ∃ calls, (openFile sys c rd).2 = { c with
      calls := calls, fd := ((c.fs.create rd.name).2, 0),
      fs := (c.fs.create rd.name).1.setContent (c.fs.create rd.name).2 (replicate rd.size 0) } := by
  have hempty : (c.fs.create rd.name).1.content (c.fs.create rd.name).2 = [] := by
    unfold create
    split <;> exact Function.update_self _ _ _
  have hneg : ∀ e, ¬ 0 ≤ negErrno e := by
    unfold negErrno
    omega
  unfold openFile at hres ⊢
  split at hres
  · exact absurd hres (hneg _)
  next hopen =>
  by_cases hsize : rd.size = 0
  · refine ⟨c.calls + 1, ?_⟩
    simp [hsize, setContent, ← hempty]
  simp only [hsize, if_false] at hres ⊢
  split at hres
  · exact absurd hres (hneg _)
  · refine ⟨c.calls + 2, ?_⟩
    simp [allocate, hempty]

theorem unisoReadFile_copies (hs : SplicesAlike sys) (hsmall : rd.size < 2 ^ 31)
    (hpos : c.pos = rd.offset) (hin : rd.offset + rd.size ≤ sys.data.length)
    (hname : rd.name.length < 512) (hres : (unisoReadFile sys c rd).1 = 0) :
    ∃ calls method fd, (unisoReadFile sys c rd).2 = { c with
      pos := rd.offset + rd.size, calls := calls, copyMethod := method, fd := fd
      prevOffset := rd.offset, prevName := rd.name, prevSize := rd.size
      fs := (c.fs.create rd.name).1.setContent (c.fs.create rd.name).2
        (streamBytes sys rd.offset (rd.offset + rd.size)) } := by
  unfold unisoReadFile at hres ⊢
  by_cases hdisk : sys.diskFree ≠ 0 ∧ sys.diskFree < c.diskNeeded
  · rw [if_pos hdisk] at hres
    exact absurd hres (show -enospc ≠ 0 by decide)
  rw [if_neg hdisk, if_neg (by omega), take_of_length_le (by omega)] at hres ⊢
  set c₁ : UnisoCtx :=
    { c with prevOffset := rd.offset, prevName := rd.name, prevSize := rd.size } with hc₁
  simp only at hres ⊢
  by_cases hneg : (openFile sys c₁ rd).1 < 0
  · rw [if_pos hneg] at hres
    omega
  rw [if_neg hneg] at hres ⊢
  obtain ⟨calls, hopen⟩ := openFile_opens (not_lt.1 hneg)
  set c₂ := (openFile sys c₁ rd).2
  have hrc : (doCopy sys c₂ rd.size).1 = rd.size := by
    split_ifs at hres with h1 h2
    · simp only at hres
      omega
    · exact absurd hres (show -eio ≠ 0 by decide)
    · exact not_not.1 h2
  rw [if_neg (by rw [hrc]; omega), if_neg (not_not.2 hrc)]
  have hinside : FdInside c₂ := by
    rw [hopen]
    exact Nat.zero_le _
  obtain ⟨hputs, hend⟩ := doCopy_puts hs hsmall hinside hrc
  have hstart : c₂.pos = rd.offset := by
    rw [hopen]
    exact hpos
  rw [hstart] at hend
  have hlen := streamBytes_length sys (Or.inr hin : _ = rd.offset ∨ _)
  refine ⟨(doCopy sys c₂ rd.size).2.calls, (doCopy sys c₂ rd.size).2.copyMethod,
    (doCopy sys c₂ rd.size).2.fd, ?_⟩
  have hfs : (doCopy sys c₂ rd.size).2.fs = (c.fs.create rd.name).1.setContent (c.fs.create rd.name).2
      (streamBytes sys rd.offset (rd.offset + rd.size)) := by
    rw [hputs.fs, hstart, hend, hopen]
    apply ext_fields
    · rfl
    · simp only [write, setContent, Function.update_self, Function.update_idem,
        take_zero, nil_append]
      rw [drop_of_length_le (by rw [length_replicate]; omega), append_nil]
    · rfl
  rw [hputs.same]
  simp only [hend, hfs]
  rw [hopen]

variable {rest : Bytes} {m n : ℕ} {c' : UnisoCtx}

theorem unisoRound_ok (h : unisoRound sys n c rd = some (0, c')) :
    0 ≤ (skipTo sys c rd).1 ∧ unisoHandle sys n (skipTo sys c rd).2 rd = some (0, c') := by
  simp only [unisoRound] at h
  by_cases hneg : (skipTo sys c rd).1 < 0
  · rw [if_pos hneg] at h
    have hzero := congrArg Prod.fst (some.inj h)
    omega
  · rw [if_neg hneg] at h
    exact ⟨not_lt.1 hneg, h⟩

variable (sys) in
/-- what the files among some records should hold -/
def filesOf (done : List IsoRecord) : List (Bytes × Bytes) :=
  (done.filter fun r => !r.directory).map fun r => (r.path, r.bytes sys.data)

/-- the records are done, or below a tree of the queue -/
structure Extracting (sys : UnisoSys) (level : ℕ) (all done : List IsoRecord)
    (pending : List (IsoRecord × IsoForest)) (c : UnisoCtx) : Prop where
  queue : c.parserHead = pending.map fun t => readerOf t.1
  perm : all.Perm (done ++ pending.flatMap treeRecords)
  joliet : c.jolietLevel = level
  trees : ∀ t ∈ pending, TreeOf sys level t
  prev : c.prevName ≠ [] → ∃ d ∈ done, d.directory = false ∧ d.stop ≤ sys.data.length ∧
    c.prevName = d.path ∧ c.prevOffset = d.start ∧ c.prevSize = d.size
  filed : Filed sys.fs c.fs (filesOf sys done)

section

variable {root : IsoRecord} {tree : IsoForest} {level : ℕ} {done : List IsoRecord} {t : IsoRecord × IsoForest}
  {rest : List (IsoRecord × IsoForest)} {c c' : UnisoCtx}

variable {all : List IsoRecord} {u : IsoRecord × IsoForest}

theorem Extracting.mem_all {pending : List (IsoRecord × IsoForest)}
    (hx : Extracting sys level all done pending c) (hu : u ∈ pending) {r : IsoRecord}
    (hr : r ∈ treeRecords u) : r ∈ all := by
  refine hx.perm.mem_iff.2 (mem_append_right _ ?_)
  exact mem_flatMap.2 ⟨u, hu, hr⟩

theorem Extracting.perm_done (hx : Extracting sys level all done (t :: rest) c) (hfile : t.1.directory = false) :
    all.Perm ((t.1 :: done) ++ rest.flatMap treeRecords) := by
  have hentries := (hx.trees t mem_cons_self).1
  rw [hfile, if_neg (by decide), map_eq_nil_iff] at hentries
  refine hx.perm.trans ?_
  rw [flatMap_cons, treeRecords, records_eq_trees, hentries]
  exact perm_middle

theorem filesOf_cons_file (hfile : t.1.directory = false) :
    filesOf sys (t.1 :: done) = (t.1.path, t.1.bytes sys.data) :: filesOf sys done := by
  simp [filesOf, hfile]

/-- the queue behind its first entry -/
abbrev UnisoCtx.popped (c : UnisoCtx) (rest : List (IsoRecord × IsoForest)) : UnisoCtx :=
  { c with parserHead := rest.map fun u => readerOf u.1 }

section

variable (h : IsoImage sys root tree level)
    (hx : Extracting sys level (root :: tree.records) done (t :: rest) c)
include h hx

theorem Extracting.path_new : t.1.path ∉ (filesOf sys done).map Prod.fst := by
  have hnodup := (hx.perm.map path).nodup_iff.1 h.paths
  rw [map_append, flatMap_cons, treeRecords] at hnodup
  have hdisjoint := (nodup_append.1 hnodup).2.2
  intro hmem
  obtain ⟨f, hf, hpath⟩ := mem_map.1 hmem
  obtain ⟨r, hr, rfl⟩ := mem_map.1 hf
  exact hdisjoint _ (mem_map_of_mem (mem_filter.1 hr).1) _ mem_cons_self hpath

variable (hround : unisoRound sys n (c.popped rest) (readerOf t.1) = some (0, c'))
  (hplace : InPlace sys c (readerOf t.1))
include hround hplace

theorem Extracting.file (hfile : t.1.directory = false) :
    Extracting sys level (root :: tree.records) (t.1 :: done) rest c' := by
  have hmem := hx.mem_all mem_cons_self (r := t.1) mem_cons_self
  have hhandler : (readerOf t.1).handler = .file := by
    simp [readerOf, hfile]
  have hperm := hx.perm_done hfile
  have htrees := fun u hu => hx.trees u (mem_cons_of_mem _ hu)
  set c₀ : UnisoCtx := c.popped rest
  have hskips := skips_rule.skipTo sys c₀ (readerOf t.1)
  obtain ⟨hnonneg, hround⟩ := unisoRound_ok hround
  rw [unisoHandle, hhandler] at hround
  have hhandle := some.inj hround
  rw [InPlace, hhandler] at hplace
  rcases hplace with ⟨hahead, hsmall⟩ | ⟨hgone, hprev, hoffset, hsize, hcalls⟩
  · -- its place is ahead
    obtain ⟨calls, method, fd, hcopied⟩ := unisoReadFile_copies h.splices hsmall (ExtentAhead.reached (c := c₀) hahead h.splices hnonneg)
      hahead.2.2 (h.path _ hmem).2.2 (congrArg Prod.fst hhandle)
    have hc' : c' = _ := (congrArg Prod.snd hhandle).symm.trans hcopied
    rw [hskips] at hc'
    have hfs : c'.fs = (c.fs.create t.1.path).1.setContent (c.fs.create t.1.path).2
        (t.1.bytes sys.data) := by
      rw [bytes_eq_stream, hc']
      rfl
    refine ⟨by rw [hc'], hperm, by rw [hc']; exact hx.joliet, htrees, fun _ => ?_, ?_⟩
    · rw [hc']
      exact ⟨t.1, mem_cons_self, hfile, hahead.2.2, rfl, rfl, rfl⟩
    · rw [filesOf_cons_file hfile, hfs]
      exact hx.filed.create h.links (hx.path_new h) _
  -- its place has gone by, with the file before
  obtain ⟨d, hd, hdfile, hdin, hname, hdoffset, hdsize⟩ := hx.prev hprev
  have hstay : skipTo sys c₀ (readerOf t.1) = (0, c₀) := if_neg hgone.not_gt
  have hread : unisoReadFile sys c₀ (readerOf t.1) = (0, c') := by
    rw [hstay] at hhandle
    exact hhandle
  have hlink : c' = linkOrClone sys c₀ d.path t.1.path d.size := by
    unfold unisoReadFile at hread
    rw [if_pos (show (readerOf t.1).offset < c₀.pos from hgone), if_pos (show _ = c₀.prevOffset from hoffset.symm)]
      at hread
    split_ifs at hread with hdisk
    · exact absurd (congrArg Prod.fst hread) (show -enospc ≠ 0 by decide)
    · rw [← hname, ← hdsize]
      exact (congrArg Prod.snd hread).symm
  have hbytes : t.1.bytes sys.data = d.bytes sys.data := by
    have hstart : t.1.start = d.start := hoffset.symm.trans hdoffset
    have hlen : t.1.size = d.size := hsize.symm.trans hdsize
    rw [bytes, bytes, hstart, hlen]
  have hdone : (d.path, d.bytes sys.data) ∈ filesOf sys done :=
    mem_map.2 ⟨d, mem_filter.2 ⟨hd, by rw [hdfile]; rfl⟩, rfl⟩
  have hlen : (d.bytes sys.data).length = d.size := by
    rw [bytes_eq_stream, streamBytes_length sys (Or.inr hdin), IsoRecord.stop, Nat.add_sub_cancel_left]
  obtain ⟨hfiled, calls, buf, fs, hsame⟩ := linkOrClone_files t.1.path (c := c₀) hcalls h.links
    hx.filed hdone (hx.path_new h)
  simp only [hlen] at hfiled hsame
  rw [hlink]
  refine ⟨by rw [hsame], hperm, by rw [hsame]; exact hx.joliet, htrees, fun hne => ?_, ?_⟩
  · rw [hsame] at hne ⊢
    obtain ⟨e, he, hrest⟩ := hx.prev hne
    exact ⟨e, mem_cons_of_mem _ he, hrest⟩
  · rw [filesOf_cons_file hfile, hbytes]
    exact hfiled

theorem Extracting.directory (hdir : t.1.directory = true) :
    ∃ pending, Extracting sys level (root :: tree.records) (t.1 :: done) pending c' := by
  have hhandler : (readerOf t.1).handler = .directory := by
    simp [readerOf, hdir]
  obtain ⟨hentries, hmatches⟩ := hx.trees t mem_cons_self
  rw [hdir, if_pos rfl] at hentries
  set c₀ : UnisoCtx := c.popped rest
  have hskips := skips_rule.skipTo sys c₀ (readerOf t.1)
  obtain ⟨hnonneg, hround⟩ := unisoRound_ok hround
  rw [unisoHandle, hhandler] at hround
  rw [InPlace, hhandler] at hplace
  obtain ⟨hahead, hplain, hbehind⟩ := hplace
  have hreach : _ = t.1.start := ExtentAhead.reached (c := c₀) hahead h.splices hnonneg
  set c₁ := (skipTo sys c₀ (readerOf t.1)).2
  -- the extent is read, and its records are queued
  have hstream : streamBytes sys t.1.start (t.1.start + (readerOf t.1).size) = t.1.bytes sys.data :=
    (bytes_eq_stream t.1).symm
  have hjoliet : c₁.jolietLevel = c.jolietLevel := by
    rw [hskips]
  obtain ⟨calls, hqueued⟩ := unisoReadDirectory_queues (readerOf t.1) (by rw [hreach]; exact hahead.2.2)
    (by rw [hreach, hjoliet]; exact hplain) hround
  rw [hjoliet, hx.joliet, hreach, hstream, show (readerOf t.1).name = t.1.path from rfl, ← hentries] at hqueued
  replace hbehind : ∀ u ∈ t.2.trees, t.1.stop ≤ u.1.start ∧ u.1.start < 2 ^ 32 := by
    intro u hu
    refine hbehind u.1 ?_
    rw [hx.joliet, show (readerOf t.1).offset = t.1.start from rfl, hstream,
      show (readerOf t.1).name = t.1.path from rfl, ← hentries]
    exact mem_map_of_mem hu
  set c₂ : UnisoCtx := { c₁ with pos := t.1.start + t.1.size, jolietLevel := level, calls := calls } with hc₂
  have hc' : c' = queueRecords sys c₂ (t.2.trees.map Prod.fst) := hqueued
  have hrecords : ∀ u ∈ t.2.trees, u.1 ∈ root :: tree.records := by
    intro u hu
    refine hx.mem_all mem_cons_self (mem_cons_of_mem _ ?_)
    rw [records_eq_trees]
    exact mem_flatMap.2 ⟨u, hu, mem_cons_self⟩
  have hqueue : c₂.parserHead = rest.map fun u => readerOf u.1 := by
    rw [hc₂, hskips]
  obtain ⟨pending, hperm, hpend, hqueues⟩ := queueRecords_adds sys t.2.trees hqueue fun u hu =>
    ⟨(hbehind u hu).1, (hbehind u hu).2, (h.path _ (hrecords u hu)).1⟩
  have hkept : c'.jolietLevel = level ∧ c'.fs = c.fs ∧ c'.prevName = c.prevName ∧
      c'.prevOffset = c.prevOffset ∧ c'.prevSize = c.prevSize := by
    rw [hc', hqueues, hc₂, hskips]
    exact ⟨rfl, rfl, rfl, rfl, rfl⟩
  have hfiles : filesOf sys (t.1 :: done) = filesOf sys done := by
    simp [filesOf, hdir]
  refine ⟨pending, hc' ▸ hpend, ?_, hkept.1, fun u hu => ?_, fun hne => ?_, ?_⟩
  · refine hx.perm.trans ?_
    rw [flatMap_cons, treeRecords, records_eq_trees, cons_append, ← flatMap_append]
    refine perm_middle.trans (List.Perm.cons _ ?_)
    exact List.Perm.append_left _ (List.Perm.flatMap_right _ hperm.symm)
  · rcases mem_append.1 (hperm.mem_iff.1 hu) with hu | hu
    · exact treeOf_of_mem hmatches u hu
    · exact hx.trees u (mem_cons_of_mem _ hu)
  · rw [hkept.2.2.1] at hne
    obtain ⟨e, he, hrest⟩ := hx.prev hne
    rw [hkept.2.2.1, hkept.2.2.2.1, hkept.2.2.2.2]
    exact ⟨e, mem_cons_of_mem _ he, hrest⟩
  · rw [hfiles, hkept.2.1]
    exact hx.filed

theorem Extracting.next :
    ∃ pending, Extracting sys level (root :: tree.records) (t.1 :: done) pending c' := by
  match hdir : t.1.directory with
  | false => exact ⟨rest, hx.file h hround hplace hdir⟩
  | true => exact hx.directory h hround hplace hdir

end

theorem unisoLoop_ok {queue : List UnisoReader} (hhead : c.parserHead = rd :: queue)
    (hrun : unisoLoop sys (n + 1) c = some (0, c')) :
    ∃ d, unisoRound sys n { c with parserHead := queue } rd = some (0, d) ∧ unisoLoop sys n d = some (0, c') := by
  rw [unisoLoop, hhead] at hrun
  rcases hround : unisoRound sys n { c with parserHead := queue } rd with _ | ⟨r, d⟩
  · simp [hround] at hrun
  simp only [hround] at hrun
  split_ifs at hrun with hr
  · exact absurd (Prod.mk.inj (some.inj hrun)).1 hr
  · rw [not_not.1 hr]
    exact ⟨d, rfl, hrun⟩

/-- once the root directory is in the queue, a run that succeeds leaves every file as it should be -/
theorem Extracting.run (h : IsoImage sys root tree level) (hforward : ForwardRun sys) (n : ℕ) :
    ∀ {done : List IsoRecord} {pending : List (IsoRecord × IsoForest)} {c c' : UnisoCtx},
    Extracting sys level (root :: tree.records) done pending c →
    Relation.ReflTransGen (UnisoStep sys) (unisoInit sys) c → unisoLoop sys n c = some (0, c') →
    ∀ r ∈ root :: tree.records, r.directory = false → c'.fs.read r.path = some (r.bytes sys.data) := by
  induction n with
  | zero => intro done pending c c' _ _ hrun; cases hrun
  | succ n ih =>
    intro done pending c c' hx hreach hrun
    match pending with
    | [] =>
      rw [unisoLoop, hx.queue] at hrun
      have hfs : c'.fs = c.fs := by
        split_ifs at hrun
        · rw [(Prod.mk.inj (some.inj hrun)).2]
        · obtain ⟨d, hdrain, hd⟩ := map_eq_some_iff.1 hrun
          have hskips := drainLoop_skips sys hdrain
          rw [← (Prod.mk.inj hd).2, hskips]
      intro r hr hfile
      have hdone : r ∈ done := by simpa using hx.perm.mem_iff.1 hr
      rw [hfs]
      exact hx.filed.read (f := (r.path, r.bytes sys.data))
        (mem_map.2 ⟨r, mem_filter.2 ⟨hdone, by rw [hfile]; rfl⟩, rfl⟩)
    | t :: rest =>
      obtain ⟨d, hround, hrun⟩ := unisoLoop_ok hx.queue hrun
      obtain ⟨pending, hx'⟩ := hx.next h hround (hforward c hreach _ _ hx.queue)
      exact ih hx' (hreach.tail ⟨_, _, n, hx.queue, hround⟩) hrun

end

theorem queueDirent_root {rootDir block : ℕ → UInt8} (h : ∀ i < 34, rootDir i = block (156 + i)) :
    queueDirent sys c rootDir [asc '.'] = queueRecord sys c (volumeRecord block) := by
  have hextent : le32At rootDir 2 = le32At block 158 := by
    simp [le32At, h 2 (by decide), h (2 + 1) (by decide), h (2 + 2) (by decide), h (2 + 3) (by decide)]
  have hsize : le32At rootDir 10 = le32At block 166 := by
    simp [le32At, h 10 (by decide), h (10 + 1) (by decide), h (10 + 2) (by decide),
      h (10 + 3) (by decide)]
  have hflags : rootDir 25 = block 181 := h 25 (by decide)
  simp [queueDirent, queueRecord, volumeRecord, start, hextent, hsize, hflags]

/-- a descriptor in front of the terminator -/
theorem volumeSwitch_tree {i : ℕ} {block rootDir : ℕ → UInt8} {c : UnisoCtx}
    (hblock : ∀ j < isofsBlockSize, block j = volumeAt sys.data i j)
    (hjoliet : c.jolietLevel = (volumeTree sys.data i).1) (hroot : ∀ r, (volumeTree sys.data i).2 = some r →
      ∃ block, (∀ j < 34, rootDir j = block (156 + j)) ∧ r = volumeRecord block) :
    (volumeSwitch block c rootDir).1 = { c with jolietLevel := (volumeTree sys.data (i + 1)).1 } ∧
      ∀ r, (volumeTree sys.data (i + 1)).2 = some r →
        ∃ b, (∀ j < 34, (volumeSwitch block c rootDir).2 j = b (156 + j)) ∧ r = volumeRecord b := by
  have htype : block 0 = volumeAt sys.data i 0 := hblock 0 (by decide)
  have hstep : jolietStep block = jolietStep (volumeAt sys.data i) := by
    unfold jolietStep
    rw [hblock 88 (by decide), hblock 89 (by decide), hblock 90 (by decide)]
  have hrecord : ∃ b, (∀ j < 34, block (156 + j) = b (156 + j)) ∧
      volumeRecord (volumeAt sys.data i) = volumeRecord b :=
    ⟨_, fun j hj => hblock _ (by simp only [isofsBlockSize]; omega), rfl⟩
  simp only [volumeTree, volumeSwitch, ← htype, ← hstep, ← hjoliet]
  split_ifs
  · exact ⟨rfl, fun r hr => some.inj hr ▸ hrecord⟩
  · exact ⟨rfl, hroot⟩
  · exact ⟨rfl, fun r hr => some.inj hr ▸ hrecord⟩
  · exact ⟨by rw [← hjoliet], hroot⟩

theorem volumeLoop_root {root : IsoRecord} {level count : ℕ}
    (hv : VolumeRoot sys.data root level count) : ∀ {i : ℕ} {buf rootDir : ℕ → UInt8}
    {c : UnisoCtx} {p : ℤ × UnisoCtx}, i ≤ count → c.pos = (16 + i) * isofsBlockSize →
    c.jolietLevel = (volumeTree sys.data i).1 → (∀ r, (volumeTree sys.data i).2 = some r →
      ∃ block, (∀ j < 34, rootDir j = block (156 + j)) ∧ r = volumeRecord block) →
    volumeLoop sys n buf rootDir c = some p →
    (∃ c', Advances { c with jolietLevel := level } c' ∧ c'.pos = (16 + count + 1) * isofsBlockSize ∧
        p = queueRecord sys c' root) ∨
      p.1 < 0 ∧ ∃ d : UnisoCtx, d.pos + isofsBlockSize ≤ sys.data.length ∧ (doRead sys d isofsBlockSize).1 < 0 := by
  induction n with
  | zero => intro i buf rootDir c p _ _ _ _ h; cases h
  | succ n ih =>
    intro i buf rootDir c p hi hpos hjoliet hroot h
    have hadvance := advances_rule.doRead sys c isofsBlockSize
    have hin : c.pos + isofsBlockSize ≤ sys.data.length := by
      have hinside := hv.inside
      have hle : (16 + i + 1) * isofsBlockSize ≤ (16 + count + 1) * isofsBlockSize :=
        Nat.mul_le_mul_right _ (by omega)
      rw [Nat.add_mul] at hle
      omega
    simp only [volumeLoop] at h
    by_cases hneg : (doRead sys c isofsBlockSize).1 < 0
    · rw [if_pos hneg] at h
      rw [← some.inj h]
      exact Or.inr ⟨hneg, c, hin, hneg⟩
    have hmoved := (doRead_whole sys hin hneg).2
    rw [if_neg hneg, hmoved] at h
    set c₁ := (doRead sys c isofsBlockSize).2
    set block := readTo sys buf c.pos (c.pos + isofsBlockSize)
    have hblock : ∀ j < isofsBlockSize, block j = volumeAt sys.data i j := by
      intro j hj
      rw [volumeAt, ← hpos]
      exact readTo_block sys hj
    have hid : hasStandardId block = true := (hasStandardId_congr hblock).trans (hv.id i hi)
    have htype : block 0 = volumeAt sys.data i 0 := hblock 0 (by decide)
    have hjoliet₁ : c₁.jolietLevel = (volumeTree sys.data i).1 := by
      rw [hadvance]
      exact hjoliet
    rw [hid, if_neg (by decide)] at h
    rcases Nat.lt_or_eq_of_le hi with hlt | rfl
    · -- a descriptor before the terminator
      have hswitch := volumeSwitch_tree hblock hjoliet₁ hroot
      rcases hsw : volumeSwitch block c₁ rootDir with ⟨c₂, rootDir₂⟩
      rw [hsw] at h hswitch
      obtain ⟨rfl, hroot₂⟩ := hswitch
      simp only [if_neg (show block 0 ≠ isofsVdEnd by rw [htype]; exact hv.open_ i hlt)] at h
      have hpos₁ : c₁.pos = (16 + (i + 1)) * isofsBlockSize := by
        rw [hmoved, hpos, ← Nat.add_assoc, Nat.add_mul _ 1, Nat.one_mul]
      rcases ih (c := { c₁ with jolietLevel := (volumeTree sys.data (i + 1)).1 }) (show i + 1 ≤ count from hlt)
        hpos₁ rfl hroot₂ h with ⟨c', hrest, hqueue⟩ | hneg
      · have hlevel : Advances { c with jolietLevel := level } { c₁ with jolietLevel := level } :=
          (show _ = _ by rw [hadvance])
        exact Or.inl ⟨c', hlevel.trans hrest, hqueue⟩
      · exact Or.inr hneg
    -- the terminator
    have hend : block 0 = isofsVdEnd := htype.trans hv.ends
    have hswitch : volumeSwitch block c₁ rootDir = (c₁, rootDir) := by
      unfold volumeSwitch
      rw [hend, if_neg (by decide), if_neg fun h0 => absurd h0.1 (by decide)]
    simp only [hswitch, hend] at h
    obtain ⟨b, hb, hbroot⟩ := hroot root (by rw [hv.tree])
    rw [queueDirent_root hb, ← hbroot] at h
    have hlevel : c.jolietLevel = level := by rw [hjoliet, hv.tree]
    refine Or.inl ⟨c₁, ?_, by rw [hmoved, hpos, Nat.add_mul _ 1, Nat.one_mul], (some.inj h).symm⟩
    rw [← hlevel]
    exact hadvance

section

variable {root : IsoRecord} {tree : IsoForest} {level : ℕ}

theorem queueRecord_empty (sys : UnisoSys) {r : IsoRecord} (hhead : c.parserHead = []) (hpos : c.pos ≤ r.start)
    (h32 : r.start < 2 ^ 32) (hpath : 0 ∉ r.path) : ∃ needed,
    queueRecord sys c r = (0, { c with
      diskNeeded := needed, lastQueuedRead := r.start, parserHead := [readerOf r] }) := by
  unfold queueRecord queueReader
  rw [Nat.mod_eq_of_lt h32, (cstr_eq_iff _).2 hpath, if_neg (not_lt.2 hpos), if_pos (Or.inr hhead)]
  exact ⟨_, by rw [hhead]; rfl⟩

theorem queueRecord_gone (sys : UnisoSys) {r : IsoRecord} (h : r.start % 2 ^ 32 < c.pos) :
    ∃ needed, queueRecord sys c r = (-1, { c with diskNeeded := needed }) :=
  ⟨_, if_pos h⟩

theorem IsoImage.volume_reached (h : IsoImage sys root tree level)
    (hnonneg : 0 ≤ (skipTo sys { unisoInit sys with parserHead := [] } volumeReader).1) :
    (skipTo sys { unisoInit sys with parserHead := [] } volumeReader).2.pos = 16 * isofsBlockSize := by
  obtain ⟨count, hv⟩ := h.volume
  have hinside := hv.inside
  rw [Nat.add_assoc, Nat.add_mul] at hinside
  exact skipTo_reaches h.splices (show 16 * isofsBlockSize - 0 < 2 ^ 31 by decide) (Nat.zero_le _) (by show 16 * isofsBlockSize ≤ _; omega) hnonneg

/-- the volume descriptors put the root directory into the queue -/
theorem Extracting.start (h : IsoImage sys root tree level)
    (hround : unisoRound sys n { unisoInit sys with parserHead := [] } volumeReader = some (0, c)) :
    Extracting sys level (root :: tree.records) [] [(root, tree)] c := by
  obtain ⟨count, hv⟩ := h.volume
  have hskips := skips_rule.skipTo sys { unisoInit sys with parserHead := [] } volumeReader
  obtain ⟨hnonneg, hround⟩ := unisoRound_ok hround
  obtain ⟨c₂, hadvance, -, hqueue⟩ := (volumeLoop_root hv (i := 0) (Nat.zero_le _) (h.volume_reached hnonneg)
    (by rw [hskips]; rfl) nofun hround).resolve_right fun hneg => lt_irrefl _ hneg.1
  have hc₂ : c₂.parserHead = [] ∧ c₂.jolietLevel = level ∧ c₂.fs = sys.fs ∧ c₂.prevName = [] := by
    rw [hadvance, hskips]
    exact ⟨rfl, rfl, rfl, rfl⟩
  -- the root directory is ahead, or it would not have been queued
  have hahead : c₂.pos ≤ root.start := by
    by_contra hlt
    obtain ⟨needed, hgone⟩ := queueRecord_gone sys (r := root) (by rwa [Nat.mod_eq_of_lt h.start, ← not_le])
    exact absurd (Prod.mk.inj (hqueue.trans hgone)).1 (by decide)
  obtain ⟨needed, hqueued⟩ := queueRecord_empty sys hc₂.1 hahead h.start (h.path root mem_cons_self).1
  obtain rfl := (Prod.mk.inj (hqueue.trans hqueued)).2
  refine ⟨rfl, ?_, hc₂.2.1, fun t ht => ?_, fun hne => absurd hc₂.2.2.2 hne, ?_⟩
  · simp only [flatMap_cons, flatMap_nil, append_nil]
    exact List.Perm.refl _
  · rw [mem_singleton.1 ht]
    exact ⟨h.matched.1, h.matched.2.1⟩
  · rw [hc₂.2.2.1]
    exact ⟨Nat.le_refl _, fun _ _ => rfl, fun f hf => absurd hf not_mem_nil⟩

/-- `uniso` that succeeds has unpacked an image of which every record was in its place -/
theorem uniso_extracts {root : IsoRecord} {tree : IsoForest} {level : ℕ} (h : IsoImage sys root tree level)
    (hforward : ForwardRun sys) {n : ℕ} {ctx : UnisoCtx}
    (hrun : unisoLoop sys n (unisoInit sys) = some (0, ctx)) :
    ∀ r ∈ root :: tree.records, r.directory = false → ctx.fs.read r.path = some (r.bytes sys.data) := by
  match n with
  | 0 => cases hrun
  | n + 1 =>
    obtain ⟨d, hround, hrun⟩ := unisoLoop_ok (unisoInit_head sys) hrun
    exact (Extracting.start h hround).run h hforward n
      (.single ⟨volumeReader, [], n, unisoInit_head sys, hround⟩) hrun

end

theorem unisoRound_of_skip {r : ℤ} (hskip : skipTo sys c rd = (r, c')) (hr : 0 ≤ r) :
    unisoRound sys n c rd = unisoHandle sys n c' rd := by
  rw [unisoRound, hskip]
  exact if_neg (not_lt.2 hr)

theorem unisoRound_volume {r : ℤ} (hskip : skipTo sys c volumeReader = (r, c')) (hr : 0 ≤ r) :
    unisoRound sys n c volumeReader = volumeLoop sys n sys.buf sys.rootDir c' :=
  unisoRound_of_skip hskip hr

theorem unisoLoop_step {queue : List UnisoReader} (hhead : c.parserHead = rd :: queue)
    (hround : unisoRound sys m { c with parserHead := queue } rd = some (0, c')) :
    unisoLoop sys (m + 1) c = unisoLoop sys m c' := by
  rw [unisoLoop, hhead]
  simp [hround]

theorem unisoLoop_end (hhead : c.parserHead = []) (hskip : c.skipMethod = 0) :
    unisoLoop sys (m + 1) c = some (0, c) := by
  rw [unisoLoop, hhead]
  exact if_pos hskip

def fileRecord (extent : UInt8) : Bytes :=
  [34, 0, extent, 0, 0, 0, 0, 0, 0, extent, 1, 0, 0, 0, 0, 0, 0, 1] ++ List.replicate 7 0 ++
    [0, 0, 0, 1, 0, 0, 1, 1, asc 'A']

def dirBlock (extent : UInt8) : Bytes := fileRecord extent ++ List.replicate (isofsBlockSize - 34) 0

def fileBlock : Bytes := asc 'x' :: List.replicate (isofsBlockSize - 1) 0

def smallFile (extent : UInt8) : IsoRecord :=
  ⟨[asc '.', asc '/', asc 'A'], extent.toNat, 1, false⟩

theorem dirBlock_length : (dirBlock extent).length = isofsBlockSize := by
  rw [dirBlock, length_append, length_replicate]
  rfl

theorem isoOffsets_dirBlock : isoOffsets (dirBlock extent) (dirBlock extent).length 0 = [0] := by
  have hlen := dirBlock_length extent
  have hfirst : (dirBlock extent).getD 0 0 = 34 := rfl
  have hnext : (dirBlock extent).getD 34 0 = 0 := by
    exact getD_append_length rfl _ 0
  rw [hlen]
  show isoOffsets (dirBlock extent) (2045 + 1 + 1 + 1) 0 = [0]
  rw [isoOffsets, if_pos (by rw [hlen]; decide)]
  simp only [hfirst]
  rw [if_neg (by decide), isoOffsets, if_pos (by rw [hlen]; decide)]
  simp only [show 0 + ((34 : UInt8).toNat + 1) / 2 * 2 = 34 by decide, hnext]
  rw [if_pos (by decide), isoOffsets, if_neg (by rw [hlen]; decide)]

theorem recordAt_dirBlock {i : ℕ} (hi : i < 34) :
    recordAt (dirBlock extent) 0 i = (fileRecord extent).getD i 0 := by
  have hrecord : i < (fileRecord extent).length := hi
  rw [recordAt, Nat.zero_add, dirBlock, getD_eq_getElem?_getD, getElem?_append_left hrecord,
    getD_eq_getElem?_getD]

theorem isoName_dirBlock : isoName (recordAt (dirBlock extent) 0) = [asc 'A'] := by
  rfl

theorem isoEntries_dirBlock : isoEntries sys 0 [asc '.'] (dirBlock extent) = [smallFile extent] := by
  have hname := isoName_dirBlock extent
  have hdot : isDotName [asc 'A'] = false := by decide
  have hextent : le32At (recordAt (dirBlock extent) 0) 2 = extent.toNat := by
    show leNat [extent, 0, 0, 0] = _
    simp [leNat]
  have hsize : le32At (recordAt (dirBlock extent) 0) 10 = 1 := by
    rfl
  have hflags : recordAt (dirBlock extent) 0 25 = 0 := recordAt_dirBlock extent (by decide)
  simp only [isoEntries, isoOffsets_dirBlock, isoRecords, map_cons, filter_cons,
    hname, hdot, Bool.not_false, if_true, isoRecord, isoNames, hsize, hflags]
  rfl

theorem plainDirectory_dirBlock : PlainDirectory sys 0 (dirBlock extent) := by
  intro offs hoffs
  rw [isoOffsets_dirBlock, mem_singleton] at hoffs
  rw [hoffs]
  refine ⟨?_, fun _ => ⟨?_, fun c hc => ?_⟩⟩
  · rw [dirBlock_length]
    show 0 + 33 + (1 : UInt8).toNat ≤ isofsBlockSize
    decide
  · rw [isoNames, if_neg (by decide), isoName_dirBlock]
    exact ⟨by decide, by decide, by decide, by decide⟩
  · rw [isoName_dirBlock] at hc
    rw [← (cons.inj hc).1]
    decide

theorem pathsFit_dirBlock {mem : ℕ → UInt8} (hmem : ∀ i < isofsBlockSize, mem i = (dirBlock extent).getD i 0) :
    pathsFit sys 0 [asc '.'] mem isofsBlockSize isofsBlockSize 0 = true := by
  have hfirst : mem 0 = 34 := hmem 0 (by decide)
  have hlen : mem 32 = 1 := hmem 32 (by decide)
  have hname : mem 33 = asc 'A' := hmem 33 (by decide)
  have hnext : mem 34 = 0 := (hmem 34 (by decide)).trans (getD_append_length rfl _ 0)
  show pathsFit sys 0 [asc '.'] mem isofsBlockSize (2045 + 1 + 1 + 1) 0 = true
  have hdot : isDotEntry (fun i => mem (0 + i)) = false := by
    simp only [isDotEntry, Nat.zero_add, hlen, hname]
    decide
  rw [pathsFit, if_pos (by decide)]
  simp only [hfirst, hdot, show 0 + ((34 : UInt8).toNat + 1) / 2 * 2 = 34 by decide]
  rw [if_neg (by decide), if_neg (by decide), pathsFit, if_pos (by decide)]
  simp only [hnext]
  rw [if_pos (by decide), pathsFit, if_neg (by decide), Bool.and_true, decide_eq_true_eq]
  simp [direntName, hlen]

def treeRoot (extent : UInt8) : IsoRecord := ⟨[asc '.'], extent.toNat, isofsBlockSize, true⟩

theorem volumeAt_tree : (∀ i < isofsBlockSize, volumeAt (imageOf (treeBlocks extent rest)) 0 i =
        (volumeBlock isofsVdPrimary (rootRecord extent)).getD i 0) ∧
      ∀ i < isofsBlockSize, volumeAt (imageOf (treeBlocks extent rest)) 1 i =
        (volumeBlock isofsVdEnd (rootRecord 0)).getD i 0 := by
  have hleft : ∀ {a b : Bytes} {i : ℕ}, i < a.length → (a ++ b).getD i 0 = a.getD i 0 := by
    intro a b i hi
    rw [getD_eq_getElem?_getD, getElem?_append_left hi, getD_eq_getElem?_getD]
  constructor
  · intro i hi
    rw [volumeAt, recordAt, imageOf_getD, treeBlocks, hleft (by rw [volumeBlock_length]; exact hi)]
  intro i hi
  have hplace : (16 + 1) * isofsBlockSize + i = 16 * isofsBlockSize + (isofsBlockSize + i) := by ring
  rw [volumeAt, recordAt, hplace, imageOf_getD, treeBlocks, getD_append_length (volumeBlock_length _ _),
    hleft (by rw [volumeBlock_length]; exact hi)]

theorem volumeRoot_tree : VolumeRoot (imageOf (treeBlocks extent rest)) (treeRoot extent) 0 1 := by
  obtain ⟨hfirst, hsecond⟩ := volumeAt_tree extent
  have htype : volumeAt (imageOf (treeBlocks extent rest)) 0 0 = isofsVdPrimary := hfirst 0 (by decide)
  have hrecord : ∀ i < 34, volumeAt (imageOf (treeBlocks extent rest)) 0 (156 + i) =
      (rootRecord extent).getD i 0 := by
    intro i hi
    rw [hfirst _ (by simp only [isofsBlockSize]; omega), ← volumeBlock_record isofsVdPrimary extent [] hi,
      append_nil]
  refine ⟨?_, fun i hi => ?_, fun i hi => ?_, hsecond 0 (by decide), ?_⟩
  · rw [imageOf_length, treeBlocks_length, ← Nat.add_assoc]
    exact Nat.le_add_right _ _
  · rcases Nat.le_one_iff_eq_zero_or_eq_one.1 hi with rfl | rfl
    · exact (hasStandardId_congr hfirst).trans rfl
    · exact (hasStandardId_congr hsecond).trans rfl
  · rw [Nat.lt_one_iff.1 hi, htype]
    decide
  have hextent : le32At (volumeAt (imageOf (treeBlocks extent rest)) 0) 158 = extent.toNat := by
    show le32At (fun i => volumeAt (imageOf (treeBlocks extent rest)) 0 (156 + i)) 2 = _
    rw [le32At_congr (g := fun i => (rootRecord extent).getD i 0) fun j hj => hrecord j (by omega)]
    show leNat [extent, 0, 0, 0] = _
    simp [leNat]
  have hsize : le32At (volumeAt (imageOf (treeBlocks extent rest)) 0) 166 = isofsBlockSize := by
    show le32At (fun i => volumeAt (imageOf (treeBlocks extent rest)) 0 (156 + i)) 10 = _
    rw [le32At_congr (g := fun i => (rootRecord extent).getD i 0) fun j hj => hrecord j (by omega)]
    rfl
  have hflags : volumeAt (imageOf (treeBlocks extent rest)) 0 181 = 2 := hrecord 25 (by decide)
  simp only [volumeTree, volumeRecord, htype, hextent, hsize, hflags]
  rfl

theorem imageOf_drop (rest : Bytes) (k : ℕ) :
    (imageOf (treeBlocks extent rest)).drop ((18 + k) * isofsBlockSize) =
      rest.drop (k * isofsBlockSize) := by
  have hform : imageOf (treeBlocks extent rest) = (replicate (16 * isofsBlockSize) 0 ++
      volumeBlock isofsVdPrimary (rootRecord extent) ++ volumeBlock isofsVdEnd (rootRecord 0)) ++ rest := by
    simp [imageOf, treeBlocks]
  have hlen : (replicate (16 * isofsBlockSize) 0 ++ volumeBlock isofsVdPrimary (rootRecord extent) ++
      volumeBlock isofsVdEnd (rootRecord 0)).length = 18 * isofsBlockSize := by
    simp only [length_append, length_replicate, volumeBlock_length]
    ring
  rw [hform, Nat.add_mul, ← drop_drop, drop_left' hlen]

def treeSys (extent : UInt8) (rest : Bytes) : UnisoSys :=
  plainSys (imageOf (treeBlocks extent rest)) fun _ => 0

theorem treeSys_length : (treeSys extent rest).data.length = 18 * isofsBlockSize + rest.length := by
  show (imageOf (treeBlocks extent rest)).length = _
  rw [imageOf_length, treeBlocks_length]
  omega

section

variable {data : Bytes} {root : ℕ → UInt8}

theorem unisoReadFile_plain (hpos : c.pos = rd.offset) (hin : rd.offset + rd.size ≤ data.length)
    (hsmall : data.length < 2 ^ 31) (hmethod : c.copyMethod = 0) :
    (unisoReadFile (plainSys data root) c rd).1 = 0 := by
  set sys := plainSys data root
  set c₁ : UnisoCtx := { c with
    prevOffset := rd.offset, prevName := rd.name.take 512, prevSize := rd.size } with hc₁
  have hopen : (openFile sys c₁ rd).1 = 0 := by
    unfold openFile
    have hopens : sys.opens c₁.calls = .ok () := rfl
    have hallocates : sys.allocates (c₁.calls + 1) = .ok () := rfl
    simp only [hopens, hallocates]
    split_ifs <;> rfl
  obtain ⟨calls, hopened⟩ := openFile_opens hopen.ge
  set c₂ := (openFile sys c₁ rd).2
  have hfields : c₂.copyMethod = 0 ∧ c₂.pos = rd.offset := by
    rw [hopened]
    exact ⟨hmethod, hpos⟩
  have hcopy : (doCopy sys c₂ rd.size).1 = rd.size := by
    have hbytes : rd.size < 2 ^ 31 := by omega
    have hnonneg : 0 ≤ (doSplice sys true c₂ rd.size).1 := by
      rw [doSplice, toInt32_small (by omega) (by omega)]
      exact doSpliceLoop_nonneg (fun _ => ⟨_, rfl⟩) hbytes rd.size c₂ (Nat.le_refl _)
    have hgot := doSplice_got sys true c₂ hbytes
    have hmoved := hgot.moved hnonneg
    have hshort := hgot.short hnonneg
    have hdata : sys.data.length = data.length := rfl
    unfold doCopy
    rw [if_pos hfields.1]
    simp only
    rw [if_pos hnonneg]
    omega
  unfold unisoReadFile
  have hpair : openFile sys c₁ rd = (0, c₂) := Prod.ext hopen rfl
  rw [if_neg (fun h => h.1 rfl), if_neg (by omega), ← hc₁, hpair]
  simp only [lt_irrefl, if_false]
  rw [if_neg (by rw [hcopy]; omega), if_neg (not_not.2 hcopy)]

end

theorem fileBlock_length : fileBlock.length = isofsBlockSize := by
  rw [fileBlock, length_cons, length_replicate]
  decide

/-- the root directory holds one file -/
def rootSys (file : UInt8) : UnisoSys := treeSys 18 (dirBlock file ++ fileBlock)

variable (file : UInt8)

theorem rootSys_length : (rootSys file).data.length = 20 * isofsBlockSize := by
  rw [rootSys, treeSys_length, length_append, fileBlock_length, dirBlock_length]
  ring

theorem rootSys_root : (treeRoot 18).bytes (rootSys file).data = dirBlock file := by
  have hdrop := imageOf_drop 18 (dirBlock file ++ fileBlock) 0
  exact (congrArg (take isofsBlockSize) hdrop).trans (take_left' (dirBlock_length file))

theorem rootSys_stream : streamBytes (rootSys file) (18 * isofsBlockSize) (18 * isofsBlockSize + isofsBlockSize) =
    dirBlock file :=
  (bytes_eq_stream (treeRoot 18)).symm.trans (rootSys_root file)

theorem rootSys_fits {c : UnisoCtx} (hpos : c.pos = 18 * isofsBlockSize) (hjoliet : c.jolietLevel = 0) :
    PathsFit (rootSys file) c (readerOf (treeRoot 18)) := by
  refine ⟨by decide, fun mem _ => ?_⟩
  rw [hjoliet, hpos]
  refine pathsFit_dirBlock file fun i hi => ?_
  rw [← rootSys_stream, readTo, if_pos (by simp only [readerOf, treeRoot]; omega), streamBytes,
    Nat.add_sub_cancel_left, getD_eq_getElem?_getD, getD_eq_getElem?_getD, getElem?_take_of_lt hi, getElem?_drop]

variable (sys) in
theorem unisoReadDirectory_fits {mem : ℕ → UInt8} (hmem : sys.heap c.calls = some mem)
    (hin : c.pos + rd.size ≤ sys.data.length) (hread : 0 ≤ (doRead sys { c with calls := c.calls + 1 } rd.size).1)
    (hfit : PathsFit sys c rd) : ∃ c', unisoReadDirectory sys c rd = some (0, c') := by
  have hmoved := (doRead_whole sys (c := { c with calls := c.calls + 1 }) hin (not_lt.2 hread)).2
  unfold unisoReadDirectory
  simp only [hmem]
  rw [if_neg (not_lt.2 hread), hmoved]
  exact ⟨_, if_pos ⟨hfit.1, hfit.2 mem hmem⟩⟩

/-- the rounds of the volume descriptors and of the root directory, which holds one file -/
theorem rootSys_rounds : ∃ c₁ c₂ : UnisoCtx,
    (c₁.parserHead = [readerOf (treeRoot 18)] ∧ c₁.pos = 18 * isofsBlockSize ∧ c₁.jolietLevel = 0) ∧
    (c₂.parserHead = [] ∧ c₂.pos = 19 * isofsBlockSize ∧ c₂.skipMethod = 0 ∧ c₂.copyMethod = 0 ∧ c₂.fs = emptyFs) ∧
    unisoRound (rootSys file) 3 { unisoInit (rootSys file) with parserHead := [] } volumeReader = some (0, c₁) ∧
    unisoRound (rootSys file) 2 { c₁ with parserHead := [] } (readerOf (treeRoot 18)) =
      some (0, (queueRecord (rootSys file) c₂ (smallFile file)).2) := by
  have hlen := rootSys_length file
  have hv : VolumeRoot (rootSys file).data (treeRoot 18) 0 1 := volumeRoot_tree 18
  have hread : ∀ c : UnisoCtx, c.pos + isofsBlockSize ≤ (rootSys file).data.length →
      0 ≤ (doRead (rootSys file) c isofsBlockSize).1 := fun c hin => by
    have hplain := (doRead_plain (rootSys file).data (fun _ => 0) c).1 hin
    exact (congrArg Prod.fst hplain).ge.trans' (Int.natCast_nonneg isofsBlockSize)
  have hskip : skipTo (rootSys file) { unisoInit (rootSys file) with parserHead := [] } volumeReader =
    (_, volumeCtx (rootSys file)) := skipTo_plain (rootSys file).data fun _ => 0
  have hstream := rootSys_stream file
  have hfits := fun c => rootSys_fits (c := c) file
  set sys := rootSys file
  -- the volume descriptors
  obtain ⟨p, hp⟩ := volumeLoop_returns sys (k := 1) sys.buf sys.rootDir (volumeCtx sys)
    (hlen.ge.trans' (show (16 + 2) * isofsBlockSize ≤ _ by decide)) (Or.inr hv.ends)
  obtain ⟨c, hadvance, hpos, rfl⟩ := (volumeLoop_root hv (i := 0) (Nat.zero_le _) rfl rfl nofun hp).resolve_right
    fun ⟨_, d, hin, hneg⟩ => absurd (hread d hin) (not_le.2 hneg)
  obtain ⟨needed, hqueue⟩ := queueRecord_empty sys (r := treeRoot 18)
    (by rw [hadvance]; rfl) hpos.le (by decide) (by decide)
  rw [hqueue] at hp
  have hround := (unisoRound_volume hskip (Int.natCast_nonneg _)).trans (volumeLoop_le sys 1 _ _ _ _ hp)
  -- the root directory
  set c₁ : UnisoCtx := { c with diskNeeded := needed, lastQueuedRead := (treeRoot 18).start, parserHead := [] } with hc₁
  have hjoliet : c₁.jolietLevel = 0 := by rw [hc₁, hadvance]
  have hin : c₁.pos + isofsBlockSize ≤ sys.data.length := by
    rw [hlen]
    exact (Nat.add_le_add_right hpos.le _).trans (by decide)
  obtain ⟨c', hdir⟩ := unisoReadDirectory_fits sys rfl hin
    (hread { c₁ with calls := c₁.calls + 1 } hin) (hfits c₁ hpos hjoliet)
  have hplace : streamBytes sys c₁.pos (c₁.pos + (readerOf (treeRoot 18)).size) = dirBlock file := by
    rw [show c₁.pos = 18 * isofsBlockSize from hpos]
    exact hstream
  obtain ⟨calls, hqueues⟩ := unisoReadDirectory_queues (readerOf (treeRoot 18)) hin
    (by rw [hplace, hjoliet]; exact plainDirectory_dirBlock file) hdir
  rw [hplace, hjoliet, show (readerOf (treeRoot 18)).name = [asc '.'] from rfl, isoEntries_dirBlock] at hqueues
  have hstay : skipTo sys c₁ (readerOf (treeRoot 18)) = (0, c₁) :=
    if_neg (not_lt.2 (show (treeRoot 18).start ≤ c.pos from hpos.ge))
  refine ⟨{ c₁ with parserHead := [readerOf (treeRoot 18)] }, _, ⟨rfl, hpos, hjoliet⟩, ⟨?_, ?_, ?_, ?_, ?_⟩, hround,
    (unisoRound_of_skip hstay le_rfl (n := 2)).trans (hdir.trans (congrArg (fun c => some ((0 : ℤ), c)) hqueues))⟩
  · rfl
  · show c.pos + isofsBlockSize = _
    rw [hpos]
    rfl
  all_goals
    rw [hc₁, hadvance]
    rfl

/-- the file of an image with the root directory behind it is left out -/
theorem uniso_leaves_out : ∃ (sys : UnisoSys) (root : IsoRecord) (tree : IsoForest) (n : ℕ) (ctx : UnisoCtx),
    (∃ count, VolumeRoot sys.data root 0 count) ∧
      (IsoForest.cons root tree .nil).Matches sys 0 ∧ unisoLoop sys n (unisoInit sys) = some (0, ctx) ∧
      ∃ r ∈ tree.records, r.directory = false ∧ r.stop ≤ sys.data.length ∧ ctx.fs.read r.path = none := by
  obtain ⟨c₁, c, ⟨hhead₁, -⟩, ⟨hhead, hpos, hskip, -, hfs⟩, hround, hround₁⟩ := rootSys_rounds 15
  obtain ⟨needed, hgone⟩ := queueRecord_gone (rootSys 15) (c := c) (r := smallFile 15)
    (hpos.ge.trans_lt' (by decide))
  rw [hgone] at hround₁
  have hrun := (unisoLoop_step (unisoInit_head (rootSys 15)) hround).trans (unisoLoop_step hhead₁ hround₁)
  refine ⟨rootSys 15, treeRoot 18, .cons (smallFile 15) .nil .nil, 4, _,
    ⟨1, volumeRoot_tree 18⟩, ⟨?_, ⟨rfl, trivial, trivial⟩, trivial⟩, hrun.trans (unisoLoop_end hhead hskip),
    smallFile 15, mem_cons_self, rfl, ?_, ?_⟩
  · rw [rootSys_root]
    exact (isoEntries_dirBlock 15).symm
  · rw [rootSys_length]
    decide
  · show c.fs.read _ = none
    rw [hfs]
    rfl

def backSys : UnisoSys := rootSys 19

theorem backSys_image : IsoImage backSys (treeRoot 18) (.cons (smallFile 19) .nil .nil) 0 where
  volume := ⟨1, volumeRoot_tree 18⟩
  matched := by
    refine ⟨?_, ⟨rfl, trivial, trivial⟩, trivial⟩
    rw [backSys, rootSys_root]
    exact (isoEntries_dirBlock 19).symm
  start := by decide
  path := by decide
  paths := by decide
  splices := Or.inl fun _ => ⟨_, rfl⟩
  links := fun p q k hp _ => by cases hp

theorem unisoRound_unique {p q : ℤ × UnisoCtx} (hp : unisoRound sys m c rd = some p)
    (hq : unisoRound sys n c rd = some q) : p = q := by
  have h := unisoRound_le sys n c p hp
  rw [Nat.add_comm, unisoRound_le sys m c q hq] at h
  exact (some.inj h).symm

theorem unisoRound_file_queue (hfile : rd.handler = .file) (h : unisoRound sys n c rd = some (0, c')) :
    c'.parserHead = c.parserHead := by
  obtain ⟨-, hread⟩ := unisoRound_ok h
  rw [unisoHandle, hfile] at hread
  rw [← (Prod.mk.inj (Prod.mk.eta.trans (some.inj hread))).2]
  exact ((forward_rule.skipTo sys c rd).trans (unisoReadFile_forward sys)).queue

/-- the readers of that image come in turn, each at the place where the one before ends -/
theorem backSys_readers {queue : List UnisoReader}
    (hc : Relation.ReflTransGen (UnisoStep backSys) (unisoInit backSys) c) (hhead : c.parserHead = rd :: queue) :
    c = unisoInit backSys ∧ rd = volumeReader ∧ queue = [] ∨
      rd = readerOf (treeRoot 18) ∧ c.pos = 18 * isofsBlockSize ∧ c.jolietLevel = 0 ∨
      rd = readerOf (smallFile 19) ∧ c.pos = 19 * isofsBlockSize := by
  obtain ⟨c₁, c₂, ⟨hhead₁, hpos₁, hjoliet⟩, ⟨hhead₂, hpos₂, -⟩, hround, hround₁⟩ := rootSys_rounds 19
  obtain ⟨needed, hqueue⟩ := queueRecord_empty backSys (r := smallFile 19) hhead₂
    (hpos₂.le.trans (by decide)) (by decide) (by decide)
  rw [show rootSys 19 = backSys from rfl] at hround hround₁
  rw [hqueue] at hround₁
  have hstates : c = unisoInit backSys ∨ c = c₁ ∨
      c = { c₂ with diskNeeded := needed, lastQueuedRead := (smallFile 19).start, parserHead := [readerOf (smallFile 19)] } ∨
      c.parserHead = [] := by
    clear hhead
    induction hc with
    | refl => exact Or.inl rfl
    | tail _ hstep ih =>
      obtain ⟨rd, queue, n, hhead, hstep⟩ := hstep
      rcases ih with rfl | rfl | rfl | hnil
      · obtain ⟨rfl, rfl⟩ := cons.inj ((unisoInit_head backSys).symm.trans hhead)
        exact Or.inr (Or.inl (Prod.mk.inj (unisoRound_unique hstep hround)).2)
      · obtain ⟨rfl, rfl⟩ := cons.inj (hhead₁.symm.trans hhead)
        exact Or.inr (Or.inr (Or.inl (Prod.mk.inj (unisoRound_unique hstep hround₁)).2))
      · obtain ⟨rfl, rfl⟩ := cons.inj hhead
        exact Or.inr (Or.inr (Or.inr (unisoRound_file_queue rfl hstep)))
      · rw [hnil] at hhead
        cases hhead
  rcases hstates with rfl | rfl | rfl | hnil
  · obtain ⟨rfl, rfl⟩ := cons.inj ((unisoInit_head backSys).symm.trans hhead)
    exact Or.inl ⟨rfl, rfl, rfl⟩
  · obtain ⟨rfl, -⟩ := cons.inj (hhead₁.symm.trans hhead)
    exact Or.inr (Or.inl ⟨rfl, hpos₁, hjoliet⟩)
  · obtain ⟨rfl, -⟩ := cons.inj hhead
    exact Or.inr (Or.inr ⟨rfl, hpos₂⟩)
  · rw [hnil] at hhead
    cases hhead

theorem backSys_length : backSys.data.length = 20 * isofsBlockSize := rootSys_length 19

theorem backSys_forward : ForwardRun backSys := by
  intro c hc rd queue hhead
  have hlen := backSys_length
  rcases backSys_readers hc hhead with ⟨-, rfl, -⟩ | ⟨rfl, hpos, hjoliet⟩ | ⟨rfl, hpos⟩
  · trivial
  · refine ⟨⟨hpos.le, by rw [hpos]; decide, by rw [hlen]; decide⟩, ?_, ?_⟩
    · rw [hjoliet]
      exact (rootSys_stream 19).symm ▸ plainDirectory_dirBlock 19
    · rw [hjoliet]
      intro r hr
      replace hr : r ∈ isoEntries backSys 0 [asc '.'] (dirBlock 19) := rootSys_stream 19 ▸ hr
      rw [isoEntries_dirBlock, mem_singleton] at hr
      rw [hr]
      decide
  · exact Or.inl ⟨⟨hpos.le, by rw [hpos]; decide, by rw [hlen]; decide⟩, by decide⟩

/-- that image is unpacked -/
theorem uniso_extracts_small : ∃ n ctx, unisoLoop backSys n (unisoInit backSys) = some (0, ctx) ∧
    ctx.fs.read [asc '.', asc '/', asc 'A'] = some [asc 'x'] := by
  obtain ⟨c₁, c, ⟨hhead₁, -⟩, ⟨hhead, hpos, hskip, hmethod, -⟩, hround, hround₁⟩ := rootSys_rounds 19
  obtain ⟨needed, hqueue⟩ := queueRecord_empty backSys (r := smallFile 19) hhead
    (hpos.le.trans (by decide)) (by decide) (by decide)
  rw [show rootSys 19 = backSys from rfl] at hround hround₁
  rw [hqueue] at hround₁
  -- the file is queued and read
  set rd := readerOf (smallFile 19)
  set c₂ : UnisoCtx := { c with diskNeeded := needed, lastQueuedRead := (smallFile 19).start, parserHead := [] }
  have hin : rd.offset + rd.size ≤ backSys.data.length := by
    rw [backSys_length]
    decide
  have hres : (unisoReadFile backSys c₂ rd).1 = 0 :=
    unisoReadFile_plain hpos hin (backSys_length.trans_lt (by decide)) hmethod
  obtain ⟨calls, method, fd, hcopied⟩ := unisoReadFile_copies (Or.inl fun _ => ⟨_, rfl⟩) (by decide)
    (c := c₂) hpos hin (show 3 < 512 by decide) hres
  have hstay : skipTo backSys c₂ rd = (0, c₂) := if_neg (not_lt.2 (show rd.offset ≤ c.pos from hpos.ge))
  have hround₂ := (unisoRound_of_skip hstay le_rfl (n := 1)).trans (congrArg some (Prod.ext (y := (0, _)) hres hcopied))
  have hrun : unisoLoop backSys 4 (unisoInit backSys) = _ := (unisoLoop_step (unisoInit_head backSys) hround).trans
    ((unisoLoop_step hhead₁ hround₁).trans ((unisoLoop_step (by rfl) hround₂).trans
      (unisoLoop_end (by rfl) (by exact hskip))))
  refine ⟨4, _, hrun, ?_⟩
  have hfile := uniso_extracts backSys_image backSys_forward hrun (smallFile 19) (by decide) rfl
  have hdrop := imageOf_drop 18 (dirBlock 19 ++ fileBlock) 1
  rw [Nat.one_mul, drop_left' (dirBlock_length 19)] at hdrop
  exact hfile.trans (congrArg some (congrArg (take 1) hdrop))

theorem backSys_whole : WholeImage backSys := by
  intro c hc rd queue hhead p hp
  have hlen := backSys_length
  rcases backSys_readers hc hhead with ⟨rfl, rfl, rfl⟩ | ⟨rfl, hpos, hjoliet⟩ | ⟨rfl, -⟩
  · have hv : VolumeRoot backSys.data (treeRoot 18) 0 1 := volumeRoot_tree 18
    have hplace := backSys_image.volume_reached hp
    refine ⟨1, ?_, Or.inr ?_⟩
    · rw [hplace, ← Nat.add_mul]
      exact hv.inside
    · rw [hplace, ← Nat.add_mul]
      exact hv.ends
  · have hstay : p = (0, { c with parserHead := queue }) := if_neg (not_lt.2 (show _ ≤ c.pos from hpos.ge))
    rw [hstay]
    refine ⟨?_, rootSys_fits 19 hpos hjoliet⟩
    show isofsBlockSize ≤ backSys.data.length - c.pos
    rw [hpos, hlen]
    decide
  · trivial

theorem uniso_terminates_small : ∃ n r, uniso backSys n = some r :=
  uniso_terminates backSys backSys_whole

end Alpine

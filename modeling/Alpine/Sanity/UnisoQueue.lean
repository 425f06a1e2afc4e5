import Alpine.Spec.IsoTree
import Alpine.Sanity.Blob
import Alpine.Sanity.UnisoFiles

/-! The queue of `uniso` as the trees that are still to be read: a record gets its place in the queue, and
reading a directory queues the records of its extent. -/

namespace Alpine

open List

variable {sys : UnisoSys}

def readerOf (r : IsoRecord) : UnisoReader :=
  ⟨r.start, if r.directory then .directory else .file, r.size, r.path⟩

variable (sys) in
def queueRecord (c : UnisoCtx) (r : IsoRecord) : ℤ × UnisoCtx :=
  queueReader { c with diskNeeded := c.diskNeeded +
      if r.directory then 0 else (r.size + sys.blockSize - 1) / sys.blockSize }
    ⟨r.start % 2 ^ 32, if r.directory then .directory else .file, r.size, cstr r.path⟩

variable {c : UnisoCtx} {f g ide : ℕ → UInt8} {dirPath : Bytes}

def Queues (c c' : UnisoCtx) : Prop :=
  c' = { c with
    diskNeeded := c'.diskNeeded, lastQueuedRead := c'.lastQueuedRead, parserHead := c'.parserHead }

theorem Queues.trans {a b : UnisoCtx} (h : Queues a b) (h' : Queues b c) : Queues a c := by
  unfold Queues at *
  rw [h', h]

theorem Queues.pos {c' : UnisoCtx} (h : Queues c c') : c'.pos = c.pos := by
  rw [h]

variable (sys) in
theorem queueRecord_adds {pending : List (IsoRecord × IsoForest)}
    (h : c.parserHead = pending.map fun t => readerOf t.1) {t : IsoRecord × IsoForest}
    (hpos : c.pos ≤ t.1.start) (h32 : t.1.start < 2 ^ 32) (hpath : 0 ∉ t.1.path) :
    ∃ pending' : List (IsoRecord × IsoForest), pending'.Perm (t :: pending) ∧
      ((queueRecord sys c t.1).2.parserHead = pending'.map fun t => readerOf t.1) ∧
      Queues c (queueRecord sys c t.1).2 := by
  have hreader : (⟨t.1.start % 2 ^ 32, if t.1.directory then .directory else .file, t.1.size,
      cstr t.1.path⟩ : UnisoReader) = readerOf t.1 := by
    rw [Nat.mod_eq_of_lt h32, (cstr_eq_iff _).2 hpath]
    rfl
  unfold queueRecord
  rw [hreader, queueReader, if_neg (show ¬ (readerOf t.1).offset < c.pos from not_lt.2 hpos)]
  by_cases hend : c.lastQueuedRead ≤ (readerOf t.1).offset ∨ c.parserHead = []
  · rw [if_pos hend]
    exact ⟨pending ++ [t], perm_append_singleton t pending, by simp [h], rfl⟩
  · rw [if_neg hend]
    -- between two parts of the queue
    have hsplit : c.parserHead = c.parserHead.rdropWhile (fun r => (readerOf t.1).offset ≤ r.offset) ++
        c.parserHead.rtakeWhile fun r => (readerOf t.1).offset ≤ r.offset := rdropWhile_append_rtakeWhile.symm
    obtain ⟨front, back, rfl, hfront, hback⟩ := map_eq_append_iff.1 (h.symm.trans hsplit)
    refine ⟨front ++ t :: back, perm_middle, ?_, rfl⟩
    simp [listAddSorted, ← hfront, ← hback]

variable (sys) in
def queueRecords (c : UnisoCtx) (records : List IsoRecord) : UnisoCtx :=
  records.foldl (fun c r => (queueRecord sys c r).2) c

variable (sys) in
theorem queueRecords_adds : ∀ (trees : List (IsoRecord × IsoForest)) {c : UnisoCtx}
    {pending : List (IsoRecord × IsoForest)}, (c.parserHead = pending.map fun t => readerOf t.1) →
    (∀ t ∈ trees, c.pos ≤ t.1.start ∧ t.1.start < 2 ^ 32 ∧ 0 ∉ t.1.path) →
    ∃ pending' : List (IsoRecord × IsoForest), pending'.Perm (trees ++ pending) ∧
      ((queueRecords sys c (trees.map Prod.fst)).parserHead = pending'.map fun t => readerOf t.1) ∧
      Queues c (queueRecords sys c (trees.map Prod.fst)) := by
  intro trees
  induction trees with
  | nil => intro c pending h _; exact ⟨pending, .refl _, h, rfl⟩
  | cons t trees ih =>
    intro c pending h htrees
    obtain ⟨hpos, h32, hpath⟩ := htrees t mem_cons_self
    obtain ⟨mid, hmid, hqueue, hsame⟩ := queueRecord_adds sys h hpos h32 hpath
    have hpos' : (queueRecord sys c t.1).2.pos = c.pos := hsame.pos
    obtain ⟨last, hlast, hqueue', hsame'⟩ := ih hqueue fun u hu => by
      rw [hpos']
      exact htrees u (mem_cons_of_mem _ hu)
    refine ⟨last, ?_, hqueue', hsame.trans hsame'⟩
    refine hlast.trans ((List.Perm.append_left trees hmid).trans ?_)
    exact perm_middle

/-- a name that is a component of a path -/
def PlainName (name : Bytes) : Prop :=
  asc '/' ∉ name ∧ name ≠ [] ∧ name ≠ [asc '.'] ∧ name ≠ [asc '.', asc '.']

variable (sys) (level : ℕ) in
/-- a record is inside an extent up to the end of its name, and has a name that is taken for one: a byte
above 127 is taken for the directory itself -/
def PlainRecord (dir : Bytes) (offs : ℕ) : Prop :=
  let ide := recordAt dir offs
  (offs + 33 + if level ≠ 0 then ((ide 32).toNat + 1) / 2 * 2 else (ide 32).toNat) ≤ dir.length ∧
    (isDotName (isoName ide) = false → PlainName (isoNames sys level ide) ∧ ∀ c, isoName ide = [c] → c < 128)

variable (sys) (level : ℕ) in
def PlainDirectory (dir : Bytes) : Prop := ∀ offs ∈ isoOffsets dir dir.length 0, PlainRecord sys level dir offs

theorem isoName_congr (h : ∀ i < 33 + (g 32).toNat, f i = g i) : isoName f = isoName g := by
  unfold isoName
  rw [h 32 (by omega)]
  refine map_congr_left fun i hi => h _ ?_
  have hlt := mem_range.1 hi
  omega

theorem jolietName_congr (h : ∀ i < 33 + ((g 32).toNat + 1) / 2 * 2, f i = g i) :
    jolietName sys f = jolietName sys g := by
  unfold jolietName
  rw [h 32 (by omega)]
  refine flatMap_congr fun i hi => ?_
  have hlt := mem_range.1 hi
  rw [h (33 + 2 * i) (by omega), h (34 + 2 * i) (by omega)]

theorem le32At_congr {i : ℕ} (h : ∀ j < i + 4, f j = g j) : le32At f i = le32At g i := by
  unfold le32At
  rw [h i (by omega), h (i + 1) (by omega), h (i + 2) (by omega), h (i + 3) (by omega)]

variable {level : ℕ}

theorem isoRecord_congr
    (h : ∀ i < 33 + if level ≠ 0 then ((g 32).toNat + 1) / 2 * 2 else (g 32).toNat, f i = g i) :
    isoRecord sys level dirPath f = isoRecord sys level dirPath g := by
  have hname : isoNames sys level f = isoNames sys level g := by
    unfold isoNames
    split_ifs at h ⊢
    · exact jolietName_congr h
    · exact isoName_congr h
  unfold isoRecord
  rw [hname, le32At_congr fun j hj => h j (by omega), le32At_congr fun j hj => h j (by omega), h 25 (by omega)]

theorem queueDirent_record :
    queueDirent sys c ide (direntName sys c.jolietLevel dirPath ide) =
      queueRecord sys c (isoRecord sys c.jolietLevel dirPath ide) := by
  simp [queueDirent, queueRecord, isoRecord, IsoRecord.start, direntName, isoNames, isoName]

theorem isDotEntry_iff (hplain : isDotName (isoName ide) = false → ∀ c, isoName ide = [c] → c < 128) :
    isDotEntry ide = isDotName (isoName ide) := by
  have hlen : (isoName ide).length = (ide 32).toNat := by
    rw [isoName, length_map, length_range]
  have hone : ide 32 = 1 → isoName ide = [ide 33] := by
    intro h
    unfold isoName
    rw [h]
    rfl
  rw [Bool.eq_iff_iff]
  unfold isDotEntry isDotName at *
  simp only [decide_eq_true_eq] at *
  constructor
  · rintro (h | ⟨h, h'⟩)
    · left
      rw [← length_eq_zero_iff, hlen, h]
      rfl
    by_contra hno
    have hname := hone h
    have hp := hplain (by simpa using hno) _ hname
    rw [hname] at hno
    have hle : ide 33 ≤ 1 := h'.resolve_right (UInt8.not_le.2 hp)
    have hcases : ide 33 = 0 ∨ ide 33 = 1 := by
      have : (ide 33).toNat ≤ 1 := hle
      rcases Nat.le_one_iff_eq_zero_or_eq_one.1 this with h0 | h1
      · exact Or.inl (UInt8.toNat_inj.1 h0)
      · exact Or.inr (UInt8.toNat_inj.1 h1)
    rcases hcases with h0 | h1
    · exact hno (Or.inr (Or.inl (by rw [h0])))
    · exact hno (Or.inr (Or.inr (by rw [h1])))
  intro h
  have hcount : (ide 32).toNat = 0 ∨ (ide 32).toNat = 1 := by
    rcases h with h | h | h
    · exact Or.inl (by rw [← hlen, h]; rfl)
    · exact Or.inr (by rw [← hlen, h]; rfl)
    · exact Or.inr (by rw [← hlen, h]; rfl)
  rcases hcount with h0 | h1
  · exact Or.inl (UInt8.toNat_inj.1 h0)
  have hide : ide 32 = 1 := UInt8.toNat_inj.1 h1
  refine Or.inr ⟨hide, Or.inl ?_⟩
  rw [hone hide] at h
  rcases h with h | h | h
  · cases h
  · rw [(cons.inj h).1]
    decide
  · rw [(cons.inj h).1]
    decide

variable (sys) in
theorem directoryLoop_records (dirPath : Bytes) {dir : Bytes} {mem : ℕ → UInt8}
    (hmem : ∀ i < dir.length, mem i = dir.getD i 0) (n : ℕ) : ∀ (offs : ℕ) (c : UnisoCtx),
    c.jolietLevel = level → (∀ o ∈ isoOffsets dir n offs, PlainRecord sys level dir o) →
    directoryLoop sys dirPath mem dir.length n offs c =
      queueRecords sys c (isoRecords sys level dirPath dir (isoOffsets dir n offs)) := by
  induction n with
  | zero => intro offs c _ _; rfl
  | succ n ih =>
    intro offs c hjoliet hplain
    rw [directoryLoop, isoOffsets] at *
    by_cases hoffs : offs < dir.length
    · simp only [if_pos hoffs, hmem offs hoffs] at hplain ⊢
      by_cases hzero : (dir.getD offs 0).toNat = 0
      · simp only [if_pos hzero] at hplain ⊢
        have hnext : offs + ((dir.getD offs 0).toNat + 1) / 2 * 2 = offs := by omega
        rw [hnext]
        exact ih _ c hjoliet hplain
      simp only [if_neg hzero] at hplain ⊢
      obtain ⟨hfits, hname⟩ := hplain offs mem_cons_self
      have hrest := fun o ho => hplain o (mem_cons_of_mem _ ho)
      -- the record in memory is that of the directory
      have hsame : ∀ i < 33 + if level ≠ 0 then ((recordAt dir offs 32).toNat + 1) / 2 * 2
          else (recordAt dir offs 32).toNat, mem (offs + i) = recordAt dir offs i :=
        fun i hi => hmem _ (by omega)
      have hraw : isoName (fun i => mem (offs + i)) = isoName (recordAt dir offs) :=
        isoName_congr fun i hi => hsame i (by split_ifs <;> omega)
      have hdot : isDotEntry (fun i => mem (offs + i)) = isDotName (isoName (recordAt dir offs)) := by
        rw [isDotEntry_iff (by rw [hraw]; exact fun h => (hname h).2), hraw]
      rw [hdot]
      match hd : isDotName (isoName (recordAt dir offs)) with
      | true =>
        rw [ih _ c hjoliet hrest]
        simp [isoRecords, hd]
      | false =>
        rw [if_neg (by decide), queueDirent_record, hjoliet, isoRecord_congr hsame, ih _ _ _ hrest]
        · simp [isoRecords, hd, queueRecords]
        · simp only [queueRecord, queueReader]
          split_ifs <;> exact hjoliet
    · simp only [if_neg hoffs]
      rfl

/-- a directory whose place is reached and that is in the image is read, and its records are queued -/
theorem unisoReadDirectory_queues (rd : UnisoReader) {c' : UnisoCtx}
    (hin : c.pos + rd.size ≤ sys.data.length)
    (hplain : PlainDirectory sys c.jolietLevel (streamBytes sys c.pos (c.pos + rd.size)))
    (hres : unisoReadDirectory sys c rd = some (0, c')) :
    ∃ calls, c' = queueRecords sys { c with pos := c.pos + rd.size, calls := calls }
        (isoEntries sys c.jolietLevel rd.name (streamBytes sys c.pos (c.pos + rd.size))) := by
  unfold unisoReadDirectory at hres
  split at hres
  · exact absurd (congrArg Prod.fst (Option.some.inj hres)) (show -enomem ≠ 0 by decide)
  next mem hheap =>
    have hadvance := advances_rule.doRead sys { c with calls := c.calls + 1 } rd.size
    simp only at hres
    by_cases hread : (doRead sys { c with calls := c.calls + 1 } rd.size).1 < 0
    · rw [if_pos hread] at hres
      have hzero := congrArg Prod.fst (Option.some.inj hres)
      omega
    rw [if_neg hread] at hres
    have hpos := (doRead_whole sys (c := { c with calls := c.calls + 1 }) hin hread).2
    set c₁ := (doRead sys { c with calls := c.calls + 1 } rd.size).2
    set dir := streamBytes sys c.pos (c.pos + rd.size) with hdir
    have hlen : dir.length = rd.size := by
      rw [streamBytes_length sys (Or.inr hin), Nat.add_sub_cancel_left]
    have hmem : ∀ i < dir.length, readTo sys mem c.pos c₁.pos i = dir.getD i 0 := by
      intro i hi
      rw [hlen] at hi
      rw [readTo, hpos, if_pos (by simp only; omega), hdir, streamBytes, Nat.add_sub_cancel_left,
        getD_eq_getElem?_getD, getD_eq_getElem?_getD, getElem?_take_of_lt hi,
        getElem?_drop]
    have hc₁ : c₁ = { c with pos := c.pos + rd.size, calls := c₁.calls } := by
      rw [hadvance, hpos]
    have hloop := directoryLoop_records sys rd.name hmem dir.length 0 c₁
      (show c₁.jolietLevel = c.jolietLevel by rw [hc₁]) hplain
    rw [hlen] at hloop
    split_ifs at hres
    refine ⟨c₁.calls, ?_⟩
    rw [← (Prod.mk.inj (Option.some.inj hres)).2, hloop, isoEntries, hlen, ← hc₁]

variable (sys level) in
/-- below a directory is what its extent says -/
def TreeOf (t : IsoRecord × IsoForest) : Prop :=
  (t.2.trees.map Prod.fst = if t.1.directory then isoEntries sys level t.1.path (t.1.bytes sys.data) else []) ∧
    t.2.Matches sys level

theorem treeOf_of_mem : ∀ {f : IsoForest}, f.Matches sys level → ∀ t ∈ f.trees, TreeOf sys level t := by
  intro f
  induction f with
  | nil => intro _ t ht; cases ht
  | cons r entries rest _ ih =>
    intro hm t ht
    rcases mem_cons.1 ht with rfl | ht
    · exact ⟨hm.1, hm.2.1⟩
    · exact ih hm.2.2 t ht

def treeRecords (t : IsoRecord × IsoForest) : List IsoRecord := t.1 :: t.2.records

theorem records_eq_trees : ∀ f : IsoForest, f.records = f.trees.flatMap treeRecords := by
  intro f
  induction f with
  | nil => rfl
  | cons r entries rest _ ih =>
    simp [IsoForest.records, IsoForest.trees, treeRecords, ih]

end Alpine

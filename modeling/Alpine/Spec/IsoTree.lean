import Alpine.Spec.Uniso

/-! The directory tree of an ISO 9660 image, as the image alone has it: the records of a directory in
the order of its extent, each with the records below it. The names of the records are those of the
descriptor that the root directory is from: bytes, or wide characters if it is a Joliet one. -/

namespace Alpine

/-- a directory record; the extent is the number of its first block -/
structure IsoRecord where
  path : Bytes
  extent : ℕ
  size : ℕ
  directory : Bool
  deriving DecidableEq

namespace IsoRecord

def start (r : IsoRecord) : ℕ := r.extent * isofsBlockSize

def stop (r : IsoRecord) : ℕ := r.start + r.size

/-- the extent in the image -/
def bytes (r : IsoRecord) (image : Bytes) : Bytes := (image.drop r.start).take r.size

end IsoRecord

/-- where the records of a directory are; a length of zero ends the records of a block -/
def isoOffsets (dir : Bytes) : ℕ → ℕ → List ℕ
  | 0, _ => []
  | n + 1, offs =>
    if offs < dir.length then
      let length := (dir.getD offs 0).toNat
      if length = 0 then isoOffsets dir n (offs / isofsBlockSize * isofsBlockSize + isofsBlockSize)
      else offs :: isoOffsets dir n (offs + (length + 1) / 2 * 2)
    else []

/-- memory from an offset on -/
def recordAt (dir : Bytes) (offs : ℕ) : ℕ → UInt8 := fun i => dir.getD (offs + i) 0

def isoName (ide : ℕ → UInt8) : Bytes := (List.range (ide 32).toNat).map fun i => ide (33 + i)

/-- the names of the directory itself and of the one above it -/
def isDotName (name : Bytes) : Bool := name = [] ∨ name = [0] ∨ name = [1]

variable (sys : UnisoSys) (level : ℕ)

def isoNames (ide : ℕ → UInt8) : Bytes := if level ≠ 0 then jolietName sys ide else isoName ide

def isoRecord (dirPath : Bytes) (ide : ℕ → UInt8) : IsoRecord :=
  ⟨dirPath ++ asc '/' :: isoNames sys level ide, le32At ide 2, le32At ide 10, ide 25 &&& 2 ≠ 0⟩

/-- the records at some offsets -/
def isoRecords (dirPath dir : Bytes) (offsets : List ℕ) : List IsoRecord :=
  ((offsets.map (recordAt dir)).filter fun ide => !isDotName (isoName ide)).map (isoRecord sys level dirPath)

def isoEntries (dirPath dir : Bytes) : List IsoRecord :=
  isoRecords sys level dirPath dir (isoOffsets dir dir.length 0)

/-- the entries of a directory, each with those below it -/
inductive IsoForest
  | nil
  | cons (record : IsoRecord) (entries rest : IsoForest)

namespace IsoForest

def trees : IsoForest → List (IsoRecord × IsoForest)
  | nil => []
  | cons r entries rest => (r, entries) :: rest.trees

def records : IsoForest → List IsoRecord
  | nil => []
  | cons r entries rest => r :: (entries.records ++ rest.records)

/-- below each directory are the records of its extent, below a file there is nothing -/
def Matches : IsoForest → Prop
  | nil => True
  | cons r entries rest =>
    (entries.trees.map Prod.fst = if r.directory then isoEntries sys level r.path (r.bytes sys.data) else []) ∧
      entries.Matches ∧ rest.Matches

end IsoForest

/-- a volume descriptor of an image -/
def volumeAt (image : Bytes) (i : ℕ) : ℕ → UInt8 := recordAt image ((16 + i) * isofsBlockSize)

/-- the record of the root directory in a volume descriptor -/
def volumeRecord (block : ℕ → UInt8) : IsoRecord :=
  ⟨[asc '.'], le32At block 158, le32At block 166, block 181 &&& 2 ≠ 0⟩

/-- the Joliet level after some descriptors, and the root directory: that of the last Joliet descriptor, or
of the last primary one if there is none -/
def volumeTree (image : Bytes) : ℕ → ℕ × Option IsoRecord
  | 0 => (0, none)
  | i + 1 =>
    let tree := volumeTree image i
    let block := volumeAt image i
    if block 0 = isofsVdPrimary then (tree.1, if tree.1 = 0 then some (volumeRecord block) else tree.2)
    else if block 0 = isofsVdSupplementary ∧ jolietStep block ≠ 0 then
      (tree.1 + jolietStep block, some (volumeRecord block))
    else tree

/-- the volume descriptors up to their terminator -/
structure VolumeRoot (image : Bytes) (root : IsoRecord) (level count : ℕ) : Prop where
  inside : (16 + count + 1) * isofsBlockSize ≤ image.length
  id : ∀ i ≤ count, hasStandardId (volumeAt image i) = true
  open_ : ∀ i < count, volumeAt image i 0 ≠ isofsVdEnd
  ends : volumeAt image count 0 = isofsVdEnd
  tree : volumeTree image count = (level, some root)

end Alpine

import Alpine.Spec.Adb

/-! The values of an ADB database and its container (`adb.c`, `adb.h`), written and read back. The
writer keeps its data in one allocation that it grows: a store outside of it has no result here,
nor has a failed assertion or a loop that does not end. The contents of fresh memory are a
parameter, and so is the hash of the cache. -/

namespace Alpine

def htole64 (n : ℕ) : Bytes := htole32 n ++ htole32 (n / 2 ^ 32)

/-- `struct adb_block` in memory -/
def AdbBlock.bytes (b : AdbBlock) : Bytes := htole32 b.typeSize ++ [0, 0, 0, 0] ++ htole64 b.xSize

def adbBlockInit (type length : ℕ) : AdbBlock :=
  if length ≤ 0x3fffffff - 4 then ⟨(type * 2 ^ 30 % 2 ^ 32 + 4 + length) % 2 ^ 32, 0⟩
  else ⟨(adbBlockExt * 2 ^ 30 + type) % 2 ^ 32, (16 + length) % 2 ^ 64⟩

/-- `apk_blob_t`: the length is a `long` -/
def Blob : Type := { b : Bytes // b.length < 2 ^ 63 }

/-- `adb_c_block` onto a stream that takes all that is written -/
def adbCBlock (os : Bytes) (type : ℕ) (val : Blob) : Bytes :=
  let blk := adbBlockInit type val.1.length
  os ++ blk.bytes.take (adbBlockHdrsize blk) ++ val.1 ++ List.replicate (adbBlockPadding blk) 0

/-- `adb_block_blob` of a block at an offset -/
def adbBlockBlob (data : Bytes) (pos : ℕ) (blk : AdbBlock) : Bytes :=
  (data.drop (pos + adbBlockHdrsize blk)).take (adbBlockLength blk)

/-- `adb_foreach_block` from an offset on: the blocks with their offsets, and 0 or the error it
ends with; `none` if it has not ended after some rounds -/
def adbForeachBlock (data : Bytes) : ℕ → ℕ → Option (List (ℕ × AdbBlock) × ℤ)
  | 0, _ => none
  | n + 1, pos =>
    match adbBlockValidate data pos with
    | .error e => some ([], e)
    | .ok none => some ([], 0)
    | .ok (some blk) =>
      (adbForeachBlock data n (pos + adbBlockSize blk)).map fun r => ((pos, blk) :: r.1, r.2)

def adbTypeSpecial : ℕ := 0x00000000
def adbTypeInt : ℕ := 0x10000000
def adbTypeInt32 : ℕ := 0x20000000
def adbTypeInt64 : ℕ := 0x30000000
def adbTypeBlob8 : ℕ := 0x80000000
def adbTypeBlob16 : ℕ := 0x90000000
def adbTypeBlob32 : ℕ := 0xa0000000
def adbTypeArray : ℕ := 0xd0000000
def adbTypeObject : ℕ := 0xe0000000

/-- `ADB_VAL`: an `adb_val_t` is 32 bits wide -/
def adbVal (type val : ℕ) : ℕ := (type ||| val) % 2 ^ 32

def adbValType (v : ℕ) : ℕ := v &&& 0xf0000000

def adbValValue (v : ℕ) : ℕ := v &&& 0x0fffffff

def adbNull : ℕ := 0

/-- `adb_r_deref`: the bytes from there on -/
def adbRDeref (adb : Bytes) (v offs s : ℕ) : Option Bytes :=
  if adb.length < offs + adbValValue v + s then none else some (adb.drop (offs + adbValValue v))

def adbRInt (adb : Bytes) (v : ℕ) : ℕ :=
  if adbValType v = adbTypeInt then adbValValue v
  else if adbValType v = adbTypeInt32 then
    (adbRDeref adb v 0 4).elim 0 fun p => leNat (p.take 4)
  else if adbValType v = adbTypeInt64 then
    (adbRDeref adb v 0 8).elim 0 fun p => leNat (p.take 8)
  else 0

/-- the three cases of `adb_r_blob`, with the width of the length -/
def adbRBlobOf (adb : Bytes) (v width : ℕ) : Option Bytes :=
  (adbRDeref adb v 0 width).bind fun p =>
    let len := leNat (p.take width)
    (adbRDeref adb v width len).map fun q => q.take len

def adbRBlob (adb : Bytes) (v : ℕ) : Option Bytes :=
  if adbValType v = adbTypeBlob8 then adbRBlobOf adb v 1
  else if adbValType v = adbTypeBlob16 then adbRBlobOf adb v 2
  else if adbValType v = adbTypeBlob32 then adbRBlobOf adb v 4
  else none

/-- `struct adb_obj` as it is read: `obj` holds the entries and, before them, their number -/
structure AdbObj where
  num : ℕ
  obj : List ℕ
  deriving DecidableEq

/-- the first words of some bytes -/
def wordsOf : ℕ → Bytes → List ℕ
  | 0, _ => []
  | n + 1, b => leNat (b.take 4) :: wordsOf n (b.drop 4)

/-- an object without entries, which is also what every error gives -/
def emptyObj : AdbObj := ⟨1, []⟩

def adbRObj (adb : Bytes) (v : ℕ) : AdbObj :=
  if adbValType v ≠ adbTypeArray ∧ adbValType v ≠ adbTypeObject then emptyObj
  else
    match adbRDeref adb v 0 4 with
    | none => emptyObj
    | some p =>
      let num := leNat (p.take 4)
      if num = 0 then emptyObj
      else
        match adbRDeref adb v 0 (4 * num) with
        | none => emptyObj
        | some p => ⟨num, wordsOf num p⟩

def adbRoVal (o : AdbObj) (i : ℕ) : ℕ := if o.num ≤ i then adbNull else o.obj.getD i adbNull

/-- `struct adb_w_bucket_entry` -/
structure AdbEntry where
  hash : ℕ
  offs : ℕ
  len : ℕ
  deriving DecidableEq

/-- `struct adb` of a writer. The allocation is `alloc_len` bytes long. The list of a bucket holds
the entries that are in use: they are filled in the order in which they are searched. -/
structure AdbWriter where
  mem : Bytes
  len : ℕ
  numBuckets : ℕ
  noCache : ℕ
  bucket : ℕ → List AdbEntry

/-- the database as it is read -/
def AdbWriter.adb (db : AdbWriter) : Bytes := db.mem.take db.len

/-- a store into the allocation -/
def poke (mem : Bytes) (offs : ℕ) (b : Bytes) : Option Bytes :=
  if mem.length < offs + b.length then none
  else some (mem.take offs ++ b ++ mem.drop (offs + b.length))

def roundUp (x a : ℕ) : ℕ := (x + (a - 1)) / a * a

/-- the loop that doubles `alloc_len`, a `uint32_t` that stays 0 once it has overflowed -/
def growAlloc (need : ℕ) : ℕ → ℕ → Option ℕ
  | 0, _ => none
  | k + 1, alloc => if alloc < need then growAlloc need k (alloc * 2 % 2 ^ 32) else some alloc

section

-- the bytes of memory that nothing has been written to
variable (fresh : ℕ → UInt8)

def reallocMem (mem : Bytes) (size : ℕ) : Bytes :=
  mem ++ (List.range (size - mem.length)).map fresh

variable (db : AdbWriter)

/-- the allocation once it has room for `need` bytes -/
def adbWReserve (mem : Bytes) (need : ℕ) : Option Bytes :=
  if mem.length < need then
    if db.numBuckets = 0 then none
    else (growAlloc need 33 (if mem.length = 0 then 8192 else mem.length)).map (reallocMem fresh mem)
  else some mem

/-- `adb_w_raw`: the offset of the data -/
def adbWRaw (vec : List Bytes) (alignment : ℕ) : Option (ℕ × AdbWriter) :=
  let offs := roundUp db.len alignment
  -- the padding is stored before the size is looked at
  (poke db.mem db.len (List.replicate (offs - db.len) 0)).bind fun mem =>
    (adbWReserve fresh db mem (offs + vec.flatten.length)).bind fun mem =>
      (poke mem offs vec.flatten).map fun mem =>
        (offs, { db with mem := mem, len := offs + vec.flatten.length })

/-- where the search of a bucket ends: at data that is there already, or at the entry for it -/
inductive AdbSlot
  | found (offs : ℕ)
  | store (i : ℕ)
  deriving DecidableEq

def findSlot (adb : Bytes) (hash : ℕ) (data : Bytes) (alignment : ℕ) : List AdbEntry → ℕ → AdbSlot
  | [], i => .store i
  | e :: es, i =>
    if e.hash = hash ∧ e.len = data.length ∧ (adb.drop e.offs).take data.length = data then
      -- an entry at an offset that does not do is used for the new one
      if e.offs % alignment ≠ 0 then .store i else .found e.offs
    else findSlot adb hash data alignment es (i + 1)

def storeEntry (es : List AdbEntry) (i : ℕ) (e : AdbEntry) : List AdbEntry :=
  es.take i ++ e :: es.drop (i + 1)

-- `iovec_hash`
variable (hash : List Bytes → ℕ)

def adbWData (db : AdbWriter) (vec : List Bytes) (alignment : ℕ) : Option (ℕ × AdbWriter) :=
  if db.noCache ≠ 0 then adbWRaw fresh db vec alignment
  else
    let h := hash vec
    let no := h % db.numBuckets
    match findSlot db.mem h vec.flatten alignment (db.bucket no) 0 with
    | .found offs => some (offs, db)
    | .store i =>
      -- the entry is of 32 bit numbers, and its offset is what is returned
      (adbWRaw fresh db vec alignment).map fun r =>
        let es := storeEntry (db.bucket no) i ⟨h, r.1 % 2 ^ 32, vec.flatten.length % 2 ^ 32⟩
        (r.1 % 2 ^ 32, { r.2 with bucket := Function.update db.bucket no es })

/-- the value that refers to data -/
def adbWVal (db : AdbWriter) (type : ℕ) (vec : List Bytes) (alignment : ℕ) : Option (ℕ × AdbWriter) :=
  (adbWData fresh hash db vec alignment).map fun r => (adbVal type r.1, r.2)

def adbWBlobVec (db : AdbWriter) (b : List Bytes) : Option (ℕ × AdbWriter) :=
  let sz := b.flatten.length
  if 4 < b.length then none
  else if 0xffff < sz then adbWVal fresh hash db adbTypeBlob32 (htole32 sz :: b) 4
  else if 0xff < sz then adbWVal fresh hash db adbTypeBlob16 ((htole32 sz).take 2 :: b) 2
  else if 0 < sz then adbWVal fresh hash db adbTypeBlob8 ((htole32 sz).take 1 :: b) 1
  else some (adbNull, db)

def adbWBlob (db : AdbWriter) (b : Bytes) : Option (ℕ × AdbWriter) := adbWBlobVec fresh hash db [b]

/-- `adb_w_blob_raw`; `no_cache` is 8 bits wide -/
def adbWBlobRaw (db : AdbWriter) (b : Bytes) : Option (ℕ × AdbWriter) :=
  (adbWBlob fresh hash { db with noCache := (db.noCache + 1) % 2 ^ 8 } b).map fun r =>
    (r.1, { r.2 with noCache := (r.2.noCache + 2 ^ 8 - 1) % 2 ^ 8 })

def adbWInt (db : AdbWriter) (val : ℕ) : Option (ℕ × AdbWriter) :=
  if 0x100000000 ≤ val then adbWVal fresh hash db adbTypeInt64 [htole64 val] 4
  else if 0x10000000 ≤ val then adbWVal fresh hash db adbTypeInt32 [htole32 val] 4
  else some (adbVal adbTypeInt val, db)

/-- `__adb_w_obj` of the entries after `pre_commit`; those at the end that are null are left out -/
def adbWObj (db : AdbWriter) (type : ℕ) (vals : List ℕ) : Option (ℕ × AdbWriter) :=
  let vals := vals.rdropWhile (· = adbNull)
  if vals = [] then some (adbNull, db)
  else adbWVal fresh hash db type [((vals.length + 1) :: vals).flatMap htole32] 4

/-- `adb_w_adb`: another database as a blob that holds one block -/
def adbWAdb (db : AdbWriter) (valdb : Bytes) : Option (ℕ × AdbWriter) :=
  let blk := adbBlockInit adbBlockAdb valdb.length
  let vec := [blk.bytes.take (adbBlockHdrsize blk), valdb,
    List.replicate (adbBlockPadding blk) 0]
  if valdb.length ≤ 8 then some (adbNull, db)
  else (adbWRaw fresh db (htole32 vec.flatten.length :: vec) 4).map fun r =>
    (adbVal adbTypeBlob32 r.1, r.2)

def adbWRoot (db : AdbWriter) (rootVal : ℕ) : Option AdbWriter :=
  if db.len < 8 then none
  else (poke db.mem 4 (htole32 rootVal)).map fun mem => { db with mem := mem }

/-- `struct adb_hdr` of a new database -/
def adbHdr : Bytes := List.replicate 8 0

def adbWInitDynamic (numBuckets : ℕ) : Option AdbWriter :=
  (adbWRaw fresh ⟨[], 0, numBuckets, if numBuckets = 0 then 1 else 0, fun _ => []⟩ [adbHdr] 8).map
    (·.2)

inductive AdbWrite
  | int (val : UInt64)
  | blobVec (b : { b : List Bytes // b.length ≤ 4 })
  | blobRaw (b : Bytes)
  | obj (vals : List UInt32)
  | arr (vals : List UInt32)
  | adb (valdb : Blob)
  | root (val : UInt32)

/-- a write with the value it returns, which is null for that of the root -/
def adbWrite (db : AdbWriter) : AdbWrite → Option (ℕ × AdbWriter)
  | .int val => adbWInt fresh hash db val.toNat
  | .blobVec b => adbWBlobVec fresh hash db b.1
  | .blobRaw b => adbWBlobRaw fresh hash db b
  | .obj vals => adbWObj fresh hash db adbTypeObject (vals.map UInt32.toNat)
  | .arr vals => adbWObj fresh hash db adbTypeArray (vals.map UInt32.toNat)
  | .adb valdb => adbWAdb fresh db valdb.1
  | .root val => (adbWRoot db val.toNat).map fun db => (adbNull, db)

def adbWrites (db : AdbWriter) : List AdbWrite → Option (List ℕ × AdbWriter)
  | [] => some ([], db)
  | w :: ws =>
    (adbWrite fresh hash db w).bind fun r =>
      (adbWrites r.2 ws).map fun s => (r.1 :: s.1, s.2)

end

end Alpine

import Alpine.Spec.Fdb

/-! `uniso.c`: an ISO 9660 image is unpacked from a stream that is only read forward. Readers wait in a
queue for their offsets, and a directory queues those of its entries. What the system answers is a
parameter, and so is what memory holds that nothing was written to. Paths are compared as texts, and
directories are not kept: `mkdir` is not asked whether it worked. A path that does not fit its buffer
has no result. -/

namespace Alpine

structure UnisoFs where
  inode : Bytes → Option ℕ
  content : ℕ → Bytes
  next : ℕ
  used : ∀ path k, inode path = some k → k < next

def UnisoFs.read (fs : UnisoFs) (path : Bytes) : Option Bytes := (fs.inode path).map fs.content

variable (fs : UnisoFs) (k : ℕ)

def UnisoFs.setContent (b : Bytes) : UnisoFs :=
  { fs with content := Function.update fs.content k b }

def UnisoFs.write (pos : ℕ) (b : Bytes) : UnisoFs :=
  fs.setContent k ((fs.content k).take pos ++ b ++ (fs.content k).drop (pos + b.length))

def UnisoFs.allocate (size : ℕ) : UnisoFs :=
  fs.setContent k (fs.content k ++ List.replicate (size - (fs.content k).length) 0)

def UnisoFs.link {k : ℕ} (hk : k < fs.next) (path : Bytes) : UnisoFs where
  inode := Function.update fs.inode path (some k)
  content := fs.content
  next := fs.next
  used p j h := by
    by_cases hp : p = path
    · rw [hp, Function.update_self] at h
      exact Option.some.inj h ▸ hk
    · rw [Function.update_of_ne hp] at h
      exact fs.used p j h

def UnisoFs.add (path : Bytes) : UnisoFs where
  inode := Function.update fs.inode path (some fs.next)
  content := Function.update fs.content fs.next []
  next := fs.next + 1
  used p j h := by
    by_cases hp : p = path
    · rw [hp, Function.update_self] at h
      exact Option.some.inj h ▸ Nat.lt_succ_self _
    · rw [Function.update_of_ne hp] at h
      exact Nat.lt_succ_of_lt (fs.used p j h)

def UnisoFs.create (path : Bytes) : UnisoFs × ℕ :=
  match fs.inode path with
  | some k => (fs.setContent k [], k)
  | none => (fs.add path, fs.next)

/-- what the system answers, by the number of the call where that matters -/
structure UnisoSys where
  data : Bytes
  /-- `read`: an error, or how many bytes are moved at most, less one -/
  reads : ℕ → Except ℕ ℕ
  splices : ℕ → Except ℕ ℕ
  writes : ℕ → Except ℕ ℕ
  opens : ℕ → Except ℕ Unit
  allocates : ℕ → Except ℕ Unit
  /-- whether `link` works, where there is a file to link and the new name is free -/
  links : ℕ → Bool
  fs : UnisoFs
  /-- the bytes of a wide character in the locale -/
  wctomb : ℕ → Option Bytes
  seeks : Bool
  heap : ℕ → Option (ℕ → UInt8)
  /-- what `buf` and `root_dir` of `uniso_read_volume_descriptor` hold at its start -/
  buf : ℕ → UInt8
  rootDir : ℕ → UInt8
  diskFree : ℕ
  blockSize : ℕ

inductive UnisoHandler
  | volumeDescriptor
  | directory
  | file
  deriving DecidableEq

structure UnisoReader where
  offset : ℕ
  handler : UnisoHandler
  size : ℕ
  name : Bytes
  deriving DecidableEq

/-- `struct uniso_context`, with the number of system calls made, the files, the inode and the
position of the file that is written, and the static variables of `uniso_read_file` and
`link_or_clone` -/
structure UnisoCtx where
  pos : ℕ
  skipMethod : ℕ
  copyMethod : ℕ
  jolietLevel : ℕ
  lastQueuedRead : ℕ
  diskNeeded : ℕ
  parserHead : List UnisoReader
  calls : ℕ
  fs : UnisoFs
  fd : ℕ × ℕ
  prevOffset : ℕ
  prevName : Bytes
  prevSize : ℕ
  cloneBuf : ℕ → UInt8

def isofsBlockSize : ℕ := 2048
def isofsTmpbufSize : ℕ := 32 * isofsBlockSize

def emediumtype : ℤ := 124

section

variable (sys : UnisoSys)

def negErrno (e : ℕ) : ℤ := -(e + 1)

/-- one `read` or `splice` of at most `n` bytes, none of them at the end of the stream -/
def moveBytes (answers : ℕ → Except ℕ ℕ) (ctx : UnisoCtx) (n : ℕ) : Except ℤ ℕ × UnisoCtx :=
  match answers ctx.calls with
  | .error e => (.error (negErrno e), { ctx with calls := ctx.calls + 1 })
  | .ok m =>
    let k := min (m + 1) (min n (sys.data.length - ctx.pos))
    (.ok k, { ctx with pos := ctx.pos + k, calls := ctx.calls + 1 })

/-- the loop of `do_read`; `left` is at most the first argument, since each round but the last takes
a byte from it -/
def doReadLoop (bytes : ℕ) : ℕ → ℕ → UnisoCtx → ℤ × UnisoCtx
  | 0, left, ctx => ((bytes : ℤ) - left, ctx)
  | n + 1, left, ctx =>
    if left = 0 then (bytes, ctx)
    else
      match moveBytes sys sys.reads ctx left with
      | (.error e, ctx) => (e, ctx)
      | (.ok k, ctx) => if k = 0 then ((bytes : ℤ) - left, ctx) else doReadLoop bytes n (left - k) ctx

variable (ctx : UnisoCtx) (bytes n : ℕ) (rd : UnisoReader) (ide buf : ℕ → UInt8)

/-- `do_read`; as an `int` a larger size is negative, and `read` refuses it -/
def doRead : ℤ × UnisoCtx :=
  if 2 ^ 31 ≤ bytes then (-einval, { ctx with calls := ctx.calls + 1 })
  else doReadLoop sys bytes bytes bytes ctx

def streamBytes (pos pos' : ℕ) : Bytes := (sys.data.drop pos).take (pos' - pos)

def putBytes (b : Bytes) : UnisoCtx :=
  { ctx with fs := ctx.fs.write ctx.fd.1 ctx.fd.2 b, fd := (ctx.fd.1, ctx.fd.2 + b.length) }

def spliceTo (toFile : Bool) (ctx ctx' : UnisoCtx) : UnisoCtx :=
  if toFile then putBytes ctx' (streamBytes sys ctx.pos ctx'.pos) else ctx'

/-- the loop of `do_splice`, to a file or to nowhere. `left` can be negative; each round but the last
moves a byte -/
def doSpliceLoop (toFile : Bool) (bytes : ℕ) : ℕ → ℤ → UnisoCtx → ℤ × UnisoCtx
  | 0, left, ctx => (toInt32 (bytes - left), ctx)
  | n + 1, left, ctx =>
    if left = 0 then (toInt32 bytes, ctx)
    else
      match moveBytes sys sys.splices ctx (if left < 0 then sys.data.length else left.toNat) with
      | (.error e, ctx) => (e, ctx)
      | (.ok k, ctx') =>
        if k = 0 then (toInt32 (bytes - left), ctx')
        else doSpliceLoop toFile bytes n (left - k) (spliceTo sys toFile ctx ctx')

def doSplice (toFile : Bool) (ctx : UnisoCtx) (bytes : ℕ) : ℤ × UnisoCtx :=
  doSpliceLoop sys toFile bytes (sys.data.length + 1) (toInt32 bytes) ctx

/-- the third way of `do_skip`: reading to nowhere. A read that is short counts as a whole one -/
def skipReadLoop (bytes : ℕ) : ℕ → ℤ → UnisoCtx → ℤ × UnisoCtx
  | 0, left, ctx => (toInt32 (bytes - left), ctx)
  | n + 1, left, ctx =>
    if left = 0 then (toInt32 bytes, ctx)
    else
      let now := if (isofsTmpbufSize : ℤ) < left then (isofsTmpbufSize : ℤ) else left
      -- a negative number is passed on as a huge one
      match doRead sys ctx (if now < 0 then 2 ^ 31 else now.toNat) with
      | (r, ctx) =>
        if r < 0 then (r, ctx)
        else if r = 0 then (toInt32 (bytes - left), ctx)
        else skipReadLoop bytes n (left - now) ctx

def skipSplice : ℤ × UnisoCtx :=
  let p := if ctx.skipMethod = 1 then doSplice sys false ctx bytes else (-1, ctx)
  if 0 ≤ p.1 then p
  else skipReadLoop sys bytes bytes (toInt32 bytes) { p.2 with skipMethod := 2 }

def doSkip : ℤ × UnisoCtx :=
  if ctx.skipMethod = 0 then
    if sys.seeks then (toInt32 bytes, { ctx with pos := ctx.pos + bytes })
    else skipSplice sys { ctx with skipMethod := 1 } bytes
  else skipSplice sys ctx bytes

/-- `do_write`, whose rounds each write a byte -/
def doWriteLoop (bytes : ℕ) : ℕ → Bytes → UnisoCtx → ℤ × UnisoCtx
  | 0, _, ctx => (bytes, ctx)
  | n + 1, buf, ctx =>
    if buf = [] then (bytes, ctx)
    else
      match sys.writes ctx.calls with
      | .error e => (negErrno e, { ctx with calls := ctx.calls + 1 })
      | .ok m => doWriteLoop bytes n (buf.drop (m + 1))
          (putBytes { ctx with calls := ctx.calls + 1 } (buf.take (m + 1)))

def doWrite (buf : Bytes) : ℤ × UnisoCtx :=
  doWriteLoop sys buf.length buf.length buf ctx

def copyLoop (bytes : ℕ) : ℕ → ℤ → UnisoCtx → ℤ × UnisoCtx
  | 0, _, ctx => (toInt32 bytes, ctx)
  | n + 1, left, ctx =>
    if left = 0 then (toInt32 bytes, ctx)
    else
      let now := if (isofsTmpbufSize : ℤ) < left then (isofsTmpbufSize : ℤ) else left
      match doRead sys ctx (if now < 0 then 2 ^ 31 else now.toNat) with
      | (r, ctx') =>
        if r ≤ 0 then (if r < 0 then r else -eio, ctx')
        else
          match doWrite sys ctx' (streamBytes sys ctx.pos ctx'.pos) with
          | (w, ctx) =>
            if w ≠ r then (if w < 0 then w else -eio, ctx) else copyLoop bytes n (left - r) ctx

def doCopy : ℤ × UnisoCtx :=
  let p := if ctx.copyMethod = 0 then doSplice sys true ctx bytes else (-1, ctx)
  if 0 ≤ p.1 then p
  else copyLoop sys bytes bytes (toInt32 bytes) { p.2 with copyMethod := 2 }

def listAddSorted (queue : List UnisoReader) (reader : UnisoReader) : List UnisoReader :=
  queue.rdropWhile (fun r => reader.offset ≤ r.offset) ++
    reader :: queue.rtakeWhile (fun r => reader.offset ≤ r.offset)

def queueReader (reader : UnisoReader) : ℤ × UnisoCtx :=
  if reader.offset < ctx.pos then (-1, ctx)
  else if ctx.lastQueuedRead ≤ reader.offset ∨ ctx.parserHead = [] then
    (0, { ctx with lastQueuedRead := reader.offset, parserHead := ctx.parserHead ++ [reader] })
  else (0, { ctx with parserHead := listAddSorted ctx.parserHead reader })

def le32At (mem : ℕ → UInt8) (i : ℕ) : ℕ := leNat [mem i, mem (i + 1), mem (i + 2), mem (i + 3)]

/-- `queue_dirent` of a directory record; the offset is counted in 32 bits -/
def queueDirent (name : Bytes) : ℤ × UnisoCtx :=
  let size := le32At ide 10
  let directory := ide 25 &&& 2 ≠ 0
  let blocks := if directory then 0 else (size + sys.blockSize - 1) / sys.blockSize
  queueReader { ctx with diskNeeded := ctx.diskNeeded + blocks }
    ⟨le32At ide 2 * isofsBlockSize % 2 ^ 32, if directory then .directory else .file, size, cstr name⟩

/-- the loop of `link_or_clone` from one inode to another, at a position in each of them. Whatever
`read` puts in the buffer, as much is written as was asked for; how much of it is not looked at. -/
def cloneLoop (src dst : ℕ) : ℕ → ℕ → ℕ → ℕ → UnisoCtx → UnisoCtx
  | 0, _, _, _, ctx => ctx
  | n + 1, bytes, srcPos, dstPos, ctx =>
    if bytes = 0 then ctx
    else
      let now := min bytes isofsTmpbufSize
      match sys.reads ctx.calls with
      | .error _ => { ctx with calls := ctx.calls + 1 }
      | .ok m =>
        let got := ((ctx.fs.content src).drop srcPos).take (min (m + 1) now)
        let buf := fun i => got.getD i (ctx.cloneBuf i)
        match sys.writes (ctx.calls + 1) with
        | .error _ => { ctx with calls := ctx.calls + 2, cloneBuf := buf }
        | .ok w =>
          let put := (List.range (min (w + 1) now)).map buf
          cloneLoop src dst n (bytes - now) (srcPos + got.length) (dstPos + put.length)
            { ctx with calls := ctx.calls + 2, cloneBuf := buf, fs := ctx.fs.write dst dstPos put }

/-- `link_or_clone`; of its result only a warning depends -/
def linkOrClone (src dst : Bytes) (bytes : ℕ) : UnisoCtx :=
  match h : ctx.fs.inode src with
  | none => { ctx with calls := ctx.calls + 2 }
  | some k =>
    if sys.links ctx.calls ∧ ctx.fs.inode dst = none then
      { ctx with calls := ctx.calls + 1, fs := ctx.fs.link (ctx.fs.used src k h) dst }
    else
      match sys.opens (ctx.calls + 1), sys.opens (ctx.calls + 2) with
      | .ok (), .ok () =>
        let p := ctx.fs.create dst
        cloneLoop sys k p.2 bytes bytes 0 0 { ctx with calls := ctx.calls + 3, fs := p.1 }
      | _, _ => { ctx with calls := ctx.calls + 3 }

def openFile : ℤ × UnisoCtx :=
  match sys.opens ctx.calls with
  | .error e => (negErrno e, { ctx with calls := ctx.calls + 1 })
  | .ok () =>
    let p := ctx.fs.create rd.name
    if rd.size = 0 then (0, { ctx with calls := ctx.calls + 1, fs := p.1, fd := (p.2, 0) })
    else
      match sys.allocates (ctx.calls + 1) with
      | .error e => (negErrno e, { ctx with calls := ctx.calls + 2, fs := p.1, fd := (p.2, 0) })
      | .ok () =>
        (0, { ctx with calls := ctx.calls + 2, fs := p.1.allocate p.2 rd.size, fd := (p.2, 0) })

def unisoReadFile : ℤ × UnisoCtx :=
  if sys.diskFree ≠ 0 ∧ sys.diskFree < ctx.diskNeeded then (-enospc, ctx)
  else if rd.offset < ctx.pos then
    (0, if rd.offset = ctx.prevOffset then linkOrClone sys ctx ctx.prevName rd.name ctx.prevSize else ctx)
  else
    match openFile sys { ctx with
      prevOffset := rd.offset, prevName := rd.name.take 512, prevSize := rd.size } rd with
    | (r, ctx) =>
      if r < 0 then (r, ctx)
      else
        match doCopy sys ctx rd.size with
        | (rc, ctx) => if rc < 0 then (rc, ctx) else if rc ≠ rd.size then (-eio, ctx) else (0, ctx)

def readTo (mem : ℕ → UInt8) (pos pos' : ℕ) : ℕ → UInt8 :=
  fun i => if i < pos' - pos then sys.data.getD (pos + i) 0 else mem i

/-- `.` and `..`; a `char` above 127 is negative -/
def isDotEntry : Bool :=
  ide 32 = 0 ∨ (ide 32 = 1 ∧ (ide 33 ≤ 1 ∨ 128 ≤ ide 33))

def jolietName : Bytes :=
  (List.range (((ide 32).toNat + 1) / 2)).flatMap fun i =>
    (sys.wctomb ((ide (33 + 2 * i)).toNat * 256 + (ide (34 + 2 * i)).toNat)).getD [asc '?']

def direntName (jolietLevel : ℕ) (dirName : Bytes) (ide : ℕ → UInt8) : Bytes :=
  dirName ++ asc '/' :: (if jolietLevel ≠ 0 then jolietName sys ide
    else (List.range (ide 32).toNat).map fun i => ide (33 + i))

/-- the paths of the records of a directory fit `buf`, in which they are put together -/
def pathsFit (jolietLevel : ℕ) (dirName : Bytes) (mem : ℕ → UInt8) (size : ℕ) : ℕ → ℕ → Bool
  | 0, _ => true
  | n + 1, offs =>
    if offs < size then
      let length := (mem offs).toNat
      let next := offs + (length + 1) / 2 * 2
      if length = 0 then
        pathsFit jolietLevel dirName mem size n (next / isofsBlockSize * isofsBlockSize + isofsBlockSize)
      else if isDotEntry (fun i => mem (offs + i)) then pathsFit jolietLevel dirName mem size n next
      else decide ((direntName sys jolietLevel dirName fun i => mem (offs + i)).length < 512) &&
        pathsFit jolietLevel dirName mem size n next
    else true

/-- the loop over the records of a directory, each of which takes at least two bytes -/
def directoryLoop (dirName : Bytes) (mem : ℕ → UInt8) (size : ℕ) : ℕ → ℕ → UnisoCtx → UnisoCtx
  | 0, _, ctx => ctx
  | n + 1, offs, ctx =>
    if offs < size then
      let length := (mem offs).toNat
      let next := offs + (length + 1) / 2 * 2
      if length = 0 then
        directoryLoop dirName mem size n (next / isofsBlockSize * isofsBlockSize + isofsBlockSize) ctx
      else if isDotEntry (fun i => mem (offs + i)) then directoryLoop dirName mem size n next ctx
      else directoryLoop dirName mem size n next (queueDirent sys ctx (fun i => mem (offs + i))
        (direntName sys ctx.jolietLevel dirName fun i => mem (offs + i))).2
    else ctx

def unisoReadDirectory : Option (ℤ × UnisoCtx) :=
  match sys.heap ctx.calls with
  | none => some (-enomem, ctx)
  | some mem =>
    match doRead sys { ctx with calls := ctx.calls + 1 } rd.size with
    | (r, ctx') =>
      let mem := readTo sys mem ctx.pos ctx'.pos
      if r < 0 then some (r, ctx')
      else if rd.name.length + 1 < 512 ∧ pathsFit sys ctx.jolietLevel rd.name mem rd.size rd.size 0 then
        some (0, directoryLoop sys rd.name mem rd.size rd.size 0 ctx')
      else none

def isofsVdPrimary : UInt8 := 1
def isofsVdSupplementary : UInt8 := 2
def isofsVdEnd : UInt8 := 255

def isofsStandardId : Bytes := ascs ['C', 'D', '0', '0', '1']

def hasStandardId : Bool :=
  [buf 1, buf 2, buf 3, buf 4, buf 5] = isofsStandardId

def jolietStep : ℕ :=
  if buf 88 = 0x25 ∧ buf 89 = 0x2f then
    if buf 90 = 0x45 then 3 else if buf 90 = 0x43 then 2 else if buf 90 = 0x40 then 1 else 0
  else 0

def volumeSwitch (ctx : UnisoCtx) (rootDir : ℕ → UInt8) : UnisoCtx × (ℕ → UInt8) :=
  if buf 0 = isofsVdPrimary then
    (ctx, if ctx.jolietLevel = 0 then fun i => buf (156 + i) else rootDir)
  else if buf 0 = isofsVdSupplementary ∧ jolietStep buf ≠ 0 then
    ({ ctx with jolietLevel := ctx.jolietLevel + jolietStep buf }, fun i => buf (156 + i))
  else (ctx, rootDir)

/-- the loop over the volume descriptors; `none` if it has not ended after some rounds -/
def volumeLoop : ℕ → (ℕ → UInt8) → (ℕ → UInt8) → UnisoCtx → Option (ℤ × UnisoCtx)
  | 0, _, _, _ => none
  | n + 1, buf, rootDir, ctx =>
    match doRead sys ctx isofsBlockSize with
    | (r, ctx') =>
      if r < 0 then some (r, ctx')
      else
        let buf := readTo sys buf ctx.pos ctx'.pos
        if !hasStandardId buf then some (-emediumtype, ctx')
        else
          match volumeSwitch buf ctx' rootDir with
          | (ctx, rootDir) =>
            if buf 0 = isofsVdEnd then some (queueDirent sys ctx rootDir [asc '.'])
            else volumeLoop n buf rootDir ctx

def unisoHandle (ctx : UnisoCtx) (rd : UnisoReader) : Option (ℤ × UnisoCtx) :=
  match rd.handler with
  | .volumeDescriptor => volumeLoop sys n sys.buf sys.rootDir ctx
  | .directory => unisoReadDirectory sys ctx rd
  | .file => some (unisoReadFile sys ctx rd)

def skipTo : ℤ × UnisoCtx :=
  if ctx.pos < rd.offset then doSkip sys ctx (rd.offset - ctx.pos) else (0, ctx)

def unisoRound (ctx : UnisoCtx) (rd : UnisoReader) : Option (ℤ × UnisoCtx) :=
  match skipTo sys ctx rd with
  | (r, ctx) => if r < 0 then some (r, ctx) else unisoHandle sys n ctx rd

def drainLoop : ℕ → UnisoCtx → Option UnisoCtx
  | 0, _ => none
  | n + 1, ctx =>
    match doSkip sys ctx isofsTmpbufSize with
    | (r, ctx) => if r = isofsTmpbufSize then drainLoop n ctx else some ctx

def unisoLoop : ℕ → UnisoCtx → Option (ℤ × UnisoCtx)
  | 0, _ => none
  | n + 1, ctx =>
    match ctx.parserHead with
    | [] => if ctx.skipMethod = 0 then some (0, ctx) else (drainLoop sys n ctx).map fun ctx => (0, ctx)
    | rd :: queue =>
      match unisoRound sys n { ctx with parserHead := queue } rd with
      | none => none
      | some (r, ctx) => if r ≠ 0 then some (r, ctx) else unisoLoop n ctx

def unisoInit : UnisoCtx :=
  (queueReader
    { pos := 0, skipMethod := 0, copyMethod := 0, jolietLevel := 0, lastQueuedRead := 0, diskNeeded := 0
      parserHead := [], calls := 0, fs := sys.fs, fd := (0, 0), prevOffset := 0, prevName := []
      prevSize := 0, cloneBuf := fun _ => 0 }
    ⟨16 * isofsBlockSize, .volumeDescriptor, 0, []⟩).2

/-- `uniso`; `none` if it has not returned after some rounds of its loops -/
def uniso : Option ℤ := (unisoLoop sys n (unisoInit sys)).map (·.1)

end

end Alpine

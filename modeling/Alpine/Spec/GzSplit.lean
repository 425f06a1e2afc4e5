import Alpine.Spec.Blob

/-! `abuild-gzsplit` (`abuild-gzsplit.c`): the members of a package file, each written to a file of
its own. zlib is a parameter, and so is what the system answers. A `read` that fails, or a field that
is read before it is set, leads to accesses outside the buffers; such a run has no result here. -/

namespace Alpine

/-- `Z_OK`, `Z_STREAM_END`, and all other results -/
inductive ZRet
  | ok
  | streamEnd
  | error
  deriving DecidableEq, Repr

/-- what one call of `inflate` did: how far it moved `next_in`, and the bytes it stored -/
structure Inflated (ζ : Type) where
  ret : ZRet
  zs : ζ
  used : ℕ
  out : Bytes

/-- `inflate` gets the bytes at `next_in` and the room at `next_out` -/
structure Zlib (ζ : Type) where
  inflateInit2 : Option ζ
  inflate : ζ → Bytes → ℕ → Inflated ζ

/-- the fields of `zs` that `inflateInit2` and the loop read, as they are when `main` begins -/
structure FreshZStream where
  zalloc : ℕ
  zfree : ℕ
  availIn : ℕ

/-- `signatures.tar.gz`, `control.tar.gz` and `data.tar.gz` -/
inductive SplitFile
  | signatures
  | control
  | data
  deriving DecidableEq, Repr

abbrev SplitFiles := SplitFile → Option Bytes

/-- whether `open` works, and the result of `write` for a number of bytes -/
structure SplitSys where
  opens : SplitFile → Bool
  writes : SplitFile → ℕ → ℤ

def sizeofObuf : ℕ := 8 * 1024

/-- `strrchr` and `strncmp` read up to the first zero, which has to be in the buffer -/
def findSection (buf : Bytes) (bufsize : ℕ) (str : Bytes) : Option Bool :=
  if bufsize ≤ str.length then some false
  else if (0 : UInt8) ∈ buf then some (str.isPrefixOf ((cstr buf).rtakeWhile (· ≠ asc '/')))
  else none

/-- The variables of `main`. `used` is what is in `ibuf` before `next_in`, and `input` the `avail_in`
bytes after it; `reads` are the results of the calls of `read` to come, `none` for -1. -/
structure GzSplit (ζ : Type) where
  zs : ζ
  used : Bytes
  input : Bytes
  obuf : Bytes
  availOut : ℕ
  r : ZRet
  rc : ℤ
  fd : Option SplitFile
  files : SplitFiles
  reads : List (Option Bytes)

/-- how `main` ends -/
inductive GzStop
  | exit (rc : ℤ) (files : SplitFiles)
  | undefined

section

variable {ζ : Type}

variable (z : Zlib ζ) (sys : SplitSys) (s : GzSplit ζ)

/-- `avail_in` is unsigned: the test for a failed `read` never holds -/
def gzRead : Except GzStop (GzSplit ζ) :=
  if s.input ≠ [] then .ok s
  else
    match s.reads with
    | [] => .ok { s with used := [] }
    | none :: _ => .error .undefined
    | some b :: reads => .ok { s with used := [], input := b, reads := reads }

def gzInflate : Except GzStop (GzSplit ζ) :=
  let x := z.inflate s.zs s.input s.availOut
  let off := sizeofObuf - s.availOut
  if x.ret = .error then .error (.exit s.rc s.files)
  else .ok { s with
    zs := x.zs
    r := x.ret
    used := s.used ++ s.input.take x.used
    input := s.input.drop x.used
    obuf := s.obuf.take off ++ x.out ++ s.obuf.drop (off + x.out.length)
    availOut := s.availOut - x.out.length }

/-- the file of a section, and `rc` -/
def gzSection (len : ℕ) : Except GzStop (SplitFile × ℤ) :=
  match findSection s.obuf len (lit ".SIGN.") with
  | none => .error .undefined
  | some true => .ok (.signatures, s.rc)
  | some false =>
    match findSection s.obuf len (lit ".PKGINFO") with
    | none => .error .undefined
    | some true => .ok (.control, s.rc)
    | some false => if s.rc = 1 then .ok (.data, 2) else .error (.exit s.rc s.files)

def gzOpen (len : ℕ) : Except GzStop (GzSplit ζ) :=
  match gzSection s len with
  | .error e => .error e
  | .ok (fn, rc) =>
    if sys.opens fn then
      .ok { s with rc := rc, fd := some fn, files := Function.update s.files fn (some []) }
    else .error (.exit rc s.files)

def gzOutput : Except GzStop (GzSplit ζ) :=
  let len := sizeofObuf - s.availOut
  if len = 0 then .ok s
  else
    match (if s.fd = none then gzOpen sys s len else .ok s) with
    | .error e => .error e
    | .ok s => .ok { s with availOut := sizeofObuf }

/-- `write(fd, ibuf, len)`; without an open file `fd` is -1 -/
def gzWrite : Except GzStop (GzSplit ζ) :=
  if s.input = [] ∨ s.r = .streamEnd then
    match s.fd with
    | none => .error (.exit s.rc s.files)
    | some fn =>
      let n := sys.writes fn s.used.length
      let files := Function.update s.files fn ((s.files fn).map (· ++ s.used.take n.toNat))
      if n ≠ s.used.length then .error (.exit s.rc files)
      else .ok { s with files := files, used := [] }
  else .ok s

def gzMemberEnd : Except GzStop (GzSplit ζ) :=
  if s.r = .streamEnd then
    match z.inflateInit2 with
    | none => .error (.exit s.rc s.files)
    | some zs => .ok { s with fd := none, zs := zs }
  else .ok s

/-- one round of `while (1)` -/
def gzRound : Except GzStop (GzSplit ζ) := do
  let s ← gzRead s
  if s.input = [] ∧ s.r = .streamEnd then .error (.exit 0 s.files)
  else
    let s ← gzInflate z s
    let s ← gzOutput sys s
    let s ← gzWrite sys s
    gzMemberEnd z s

def gzLoop (z : Zlib ζ) (sys : SplitSys) : ℕ → GzSplit ζ → Option GzStop
  | 0, _ => none
  | fuel + 1, s =>
    match gzRound z sys s with
    | .error e => some e
    | .ok s => gzLoop z sys fuel s

/-- `main`, where `obuf` and `fresh` are what the stack holds and `files` the files of the directory.
Of a pointer `zalloc` or `zfree` that is not null zlib calls what it points to. -/
def gzSplitMain (fresh : FreshZStream) (obuf : Bytes) (files : SplitFiles)
    (reads : List (Option Bytes)) (fuel : ℕ) : Option GzStop :=
  if fresh.zalloc ≠ 0 then some .undefined
  else
    match z.inflateInit2 with
    | none => some (.exit 1 files)
    | some zs =>
      if fresh.zfree ≠ 0 ∨ fresh.availIn ≠ 0 then some .undefined
      else gzLoop z sys fuel
        { zs := zs, used := [], input := [], obuf := obuf, availOut := sizeofObuf, r := .ok, rc := 1,
          fd := none, files := files, reads := reads }

end

end Alpine

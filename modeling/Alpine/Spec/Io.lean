import Alpine.Spec.Blob

/-! Input streams (`io.c`, `apk_io.h`): a buffer in front of a source. The buffer is kept
as memory with two offsets into it, because the source overwrites it in place and a
blob handed out earlier keeps pointing into it. Return codes are the C `int`s: negative
for an error, and `err = 1` for the end of the stream. -/

namespace Alpine

def apkeEof : ℤ := 1025
def apkeCryptoError : ℤ := 1051
def apkeCryptoNotSupported : ℤ := 1052
def apkeSignatureUntrusted : ℤ := 1055
def apkeFormatInvalid : ℤ := 1057
def apkeFormatNotSupported : ℤ := 1059
def apkeAdbHeader : ℤ := 1064
def apkeAdbVersion : ℤ := 1065
def apkeAdbSchema : ℤ := 1066
def apkeAdbBlock : ℤ := 1067
def apkeAdbSignature : ℤ := 1068
def apkeAdbIntegrity : ℤ := 1069
def apkeV2pkgFormat : ℤ := 1074
def apkeBufferSize : ℤ := 1090
def eio : ℤ := 5
def e2big : ℤ := 7
def enomem : ℤ := 12
def einval : ℤ := 22
def enospc : ℤ := 28
def econnaborted : ℤ := 103
def ecanceled : ℤ := 125

/-- `struct apk_istream_ops`: what a kind of stream does behind the buffer. `read` gets the
size of the destination; it returns the bytes it stored there, none at the end. -/
structure IstreamOps (σ : Type) where
  read : σ → ℕ → Except ℤ Bytes × σ
  close : σ → ℤ → ℤ
  read_le : ∀ s n b s', read s n = (.ok b, s') → b.length ≤ n
  read_neg : ∀ s n e s', read s n = (.error e, s') → e < 0
  close_neg : ∀ s e, e < 0 → close s e < 0

/-- `struct apk_istream`, with `ptr` and `end` as offsets into the buffer -/
structure Istream (σ : Type) where
  buf : Bytes
  ptr : ℕ
  fin : ℕ
  err : ℤ
  singleRead : Bool
  src : σ

def apkIstreamAlignSync : ℕ := 8

section

variable {σ : Type}

variable (is : Istream σ)

/-- the bytes between `ptr` and `end` -/
def Istream.buffered : Bytes := (is.buf.drop is.ptr).take (is.fin - is.ptr)

/-- store bytes into the buffer -/
def Istream.store (off : ℕ) (b : Bytes) : Bytes :=
  is.buf.take off ++ b ++ is.buf.drop (off + b.length)

def apkIstreamError (err : ℤ) : ℤ × Istream σ :=
  let is := if 0 ≤ is.err ∧ err ≠ 0 then { is with err := err } else is
  (if is.err < 0 then is.err else 0, is)

def apkIstreamMmap : Option Bytes := if is.singleRead then some is.buf else none

variable (ops : IstreamOps σ)

def apkIstreamClose (is : Istream σ) : ℤ := ops.close is.src is.err

def apkIstreamCloseError (is : Istream σ) (r : ℤ) : ℤ :=
  apkIstreamClose ops (if r < 0 then (apkIstreamError is r).2 else is)

/-- the loop of `apk_istream_read_max` while `left` bytes are missing, with the result of the
`ops->read` that stopped it and the bytes copied so far. Every round copies at least one byte:
the one that fills the buffer is taken together with the one that copies from it. -/
def readMaxLoop : ℕ → ℕ → Istream σ → Bytes → ℤ × Bytes × Istream σ
  | 0, _, is, out => (0, out, is)
  | n + 1, left, is, out =>
    if left = 0 then (0, out, is)
    else if is.ptr ≠ is.fin then
      let b := is.buffered.take left
      readMaxLoop n (left - b.length) { is with ptr := is.ptr + b.length } (out ++ b)
    else if is.err ≠ 0 then (0, out, is)
    else if is.buf.length / 4 < left then
      -- a large read goes past the buffer
      match ops.read is.src left with
      | (.error e, s) => (e, out, { is with src := s })
      | (.ok b, s) =>
        if b = [] then (0, out, { is with src := s })
        else
          let p := (is.ptr + b.length) % apkIstreamAlignSync
          readMaxLoop n (left - b.length) { is with src := s, ptr := p, fin := p } (out ++ b)
    else
      let p := is.ptr % apkIstreamAlignSync
      match ops.read is.src (is.buf.length - p) with
      | (.error e, s) => (e, out, { is with src := s, ptr := p, fin := p })
      | (.ok b, s) =>
        if b = [] then (0, out, { is with src := s, ptr := p, fin := p })
        else
          let c := b.take left
          readMaxLoop n (left - c.length)
            { is with src := s, buf := is.store p b, ptr := p + c.length, fin := p + b.length }
            (out ++ c)

def apkIstreamReadMax (is : Istream σ) (size : ℕ) : ℤ × Bytes × Istream σ :=
  if is.err < 0 then (is.err, [], is)
  else
    match readMaxLoop ops size size is [] with
    | (r, out, is) =>
      if r < 0 then ((apkIstreamError is r).1, out, (apkIstreamError is r).2)
      else if out = [] then
        let e := apkIstreamError is (if size ≠ 0 ∧ is.err = 0 then 1 else 0)
        (e.1, [], e.2)
      else (out.length, out, is)

def apkIstreamRead (is : Istream σ) (size : ℕ) : ℤ × Bytes × Istream σ :=
  match apkIstreamReadMax ops is size with
  | (r, out, is) =>
    if r = size then (0, out, is)
    else ((apkIstreamError is (-apkeEof)).1, out, (apkIstreamError is (-apkeEof)).2)

/-- `__apk_istream_fill`; at the end of the source it marks the stream and still returns 0 -/
def apkIstreamFill (is : Istream σ) : ℤ × Istream σ :=
  if is.err ≠ 0 then (is.err, is)
  else if is.ptr < apkIstreamAlignSync ∧ is.fin = is.buf.length then (-apkeBufferSize, is)
  else
    let is :=
      if is.ptr < apkIstreamAlignSync then is
      else
        let p := is.ptr % apkIstreamAlignSync
        { is with buf := is.store p is.buffered, ptr := p, fin := p + is.buffered.length }
    match ops.read is.src (is.buf.length - is.fin) with
    | (.error e, s) => apkIstreamError { is with src := s } e
    | (.ok b, s) =>
      if b = [] then apkIstreamError { is with src := s } 1
      else (0, { is with src := s, buf := is.store is.fin b, fin := is.fin + b.length })

/-- the loop of `apk_istream_peek`: every round but the last adds a byte to the buffer -/
def peekLoop (len : ℕ) : ℕ → Istream σ → Except ℤ Bytes × Istream σ
  | 0, is => (.error (-apkeEof), is)
  | n + 1, is =>
    if len ≤ is.fin - is.ptr then (.ok (is.buffered.take len), is)
    else
      match apkIstreamFill ops is with
      | (r, is) =>
        if r = 0 then peekLoop len n is
        else (.error (if 0 < r then -apkeEof else r), is)

def apkIstreamPeek (is : Istream σ) (len : ℕ) : Except ℤ Bytes × Istream σ :=
  if is.err < 0 then (.error is.err, is)
  else peekLoop ops len (is.buf.length + 3) is

def apkIstreamGet (is : Istream σ) (len : ℕ) : Except ℤ Bytes × Istream σ :=
  match apkIstreamPeek ops is len with
  | (.ok b, is) => (.ok b, { is with ptr := is.ptr + len })
  | (.error e, is) => (.error e, (apkIstreamError is e).2)

def apkIstreamGetMax (is : Istream σ) (max : ℕ) : ℤ × Bytes × Istream σ :=
  let is := if is.ptr = is.fin then (apkIstreamFill ops is).2 else is
  if is.ptr ≠ is.fin then
    let b := is.buffered.take max
    (0, b, { is with ptr := is.ptr + b.length })
  else (if is.err < 0 then is.err else -apkeEof, [], is)

/-- the loop of `apk_istream_get_delim`: a fill adds a byte, and once it marks the end -/
def delimLoop (token : Bytes) : ℕ → Istream σ → ℤ × Bytes × Istream σ
  | 0, is => (0, [], is)
  | n + 1, is =>
    match splitAtBlob token is.buffered with
    | some (data, left) => (0, data, { is with ptr := is.fin - left.length })
    | none =>
      match apkIstreamFill ops is with
      | (r, is) =>
        if r = 0 then delimLoop token n is
        else if r < 0 then ((apkIstreamError is r).1, [], (apkIstreamError is r).2)
        else (0, is.buffered, { is with ptr := 0, fin := 0 })

def apkIstreamGetDelim (is : Istream σ) (token : Bytes) : ℤ × Bytes × Istream σ :=
  if is.err ≠ 0 ∧ is.ptr = is.fin then (if is.err < 0 then is.err else -apkeEof, [], is)
  else delimLoop ops token (is.buf.length + 3) is

/-- the loop of `apk_istream_skip` with `left` bytes to go; every round skips at least one -/
def skipLoop : ℕ → ℕ → ℤ → Istream σ → ℤ × Istream σ
  | 0, _, done, is => (done, is)
  | n + 1, left, done, is =>
    if left = 0 then (done, is)
    else
      match apkIstreamGetMax ops is left with
      | (r, b, is) =>
        if r < 0 then (r, is) else skipLoop n (left - b.length) (done + b.length) is

/-- `apk_istream_skip`; the count of the bytes is returned as an `int` -/
def apkIstreamSkip (is : Istream σ) (size : ℕ) : ℤ × Istream σ :=
  let r := skipLoop ops size size 0 is
  (if r.1 < 0 then r.1 else toInt32 r.1, r.2)

def toInt64 (z : ℤ) : ℤ := (z + 2 ^ 63) % 2 ^ 64 - 2 ^ 63

def apkIoAll : ℕ := 2 ^ 64 - 1

/-- `apk_ostream_fmt` into an output stream with the given `write` and `cancel` -/
def apkOstreamFmt {τ : Type} (write : τ → Bytes → ℤ × τ) (cancel : τ → ℤ → ℤ × τ) (os : τ) (text : Bytes) : ℤ × τ :=
  match vsnprintf 2048 text with
  | (n, buf) => if n < 0 ∨ 2048 < n then cancel os (-apkeBufferSize) else write os (buf.take n.toNat)

/-- the loop of `apk_stream_copy` into an output stream with the given `write` and `cancel`: the result, and
what `done` is at the end -/
def streamCopyLoop {τ : Type} (write : τ → Bytes → ℤ × τ) (cancel : τ → ℤ → τ) (size : ℕ) :
    ℕ → ℕ → ℕ → Istream σ → τ → ℤ × ℕ × Istream σ × τ
  | 0, _, done, is, os => (toInt64 done, done, is, os)
  | n + 1, left, done, is, os =>
    if left = 0 then (toInt64 done, done, is, os)
    else
      match apkIstreamGetMax ops is left with
      | (r, b, is) =>
        if r < 0 then
          if r = -apkeEof ∧ size = apkIoAll then (toInt64 done, done, is, os) else (r, done, is, cancel os r)
        else
          match write os b with
          | (r, os) =>
            if r < 0 then (r, done, is, os)
            else streamCopyLoop write cancel size n (left - b.length) (done + b.length) is os

def apkStreamCopy {τ : Type} (write : τ → Bytes → ℤ × τ) (cancel : τ → ℤ → τ) (is : Istream σ) (os : τ)
    (size : ℕ) : ℤ × ℕ × Istream σ × τ :=
  streamCopyLoop ops write cancel size size size 0 is os

end

def blobOps : IstreamOps Unit where
  read _ _ := (.ok [], ())
  close _ err := if err < 0 then err else 0
  read_le := by
    intro s n b s' h
    simp only [Prod.mk.injEq, Except.ok.injEq] at h
    simp [← h.1]
  read_neg := by
    intro s n e s' h
    simp at h
  close_neg := by
    intro s e he
    simp [he]

def apkIstreamFromBlob (blob : Bytes) : Istream Unit where
  buf := blob
  ptr := 0
  fin := blob.length
  err := 1
  singleRead := true
  src := ()

/-- `struct apk_segment_istream` without its own `is`. `borrowed` says that the buffer of the
parent went over to the segment whole, and the parent's pointers are null. -/
structure Segment (σ : Type) where
  pis : Istream σ
  borrowed : Bool
  bytesLeft : ℕ
  align : ℕ

section

variable {σ : Type} (ops : IstreamOps σ)

def segmentRead (sis : Segment σ) (size : ℕ) : Except ℤ Bytes × Segment σ :=
  let size := min size sis.bytesLeft
  if size = 0 then (.ok [], sis)
  else
    match ops.read sis.pis.src size with
    | (.error e, s) => (.error e, { sis with pis := { sis.pis with src := s } })
    | (.ok b, s) =>
      let sis := { sis with pis := { sis.pis with src := s } }
      -- the header promised more than the stream holds
      if b = [] then (.error (-econnaborted), sis)
      else (.ok b, { sis with bytesLeft := sis.bytesLeft - b.length, align := sis.align + b.length })

def segmentOps : IstreamOps (Segment σ) where
  read := segmentRead ops
  close _ err := if err < 0 then err else 0
  read_le := by
    intro s n b s' h
    simp only [segmentRead] at h
    split_ifs at h with h0
    · simp only [Prod.mk.injEq, Except.ok.injEq] at h
      simp [← h.1]
    · split at h
      · simp at h
      · rename_i c s1 hr
        have hle := ops.read_le _ _ _ _ hr
        split_ifs at h
        · simp at h
        · simp only [Prod.mk.injEq, Except.ok.injEq] at h
          rw [← h.1]
          omega
  read_neg := by
    intro s n e s' h
    simp only [segmentRead] at h
    split_ifs at h with h0
    · simp at h
    · split at h
      · rename_i e1 s1 hr
        simp only [Prod.mk.injEq, Except.error.injEq] at h
        rw [← h.1]
        exact ops.read_neg _ _ _ _ hr
      · split_ifs at h
        · simp only [Prod.mk.injEq, Except.error.injEq] at h
          rw [← h.1]
          decide
        · simp at h
  close_neg := by
    intro s e he
    simp [he]

def apkIstreamSegment (is : Istream σ) (len : ℕ) : Istream (Segment σ) :=
  if len < is.fin - is.ptr then
    { buf := is.buf, ptr := is.ptr, fin := is.ptr + len, err := 0, singleRead := false,
      src := { pis := { is with ptr := is.ptr + len }, borrowed := false, bytesLeft := 0,
               align := 0 } }
  else
    { buf := is.buf, ptr := is.ptr, fin := is.fin, err := 0, singleRead := false,
      src := { pis := is, borrowed := true, bytesLeft := len - (is.fin - is.ptr),
               align := is.fin } }

/-- `segment_close`, which also hands the parent its buffer back and skips the rest -/
def segmentClose (is : Istream (Segment σ)) : ℤ × Istream σ :=
  let sis := is.src
  let pis :=
    if sis.borrowed then
      let p := sis.align % apkIstreamAlignSync
      { sis.pis with buf := is.buf, ptr := p, fin := p }
    else { sis.pis with buf := is.buf }
  let pis := if sis.bytesLeft ≠ 0 then (apkIstreamSkip ops pis sis.bytesLeft).2 else pis
  (if is.err < 0 then is.err else 0, pis)

def segmentCloseError (is : Istream (Segment σ)) (r : ℤ) : ℤ × Istream σ :=
  segmentClose ops (if r < 0 then (apkIstreamError is r).2 else is)

end

end Alpine

import Alpine.Spec.AdbWrite
import Alpine.Spec.Fdb

/-! The codecs of `blob.c` on memory: hexadecimal, base64 and digests, and the text of an extended
attribute in `apk_adb.c`. A blob that is read from is an address and a length, since the length is
checked once for the whole of a read and can become negative. A destination is what it holds, also
after a read that failed half way. -/

namespace Alpine

/-- a blob that is pushed to: what has been written, and the room that is left -/
structure Sink where
  out : Bytes
  room : ℕ

def apkBlobPushBlob (dst : Option Sink) (literal : Bytes) : Option Sink :=
  dst.bind fun s => if s.room < literal.length then none
    else some ⟨s.out ++ literal, s.room - literal.length⟩

/-- the loop of `apk_blob_push_uint` with some bytes of its buffer left; `none` is a write in front of them -/
def pushUintLoop (radix : ℕ) : ℕ → ℕ → Bytes → Option Bytes
  | 0, value, acc => if value = 0 then some acc else none
  | room + 1, value, acc =>
    if value = 0 then some acc else pushUintLoop radix room (value / radix) (xd (value % radix) :: acc)

def apkBlobPushUint (dst : Option Sink) (value radix : ℕ) : Option (Option Sink) :=
  if value = 0 then some (apkBlobPushBlob dst [asc '0'])
  else (pushUintLoop radix 64 value []).map (apkBlobPushBlob dst)

/-- the loop of `apk_blob_push_hexdump` -/
def hexText : Bytes → Bytes
  | [] => []
  | c :: b => xd ((c.toNat >>> 4) &&& 0xf) :: xd (c.toNat &&& 0xf) :: hexText b

def apkBlobPushHexdump (dst : Option Sink) (binary : Bytes) : Option Sink :=
  dst.bind fun s => if s.room < binary.length * 2 then none
    else some ⟨s.out ++ hexText binary, s.room - binary.length * 2⟩

/-- the letters for a number of bytes -/
def b64Needed (n : ℕ) : ℕ := (n + 2) / 3 * 4

def apkBlobPushBase64 (dst : Option Sink) (binary : Bytes) : Option Sink :=
  dst.bind fun s => if s.room < b64Needed binary.length then none
    else some ⟨s.out ++ base64Text binary, s.room - b64Needed binary.length⟩

def apkBlobPushHash (dst : Option Sink) (hash : Bytes) : Option Sink :=
  if hash.length = 20 then apkBlobPushBase64 (apkBlobPushBlob dst [asc 'Q', asc '1']) hash else none

def apkBlobPushFmt (dst : Option Sink) (text : Bytes) : Option Sink :=
  dst.bind fun s =>
    match vsnprintf s.room text with
    | (n, buf) => if 0 ≤ n ∧ n ≤ s.room then some ⟨s.out ++ buf.take n.toNat, s.room - n.toNat⟩ else none

/-- a blob in memory that is not NULL -/
structure Window where
  ptr : ℕ
  len : ℤ

section

variable (mem : ℕ → UInt8)

def Window.bytes (w : Window) : Bytes := (List.range w.len.toNat).map fun i => mem (w.ptr + i)

def Window.skip (w : Window) (n : ℕ) : Window := ⟨w.ptr + n, w.len - n⟩

def hexByte (c1 c2 : UInt8) : UInt8 := UInt8.ofNat ((dx c1 <<< 4) + dx c2)

/-- the loop of `apk_blob_pull_hexdump` from the address `s`: the digits or'ed together, and what
is written -/
def hexLoop : ℕ → ℕ → ℕ → ℕ × Bytes
  | 0, _, r => (r, [])
  | n + 1, s, r =>
    let p := hexLoop n (s + 2) (r ||| dx (mem s) ||| dx (mem (s + 1)))
    (p.1, hexByte (mem s) (mem (s + 1)) :: p.2)

/-- a blob after it has been pulled from, the destination, and how many bytes were read -/
structure Pulled where
  blob : Option Window
  dst : Bytes
  reads : ℕ

def pullHexdump (b : Option Window) (dst : Bytes) : Pulled :=
  match b with
  | none => ⟨none, dst, 0⟩
  | some w =>
    if w.len * 2 < dst.length then ⟨none, dst, 0⟩
    else
      let p := hexLoop mem dst.length w.ptr 0
      ⟨if p.1 = 0xff then none else some (w.skip (dst.length * 2)), p.2, dst.length * 2⟩

def b64Or (s0 s1 s2 s3 : UInt8) : UInt8 :=
  b64decode s0 ||| b64decode s1 ||| b64decode s2 ||| b64decode s3

def b64Triple (s0 s1 s2 s3 : UInt8) : Bytes :=
  [(b64decode s0 <<< 2) ||| (b64decode s1 >>> 4), (b64decode s1 <<< 4) ||| (b64decode s2 >>> 2),
    ((b64decode s2 <<< 6) &&& 0xc0) ||| b64decode s3]

/-- the loop over the whole groups: the letters or'ed together, what is written, and the rest -/
def b64Loop : ℕ → Bytes → UInt8 → UInt8 × Bytes × Bytes
  | n + 1, s0 :: s1 :: s2 :: s3 :: src, r =>
    let p := b64Loop n src (r ||| b64Or s0 s1 s2 s3)
    (p.1, b64Triple s0 s1 s2 s3 ++ p.2.1, p.2.2)
  | _, src, r => (r, [], src)

/-- `pull_b64_tail` into one byte or two, which are written before the signs `=` are looked at -/
def pullB64Tail (dst : Bytes) : Bytes → Bool × Bytes
  | s0 :: s1 :: s2 :: s3 :: _ =>
    if b64Or s0 s1 s2 s3 = 0xff then (false, dst)
    else (decide ((1 < dst.length ∨ s2 = asc '=') ∧ s3 = asc '='),
      (b64Triple s0 s1 s2 s3).take dst.length)
  | _ => (false, dst)

/-- the groups and the tail of `apk_blob_pull_base64` -/
def pullB64 (dst src : Bytes) : Bool × Bytes :=
  let p := b64Loop (dst.length / 3) src 0
  if p.1 = 0xff then (false, p.2.1 ++ dst.drop p.2.1.length)
  else if dst.length % 3 = 0 then (true, p.2.1)
  else
    let q := pullB64Tail (dst.drop p.2.1.length) p.2.2
    (q.1, p.2.1 ++ q.2)

def pullBase64 (b : Option Window) (dst : Bytes) : Pulled :=
  match b with
  | none => ⟨none, dst, 0⟩
  | some w =>
    if w.len < b64Needed dst.length then ⟨none, dst, 0⟩
    else
      let p := pullB64 dst (w.bytes mem)
      ⟨if p.1 then some (w.skip (b64Needed dst.length)) else none, p.2, b64Needed dst.length⟩

structure ApkDigest where
  alg : ℕ
  len : ℕ
  data : Bytes

def apkDigestSet (d : ApkDigest) (alg : ℕ) : ApkDigest :=
  { d with alg := alg, len := apkDigestAlgLen alg }

def apkDigestReset (d : ApkDigest) : ApkDigest := { d with alg := apkDigestNone, len := 0 }

/-- `APK_DIGEST_BLOB` -/
def ApkDigest.blob (d : ApkDigest) : Bytes := d.data.take d.len

/-- pull into `n` bytes of a digest, from `o` on -/
def pullInto (pull : Option Window → Bytes → Pulled) (b : Option Window) (d : ApkDigest) (o n : ℕ) :
    Option Window × ApkDigest :=
  let p := pull b ((d.data.drop o).take n)
  (p.blob, { d with data := d.data.take o ++ p.dst ++ d.data.drop (o + n) })

/-- the digest of the kind that was set, and 12 bytes more behind one of 20 if just these follow -/
def pullEncoded (pull : Option Window → Bytes → Pulled) (long : ℤ) (digit : UInt8 → Bool) (w : Window)
    (d : ApkDigest) : Option Window × ApkDigest :=
  match pullInto pull (some w) d 0 d.len with
  | (none, d) => (none, d)
  | (some w, d) =>
    if d.alg = apkDigestSha1 ∧ w.len = long ∧ digit (mem w.ptr) then
      pullInto pull (some w) (apkDigestSet d apkDigestSha256) 20 12
    else (some w, d)

def pullDigest (b : Option Window) (d : ApkDigest) : Option Window × ApkDigest :=
  match b with
  | none => (none, apkDigestReset d)
  | some w =>
    if w.len < 2 then (none, apkDigestReset d)
    else
      let encoding := mem w.ptr
      let kind := mem (w.ptr + 1)
      if kind ≠ asc '1' ∧ kind ≠ asc '2' then (none, apkDigestReset d)
      else
        let d := apkDigestSet d (if kind = asc '1' then apkDigestSha1 else apkDigestSha256)
        if encoding = asc 'X' then
          pullEncoded mem (pullHexdump mem) 24 (fun c => dx c ≠ 0xff) (w.skip 2) d
        else if encoding = asc 'Q' then
          pullEncoded mem (pullBase64 mem) 16 (fun c => b64decode c ≠ 0xff) (w.skip 2) d
        else (none, apkDigestReset d)

/-- `apk_dep_match_checksum`; `d` is the memory that the digest is read into -/
def depMatchChecksum (version : Window) (d : ApkDigest) (hash : Bytes) : Bool :=
  apkBlobCompare (pullDigest mem (some version) d).2.blob hash = 0

end

def adbTypeError : ℕ := 0xf0000000

def adbError (e : ℤ) : ℕ := adbVal adbTypeError e.toNat

/-- `xattr_tostring` into a buffer -/
def xattrTostring (adb : Bytes) (val bufsz : ℕ) : Option Bytes :=
  (adbRBlob adb val).bind fun b =>
    (apkBlobSplit b 0).bind fun kv =>
      match apkBlobPushHexdump (apkBlobPushBlob (apkBlobPushBlob (some ⟨[], bufsz⟩) kv.1) [asc '='])
        kv.2 with
      | some s => some s.out
      | none => apkBlobFmt bufsz (kv.1 ++ lit "=(" ++ uintText kv.2.length 10 ++ lit " bytes)")

/-- `xattr_fromstring`: the value that is stored, or an error as a value -/
def xattrFromstring (fresh : ℕ → UInt8) (hash : List Bytes → ℕ) (db : AdbWriter) (val : Bytes) :
    Option (ℕ × AdbWriter) :=
  match apkBlobRsplit val (asc '=') with
  | none => some (adbError apkeAdbSchema, db)
  | some (b0, hex) =>
    -- the name is made one byte longer, which in the text is the sign
    let b0 := val.take (b0.length + 1)
    if hex.length % 2 = 1 then some (adbError einval, db)
    else if 256 < hex.length / 2 then some (adbError e2big, db)
    else
      let p := pullHexdump (fun i => hex.getD i 0) (some ⟨0, hex.length⟩)
        (List.replicate (hex.length / 2) 0)
      if p.blob.isNone then some (adbError einval, db) else adbWBlobVec fresh hash db [b0, p.dst]

end Alpine

import Mathlib

/-! Byte blobs (`blob.c`, `ctype.c`). A blob that is not NULL is the list of its
bytes; a blob that may be NULL is an `Option Bytes`. Only what the length and the
bytes of a blob decide is kept, so the functions that advance a blob return the
rest of it. -/

namespace Alpine

abbrev Bytes := List UInt8

/-- what holds for all members of a list is decided on these, and not on all values of their type -/
instance (priority := 1100) decidableForallMem {α : Type} {p : α → Prop} [DecidablePred p] (l : List α) :
    Decidable (∀ x ∈ l, p x) :=
  List.decidableBAll p l

/-- the byte of an ASCII character -/
def asc (c : Char) : UInt8 := UInt8.ofNat c.toNat

/-- the bytes of a list of ASCII characters -/
def ascs (s : List Char) : Bytes := s.map asc

/-- the bytes of an ASCII string literal; irreducible, as the elaborator is slow to unfold strings -/
@[irreducible] def lit (s : String) : Bytes := ascs s.toList

/-- `strlen` ends a name at its first zero byte -/
def cstr (s : Bytes) : Bytes := s.takeWhile (· ≠ 0)

/-- conversion of a `long` to `int`: the low 32 bits, read as two's complement -/
def toInt32 (z : ℤ) : ℤ := (z + 2 ^ 31) % 2 ^ 32 - 2 ^ 31

/-- `vsnprintf` whose whole output would be `text`: its result, and what it stores -/
def vsnprintf (size : ℕ) (text : Bytes) : ℤ × Bytes :=
  (if 2 ^ 31 ≤ text.length then -1 else text.length, if size = 0 then [] else text.take (size - 1) ++ [0])

/-- `apk_blob_fmt`; a negative result is a large one as a `size_t` -/
def apkBlobFmt (sz : ℕ) (text : Bytes) : Option Bytes :=
  match vsnprintf sz text with
  | (n, str) => if n < 0 ∨ sz ≤ n then none else some (str.take n.toNat)

/-- `memcmp` of two equally long byte lists; only the sign means anything -/
def memcmp : Bytes → Bytes → ℤ
  | a :: as, b :: bs => if a = b then memcmp as bs else (a.toNat : ℤ) - b.toNat
  | _, _ => 0

def apkBlobCompare (a b : Bytes) : ℤ :=
  if a.length = b.length then memcmp a b
  else if a.length < b.length then -1
  else 1

def apkBlobSort (a b : Bytes) : ℤ :=
  let n := min a.length b.length
  let s := memcmp (a.take n) (b.take n)
  -- the difference of the two `long` lengths is returned as an `int`
  if s ≠ 0 then s else toInt32 ((a.length : ℤ) - b.length)

/-- `digitdecode`: the value of a hexadecimal digit, `0x3e` for `+`, else `0xff` -/
def dx (c : UInt8) : ℕ :=
  if asc '0' ≤ c ∧ c ≤ asc '9' then c.toNat - 48
  else if asc 'A' ≤ c ∧ c ≤ asc 'F' then c.toNat - 55
  else if asc 'a' ≤ c ∧ c ≤ asc 'f' then c.toNat - 87
  else if c = asc '+' then 0x3e
  else 0xff

/-- the loop of `apk_blob_pull_uint`, with the `uint64_t` accumulator `val` -/
def pullUintLoop (radix : ℕ) : ℕ → Bytes → ℕ × Bytes
  | val, [] => (val, [])
  | val, c :: cs =>
    if c = 0 then (val, c :: cs)
    else if radix ≤ dx c then (val, c :: cs)
    else pullUintLoop radix ((val * radix + dx c) % 2 ^ 64) cs

def apkBlobPullUint (b : Bytes) (radix : ℕ) : ℕ × Bytes := pullUintLoop radix 0 b

/-- `apk_blob_pull_blob_match`: the rest after the match, if the blob starts with it -/
def apkBlobPullBlobMatch (b m : Bytes) : Option Bytes :=
  if b.length < m.length then none
  else if memcmp (b.take m.length) m ≠ 0 then none
  else some (b.drop m.length)

/-- `apk_blob_split` at a separator of one byte -/
def apkBlobSplit : Bytes → UInt8 → Option (Bytes × Bytes)
  | [], _ => none
  | x :: b, c =>
    if x = c then some ([], b) else (apkBlobSplit b c).map fun lr => (x :: lr.1, lr.2)

/-- `apk_blob_split` at a blob -/
def splitAtBlob (sep : Bytes) : Bytes → Option (Bytes × Bytes)
  | [] => none
  | x :: b =>
    if sep.isPrefixOf (x :: b) then some ([], (x :: b).drop sep.length)
    else (splitAtBlob sep b).map fun lr => (x :: lr.1, lr.2)

/-- `apk_blob_rsplit`: at the last separator -/
def apkBlobRsplit : Bytes → UInt8 → Option (Bytes × Bytes)
  | [], _ => none
  | x :: b, c =>
    match apkBlobRsplit b c with
    | some lr => some (x :: lr.1, lr.2)
    | none => if x = c then some ([], b) else none

def apkBlobTrimEnd (b : Bytes) (c : UInt8) : Bytes := b.rdropWhile (· = c)

/-- the character classes of `ctype.c` that versions and dependencies use -/
inductive Ctype
  | hexdigit | versionSuffix | dependencyComparer | dependencySeparator
  deriving DecidableEq, Repr

def apkCtype : Ctype → UInt8 → Bool
  | .hexdigit, c => (asc '0' ≤ c ∧ c ≤ asc '9') ∨ (asc 'a' ≤ c ∧ c ≤ asc 'f')
  | .versionSuffix, c => asc 'a' ≤ c ∧ c ≤ asc 'z'
  | .dependencyComparer, c => c = asc '<' ∨ c = asc '=' ∨ c = asc '>' ∨ c = asc '~'
  | .dependencySeparator, c => c = asc '\n' ∨ c = asc ' '

/-- `apk_blob_spn` counts in an `int`: what it does is defined below `2 ^ 31` bytes of the class -/
def apkBlobSpnDefined (b : Bytes) (ct : Ctype) : Bool := (b.takeWhile (apkCtype ct)).length < 2 ^ 31

/-- `apk_blob_spn` where it is defined: the longest prefix in the class, and the rest -/
def apkBlobSpn (b : Bytes) (ct : Ctype) : Bytes × Bytes :=
  (b.takeWhile (apkCtype ct), b.dropWhile (apkCtype ct))

def apkDigestNone : ℕ := 0
def apkDigestSha1 : ℕ := 2
def apkDigestSha256 : ℕ := 3
def apkDigestSha512 : ℕ := 4
def apkDigestSha256_160 : ℕ := 5

def apkDigestAlgLen (alg : ℕ) : ℕ :=
  if alg = apkDigestSha1 then 20
  else if alg = apkDigestSha256_160 then 20
  else if alg = apkDigestSha256 then 32
  else if alg = apkDigestSha512 then 64
  else 0

def b64decode (c : UInt8) : UInt8 :=
  if asc 'A' ≤ c ∧ c ≤ asc 'Z' then c - asc 'A'
  else if asc 'a' ≤ c ∧ c ≤ asc 'z' then c - asc 'a' + 26
  else if asc '0' ≤ c ∧ c ≤ asc '9' then c - asc '0' + 52
  else if c = asc '+' then 62
  else if c = asc '/' then 63
  else if c = asc '=' then 0
  else 0xff

/-- four letters, unless one is none of the alphabet -/
def b64group (s0 s1 s2 s3 : UInt8) : Option (UInt8 × UInt8 × UInt8) :=
  let t0 := b64decode s0
  let t1 := b64decode s1
  let t2 := b64decode s2
  let t3 := b64decode s3
  if t0 = 0xff ∨ t1 = 0xff ∨ t2 = 0xff ∨ t3 = 0xff then none
  else some ((t0 <<< 2) ||| (t1 >>> 4), (t1 <<< 4) ||| (t2 >>> 2), ((t2 <<< 6) &&& 0xc0) ||| t3)

/-- `apk_blob_pull_base64` of a number of bytes -/
def apkBlobPullBase64 : ℕ → Bytes → Option (Bytes × Bytes)
  | 0, b => some ([], b)
  | 1, s0 :: s1 :: s2 :: s3 :: b =>
    if s2 ≠ asc '=' ∨ s3 ≠ asc '=' then none
    else (b64group s0 s1 s2 s3).map fun g => ([g.1], b)
  | 2, s0 :: s1 :: s2 :: s3 :: b =>
    if s3 ≠ asc '=' then none else (b64group s0 s1 s2 s3).map fun g => ([g.1, g.2.1], b)
  | n + 3, s0 :: s1 :: s2 :: s3 :: b =>
    (b64group s0 s1 s2 s3).bind fun g =>
      (apkBlobPullBase64 n b).map fun r => (g.1 :: g.2.1 :: g.2.2 :: r.1, r.2)
  | _, _ => none

/-- `apk_blob_pull_hexdump` of a number of bytes; it is refused a blob that is too short, which the
code reads past the end -/
def apkBlobPullHexdump : ℕ → Bytes → Option (Bytes × Bytes)
  | 0, b => some ([], b)
  | n + 1, s0 :: s1 :: b =>
    if dx s0 = 0xff ∨ dx s1 = 0xff then none
    else (apkBlobPullHexdump n b).map fun r =>
      (UInt8.ofNat ((dx s0 <<< 4) + dx s1) :: r.1, r.2)
  | _ + 1, _ => none

/-- the 20 bytes of a digest, and 12 more where they follow to the end -/
def pullLong (pull : ℕ → Bytes → Option (Bytes × Bytes)) (room : ℕ) (digit : UInt8 → Bool)
    (b : Bytes) : Option (ℕ × Bytes × Bytes) :=
  (pull 20 b).bind fun r =>
    if r.2.length = room ∧ r.2.head?.any digit then
      (pull 12 r.2).map fun r' => (apkDigestSha256, r.1 ++ r'.1, r'.2)
    else some (apkDigestSha1, r.1, r.2)

/-- `apk_blob_pull_digest`: the algorithm, the digest and the rest. Where the text does not decode,
the code marks the blob as NULL and leaves in the digest what it had written so far -/
def apkBlobPullDigest : Bytes → Option (ℕ × Bytes × Bytes)
  | encoding :: kind :: b =>
    if kind = asc '1' then
      if encoding = asc 'X' then pullLong apkBlobPullHexdump 24 (fun c => dx c ≠ 0xff) b
      else if encoding = asc 'Q' then pullLong apkBlobPullBase64 16 (fun c => b64decode c ≠ 0xff) b
      else none
    else if kind = asc '2' then
      if encoding = asc 'X' then (apkBlobPullHexdump 32 b).map fun r => (apkDigestSha256, r.1, r.2)
      else if encoding = asc 'Q' then
        (apkBlobPullBase64 32 b).map fun r => (apkDigestSha256, r.1, r.2)
      else none
    else none
  | _ => none

/-- `apk_io_bufsize`, the buffer of the stream of a file -/
def apkIoBufsize : ℕ := 128 * 1024

/-- the lines up to the first that the buffer does not hold; when it is filled again, a line stays at
its offset in the stream modulo 8 -/
def fittingLines : ℕ → List Bytes → List Bytes
  | _, [] => []
  | offs, l :: ls =>
    if offs % 8 + l.length < apkIoBufsize then l :: fittingLines (offs + l.length + 1) ls else []

end Alpine

import Alpine.Spec.Io

/-! The ADB container (`adb.c`, `adb.h`): its blocks, the two readers, and who is trusted.
Digests and public keys come from outside the repository and are parameters. The callback
is any program: it reads the block through the stream it is given and returns a code. The
readers keep the list of its calls. -/

namespace Alpine

/-- What the crypto library provides: `apk_digest_calc` of a whole blob, the `id` of a key, and
`apk_verify` of a signature over everything fed since `apk_verify_start` with the key. -/
structure Crypto (K : Type) where
  digestCalc : ℕ → Bytes → Option Bytes
  keyId : K → Bytes
  verify : K → Bytes → Bytes → Bool

/-- `struct apk_trust`, the part that verification reads -/
structure Trust (K : Type) where
  trustedKeyList : List K
  allowUntrusted : Bool

/-- `struct apk_extract_ctx`, the part that says which identity is asked for -/
structure ExtractCtx where
  generateIdentity : Bool
  generateAlg : ℕ
  verifyAlg : ℕ
  verifyDigest : Bytes

/-- little endian number -/
def leNat : Bytes → ℕ
  | [] => 0
  | c :: cs => c.toNat + 256 * leNat cs

def htole32 (n : ℕ) : Bytes :=
  [UInt8.ofNat n, UInt8.ofNat (n / 2 ^ 8), UInt8.ofNat (n / 2 ^ 16), UInt8.ofNat (n / 2 ^ 24)]

def adbBlockAdb : ℕ := 0
def adbBlockSig : ℕ := 1
def adbBlockData : ℕ := 2
def adbBlockExt : ℕ := 3
def adbBlockMax : ℕ := 4
def adbBlockAlignment : ℕ := 8

structure AdbBlock where
  typeSize : ℕ
  xSize : ℕ
  deriving DecidableEq, Repr

def AdbBlock.ofBytes (b : Bytes) : AdbBlock := ⟨leNat (b.take 4), leNat ((b.drop 8).take 8)⟩

variable (b : AdbBlock)

def adbBlockIsExt : Bool := b.typeSize / 2 ^ 30 = adbBlockExt

def adbBlockType : ℕ :=
  if adbBlockIsExt b then b.typeSize % 2 ^ 30 else b.typeSize / 2 ^ 30

def adbBlockRawsize : ℕ :=
  if adbBlockIsExt b then b.xSize else b.typeSize % 2 ^ 30

def adbBlockHdrsize : ℕ := if adbBlockIsExt b then 16 else 4

/-- `ROUND_UP` in 64 bits: a raw size in the last seven values wraps around to 0 -/
@[irreducible] def adbBlockSize : ℕ :=
  (adbBlockRawsize b + (adbBlockAlignment - 1)) % 2 ^ 64 / adbBlockAlignment * adbBlockAlignment

@[irreducible] def adbBlockLength : ℕ :=
  (adbBlockRawsize b + 2 ^ 64 - adbBlockHdrsize b) % 2 ^ 64

@[irreducible] def adbBlockPadding : ℕ :=
  (adbBlockSize b + 2 ^ 64 - adbBlockRawsize b) % 2 ^ 32

/-- `struct adb`, with `adb = none` for a null blob -/
structure Adb where
  schema : ℕ
  adb : Option Bytes
  deriving DecidableEq, Repr

/-- `struct adb_verify_ctx`; a digest is there if its bit of `calc` is set -/
structure AdbVerifyCtx where
  sha256 : Option Bytes
  sha512 : Option Bytes
  deriving DecidableEq, Repr

section

variable {K : Type} (crypto : Crypto K)

/-- `adb_digest_adb` once the switch has chosen the stored digest `d` and its algorithm -/
def adbDigestStored (d : Option Bytes) (alg : ℕ) (data : Option Bytes) : Except ℤ Bytes :=
  match d with
  | some md => .ok md
  | none =>
    match data with
    | none => .error (-apkeAdbBlock)
    | some data =>
      match crypto.digestCalc alg data with
      | none => .error (-apkeCryptoError)
      | some md => .ok md

def adbDigestAdb (vfy : AdbVerifyCtx) (hashAlg : ℕ) (data : Option Bytes) :
    Except ℤ Bytes × AdbVerifyCtx :=
  if hashAlg = apkDigestSha256_160 ∨ hashAlg = apkDigestSha256 then
    match adbDigestStored crypto vfy.sha256 apkDigestSha256 data with
    | .error r => (.error r, vfy)
    | .ok md => (.ok (md.take (apkDigestAlgLen hashAlg)), { vfy with sha256 := some md })
  else if hashAlg = apkDigestSha512 then
    match adbDigestStored crypto vfy.sha512 apkDigestSha512 data with
    | .error r => (.error r, vfy)
    | .ok md => (.ok (md.take (apkDigestAlgLen hashAlg)), { vfy with sha512 := some md })
  else (.error (-apkeCryptoNotSupported), vfy)

/-- the algorithm of the identity that is asked for -/
def identityAlg (ectx : ExtractCtx) : ℕ :=
  if ectx.generateAlg ≠ 0 then ectx.generateAlg else ectx.verifyAlg

def adbHandleIdentity (ectx : Option ExtractCtx) (vfy : AdbVerifyCtx) (b : Option Bytes) :
    ℤ × AdbVerifyCtx :=
  match ectx with
  | none => (0, vfy)
  | some ectx =>
    let alg := identityAlg ectx
    if alg = apkDigestNone ∨ alg = apkDigestSha1 then (0, vfy)
    else
      match adbDigestAdb crypto vfy alg b with
      | (.error r, vfy) => (r, vfy)
      | (.ok calculated, vfy) =>
        if ectx.generateIdentity then (0, vfy)
        else if apkBlobCompare ectx.verifyDigest calculated ≠ 0 then
          -- a truncated sha256 may be a unique id instead: leave it to the signatures
          if ectx.verifyAlg = apkDigestSha256_160 then (0, vfy) else (-apkeAdbIntegrity, vfy)
        else (1, vfy)

/-- `sizeof(struct adb_sign_v0)` -/
def adbSignV0Size : ℕ := 18

/-- what `adb_digest_v0_signature` feeds to the verification -/
def adbDigestV0Signature (schema : ℕ) (sigb md : Bytes) : Bytes :=
  htole32 schema ++ sigb.take adbSignV0Size ++ md

/-- the loop of `adb_trust_verify_signature` over the trusted keys -/
def verifyKeys (db : Adb) (sigb : Bytes) : List K → AdbVerifyCtx → ℤ × AdbVerifyCtx
  | [], vfy => (-apkeSignatureUntrusted, vfy)
  | key :: keys, vfy =>
    if (sigb.drop 2).take 16 ≠ crypto.keyId key then verifyKeys db sigb keys vfy
    else
      match adbDigestAdb crypto vfy ((sigb.getD 1 0).toNat) db.adb with
      | (.error _, vfy) => verifyKeys db sigb keys vfy
      | (.ok md, vfy) =>
        if crypto.verify key (adbDigestV0Signature db.schema sigb md) (sigb.drop adbSignV0Size) then
          (0, vfy)
        else verifyKeys db sigb keys vfy

/-- no key is trusted without a trust context, where the code would follow a null pointer -/
def adbTrustVerifySignature (trust : Option (Trust K)) (db : Adb) (vfy : AdbVerifyCtx)
    (sigb : Bytes) : ℤ × AdbVerifyCtx :=
  if db.adb = none then (-apkeAdbBlock, vfy)
  else if sigb.length < 2 then (-apkeAdbSignature, vfy)
  else if sigb.getD 0 0 ≠ 0 then (-apkeAdbSignature, vfy)
  else if sigb.length < adbSignV0Size then (-apkeAdbSignature, vfy)
  else verifyKeys crypto db sigb ((trust.map Trust.trustedKeyList).getD []) vfy

/-- a block as the callback sees it -/
inductive AdbSeen
  | adb
  | sig (b : Bytes)
  | data
  deriving DecidableEq, Repr

/-- a call of the callback, with the database it is given -/
structure AdbCall where
  db : Adb
  block : AdbSeen
  deriving DecidableEq, Repr

/-- The callback, with a state of its own. It may do with the stream what it likes, through the
operations of the stream; it does not write the database. -/
def AdbCallback (κ : Type) : Type 1 :=
  ∀ τ : Type, IstreamOps τ → κ → Adb → AdbBlock → Istream τ → ℤ × κ × Istream τ

/-- the locals of a reader that live across blocks, and the calls made so far -/
structure AdbReader (κ : Type) where
  db : Adb
  vfy : AdbVerifyCtx
  trusted : Bool
  allowed : ℕ
  cbs : κ
  calls : List AdbCall

variable {κ : Type} (t : Option (Trust K)) (ectx : Option ExtractCtx) (cb : AdbCallback κ)

def trustAllowsUntrusted : Bool := (t.map Trust.allowUntrusted).getD false

def AdbReader.init (schema : ℕ) (cbs : κ) : AdbReader κ where
  db := ⟨schema, none⟩
  vfy := ⟨none, none⟩
  trusted := trustAllowsUntrusted t
  allowed := 2 ^ adbBlockAdb
  cbs := cbs
  calls := []

/-- `db->adb` is set and its identity looked at: the same statements in both readers -/
def readerIdentity (rd : AdbReader κ) (b : Bytes) : ℤ × AdbReader κ :=
  let rd := { rd with db := { rd.db with adb := some b } }
  match adbHandleIdentity crypto ectx rd.vfy rd.db.adb with
  | (r, vfy) => (r, { rd with vfy := vfy, trusted := rd.trusted || decide (r = 1) })

/-- a signature is only looked at while nothing is trusted yet -/
def readerSignature (rd : AdbReader κ) (b : Bytes) : AdbReader κ :=
  if rd.trusted then rd
  else
    match adbTrustVerifySignature crypto t rd.db rd.vfy b with
    | (r, vfy) => { rd with vfy := vfy, trusted := decide (r = 0) }

/-- the callback is called on a stream -/
def readerCall {τ : Type} (ops : IstreamOps τ) (rd : AdbReader κ) (blk : AdbBlock) (seen : AdbSeen)
    (is : Istream τ) : ℤ × Istream τ × AdbReader κ :=
  match cb τ ops rd.cbs rd.db blk is with
  | (r, cbs, is) => (r, is, { rd with cbs := cbs, calls := rd.calls ++ [⟨rd.db, seen⟩] })

/-- the switch of `__adb_m_parse`; a negative result is a `goto err` -/
def parseSwitch (rd : AdbReader κ) (type : ℕ) (b : Bytes) : ℤ × AdbSeen × AdbReader κ :=
  if type = adbBlockAdb then
    let rd := { rd with allowed := 2 ^ adbBlockSig ||| 2 ^ adbBlockData }
    if b.length < 8 then (-apkeAdbBlock, .adb, rd)
    else if b.getD 0 0 ≠ 0 then (-apkeAdbVersion, .adb, rd)
    else
      match readerIdentity crypto ectx rd b with
      | (r, rd) => (if r < 0 then r else 0, .adb, rd)
  else if type = adbBlockSig then (0, .sig b, readerSignature crypto t rd b)
  else
    let rd := { rd with allowed := 2 ^ adbBlockData }
    if rd.trusted then (0, .data, rd) else (-apkeSignatureUntrusted, .data, rd)

/-- `adb_block_validate`: the end of the data, an error, or a block -/
def adbBlockValidate (data : Bytes) (pos : ℕ) : Except ℤ (Option AdbBlock) :=
  let len := data.length - pos
  if pos = data.length then .ok none
  else if len < 4 then .error (-apkeAdbBlock)
  else
    let blk := AdbBlock.ofBytes (data.drop pos)
    if len < adbBlockHdrsize blk then .error (-apkeAdbBlock)
    else if adbBlockRawsize blk < adbBlockHdrsize blk then .error (-apkeAdbBlock)
    else if len < adbBlockSize blk then .error (-apkeAdbBlock)
    else .ok (some blk)

/-- The loop of `__adb_m_parse` at offset `pos`, with the result of the last callback. A block
whose size wraps around runs past the mapping, into whatever memory is `beyond` it, and the
loop then comes back to the same block, so it need not end; no result after `n` rounds
is `none`. -/
def parseLoop (data beyond : Bytes) : ℕ → ℕ → ℤ → AdbReader κ → Option ℤ × AdbReader κ
  | 0, _, _, rd => (none, rd)
  | n + 1, pos, r, rd =>
    match adbBlockValidate data pos with
    | .error e => (some (if r = 0 then e else r), rd)
    | .ok none => (some r, rd)
    | .ok (some blk) =>
      let b := ((data ++ beyond).drop (pos + adbBlockHdrsize blk)).take (adbBlockLength blk)
      let type := adbBlockType blk
      if adbBlockMax ≤ type ∨ !rd.allowed.testBit type then (some (-apkeAdbBlock), rd)
      else
        match parseSwitch crypto t ectx rd type b with
        | (r, seen, rd) =>
          if r < 0 then (some r, rd)
          else
            match readerCall cb blobOps rd blk seen (apkIstreamFromBlob b) with
            | (r, _, rd) =>
              if r < 0 then (some r, rd)
              else parseLoop data beyond n (pos + adbBlockSize blk) r rd

/-- the code after the label `err` of `__adb_m_parse` -/
def parseEnd (r : ℤ) (rd : AdbReader κ) : ℤ × AdbReader κ :=
  let r := if 0 < r then -apkeAdbBlock else r
  let r :=
    if r ≠ 0 then r
    else if !rd.trusted then -apkeSignatureUntrusted
    else if rd.db.adb = none then -apkeAdbBlock
    else 0
  (r, if r ≠ 0 then { rd with db := { rd.db with adb := none } } else rd)

def adbMParse (data beyond : Bytes) (fuel : ℕ) (rd : AdbReader κ) : Option ℤ × AdbReader κ :=
  match parseLoop crypto t ectx cb data beyond fuel 0 0 rd with
  | (none, rd) => (none, rd)
  | (some r, rd) => (some (parseEnd r rd).1, (parseEnd r rd).2)

def adbFormatMagic : ℕ := 0x2e424441

/-- the checks of `struct adb_file_header`, and the schema it gives -/
def adbFileHeader (expectedSchema : ℕ) (hdr : Bytes) : Except ℤ ℕ :=
  if leNat (hdr.take 4) ≠ adbFormatMagic then .error (-apkeAdbHeader)
  else
    let schema := leNat ((hdr.drop 4).take 4)
    if expectedSchema ≠ 0 ∧ expectedSchema ≠ schema then .error (-apkeAdbSchema)
    else .ok schema

/-- `__adb_m_mmap`, where `adb_free` clears the whole database after an error -/
def adbMMmap (mmap beyond : Bytes) (expectedSchema fuel : ℕ) (rd : AdbReader κ) :
    Option ℤ × AdbReader κ :=
  let run (rd : AdbReader κ) (data : Bytes) : Option ℤ × AdbReader κ :=
    match adbMParse crypto t ectx cb data beyond fuel rd with
    | (some r, rd) => (some r, if r ≠ 0 then { rd with db := ⟨0, none⟩ } else rd)
    | (none, rd) => (none, rd)
  if !expectedSchema.testBit 31 then
    if mmap.length < 8 then (some (-apkeAdbHeader), rd)
    else
      match adbFileHeader expectedSchema mmap with
      | .error e => (some e, rd)
      | .ok schema => run { rd with db := { rd.db with schema := schema } } (mmap.drop 8)
  else run rd mmap

section

variable {σ : Type} (ops : IstreamOps σ)

variable (is : Istream σ) (rd : AdbReader κ) (blk : AdbBlock)

/-- the `ADB_BLOCK_ADB` case of `__adb_m_stream` up to the label `skip_padding` -/
def streamAdb (sz : ℕ) : ℤ × Istream σ × AdbReader κ :=
  let rd := { rd with allowed := 2 ^ adbBlockSig ||| 2 ^ adbBlockData }
  -- the length is a `long` in the blob: from 2 ^ 63 on it is negative
  if sz < 16 ∨ 2 ^ 63 ≤ sz then (-apkeAdbBlock, is, rd)
  else
    match apkIstreamRead ops is sz with
    | (r, b, is) =>
      if r < 0 then (r, is, rd)
      else if b.getD 0 0 ≠ 0 then (-apkeAdbVersion, is, rd)
      else
        match readerIdentity crypto ectx rd b with
        | (r, rd) =>
          if r < 0 then (r, is, rd)
          else
            match readerCall cb blobOps rd blk .adb (apkIstreamFromBlob b) with
            | (r, _, rd) => (if r < 0 then r else 0, is, rd)

/-- a `SIG` or `DATA` block that passed its case of the switch goes to the callback as a
segment of the stream -/
def streamSegment (seen : AdbSeen) (sz : ℕ) : ℤ × Istream σ × AdbReader κ :=
  match readerCall cb (segmentOps ops) rd blk seen (apkIstreamSegment is sz) with
  | (r, seg, rd) =>
    match segmentCloseError ops seg r with
    | (r, is) => (r, is, rd)

/-- one block of `__adb_m_stream`; a negative result leaves the loop -/
def streamBlock : ℤ × Istream σ × AdbReader κ :=
  let sz := adbBlockLength blk
  if adbBlockType blk = adbBlockAdb then streamAdb crypto ectx cb ops is rd blk sz
  else if adbBlockType blk = adbBlockSig then
    match apkIstreamPeek ops is sz with
    | (.error e, is) => (e, is, rd)
    | (.ok sig, is) => streamSegment cb ops is (readerSignature crypto t rd sig) blk (.sig sig) sz
  else
    let rd := { rd with allowed := 2 ^ adbBlockData }
    if rd.trusted then streamSegment cb ops is rd blk .data sz
    else (-apkeSignatureUntrusted, is, rd)

/-- the size of the header by its first word; without one the whole header is read -/
def streamHdrsize (hdr : Except ℤ Bytes) : ℕ :=
  match hdr with
  | .ok b => adbBlockHdrsize (AdbBlock.ofBytes b)
  | .error _ => 16

/-- the label `skip_padding`; a result here leaves the loop -/
def streamPadding : Option ℤ × Istream σ × AdbReader κ :=
  let skip := apkIstreamSkip ops is (adbBlockPadding blk)
  (if skip.1 < 0 then some skip.1 else none, skip.2, rd)

/-- a block whose header has been read -/
def streamChecked : Option ℤ × Istream σ × AdbReader κ :=
  if adbBlockMax ≤ adbBlockType blk ∨ !rd.allowed.testBit (adbBlockType blk) then
    (some (-apkeAdbBlock), is, rd)
  else
    match streamBlock crypto t ectx cb ops is rd blk with
    | (r, is, rd) => if r < 0 then (some r, is, rd) else streamPadding ops is rd blk

/-- one round of the loop of `__adb_m_stream` -/
def streamStep : Option ℤ × Istream σ × AdbReader κ :=
  match apkIstreamPeek ops is 4 with
  | (hdr, is) =>
    match apkIstreamReadMax ops is (streamHdrsize hdr) with
    | (r, b, is) =>
      if r ≠ streamHdrsize hdr then (some r, is, rd)
      else streamChecked crypto t ectx cb ops is rd (AdbBlock.ofBytes b)

/-- the loop of `__adb_m_stream`; no result after `n` blocks is `none` -/
def streamLoop : ℕ → Istream σ → AdbReader κ → Option ℤ × Istream σ × AdbReader κ
  | 0, is, rd => (none, is, rd)
  | n + 1, is, rd =>
    match streamStep crypto t ectx cb ops is rd with
    | (some r, is, rd) => (some r, is, rd)
    | (none, is, rd) => streamLoop n is rd

/-- the code after the label `err` of `__adb_m_stream` -/
def streamEnd (r : ℤ) (rd : AdbReader κ) : ℤ × AdbReader κ :=
  let r := if 0 < r then -apkeAdbBlock else r
  let r :=
    if r ≠ 0 ∧ r ≠ -ecanceled then r
    else if !rd.trusted then -apkeSignatureUntrusted
    else if rd.db.adb = none then -apkeAdbBlock
    else r
  (r, if r ≠ 0 ∧ r ≠ -ecanceled then { rd with db := { rd.db with adb := none } } else rd)

def adbMStream (expectedSchema fuel : ℕ) (rd : AdbReader κ) : Option ℤ × AdbReader κ :=
  let finish (r : ℤ) (is : Istream σ) (rd : AdbReader κ) : Option ℤ × AdbReader κ :=
    (some (apkIstreamCloseError ops is (streamEnd r rd).1), (streamEnd r rd).2)
  let run (is : Istream σ) (rd : AdbReader κ) : Option ℤ × AdbReader κ :=
    match streamLoop crypto t ectx cb ops fuel is rd with
    | (none, _, rd) => (none, rd)
    | (some r, is, rd) => finish r is rd
  if !expectedSchema.testBit 31 then
    match apkIstreamRead ops is 8 with
    | (r, hdr, is) =>
      if r < 0 then finish r is rd
      else
        match adbFileHeader expectedSchema hdr with
        | .error e => finish e is rd
        | .ok schema => run is { rd with db := { rd.db with schema := schema } }
  else run is rd

/-- `adb_m_process`: a stream that is one block of memory is parsed in place -/
def adbMProcess (beyond : Bytes) (expectedSchema fuel : ℕ) (cbs : κ) : Option ℤ × AdbReader κ :=
  let rd := AdbReader.init t (if expectedSchema.testBit 31 then expectedSchema % 2 ^ 31 else 0) cbs
  match apkIstreamMmap is with
  | some mmap => adbMMmap crypto t ectx cb mmap beyond expectedSchema fuel rd
  | none => adbMStream crypto t ectx cb ops is expectedSchema fuel rd

end

end

end Alpine

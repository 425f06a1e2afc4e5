import Alpine.Spec.AdbWrite
import Alpine.Spec.Fdb

/-! Tar archives (`tar.c`): the writer, which knows regular files, and the parser, which hands each
entry to a callback together with a stream of its data. The ids of users and the hash of extended
attributes come from elsewhere and are parameters. -/

namespace Alpine

def enametoolong : ℤ := 36
def sIfchr : ℕ := 0o020000
def sIfblk : ℕ := 0o060000
def sIfifo : ℕ := 0o010000

structure TarHeader where
  name : Bytes
  mode : Bytes
  uid : Bytes
  gid : Bytes
  size : Bytes
  mtime : Bytes
  chksum : Bytes
  typeflag : UInt8
  linkname : Bytes
  magic : Bytes
  uname : Bytes
  gname : Bytes
  devmajor : Bytes
  devminor : Bytes
  pfx : Bytes
  padding : Bytes
  deriving DecidableEq, Repr

/-- the header as it lies in memory -/
def TarHeader.bytes (h : TarHeader) : Bytes :=
  h.name ++ h.mode ++ h.uid ++ h.gid ++ h.size ++ h.mtime ++ h.chksum ++ [h.typeflag] ++
    h.linkname ++ h.magic ++ h.uname ++ h.gname ++ h.devmajor ++ h.devminor ++ h.pfx ++ h.padding

/-- 512 bytes as a header -/
def TarHeader.ofBytes (b : Bytes) : TarHeader where
  name := b.take 100
  mode := (b.drop 100).take 8
  uid := (b.drop 108).take 8
  gid := (b.drop 116).take 8
  size := (b.drop 124).take 12
  mtime := (b.drop 136).take 12
  chksum := (b.drop 148).take 8
  typeflag := b.getD 156 0
  linkname := (b.drop 157).take 100
  magic := (b.drop 257).take 8
  uname := (b.drop 265).take 32
  gname := (b.drop 297).take 32
  devmajor := (b.drop 329).take 8
  devminor := (b.drop 337).take 8
  pfx := (b.drop 345).take 155
  padding := (b.drop 500).take 12

/-- `get_octal`: the number, and whether the field holds nothing else -/
def getOctal (s : Bytes) : ℕ × Bool :=
  let b := apkBlobPullUint s 8
  (b.1, b.2.dropWhile (fun c => c = 0 ∨ c = 0x20) = [])

/-- the last octal digits of a number, as many as there is room for -/
def octalDigits : ℕ → ℕ → Bytes
  | 0, _ => []
  | l + 1, value => octalDigits l (value / 8) ++ [asc '0' + UInt8.ofNat (value % 8)]

def putOctal (l value : ℕ) (hasZero : Bool) : Bytes :=
  if hasZero then octalDigits (l - 1) value ++ [0] else octalDigits l value

/-- `struct apk_file_info` of an archive; the device is the pair that `makedev` joins -/
structure ArchiveEntry extends FileInfo where
  uname : Option Bytes
  gname : Option Bytes
  mtime : ℤ
  device : ℕ × ℕ
  xattrs : List (Bytes × Bytes)

/-- a field of zeros with `strlcpy` into it -/
def strlcpyField (n : ℕ) (s : Bytes) : Bytes :=
  s.take (n - 1) ++ List.replicate (n - (s.take (n - 1)).length) 0

/-- the bits of a number as a `size_t` -/
def toSizeT (z : ℤ) : ℕ := (z % 2 ^ 64).toNat

variable (typeflag : UInt8) (os : Bytes) (size : ℤ) (ae : ArchiveEntry)

/-- the header before its checksum, which counts as blanks -/
def tarHeaderOf (name : Bytes) (size : ℤ) (ae : ArchiveEntry) : TarHeader where
  name := strlcpyField 100 name
  mode := putOctal 8 (ae.mode &&& 0o7777) true
  uid := putOctal 8 ae.uid true
  gid := putOctal 8 ae.gid true
  size := putOctal 12 (toSizeT (toInt32 size)) false
  mtime := putOctal 12 (toSizeT ae.mtime) false
  chksum := List.replicate 8 0x20
  typeflag := typeflag
  linkname := List.replicate 100 0
  magic := ascs ['u', 's', 't', 'a', 'r', ' ', ' '] ++ [0]
  uname := strlcpyField 32 (ae.uname.getD (ascs ['r', 'o', 'o', 't']))
  gname := strlcpyField 32 (ae.gname.getD (ascs ['r', 'o', 'o', 't']))
  devmajor := List.replicate 8 0
  devminor := List.replicate 8 0
  pfx := List.replicate 155 0
  padding := List.replicate 12 0

/-- `apk_tar_fill_header` of a header of zeros; the size is passed as an `int` -/
def apkTarFillHeader (name : Bytes) (size : ℤ) (ae : ArchiveEntry) : TarHeader :=
  let hdr := tarHeaderOf typeflag name size ae
  { hdr with chksum := putOctal 7 ((hdr.bytes.map UInt8.toNat).sum) true ++ [0x20] }

def apkTarWritePadding : Bytes :=
  let pad := 512 - (size % 512).toNat
  if pad ≠ 512 then os ++ List.replicate pad 0 else os

def longLink : Bytes := ascs ['.', '/', '.', '/', '@', 'L', 'o', 'n', 'g', 'L', 'i', 'n', 'k']

/-- the name is written with the zero that ends it, which its header does not count -/
def apkTarWriteLongnameEntry : Bytes :=
  let os := os ++ (apkTarFillHeader (asc 'L') longLink ae.name.length ae).bytes
  let os := os ++ ae.name ++ [0]
  apkTarWritePadding os (ae.name.length + 1)

/-- `apk_tar_write_entry`, with the bytes of the output so far; writing does not fail -/
def apkTarWriteEntry (ae : Option ArchiveEntry) (data : Option Bytes) : ℤ × Bytes :=
  match ae with
  | none => (0, os ++ List.replicate 512 0 ++ List.replicate 512 0)
  | some ae =>
    if !ae.isReg then (-1, os)
    else
      let os := if 99 < ae.name.length then apkTarWriteLongnameEntry os ae else os
      let os := os ++ (apkTarFillHeader (asc '0') ae.name ae.size ae).bytes
      match data with
      | none => (0, os)
      | some data => (0, apkTarWritePadding (os ++ data.take ae.size) ae.size)

/-- what the parser asks of others: `apk_id_cache_resolve_uid` and `_gid`, and the digest of
`apk_fileinfo_hash_xattr` -/
structure TarEnv where
  resolveUid : Bytes → ℕ → ℕ
  resolveGid : Bytes → ℕ → ℕ
  hashXattr : List (Bytes × Bytes) → Bytes

/-- an entry while its pax header is read: `named` is the string `entry.name` points to, none for the
name of the header in the buffer, and `cut` says that the name of the last record got a zero too -/
structure PaxEntry where
  entry : ArchiveEntry
  named : Option Bytes
  cut : Bool

/-- one record of a pax header -/
def paxRecord (e : PaxEntry) (name value : Bytes) : PaxEntry :=
  let fi := e.entry
  if apkBlobCompare name (ascs ['p', 'a', 't', 'h']) = 0 then
    ⟨{ fi with name := cstr value }, some (cstr value), false⟩
  else if apkBlobCompare name (ascs ['l', 'i', 'n', 'k', 'p', 'a', 't', 'h']) = 0 then
    ⟨{ fi with linkTarget := some (cstr value) }, e.named, false⟩
  else
    match apkBlobPullBlobMatch name (lit "SCHILY.xattr.") with
    | some name => ⟨{ fi with xattrs := fi.xattrs ++ [(cstr name, value)] }, e.named, true⟩
    | none =>
      match apkBlobPullBlobMatch name (lit "APK-TOOLS.checksum.") with
      | some name =>
        let alg := if apkBlobCompare name (ascs ['S', 'H', 'A', '1']) = 0 then apkDigestSha1
          else apkDigestNone
        if fi.digestAlg < alg then
          match apkBlobPullHexdump (apkDigestAlgLen alg) value with
          | some d => ⟨{ fi with digestAlg := alg, digest := d.1 }, e.named, false⟩
          | none => ⟨{ fi with digestAlg := apkDigestNone, digest := [] }, e.named, false⟩
        else ⟨fi, e.named, false⟩
      | none => ⟨fi, e.named, false⟩

/-- The loop of `handle_extended_header` from offset `pos` of the pax header. It ends the values, and
some names, with zeros in the header itself, so a header that is used twice ends at its first
record. Every round takes at least one byte. -/
def extendedHeaderLoop (paxlen : ℕ) : ℕ → ℕ → PaxEntry → Bytes → PaxEntry × Bytes
  | 0, _, e, pax => (e, pax)
  | n + 1, pos, e, pax =>
    let hdr := (pax.take paxlen).drop pos
    let num := apkBlobPullUint hdr 10
    let len := num.1 % 2 ^ 32
    match (apkBlobPullChar num.2 ' ').bind fun h => apkBlobSplit h (asc '=') with
    | none => (e, pax)
    | some (name, rest) =>
      let used := hdr.length - rest.length + 1
      if len < used then (e, pax)
      else if rest.length < len - used then (e, pax)
      else
        match apkBlobPullChar (rest.drop (len - used)) '\n' with
        | none => (e, pax)
        | some after =>
          let next := paxlen - after.length
          let pax := pax.set (next - 1) 0
          let e := paxRecord e name (rest.take (len - used))
          extendedHeaderLoop paxlen n next e (if e.cut then pax.set (paxlen - rest.length - 1) 0 else pax)

def handleExtendedHeader (e : PaxEntry) (pax : Bytes) (paxlen : ℕ) : PaxEntry × Bytes :=
  extendedHeaderLoop paxlen paxlen 0 e pax

/-- the callback, with a state of its own -/
def TarCallback (κ : Type) : Type 1 :=
  ∀ τ : Type, IstreamOps τ → κ → ArchiveEntry → Istream τ → ℤ × κ × Istream τ

/-- The locals of `apk_tar_parse` that live across headers, and the calls made so far. `name` is the
string `entry.name` points to, none for the name of the header in the buffer. -/
structure TarParser (κ : Type) where
  name : Option Bytes
  paxlen : ℕ
  pax : Bytes
  fin : Bool
  cbs : κ
  calls : List ArchiveEntry

def TarParser.init {κ : Type} (cbs : κ) : TarParser κ := ⟨none, 0, [], false, cbs, []⟩

/-- The entry of a header, before the pax header and the type flag, unless a number is not one. A size
has at most twelve digits, which is below the limit of the code, and a name with its `prefix` fits
the buffer for it. -/
def tarEntry (env : TarEnv) (hdr : TarHeader) (name : Option Bytes) : Option PaxEntry :=
  let size := getOctal hdr.size
  let uid := getOctal hdr.uid
  let gid := getOctal hdr.gid
  let mode := getOctal hdr.mode
  let mtime := getOctal hdr.mtime
  let devmajor := getOctal hdr.devmajor
  let devminor := getOctal hdr.devminor
  if size.2 ∧ uid.2 ∧ gid.2 ∧ mode.2 ∧ mtime.2 ∧ devmajor.2 ∧ devminor.2 then
    let name :=
      if hdr.pfx.head?.getD 0 ≠ 0 ∧ hdr.typeflag ≠ asc 'x' ∧ hdr.typeflag ≠ asc 'g' then
        some (cstr hdr.pfx ++ [asc '/'] ++ cstr hdr.name)
      else name
    some ⟨{
        name := name.getD (cstr hdr.name)
        linkTarget := none
        size := size.1
        uid := env.resolveUid (cstr hdr.uname) uid.1
        gid := env.resolveGid (cstr hdr.gname) gid.1
        mode := mode.1 &&& 0o7777
        digestAlg := apkDigestNone
        digest := []
        xattrDigest := []
        uname := some (cstr hdr.uname)
        gname := some (cstr hdr.gname)
        mtime := mtime.1
        device := (devmajor.1, devminor.1)
        xattrs := [] }, name, false⟩
  else none

/-- the type bits that a type flag adds to the mode -/
def tarFileType : ℕ :=
  if typeflag = asc '0' ∨ typeflag = asc '7' ∨ typeflag = asc '1' then sIfreg
  else if typeflag = asc '2' then sIflnk
  else if typeflag = asc '3' then sIfchr
  else if typeflag = asc '4' then sIfblk
  else if typeflag = asc '5' then sIfdir
  else if typeflag = asc '6' then sIfifo
  else 0

/-- the name or the target of an entry is longer than the parser takes -/
def tarTooLong (entry : ArchiveEntry) : Bool :=
  pathMax - 10 ≤ entry.name.length ∨ entry.linkTarget.any fun l => decide (pathMax - 10 ≤ l.length)

section

variable {σ κ : Type} (env : TarEnv) (ops : IstreamOps σ) (cb : TarCallback κ)

/-- the label `err`, where a result that is not negative is a record that was cut off -/
def tarErr (r : ℤ) : ℤ := if 0 ≤ r then -apkeEof else r

variable (is : Istream σ) (st : TarParser κ)

/-- the rest of the data of a header; a result leaves the loop -/
def tarSkip (toskip : ℕ) : Option ℤ × Istream σ × TarParser κ :=
  if toskip = 0 then (none, is, st)
  else
    match apkIstreamSkip ops is toskip with
    | (r, is) => (if r < 0 then some r else none, is, st)

/-- an entry goes to the callback with a segment of the stream; on an error the segment is left
open -/
def tarCall (entry : ArchiveEntry) : Option ℤ × Istream σ × TarParser κ :=
  match cb _ (segmentOps ops) st.cbs entry (apkIstreamSegment is entry.size) with
  | (r, cbs, seg) =>
    let st := { st with cbs := cbs, calls := st.calls ++ [entry] }
    if r ≠ 0 then (some r, seg.src.pis, st)
    else
      tarSkip ops (segmentClose ops seg).2 { st with name := none, paxlen := 0 }
        (roundUp entry.size 512 - entry.size)

/-- the switch over the type flag and what follows it -/
def tarSwitch (hdr : TarHeader) (entry : ArchiveEntry) : Option ℤ × Istream σ × TarParser κ :=
  if hdr.typeflag = asc 'L' then
    match apkIstreamRead ops is entry.size with
    | (r, b, is) =>
      if r < 0 then (some r, is, st)
      else
        let entry := { entry with name := cstr b }
        if tarTooLong entry then (some (-enametoolong), is, st)
        else tarSkip ops is { st with name := some entry.name } (roundUp entry.size 512 - entry.size)
  else if hdr.typeflag = asc 'x' then
    match apkIstreamRead ops is entry.size with
    | (r, b, is) =>
      if r < 0 then (some r, is, st)
      else
        let st := { st with paxlen := entry.size, pax := b ++ st.pax.drop b.length }
        if tarTooLong entry then (some (-enametoolong), is, st)
        else tarSkip ops is st (roundUp entry.size 512 - entry.size)
  else
    let entry := { entry with
      mode := entry.mode ||| tarFileType hdr.typeflag
      linkTarget :=
        if hdr.typeflag = asc '1' ∨ hdr.typeflag = asc '2' then
          some (entry.linkTarget.getD (cstr hdr.linkname))
        else entry.linkTarget }
    if tarTooLong entry then (some (-enametoolong), is, st)
    else if entry.mode &&& sIfmt ≠ 0 then tarCall ops cb is st entry
    else tarSkip ops is st (roundUp entry.size 512)

/-- one header with a name; a result leaves the loop for the label `err` -/
def tarHeader (hdr : TarHeader) : Option ℤ × Istream σ × TarParser κ :=
  if hdr.magic.take 5 ≠ ascs ['u', 's', 't', 'a', 'r'] then (some (-apkeV2pkgFormat), is, st)
  else
    match tarEntry env hdr st.name with
    | none => (some (-apkeV2pkgFormat), is, st)
    | some e =>
      if st.paxlen ≠ 0 then
        match handleExtendedHeader e st.pax st.paxlen with
        | (e, pax) =>
          tarSwitch ops cb is { st with name := e.named, pax := pax } hdr
            { e.entry with xattrDigest := env.hashXattr e.entry.xattrs }
      else tarSwitch ops cb is { st with name := e.named } hdr e.entry

/-- the loop over the records behind the end of the archive -/
def tarTail : ℕ → Istream σ → Option ℤ × Istream σ
  | 0, is => (none, is)
  | n + 1, is =>
    match apkIstreamReadMax ops is 512 with
    | (r, b, is) =>
      if r ≠ 512 then (some (if r = 0 then 0 else tarErr r), is)
      else if b.head?.getD 0 ≠ 0 then (some (tarErr r), is)
      else tarTail n is

/-- the loop of `apk_tar_parse` and what follows it; no result after `n` headers is `none` -/
def tarLoop : ℕ → Istream σ → TarParser κ → Option ℤ × Istream σ × TarParser κ
  | 0, is, st => (none, is, st)
  | n + 1, is, st =>
    match apkIstreamReadMax ops is 512 with
    | (r, b, is) =>
      if r ≠ 512 then (some (if r = 0 then 0 else tarErr r), is, st)
      else if b.head?.getD 0 = 0 then
        if st.fin then
          match tarTail ops n is with
          | (r, is) => (r, is, st)
        else tarLoop n is { st with fin := true }
      else
        match tarHeader env ops cb is st (TarHeader.ofBytes b) with
        | (some r, is, st) => (some (tarErr r), is, st)
        | (none, is, st) => tarLoop n is st

def apkTarParse (fuel : ℕ) (cbs : κ) : Option ℤ × TarParser κ :=
  match tarLoop env ops cb fuel is (TarParser.init cbs) with
  | (none, _, st) => (none, st)
  | (some r, is, st) => (some (apkIstreamCloseError ops is r), st)

end

end Alpine

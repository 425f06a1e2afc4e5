import Alpine.Spec.Codec
import Alpine.Spec.Tar

/-! `abuild-tar` (`abuild-tar.c`): a filter that adds a record with the digest of the file to the pax
header of each file of a tar archive. The input is what can be read, so that an error of `read` is
its end; writing does not fail, and there is memory. -/

namespace Alpine

structure EvpMd where
  name : Bytes
  size : ℕ
  digest : Bytes → Bytes
  digest_length : ∀ b, (digest b).length = size

/-- `get_octal` of `abuild-tar.c`, with the loop of `apk_blob_pull_uint` -/
def abuildGetOctal (s : Bytes) : ℕ := (apkBlobPullUint s 8).1

/-- the sum of the bytes of a header, where its checksum counts as blanks -/
def TarHeader.sum (hdr : TarHeader) : ℕ :=
  (({ hdr with chksum := List.replicate 8 0x20 } : TarHeader).bytes.map UInt8.toNat).sum

def tarhdrChecksum (hdr : TarHeader) : TarHeader :=
  { hdr with chksum := putOctal 7 hdr.sum true ++ [0x20] }

/-- a header after `memset` -/
def zeroHeader : TarHeader := TarHeader.ofBytes (List.replicate 512 0)

/-- `struct buf`, with the `size` bytes at `ptr` -/
structure Buf where
  bytes : Bytes
  alloc : ℕ

def bufResize (b : Buf) (newsize : ℕ) : Buf :=
  if newsize ≤ b.alloc then b else { b with alloc := newsize }

def bufPadto (b : Buf) (alignment : ℕ) : Buf :=
  let newsize := roundUp b.bytes.length alignment
  let b := bufResize b newsize
  { b with bytes := b.bytes ++ List.replicate (newsize - b.bytes.length) 0 }

/-- the buffer and the rest of the input, unless that is too short -/
def bufReadFd (b : Buf) (stdin : Bytes) (size : ℕ) : Option (Buf × Bytes) :=
  if stdin.length < size then none
  else some ({ bufResize b size with bytes := stdin.take size }, stdin.drop size)

/-- `for (i = len; i > 9; i /= 10) len++` -/
def extHeaderLen : ℕ → ℕ → ℕ → ℕ
  | 0, _, len => len
  | n + 1, i, len => if 9 < i then extHeaderLen n (i / 10) (len + 1) else len

/-- the length that is printed in front of a record -/
def extRecordLen (hdr value : Bytes) : ℕ :=
  let len := 1 + 1 + hdr.length + 1 + value.length * 2 + 1
  extHeaderLen len len len

/-- `"%u %s=%s\n"` -/
def extRecord (len : ℕ) (hdr value : Bytes) : Bytes :=
  uintText len 10 ++ [asc ' '] ++ hdr ++ [asc '='] ++ value ++ [asc '\n']

/-- there is no result if the record is longer than the room that was made for it -/
def bufAddExtHeaderHexdump (b : Buf) (hdr value : Bytes) : Option Buf :=
  let len := extRecordLen hdr value
  let b := bufResize b (b.bytes.length + len)
  let record := extRecord len hdr (hexText value)
  if b.alloc < b.bytes.length + record.length then none
  else some { b with bytes := b.bytes ++ record }

/-- `checksumhdr`, an array of 32 bytes -/
def checksumHdr (md : EvpMd) : Bytes := (lit "APK-TOOLS.checksum." ++ md.name).take 31

/-- the variables of `do_it` that live across headers, with the input that is left and the output -/
structure AbuildTar where
  stdin : Bytes
  stdout : Bytes
  paxhdr : TarHeader
  pax : Buf
  data : Buf

/-- how `do_it` ends; a record that does not fit its buffer leaves no result -/
inductive AbuildTarStop
  | exit (ret : ℤ) (stdout : Bytes)
  | overflow
  deriving DecidableEq

def dohash (md : Option EvpMd) (hdr : TarHeader) : Bool :=
  md.isSome ∧ (hdr.typeflag = asc '0' ∨ hdr.typeflag = asc '7' ∨ hdr.typeflag = asc '2')

/-- the data of an entry and its digest, which is added to the pax header -/
def abuildTarHash (md : EvpMd) (hdr : TarHeader) (size alignedSize : ℕ) (st : AbuildTar) :
    Except AbuildTarStop AbuildTar :=
  match bufReadFd st.data st.stdin alignedSize with
  | none => .error (.exit 1 st.stdout)
  | some (data, stdin) =>
    let digest :=
      if hdr.typeflag ≠ asc '2' then md.digest (data.bytes.take size)
      else md.digest (cstr hdr.linkname)
    match bufAddExtHeaderHexdump st.pax (checksumHdr md) digest with
    | none => .error .overflow
    | some pax =>
      .ok { st with
        stdin := stdin
        data := data
        pax := pax
        paxhdr := tarhdrChecksum { st.paxhdr with size := putOctal 12 pax.bytes.length true } }

/-- the pax header and its content -/
def abuildTarPax (st : AbuildTar) : AbuildTar :=
  if st.pax.bytes = [] then st
  else
    let pax := bufPadto st.pax 512
    { st with pax := pax, stdout := st.stdout ++ st.paxhdr.bytes ++ pax.bytes }

/-- the loop that copies blocks if `full_splice` returned -1 -/
def abuildTarBlocks : ℕ → AbuildTar → Except AbuildTarStop AbuildTar
  | 0, st => .ok st
  | n + 1, st =>
    if st.stdin.length < 512 then .error (.exit 1 st.stdout)
    else abuildTarBlocks n
      { st with stdin := st.stdin.drop 512, stdout := st.stdout ++ st.stdin.take 512 }

/-- Data that was not read. `splice` is the `errno` with which `splice` fails, if it does; the result of
`full_splice` is stored in an `int`. -/
def abuildTarCopy (splice : Option ℤ) (alignedSize : ℕ) (st : AbuildTar) :
    Except AbuildTarStop AbuildTar :=
  if alignedSize = 0 then .ok st
  else
    let moved := if splice.isSome then [] else st.stdin.take alignedSize
    let r := (splice.map Neg.neg).getD (toInt32 moved.length)
    let st := { st with stdin := st.stdin.drop moved.length, stdout := st.stdout ++ moved }
    if r = -1 then abuildTarBlocks (alignedSize / 512) st
    else if r ≠ alignedSize then .error (.exit 1 st.stdout)
    else .ok st

/-- an entry, with its pax header if there is something in it -/
def abuildTarEntry (md : Option EvpMd) (splice : Option ℤ) (block : Bytes) (hdr : TarHeader)
    (st : AbuildTar) : Except AbuildTarStop AbuildTar := do
  let size := abuildGetOctal hdr.size
  let alignedSize := roundUp size 512
  let st ← match md with
    | some md => if dohash (some md) hdr then abuildTarHash md hdr size alignedSize st else .ok st
    | none => .ok st
  let st := abuildTarPax st
  let st := { st with stdout := st.stdout ++ block }
  let st ←
    if dohash md hdr then .ok { st with stdout := st.stdout ++ st.data.bytes }
    else abuildTarCopy splice alignedSize st
  .ok { st with paxhdr := zeroHeader, pax := { st.pax with bytes := [] } }

/-- a pax header, which is kept for the entry after it -/
def abuildTarExt (hdr : TarHeader) (st : AbuildTar) : Except AbuildTarStop AbuildTar :=
  let size := abuildGetOctal hdr.size
  match bufReadFd st.pax st.stdin (roundUp size 512) with
  | none => .error (.exit 1 st.stdout)
  | some (pax, stdin) =>
    .ok { st with stdin := stdin, paxhdr := hdr, pax := { pax with bytes := pax.bytes.take size } }

/-- one round of the loop of `do_it` -/
def abuildTarRound (md : Option EvpMd) (cut : Bool) (splice : Option ℤ) (st : AbuildTar) :
    Except AbuildTarStop AbuildTar :=
  if st.stdin.length < 512 then .error (.exit 1 st.stdout)
  else
    let block := st.stdin.take 512
    let hdr := TarHeader.ofBytes block
    let st := { st with stdin := st.stdin.drop 512 }
    if cut ∧ hdr.name.head?.getD 0 = 0 then .error (.exit 0 st.stdout)
    else if hdr.typeflag = asc 'x' then abuildTarExt hdr st
    else abuildTarEntry md splice block hdr st

def abuildTarLoop (md : Option EvpMd) (cut : Bool) (splice : Option ℤ) :
    ℕ → AbuildTar → Option AbuildTarStop
  | 0, _ => none
  | n + 1, st =>
    match abuildTarRound md cut splice st with
    | .error e => some e
    | .ok st => abuildTarLoop md cut splice n st

/-- `do_it`; every round reads at least a block -/
def doIt (md : Option EvpMd) (cut : Bool) (splice : Option ℤ) (stdin : Bytes) : Option AbuildTarStop :=
  abuildTarLoop md cut splice (stdin.length + 1) ⟨stdin, [], zeroHeader, ⟨[], 0⟩, ⟨[], 0⟩⟩

end Alpine

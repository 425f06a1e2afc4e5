import Mathlib

/-! The arrays of `common.c`, with their items for memory. What new memory holds is a parameter of each
operation; `malloc` does not fail, and the size of the memory in bytes does not wrap around. -/

namespace Alpine

variable {α : Type}

/-- `struct apk_array` and the items behind it -/
structure ApkArray (α : Type) where
  num : ℕ
  capacity : ℕ
  allocated : Bool
  item : List α
  deriving DecidableEq

def apkArrayEmpty : ApkArray α := ⟨0, 0, false, []⟩

/-- memory for some items that begins with those there are -/
def reallocItems (fresh : ℕ → α) (item : List α) (cap : ℕ) : List α :=
  item.take cap ++ (List.range (cap - item.length)).map fresh

section

variable (zero : α) (fresh : ℕ → α) (array : ApkArray α)

/-- the memory that a resized array gets; items that are not allocated stay behind -/
def resizedItems (cap : ℕ) : List α :=
  if !array.allocated ∨ cap ≠ array.capacity then
    reallocItems fresh (if array.allocated then array.item else []) cap
  else array.item

def apkArrayResize (num cap : ℕ) : ApkArray α :=
  if cap = 0 then apkArrayEmpty
  else
    let num := if num > cap then cap else num
    let item := resizedItems fresh array cap
    { num := num % 2 ^ 32
      capacity := cap % 2 ^ 31
      allocated := true
      item := if array.num < num then
          item.take array.num ++ List.replicate (num - array.num) zero ++ item.drop num
        else item }

def apkArrayCopy (src : ApkArray α) : ApkArray α :=
  let copy := apkArrayResize zero fresh array 0 (max src.num array.capacity)
  if src.num ≠ 0 then
    { copy with num := src.num, item := src.item.take src.num ++ copy.item.drop src.num }
  else copy

def apkArrayGrow : ApkArray α :=
  apkArrayResize zero fresh array array.num (array.capacity + min (array.capacity + 2) 64)

def apkArrayAdd (x : α) : ApkArray α :=
  let array := if array.num ≥ array.capacity then apkArrayGrow zero fresh array else array
  { array with num := (array.num + 1) % 2 ^ 32, item := array.item.set array.num x }

/-- `none` if the assertion fails -/
def apkArrayTruncate (num : ℕ) : Option (ApkArray α) :=
  if num ≤ array.num then some { array with num := num } else none

def apkArrayBalloc (capacity : ℕ) : ApkArray α :=
  ⟨0, capacity % 2 ^ 31, false, reallocItems fresh [] capacity⟩

def apkArrayBclone : ApkArray α :=
  if !array.allocated then array
  else if array.num = 0 then apkArrayEmpty
  else ⟨array.num, array.num % 2 ^ 31, false, array.item.take array.num⟩

/-- what is done with an array; a copy is from another one -/
inductive ArrayOp (α : Type)
  | init
  | add (x : α)
  | resize (num cap : ℕ)
  | truncate (num : ℕ)
  | copy (src : ApkArray α)
  | balloc (capacity : ℕ)
  | bclone

def arrayStep : ArrayOp α → Option (ApkArray α)
  | .init => some apkArrayEmpty
  | .add x => some (apkArrayAdd zero fresh array x)
  | .resize num cap => some (apkArrayResize zero fresh array num cap)
  | .truncate num => apkArrayTruncate array num
  | .copy src => some (apkArrayCopy zero fresh array src)
  | .balloc capacity => some (apkArrayBalloc fresh capacity)
  | .bclone => some (apkArrayBclone array)

end

/-- the operations, each with what its new memory holds -/
def arrayRun (zero : α) (array : ApkArray α) (ops : List (ArrayOp α × (ℕ → α))) : Option (ApkArray α) :=
  ops.foldlM (fun array op => arrayStep zero op.2 array op.1) array

end Alpine

import Mathlib

/-! The block allocator (`balloc.c`). The answers of `malloc` are a parameter that may depend on the
blocks there are and on the size asked for. -/

namespace Alpine

structure Block where
  addr : ℕ
  size : ℕ
  deriving DecidableEq

/-- `struct apk_balloc`, with the blocks of its pages, the newest first -/
structure ApkBalloc where
  pageSize : ℕ
  cur : ℕ
  fin : ℕ
  pages : List Block
  deriving DecidableEq

/-- `sizeof(struct apk_balloc_page)` -/
def ballocHeader : ℕ := 8

def apkBallocInit (pageSize : ℕ) : ApkBalloc := ⟨pageSize, 0, 0, []⟩

/-- `ROUND_UP` of an `uintptr_t` to a power of two -/
def roundUpPtr (x a : ℕ) : ℕ := (x + (a - 1)) % 2 ^ 64 / a * a

section

variable (malloc : List Block → ℕ → ℕ)

def apkBallocAligned (ba : ApkBalloc) (size align : ℕ) : ℕ × ApkBalloc :=
  let ptr := roundUpPtr ba.cur align
  if (ptr + size) % 2 ^ 64 > ba.fin then
    let pageSize := max ba.pageSize size
    let bytes := (pageSize + ballocHeader) % 2 ^ 64
    let bp := malloc ba.pages bytes
    let ptr := roundUpPtr ((bp + ballocHeader) % 2 ^ 64) align
    (ptr, { ba with
      cur := (ptr + size) % 2 ^ 64
      fin := (bp + pageSize) % 2 ^ 64
      pages := ⟨bp, bytes⟩ :: ba.pages })
  else (ptr, { ba with cur := (ptr + size) % 2 ^ 64 })

/-- what a request got -/
structure Range where
  ptr : ℕ
  size : ℕ
  align : ℕ
  deriving DecidableEq

/-- a request of a size and an alignment, and the ranges returned so far, the newest first -/
def ballocStep (s : List Range × ApkBalloc) (r : ℕ × ℕ) : List Range × ApkBalloc :=
  let p := apkBallocAligned malloc s.2 r.1 r.2
  (⟨p.1, r.1, r.2⟩ :: s.1, p.2)

/-- the requests to a new allocator -/
def ballocRun (pageSize : ℕ) (requests : List (ℕ × ℕ)) : List Range × ApkBalloc :=
  requests.foldl (ballocStep malloc) ([], apkBallocInit pageSize)

end

end Alpine

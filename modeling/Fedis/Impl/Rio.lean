import Fedis.Framework.Libc
import Fedis.Framework.Stream
import Fedis.Impl.Sds

/-!
# Buffer streams (`rio.c`)

A `rio` over a string. It and the caller's arrays are taken to be there, and to be as long as the
call says. A write that leaves the allocation is undefined behaviour, and so is a size that leaves
`int`.
-/

namespace Fedis

open Framework

/-- `n` bytes can be appended. -/
structure Sds.Fits (dest : Sds) (n : Nat) : Prop where
  grow : sdsavail dest < n → sdsAllocSize (sdslen dest + n) < 2 ^ 31
  inside : n ≤ sdsavail dest → sdslen dest + n ≤ dest.alloc

instance (dest : Sds) (n : Nat) : Decidable (dest.Fits n) :=
  decidable_of_iff ((sdsavail dest < n → sdsAllocSize (sdslen dest + n) < 2 ^ 31) ∧
    (n ≤ sdsavail dest → sdslen dest + n ≤ dest.alloc)) ⟨fun ⟨a, b⟩ => ⟨a, b⟩, fun h => ⟨h.grow, h.inside⟩⟩

/-- `sdscatlen` with its length as an `int`: a negative one is larger than every array. -/
def sdscatlenInt (dest : Sds) (buf : Bytes) (n : Int) : Option Sds :=
  if 0 ≤ n ∧ dest.Fits n.toNat then some (sdscatlen dest (buf.take n.toNat)) else none

/-- `rioReadFromBuffer`: the bytes it copies, as many as it returns. -/
def rioReadFromBuffer (b : Sds) (len : Nat) : Option (Bytes × Sds) :=
  let nread := if sdslen b < len then sdslen b else len
  (sdsrange b nread (sdslen b)).map fun b' => (readAt b.buf 0 nread, b')

/-- `rioWriteToBuffer`; the length becomes an `int`. -/
def rioWriteToBuffer (b : Sds) (buf : Bytes) : Option Sds := sdscatlenInt b buf (toInt32 buf.length)

/-- `rioWrite` and `rioRead`, and what a read gives. -/
def rioCall (b : Sds) : StreamOp UInt8 → Option (Bytes × Sds)
  | .write buf => (rioWriteToBuffer b buf).map fun b' => ([], b')
  | .read len => rioReadFromBuffer b len

end Fedis

import Fedis.Framework.Libc

/-!
# Dynamic strings (`sds.c`)

`alloc` is the number of bytes allocated for `buf`. The list `buf` is what the
memory from the buffer's start on holds: a write that leaves the allocation makes
it longer than `alloc`, and a read past it gives zeros. Sizes are unbounded (an
`int` holds lengths up to 2³¹ - 1).
-/

namespace Fedis

open Framework

structure Sds where
  buf : Bytes
  alloc : Nat
  len : Nat
  free : Nat
deriving DecidableEq, Repr

/-- The bytes of the string. -/
def Sds.content (s : Sds) : Bytes := readAt s.buf 0 s.len

/-- The bytes allocated for a string of this length. -/
def sdsAllocSize (len : Nat) : Nat := if len < 1024 then len * 2 + 1 else len + 1024 + 1

/-- `_sdsnewWithLen`. -/
def sdsnewWithLen (init : Bytes) : Sds where
  buf := writeAt (List.replicate (sdsAllocSize init.length) 0) 0 init
  alloc := sdsAllocSize init.length
  len := init.length
  free := sdsAllocSize init.length - init.length - 1

/-- `sdsnew` on the C string at `s`. -/
def sdsnew (s : Bytes) : Sds := sdsnewWithLen (cstr s)

def sdsempty : Sds := sdsnewWithLen []

abbrev sdslen (ss : Sds) : Nat := ss.len

abbrev sdsavail (ss : Sds) : Nat := ss.free

/-- `sdsdump`: the copy's buffer is allocated by `len` and `free`. -/
def sdsdump (ss : Sds) : Sds where
  buf := readAt ss.buf 0 (ss.len + ss.free + 1)
  alloc := ss.len + ss.free + 1
  len := ss.len
  free := ss.free

def sdsclear (ss : Sds) : Sds :=
  { ss with free := ss.len + ss.free, buf := writeAt ss.buf 0 (List.replicate ss.len 0), len := 0 }

/-- `realloc` of a buffer to `n` bytes; the bytes it adds are zeros here, and
both callers overwrite them. -/
def reallocBuf (m : Bytes) (n : Nat) : Bytes := readAt m 0 n

/-- `sdscatlen`, with the `n` bytes at `buf`. -/
def sdscatlen (dest : Sds) (buf : Bytes) : Sds :=
  let n := buf.length
  let len := sdslen dest
  let newlen := len + n
  if sdsavail dest < n then
    let newbuflen := sdsAllocSize newlen
    { buf := writeAt (writeAt (reallocBuf dest.buf newbuflen) len
        (List.replicate (newbuflen - len) 0)) len buf
      alloc := newbuflen
      free := newbuflen - newlen - 1
      len := newlen }
  else { dest with buf := writeAt dest.buf len buf, len := newlen }

/-- `sdscat`: the same, with the C string at `s`. -/
def sdscat (dest : Sds) (s : Bytes) : Sds := sdscatlen dest (cstr s)

/-- What `sdscatsds` leaves of its source. -/
def sdsDrained (src : Sds) : Sds :=
  { src with free := src.len + src.free + 1, len := 0, buf := writeAt src.buf 0 [0] }

/-- `sdscatsds` on two different strings: the destination and the source. -/
def sdscatsds (dest src : Sds) : Sds × Sds := (sdscatlen dest src.content, sdsDrained src)

/-- `sdscatsds` of a string to itself: a reallocation frees the bytes it copies. -/
def sdscatsdsSelf (s : Sds) : Option Sds :=
  if sdsavail s < s.len then none else some (sdsDrained (sdscatlen s s.content))

def sdscpy (dest : Sds) (s : Bytes) : Sds := sdscat (sdsclear dest) s

/-- An index counted from the end if it is negative. -/
def sdsIndex (ss : Sds) (i : Int) : Int := if i < 0 then sdslen ss + i else i

/-- `sdsrange`. A negative new length writes below the buffer and fails the
assertion. -/
def sdsrange (ss : Sds) (start stop : Int) : Option Sds :=
  let start := sdsIndex ss start
  let stop := sdsIndex ss stop
  if start < 0 ∨ sdslen ss ≤ stop then some ss
  else if stop - start + 1 < 0 then none
  else
    let newLen := (stop - start + 1).toNat
    let buf := if 0 < newLen then writeAt ss.buf 0 (readAt ss.buf start.toNat newLen) else ss.buf
    some { ss with
      buf := writeAt buf newLen [0], len := newLen, free := ss.free + ss.len - newLen }

/-- The first loop of `sdstrim`, with `n = end - start`. -/
def trimStart (buf s : Bytes) : Nat → Nat → Nat
  | 0, start => start
  | n + 1, start => if strchr s (buf.getD start 0) then trimStart buf s n (start + 1) else start

/-- The second one, with `n = end - start + 1`; it gives the new `end`. -/
def trimEnd (buf s : Bytes) (start : Nat) : Nat → Int
  | 0 => (start : Int) - 1
  | n + 1 => if strchr s (buf.getD (start + n) 0) then trimEnd buf s start n else (start + n : Nat)

def sdstrim (ss : Sds) (s : Bytes) : Option Sds :=
  let start := trimStart ss.buf s (sdslen ss - 1) 0
  let stop := trimEnd ss.buf s start (sdslen ss - start)
  if 0 < start ∨ stop < (sdslen ss : Int) - 1 then sdsrange ss start stop else some ss

/-! ## Calls -/

/-- A call on the strings of a program, which it names by number. -/
inductive SdsOp where
  | new (s : Bytes)
  | empty
  | cat (dest : Nat) (s : Bytes)
  | catlen (dest : Nat) (buf : Bytes)
  | catsds (dest src : Nat)
  | cpy (dest : Nat) (s : Bytes)
  | clear (ss : Nat)
  | range (ss : Nat) (start stop : Int)
  | dump (ss : Nat)
deriving DecidableEq, Repr

/-- One call. A new string gets the next number. A number without a string is a `NULL` pointer,
which `sdscat` and `sdscpy` dereference; the other calls test for it, and `sdscatsds` empties its
source also if the destination is `NULL`. -/
def sdsCall (heap : List Sds) : SdsOp → Option (Unit × List Sds)
  | .new s => some ((), heap ++ [sdsnew s])
  | .empty => some ((), heap ++ [sdsempty])
  | .cat i s => heap[i]?.map fun dest => ((), heap.set i (sdscat dest s))
  | .catlen i buf => some ((), heap.modify i (sdscatlen · buf))
  | .catsds i j =>
    match heap[i]?, heap[j]? with
    | _, none => some ((), heap)
    | none, some src => some ((), heap.set j (sdsDrained src))
    | some dest, some src =>
      if i = j then (sdscatsdsSelf dest).map fun s => ((), heap.set i s)
      else some ((), (heap.set i (sdscatsds dest src).1).set j (sdscatsds dest src).2)
  | .cpy i s => heap[i]?.map fun dest => ((), heap.set i (sdscpy dest s))
  | .clear i => some ((), heap.modify i sdsclear)
  | .range i start stop =>
    match heap[i]? with
    | some ss => (sdsrange ss start stop).map fun ss => ((), heap.set i ss)
    | none => some ((), heap)
  | .dump i => some ((), heap ++ (heap[i]?.map sdsdump).toList)

end Fedis

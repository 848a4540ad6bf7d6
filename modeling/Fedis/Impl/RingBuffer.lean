import Fedis.Framework.Libc
import Fedis.Framework.Queue

/-!
# The ring buffer (`ringbuffer.c`)

An array that a call is given has the `size` bytes it is called with. A copy
that leaves an array is undefined behaviour, and so is a sum that leaves `long`.
-/

namespace Fedis

open Framework

def RBUFFER_SIZE : Nat := 1024

structure RingBuffer where
  data : Bytes
  head : Nat
  tail : Nat
deriving DecidableEq, Repr

def ringBufferCreate : RingBuffer where
  tail := 0
  head := 0
  data := List.replicate RBUFFER_SIZE 0

def ringBufferSize (rb : RingBuffer) : Nat := (rb.tail + RBUFFER_SIZE - rb.head) % RBUFFER_SIZE

/-- `memcpy` of `n` bytes from index `i` of `src` to index `j` of `dst`. As a
`size_t`, a negative `n` is larger than every array. -/
def memcpy (dst : Bytes) (j : Nat) (src : Bytes) (i : Nat) (n : Int) : Option Bytes :=
  if 0 ≤ n ∧ j + n ≤ dst.length ∧ i + n ≤ src.length then
    some (writeAt dst j (readAt src i n.toNat))
  else none

/-- `ringBufferEnQeueue`. -/
def ringBufferEnQeueue (rb : RingBuffer) (data : UInt8) : Option (Bool × RingBuffer) :=
  if RBUFFER_SIZE - 1 < ringBufferSize rb + 1 then some (false, rb)
  else if rb.tail < rb.data.length then
    some (true,
      { rb with data := rb.data.set rb.tail data, tail := (rb.tail + 1) % RBUFFER_SIZE })
  else none

/-- `ringBufferEnQeueueBulk` of the array `data`. -/
def ringBufferEnQeueueBulk (rb : RingBuffer) (data : Bytes) : Option (Bool × RingBuffer) :=
  let size := data.length
  if LONG_MAX < ringBufferSize rb + size then none
  else if RBUFFER_SIZE - 1 < ringBufferSize rb + size then some (false, rb)
  else
    let lastTail := (rb.tail + size) % RBUFFER_SIZE
    if rb.head < lastTail then
      (memcpy rb.data rb.tail data 0 size).map fun ring =>
        (true, { rb with data := ring, tail := lastTail })
    else
      let n := RBUFFER_SIZE - rb.tail
      (memcpy rb.data rb.tail data 0 n).bind fun ring =>
        (memcpy ring 0 data n ((size : Int) - n)).map fun ring =>
          (true, { rb with data := ring, tail := lastTail })

/-- `ringBufferDequeueBulk` into the array `data`, which it returns. -/
def ringBufferDequeueBulk (rb : RingBuffer) (data : Bytes) : Option (Bool × Bytes × RingBuffer) :=
  let size := data.length
  if ringBufferSize rb < size then some (false, data, rb)
  else if rb.head < rb.tail then
    (memcpy data 0 rb.data rb.head size).map fun data =>
      (true, data, { rb with head := rb.head + size })
  else
    let n := RBUFFER_SIZE - rb.head
    (memcpy data 0 rb.data rb.head n).bind fun data =>
      (memcpy data n rb.data 0 ((size : Int) - n)).map fun data =>
        (true, data, { rb with head := size - n })

/-- `ringBufferDequeue` into the byte `data`, which it returns. -/
def ringBufferDequeue (rb : RingBuffer) (data : UInt8) : Option (Bool × UInt8 × RingBuffer) :=
  if ringBufferSize rb < 1 then some (false, data, rb)
  else rb.data[rb.head]?.map fun byte =>
    (true, byte, { rb with head := (rb.head + 1) % RBUFFER_SIZE })

/-! ## Calls -/

/-- A call, with what its caller's array holds before it. -/
inductive RingOp where
  | enQeueue (data : UInt8)
  | enQeueueBulk (data : Bytes)
  | dequeue (data : UInt8)
  | dequeueBulk (data : Bytes)
deriving DecidableEq, Repr

/-- The caller's array before the call. -/
def RingOp.array : RingOp → Bytes
  | .enQeueue data | .dequeue data => [data]
  | .enQeueueBulk data | .dequeueBulk data => data

/-- One call: its result and the caller's array after it. -/
def ringCall (rb : RingBuffer) : RingOp → Option ((Bool × Bytes) × RingBuffer)
  | .enQeueue data => (ringBufferEnQeueue rb data).map fun r => ((r.1, [data]), r.2)
  | .enQeueueBulk data => (ringBufferEnQeueueBulk rb data).map fun r => ((r.1, data), r.2)
  | .dequeue data => (ringBufferDequeue rb data).map fun r => ((r.1, [r.2.1]), r.2.2)
  | .dequeueBulk data => (ringBufferDequeueBulk rb data).map fun r => ((r.1, r.2.1), r.2.2)

end Fedis

import Fedis.Framework.Bytes

/-!
# The replication backlog (`redis.c`)

The master keeps the tail of its replication stream in `repli_buffer`, under
logical offsets; `addRepliBuf` appends to it and `commandSyncProc` reads from
it. The offsets are unbounded (they wrap at 2⁶⁴).
-/

namespace Fedis

open Framework

def MASTER_REPLI_RINGBUFFER_SIZE : Nat := 1024

/-- The backlog, and its history: the `stream` of all bytes appended so far. -/
structure Backlog where
  repliBuffer : Bytes
  beginOffset : Nat
  lastOffset : Nat
  stream : Bytes
deriving DecidableEq, Repr

/-- The backlog of a server that starts. -/
def Backlog.init : Backlog where
  repliBuffer := List.replicate MASTER_REPLI_RINGBUFFER_SIZE 0
  beginOffset := 0
  lastOffset := 0
  stream := []

/-- `addRepliBuf`. -/
def addRepliBuf (b : Backlog) (buf : Bytes) : Backlog :=
  let size := buf.length
  let lastIndex :=
    (b.lastOffset + MASTER_REPLI_RINGBUFFER_SIZE) % MASTER_REPLI_RINGBUFFER_SIZE
  let beginIndex :=
    (b.beginOffset + MASTER_REPLI_RINGBUFFER_SIZE) % MASTER_REPLI_RINGBUFFER_SIZE
  if MASTER_REPLI_RINGBUFFER_SIZE ≤ lastIndex + size then
    let n := MASTER_REPLI_RINGBUFFER_SIZE - lastIndex - 1
    { repliBuffer := writeAt (writeAt b.repliBuffer (lastIndex + 1) (buf.take n)) 0 (buf.drop n)
      beginOffset :=
        if beginIndex < size - n then b.beginOffset + (size - n - beginIndex) else b.beginOffset
      lastOffset := b.lastOffset + size
      stream := b.stream ++ buf }
  else
    { b with
      repliBuffer := writeAt b.repliBuffer (lastIndex + 1) buf
      lastOffset := b.lastOffset + size
      stream := b.stream ++ buf }

/-- `commandSyncProc` answers this offset with a partial resynchronisation. -/
def Backlog.accepts (b : Backlog) (offset : Int) : Bool :=
  !(offset < 0 || offset < b.beginOffset || b.lastOffset ≤ offset)

/-- The index and the number of bytes that it then reads from `repli_buffer`. -/
def Backlog.region (b : Backlog) (offset : Nat) : Nat × Nat := (offset + 1, b.lastOffset - offset)

/-- The bytes that it reads. -/
def Backlog.read (b : Backlog) (offset : Nat) : Bytes :=
  readAt b.repliBuffer (b.region offset).1 (b.region offset).2

/-- The read stays inside `repli_buffer`. -/
def Backlog.ReadInside (b : Backlog) (offset : Nat) : Prop :=
  (b.region offset).1 + (b.region offset).2 ≤ MASTER_REPLI_RINGBUFFER_SIZE

instance (b : Backlog) (offset : Nat) : Decidable (b.ReadInside offset) := Nat.decLe _ _

end Fedis

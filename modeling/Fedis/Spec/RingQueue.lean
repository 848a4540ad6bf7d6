import Fedis.Impl.RingBuffer

/-!
# What a ring buffer is for: a queue

`queueCall` is the ring buffer's interface on a queue of at most 1023 bytes.
-/

namespace Fedis

open Framework

/-- The queue that a ring buffer stands for. -/
abbrev RingQueue := Queue UInt8 (RBUFFER_SIZE - 1)

/-- A call on the queue: its result, the caller's array after it, and the queue
after it. -/
def queueCall (q : RingQueue) : RingOp → (Bool × Bytes) × RingQueue
  | .enQeueue data =>
    match q.push [data] with
    | some q' => ((true, [data]), q')
    | none => ((false, [data]), q)
  | .enQeueueBulk data =>
    match q.push data with
    | some q' => ((true, data), q')
    | none => ((false, data), q)
  | .dequeue data =>
    match q.pop 1 with
    | some (taken, q') => ((true, taken), q')
    | none => ((false, [data]), q)
  | .dequeueBulk data =>
    match q.pop data.length with
    | some (taken, q') => ((true, taken), q')
    | none => ((false, data), q)

end Fedis

import Fedis.Impl.Ae

/-!
# Dispatching file events (`ae.c`)

The loop of `aeProcessEvents` over `fireEvents`. A handler may register and delete events,
also those of the descriptors behind it: what it does to the loop is given with the event, as the
calls that it makes. The call of a handler that is `NULL` is undefined, as is the use of an entry
that `events` does not have.
-/

namespace Fedis

open Framework

/-- `mask & AE_WRITABLE`, or `mask & AE_READABLE`. -/
def AeMask.has (m : AeMask) (write : Bool) : Bool := if write then m.writable else m.readable

section Dispatch

variable {P D : Type}

/-- `wfileProc`, or `rfileProc`. -/
def AeFileEvent.proc (fe : AeFileEvent P D) (write : Bool) : Option P :=
  if write then fe.wfileProc else fe.rfileProc

/-- `aeFireEvent`, with the calls that the handlers make if they are called. -/
structure AeFireEvent (P D : Type) where
  fd : Int
  mask : AeMask
  reads : List (AeCall P D)
  writes : List (AeCall P D)
deriving DecidableEq, Repr

def AeFireEvent.calls (f : AeFireEvent P D) (write : Bool) : List (AeCall P D) :=
  if write then f.writes else f.reads

/-- What has happened on a loop: a call has returned, or a handler was called. -/
inductive AeLog (P D : Type) where
  | returned (call : AeCall P D) (code : Int)
  | handler (fd : Int) (write : Bool) (proc : P) (data : Option D)
deriving DecidableEq, Repr

/-- One of the two tests of the loop, and the handler. -/
def aeHandle (loop : AeEventLoop P D) (f : AeFireEvent P D) (write : Bool) :
    Option (List (AeLog P D) × AeEventLoop P D) :=
  if f.fd < 0 then none
  else (loop.events[f.fd.toNat]?).bind fun fe =>
    if fe.mask.has write && f.mask.has write then
      (fe.proc write).bind fun proc =>
        (run aeCall loop (f.calls write)).map fun r =>
          (.handler f.fd write proc fe.data :: List.zipWith .returned (f.calls write) r.1, r.2)
    else some ([], loop)

/-- The body of the loop. `fe` is read again behind `rfileProc`. -/
def aeDispatch (loop : AeEventLoop P D) (f : AeFireEvent P D) :
    Option (List (AeLog P D) × AeEventLoop P D) := do
  let (log, loop) ← aeHandle loop f false
  let (log', loop) ← aeHandle loop f true
  return (log ++ log', loop)

/-- The loop over `fireEvents`. -/
def aeDispatchAll : AeEventLoop P D → List (AeFireEvent P D) →
    Option (List (AeLog P D) × AeEventLoop P D)
  | loop, [] => some ([], loop)
  | loop, f :: fired => do
    let (log, loop) ← aeDispatch loop f
    let (log', loop) ← aeDispatchAll loop fired
    return (log ++ log', loop)

/-- What happens to the file events: a call from elsewhere, or a turn of `aeMain` with what
`epoll_wait` gives. -/
inductive AeEvent (P D : Type) where
  | call (call : AeCall P D)
  | turn (fired : List (AeFireEvent P D))
deriving DecidableEq, Repr

/-- One event, and what it adds to the log. -/
def aeEvent (loop : AeEventLoop P D) : AeEvent P D → Option (List (AeLog P D) × AeEventLoop P D)
  | .call call => (aeCall loop call).map fun r => ([.returned call r.1], r.2)
  | .turn fired => aeDispatchAll loop fired

end Dispatch

end Fedis

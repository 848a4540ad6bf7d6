import Mathlib.Data.List.Basic
import Fedis.Framework.Run

/-!
# File events and epoll (`ae.c`)

The event loop keeps a mask for each descriptor, and epoll an interest set. `epoll_ctl` is a
change of that map: it refuses to add a descriptor that is there, and to change or remove one
that is not. Handlers and their data are values of any type. What the fields `fireEvents`,
`stop` and the timers hold is left out; `maxfd` is not set when the loop is made.
-/

namespace Fedis

/-- An event mask, of the bits `AE_READABLE` and `AE_WRITABLE`. -/
structure AeMask where
  readable : Bool
  writable : Bool
deriving DecidableEq, Repr

def AE_NONE : AeMask := { readable := false, writable := false }
def AE_READABLE : AeMask := { readable := true, writable := false }
def AE_WRITABLE : AeMask := { readable := false, writable := true }

def AE_ERROR : Int := -1
def AE_OK : Int := 0

namespace AeMask

/-- `m | n`. -/
def or (m n : AeMask) : AeMask :=
  { readable := m.readable || n.readable, writable := m.writable || n.writable }

/-- `m & ~n`. -/
def andNot (m n : AeMask) : AeMask :=
  { readable := m.readable && !n.readable, writable := m.writable && !n.writable }

end AeMask

/-! ## epoll -/

inductive EpollOp where
  | EPOLL_CTL_ADD
  | EPOLL_CTL_MOD
  | EPOLL_CTL_DEL
deriving DecidableEq, Repr

/-- What a valid operation leaves of the descriptor. -/
def EpollOp.leaves (events : AeMask) : EpollOp → Option AeMask
  | .EPOLL_CTL_ADD | .EPOLL_CTL_MOD => some events
  | .EPOLL_CTL_DEL => none

/-- The interest sets, by descriptor. `refused` is the history of the operations that were
not valid, which nothing reads. -/
structure Epoll where
  interest : Int → Option AeMask
  refused : List (EpollOp × Int)

namespace Epoll

/-- Sets what epoll has for a descriptor. -/
def update (ep : Epoll) (fd : Int) (events : Option AeMask) : Epoll :=
  { ep with interest := fun x => if x = fd then events else ep.interest x }

/-- The operation is valid for this descriptor. -/
def valid (ep : Epoll) (op : EpollOp) (fd : Int) : Bool :=
  match op with
  | .EPOLL_CTL_ADD => (ep.interest fd).isNone
  | .EPOLL_CTL_MOD | .EPOLL_CTL_DEL => (ep.interest fd).isSome

/-- `epoll_ctl`, and whether it succeeds. -/
def ctl (ep : Epoll) (op : EpollOp) (fd : Int) (events : AeMask) : Bool × Epoll :=
  if ep.valid op fd then (true, ep.update fd (op.leaves events))
  else (false, { ep with refused := ep.refused ++ [(op, fd)] })

end Epoll

/-! ## The event loop -/

/-- `aeFileEvent`. -/
structure AeFileEvent (P D : Type) where
  mask : AeMask
  rfileProc : Option P
  wfileProc : Option P
  data : Option D
deriving DecidableEq, Repr

/-- `aeEventLoop`, with epoll in the place of `apiState`. -/
structure AeEventLoop (P D : Type) where
  maxfd : Int
  maxsize : Nat
  events : List (AeFileEvent P D)
  epoll : Epoll

section Loop

variable {P D : Type}

/-- `aeCreateEventLoop`, with what `maxfd` happens to be. -/
def aeCreateEventLoop (maxsize : Nat) (maxfd : Int) : AeEventLoop P D where
  maxfd := maxfd
  maxsize := maxsize
  events := List.replicate maxsize
    { mask := AE_NONE, rfileProc := none, wfileProc := none, data := none }
  epoll := { interest := fun _ => none, refused := [] }

/-- `aeApiAddEvent`, for a descriptor with this mask in `events`. -/
def aeApiAddEvent (ep : Epoll) (fd : Int) (registered mask : AeMask) : Int × Epoll :=
  if mask = AE_NONE then (AE_OK, ep)
  else
    let op := if registered = AE_NONE then EpollOp.EPOLL_CTL_ADD else .EPOLL_CTL_MOD
    let r := ep.ctl op fd mask
    if r.1 then (AE_OK, r.2) else (AE_ERROR, r.2)

/-- `aeCreateFileEvent`; `sockOk` is what `checkSockErr` finds. -/
def aeCreateFileEvent (sockOk : Bool) (loop : AeEventLoop P D) (fd : Int) (mask : AeMask) (proc : P)
    (data : Option D) : Option (Int × AeEventLoop P D) :=
  if !sockOk then some (AE_ERROR, loop)
  else if loop.maxsize ≤ fd ∨ fd < 0 then some (AE_ERROR, loop)
  else (loop.events[fd.toNat]?).map fun fe =>
    let r := aeApiAddEvent loop.epoll fd fe.mask mask
    if r.1 = AE_ERROR then (AE_ERROR, { loop with epoll := r.2 })
    else (AE_OK, { loop with
      maxfd := max loop.maxfd fd
      events := loop.events.set fd.toNat
        { mask := fe.mask.or mask
          rfileProc := if mask.readable then some proc else fe.rfileProc
          wfileProc := if mask.writable then some proc else fe.wfileProc
          data := data }
      epoll := r.2 })

/-- `aeApiDelEvent`, with the mask that is left; what `epoll_ctl` returns is not looked at. -/
def aeApiDelEvent (ep : Epoll) (fd : Int) (mask : AeMask) : Epoll :=
  if mask = AE_NONE then (ep.ctl .EPOLL_CTL_DEL fd AE_NONE).2
  else (ep.ctl .EPOLL_CTL_MOD fd mask).2

/-- The largest descriptor below `n` with a mask, or -1. -/
def maxfdBelow (events : List (AeFileEvent P D)) : Nat → Int
  | 0 => -1
  | n + 1 => if (events[n]?).any fun fe => fe.mask ≠ AE_NONE then n else maxfdBelow events n

/-- `aeDeleteFileEvent`, which does not look whether the descriptor is negative. -/
def aeDeleteFileEvent (loop : AeEventLoop P D) (fd : Int) (mask : AeMask) :
    Option (Int × AeEventLoop P D) :=
  if loop.maxsize ≤ fd then some (AE_ERROR, loop)
  else if fd < 0 then none
  else (loop.events[fd.toNat]?).map fun fe =>
    if fe.mask = AE_NONE then (AE_OK, loop)
    else
      let left := fe.mask.andNot mask
      let events := loop.events.set fd.toNat { fe with mask := left }
      (AE_OK, { loop with
        events := events
        maxfd := if fd = loop.maxfd ∧ left = AE_NONE then maxfdBelow events fd.toNat else loop.maxfd
        epoll := aeApiDelEvent loop.epoll fd left })

/-! ## Calls -/

inductive AeCall (P D : Type) where
  | create (sockOk : Bool) (fd : Int) (mask : AeMask) (proc : P) (data : Option D)
  | delete (fd : Int) (mask : AeMask)
deriving DecidableEq, Repr

/-- One call, and what it returns. -/
def aeCall (loop : AeEventLoop P D) : AeCall P D → Option (Int × AeEventLoop P D)
  | .create sockOk fd mask proc data => aeCreateFileEvent sockOk loop fd mask proc data
  | .delete fd mask => aeDeleteFileEvent loop fd mask

end Loop

end Fedis

import Fedis.Framework.Libc
import Fedis.Framework.Loop
import Fedis.Impl.Ae

/-!
# Time events (`ae.c`)

The time events of a loop are the list from `timeEventHead` on. What `gettimeofday` and the
callbacks give comes from an environment; its callbacks add and delete no events.
-/

namespace Fedis

open Framework

def AE_NOMORE : Int := -1

/-- A reading of `aeGetTime`. Its milliseconds are a `long long`. -/
structure AeTime where
  sec : Int
  ms : Int
  below : 0 ≤ ms ∧ ms < 1000
  fits : inLong (sec * 1000 + ms)
deriving DecidableEq, Repr

def AeTime.toMs (t : AeTime) : Int := t.sec * 1000 + t.ms

/-- `aeTimeEvent`. -/
structure AeTimeEvent (P D : Type) where
  id : Int
  when : Int
  when_ms : Int
  timeProc : P
  data : D
deriving DecidableEq, Repr

/-- The readings of the clock, and what a callback returns when there were so many of them. -/
structure AeEnv (P D : Type) where
  clock : Nat → AeTime
  timeProc : Nat → P → Int → D → Int

/-- A call of a callback. -/
structure AeFiring where
  id : Int
  read : Nat
  retval : Int
deriving DecidableEq, Repr

/-- The state of the loop in `processTimeEvents`: `te` by its place in the list. `fired` is the
history of the calls, which nothing reads. -/
structure AePass (P D : Type) where
  events : List (AeTimeEvent P D)
  te : Nat
  reads : Nat
  fired : List AeFiring
deriving DecidableEq, Repr

section Timers

variable {P D : Type}

/-- `aeAddMillisecondsToNow`, at this reading. -/
def aeAddMillisecondsToNow (cur : AeTime) (milliseconds : Int) : Int × Int :=
  let when_sec := cur.sec + milliseconds.tdiv 1000
  let when_ms := cur.ms + milliseconds.tmod 1000
  if 1000 ≤ when_ms then (when_sec + 1, when_ms - 1000) else (when_sec, when_ms)

def aeDeleteTimeEvent (id : Int) : List (AeTimeEvent P D) → Int × List (AeTimeEvent P D)
  | [] => (AE_ERROR, [])
  | te :: next =>
    if te.id = id then (AE_OK, next)
    else
      let r := aeDeleteTimeEvent id next
      (r.1, te :: r.2)

/-- The event is due. -/
def AeTimeEvent.Due (te : AeTimeEvent P D) (now : AeTime) : Prop :=
  te.when < now.sec ∨ (now.sec = te.when ∧ te.when_ms ≤ now.ms)

instance (te : AeTimeEvent P D) (now : AeTime) : Decidable (te.Due now) := instDecidableOr

/-- The body of the loop in `processTimeEvents`, while `te` is there. -/
def processTimeEvent (env : AeEnv P D) (s : AePass P D) : Option (AePass P D) :=
  (s.events[s.te]?).map fun te =>
    if te.Due (env.clock s.reads) then
      let retval := env.timeProc s.reads te.timeProc te.id te.data
      let fired := s.fired ++ [{ id := te.id, read := s.reads, retval := retval }]
      if retval ≠ AE_NOMORE then
        let when := aeAddMillisecondsToNow (env.clock (s.reads + 1)) retval
        { events := s.events.set s.te { te with when := when.1, when_ms := when.2 }
          te := 0
          reads := s.reads + 2
          fired := fired }
      else
        { events := (aeDeleteTimeEvent te.id s.events).2
          te := 0
          reads := s.reads + 1
          fired := fired }
    else { s with te := s.te + 1, reads := s.reads + 1 }

/-- The loop before its first step. -/
def AePass.start (events : List (AeTimeEvent P D)) : AePass P D where
  events := events
  te := 0
  reads := 0
  fired := []

def processTimeEvents (env : AeEnv P D) (fuel : Nat) (events : List (AeTimeEvent P D)) :
    Option (AePass P D) := loop (processTimeEvent env) fuel (.start events)

/-- `aeCreateTimeEvent`, at the second reading that it makes: the event, and the next id. -/
def aeCreateTimeEvent (now : AeTime) (events : List (AeTimeEvent P D)) (timeEventNextId ms : Int)
    (proc : P) (data : D) : List (AeTimeEvent P D) × Int :=
  let when := aeAddMillisecondsToNow now ms
  ({ id := timeEventNextId, when := when.1, when_ms := when.2, timeProc := proc, data := data } :: events,
    timeEventNextId + 1)

/-! ## Waiting for the next event -/

def aeSearchNearestTimer (events : List (AeTimeEvent P D)) : Option (AeTimeEvent P D) :=
  events.foldl
    (fun nearest te => if nearest.all fun nearest => te.when < nearest.when then some te else nearest) none

/-- The `timeval` that `aeProcessEvents` makes for the nearest event: seconds and microseconds. A
number that leaves `long` is undefined behaviour. -/
def aeTimeval (now : AeTime) (shortest : AeTimeEvent P D) : Option (Int × Int) :=
  let when_ms := shortest.when * 1000
  let delay_ms := when_ms - now.toMs
  if inLong when_ms ∧ inLong delay_ms then
    let delay_ms := if delay_ms < 0 then 0 else delay_ms
    some (delay_ms.tdiv 1000, delay_ms.tmod 1000 * 1000)
  else none

/-- The timeout of the `epoll_wait` in `aeApiPoll`, an `int`. -/
def aeApiPollTimeout : Option (Int × Int) → Int
  | some (tv_sec, tv_usec) => toInt32 (tv_sec * 1000 + (tv_usec + 999).tdiv 1000)
  | none => -1

/-- How long `aeProcessEvents` polls. -/
def aePollTimeout (now : AeTime) (events : List (AeTimeEvent P D)) : Option Int :=
  match aeSearchNearestTimer events with
  | some shortest => (aeTimeval now shortest).map fun tv => aeApiPollTimeout (some tv)
  | none => some (aeApiPollTimeout none)

end Timers

end Fedis

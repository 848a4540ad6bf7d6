import Fedis.Impl.AeLoop

/-!
# What an event loop is for

A log tells for every descriptor which handlers it has, and with which data: those of the last
registration that succeeded and was not deleted since. A loop that is told that descriptors are
ready calls these handlers, one descriptor after the other, the reader first.
-/

namespace Fedis

variable {P D : Type}

/-- The handler that the log leaves a descriptor. -/
def registeredProc (fd : Int) (write : Bool) (log : List (AeLog P D)) : Option P :=
  log.foldl (fun proc entry =>
    match entry with
    | .returned (.create _ x mask p _) code =>
      if x = fd ∧ code = AE_OK ∧ mask.has write then some p else proc
    | .returned (.delete x mask) code =>
      if x = fd ∧ code = AE_OK ∧ mask.has write then none else proc
    | .handler _ _ _ _ => proc) none

/-- The data of its last registration. -/
def registeredData (fd : Int) (log : List (AeLog P D)) : Option D :=
  log.foldl (fun data entry =>
    match entry with
    | .returned (.create _ x _ _ d) code => if x = fd ∧ code = AE_OK then d else data
    | .returned (.delete _ _) _ => data
    | .handler _ _ _ _ => data) none

/-- What the log goes on with if a descriptor may be ready: the handler that it has by then,
if it is, and the calls that this makes. -/
def Handled (log : List (AeLog P D)) (f : AeFireEvent P D) (write : Bool) (more : List (AeLog P D)) :
    Prop :=
  match registeredProc f.fd write log with
  | some proc =>
    if f.mask.has write then
      ∃ codes : List Int, codes.length = (f.calls write).length ∧
        more = .handler f.fd write proc (registeredData f.fd log) ::
          List.zipWith .returned (f.calls write) codes
    else more = []
  | none => more = []

/-- What it goes on with for all descriptors that are ready. -/
inductive Dispatched : List (AeLog P D) → List (AeFireEvent P D) → List (AeLog P D) → Prop
  | nil (log : List (AeLog P D)) : Dispatched log [] []
  | cons {log reads writes more : List (AeLog P D)} {f : AeFireEvent P D} {fired : List (AeFireEvent P D)}
      (read : Handled log f false reads) (write : Handled (log ++ reads) f true writes)
      (rest : Dispatched (log ++ reads ++ writes) fired more) :
      Dispatched log (f :: fired) (reads ++ writes ++ more)

/-- The log of one event, behind this one. -/
def LoggedEvent (log : List (AeLog P D)) : AeEvent P D → List (AeLog P D) → Prop
  | .call call, more => ∃ code, more = [.returned call code]
  | .turn fired, more => Dispatched log fired more

/-- The logs of all events. -/
inductive LoggedEvents : List (AeLog P D) → List (AeEvent P D) → List (List (AeLog P D)) → Prop
  | nil (log : List (AeLog P D)) : LoggedEvents log [] []
  | cons {log more : List (AeLog P D)} {event : AeEvent P D} {events : List (AeEvent P D)}
      {logs : List (List (AeLog P D))} (first : LoggedEvent log event more)
      (rest : LoggedEvents (log ++ more) events logs) : LoggedEvents log (event :: events) (more :: logs)

end Fedis

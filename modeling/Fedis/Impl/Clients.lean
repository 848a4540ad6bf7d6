import Fedis.Impl.Process

/-!
# Closing clients (`client.c`, `redis.c`)

`clientToclose` only marks a client. `closeClients`, which the server's timer calls, takes
the marked clients off the list and frees them. A `ClientId` names an object and not an
address: what has been freed is not allocated again under its name.
-/

namespace Fedis

open Framework

/-- The server with its list `clientsToClose`. `freed` is history, which nothing reads. -/
structure Host where
  server : RedisServer
  clientsToClose : List ClientId
  freed : List ClientId

/-- `freeClient`. -/
def freeClient (h : Host) (c : ClientId) : Host := { h with freed := h.freed ++ [c] }

/-- The first loop of `closeClients`, from these nodes on. -/
def collectToClose : List ClientId → Host → Host
  | [], h => h
  | c :: nodes, h =>
    if (h.server.client c).flags.toClose then
      collectToClose nodes
        { h with
          clientsToClose := h.clientsToClose ++ [c]
          server := { h.server with clients := h.server.clients.erase c } }
    else collectToClose nodes h

/-- Its second loop, which frees these nodes. -/
def freeCollected : List ClientId → Host → Host
  | [], h => h
  | c :: nodes, h => freeCollected nodes { freeClient h c with clientsToClose := nodes }

/-- `closeClients`. -/
def closeClients (h : Host) : Host :=
  let h := collectToClose h.server.clients h
  freeCollected h.clientsToClose h

/-- What happens to the clients. -/
inductive HostEvent where
  | accept (c : ClientId) (ip : Bytes) (port : Int)
  | read (r : Read)
  | toClose (c : ClientId)
  | closeClients
deriving DecidableEq, Repr

/-- One event of a run. A new connection gets an object of its own, and nothing happens on
the socket of a client that has been freed. -/
def hostStep (h : Host) : HostEvent → Option (Unit × Host)
  | .accept c ip port =>
    if c ∈ h.freed ∨ c ∈ h.server.clients then none
    else some ((), { h with server := acceptTcpHandler h.server c ip port })
  | .read r =>
    if r.client ∈ h.freed ∨ ∃ x ∈ r.env.connect, x ∈ h.freed then none
    else (serve h.server r).map fun q => ((), { h with server := q.2 })
  | .toClose c =>
    if c ∈ h.freed then none
    else some ((), { h with server := clientToclose h.server c })
  | .closeClients => some ((), closeClients h)

end Fedis

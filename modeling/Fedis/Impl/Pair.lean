import Fedis.Impl.Clients
import Fedis.Impl.Link
import Fedis.Impl.Output

/-!
# A master and a slave (`redis.c`, `repli.c`)

The two servers, and the connection between them. A step is a handler of one of the servers,
and the connection two streams of bytes: what a socket has accepted is read from the other one,
in reads of any sizes. `x` is the slave's client object on the master.
-/

namespace Fedis

open Framework

section Pair

variable {D : Type}

/-- The servers, and what is on its way between them. -/
structure Pair (D : Type) where
  master : RedisServer
  slave : Slave D
  toSlave : Bytes
  toMaster : Bytes

/-- The bytes that `repliWriteHandler` hands to its socket: the C string of the buffer. -/
def repliWritten (port : Int) (sl : Slave D) : Bytes :=
  match sl.server.master with
  | none => []
  | some c =>
    let server := match messageToMaster port sl.server with
      | some str => addWrite sl.server c str
      | none => sl.server
    if (server.client c).writeBuf.len = 0 then [] else cstr (server.client c).writeBuf.buf

/-- What happens to the two. A step of the slave is one of `LinkEvent`; `read` gives a handler
the first `n` bytes of those that are on their way. -/
inductive PairStep where
  | accept (c : ClientId) (ip : Bytes) (port : Int)
  | request (r : Read)
  | sendToClient (c : ClientId) (nwritten : Int) (file : Bytes) (w : RdbWrites)
  | readFromSlave (env : Env) (n : Nat)
  | slaveRequest (r : Read)
  | slaveCron (write timeout : Option Attempt)
  | slaveWrites (wrote : Bool)
  | slaveSends (c : ClientId) (nwritten : Int) (file : Bytes) (w : RdbWrites)
  | readFromMaster (env : Env) (n turns : Nat) (registered : List Bool)

section Step

variable (io : RdbIO D) (fake : ClientId) (port : Int) (x : ClientId)

/-- `n` bytes that one `read` can give. -/
def Readable (stream : Bytes) (n : Nat) : Prop := 0 < n ∧ n ≤ 1024 ∧ n ≤ stream.length

instance (stream : Bytes) (n : Nat) : Decidable (Readable stream n) := by
  unfold Readable
  infer_instance

/-- One step. -/
def pairStep (p : Pair D) : PairStep → Option (Unit × Pair D)
  | .accept c ip cport =>
    if c ∈ p.master.clients then none
    else some ((), { p with master := acceptTcpHandler p.master c ip cport })
  | .request r =>
    if r.client = x then none
    else (serve p.master r).map fun q => ((), { p with master := q.2 })
  | .sendToClient c nwritten file w =>
    if nwritten ≤ (p.master.client c).writeBuf.len then
      let o := sendToClient (initOutputs p.master) c nwritten file w
      some ((), { p with master := o.server, toSlave := p.toSlave ++ o.socket x })
    else none
  | .readFromSlave env n =>
    if Readable p.toMaster n then
      (serve p.master ⟨env, x, p.toMaster.take n⟩).map fun q =>
        ((), { p with master := q.2, toMaster := p.toMaster.drop n })
    else none
  | .slaveRequest r =>
    if p.slave.server.master = some r.client then none
    else (linkStep io fake port p.slave (.request r)).map fun q => ((), { p with slave := q.2 })
  | .slaveCron write timeout =>
    (linkStep io fake port p.slave (.cron write timeout)).map fun q => ((), { p with slave := q.2 })
  | .slaveWrites wrote =>
    (linkStep io fake port p.slave (.writable wrote)).map fun q =>
      ((), { p with
        slave := q.2
        toMaster := p.toMaster ++ if wrote then repliWritten port p.slave else [] })
  | .slaveSends c nwritten file w =>
    if nwritten ≤ (p.slave.server.client c).writeBuf.len then
      let o := sendToClient (initOutputs p.slave.server) c nwritten file w
      some ((), { p with
        slave := { p.slave with server := o.server }
        toMaster := p.toMaster ++ if p.slave.server.master = some c then o.socket c else [] })
    else none
  | .readFromMaster env n turns registered =>
    if Readable p.toSlave n then
      p.slave.server.master.bind fun c =>
        (linkStep io fake port p.slave
          (if p.slave.repliReads then .readable env (p.toSlave.take n) turns registered
            else .request ⟨env, c, p.toSlave.take n⟩)).map fun q =>
          ((), { p with slave := q.2, toSlave := p.toSlave.drop n })
    else none

/-- The slave's timer finds the last heartbeat too old (`reconnectMaster`). The master reads the
end of the old connection, `closeClients` frees its client, and a new one is accepted. What was on
its way is lost. -/
def reconnect (x' fresh : ClientId) (ip : Bytes) (cport : Int) (p : Pair D) : Pair D where
  master :=
    acceptTcpHandler (closeClients ⟨clientToclose p.master x, [], []⟩).server x' ip cport
  slave := reconnectMaster (.made fresh none none) p.slave
  toSlave := []
  toMaster := []

end Step

end Pair

end Fedis

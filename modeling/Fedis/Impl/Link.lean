import Fedis.Impl.Repli

/-!
# A slave's link to its master (`repli.c`)

Here a connection to the master may fail to be made, and the registration of a file event
may fail. `reconnectMaster` frees the client of the connection and begins anew, from
`connectMaster`, from the timer and from the handlers of the master's socket. What the
clock makes of the last heartbeat is given: a new client's `lastinteraction` is not set.
-/

namespace Fedis

open Framework

/-- One call of `connectMaster`: no connection can be made; or one is, with a new client,
and each of the two registrations works or makes the server connect again. -/
inductive Attempt where
  | failed
  | made (fresh : ClientId) (reads writes : Option Attempt)

/-- The connection can be made. -/
def Attempt.connects : Attempt → Bool
  | .failed => false
  | .made _ _ _ => true

/-- What stops an event: the use of a master that is `NULL` or freed, or another fault. -/
inductive LinkFault where
  | missingMaster
  | other (e : Fault)
deriving DecidableEq, Repr

section Link

variable {D : Type}

/-- The start of `reconnectMaster`: the client of the connection is freed, with its file
events. -/
def dropMaster (sl : Slave D) : Slave D :=
  { sl with
    server := { sl.server with master := none }
    repliReads := false
    repliWrites := false }

/-- `connectMaster`. After a connection that was dropped and not made again the second
registration is one for a closed socket, which does nothing. -/
def connectMasterBy : Attempt → Slave D → Slave D
  | .failed, sl => sl
  | .made fresh reads writes, sl =>
    let sl := { sl with server := connectMaster ⟨0, some fresh⟩ sl.server }
    let sl := match reads with
      | none => { sl with repliReads := true }
      | some a => connectMasterBy a (dropMaster sl)
    match writes with
    | none => { sl with repliWrites := sl.server.master.isSome }
    | some a => connectMasterBy a (dropMaster sl)

/-- `reconnectMaster`. -/
def reconnectMaster (a : Attempt) (sl : Slave D) : Slave D := connectMasterBy a (dropMaster sl)

/-- `slaveCron`, when the registration fails and the heartbeat is too old as given, with the
attempt that then follows. -/
def slaveCron (write timeout : Option Attempt) (sl : Slave D) : Except LinkFault (Slave D) := do
  let sl ←
    if sl.server.replState = .slaveConnected then
      match sl.server.master, write with
      | none, _ => .error .missingMaster
      | some _, none => .ok { sl with repliWrites := true }
      | some _, some a => .ok (reconnectMaster a sl)
    else .ok sl
  match timeout with
  | none => return sl
  | some a => return if sl.server.master.isSome then reconnectMaster a sl else sl

/-- What `repliWriteHandler` sends, by the state. -/
def messageToMaster (port : Int) (s : RedisServer) : Option Bytes :=
  match s.replState with
  | .slaveConnecting => some resp.ping
  | .slaveSendReplconf =>
    some (respEncodeArrayString [bytes "REPLCONF", bytes "listen-port", decimalInt port])
  | .slaveSendSync =>
    -- the number is cut to its buffer
    some (respEncodeArrayString [bytes "SYNC", (decimalInt s.offset).take 15])
  | .slaveConnected => some (respEncodeArrayString [bytes "REPLACK", decimalInt s.offset])
  | _ => none

/-- `repliWriteHandler`, on a server that listens at `port`; `wrote` says whether the socket
takes the bytes. -/
def repliWriteHandler (port : Int) (wrote : Bool) (sl : Slave D) : Except LinkFault (Slave D) :=
  match sl.server.master with
  | none => .error .missingMaster
  | some c =>
    let server := match messageToMaster port sl.server with
      | some str => addWrite sl.server c str
      | none => sl.server
    if (server.client c).writeBuf.len = 0 then .ok { sl with server := server, repliWrites := false }
    else if wrote then
      .ok { sl with
        server := server.modifyClient c fun client =>
          { client with writeBuf := sdsclear client.writeBuf }
        repliWrites := false }
    else .ok { sl with server := server }

section Handler

variable (io : RdbIO D) (env : Env) (c fake : ClientId)

/-- The turn for this state registers a handler. -/
def turnRegisters (sl : Slave D) : Bool :=
  match sl.server.replState with
  | .slaveConnecting => resp.pong <+: (sl.readBuf c).buf
  | .slaveSendReplconf | .slaveConnected => resp.ok <+: (sl.readBuf c).buf
  | .slaveReceiveRdb => (scanIntLen ((sl.readBuf c).buf.drop 1)).isSome
  | _ => false

/-- The loop of `repliReadHandler`, when its registrations work as given. One that does not
frees the client whose buffer the loop goes on to read. -/
def readMasterLoop : Nat → List Bool → Slave D → Except LinkFault (Option (Slave D))
  | 0, _, _ => .ok none
  | n + 1, registered, sl =>
    if (sl.readBuf c).len = 0 then .ok (some sl)
    else do
      let sl' ← (repliTurn io env c fake sl).mapError .other
      if turnRegisters c sl && !registered.headD true then .error .missingMaster
      else
        match ← (respParse (sl'.readBuf c).buf (sl'.readBuf c).len).mapError .other with
        | none => .ok (some sl')
        | some _ =>
          readMasterLoop n (if turnRegisters c sl then registered.tail else registered) sl'

/-- `repliReadHandler`, which ends with a use of the master. -/
def readMaster (n : Nat) (registered : List Bool) (sl : Slave D) (nread : Bytes) :
    Except LinkFault (Option (Slave D)) :=
  if nread = [] then .error (.other .abort)
  else do
    match ← readMasterLoop io env c fake n registered (receive c sl nread) with
    | none => return none
    | some sl => if sl.server.master.isSome then return some sl else .error .missingMaster

end Handler

/-! ## Runs of a slave -/

/-- What happens to a slave. `start` is the end of `initServer`, and `slaveof` a SLAVEOF
whose registrations may fail. -/
inductive LinkEvent where
  | start (a : Attempt)
  | slaveof (client : ClientId) (ip : Bytes) (port : Int) (a : Attempt)
  | request (r : Read)
  | cron (write timeout : Option Attempt)
  | readable (env : Env) (nread : Bytes) (turns : Nat) (registered : List Bool)
  | writable (wrote : Bool)

variable (io : RdbIO D) (fake : ClientId) (port : Int)

/-- One event; `none` if it does not happen, or does not end. -/
def linkEvent (sl : Slave D) : LinkEvent → Except LinkFault (Option (Slave D))
  | .start a => .ok (some (connectMasterBy a sl))
  | .slaveof client ip masterport a => do
    let server ← (masterToSlave sl.server ip masterport).mapError .other
    return some (connectMasterBy a { sl with server := addWrite server client resp.ok })
  | .request r => do
    let server ← (readFromClient r.env sl.server r.client r.nread).mapError .other
    let linked := sl.server.master.isNone && server.master.isSome
    return some { sl with
      server := server
      repliReads := sl.repliReads || linked
      repliWrites := sl.repliWrites || linked }
  | .cron write timeout =>
    if sl.server.flags.slave then (slaveCron write timeout sl).map some else .ok (some sl)
  | .readable env nread turns registered =>
    if sl.repliReads then
      match sl.server.master with
      | none => .error .missingMaster
      | some c => readMaster io env c fake turns registered sl nread
    else .ok none
  | .writable wrote =>
    if sl.repliWrites then (repliWriteHandler port wrote sl).map some else .ok none

def linkStep (sl : Slave D) (e : LinkEvent) : Option (Unit × Slave D) :=
  match linkEvent io fake port sl e with
  | .ok (some sl') => some ((), sl')
  | _ => none

/-- A server that starts, without a connection to a master. -/
def initSlave (id : Int) (flags : ServerFlags) (dbnum : Nat) (aofOn : Bool) (disk : D) : Slave D where
  server := initServer id flags dbnum aofOn
  disk := disk
  repliReads := false
  repliWrites := false
  received := 0
  events := []

end Link

end Fedis

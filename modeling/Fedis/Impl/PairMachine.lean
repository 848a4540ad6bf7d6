import Fedis.Impl.Machine
import Fedis.Impl.Pair

/-!
# A master and a slave on their memory

The steps of `Pair`, with the memory of both servers. What `repliReadHandler` looks at are C
strings, so that its buffer has to end in its allocation (`Terminated`). A file that the master
sends is undefined here.
-/

namespace Fedis

open Framework

/-- A NUL stands behind the content. -/
def Sds.Terminated (ss : Sds) : Prop := 0 ∈ (ss.buf.take ss.alloc).drop ss.len

instance (ss : Sds) : Decidable ss.Terminated := by
  unfold Sds.Terminated
  infer_instance

section Slave

variable {D : Type}

/-- A slave with the dicts of its databases. -/
structure SlaveMachine (D : Type) extends Slave D where
  tables : List DbTables

variable (slack : Nat) (io : RdbIO D) (env : Env) (c fake : ClientId)

namespace Machine

/-- The loop of `doAppendSync`. -/
def appendSyncLoop : Nat → Machine → Except Fault Machine
  | 0, _ => .error .undefined
  | n + 1, m => do
    let sbuf := (m.server.client c).readBuf
    if ¬ sbuf.Terminated then .error .undefined
    else match ← respParse sbuf.buf sbuf.len with
      | none => .ok m
      | some endptr =>
        let m ← m.next ((m.server.client fake).readBuf.Fits (endptr + 1))
          (m.server.modifyClient fake fun client =>
            { client with readBuf := sdscatlen client.readBuf (sbuf.buf.take (endptr + 1)) })
        let m ← m.processClientQueryBuf slack env execDepth fake
        let server ← rangeReadBuf c (endptr + 1) m.server
        appendSyncLoop n { m with server := server }

/-- `doAppendSync`. -/
def doAppendSync (m : Machine) : Except Fault Machine := do
  let oldlen := (m.server.client c).readBuf.len
  let m ← appendSyncLoop slack env c fake (oldlen + 1)
    { m with server := m.server.modifyClient fake fun _ => redisFakeClientCreate }
  return { m with server :=
    slaveUpdateOffset m.server (m.server.offset + oldlen - (m.server.client c).readBuf.len) }

/-- What `repliWriteHandler` appends has room. -/
def addMessage (port : Int) (m : Machine) : Except Fault Machine :=
  match messageToMaster port m.server with
  | some str => m.addWrite c str
  | none => .ok m

end Machine

namespace SlaveMachine

/-- The `switch` over the state. -/
def repliTurn (sl : SlaveMachine D) : Except Fault (SlaveMachine D) :=
  if sl.server.replState = .slaveReceiveAppendsync then do
    let m ← Machine.doAppendSync slack env c fake ⟨sl.server, sl.tables⟩
    return { sl with server := { m.server with replState := .slaveConnected }, tables := m.tables }
  else if sl.server.replState = .slaveReceiveRdb ∨ ¬ (sl.readBuf c).Terminated then .error .undefined
  else do return { sl with toSlave := ← Fedis.repliTurn io env c fake sl.toSlave }

/-- The loop of `repliReadHandler`, when its registrations work as given. -/
def readMasterLoop : Nat → List Bool → SlaveMachine D → Except LinkFault (Option (SlaveMachine D))
  | 0, _, _ => .ok none
  | n + 1, registered, sl =>
    if (sl.readBuf c).len = 0 then .ok (some sl)
    else do
      let sl' ← (repliTurn slack io env c fake sl).mapError .other
      if turnRegisters c sl.toSlave && !registered.headD true then .error .missingMaster
      else
        match ← (respParse (sl'.readBuf c).buf (sl'.readBuf c).len).mapError .other with
        | none => .ok (some sl')
        | some _ =>
          readMasterLoop n (if turnRegisters c sl.toSlave then registered.tail else registered) sl'

/-- `repliReadHandler`. -/
def readMaster (n : Nat) (registered : List Bool) (sl : SlaveMachine D) (nread : Bytes) :
    Except LinkFault (Option (SlaveMachine D)) :=
  if nread = [] then .error (.other .abort)
  else if ¬ (sl.readBuf c).Fits nread.length then .error (.other .undefined)
  else do
    match ← readMasterLoop slack io env c fake n registered ⟨receive c sl.toSlave nread, sl.tables⟩ with
    | none => return none
    | some sl => if sl.server.master.isSome then return some sl else .error .missingMaster

/-- `readFromClient`, which SLAVEOF would link to another master. -/
def readFromClient (sl : SlaveMachine D) (r : Read) : Option (SlaveMachine D) :=
  (machineStep slack ⟨sl.server, sl.tables⟩ (.read r)).map fun q =>
    let linked := sl.server.master.isNone && q.2.server.master.isSome
    { sl with
      server := q.2.server
      tables := q.2.tables
      repliReads := sl.repliReads || linked
      repliWrites := sl.repliWrites || linked }

/-- The handler of the master's socket. -/
def readFromMaster (n : Nat) (registered : List Bool) (sl : SlaveMachine D) (nread : Bytes) :
    Option (SlaveMachine D) :=
  if sl.repliReads then
    match readMaster slack io env c fake n registered sl nread with
    | .ok o => o
    | .error _ => none
  else readFromClient slack sl ⟨env, c, nread⟩

end SlaveMachine

end Slave

section Pair

variable {D : Type}

/-- The servers, with the dicts of their databases. -/
structure PairMachine (D : Type) extends Pair D where
  tables : List DbTables
  slaveTables : List DbTables

namespace PairMachine

def machine (v : PairMachine D) : Machine := ⟨v.master, v.tables⟩

def slaveMachine (v : PairMachine D) : SlaveMachine D := ⟨v.slave, v.slaveTables⟩

def setMachine (v : PairMachine D) (m : Machine) : PairMachine D :=
  { v with master := m.server, tables := m.tables }

def setSlave (v : PairMachine D) (sl : SlaveMachine D) : PairMachine D :=
  { v with slave := sl.toSlave, slaveTables := sl.tables }

/-- The connection is lost, and made anew. -/
def reconnect (x x' fresh : ClientId) (ip : Bytes) (cport : Int) (v : PairMachine D) :
    PairMachine D :=
  { v with toPair := Fedis.reconnect x x' fresh ip cport v.toPair }

end PairMachine

/-- Two servers with empty databases. -/
def initPairMachine (p : Pair D) : PairMachine D where
  toPair := p
  tables := initTables p.master.db.length
  slaveTables := initTables p.slave.server.db.length

variable (slack : Nat) (io : RdbIO D) (fake : ClientId) (port : Int) (x : ClientId)

/-- One step. Those that append nothing are as in `pairStep`. -/
def pairMachineStep (v : PairMachine D) : PairStep → Option (Unit × PairMachine D)
  | .request r =>
    if r.client = x then none
    else (machineStep slack v.machine (.read r)).map fun q => ((), v.setMachine q.2)
  | .readFromSlave env n =>
    if Readable v.toMaster n then
      (machineStep slack v.machine (.read ⟨env, x, v.toMaster.take n⟩)).map fun q =>
        ((), { v.setMachine q.2 with toMaster := v.toMaster.drop n })
    else none
  | .slaveRequest r =>
    if v.slave.server.master = some r.client then none
    else (v.slaveMachine.readFromClient slack r).map fun sl => ((), v.setSlave sl)
  | .slaveWrites wrote =>
    v.slave.server.master.bind fun c =>
      match Machine.addMessage c port ⟨v.slave.server, v.slaveTables⟩ with
      | .error _ => none
      | .ok m =>
        -- the socket is given a C string
        if (m.server.client c).writeBuf.len ≠ 0 ∧ ¬ (m.server.client c).writeBuf.Terminated then none
        else (pairStep io fake port x v.toPair (.slaveWrites wrote)).map fun q =>
          ((), { v with toPair := q.2 })
  | .readFromMaster env n turns registered =>
    if Readable v.toSlave n then
      v.slave.server.master.bind fun c =>
        (v.slaveMachine.readFromMaster slack io env c fake turns registered (v.toSlave.take n)).map
          fun sl => ((), { v.setSlave sl with toSlave := v.toSlave.drop n })
    else none
  | e => (pairStep io fake port x v.toPair e).map fun q => ((), { v with toPair := q.2 })

end Pair

end Fedis

import Fedis.Impl.DbDicts
import Fedis.Impl.Output
import Fedis.Impl.Rio

/-!
# The server on its memory (`client.c`, `redis.c`)

The functions of `Server`, `Commands` and `Process`, with the memory that they touch. An append
that `free` calls for leaves `free` as it was, so that a later one can run over the allocation,
which is undefined here (`Sds.Fits`). So is a call on a dict that migrates without an entry to
move: the dicts of the databases are there (`tables`), and `server.db` are the maps that they
stand for. No length runs over an allocation then, so that content is read and cleared inside it.

`sdsdump` copies as many bytes as `free` calls for. `slack` bytes behind an allocation can be
read, and have any value. SLAVEOF frees the command that is processed.
-/

namespace Fedis

open Framework

/-- A server with the dicts of its databases. -/
structure Machine where
  server : RedisServer
  tables : List DbTables

namespace Machine

/-- The server goes on as `s`, if the memory is there. -/
def next (m : Machine) (inside : Prop) [Decidable inside] (s : RedisServer) :
    Except Fault Machine :=
  if inside then .ok { m with server := s } else .error .undefined

/-- `addWrite`. -/
def addWrite (m : Machine) (c : ClientId) (str : Bytes) : Except Fault Machine :=
  m.next ((m.server.client c).writeBuf.Fits (cstr str).length) (Fedis.addWrite m.server c str)

/-- `addWrite` of an encoded bulk string. -/
def addWriteBulk (m : Machine) (c : ClientId) (str : Bytes) : Except Fault Machine := do
  m.addWrite c (← respEncodeBulkString str)

/-- `clientMultiAdd`. -/
def clientMultiAdd (m : Machine) (c : ClientId) : Except Fault Machine := do
  let client := m.server.client c
  m.next (∀ cmd ∈ client.multcmds[client.multiCmdCount]?, (sdsclear cmd).Fits client.readBuf.len)
    (← Fedis.clientMultiAdd m.server c)

/-- A call on the dicts of the database at this place. -/
def useDb (m : Machine) (i : Int) (call : DbCall) : Except Fault (DbReply × Machine) :=
  if i < 0 then .error .undefined
  else match (m.tables[i.toNat]?).bind fun db => db.call call with
    | some (reply, db) => .ok (reply, { m with tables := m.tables.set i.toNat db })
    | none => .error .undefined

/-- `commandPropagate`: the C string of the buffer is measured, and goes to every slave. -/
def commandPropagate (m : Machine) (buf : Sds) : Except Fault Machine :=
  if slaves m.server ≠ [] ∧ 0 ∉ buf.buf.take buf.alloc then .error .undefined
  else (slaves m.server).foldlM (fun m x => m.addWrite x buf.buf) m

/-! ## Handlers -/

/-- What a handler asks of its client's database. TTL asks if the first database has a deadline. -/
def procCalls (env : Env) (proc : Proc) (c : ClientId) (argv : List Bytes) (deadline : Bool) :
    List DbCall :=
  match proc, argv[1]?, argv[2]? with
  | .set, some key, some value => [.add key (robjCreateStringObject value)]
  | .get, some key, _ => [.get key]
  | .del, some key, _ => [.delete key]
  | .object, some op, some key => if strcaseeq op (bytes "ENCODING") then [.get key] else []
  | .expire, some key, some arg =>
    match string2long arg with
    | none => []
    | some n => [.setExpire key (n + env.now)]
  | .ttl, some key, _ => if deadline then [.getTTL key env.now] else []
  | .watch, _, _ => (argv.drop 1).map fun arg => .addWatch arg c
  | _, _, _ => []

/-- The test of `commandTtlProc`. -/
def hasDeadline (m : Machine) (argv : List Bytes) : Bool :=
  match argv[1]? with
  | none => false
  | some key => (((m.tables[0]?).bind fun db => db.call (.hasExpire key)).map Prod.fst) =
      some (.bool true)

/-- The calls of a handler, one after the other. -/
def useDbs (m : Machine) (i : Int) (calls : List DbCall) : Except Fault Machine :=
  calls.foldlM (fun m call => do return (← m.useDb i call).2) m

/-- What a handler appends to its client's output has room. All append at once, but SYNC, which
appends the backlog behind its answer. -/
def Answers (proc : Proc) (before after : RedisClient) : Prop :=
  if proc = .sync ∧ after.replState = .masterSendAppendsync then
    before.writeBuf.Fits resp.appendsync.length ∧ (sdscat before.writeBuf resp.appendsync).Fits
      (after.writeBuf.len - (sdscat before.writeBuf resp.appendsync).len)
  else before.writeBuf.Fits (after.writeBuf.len - before.writeBuf.len)

instance (proc : Proc) (before after : RedisClient) : Decidable (Answers proc before after) := by
  unfold Answers
  infer_instance

/-- A handler that is not EXEC. -/
def handler (env : Env) (proc : Proc) (m : Machine) (c : ClientId) (argv : List Bytes) :
    Except Fault Machine := do
  let m ← m.useDbs (m.server.client c).db (procCalls env proc c argv (m.hasDeadline argv))
  let s ← Fedis.callProc (fun _ _ => .error .undefined) env proc m.server c argv
  m.next (Answers proc (m.server.client c) (s.client c)) s

section Exec

variable (query : Machine → ClientId → Except Fault Machine)

/-- The start of one round of the loop. -/
def execLoad (m : Machine) (c : ClientId) (i : Nat) (cmd : Sds) : Except Fault Machine :=
  m.next ((sdsclear (m.server.client c).readBuf).Fits cmd.len) (Fedis.execLoad m.server c i cmd)

/-- The loop over the queue. -/
def execLoop (c : ClientId) : Nat → Nat → Machine → Except Fault Machine
  | 0, _, _ => .error .undefined
  | fuel + 1, i, m =>
    if i < (m.server.client c).multiCmdCount then
      match (m.server.client c).multcmds[i]? with
      | none => .error .undefined
      | some cmd => do
        let m ← query (← m.execLoad c i cmd) c
        execLoop c fuel (i + 1) { m with server := m.server.modifyClient c fun client =>
          { client with multcmds := client.multcmds.modify i sdsclear } }
    else .ok m

/-- What EXEC does with its queue, and answers. -/
def execQueue (m : Machine) (c : ClientId) (dirty : Bool) : Except Fault Machine :=
  if dirty then m.addWriteBulk c (bytes "err dirty")
  else do
    let m ← execLoop query c ((m.server.client c).multcmds.length + 1) 0 m
    m.addWriteBulk c (bytes "Exec ok")

/-- `commandExecProc`. -/
def commandExecProc (m : Machine) (c : ClientId) : Except Fault Machine := do
  let dirty := (m.server.client c).flags.dirtyCas
  let m := { m with server := m.server.modifyClient c fun client =>
    { client with flags := client.flags.andDirtyCas } }
  let m ← m.execQueue query c dirty
  return { m with server := m.server.modifyClient c fun client =>
    { client with flags := { client.flags with exec := false }, multiCmdCount := 0 } }

end Exec

/-- The handler of a command. -/
def callProc (query : Machine → ClientId → Except Fault Machine) (env : Env) (proc : Proc)
    (m : Machine) (c : ClientId) (argv : List Bytes) : Except Fault Machine :=
  match proc with
  | .exec => commandExecProc query m c
  | .slaveof => .error .undefined
  | _ => handler env proc m c argv

/-! ## Requests -/

/-- A write command goes into the AOF buffer. -/
def feedAof (m : Machine) (c : ClientId) (cmd : RedisCommand) : Except Fault Machine :=
  m.next ((!(m.server.client c).flags.fake && m.server.aofOn && cmd.write) = true →
    m.server.activeBuf.Fits (m.server.client c).readBuf.len) (Fedis.feedAof m.server c cmd)

/-- A command that reads or writes a database first expires its key. -/
def expireArg (env : Env) (m : Machine) (c : ClientId) (cmd : RedisCommand) (argv : List Bytes) :
    Except Fault Machine := do
  let s ← Fedis.expireArg env m.server c cmd argv
  if cmd.read || cmd.write then
    let r ← m.useDb (m.server.client c).db (.expireIfNeed (← argAt argv 1) env.now)
    return { r.2 with server := s }
  else return { m with server := s }

/-- `touchWatchKey`. -/
def touchWatchKey (m : Machine) (c : ClientId) (argv : List Bytes) : Except Fault Machine := do
  let s ← Fedis.touchWatchKey m.server c argv
  let r ← m.useDb (m.server.client c).db (.touchWatchKey (← argAt argv 1))
  return { r.2 with server := s }

/-- A master passes a write command on. -/
def propagate (m : Machine) (c : ClientId) (cmd : RedisCommand) : Except Fault Machine :=
  let readBuf := (m.server.client c).readBuf
  if cmd.write && m.server.flags.master then
    commandPropagate { m with server := { m.server with
      backlog := addRepliBuf m.server.backlog readBuf.content } } readBuf
  else .ok m

/-- What follows a command: a master passes a write on, a slave counts it. -/
def replicate (m : Machine) (c : ClientId) (cmd : RedisCommand) : Except Fault Machine := do
  let m ← m.propagate c cmd
  if cmd.write && m.server.flags.slave then
    return { m with server :=
      slaveUpdateOffset m.server (m.server.offset + (m.server.client c).readBuf.len) }
  else return m

/-- The entry of a call in the history. -/
def logCall (m : Machine) (c : ClientId) (argv : List Bytes) (found : Option RedisCommand) : Machine :=
  { m with server := { m.server with
    calls := m.server.calls ++ [⟨c, argv, (m.server.client c).db, found.map (·.proc)⟩] } }

/-- Empties a client's read buffer. -/
def clearReadBuf (m : Machine) (c : ClientId) : Machine :=
  { m with server := m.server.modifyClient c fun client =>
    { client with readBuf := sdsclear client.readBuf } }

section Process

variable (query : Machine → ClientId → Except Fault Machine) (env : Env) (m : Machine) (c : ClientId)
  (argv : List Bytes)

/-- A command, up to the replication. -/
def executed (cmd : RedisCommand) : Except Fault Machine := do
  let m ← (← m.feedAof c cmd).expireArg env c cmd argv
  let m ← callProc query env cmd.proc m c argv
  if cmd.write then m.touchWatchKey c argv else .ok m

/-- What becomes of the command that is found. -/
def dispatch : Option RedisCommand → Except Fault Machine
  | none => m.addWrite c resp.invalidCommand
  | some cmd => do (← m.executed query env c argv cmd).replicate c cmd

/-- `processCommand` on the client's `argv`. -/
def processCommand : Except Fault Machine := do
  let name ← argAt argv 0
  let found := lookupCommand m.server c name
  let m ← (m.logCall c argv found).dispatch query env c argv found
  return m.clearReadBuf c

end Process

/-- Queues the request in the read buffer. -/
def queueCommand (m : Machine) (c : ClientId) : Except Fault Machine := do
  let m ← (← m.clientMultiAdd c).addWriteBulk c (bytes "queued")
  return m.clearReadBuf c

/-- The memory of a string up to the last NUL of its allocation. -/
def known (ss : Sds) : Bytes :=
  (((sdsdump ss).buf.take ss.alloc).reverse.dropWhile (· ≠ 0)).reverse

/-- `resp_decode` of a dumped string. It reads C strings, which have to end in the allocation. -/
def decode (slack : Nat) (ss : Sds) : Decoded :=
  if ss.len + ss.free + 1 ≤ ss.alloc + slack ∧ known ss ≠ [] then respDecode (known ss) else .undef

variable (slack : Nat)

/-- `processClientQueryBuf`. -/
def processClientQueryBuf (env : Env) : Nat → Machine → ClientId → Except Fault Machine
  | 0, _, _ => .error .undefined
  | depth + 1, m, c =>
    match decode slack (m.server.client c).readBuf with
    | .undef => .error .undefined
    | .err => .ok m
    | .ok argv => do
      let name ← argAt argv 0
      if (m.server.client c).flags.multi && !strncaseeq name (bytes "exec") 4 then
        m.queueCommand c
      else m.processCommand (processClientQueryBuf env depth) env c argv

/-- `readFromClient`, when `read` gives these bytes. -/
def readFromClient (env : Env) (m : Machine) (c : ClientId) (nread : Bytes) :
    Except Fault Machine :=
  if nread = [] then .ok { m with server := clientToclose m.server c }
  else if 1024 ≤ (cstr nread).length then .error .undefined
  else do
    let m ← m.next ((m.server.client c).readBuf.Fits (cstr nread).length)
      (m.server.modifyClient c fun client =>
        { client with readBuf := sdscat client.readBuf nread })
    let m ← processClientQueryBuf slack env execDepth m c
    return m.clearReadBuf c

end Machine

/-! ## Runs -/

/-- What happens to a server: a socket is ready to be read, or to be written. -/
inductive MachineEvent where
  | read (r : Read)
  | send (c : ClientId) (nwritten : Int) (file : Bytes) (w : RdbWrites)
deriving DecidableEq, Repr

/-- One event. `write` takes no more than it is given. -/
def machineStep (slack : Nat) (m : Machine) : MachineEvent → Option (Unit × Machine)
  | .read r =>
    match m.readFromClient slack r.env r.client r.nread with
    | .ok m => some ((), m)
    | .error _ => none
  | .send c nwritten file w =>
    if nwritten ≤ (m.server.client c).writeBuf.len then
      some ((), { m with server := (sendToClient (initOutputs m.server) c nwritten file w).server })
    else none

/-- The dicts that `initServer` makes. -/
def initTables (dbnum : Nat) : List DbTables := List.replicate dbnum (.dbInit (fun _ => []) 0)

/-- A server that starts. -/
def initMachine (s : RedisServer) : Machine where
  server := s
  tables := initTables s.db.length

end Fedis

import Fedis.Impl.Server

/-!
# The command handlers (`redis.c`, `repli.c`)

A handler that reads an argument the request does not have, or touches a
database the server does not have, is undefined. `commandExecProc` takes the
function that it calls on the client's refilled read buffer as an argument; it is
tied to `processClientQueryBuf` there.
-/

namespace Fedis

open Framework

/-- What a request finds outside the server: the clock, and the client object
that a connection to a master would get, if it can be made. -/
structure Env where
  now : Int
  connect : Option ClientId
deriving DecidableEq, Repr

/-- `argv[i]`. -/
def argAt (argv : List Bytes) (i : Nat) : Except Fault Bytes :=
  match argv[i]? with
  | some arg => .ok arg
  | none => .error .undefined

/-- `addWrite` of an encoded bulk string. -/
def addWriteBulk (s : RedisServer) (c : ClientId) (str : Bytes) : Except Fault RedisServer := do
  return addWrite s c (← respEncodeBulkString str)

section Handlers

variable (env : Env) (s : RedisServer) (c : ClientId) (argv : List Bytes)

def commandSetProc : Except Fault RedisServer := do
  let key ← argAt argv 1
  if argv.length = 2 then return addWrite s c resp.valmissed
  else
    let value ← argAt argv 2
    let db ← s.getDb (s.client c).db
    let r := dbAdd db (cstr key) (robjCreateStringObject value)
    let s := s.setDb (s.client c).db r.2
    if r.1 = DICT_OK then return { addWrite s c resp.ok with dirty := s.dirty + 1 }
    else return addWrite s c resp.dupkey

def commandGetProc : Except Fault RedisServer := do
  let key ← argAt argv 1
  let db ← s.getDb (s.client c).db
  match dbGet db (cstr key) with
  | none => return addWrite s c resp.keyNotFound
  | some res => addWriteBulk s c (robjGetValStr res)

def commandDelProc : Except Fault RedisServer := do
  let key ← argAt argv 1
  let db ← s.getDb (s.client c).db
  let r := dbDelete db (cstr key)
  let s := s.setDb (s.client c).db r.2
  if r.1 = DICT_OK then return { addWrite s c resp.ok with dirty := s.dirty + 1 }
  else return addWrite s c resp.keyNotFound

def commandObjectProc : Except Fault RedisServer := do
  let key ← argAt argv 2
  let op ← argAt argv 1
  if strcaseeq op (bytes "ENCODING") then
    let db ← s.getDb (s.client c).db
    match dbGet db (cstr key) with
    | none => return addWrite s c resp.keyNotFound
    | some val => addWriteBulk s c (encodingStr val)
  else return s

def commandByeProc : Except Fault RedisServer :=
  .ok (addWrite (s.modifyClient c fun client => { client with toclose := true }) c resp.bye)

/-- `masterToSlave`. -/
def masterToSlave (ip : Bytes) (port : Int) : Except Fault RedisServer :=
  if s.master.isSome then .error .abort
  else .ok { s with
    flags := { s.flags with master := false, slave := true }, masterhost := ip, masterport := port }

/-- `connectMaster`. -/
def connectMaster : RedisServer :=
  match env.connect with
  | none => s
  | some fresh =>
    let m := s.master.getD fresh
    let s := if s.master.isSome then s
      else s.modifyClient fresh fun _ => redisClientCreate s.masterhost s.masterport
    let offset := s.cfgOffset.getD (-1)
    { s.modifyClient m fun client =>
        { client with flags := { client.flags with normal := false, master := true } } with
      master := some m, replState := .slaveConnecting, offset := offset, cfgOffset := some offset }

/-- The tokens of `strtok`. -/
def strtok (str : Bytes) (delim : UInt8) : List Bytes :=
  ((cstr str).splitOn delim).filter (· ≠ [])

def commandSlaveofProc : Except Fault RedisServer := do
  match strtok (← argAt argv 1) 58 with
  | ip :: port :: _ => return connectMaster env (addWrite (← masterToSlave s ip (atoi port)) c resp.ok)
  | _ => .error .undefined

def commandPingProc : Except Fault RedisServer :=
  .ok (addWrite (s.modifyClient c fun client => { client with replState := .masterWaitPing }) c
    resp.pong)

/-- `commandSyncProc`, which tests the offset twice. -/
def commandSyncProc : Except Fault RedisServer := do
  let offset := atoi (cstr (← argAt argv 1))
  if !s.backlog.accepts offset then
    return addWrite
      (s.modifyClient c fun client => { client with replState := .masterSendFullsync }) c resp.fullsync
  else if s.backlog.beginOffset ≤ offset ∧ offset < s.backlog.lastOffset then
    if s.backlog.ReadInside offset.toNat then
      return addWriteBuf (addWrite
        (s.modifyClient c fun client => { client with replState := .masterSendAppendsync }) c
          resp.appendsync) c (s.backlog.read offset.toNat)
    else .error .undefined
  else .error .abort

def commandReplconfProc : Except Fault RedisServer :=
  .ok ((addWrite s c resp.ok).modifyClient c fun client =>
    { client with flags := .REDIS_CLIENT_SLAVE })

def commandReplACKProc : Except Fault RedisServer := .ok (addWrite s c resp.ok)

/-- `getRoleStr`. -/
def getRoleStr (role : ServerFlags) : Bytes :=
  if role.master then bytes "master"
  else if role.sentinel then bytes "sentinel"
  else if role.slave then bytes "slave"
  else bytes "unknown"

/-- The connected clients that `flags == REDIS_CLIENT_SLAVE` picks. -/
def slaves : List ClientId := s.clients.filter fun x => (s.client x).flags = .REDIS_CLIENT_SLAVE

/-- `generateInfoRespContent`; each entry is cut to its buffer. -/
def generateInfoRespContent : List Bytes :=
  ([bytes "run_id:" ++ decimalInt s.id, bytes "role:" ++ getRoleStr s.flags] ++
    (slaves s).mapIdx fun i x =>
      bytes "slave" ++ decimal i ++ bytes ":ip=" ++ (s.client x).ip ++ bytes ",port=" ++
        decimalInt (s.client x).port ++ bytes ",state=online").map (·.take 255)

def commandInfoProc : Except Fault RedisServer := do
  if s.flags.master then
    return addWrite s c (← respEncodeArrayStringBuf (generateInfoRespContent s))
  else .error .abort

def commandHeartBeatProc : Except Fault RedisServer := .ok (addWrite s c resp.ok)

def commandSelectProc : Except Fault RedisServer := do
  match string2long (← argAt argv 1) with
  | none => return addWrite s c resp.err
  | some dbid =>
    addWriteBulk (s.modifyClient c fun client => { client with db := dbid }) c
      (bytes "OK, db is " ++ decimalInt (toInt32 dbid))

def commandExpireProc : Except Fault RedisServer := do
  let key ← argAt argv 1
  match string2long (← argAt argv 2) with
  | none => return addWrite s c resp.err
  | some n =>
    -- the sum is a `long`
    if ¬ inLong (n + env.now) then .error .undefined
    else
      let db ← s.getDb (s.client c).db
      let r := dbSetExpire db (cstr key) (n + env.now)
      let s := s.setDb (s.client c).db r.2
      if r.1 = 0 then return { addWrite s c resp.ok with dirty := s.dirty + 1 }
      else return addWrite s c resp.err

/-- `commandTtlProc` looks for the key in the first database's deadlines. -/
def commandTtlProc : Except Fault RedisServer := do
  let key ← argAt argv 1
  let db0 ← s.getDb 0
  if mapContains db0.expires (cstr key) then
    let db ← s.getDb (s.client c).db
    let ttl := dbGetTTL db (cstr key) env.now
    if inLong ttl then addWriteBulk s c (bytes "ttl:" ++ decimalInt ttl ++ bytes "s")
    else .error .undefined
  else return addWrite s c resp.keyNotFound

def commandMultiProc : Except Fault RedisServer :=
  .ok (addWrite (s.modifyClient c fun client =>
    { client with flags := { client.flags with multi := true } }) c resp.ok)

/-- `commandWatchProc`: the watch lists get an entry for every argument. -/
def commandWatchProc : Except Fault RedisServer := do
  let s ← (argv.drop 1).foldlM (fun s arg => do
    let db ← s.getDb (s.client c).db
    return s.setDb (s.client c).db (dbAddWatch db (cstr arg) c)) s
  return addWrite s c resp.ok

end Handlers

/-! ## EXEC -/

section Exec

variable (query : RedisServer → ClientId → Except Fault RedisServer)

/-- The start of one round of the loop: the queued request moves to the read
buffer. -/
def execLoad (s : RedisServer) (c : ClientId) (i : Nat) (cmd : Sds) : RedisServer :=
  s.modifyClient c fun client =>
    let r := sdscatsds (sdsclear client.readBuf) cmd
    { client with readBuf := r.1, multcmds := client.multcmds.set i r.2 }

/-- The loop over the queue, up to the client's own counter. A counter beyond the
queue's places is met by the read of `multcmds`, before `fuel` ends. -/
def execLoop (c : ClientId) : Nat → Nat → RedisServer → Except Fault RedisServer
  | 0, _, _ => .error .undefined
  | fuel + 1, i, s =>
    if i < (s.client c).multiCmdCount then
      match (s.client c).multcmds[i]? with
      | none => .error .undefined
      | some cmd => do
        let s ← query (execLoad s c i cmd) c
        let s := s.modifyClient c fun client =>
          { client with multcmds := client.multcmds.modify i sdsclear }
        execLoop c fuel (i + 1) s
    else .ok s

/-- `commandExecProc`. -/
def commandExecProc (s : RedisServer) (c : ClientId) : Except Fault RedisServer := do
  let dirty := (s.client c).flags.dirtyCas
  -- `flags &= REDIS_DIRTY_CAS` drops the bits that were just set
  let s := s.modifyClient c fun client => { client with flags := client.flags.andDirtyCas }
  let s ← if dirty then addWriteBulk s c (bytes "err dirty")
    else do
      let s ← execLoop query c ((s.client c).multcmds.length + 1) 0 s
      addWriteBulk s c (bytes "Exec ok")
  return s.modifyClient c fun client =>
    { client with flags := { client.flags with exec := false }, multiCmdCount := 0 }

end Exec

/-- The handler of a command. -/
def callProc (query : RedisServer → ClientId → Except Fault RedisServer) (env : Env) (proc : Proc)
    (s : RedisServer) (c : ClientId) (argv : List Bytes) : Except Fault RedisServer :=
  match proc with
  | .set => commandSetProc s c argv
  | .get => commandGetProc s c argv
  | .del => commandDelProc s c argv
  | .object => commandObjectProc s c argv
  | .bye => commandByeProc s c
  | .slaveof => commandSlaveofProc env s c argv
  | .ping => commandPingProc s c
  | .replconf => commandReplconfProc s c
  | .sync => commandSyncProc s c argv
  | .replack => commandReplACKProc s c
  | .info => commandInfoProc s c
  | .heartbeat => commandHeartBeatProc s c
  | .select => commandSelectProc s c argv
  | .expire => commandExpireProc env s c argv
  | .ttl => commandTtlProc env s c argv
  | .multi => commandMultiProc s c
  | .exec => commandExecProc query s c
  | .watch => commandWatchProc s c argv

end Fedis

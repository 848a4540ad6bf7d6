import Fedis.Impl.Commands

/-!
# Processing requests (`redis.c`)

`processCommand` runs one decoded request, `processClientQueryBuf` decodes the
request at the start of a client's read buffer and runs or queues it, and
`readFromClient` is the handler of a readable socket. EXEC calls
`processClientQueryBuf` again; its depth is bounded here, by more than the
queue's ten places allow. `Machine` has these functions with the memory that
they touch.
-/

namespace Fedis

open Framework

/-- `touchWatchKey`: marks the clients that watch the key, and empties their
list. -/
def touchWatchKey (s : RedisServer) (c : ClientId) (argv : List Bytes) :
    Except Fault RedisServer := do
  let key ← argAt argv 1
  let i := (s.client c).db
  let db ← s.getDb i
  if dbIsWatching db (cstr key) then
    let watching := mapFetchValue db.watchedKeys (cstr key)
    let s := watching.foldl (fun s x => s.modifyClient x fun client =>
      { client with flags := { client.flags with dirtyCas := true } }) s
    return s.setDb i { db with watchedKeys := db.watchedKeys.insert (cstr key) [] }
  else return s

/-- `commandPropagate`: the C string of the buffer goes to every slave. -/
def commandPropagate (s : RedisServer) (buf : Sds) : RedisServer :=
  (slaves s).foldl (fun s x => addWrite s x buf.buf) s

/-- `slaveUpdateOffset`. -/
def slaveUpdateOffset (s : RedisServer) (offset : Int) : RedisServer :=
  { s with offset := offset, cfgOffset := some offset }

/-- A write command goes into the AOF buffer, which takes the bytes out of the
read buffer. -/
def feedAof (s : RedisServer) (c : ClientId) (cmd : RedisCommand) : RedisServer :=
  if !(s.client c).flags.fake && s.aofOn && cmd.write then
    let r := sdscatsds s.activeBuf (s.client c).readBuf
    { s.modifyClient c fun client => { client with readBuf := r.2 } with activeBuf := r.1 }
  else s

/-- A command that reads or writes a database first expires its key. -/
def expireArg (env : Env) (s : RedisServer) (c : ClientId) (cmd : RedisCommand) (argv : List Bytes) :
    Except Fault RedisServer := do
  if cmd.read || cmd.write then
    let key ← argAt argv 1
    let db ← s.getDb (s.client c).db
    return s.setDb (s.client c).db (expireIfNeed db (cstr key) env.now)
  else return s

/-- A master passes a write command on, a slave counts it. -/
def replicate (s : RedisServer) (c : ClientId) (cmd : RedisCommand) : RedisServer :=
  let s := if cmd.write && s.flags.master then
      commandPropagate { s with backlog := addRepliBuf s.backlog (s.client c).readBuf.content }
        (s.client c).readBuf
    else s
  if cmd.write && s.flags.slave then slaveUpdateOffset s (s.offset + (s.client c).readBuf.len) else s

/-- `processCommand` on the client's `argv`. -/
def processCommand (query : RedisServer → ClientId → Except Fault RedisServer) (env : Env)
    (s : RedisServer) (c : ClientId) (argv : List Bytes) : Except Fault RedisServer := do
  let name ← argAt argv 0
  let found := lookupCommand s c name
  let s := { s with calls := s.calls ++ [⟨c, argv, (s.client c).db, found.map (·.proc)⟩] }
  let s ← match found with
    | none => pure (addWrite s c resp.invalidCommand)
    | some cmd => do
      let s ← expireArg env (feedAof s c cmd) c cmd argv
      let s ← callProc query env cmd.proc s c argv
      -- after SLAVEOF the code reads freed memory here; `Machine` leaves it undefined
      let s ← if cmd.write then touchWatchKey s c argv else pure s
      pure (replicate s c cmd)
  return s.modifyClient c fun client => { client with readBuf := sdsclear client.readBuf }

/-- Queues the request in the read buffer. -/
def queueCommand (s : RedisServer) (c : ClientId) : Except Fault RedisServer := do
  let s ← clientMultiAdd s c
  let s ← addWriteBulk s c (bytes "queued")
  return s.modifyClient c fun client => { client with readBuf := sdsclear client.readBuf }

/-- `processClientQueryBuf`. -/
def processClientQueryBuf (env : Env) : Nat → RedisServer → ClientId → Except Fault RedisServer
  | 0, _, _ => .error .undefined
  | depth + 1, s, c =>
    match respDecode (sdsdump (s.client c).readBuf).buf with
    | .undef => .error .undefined
    | .err => .ok s
    | .ok argv => do
      let name ← argAt argv 0
      if (s.client c).flags.multi && !strncaseeq name (bytes "exec") 4 then queueCommand s c
      else processCommand (processClientQueryBuf env depth) env s c argv

/-- Enough for an EXEC that finds an EXEC in each place of the queue. -/
def execDepth : Nat := 12

/-- `readFromClient`, when `read` gives these bytes. A full buffer without a NUL
is no C string; no byte at all means that the client has closed. -/
def readFromClient (env : Env) (s : RedisServer) (c : ClientId) (nread : Bytes) :
    Except Fault RedisServer :=
  if nread = [] then .ok (clientToclose s c)
  else if 1024 ≤ (cstr nread).length then .error .undefined
  else do
    let s := s.modifyClient c fun client => { client with readBuf := sdscat client.readBuf nread }
    let s ← processClientQueryBuf env execDepth s c
    return s.modifyClient c fun client => { client with readBuf := sdsclear client.readBuf }

/-! ## Servers and their runs -/

/-- The state that `initServer` leaves, without a file to load. No object of a
client is in use. -/
def initServer (id : Int) (flags : ServerFlags) (dbnum : Nat) (aofOn : Bool) : RedisServer where
  id := id
  flags := flags
  db := List.replicate dbnum dbInit
  client := fun _ => redisClientCreate [] 0
  clients := []
  backlog := .init
  aofOn := aofOn
  activeBuf := sdsempty
  dirty := 0
  master := none
  masterhost := []
  masterport := 0
  replState := .slaveNone
  offset := 0
  cfgOffset := none
  calls := []

/-- `acceptTcpHandler`, with the new client's object. -/
def acceptTcpHandler (s : RedisServer) (c : ClientId) (ip : Bytes) (port : Int) : RedisServer :=
  { s.modifyClient c fun _ => redisClientCreate ip port with clients := s.clients ++ [c] }

/-- A client's socket that is ready, and what `read` then finds. -/
structure Read where
  env : Env
  client : ClientId
  nread : Bytes
deriving DecidableEq, Repr

/-- One read of a run. -/
def serve (s : RedisServer) (r : Read) : Option (Unit × RedisServer) :=
  match readFromClient r.env s r.client r.nread with
  | .ok s' => some ((), s')
  | .error _ => none

end Fedis

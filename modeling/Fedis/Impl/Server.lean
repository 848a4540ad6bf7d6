import Fedis.Impl.Backlog
import Fedis.Impl.Db
import Fedis.Impl.Resp

/-!
# The server and its clients (`client.h`, `client.c`, `redis.h`)

`RedisServer.client` is the memory of client objects and `clients` the list of
the connected ones. Flag words are records of their bits. The buffers of this
model have all the memory they ask for: a read or write behind an allocation,
which `Sds` tells apart, goes to zeroed memory, and the databases are maps.
`Machine` adds the allocations and the dicts. File events are always
registered. `lastinteraction`, the names and the error texts of a client are left
out: no command reads them.
-/

namespace Fedis

open Framework

/-- The bits of a client's `flags`. -/
structure ClientFlags where
  normal : Bool
  master : Bool
  slave : Bool
  sentinel : Bool
  fake : Bool
  multi : Bool
  exec : Bool
  dirtyCas : Bool
  toClose : Bool
deriving DecidableEq, Repr

namespace ClientFlags

/-- No bit set. -/
def zero : ClientFlags :=
  { normal := false, master := false, slave := false, sentinel := false, fake := false
    multi := false, exec := false, dirtyCas := false, toClose := false }

def REDIS_CLIENT_NORMAL : ClientFlags := { zero with normal := true }
def REDIS_CLIENT_SLAVE : ClientFlags := { zero with slave := true }
def REDIS_CLIENT_FAKE : ClientFlags := { zero with fake := true }

/-- `flags &= REDIS_DIRTY_CAS`. -/
def andDirtyCas (f : ClientFlags) : ClientFlags := { zero with dirtyCas := f.dirtyCas }

end ClientFlags

/-- The states of a replication, on either side. -/
inductive ReplState where
  | slaveNone
  | slaveConnecting
  | slaveSendReplconf
  | slaveSendSync
  | slaveReceiveRdb
  | slaveReceiveAppendsync
  | slaveReceiveBuf
  | slaveConnected
  | masterNone
  | masterWaitPing
  | masterSendFullsync
  | masterSendRdb
  | masterConnected
  | masterSendAppendsync
deriving DecidableEq, Repr

/-- `redisClient`. `db` is the index of the selected database, which need not be
one of the server's. -/
structure RedisClient where
  flags : ClientFlags
  ip : Bytes
  port : Int
  toclose : Bool
  readBuf : Sds
  writeBuf : Sds
  db : Int
  replState : ReplState
  multcmds : List Sds
  multiCmdCount : Nat
deriving DecidableEq, Repr

/-- `redisClientCreate`; a state of the replication is not set. -/
def redisClientCreate (ip : Bytes) (port : Int) : RedisClient where
  flags := .REDIS_CLIENT_NORMAL
  ip := ip
  port := port
  toclose := false
  readBuf := sdsempty
  writeBuf := sdsempty
  db := 0
  replState := .slaveNone
  multcmds := List.replicate 10 sdsempty
  multiCmdCount := 0

/-- `redisFakeClientCreate`, which gives the client no queue. -/
def redisFakeClientCreate : RedisClient where
  flags := .REDIS_CLIENT_FAKE
  ip := []
  port := -1
  toclose := false
  readBuf := sdsempty
  writeBuf := sdsempty
  db := 0
  replState := .slaveNone
  multcmds := []
  multiCmdCount := 0

/-- The handlers of the command table. -/
inductive Proc where
  | set | get | del | object | bye | slaveof | ping | replconf | sync
  | replack | info | heartbeat | select | expire | ttl | multi | exec | watch
deriving DecidableEq, Repr

/-- `redisCommand`, with the flags `CMD_WRITE` and `CMD_READ`; nothing looks at
the other ones. -/
structure RedisCommand where
  write : Bool
  read : Bool
  name : Bytes
  proc : Proc
  arity : Int
deriving DecidableEq, Repr

def commandsTable : List RedisCommand :=
  [ ⟨true, false, bytes "SET", .set, 3⟩,
    ⟨false, true, bytes "GET", .get, 2⟩,
    ⟨true, false, bytes "DEL", .del, 2⟩,
    ⟨false, true, bytes "OBJECT", .object, 3⟩,
    ⟨false, false, bytes "BYE", .bye, 1⟩,
    ⟨false, false, bytes "SLAVEOF", .slaveof, 3⟩,
    ⟨false, false, bytes "PING", .ping, 1⟩,
    ⟨false, false, bytes "REPLCONF", .replconf, 3⟩,
    ⟨false, false, bytes "SYNC", .sync, 2⟩,
    ⟨false, false, bytes "REPLACK", .replack, 1⟩,
    ⟨false, false, bytes "INFO", .info, 1⟩,
    ⟨false, false, bytes "HEARTBEAT", .heartbeat, 1⟩,
    ⟨false, false, bytes "SELECT", .select, 2⟩,
    ⟨true, false, bytes "EXPIRE", .expire, 3⟩,
    ⟨false, true, bytes "TTL", .ttl, 2⟩,
    ⟨false, false, bytes "MULTI", .multi, 1⟩,
    ⟨false, false, bytes "EXEC", .exec, 1⟩,
    ⟨false, false, bytes "WATCH", .watch, 1⟩ ]

/-- The bits of the server's `flags`. -/
structure ServerFlags where
  master : Bool
  slave : Bool
  sentinel : Bool
deriving DecidableEq, Repr

/-- One call of `processCommand`, with the database that the client had selected
and the handler that was found. -/
structure Call where
  client : ClientId
  argv : List Bytes
  db : Int
  proc : Option Proc
deriving DecidableEq, Repr

/-- `redisServer`. `cfgOffset` is the number in the configuration file's entry
`offset`; `calls` is the history of `processCommand`, which nothing reads. -/
structure RedisServer where
  id : Int
  flags : ServerFlags
  db : List RedisDb
  client : ClientId → RedisClient
  clients : List ClientId
  backlog : Backlog
  aofOn : Bool
  activeBuf : Sds
  dirty : Int
  master : Option ClientId
  masterhost : Bytes
  masterport : Int
  replState : ReplState
  offset : Int
  cfgOffset : Option Int
  calls : List Call

namespace RedisServer

/-- Changes one client object. -/
def modifyClient (s : RedisServer) (c : ClientId) (f : RedisClient → RedisClient) : RedisServer :=
  { s with client := fun x => if x = c then f (s.client x) else s.client x }

/-- The database at this place of `server->db`. -/
def getDb (s : RedisServer) (i : Int) : Except Fault RedisDb :=
  if i < 0 then .error .undefined
  else match s.db[i.toNat]? with
    | some db => .ok db
    | none => .error .undefined

def setDb (s : RedisServer) (i : Int) (db : RedisDb) : RedisServer :=
  { s with db := s.db.set i.toNat db }

end RedisServer

/-- `addWrite`. -/
def addWrite (s : RedisServer) (c : ClientId) (str : Bytes) : RedisServer :=
  s.modifyClient c fun client => { client with writeBuf := sdscat client.writeBuf str }

/-- `addWriteBuf`. -/
def addWriteBuf (s : RedisServer) (c : ClientId) (buf : Bytes) : RedisServer :=
  s.modifyClient c fun client => { client with writeBuf := sdscatlen client.writeBuf buf }

/-- `clientToclose`. -/
def clientToclose (s : RedisServer) (c : ClientId) : RedisServer :=
  s.modifyClient c fun client => { client with flags := { client.flags with toClose := true } }

/-- `clientMultiAdd`: the queue has ten places. -/
def clientMultiAdd (s : RedisServer) (c : ClientId) : Except Fault RedisServer :=
  let client := s.client c
  match client.multcmds[client.multiCmdCount]? with
  | none => .error .undefined
  | some cmd =>
    let r := sdscatsds (sdsclear cmd) client.readBuf
    .ok (s.modifyClient c fun client => { client with
      multcmds := client.multcmds.set client.multiCmdCount r.1
      readBuf := r.2
      multiCmdCount := client.multiCmdCount + 1 })

/-- `isSupportedCmd`. -/
def isSupportedCmd (s : RedisServer) (c : ClientId) (cmd : RedisCommand) : Bool :=
  !(s.flags.slave && (s.client c).flags.normal && cmd.write)

/-- The callbacks of `commandDictType`. -/
def commandDictType : DictType Bytes where
  hashFunction key := (cstr key).foldl (fun hash b => (hash <<< 5) + hash + signedChar b) 5381
  keyCompare := strcmp

/-- `loadCommands`: the dict of the commands. -/
def loadCommands : Option (Dict Bytes RedisCommand) :=
  commandsTable.foldlM (fun d cmd => (dictAdd commandDictType d cmd.name cmd).map Prod.snd) dictCreate

/-- `lookupCommand`, on the table in the place of its dict. -/
def lookupCommand (s : RedisServer) (c : ClientId) (name : Bytes) : Option RedisCommand :=
  commandsTable.find? fun cmd => isSupportedCmd s c cmd && strcaseeq cmd.name name

end Fedis

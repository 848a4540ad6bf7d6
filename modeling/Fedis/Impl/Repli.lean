import Fedis.Impl.Load
import Fedis.Impl.Process

/-!
# Reading from the master (`repli.c`)

`repliReadHandler` takes what has arrived from the master to pieces, as the state of
the replication says. `RdbIO` is what it asks of the RDB file on disk: to write the
bytes it received, and to load the file into the databases. The connection to the
master is the client `c`, and `fake` the object of a fake client.
-/

namespace Fedis

open Framework

/-- `receiveRDBfile`, and `rdbLoad` on the databases. -/
structure RdbIO (D : Type) where
  receiveRDBfile : Bytes → D → D
  rdbLoad : D → List RedisDb → Except Fault (List RedisDb)

section File

variable (sha256 : Sha256) (blksize : Nat) (buf : Nat → UInt8) (dbid : UInt8) (unset : Nat → Unset)

/-- `rdbLoad` on a file, with what its variables hold before they are set. Behind the end of the
file the loop finds no checksum, if it ends at all. -/
def rdbLoadFile (file : Bytes) (db : List RedisDb) : Except Fault (List RedisDb) :=
  match rdbLoadWith buf dbid unset db file (file.length + 1) with
  | none => .error .undefined
  | some l => do
    let l ← l
    if (freadInto buf { data := file, pos := 0 } 9).1 = rdbMagic then rdbVerify sha256 l.fp
    return l.db

/-- The two on a disk. `receiveRDBfile` neither flushes its stream nor closes it, so that the last
bytes stay in the stream's buffer. -/
def fileRdb : RdbIO Bytes where
  receiveRDBfile buf _ := buf.take (buf.length / blksize * blksize)
  rdbLoad := rdbLoadFile sha256 buf dbid unset

end File

/-- What the handler does with the RDB file: the bytes it hands on, and how many had
been read from the master when it loads the file. -/
inductive RdbEvent where
  | receiveRDBfile (buf : Bytes)
  | rdbLoad (received : Nat)
deriving DecidableEq, Repr

/-- A slave and its disk. `repliReads` says whether `repliReadHandler` reads from the
master's socket, or `readFromClient`, and `repliWrites` whether `repliWriteHandler` is
registered for it. `received` and `events` are history, which nothing reads. -/
structure Slave (D : Type) where
  server : RedisServer
  disk : D
  repliReads : Bool
  repliWrites : Bool
  received : Nat
  events : List RdbEvent

section Handler

variable {D : Type} (io : RdbIO D) (env : Env) (c fake : ClientId)

/-- `c->readBuf`. -/
def Slave.readBuf (sl : Slave D) : Sds := (sl.server.client c).readBuf

/-- `sdsrange` of `c->readBuf` from an index to its end. -/
def rangeReadBuf (start : Int) (s : RedisServer) : Except Fault RedisServer :=
  let readBuf := (s.client c).readBuf
  match sdsrange readBuf start (readBuf.len - 1) with
  | none => .error .abort
  | some readBuf => .ok (s.modifyClient c fun client => { client with readBuf := readBuf })

/-- Takes a status line off the buffer, if it is there; some register the write
handler. -/
def takeLine (line : Bytes) (next : ReplState) (writes : Bool) (sl : Slave D) :
    Except Fault (Slave D) :=
  if line <+: (sl.readBuf c).buf then do
    let server ← rangeReadBuf c line.length { sl.server with replState := next }
    return { sl with server := server, repliWrites := sl.repliWrites || writes }
  else .ok sl

/-- The loop of `doAppendSync`; every turn takes bytes off the buffer. -/
def appendSyncLoop : Nat → RedisServer → Except Fault RedisServer
  | 0, _ => .error .undefined
  | n + 1, s => do
    let sbuf := (s.client c).readBuf
    match ← respParse sbuf.buf sbuf.len with
    | none => .ok s
    | some endptr =>
      let s := s.modifyClient fake fun client =>
        { client with readBuf := sdscatlen client.readBuf (sbuf.buf.take (endptr + 1)) }
      let s ← processClientQueryBuf env execDepth s fake
      appendSyncLoop n (← rangeReadBuf c (endptr + 1) s)

/-- `doAppendSync`. -/
def doAppendSync (s : RedisServer) : Except Fault RedisServer := do
  let oldlen := (s.client c).readBuf.len
  let s := s.modifyClient fake fun _ => redisFakeClientCreate
  let s ← appendSyncLoop env c fake (oldlen + 1) s
  return slaveUpdateOffset s (s.offset + oldlen - (s.client c).readBuf.len)

/-- `sscanf` with `%d%n`: the number, and how many characters it took. -/
def scanIntLen (m : Bytes) : Option (Int × Nat) :=
  (strtol 10 m).map fun r => (toInt32 (clampLong r.1), m.length - r.2.length)

/-- The turn for `REPL_STATE_SLAVE_RECEIVE_RDB`. -/
def receiveRdb (sl : Slave D) : Except Fault (Slave D) :=
  match scanIntLen ((sl.readBuf c).buf.drop 1) with
  | none => .ok { sl with
      server := { sl.server.modifyClient c fun client =>
          { client with readBuf := sdsclear client.readBuf } with replState := .slaveSendSync } }
  | some (len, lenLength) => do
    let server ← rangeReadBuf c (1 + lenLength + 2) sl.server
    -- a length of 2^31 - 2 or more overflows below
    if len < 0 ∨ 2 ^ 31 ≤ len + 2 then .error .undefined
    else
      let buf := readAt (server.client c).readBuf.buf 0 len.toNat
      let disk := io.receiveRDBfile buf sl.disk
      let db ← io.rdbLoad disk server.db
      let server := slaveUpdateOffset { server with db := db, replState := .slaveConnected } 0
      let server ← rangeReadBuf c (len + 2) server
      return { sl with
        server := server
        disk := disk
        repliWrites := true
        events := sl.events ++ [.receiveRDBfile buf, .rdbLoad sl.received] }

/-- The `switch` over the state. -/
def repliTurn (sl : Slave D) : Except Fault (Slave D) :=
  match sl.server.replState with
  | .slaveConnecting => takeLine c resp.pong .slaveSendReplconf true sl
  | .slaveSendReplconf => takeLine c resp.ok .slaveSendSync true sl
  | .slaveSendSync => do
    let sl ← takeLine c resp.fullsync .slaveReceiveRdb false sl
    let sl ← takeLine c resp.appendsync .slaveReceiveAppendsync false sl
    takeLine c resp.nosync .slaveConnected false sl
  | .slaveReceiveAppendsync => do
    let server ← doAppendSync env c fake sl.server
    return { sl with server := { server with replState := .slaveConnected } }
  | .slaveReceiveRdb => receiveRdb io c sl
  | .slaveConnected =>
    if resp.ok <+: (sl.readBuf c).buf then do
      return { ← takeLine c resp.ok .slaveConnected false sl with repliReads := false }
    else .ok sl
  | _ => .ok sl

/-- The loop of `repliReadHandler`, for so many turns; `none` if that is not its end. -/
def repliLoop : Nat → Slave D → Except Fault (Option (Slave D))
  | 0, _ => .ok none
  | n + 1, sl =>
    if (sl.readBuf c).len = 0 then .ok (some sl)
    else do
      let sl ← repliTurn io env c fake sl
      match ← respParse (sl.readBuf c).buf (sl.readBuf c).len with
      | none => .ok (some sl)
      | some _ => repliLoop n sl

/-- What `repliReadHandler` adds to the buffer. -/
def receive (sl : Slave D) (nread : Bytes) : Slave D :=
  { sl with
    server := sl.server.modifyClient c fun client =>
      { client with readBuf := sdscatlen client.readBuf nread }
    received := sl.received + nread.length }

/-- `repliReadHandler`, when `read` gives these bytes, with so many turns. -/
def repliReadHandler (n : Nat) (sl : Slave D) (nread : Bytes) : Except Fault (Option (Slave D)) :=
  if nread = [] then .error .abort else repliLoop io env c fake n (receive c sl nread)

end Handler

end Fedis

import Fedis.Impl.Machine

/-!
# The AOF (`aof.c`)

`aof_load` runs when the server starts, on its memory: an append behind the allocation of the
string that holds the file, or of the fake client's buffers, is undefined. What has been appended
to the file are the bytes of `activeBuf`, which the server of this model never hands on to the
thread that writes them. That thread, `erverySecAOF`, stands behind: it takes the buffer over and
writes it while the main thread appends to the other one.
-/

namespace Fedis

open Framework

section Load

variable (slack : Nat) (env : Env) (fkc : ClientId)

/-- The reads of the file, one behind the other. -/
def aofRead (sbuf : Sds) (reads : List Bytes) : Except Fault Sds :=
  reads.foldlM (fun sbuf buf =>
    if sbuf.Fits buf.length then .ok (sdscatlen sbuf buf) else .error .undefined) sbuf

/-- The loop over the complete values in the string; every turn takes one off. What it leaves in
the string goes with the server. -/
def aofLoadBuf : Nat → Sds → Machine → Except Fault (Machine × Sds)
  | 0, _, _ => .error .undefined
  | n + 1, sbuf, m => do
    match ← respParse sbuf.buf sbuf.len with
    | none => .ok (m, sbuf)
    | some endptr =>
      let buf := sbuf.buf.take (endptr + 1)
      let m ← m.next ((m.server.client fkc).readBuf.Fits buf.length)
        (m.server.modifyClient fkc fun client =>
          { client with readBuf := sdscatlen client.readBuf buf })
      let m ← m.processClientQueryBuf slack env execDepth fkc
      match sdsrange sbuf (endptr + 1) (sbuf.len - 1) with
      | none => .error .abort
      | some sbuf => aofLoadBuf n sbuf m

/-- The fake client of `aof_load`. -/
def withFake (m : Machine) : Machine :=
  { m with server := m.server.modifyClient fkc fun _ => redisFakeClientCreate }

/-- `aof_load`, when the reads of the file give these bytes. -/
def aofLoad (reads : List Bytes) (m : Machine) : Except Fault (Machine × Sds) := do
  let sbuf ← aofRead sdsempty reads
  aofLoadBuf slack env fkc (sbuf.len + 1) sbuf (withFake fkc m)

end Load

/-! ## Writing -/

/-- Where the thread is: at the condition, or behind one of the steps of a turn. -/
inductive AofThread where
  | waiting
  | swapped
  | written
  | cleared
deriving DecidableEq, Repr

/-- `struct AOF`, with the bytes of the file and the thread. `appended` is the history of what
the main thread appends, which nothing reads. -/
structure Aof where
  file : Bytes
  activeBuf : Sds
  ioBuf : Sds
  lastAofTime : Int
  isAofing : Bool
  thread : AofThread
  appended : Bytes
deriving DecidableEq, Repr

/-- `aof_init`, on a file with these bytes. -/
def aofInit (file : Bytes) : Aof where
  file := file
  activeBuf := sdsempty
  ioBuf := sdsempty
  lastAofTime := 0
  isAofing := false
  thread := .waiting
  appended := []

/-- `needAOF`; `everysec` says what the configuration has for `appendfsync`. -/
def needAOF (everysec : Bool) (aof : Aof) (mstime : Int) : Bool :=
  !aof.isAofing && everysec && decide (1000 < mstime - aof.lastAofTime) &&
    decide (0 < sdslen aof.activeBuf)

/-- What happens to the two buffers: the main thread appends a read buffer, and the thread
goes on by one step. `write` comes with what it returns. -/
inductive AofEvent where
  | append (readBuf : Sds)
  | swap (mstime : Int)
  | write (nwritten : Int)
  | clear
  | done
deriving DecidableEq, Repr

/-- One event, where the thread has come to it. An append is undefined if it leaves the
allocation of a buffer. A `write` that fails leaves a message only. -/
def aofStep (everysec : Bool) (aof : Aof) : AofEvent → Option (Unit × Aof)
  | .append readBuf =>
    if readBuf.len ≤ readBuf.alloc ∧ aof.activeBuf.Fits readBuf.len then
      some ((), { aof with
        activeBuf := (sdscatsds aof.activeBuf readBuf).1
        appended := aof.appended ++ readBuf.content })
    else none
  | .swap mstime =>
    if aof.thread = .waiting ∧ needAOF everysec aof mstime = true then
      some ((), { aof with
        isAofing := true, activeBuf := aof.ioBuf, ioBuf := aof.activeBuf, thread := .swapped })
    else none
  | .write nwritten =>
    if aof.thread = .swapped ∧ -1 ≤ nwritten ∧ nwritten ≤ aof.ioBuf.len then
      some ((), { aof with
        file := aof.file ++ aof.ioBuf.content.take nwritten.toNat, thread := .written })
    else none
  | .clear =>
    if aof.thread = .written then
      some ((), { aof with ioBuf := sdsclear aof.ioBuf, thread := .cleared })
    else none
  | .done =>
    if aof.thread = .cleared then some ((), { aof with isAofing := false, thread := .waiting })
    else none

/-- A server, with the other buffer of its AOF and the bytes that the thread has written. -/
structure AofServer extends Machine where
  ioBuf : Sds
  file : Bytes

/-- A turn of the thread, which takes the buffer over, writes all of it and clears it. -/
def AofServer.turn (s : AofServer) : AofServer where
  server := { s.server with activeBuf := s.ioBuf }
  tables := s.tables
  ioBuf := sdsclear s.server.activeBuf
  file := s.file ++ s.server.activeBuf.content

/-- The bytes appended to the AOF. -/
def AofServer.appended (s : AofServer) : Bytes := s.file ++ s.server.activeBuf.content

end Fedis

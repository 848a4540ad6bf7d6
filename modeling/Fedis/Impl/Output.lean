import Fedis.Impl.Process
import Fedis.Impl.Rio

/-!
# Sending a client's output (`redis.c`)

`sendToClient` is the handler of a socket that takes bytes. What `write` and the calls of
`saveRDBToSlave` return is given. A file event that is taken off is none of the server's
state here, nor is the closing of a socket.
-/

namespace Fedis

open Framework

/-- The server with the sockets of its clients: the bytes that each has accepted. `appended` is
the history of what was to be sent to each, which nothing reads. -/
structure Outputs where
  server : RedisServer
  socket : ClientId → Bytes
  appended : ClientId → Bytes

namespace Outputs

/-- The client's socket accepts these bytes. -/
def accept (o : Outputs) (c : ClientId) (bs : Bytes) : Outputs :=
  { o with socket := fun x => if x = c then o.socket x ++ bs else o.socket x }

/-- These bytes are to be sent to the client. -/
def append (o : Outputs) (c : ClientId) (bs : Bytes) : Outputs :=
  { o with appended := fun x => if x = c then o.appended x ++ bs else o.appended x }

end Outputs

/-- What the calls of `saveRDBToSlave` return: whether `fstat` finds the file, and the bytes
that are taken of the length, of the file and of the line end. -/
structure RdbWrites where
  fstat : Bool
  length : Int
  sent : Int
  crlf : Int
deriving DecidableEq, Repr

/-- `saveRDBToSlave`: the bytes that the socket accepts. -/
def saveRDBToSlave (file : Bytes) (w : RdbWrites) : Bytes :=
  let length := 36 :: decimal file.length ++ crlf
  if !w.fstat then []
  else if w.length ≠ length.length then length.take w.length.toNat
  else if w.sent < 0 then length
  else length ++ file.take w.sent.toNat ++ crlf.take w.crlf.toNat

/-- `sendToClient`, with what `write` returns, and with the RDB file. -/
def sendToClient (o : Outputs) (c : ClientId) (nwritten : Int) (file : Bytes) (w : RdbWrites) :
    Outputs :=
  let client := o.server.client c
  if nwritten ≤ 0 then { o with server := clientToclose o.server c }
  else
    let o := o.accept c (client.writeBuf.content.take nwritten.toNat)
    -- what has been sent stays in the buffer of a short write
    if nwritten ≠ client.writeBuf.len then o
    else
      let o := { o with server := o.server.modifyClient c fun client =>
        { client with writeBuf := sdsclear client.writeBuf } }
      let o := if client.replState = .masterSendFullsync then
          let o := { o with server := o.server.modifyClient c fun client =>
            { client with replState := .masterSendRdb } }
          (o.accept c (saveRDBToSlave file w)).append c (saveRDBToSlave file w)
        else o
      if client.toclose then { o with server := clientToclose o.server c } else o

/-! ## Events -/

/-- What happens to the output of the clients. -/
inductive OutputEvent where
  | addWrite (c : ClientId) (str : Bytes)
  | addWriteBuf (c : ClientId) (buf : Bytes)
  | commandPropagate (s : Sds)
  | send (c : ClientId) (nwritten : Int) (file : Bytes) (w : RdbWrites)
deriving DecidableEq, Repr

namespace Outputs

/-- `addWrite`, where the output buffer has room. -/
def addWrite (o : Outputs) (c : ClientId) (str : Bytes) : Option Outputs :=
  if (o.server.client c).writeBuf.Fits (cstr str).length then
    some { (o.append c (cstr str)) with server := Fedis.addWrite o.server c str }
  else none

/-- `addWriteBuf`, where the output buffer has room. -/
def addWriteBuf (o : Outputs) (c : ClientId) (buf : Bytes) : Option Outputs :=
  if (o.server.client c).writeBuf.Fits buf.length then
    some { (o.append c buf) with server := Fedis.addWriteBuf o.server c buf }
  else none

/-- `commandPropagate` of a string that ends in its allocation, if a slave gets it. -/
def commandPropagate (o : Outputs) (s : Sds) : Option Outputs :=
  if slaves o.server ≠ [] ∧ 0 ∉ s.buf.take s.alloc then none
  else (slaves o.server).foldlM (fun o x => o.addWrite x s.buf) o

end Outputs

/-- One event. An append that leaves the allocation of the buffer is undefined; `write` takes no
more than it is given. -/
def outputStep (o : Outputs) : OutputEvent → Option (Unit × Outputs)
  | .addWrite c str => (o.addWrite c str).map fun o => ((), o)
  | .addWriteBuf c buf => (o.addWriteBuf c buf).map fun o => ((), o)
  | .commandPropagate s => (o.commandPropagate s).map fun o => ((), o)
  | .send c nwritten file w =>
    if nwritten ≤ (o.server.client c).writeBuf.len then some ((), sendToClient o c nwritten file w)
    else none

/-- A server of which nothing has been sent yet. -/
def initOutputs (s : RedisServer) : Outputs where
  server := s
  socket := fun _ => []
  appended := fun c => (s.client c).writeBuf.content

end Fedis

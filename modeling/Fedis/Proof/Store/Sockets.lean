import Fedis.Proof.Machine.Replay
import Fedis.Proof.Store.Serves

/-!
# The server is a store

Whatever clients ask in what order, a master on its memory sends each of them the replies of
`Store`, iff every request can be taken when it comes (`serves_store`): there is room for it, for
the reply and in the AOF buffer, and the dicts find an entry wherever they migrate.

A step is a request that is read, or a write that takes all of a client's output. None of the
store's commands makes a file follow or closes a connection (`Quiet`), so that a write sends just
the output.
-/

namespace Fedis

open Framework

/-- A request is read, or a client's socket takes what waits for it. -/
inductive StoreEvent where
  | ask (r : Ask)
  | write (c : ClientId) (file : Bytes) (w : RdbWrites)
deriving DecidableEq, Repr

/-- The requests of a run. -/
def asksOf (events : List StoreEvent) : List Ask :=
  events.filterMap fun e => match e with
    | .ask r => some r
    | .write .. => none

/-- A server on its memory, and what its clients' sockets have taken. -/
structure Connected extends Machine where
  socket : ClientId → Bytes

def Connected.outputs (m : Connected) : Outputs := ⟨m.server, m.socket, fun _ => []⟩

/-- One event. There is none for a client without output. -/
def connectedStep (slack : Nat) (m : Connected) : StoreEvent → Option (Unit × Connected)
  | .ask r => (machineStep slack m.toMachine (.read r.read)).map fun q =>
      ((), { m with toMachine := q.2 })
  | .write c file w =>
    let writeBuf := (m.server.client c).writeBuf
    if writeBuf.len = 0 then none
    else
      let o := sendToClient m.outputs c writeBuf.len file w
      some ((), { m with server := o.server, socket := o.socket })

/-- A server that starts, of which nothing has been sent yet. -/
def initConnected (s : RedisServer) : Connected where
  toMachine := initMachine s
  socket := fun _ => []

end Fedis

namespace Fedis.Proof.Server

open Framework Resp Value

variable {slack : Nat} {s s' t : RedisServer} {m m' : Connected} {c x : ClientId} {db : RedisDb}
  {st st' : Store} {dbnum : Nat} {q : Query} {r : Ask} {u : Unit} {env : Env}
  {query : RedisServer → ClientId → Except Fault RedisServer}

/-! ## Clients that are sent their output only -/

/-- No file follows the output, and the connection is not closed behind it. -/
def Quiet (client : RedisClient) : Prop :=
  client.replState ≠ .masterSendFullsync ∧ client.toclose = false

theorem quiet_modify {f : RedisClient → RedisClient} (hf : ∀ client, Quiet client → Quiet (f client))
    (hq : Quiet (s.client x)) : Quiet ((s.modifyClient c f).client x) := by
  rw [modifyClient_client]
  split
  · exact hf _ hq
  · exact hq

theorem quiet_addWrite (b : Bytes) (hq : Quiet (s.client x)) : Quiet ((addWrite s c b).client x) :=
  quiet_modify (fun _ h => h) hq

theorem quiet_clearReadBuf (hq : Quiet (s.client x)) : Quiet ((clearReadBuf s c).client x) :=
  quiet_modify (fun _ h => h) hq

theorem quiet_received (nread : Bytes) (hq : Quiet (s.client x)) :
    Quiet ((received s c nread).client x) := quiet_modify (fun _ h => h) hq

theorem quiet_bulk {str : Bytes} (hq : Quiet (s.client x)) (h : addWriteBulk s c str = .ok t) :
    Quiet (t.client x) := by
  obtain ⟨-, rfl⟩ := addWriteBulk_ok.mp h
  exact quiet_addWrite _ hq

theorem callProc_quiet (hq : Quiet (s.client x))
    (h : callProc query env q.entry.proc s c q.argv = .ok t) : Quiet (t.client x) := by
  cases q with
  | set key value =>
    obtain ⟨key, -, ⟨-, rfl⟩ | ⟨value, db, -, -, rfl⟩⟩ := commandSetProc_ok.mp h
    · exact quiet_addWrite _ hq
    · exact quiet_addWrite _ hq
  | get key =>
    obtain ⟨key, db, -, -, ⟨-, rfl⟩ | ⟨res, -, h⟩⟩ := commandGetProc_ok.mp h
    · exact quiet_addWrite _ hq
    · exact quiet_bulk hq h
  | del key =>
    obtain ⟨key, db, -, -, rfl⟩ := commandDelProc_ok.mp h
    unfold afterDel
    split
    · exact quiet_addWrite _ hq
    · exact quiet_addWrite _ hq
  | expire key seconds =>
    obtain ⟨key, arg, -, -, ⟨-, rfl⟩ | ⟨n, db, -, -, -, rfl⟩⟩ := commandExpireProc_ok.mp h
    · exact quiet_addWrite _ hq
    · unfold afterExpire
      split
      · exact quiet_addWrite _ hq
      · exact quiet_addWrite _ hq
  | ttl key =>
    obtain ⟨key, db0, -, -, ⟨-, rfl⟩ | ⟨db, -, -, -, h⟩⟩ := commandTtlProc_ok.mp h
    · exact quiet_addWrite _ hq
    · exact quiet_bulk hq h
  | select index =>
    obtain ⟨arg, -, ⟨-, rfl⟩ | ⟨dbid, -, h⟩⟩ := commandSelectProc_ok.mp h
    · exact quiet_addWrite _ hq
    · have hselect : Quiet ((s.modifyClient c fun client => { client with db := dbid }).client x) :=
        quiet_modify (fun _ hq => hq) hq
      exact quiet_bulk hselect h
  | ping =>
    cases h
    have hwait : ReplState.masterWaitPing ≠ .masterSendFullsync := by decide
    exact quiet_addWrite _ (quiet_modify (fun _ hq => ⟨hwait, hq.2⟩) hq)

theorem executed_quiet (hq : Quiet (s.client x))
    (h : executed query env s c q.entry q.argv = .ok t) : Quiet (t.client x) := by
  obtain ⟨s₁, h₁, h⟩ := bind_ok.mp h
  obtain ⟨s₂, h₂, h⟩ := bind_ok.mp h
  have hfeed : Quiet ((feedAof s c q.entry).client x) := by
    unfold feedAof
    split
    · have hlogged : ∀ buf, Quiet ((s.modifyClient c fun client =>
          { client with readBuf := buf }).client x) := fun _ => quiet_modify (fun _ hq => hq) hq
      exact hlogged _
    · exact hq
  rw [← expireArg_client h₁] at hfeed
  have hcall := callProc_quiet hfeed h₂
  split at h
  · have hsame := touchWatchKey_field (fun client => (client.replState, client.toclose)) (fun _ => rfl) h x
    obtain ⟨hstate, hclose⟩ := Prod.mk.inj hsame
    rwa [Quiet, hstate, hclose]
  · cases h
    exact hcall

/-- A request of the store's leaves all clients so. -/
theorem serve_quiet (hs : Serves dbnum st s) (hi : Idle s) (hf : r.query.Fits)
    (hq : ∀ x, Quiet (s.client x)) (h : serve s r.read = some (u, s')) (x : ClientId) :
    Quiet (s'.client x) := by
  have hm : (s.client r.client).flags.multi = false := by
    rw [hs.normal]
    rfl
  obtain ⟨t, ⟨hqueues, -⟩ | ⟨-, ht⟩, rfl⟩ :=
    (read_request (fits_request hf) hf.length (hi r.client)).mp (serve_ok.mp h)
  · exact absurd hqueues (not_queues hm)
  set w := received s r.client (respEncodeArrayString r.query.argv) with hw
  have hslave : w.flags.slave = false := hs.slave
  obtain ⟨-, t', ht', rfl⟩ := (processCommand_found (entry_found hslave r.query)).mp ht
  have hreceived : Quiet ((logCall w r.client r.query.argv).client x) := quiet_received _ (hq x)
  have hexec := executed_quiet hreceived ht'
  obtain ⟨wb, b, o, p, e⟩ := replicate_frame t' r.client r.query.entry
  refine quiet_clearReadBuf (quiet_clearReadBuf ?_)
  rw [e]
  exact hexec

/-! ## The store does not look at what it has sent -/

theorem answer_sent (st : Store) (sent : ClientId → List Reply) (c : ClientId) (q : Query) :
    ({ st with sent := sent } : Store).answer string2long shown dbnum c q =
      (st.answer string2long shown dbnum c q).map fun r => (r.1, { r.2 with sent := sent }) := by
  have hseen : ∀ i k, ({ st with sent := sent } : Store).seen i k = st.seen i k := fun _ _ => rfl
  cases q with
  | set key value => rfl
  | get key =>
    simp only [Store.answer, hseen]
    cases st.seen (st.selected c) key <;> rfl
  | del key =>
    simp only [Store.answer, hseen]
    cases (st.seen (st.selected c) key).isSome <;> rfl
  | expire key seconds =>
    simp only [Store.answer]
    cases string2long seconds with
    | none => rfl
    | some n =>
      dsimp only
      split_ifs <;> rfl
  | ttl key =>
    simp only [Store.answer]
    split_ifs <;> rfl
  | select index =>
    simp only [Store.answer]
    cases string2long index with
    | none => rfl
    | some n =>
      dsimp only
      split_ifs <;> rfl
  | ping => rfl

/-- A request adds one reply to those that its client is sent. -/
theorem step_sent (sent : ClientId → List Reply)
    (h : st.step string2long shown dbnum r = some (u, st')) : ∃ rep,
    st'.sent = Function.update st.sent r.client (st.sent r.client ++ [rep]) ∧
      ({ st with sent := sent } : Store).step string2long shown dbnum r = some (u, { st' with
        sent := Function.update sent r.client (sent r.client ++ [rep]) }) := by
  unfold Store.step at h ⊢
  split at h
  · cases h
  rename_i htime
  obtain ⟨⟨rep, st₁⟩, hans, e⟩ := Option.map_eq_some_iff.mp h
  cases e
  have hsent := (answered hans).sent
  refine ⟨rep, by rw [hsent], ?_⟩
  rw [if_neg htime]
  have hanswer : ({ st with now := r.now, sent := sent } : Store).answer string2long shown dbnum
      r.client r.query = some (rep, { st₁ with sent := sent }) :=
    (answer_sent { st with now := r.now } sent r.client r.query).trans (by rw [hans]; rfl)
  exact Option.map_eq_some_iff.mpr ⟨_, hanswer, rfl⟩

/-! ## Runs -/

/-- The event can be dealt with: a request can be taken, and a client that is written to has
output. -/
def CanServe (slack : Nat) (m : Connected) : StoreEvent → Prop
  | .ask r => Machine.Takes slack r.read.env m.toMachine r.client
      (respEncodeArrayString r.query.argv) r.query.argv
  | .write c _ _ => (m.server.client c).writeBuf.len ≠ 0

/-- The server serves what the store says, and `waiting` are the replies that have not been
written yet. -/
structure Delivers (dbnum : Nat) (st : Store) (waiting : ClientId → List Reply) (m : Connected) :
    Prop where
  serves : Serves dbnum { st with sent := waiting } m.server
  idle : Idle m.server
  coherent : Machine.Coherent m.toMachine
  quiet : ∀ x, Quiet (m.server.client x)
  sent : ∀ x, m.socket x ++ (waiting x).flatMap Reply.bytes = (st.sent x).flatMap Reply.bytes

/-- What the clients have been sent, and what waits for them, are the store's replies. -/
theorem Delivers.replies {waiting : ClientId → List Reply} (h : Delivers dbnum st waiting m)
    (x : ClientId) :
    m.socket x ++ (m.server.client x).writeBuf.content = (st.sent x).flatMap Reply.bytes := by
  rw [h.serves.sent, ← h.sent]

theorem Delivers.canServe {waiting : ClientId → List Reply} (h : Delivers dbnum st waiting m)
    (hf : r.query.Fits) :
    (∃ v, connectedStep slack m (.ask r) = some v) ↔ CanServe slack m (.ask r) := by
  have hr := fits_request hf
  have hm : (m.server.client r.client).flags.multi = false := by
    rw [h.serves.normal]
    rfl
  set enc := respEncodeArrayString r.query.argv with henc
  have hslave : (received m.server r.client enc).flags.slave = false := h.serves.slave
  have hfound := entry_found (c := r.client) hslave r.query
  have hb : Machine.Coherent { m.toMachine with server := received m.server r.client enc } := h.coherent
  have hreturns : (∃ m₁, Machine.processCommand (Machine.processClientQueryBuf slack r.read.env 11)
      r.read.env { m.toMachine with server := received m.server r.client enc } r.client
        r.query.argv = .ok m₁) ↔
      ∃ out, Machine.ReturnsWith r.read.env { m.toMachine with server := received m.server r.client enc }
        r.client r.query.argv r.query.entry out :=
    Machine.processCommand_returns hb hfound (entry_plain r.query).1 (entry_plain r.query).2
  have hread : ∀ m', m.toMachine.readFromClient slack r.read.env r.client enc = .ok m' ↔ _ :=
    fun _ => Machine.read_request hr h.idle (not_queues hm)
  constructor
  · rintro ⟨v, hv⟩
    obtain ⟨⟨u, m₁⟩, hm₁, -⟩ := Option.map_eq_some_iff.mp hv
    obtain ⟨-, hfit, hdec, m₂, h₂, -⟩ := (hread m₁).mp (Machine.machineStep_read.mp hm₁)
    obtain ⟨out, hret⟩ := hreturns.mp ⟨m₂, h₂⟩
    exact ⟨hfit, hdec, r.query.entry, out, entryOf_found hfound, hret⟩
  · rintro ⟨hfit, hdec, cmd, out, he, hret⟩
    obtain rfl : r.query.entry = cmd := Option.some.inj ((entryOf_found hfound).symm.trans he)
    obtain ⟨m₂, h₂⟩ := hreturns.mpr ⟨out, hret⟩
    have hm₁ := (hread _).mpr ⟨hf.length, hfit, hdec, m₂, h₂, rfl⟩
    exact ⟨_, Option.map_eq_some_iff.mpr ⟨((), _), Machine.machineStep_read.mpr hm₁, rfl⟩⟩

theorem Delivers.ask {waiting : ClientId → List Reply} (hdbnum : dbnum ≤ 2 ^ 31)
    (h : Delivers dbnum st waiting m) (hf : r.query.Fits) {u' : Unit}
    (hstep : st.step string2long shown dbnum r = some (u, st'))
    (hm : connectedStep slack m (.ask r) = some (u', m')) :
    ∃ waiting', Delivers dbnum st' waiting' m' := by
  obtain ⟨rep, hsent, hwaiting⟩ := step_sent waiting hstep
  obtain ⟨s', hserve, hserves, hidle⟩ := serves_step hdbnum h.serves h.idle hf hwaiting
  obtain ⟨⟨u₁, m₁⟩, hm₁, e⟩ := Option.map_eq_some_iff.mp hm
  cases e
  have hread := Machine.read_server (Machine.machineStep_read.mp hm₁)
  obtain rfl : s' = m₁.server := Except.ok.inj ((serve_ok.mp hserve).symm.trans hread)
  refine ⟨_, hserves, hidle, Machine.machineStep_coherent h.coherent hm₁,
    serve_quiet h.serves h.idle hf h.quiet hserve, fun x => ?_⟩
  rw [hsent]
  by_cases hx : x = r.client
  · rw [hx, Function.update_self, Function.update_self, List.flatMap_append, List.flatMap_append,
      ← h.sent, List.append_assoc]
  · rw [Function.update_of_ne hx, Function.update_of_ne hx]
    exact h.sent x

theorem flushed_field {β : Type} (s : RedisServer) (c : ClientId) (g : RedisClient → β)
    (hg : ∀ client : RedisClient, g { client with writeBuf := sdsclear client.writeBuf } = g client)
    (x : ClientId) :
    g ((s.modifyClient c fun client => { client with writeBuf := sdsclear client.writeBuf }).client x) =
      g (s.client x) :=
  modifyClient_field s c (fun client => { client with writeBuf := sdsclear client.writeBuf }) g hg x

/-- A client's output has been taken. -/
theorem Serves.flush {waiting : ClientId → List Reply}
    (h : Serves dbnum { st with sent := waiting } s) (c : ClientId) :
    Serves dbnum { st with sent := Function.update waiting c [] }
      (s.modifyClient c fun client => { client with writeBuf := sdsclear client.writeBuf }) where
  slave := h.slave
  normal x := (flushed_field s c (·.flags) (fun _ => rfl) x).trans (h.normal x)
  selected x := (flushed_field s c (·.db) (fun _ => rfl) x).trans (h.selected x)
  sent x := by
    rw [modifyClient_client]
    dsimp only
    split
    · rename_i hx
      rw [hx, Function.update_self]
      exact content_sdsclear _
    · rename_i hx
      rw [Function.update_of_ne hx]
      exact h.sent x
  dbs := h.dbs
  inside := h.inside
  views i db hi := (h.views i db hi).congr rfl rfl rfl
  printable := h.printable

theorem Delivers.write {waiting : ClientId → List Reply} (h : Delivers dbnum st waiting m)
    {file : Bytes} {w : RdbWrites} (hm : connectedStep slack m (.write c file w) = some (u, m')) :
    Delivers dbnum st (Function.update waiting c []) m' := by
  obtain ⟨hl, hm⟩ := Option.ite_none_left_eq_some.mp hm
  have e := send_plain (o := m.outputs) hl (h.quiet c).2 (h.quiet c).1 file w
  dsimp only [Connected.outputs] at e hm
  rw [e] at hm
  cases hm
  have hsame := fun x => flushed_field m.server c (fun client => (client.replState, client.toclose))
    (fun _ => rfl) x
  refine ⟨h.serves.flush c, fun x => ?_, h.coherent, fun x => ?_, fun x => ?_⟩
  · exact (congrArg Sds.len (flushed_field m.server c (·.readBuf) (fun _ => rfl) x)).trans (h.idle x)
  · obtain ⟨hstate, hclose⟩ := Prod.mk.inj (hsame x)
    exact ⟨fun e => (h.quiet x).1 (hstate.symm.trans e), hclose.trans (h.quiet x).2⟩
  · rw [← h.sent x]
    by_cases hx : x = c
    · subst hx
      rw [Function.update_self, Outputs.accept]
      dsimp only
      rw [if_pos rfl, h.serves.sent, List.flatMap_nil, List.append_nil]
    · rw [Function.update_of_ne hx, Outputs.accept]
      dsimp only
      rw [if_neg hx]

/-- One event of a run in which the store answers. -/
theorem Delivers.event {waiting : ClientId → List Reply} (hdbnum : dbnum ≤ 2 ^ 31)
    (h : Delivers dbnum st waiting m) {e : StoreEvent} {events : List StoreEvent}
    (hf : ∀ r ∈ asksOf [e], r.query.Fits) {us : List Unit}
    (hrun : run (Store.step string2long shown dbnum) st (asksOf (e :: events)) = some (us, st')) :
    ((∃ v, connectedStep slack m e = some v) ↔ CanServe slack m e) ∧
      ∀ u m', connectedStep slack m e = some (u, m') → ∃ st₁ waiting₁ us₁,
        Delivers dbnum st₁ waiting₁ m' ∧
          run (Store.step string2long shown dbnum) st₁ (asksOf events) = some (us₁, st') := by
  cases e with
  | ask r =>
    have hr : r.query.Fits := hf r (List.mem_singleton.mpr rfl)
    obtain ⟨u₁, st₁, us₁, h₁, h₂, -⟩ := run_cons_eq_some.mp hrun
    refine ⟨h.canServe hr, fun u m' hm => ?_⟩
    obtain ⟨waiting₁, hd⟩ := h.ask hdbnum hr h₁ hm
    exact ⟨st₁, waiting₁, us₁, hd, h₂⟩
  | write c file w =>
    refine ⟨?_, fun u m' hm => ⟨st, _, us, h.write hm, hrun⟩⟩
    rw [CanServe, connectedStep]
    by_cases hl : (m.server.client c).writeBuf.len = 0
    · simp [hl]
    · simp [hl]

theorem serves_run (hdbnum : dbnum ≤ 2 ^ 31) {events : List StoreEvent}
    {waiting : ClientId → List Reply} (hf : ∀ r ∈ asksOf events, r.query.Fits)
    (h : Delivers dbnum st waiting m) {us : List Unit}
    (hrun : run (Store.step string2long shown dbnum) st (asksOf events) = some (us, st')) :
    (∀ us' m', run (connectedStep slack) m events = some (us', m') →
        ∀ x, m'.socket x ++ (m'.server.client x).writeBuf.content =
          (st'.sent x).flatMap Reply.bytes) ∧
      ((∃ r, run (connectedStep slack) m events = some r) ↔
        Along (connectedStep slack) (CanServe slack) m events) := by
  induction events generalizing st m waiting us with
  | nil =>
    cases hrun
    refine ⟨fun us' m' h' => ?_, iff_of_true ⟨_, rfl⟩ trivial⟩
    cases h'
    exact h.replies
  | cons e events ih =>
    have hasks : asksOf (e :: events) = asksOf [e] ++ asksOf events :=
      List.filterMap_append (l := [e])
    rw [hasks] at hf
    have hfirst := fun r hr => hf r (List.mem_append_left _ hr)
    have hrest := fun r hr => hf r (List.mem_append_right _ hr)
    obtain ⟨hcan, hnext⟩ := h.event hdbnum hfirst hrun
    refine ⟨fun us' m' h' => ?_, fun h' => ?_, fun h' => ?_⟩
    · obtain ⟨u₁, m₁, us₁, e₁, e₂, -⟩ := run_cons_eq_some.mp h'
      obtain ⟨st₁, waiting₁, us₂, hd, h₂⟩ := hnext u₁ m₁ e₁
      exact (ih hrest hd h₂).1 us₁ m' e₂
    · obtain ⟨⟨us', m'⟩, h'⟩ := h'
      obtain ⟨u₁, m₁, us₁, e₁, e₂, -⟩ := run_cons_eq_some.mp h'
      refine ⟨hcan.mp ⟨_, e₁⟩, fun b m₂ e => ?_⟩
      rw [e₁] at e
      cases e
      obtain ⟨st₁, waiting₁, us₂, hd, h₂⟩ := hnext u₁ m₁ e₁
      exact (ih hrest hd h₂).2.mp ⟨_, e₂⟩
    · obtain ⟨hserve, halong⟩ := h'
      obtain ⟨⟨u₁, m₁⟩, e₁⟩ := hcan.mpr hserve
      obtain ⟨st₁, waiting₁, us₂, hd, h₂⟩ := hnext u₁ m₁ e₁
      obtain ⟨⟨us', m'⟩, e₂⟩ := (ih hrest hd h₂).2.mpr (halong u₁ m₁ e₁)
      exact ⟨_, run_cons_eq_some.mpr ⟨u₁, m₁, us', e₁, e₂, rfl⟩⟩

/-- A value that is not seen any more, and is not seen either when it is set again. The replies are
written at once, or two together. -/
def sampleEvents : List StoreEvent :=
  [.ask ⟨0, 7, .set (bytes "k") (bytes "v")⟩, .write 7 [] ⟨true, 0, 0, 0⟩,
    .ask ⟨0, 8, .expire (bytes "k") (bytes "5")⟩, .write 8 [] ⟨true, 0, 0, 0⟩,
    .ask ⟨5, 7, .get (bytes "k")⟩, .write 7 [] ⟨true, 0, 0, 0⟩, .ask ⟨6, 7, .get (bytes "k")⟩,
    .ask ⟨7, 8, .set (bytes "k") (bytes "w")⟩, .write 8 [] ⟨true, 0, 0, 0⟩,
    .ask ⟨7, 8, .get (bytes "k")⟩]

end Fedis.Proof.Server

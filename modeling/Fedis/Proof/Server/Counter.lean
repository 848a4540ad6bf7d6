import Mathlib.Data.Finset.Card
import Fedis.Proof.Machine.Step
import Fedis.Proof.Server.Queue
import Fedis.Proof.Server.Reads

/-!
# A counter under WATCH

The clients of `test_transaction.cpp`: each watches a key, reads its number, and
sets the next one in a transaction. `count_step` is one request of one client,
`counter` a whole run: the key's number grows by the transactions that were not
refused. `watch_locks` is this and what `machine_watches` and `exec_refused` give.
-/

namespace Fedis.Proof.Server

open Framework Resp Relation Value

variable {env : Env} {s s' t : RedisServer} {c x : ClientId} {argv : List Bytes}
  {cmd : RedisCommand} {i : Nat} {k : Bytes}

/-! ## The clients -/

/-- How far a client is, with the number that it has read. -/
inductive Phase where
  | start
  | watched
  | read (v : Int)
  | multi (v : Int)
  | queued (v : Int)
  | done
deriving DecidableEq, Repr

/-- The request that a client sends next. -/
def request (k : Bytes) : Phase → Option (List Bytes)
  | .start => some [bytes "WATCH", k]
  | .watched => some [bytes "GET", k]
  | .read _ => some [bytes "MULTI"]
  | .multi v => some [bytes "SET", k, decimalInt (v + 1)]
  | .queued _ => some [bytes "EXEC"]
  | .done => none

/-- The number in a bulk string. -/
def bulkNumber (reply : Bytes) : Int := (((afterNewline reply).bind (strtol 10)).map (·.1)).getD 0

/-- The reply moves a client on. -/
def Phase.next (reply : Bytes) : Phase → Phase
  | .start => .watched
  | .watched => .read (bulkNumber reply)
  | .read v => .multi v
  | .multi v => .queued v
  | .queued _ | .done => .done

/-- Counts an EXEC that was not refused. -/
def Phase.won (reply : Bytes) : Phase → Nat
  | .queued _ => if reply = bulkString (bytes "err dirty") then 0 else 1
  | _ => 0

/-- The bytes that a request adds to the client's output. -/
def replyOf (s s' : RedisServer) (c : ClientId) : Bytes :=
  (s'.client c).writeBuf.content.drop (s.client c).writeBuf.content.length

/-- The server and its clients. -/
structure Counters where
  server : RedisServer
  phase : ClientId → Phase
  wins : Nat

/-- A client sends its next request and reads the reply; one that is done does
nothing. -/
def countStep (k : Bytes) (a : Counters) (e : Env × ClientId) : Option (Unit × Counters) :=
  match request k (a.phase e.2) with
  | none => some ((), a)
  | some argv =>
    match readFromClient e.1 a.server e.2 (respEncodeArrayString argv) with
    | .error _ => none
    | .ok s =>
      let reply := replyOf a.server s e.2
      some ((), {
        server := s
        phase := fun x => if x = e.2 then (a.phase x).next reply else a.phase x
        wins := a.wins + (a.phase e.2).won reply })

/-! ## Clients between two requests -/

/-- A client that has queued `qs`, and collects more or does not. -/
structure Ready (s : RedisServer) (c : ClientId) (multi : Bool) (qs : List (List Bytes)) : Prop where
  db : (s.client c).db = 0
  multi : (s.client c).flags.multi = multi
  places : (s.client c).multcmds.length = 10
  queued : Queued s c qs

variable {m m' : Bool} {qs : List (List Bytes)}

theorem Ready.congr (h : Ready s c m qs)
    (hdb : (s'.client c).db = (s.client c).db) (hm : (s'.client c).flags.multi = m')
    (hq : (s'.client c).multcmds = (s.client c).multcmds)
    (hn : (s'.client c).multiCmdCount = (s.client c).multiCmdCount) : Ready s' c m' qs where
  db := hdb.trans h.db
  multi := hm
  places := by rw [hq, h.places]
  queued := ⟨by
    obtain ⟨⟨h₁, h₂⟩, -⟩ := h.queued
    exact ⟨hn.trans h₁, by rwa [hq]⟩, h.queued.requests⟩

theorem Ready.marked (h : Ready s x m qs) (hm : Marked (s.client x) (s'.client x)) :
    Ready s' x m qs := by
  rcases hm with hm | hm
  · exact h.congr (core_db hm) (by rw [core_flags hm, h.multi]) (core_multcmds hm)
      (core_multiCmdCount hm)
  · have hdb := core_db hm
    have hq := core_multcmds hm
    have hn := core_multiCmdCount hm
    exact h.congr hdb (by rw [core_flags hm]; exact h.multi) hq hn

theorem ready_fresh {ip : Bytes} {port : Int} (h : s.client c = redisClientCreate ip port) :
    Ready s c false [] := by
  refine ⟨by rw [h]; rfl, by rw [h]; rfl, by rw [h]; rfl, ⟨by rw [h]; rfl, ?_⟩, ?_⟩
  · intro j q hj
    cases hj
  · intro q hq
    cases hq

/-! ## The invariant -/

def Phase.collecting : Phase → Bool
  | .multi _ | .queued _ => true
  | _ => false

def Phase.queue (k : Bytes) : Phase → List (List Bytes)
  | .queued v => [[bytes "SET", k, decimalInt (v + 1)]]
  | _ => []

def Phase.seen : Phase → Option Int
  | .read v | .multi v | .queued v => some v
  | _ => none

/-- A client on its way: the number that it has read is the key's number, or the
key has been written since it was watched. -/
structure Member (k : Bytes) (z₀ : Int) (new : List Call) (a : Counters) (x : ClientId) : Prop where
  ready : Ready a.server x (a.phase x).collecting ((a.phase x).queue k)
  armed : a.phase x ≠ .start → Armed (WatchesKey x 0 k) new
  seen : ∀ v, (a.phase x).seen = some v → ∃ n ≤ a.wins, v = z₀ + n ∧
    (n = a.wins ∨ Tripped (WatchesKey x 0 k) (WritesKey 0 k) new)

structure Counting (base : List Call) (times : List Int) (clients : Finset ClientId) (k : Bytes)
    (z₀ : Int) (a : Counters) : Prop where
  idle : Idle a.server
  value : kvAt a.server 0 k = some (robjCreateStringObject (decimalInt (z₀ + a.wins)))
  deadline : ∀ D, expireAt a.server 0 k = some D → ∀ now ∈ times, now ≤ D
  wins : a.wins ≤ (clients.filter fun x => a.phase x = .done).card
  history : ∃ new, a.server.calls = base ++ new ∧ (∀ call ∈ new, Plain call) ∧
    (∀ x i k, Watches x i k a.server new) ∧
    ∀ x ∈ clients, a.phase x ≠ .done → Member k z₀ new a x

/-- The state after a client's request. -/
def Counters.after (a : Counters) (c : ClientId) (s : RedisServer) : Counters where
  server := s
  phase := fun x => if x = c then (a.phase x).next (replyOf a.server s c) else a.phase x
  wins := a.wins + (a.phase c).won (replyOf a.server s c)

theorem Phase.next_done {reply : Bytes} {p : Phase} (h : p.won reply ≠ 0) : p.next reply = .done := by
  cases p with
  | queued v => rfl
  | start | watched | read | multi | done => exact absurd rfl h

theorem Phase.won_le (reply : Bytes) (p : Phase) : p.won reply ≤ 1 := by
  unfold Phase.won
  split
  · split <;> omega
  · omega

variable {base calls : List Call} {times : List Int} {clients : Finset ClientId} {z₀ : Int}
  {a : Counters}

/-- The invariant after a request of one client: it raises the number only with a
write of the key, and is a member or done. -/
theorem Counting.after (h : Counting base times clients k z₀ a) (hc : c ∈ clients)
    (hnd : a.phase c ≠ .done) {nread : Bytes} (hread : readFromClient env a.server c nread = .ok s)
    (hcalls : s.calls = a.server.calls ++ calls) (hplain : ∀ call ∈ calls, Plain call)
    (hexp : ∀ call ∈ calls, call.proc ≠ some .expire)
    (hvalue : kvAt s 0 k = some (robjCreateStringObject (decimalInt (z₀ + (a.after c s).wins))))
    (hwon : (a.after c s).wins = a.wins ∨ ∃ call ∈ calls, WritesKey 0 k call)
    (hself : ∀ new, (∀ x i k, Watches x i k a.server new) → Member k z₀ new a c →
      (a.after c s).phase c ≠ .done → Member k z₀ (new ++ calls) (a.after c s) c) :
    Counting base times clients k z₀ (a.after c s) := by
  obtain ⟨new, hnew, hpl, hw, hmem⟩ := h.history
  have hle : a.wins ≤ (a.after c s).wins := Nat.le_add_right _ _
  refine ⟨readFromClient_idle hread h.idle, hvalue, ?_, ?_, new ++ calls, ?_, ?_, ?_, ?_⟩
  · obtain ⟨n', e, hD⟩ := read_expireAt (i := 0) (k := k) hread
    rw [hcalls] at e
    obtain rfl := List.append_cancel_left e
    rw [Counters.after, hD fun call hcall hb => hexp call hcall hb.2]
    exact h.deadline
  · have hsub : (clients.filter fun x => a.phase x = .done) ⊆
        clients.filter fun x => (a.after c s).phase x = .done := by
      intro x hx
      obtain ⟨hx, hp⟩ := Finset.mem_filter.mp hx
      refine Finset.mem_filter.mpr ⟨hx, ?_⟩
      have hne : x ≠ c := fun e => hnd (e ▸ hp)
      simpa [Counters.after, hne] using hp
    by_cases h0 : (a.phase c).won (replyOf a.server s c) = 0
    · have : (a.after c s).wins = a.wins := by rw [Counters.after, h0, Nat.add_zero]
      rw [this]
      exact h.wins.trans (Finset.card_le_card hsub)
    · have hlt : (clients.filter fun x => a.phase x = .done).card <
          (clients.filter fun x => (a.after c s).phase x = .done).card := by
        refine Finset.card_lt_card (Finset.ssubset_iff_of_subset hsub |>.mpr ⟨c, ?_, ?_⟩)
        · refine Finset.mem_filter.mpr ⟨hc, ?_⟩
          simp [Counters.after, Phase.next_done h0]
        · simp [hnd]
      have := h.wins
      have := (a.phase c).won_le (replyOf a.server s c)
      have : (a.after c s).wins = a.wins + (a.phase c).won (replyOf a.server s c) := rfl
      omega
  · exact hcalls.trans (by rw [hnew, List.append_assoc])
  · intro call hcall
    rcases List.mem_append.mp hcall with hcall | hcall
    · exact hpl call hcall
    · exact hplain call hcall
  · obtain ⟨n', e, hw'⟩ := read_watches hread ⟨new, hnew, fun _ => hw⟩
    rw [hcalls, hnew, List.append_assoc] at e
    obtain rfl := List.append_cancel_left e
    refine hw' fun call hcall => ?_
    rcases List.mem_append.mp hcall with hcall | hcall
    · exact hpl call hcall
    · exact hplain call hcall
  · intro x hx hxd
    by_cases hxc : x = c
    · subst hxc
      exact hself new hw (hmem x hx hnd) hxd
    · have hph : (a.after c s).phase x = a.phase x := by simp [Counters.after, hxc]
      rw [hph] at hxd
      obtain ⟨hr, ha, hs⟩ := hmem x hx hxd
      obtain ⟨n', e, hm⟩ := read_marked hread hxc
      rw [hcalls] at e
      obtain rfl := List.append_cancel_left e
      refine ⟨by rw [hph]; exact hr.marked (hm hplain), fun hp => ?_, fun v hv => ?_⟩
      · rw [hph] at hp
        exact (ha hp).append calls
      · rw [hph] at hv
        obtain ⟨n, hn, hv', hor⟩ := hs v hv
        refine ⟨n, hn.trans hle, hv', ?_⟩
        rcases hor with rfl | ht
        · rcases hwon with he | hwr
          · exact .inl he.symm
          · refine .inr ((ha fun hp => ?_).tripped hwr)
            rw [hp] at hv
            cases hv
        · exact .inr (ht.append calls)

/-! ## The five requests -/

theorem length_watch_request (k : Bytes) :
    (respEncodeArrayString [bytes "WATCH", k]).length =
      (respEncodeArrayString [bytes "GET", k]).length + 2 := by
  have hw : (respEncodeArg (bytes "WATCH")).length = (respEncodeArg (bytes "GET")).length + 2 := by
    decide
  simp only [respEncodeArrayString, List.flatMap_cons, List.flatMap_nil, List.length_append,
    List.length_cons, List.length_nil, hw]
  omega

theorem request_fits (hk : ∀ b ∈ k, b ≠ 0) {p : Phase} (hreq : request k p = some argv) {v : Bytes}
    (hlen : (respEncodeArrayString [bytes "SET", k, v]).length < 1024)
    (hset : ∀ n, p = .multi n →
      (respEncodeArrayString [bytes "SET", k, decimalInt (n + 1)]).length < 1024) :
    Request argv ∧ (respEncodeArrayString argv).length < 1024 := by
  have hset' := length_set_request k v
  have hwatch := length_watch_request k
  have hbulk : 2 ≤ (bulkString (cstr v)).length := by
    simp only [bulkString, crlf, List.length_append, List.length_cons]
    omega
  have hmulti : (respEncodeArrayString [bytes "MULTI"]).length < 1024 := by decide
  have hexec : (respEncodeArrayString [bytes "EXEC"]).length < 1024 := by decide
  have fits : ∀ {argv}, argv ≠ [] → (∀ arg ∈ argv, ∀ b ∈ arg, b ≠ 0) →
      (respEncodeArrayString argv).length < 1024 →
        Request argv ∧ (respEncodeArrayString argv).length < 1024 :=
    fun hne hz hlen => ⟨request_of_fits hne hz (by omega), hlen⟩
  cases p with
  | start =>
    cases hreq
    refine fits (by simp) ?_ (by omega)
    simpa using ⟨by decide +kernel, hk⟩
  | watched =>
    cases hreq
    refine fits (by simp) ?_ (by omega)
    simpa using ⟨by decide +kernel, hk⟩
  | read n =>
    cases hreq
    exact fits (by simp) (by decide +kernel) hmulti
  | multi n =>
    cases hreq
    refine fits (by simp) ?_ (hset n rfl)
    simpa using ⟨by decide +kernel, hk, decimalInt_ne_zero _⟩
  | queued n =>
    cases hreq
    exact fits (by simp) (by decide +kernel) hexec
  | done => cases hreq

def watchEntry : RedisCommand := ⟨false, false, bytes "WATCH", .watch, 1⟩

def setEntry : RedisCommand := ⟨true, false, bytes "SET", .set, 3⟩

theorem watch_returns {query : RedisServer → ClientId → Except Fault RedisServer} {db : RedisDb}
    (hc : (s.client c).db = 0) (hdb : s.db[0]? = some db) :
    ∃ t, executed query env s c watchEntry [bytes "WATCH", k] = .ok t := by
  refine ⟨_, (executed_handler rfl rfl).trans (commandWatchProc_ok.mpr ⟨_, bind_ok.mpr
    ⟨_, watchKey_ok.mpr ⟨db, ?_, rfl⟩, rfl⟩, rfl⟩)⟩
  rw [hc]
  exact getDb_zero hdb

theorem multi_returns {query : RedisServer → ClientId → Except Fault RedisServer} :
    ∃ t, executed query env s c multiEntry argv = .ok t :=
  ⟨_, executed_handler rfl rfl⟩

theorem set_returns {query : RedisServer → ClientId → Except Fault RedisServer} {db : RedisDb}
    {v : Bytes} (hc : (s.client c).db = 0) (hdb : s.db[0]? = some db) :
    ∃ t, executed query env s c setEntry [bytes "SET", k, v] = .ok t := by
  set f := feedAof s c setEntry with hf
  have hi : (f.client c).db = 0 := (core_db feedAof_core).trans hc
  have h₀ : f.getDb 0 = .ok db := getDb_zero (by rwa [hf, feedAof_db])
  set s₁ := f.setDb 0 (expireIfNeed db (cstr k) env.now) with hs₁
  have e₁ : expireArg env f c setEntry [bytes "SET", k, v] = .ok s₁ :=
    expireArg_ok.mpr (by rw [if_pos (by rfl), hi]; exact ⟨k, db, rfl, h₀, rfl⟩)
  have h₁ : s₁.getDb 0 = .ok _ := getDb_setDb h₀ _
  have i₁ : (s₁.client c).db = 0 := hi
  have e₂ : commandSetProc s₁ c [bytes "SET", k, v] = .ok _ :=
    commandSetProc_ok.mpr ⟨k, rfl, .inr ⟨v, _, rfl, by rw [i₁]; exact h₁, rfl⟩⟩
  set s₂ := afterSet s₁ c (expireIfNeed db (cstr k) env.now) k v with hs₂
  have i₂ : (s₂.client c).db = 0 := (core_db (addWrite_core ..)).trans i₁
  obtain ⟨db', h₂⟩ : ∃ db', s₂.getDb (s₂.client c).db = .ok db' := by
    rw [i₂, hs₂, afterSet, i₁]
    exact ⟨_, getDb_setDb h₁ _⟩
  have e₃ : touchWatchKey s₂ c [bytes "SET", k, v] = .ok _ :=
    touchWatchKey_ok.mpr ⟨k, db', rfl, h₂, rfl⟩
  exact ⟨_, bind_ok.mpr ⟨s₁, e₁, bind_ok.mpr ⟨s₂, e₂, e₃⟩⟩⟩

/-! ## EXEC of one SET -/

/-- EXEC runs a queued SET. -/
theorem exec_set {db : RedisDb} {v : Bytes} (hready : Ready s c true [[bytes "SET", k, v]])
    (hl : (s.client c).readBuf.len = 0) (hd : (s.client c).flags.dirtyCas = false)
    (hdb : s.db[0]? = some db) :
    ∃ s' call w, readFromClient env s c (respEncodeArrayString [bytes "EXEC"]) = .ok s' ∧
      s'.calls = s.calls ++ [callOf s c [bytes "EXEC"], call] ∧ SetCall 0 k v call ∧
      (s'.client c).writeBuf.content = w ++ bulkString (bytes "Exec ok") := by
  have hr : Request [bytes "EXEC"] := ⟨by decide, by decide, by decide +kernel, by decide⟩
  have hn : strcaseeq (bytes "EXEC") ([bytes "EXEC"].headD []) = true := by decide
  obtain ⟨hcount, cmd, hcmd, hcontent⟩ := hready.queued.slots.head
  obtain ⟨hq, ha⟩ := hready.queued.requests _ List.mem_cons_self
  have hone : (s.client c).multiCmdCount = 1 := hready.queued.slots.1
  set s₁ := logCall (received s c (respEncodeArrayString [bytes "EXEC"])) c [bytes "EXEC"] with hs₁
  have k₁ : core (s₁.client c) = core (s.client c) := received_core _
  set s₂ := execStart s₁ c with hs₂
  have k₂ : s₂.client c = { s₁.client c with flags := (s₁.client c).flags.andDirtyCas } :=
    modifyClient_self _ _ _
  set s₃ := execLoad s₂ c 0 cmd with hs₃
  have hflags : (s₃.client c).flags.normal = false ∧ (s₃.client c).flags.multi = false := by
    rw [hs₃, execLoad, modifyClient_self, k₂]
    exact ⟨rfl, rfl⟩
  have hcdb : (s₃.client c).db = 0 := by
    rw [hs₃, execLoad, modifyClient_self, k₂]
    exact (core_db k₁).trans hready.db
  have hf : foundCommand s₃ c [bytes "SET", k, v] = some setEntry := by
    refine foundCommand_some (by simp) (by decide) rfl ?_
    simp [isSupportedCmd, hflags.1]
  have hcall : SetCall 0 k v (callOf s₃ c [bytes "SET", k, v]) :=
    ⟨hcdb, by rw [callOf, hf]; rfl, rfl, rfl⟩
  obtain ⟨t, ht⟩ : ∃ t, executed (processClientQueryBuf env 10) env
      (logCall s₃ c [bytes "SET", k, v]) c setEntry [bytes "SET", k, v] = .ok t := set_returns hcdb hdb
  obtain ⟨u, hu⟩ : ∃ u, processCommand (processClientQueryBuf env 10) env s₃ c
      [bytes "SET", k, v] = .ok u :=
    ⟨_, processCommand_ok.mpr ⟨by simp, .inr ⟨setEntry, t, hf, ht, rfl⟩⟩⟩
  have hne : NotExec s₃ c [bytes "SET", k, v] := notExec_of_accepted ha
  have hcount₂ : (s₂.client c).multiCmdCount = 1 := by
    rw [k₂]
    exact (core_multiCmdCount k₁).trans hone
  have hcountu : ((clearSlot u c 0).client c).multiCmdCount = 1 := by
    have hcore := processCommand_core hne hu (x := c) fun cmd hc hp => by
      rw [hf] at hc
      cases hc
      cases hp
    rw [clearSlot, modifyClient_self]
    refine (core_multiCmdCount hcore).trans ((clientAfter_queue _).2.trans ?_)
    rw [hs₃, execLoad, modifyClient_self]
    exact hcount₂
  have hloop : execLoop (processClientQueryBuf env 11) c ((s₁.client c).multcmds.length + 1) 0 s₂ =
      .ok (clearSlot u c 0) := by
    have hlen : (s₁.client c).multcmds.length = 9 + 1 := by
      rw [core_multcmds k₁]
      exact hready.places
    rw [hlen]
    refine execLoop_succ.mpr (.inr ⟨by omega, cmd, u, ?_, ?_, ?_⟩)
    · rw [k₂]
      exact (congrArg (·[0]?) (core_multcmds k₁)).trans hcmd
    · refine (query_iff hq (by rw [execLoad_content, hcontent])).mpr (.inr ⟨?_, hu⟩)
      exact not_queues hflags.2
    · exact execLoop_succ.mpr (.inl ⟨by omega, rfl⟩)
  have hexec : commandExecProc (processClientQueryBuf env 11) s₁ c =
      .ok (execFinish (clearSlot u c 0) c (bytes "Exec ok")) := by
    refine commandExecProc_ok.mpr ?_
    rw [core_flags k₁, hd]
    exact ⟨_, hloop, rfl⟩
  refine ⟨_, callOf s₃ c [bytes "SET", k, v], ((clearSlot u c 0).client c).writeBuf.content,
    (read_exec hr hn (by decide) hl).mpr ⟨_, hexec, rfl⟩, ?_, hcall, ?_⟩
  · rw [← callOf_received s c (respEncodeArrayString [bytes "EXEC"])]
    change u.calls = _
    rw [processCommand_calls hne hu]
    change (s.calls ++ [_]) ++ [_] = _
    rw [List.append_assoc]
    rfl
  · rw [writeBuf_clearReadBuf, writeBuf_clearReadBuf, execFinish, modifyClient_self]
    exact addWrite_content _ _ _

/-! ## One step -/

theorem bulkNumber_decimalInt (z : Int) : bulkNumber (bulkString (decimalInt z)) = z := by
  have hline : afterNewline (bulkString (decimalInt z)) = some (decimalInt z ++ crlf) := by
    have e : bulkString (decimalInt z) =
        (36 :: decimal (decimalInt z).length) ++ crlf ++ (decimalInt z ++ crlf) := by
      simp [bulkString]
    rw [e]
    refine afterNewline_append (fun b hb => ?_) _
    rcases List.mem_cons.mp hb with rfl | hb
    · decide
    · exact decimal_ne hb
  rw [bulkNumber, hline, Option.bind_some, strtol_decimalInt z fun b hb => by cases hb; rfl]
  rfl

/-- The reply of an EXEC that ran ends otherwise than the refusal. -/
theorem ran_reply {w : Bytes} (h : (s'.client c).writeBuf.content = w ++ bulkString (bytes "Exec ok")) :
    replyOf s s' c ≠ bulkString (bytes "err dirty") := by
  intro e
  have h₁ : bulkString (bytes "err dirty") <:+ (s'.client c).writeBuf.content :=
    e ▸ List.drop_suffix _ _
  have h₂ : bulkString (bytes "Exec ok") <:+ (s'.client c).writeBuf.content := h ▸ List.suffix_append _ _
  have := List.suffix_of_suffix_length_le h₂ h₁ (by decide)
  exact absurd this (by decide)

theorem countStep_ok (hreq : request k (a.phase c) = some argv)
    (h : readFromClient env a.server c (respEncodeArrayString argv) = .ok s) :
    countStep k a (env, c) = some ((), a.after c s) := by
  unfold countStep
  dsimp only
  rw [hreq]
  dsimp only
  rw [h]
  rfl

theorem Counting.kept (h : Counting base times clients k z₀ a) (ht : env.now ∈ times) {nread : Bytes}
    (hread : readFromClient env a.server c nread = .ok s) (hcalls : s.calls = a.server.calls ++ calls)
    (hno : ∀ call ∈ calls, ¬ WritesKey 0 k call) (hwins : (a.after c s).wins = a.wins) :
    kvAt s 0 k = some (robjCreateStringObject (decimalInt (z₀ + (a.after c s).wins))) := by
  obtain ⟨n', e, hk⟩ := read_keepsKey (i := 0) (k := k) hread
  rw [hcalls] at e
  obtain rfl := List.append_cancel_left e
  rw [(hk hno fun D hD => h.deadline D hD _ ht).2, hwins]
  exact h.value

/-- A request that is neither queued nor a write. -/
theorem Counting.command (h : Counting base times clients k z₀ a) (ht : env.now ∈ times)
    (hc : c ∈ clients) (hreq : request k (a.phase c) = some argv) (hr : Request argv)
    (hlen : (respEncodeArrayString argv).length < 1024) (hoff : (a.phase c).collecting = false)
    (hf : foundCommand a.server c argv = some cmd)
    (hcmd : cmd.proc = .watch ∨ cmd.proc = .get ∨ cmd.proc = .multi)
    (hret : ∃ s, readFromClient env a.server c (respEncodeArrayString argv) = .ok s)
    (hself : ∀ s new, core (s.client c) = core (clientEffect cmd.proc argv (a.server.client c)) →
      readFromClient env a.server c (respEncodeArrayString argv) = .ok s →
      Member k z₀ new a c → Member k z₀ (new ++ [callOf a.server c argv]) (a.after c s) c) :
    ∃ a', countStep k a (env, c) = some ((), a') ∧ Counting base times clients k z₀ a' := by
  have hnd : a.phase c ≠ .done := fun e => by
    rw [e] at hreq
    cases hreq
  obtain ⟨new, -, -, -, hmem⟩ := h.history
  have hm : (a.server.client c).flags.multi = false := by
    rw [(hmem c hc hnd).ready.multi, hoff]
  have hw : cmd.write = false := (by decide : ∀ cmd ∈ commandsTable,
    cmd.proc = .watch ∨ cmd.proc = .get ∨ cmd.proc = .multi → cmd.write = false) _ (mem_table hf) hcmd
  have hproc : (callOf a.server c argv).proc = some cmd.proc := by
    rw [callOf, hf]
    rfl
  obtain ⟨s, hs⟩ := hret
  obtain ⟨hcalls, hcore⟩ := read_command hr hlen (h.idle c) hm hf hw
    (by rcases hcmd with e | e | e <;> rw [e] <;> decide)
    (by rcases hcmd with e | e | e <;> rw [e] <;> decide) hs
  have hwins : (a.after c s).wins = a.wins := by
    have : ∀ reply, (a.phase c).won reply = 0 := by
      intro reply
      cases hp : a.phase c with
      | queued v =>
        rw [hp] at hoff
        cases hoff
      | start | watched | read | multi | done => rfl
    exact congrArg (a.wins + ·) (this _)
  refine ⟨_, countStep_ok hreq hs, h.after hc hnd hs hcalls ?_ ?_ (h.kept ht hs hcalls ?_ hwins)
    (.inl hwins) fun new _ hmem _ => hself s new hcore hs hmem⟩
  all_goals
    intro call hcall
    rw [List.mem_singleton.mp hcall]
  · rw [Plain, hproc]
    rcases hcmd with e | e | e <;> simp [e]
  · rw [hproc]
    rcases hcmd with e | e | e <;> simp [e]
  · rintro ⟨-, -, hp⟩
    rw [hproc] at hp
    rcases hcmd with e | e | e <;> simp [e] at hp

@[simp] theorem Counters.after_phase :
    (a.after c s).phase c = (a.phase c).next (replyOf a.server s c) := if_pos rfl

theorem Counting.member (h : Counting base times clients k z₀ a) (hc : c ∈ clients)
    (hnd : a.phase c ≠ .done) : ∃ new, (∀ x i k, Watches x i k a.server new) ∧
      Member k z₀ new a c := by
  obtain ⟨new, -, -, hw, hmem⟩ := h.history
  exact ⟨new, hw, hmem c hc hnd⟩

section Requests

variable (h : Counting base times clients k z₀ a) (ht : env.now ∈ times) (hc : c ∈ clients)
include h ht hc

theorem Counting.start (hk : ∀ b ∈ k, b ≠ 0) (hp : a.phase c = .start) (hr : Request [bytes "WATCH", k])
    (hlen : (respEncodeArrayString [bytes "WATCH", k]).length < 1024) :
    ∃ a', countStep k a (env, c) = some ((), a') ∧ Counting base times clients k z₀ a' := by
  obtain ⟨new, -, hm⟩ := h.member hc (by rw [hp]; decide)
  have hready : Ready a.server c false [] := by simpa [hp, Phase.collecting, Phase.queue] using hm.ready
  obtain ⟨db, hdb, -⟩ := Option.bind_eq_some_iff.mp h.value
  have hf : foundCommand a.server c [bytes "WATCH", k] = some watchEntry :=
    foundCommand_some (by simp) (by decide) rfl (by simp [isSupportedCmd, watchEntry])
  obtain ⟨t, he⟩ : ∃ t, executed (processClientQueryBuf env 11) env
      (logCall (received a.server c (respEncodeArrayString [bytes "WATCH", k])) c [bytes "WATCH", k])
      c watchEntry [bytes "WATCH", k] = .ok t :=
    watch_returns ((core_db (received_core _)).trans hready.db) hdb
  refine h.command ht hc (by rw [hp]; rfl) hr hlen (by rw [hp]; rfl) hf (.inl rfl)
    (read_returns hr hlen (h.idle c) hready.multi hf he) fun s new hcore _ hm => ?_
  refine ⟨?_, fun _ => armed_concat.mpr (.inr ?_), fun v hv => ?_⟩
  · rw [Counters.after_phase, hp]
    exact hready.congr (core_db hcore) ((congrArg (·.multi) (core_flags hcore)).trans hready.multi)
      (core_multcmds hcore) (core_multiCmdCount hcore)
  · exact ⟨rfl, hready.db, by rw [callOf, hf]; rfl, k, by simp [callOf], cstr_eq_self hk⟩
  · rw [Counters.after_phase, hp] at hv
    cases hv

theorem Counting.watched (hp : a.phase c = .watched) (hr : Request [bytes "GET", k])
    (hlen : (respEncodeArrayString [bytes "GET", k]).length < 1024)
    (hset : (respEncodeArrayString [bytes "SET", k, decimalInt (z₀ + a.wins)]).length < 1024) :
    ∃ a', countStep k a (env, c) = some ((), a') ∧ Counting base times clients k z₀ a' := by
  obtain ⟨new, -, hm⟩ := h.member hc (by rw [hp]; decide)
  have hready : Ready a.server c false [] := by simpa [hp, Phase.collecting, Phase.queue] using hm.ready
  have hf : foundCommand a.server c [bytes "GET", k] = some getEntry :=
    foundCommand_some (by simp) (by decide) rfl (by simp [isSupportedCmd, getEntry])
  have hval : cstr (robjGetValStr (robjCreateStringObject (decimalInt (z₀ + a.wins)))) =
      decimalInt (z₀ + a.wins) := by
    have hl := length_set_request k (decimalInt (z₀ + a.wins))
    have hz := decimalInt_ne_zero (z₀ + a.wins)
    have hle : (decimalInt (z₀ + a.wins)).length ≤
        (bulkString (cstr (decimalInt (z₀ + a.wins)))).length := by
      rw [cstr_eq_self hz]
      simp only [bulkString, List.length_append, List.length_cons]
      omega
    rw [robjGetValStr_create hz (by omega), shown_decimalInt, cstr_eq_self hz]
  obtain ⟨s, hs, hw⟩ := @get_replies env _ _ _ _ _ hr hlen h.idle hready.multi hready.db h.value
    (fun D hD => h.deadline D hD _ ht) (by
      rw [hval]
      have hl := length_set_request k (decimalInt (z₀ + a.wins))
      rw [cstr_eq_self (decimalInt_ne_zero _)] at hl
      omega)
  refine h.command ht hc (by rw [hp]; rfl) hr hlen (by rw [hp]; rfl) hf (.inr (.inl rfl)) ⟨s, hs⟩
    fun s' new hcore hs' hm => ?_
  rw [hs] at hs'
  cases hs'
  have hreply : replyOf a.server s c = bulkString (decimalInt (z₀ + a.wins)) := by
    rw [replyOf, hw, List.drop_left, hval]
  have hwins : (a.after c s).wins = a.wins := by
    rw [Counters.after, hp]
    rfl
  refine ⟨?_, fun _ => (hm.armed (by rw [hp]; decide)).append _, fun v hv => ?_⟩
  · rw [Counters.after_phase, hp]
    exact hready.congr (core_db hcore) ((congrArg (·.multi) (core_flags hcore)).trans hready.multi)
      (core_multcmds hcore) (core_multiCmdCount hcore)
  · rw [Counters.after_phase, hp, hreply] at hv
    obtain rfl : _ = v := Option.some.inj hv
    rw [bulkNumber_decimalInt, hwins]
    exact ⟨a.wins, Nat.le_refl _, rfl, .inl rfl⟩

theorem Counting.read {v : Int} (hp : a.phase c = .read v) (hr : Request [bytes "MULTI"])
    (hlen : (respEncodeArrayString [bytes "MULTI"]).length < 1024) :
    ∃ a', countStep k a (env, c) = some ((), a') ∧ Counting base times clients k z₀ a' := by
  obtain ⟨new, -, hm⟩ := h.member hc (by rw [hp]; nofun)
  have hready : Ready a.server c false [] := by simpa [hp, Phase.collecting, Phase.queue] using hm.ready
  have hf : foundCommand a.server c [bytes "MULTI"] = some multiEntry := found_multi hr rfl
  obtain ⟨t, he⟩ : ∃ t, executed (processClientQueryBuf env 11) env
      (logCall (received a.server c (respEncodeArrayString [bytes "MULTI"])) c [bytes "MULTI"])
      c multiEntry [bytes "MULTI"] = .ok t := multi_returns
  refine h.command ht hc (by rw [hp]; rfl) hr hlen (by rw [hp]; rfl) hf (.inr (.inr rfl))
    (read_returns hr hlen (h.idle c) hready.multi hf he) fun s new hcore _ hm => ?_
  have hwins : (a.after c s).wins = a.wins := by
    rw [Counters.after, hp]
    rfl
  refine ⟨?_, fun _ => (hm.armed (by rw [hp]; nofun)).append _, fun w hw => ?_⟩
  · rw [Counters.after_phase, hp]
    have hdb := core_db hcore
    have hflags := congrArg (·.multi) (core_flags hcore)
    have hq := core_multcmds hcore
    have hn := core_multiCmdCount hcore
    exact hready.congr hdb hflags hq hn
  · rw [Counters.after_phase, hp] at hw
    obtain ⟨n, hn, hv, hor⟩ := hm.seen v (by rw [hp]; rfl)
    obtain rfl : v = w := Option.some.inj hw
    rw [hwins]
    exact ⟨n, hn, hv, hor.imp_right (·.append _)⟩

theorem Counting.multi {v : Int} (hp : a.phase c = .multi v)
    (hr : Request [bytes "SET", k, decimalInt (v + 1)])
    (hlen : (respEncodeArrayString [bytes "SET", k, decimalInt (v + 1)]).length < 1024) :
    ∃ a', countStep k a (env, c) = some ((), a') ∧ Counting base times clients k z₀ a' := by
  obtain ⟨new, -, hm⟩ := h.member hc (by simp [hp])
  have hready : Ready a.server c true [] := by simpa [hp, Phase.collecting, Phase.queue] using hm.ready
  have ha : Accepted [bytes "SET", k, decimalInt (v + 1)] := by
    rw [Accepted, List.headD_cons]
    decide
  obtain ⟨s, hs, hq⟩ : ∃ s, readFromClient env a.server c
      (respEncodeArrayString [bytes "SET", k, decimalInt (v + 1)]) = .ok s ∧
        Queued s c ([] ++ [[bytes "SET", k, decimalInt (v + 1)]]) :=
    read_queues hready.queued hr ha hlen (h.idle c) hready.multi (by rw [hready.places]; decide)
  obtain ⟨hcalls, hdb, hflags, hplaces⟩ := read_queued hr hlen (h.idle c)
    ((queues_iff ha).mpr hready.multi) hs
  have hcalls : s.calls = a.server.calls ++ [] := by rw [hcalls, List.append_nil]
  have hwins : (a.after c s).wins = a.wins := by
    rw [Counters.after, hp]
    rfl
  refine ⟨_, countStep_ok (by rw [hp]; rfl) hs, h.after hc (by simp [hp]) hs hcalls
    (fun _ hm => by cases hm) (fun _ hm => by cases hm)
    (h.kept ht hs hcalls (fun _ hm => by cases hm) hwins) (.inl hwins) fun new _ hm _ => ?_⟩
  rw [List.append_nil]
  refine ⟨?_, fun _ => hm.armed (by simp [hp]), fun w hw => ?_⟩
  · rw [Counters.after_phase, hp]
    exact ⟨hdb.trans hready.db, (congrArg (·.multi) hflags).trans hready.multi,
      hplaces.trans hready.places, hq⟩
  · rw [Counters.after_phase, hp] at hw
    obtain ⟨n, hn, hv, hor⟩ := hm.seen v (by rw [hp]; rfl)
    obtain rfl : v = w := Option.some.inj hw
    rw [hwins]
    exact ⟨n, hn, hv, hor⟩

/-- EXEC is refused, or the number that the client has read is still the key's. -/
theorem Counting.queued {v : Int} (hk : ∀ b ∈ k, b ≠ 0) (hp : a.phase c = .queued v) :
    ∃ a', countStep k a (env, c) = some ((), a') ∧ Counting base times clients k z₀ a' := by
  obtain ⟨new, hw, hm⟩ := h.member hc (by rw [hp]; nofun)
  have hready : Ready a.server c true [[bytes "SET", k, decimalInt (v + 1)]] := by
    simpa [hp, Phase.collecting, Phase.queue] using hm.ready
  have hreq : request k (a.phase c) = some [bytes "EXEC"] := by rw [hp]; rfl
  have hr : Request [bytes "EXEC"] := ⟨by decide, by decide, by decide +kernel, by decide⟩
  have hproc : (callOf a.server c [bytes "EXEC"]).proc = some .exec := by
    rw [callOf, found_exec hr rfl]
    rfl
  have hdone : ∀ s, (a.after c s).phase c = .done := fun s => by rw [Counters.after_phase, hp]; rfl
  cases hd : (a.server.client c).flags.dirtyCas with
  | true =>
    obtain ⟨s, hs, -, hcalls, hwrite⟩ := @exec_refused env _ _ _ hr rfl (by decide)
      (h.idle c) hd
    have hwins : (a.after c s).wins = a.wins := by
      rw [Counters.after, hp, Phase.won, replyOf, hwrite, List.drop_left, if_pos rfl, Nat.add_zero]
    refine ⟨_, countStep_ok hreq hs, h.after hc (by rw [hp]; nofun) hs hcalls ?_ ?_
      (h.kept ht hs hcalls ?_ hwins) (.inl hwins) fun new _ _ hnd => absurd (hdone s) hnd⟩
    all_goals
      intro call hcall
      rw [List.mem_singleton.mp hcall]
    · rw [Plain, hproc]
      simp
    · rw [hproc]
      simp
    · rintro ⟨-, -, hp⟩
      rw [hproc] at hp
      simp at hp
  | false =>
    obtain ⟨db, hdb, -⟩ := Option.bind_eq_some_iff.mp h.value
    obtain ⟨s, call, w, hs, hcalls, hset, hwrite⟩ := @exec_set env _ _ _ _ _ hready (h.idle c) hd hdb
    have hwins : (a.after c s).wins = a.wins + 1 := by
      rw [Counters.after, hp, Phase.won, if_neg (ran_reply hwrite)]
    obtain ⟨hi, hpset, hkey, hval⟩ := hset
    have hzk : cstr k = k := cstr_eq_self hk
    -- the flag is not set, so nobody has written the key since it was read
    obtain ⟨n, -, hv, hn⟩ := hm.seen v (by rw [hp]; rfl)
    have hn : n = a.wins := hn.resolve_right fun htr => by
      have := (hw c 0 k).tripped htr
      rw [hd] at this
      cases this
    have hexp : ∀ call' ∈ [callOf a.server c [bytes "EXEC"], call], call'.proc ≠ some .expire := by
      simp [hproc, hpset]
    obtain ⟨n', e, hD⟩ := read_expireAt (i := 0) (k := k) hs
    rw [hcalls] at e
    obtain rfl := List.append_cancel_left e
    have hD := hD fun call hcall hb => hexp call hcall hb.2
    have hstored : KeepsLast a.server.calls times 0 k (decimalInt (v + 1)) s := by
      refine read_stored hs ht ?_
      rintro ⟨pre, call, post, e, -⟩
      exact absurd (congrArg List.length e) (by simp)
    have hvalue := hstored ⟨[callOf a.server c [bytes "EXEC"]], call, [], by simp [hcalls],
      ⟨hi, hpset, hkey, hval⟩, List.forall_mem_nil _⟩ (by
        rw [hzk]
        intro D hDs
        exact h.deadline D (hD ▸ hDs))
    rw [hzk] at hvalue
    refine ⟨_, countStep_ok hreq hs, h.after hc (by rw [hp]; nofun) hs hcalls ?_ hexp ?_
      (.inr ⟨call, by simp, hi, (keyOf_eq hkey).trans hzk, .inl hpset⟩)
      fun new _ _ hnd => absurd (hdone s) hnd⟩
    · simp [Plain, hproc, hpset]
    · have hnum : v + 1 = z₀ + ((a.after c s).wins : Int) := by
        rw [hwins, hv, hn]
        omega
      rw [hvalue, hnum]

end Requests

/-- One request of one client keeps the invariant. -/
theorem count_step (h : Counting base times clients k z₀ a) (ht : env.now ∈ times) (hc : c ∈ clients)
    (hk : ∀ b ∈ k, b ≠ 0) (hlen : ∀ n ≤ clients.card,
      (respEncodeArrayString [bytes "SET", k, decimalInt (z₀ + n)]).length < 1024) :
    ∃ a', countStep k a (env, c) = some ((), a') ∧ Counting base times clients k z₀ a' := by
  have hle : a.wins ≤ clients.card := h.wins.trans (Finset.card_filter_le _ _)
  have hset : ∀ n, a.phase c = .multi n →
      (respEncodeArrayString [bytes "SET", k, decimalInt (n + 1)]).length < 1024 := by
    intro v hp
    obtain ⟨new, -, hm⟩ := h.member hc (by rw [hp]; nofun)
    obtain ⟨n, hn, rfl, -⟩ := hm.seen v (by rw [hp]; rfl)
    have hlt : (clients.filter fun x => a.phase x = .done).card < clients.card := by
      refine Finset.card_lt_card (Finset.filter_ssubset.mpr ⟨c, hc, ?_⟩)
      rw [hp]
      nofun
    have hnum : z₀ + (n : Int) + 1 = z₀ + ((n + 1 : Nat) : Int) := by omega
    rw [hnum]
    exact hlen (n + 1) (by have := h.wins; omega)
  have hfits : ∀ {argv}, request k (a.phase c) = some argv →
      Request argv ∧ (respEncodeArrayString argv).length < 1024 :=
    fun hreq => request_fits hk hreq (hlen 0 (Nat.zero_le _)) hset
  cases hp : a.phase c with
  | start =>
    obtain ⟨hr, hl⟩ := hfits (by rw [hp]; rfl)
    exact h.start ht hc hk hp hr hl
  | watched =>
    obtain ⟨hr, hl⟩ := hfits (by rw [hp]; rfl)
    exact h.watched ht hc hp hr hl (hlen _ hle)
  | read v =>
    obtain ⟨hr, hl⟩ := hfits (by rw [hp]; rfl)
    exact h.read ht hc hp hr hl
  | multi v =>
    obtain ⟨hr, hl⟩ := hfits (by rw [hp]; rfl)
    exact h.multi ht hc hp hr hl
  | queued v => exact h.queued ht hc hk hp
  | done =>
    refine ⟨a, ?_, h⟩
    unfold countStep
    dsimp only
    rw [hp]
    rfl

/-! ## Runs -/

/-- The machine and its clients. -/
structure MachineCounters extends Machine where
  phase : ClientId → Phase
  wins : Nat

def MachineCounters.counters (a : MachineCounters) : Counters := ⟨a.server, a.phase, a.wins⟩

/-- A client sends its next request, or is sent what there is for it. -/
inductive CounterEvent where
  | request (env : Env) (c : ClientId)
  | send (c : ClientId) (nwritten : Int) (file : Bytes) (w : RdbWrites)
deriving DecidableEq, Repr

/-- One event. The reply to a request moves its client on. -/
def counterStep (slack : Nat) (k : Bytes) (a : MachineCounters) :
    CounterEvent → Option (Unit × MachineCounters)
  | .request env c =>
    match request k (a.phase c) with
    | none => some ((), a)
    | some argv =>
      (machineStep slack a.toMachine (.read ⟨env, c, respEncodeArrayString argv⟩)).map fun r =>
        let reply := replyOf a.server r.2.server c
        ((), {
          toMachine := r.2
          phase := fun x => if x = c then (a.phase x).next reply else a.phase x
          wins := a.wins + (a.phase c).won reply })
  | .send c nwritten file w =>
    (machineStep slack a.toMachine (.send c nwritten file w)).map fun r =>
      ((), { a with toMachine := r.2 })

/-- What a client is sent keeps the invariant. -/
theorem Counting.sent (h : Counting base times clients k z₀ a) (nwritten : Int) (file : Bytes)
    (w : RdbWrites) : Counting base times clients k z₀
      { a with server := (sendToClient (initOutputs a.server) c nwritten file w).server } := by
  obtain ⟨f, e, hf⟩ := Machine.send_client a.server c nwritten file w
  rw [e]
  have field : ∀ {α : Type} (g : RedisClient → α), (∀ client, g (f client) = g client) →
      ∀ x, g ((a.server.modifyClient c f).client x) = g (a.server.client x) :=
    fun g hg => modifyClient_field a.server c f g hg
  have keeps : ∀ client, (f client).db = client.db ∧ (f client).readBuf = client.readBuf ∧
      (f client).flags.multi = client.flags.multi ∧
      (f client).flags.dirtyCas = client.flags.dirtyCas ∧
      (f client).multcmds = client.multcmds ∧
      (f client).multiCmdCount = client.multiCmdCount := fun client => by
    obtain ⟨_, _, _, e⟩ := hf client
    rw [e]
    exact ⟨rfl, rfl, rfl, rfl, rfl, rfl⟩
  obtain ⟨new, hnew, hpl, hw, hmem⟩ := h.history
  refine ⟨fun x => ?_, h.value, h.deadline, h.wins, new, hnew, hpl, fun x i k => ?_, fun x hx hd => ?_⟩
  · exact (congrArg Sds.len (field (·.readBuf) (fun client => (keeps client).2.1) x)).trans (h.idle x)
  · have hd := field (·.flags.dirtyCas) (fun client => (keeps client).2.2.2.1) x
    refine (hw x i k).mono ?_ fun hx => hd.trans hx
    rintro (hx | hx)
    · exact .inl hx
    · exact .inr (hd.trans hx)
  · obtain ⟨hr, ha, hs⟩ := hmem x hx hd
    exact ⟨hr.congr (field (·.db) (fun client => (keeps client).1) x)
      ((field (·.flags.multi) (fun client => (keeps client).2.2.1) x).trans hr.multi)
      (field (·.multcmds) (fun client => (keeps client).2.2.2.2.1) x)
      (field (·.multiCmdCount) (fun client => (keeps client).2.2.2.2.2) x), ha, hs⟩

/-- The requests among the events. -/
def requestsOf (events : List CounterEvent) : List (Env × ClientId) :=
  events.filterMap fun
    | .request env c => some (env, c)
    | .send .. => none

theorem mem_requestsOf {events : List CounterEvent} (h : .request env c ∈ events) :
    (env, c) ∈ requestsOf events :=
  List.mem_filterMap.mpr ⟨_, h, rfl⟩

/-- An event keeps the invariant. -/
theorem counter_step {slack : Nat} {a a' : MachineCounters} {e : CounterEvent} {u : Unit}
    (h : Counting base times clients k z₀ a.counters)
    (he : ∀ env c, e = .request env c → env.now ∈ times ∧ c ∈ clients)
    (hk : ∀ b ∈ k, b ≠ 0) (hlen : ∀ n ≤ clients.card,
      (respEncodeArrayString [bytes "SET", k, decimalInt (z₀ + n)]).length < 1024)
    (hs : counterStep slack k a e = some (u, a')) :
    Counting base times clients k z₀ a'.counters := by
  cases e with
  | request env c =>
    obtain ⟨ht, hc⟩ := he env c rfl
    obtain ⟨a₁, h₁, hcount⟩ := count_step h ht hc hk hlen
    rw [counterStep] at hs
    cases hreq : request k (a.phase c) with
    | none =>
      rw [hreq] at hs
      cases hs
      exact h
    | some argv =>
      rw [hreq] at hs
      obtain ⟨r, hr, hs⟩ := Option.map_eq_some_iff.mp hs
      have hread : readFromClient env a.server c (respEncodeArrayString argv) = .ok r.2.server :=
        Machine.read_server (Machine.machineStep_read.mp hr)
      rw [countStep_ok (a := a.counters) hreq hread] at h₁
      cases h₁
      cases hs
      exact hcount
  | send c nwritten file w =>
    obtain ⟨r, hr, hs⟩ := Option.map_eq_some_iff.mp hs
    cases hs
    obtain ⟨-, hm⟩ := Machine.machineStep_send.mp hr
    rw [hm]
    exact h.sent nwritten file w

/-- **The counter.** In every interleaving of clients that are new to the server,
each of which watches the key, reads its number, and sets the next one in a
transaction, the number has grown by the transactions that were not refused. -/
theorem counter {slack : Nat} {m₀ : Machine} {a : MachineCounters} {us : List Unit}
    (hi : Idle m₀.server)
    (hnew : ∀ x ∈ clients, ∃ ip port, m₀.server.client x = redisClientCreate ip port)
    (hk : ∀ b ∈ k, b ≠ 0)
    (hv : kvAt m₀.server 0 k = some (robjCreateStringObject (decimalInt z₀)))
    (hlen : ∀ n ≤ clients.card,
      (respEncodeArrayString [bytes "SET", k, decimalInt (z₀ + n)]).length < 1024)
    {events : List CounterEvent} (hevents : ∀ r ∈ requestsOf events, r.2 ∈ clients)
    (hlive : ∀ D, expireAt m₀.server 0 k = some D → ∀ r ∈ requestsOf events, r.1.now ≤ D)
    (hrun : run (counterStep slack k) ⟨m₀, fun _ => .start, 0⟩ events = some (us, a)) :
    kvAt a.server 0 k = some (robjCreateStringObject (decimalInt (z₀ + a.wins))) := by
  set times := (requestsOf events).map fun r => r.1.now with htimes
  have hstart : Counting m₀.server.calls times clients k z₀
      ⟨m₀.server, fun _ => .start, 0⟩ := by
    refine ⟨hi, by simpa using hv, ?_, by simp, [], by simp, by simp, fun _ _ _ => .nil, ?_⟩
    · intro D hD now hnow
      obtain ⟨r, hr, rfl⟩ := List.mem_map.mp hnow
      exact hlive D hD r hr
    · intro x hx _
      obtain ⟨ip, port, hfresh⟩ := hnew x hx
      refine ⟨ready_fresh hfresh, fun hn => absurd rfl hn, fun v hv => ?_⟩
      cases hv
  refine (run_invariant (P := fun _ e => e ∈ events)
    (I := fun a : MachineCounters =>
      Counting m₀.server.calls times clients k z₀ a.counters)
    (fun a e u a' ha he hs => counter_step ha (fun env c h => ?_) hk hlen hs) events
    (s := ⟨m₀, fun _ => .start, 0⟩) hstart
    (along_of_forall fun e he _ => he) hrun).value
  subst h
  exact ⟨List.mem_map_of_mem (f := fun r => r.1.now) (mem_requestsOf he), hevents _ (mem_requestsOf he)⟩

/-- After every run, a client that watched a key which was written later has a
failed transaction. -/
theorem machine_watches {slack : Nat} {m₀ m : Machine} {events : List MachineEvent} {us : List Unit}
    (h : run (machineStep slack) m₀ events = some (us, m)) :
    ∃ new, m.server.calls = m₀.server.calls ++ new ∧
      ((∀ call ∈ new, Plain call) → ∀ x i k, Watches x i k m.server new) := by
  refine Machine.run_small (I := fun s => ∃ new, s.calls = m₀.server.calls ++ new ∧
    ((∀ call ∈ new, Plain call) → ∀ x i k, Watches x i k s new)) (fun hstep ⟨new, e, hw⟩ => ?_) h
    ⟨[], by simp, fun _ _ _ _ => .nil⟩
  exact small_watches hstep e hw

/-- A master with two clients and the number 5 under the key `k`. -/
def sampleCounter : Machine where
  server := { acceptTcpHandler (sampleServer false) 8 (bytes "127.0.0.1") 5001 with
    db := [{ dbInit with kv := (∅ : DbMap Robj).insert (bytes "k") (.int 5) }] }
  tables := (initTables 1).map fun db =>
    ((db.call (.add (bytes "k") (.int 5))).map Prod.snd).getD db

/-- Both clients make a request. -/
def lockAsks : List CounterEvent := [.request ⟨0, none⟩ 7, .request ⟨0, none⟩ 8]

/-- Both clients are sent this many bytes. -/
def lockSends (n : Int) : List CounterEvent :=
  [.send 7 n [] ⟨false, 0, 0, 0⟩, .send 8 n [] ⟨false, 0, 0, 0⟩]

theorem idle_sampleCounter : Idle sampleCounter.server := by
  intro x
  change ((acceptTcpHandler (sampleServer false) 8 (bytes "127.0.0.1") 5001).client x).readBuf.len = 0
  rw [acceptTcpHandler]
  dsimp only
  rw [modifyClient_client]
  split
  · rfl
  · exact idle_sampleServer false x

end Fedis.Proof.Server

import Mathlib.Logic.Relation
import Fedis.Proof.Server.Command

/-!
# One read of a client's socket

`processClientQueryBuf_ok`, `commandExecProc_ok` and `readFromClient_ok` take a
read apart. `read_small` cuts it, with the commands that an EXEC in it runs, into
small steps (`Small`): what they keep, every read keeps (`read_invariant`, and
`read_grows` unless a call of the read is against it). Some handlers are all
there is of a call (`processCommand_bare`).
-/

namespace Fedis.Proof.Server

open Framework Resp Relation

variable {env : Env} {s s' : RedisServer} {c : ClientId} {argv : List Bytes} {depth : Nat}

/-! ## Taking a read apart -/

/-- The request is queued. -/
def Queues (s : RedisServer) (c : ClientId) (argv : List Bytes) : Prop :=
  (s.client c).flags.multi = true ∧ strncaseeq (argv.headD []) (bytes "exec") 4 = false

section Decoded

variable (hdec : respDecode (sdsdump (s.client c).readBuf).buf = .ok argv) (hne : argv ≠ [])
include hdec hne

theorem processClientQueryBuf_eq : processClientQueryBuf env (depth + 1) s c =
    if (s.client c).flags.multi && !strncaseeq (argv.headD []) (bytes "exec") 4 then queueCommand s c
    else processCommand (processClientQueryBuf env depth) env s c argv := by
  obtain ⟨name, args, rfl⟩ := List.exists_cons_of_ne_nil hne
  rw [processClientQueryBuf, hdec]
  rfl

theorem processClientQueryBuf_queues (hq : Queues s c argv) :
    processClientQueryBuf env (depth + 1) s c = queueCommand s c := by
  rw [processClientQueryBuf_eq hdec hne, hq.1, hq.2]
  rfl

theorem processClientQueryBuf_calls (hq : ¬ Queues s c argv) :
    processClientQueryBuf env (depth + 1) s c =
      processCommand (processClientQueryBuf env depth) env s c argv := by
  rw [processClientQueryBuf_eq hdec hne, if_neg (by simpa [Queues] using hq)]

end Decoded

theorem processClientQueryBuf_ok : processClientQueryBuf env (depth + 1) s c = .ok s' ↔
    (respDecode (sdsdump (s.client c).readBuf).buf = .err ∧ s' = s) ∨
      ∃ argv, respDecode (sdsdump (s.client c).readBuf).buf = .ok argv ∧ argv ≠ [] ∧
        ((Queues s c argv ∧ queueCommand s c = .ok s') ∨
          (¬ Queues s c argv ∧
            processCommand (processClientQueryBuf env depth) env s c argv = .ok s')) := by
  cases hdec : respDecode (sdsdump (s.client c).readBuf).buf with
  | undef =>
    rw [processClientQueryBuf, hdec]
    simp
  | err =>
    rw [processClientQueryBuf, hdec]
    simp [eq_comm]
  | ok argv =>
    simp only [reduceCtorEq, false_and, false_or, Decoded.ok.injEq, exists_eq_left']
    by_cases hne : argv = []
    · rw [processClientQueryBuf, hdec, hne]
      simp [argAt]
    · by_cases hq : Queues s c argv
      · rw [processClientQueryBuf_queues hdec hne hq]
        simp [hq, hne]
      · rw [processClientQueryBuf_calls hdec hne hq]
        simp [hq, hne]

theorem queueCommand_ok : queueCommand s c = .ok s' ↔
    ∃ cmd, (s.client c).multcmds[(s.client c).multiCmdCount]? = some cmd ∧
      s' = clearReadBuf (addWrite (s.modifyClient c fun client =>
        { client with
          multcmds := client.multcmds.set client.multiCmdCount
            (sdscatsds (sdsclear cmd) (s.client c).readBuf).1
          readBuf := (sdscatsds (sdsclear cmd) (s.client c).readBuf).2
          multiCmdCount := client.multiCmdCount + 1 }) c (bulkString (bytes "queued"))) c := by
  unfold queueCommand clientMultiAdd
  dsimp only
  cases hm : (s.client c).multcmds[(s.client c).multiCmdCount]? with
  | none => simp
  | some cmd =>
    simp only [ok_bind, bind_ok, addWriteBulk_ok, pure_ok, Option.some.injEq, exists_eq_left',
      @eq_comm _ s']
    constructor
    · rintro ⟨a, ⟨-, rfl⟩, rfl⟩
      rfl
    · rintro rfl
      exact ⟨_, ⟨by decide, rfl⟩, rfl⟩

/-- The only way for the queue to refuse a request is to have no place for it. -/
theorem queueCommand_error {e : Fault} (h : queueCommand s c = .error e) : e = .undefined := by
  unfold queueCommand clientMultiAdd at h
  dsimp only at h
  cases hm : (s.client c).multcmds[(s.client c).multiCmdCount]? with
  | none =>
    rw [hm] at h
    exact (Except.error.inj h).symm
  | some cmd =>
    rw [hm] at h
    have hreply : ∀ t, addWriteBulk t c (bytes "queued") =
        .ok (addWrite t c (bulkString (bytes "queued"))) :=
      fun t => addWriteBulk_ok.mpr ⟨by decide, rfl⟩
    simp only [ok_bind, hreply] at h
    cases h

/-- EXEC takes the bits of its own state out of the flags. -/
def execStart (s : RedisServer) (c : ClientId) : RedisServer :=
  s.modifyClient c fun client => { client with flags := client.flags.andDirtyCas }

/-- The end of EXEC: its reply, and an empty queue. -/
def execFinish (s : RedisServer) (c : ClientId) (str : Bytes) : RedisServer :=
  (addWrite s c (bulkString str)).modifyClient c fun client =>
    { client with flags := { client.flags with exec := false }, multiCmdCount := 0 }

theorem commandExecProc_ok {query : RedisServer → ClientId → Except Fault RedisServer} :
    commandExecProc query s c = .ok s' ↔
      if (s.client c).flags.dirtyCas then s' = execFinish (execStart s c) c (bytes "err dirty")
      else ∃ t, execLoop query c ((s.client c).multcmds.length + 1) 0 (execStart s c) = .ok t ∧
        s' = execFinish t c (bytes "Exec ok") := by
  unfold commandExecProc
  dsimp only
  split
  · simp only [bind_ok, addWriteBulk_ok, pure_ok, @eq_comm _ s']
    constructor
    · rintro ⟨a, ⟨-, rfl⟩, rfl⟩
      rfl
    · rintro rfl
      exact ⟨_, ⟨by decide, rfl⟩, rfl⟩
  · simp only [bind_ok, addWriteBulk_ok, pure_ok, @eq_comm _ s']
    constructor
    · rintro ⟨t, ht, a, ⟨-, rfl⟩, rfl⟩
      exact ⟨t, by simpa [execStart] using ht, rfl⟩
    · rintro ⟨t, ht, rfl⟩
      exact ⟨t, by simpa [execStart] using ht, _, ⟨by decide, rfl⟩, rfl⟩

/-- The bytes of a read, behind those that the buffer holds. -/
def received (s : RedisServer) (c : ClientId) (nread : Bytes) : RedisServer :=
  s.modifyClient c fun client => { client with readBuf := sdscat client.readBuf nread }

theorem readFromClient_ok {nread : Bytes} : readFromClient env s c nread = .ok s' ↔
    (nread = [] ∧ s' = clientToclose s c) ∨
      nread ≠ [] ∧ (cstr nread).length < 1024 ∧ ∃ t,
        processClientQueryBuf env execDepth (received s c nread) c = .ok t ∧
          s' = clearReadBuf t c := by
  unfold readFromClient
  by_cases hn : nread = []
  · simp [hn, eq_comm]
  · rw [if_neg hn]
    by_cases hl : 1024 ≤ (cstr nread).length
    · rw [if_pos hl]
      simp only [reduceCtorEq, hn, Nat.not_lt.mpr hl, false_and, and_false, or_self]
    · rw [if_neg hl]
      simp only [bind_ok, pure_ok, hn, Nat.lt_of_not_le hl, ne_eq, not_false_eq_true, true_and,
        false_and, false_or, @eq_comm _ s']
      rfl

/-! ## Small steps -/

/-- A change of one client that a database does not see: neither its selected
database nor the flag of a failed transaction. -/
def Keeps (f : RedisClient → RedisClient) : Prop :=
  ∀ client, (f client).db = client.db ∧ (f client).flags.dirtyCas = client.flags.dirtyCas

/-- The small steps of a client's request: a command that is not EXEC, the call of
EXEC, and what it does beside the commands that it runs. -/
inductive Small (env : Env) (c : ClientId) : RedisServer → RedisServer → Prop
  | command (query : RedisServer → ClientId → Except Fault RedisServer) (s s' : RedisServer)
      (argv : List Bytes) (hne : NotExec s c argv)
      (h : processCommand query env s c argv = .ok s') : Small env c s s'
  | exec (s : RedisServer) (argv : List Bytes) (h : ¬ NotExec s c argv) :
      Small env c s (logCall s c argv)
  | client (s : RedisServer) (f : RedisClient → RedisClient) (h : Keeps f) :
      Small env c s (s.modifyClient c f)

theorem small_client {f : RedisClient → RedisClient} (h : Keeps f) :
    ReflTransGen (Small env c) s (s.modifyClient c f) := .single (.client _ _ h)

theorem small_queue (h : queueCommand s c = .ok s') : ReflTransGen (Small env c) s s' := by
  obtain ⟨cmd, -, rfl⟩ := queueCommand_ok.mp h
  refine ((small_client ?_).trans (small_client ?_)).trans (small_client ?_) <;>
    exact fun client => ⟨rfl, rfl⟩

theorem small_loop {query : RedisServer → ClientId → Except Fault RedisServer}
    (hq : ∀ {s s'}, query s c = .ok s' → ReflTransGen (Small env c) s s') {fuel i : Nat}
    (h : execLoop query c fuel i s = .ok s') : ReflTransGen (Small env c) s s' := by
  induction fuel generalizing s i with
  | zero => cases h
  | succ fuel ih =>
    rw [execLoop] at h
    split at h
    · split at h
      · cases h
      · obtain ⟨t, ht, h⟩ := bind_ok.mp h
        refine (small_client ?_).trans ((hq ht).trans ((small_client ?_).trans (ih h))) <;>
          exact fun client => ⟨rfl, rfl⟩
    · cases h
      exact .refl

theorem small_exec {query : RedisServer → ClientId → Except Fault RedisServer}
    (hq : ∀ {s s'}, query s c = .ok s' → ReflTransGen (Small env c) s s')
    (h : commandExecProc query s c = .ok s') : ReflTransGen (Small env c) s s' := by
  have start : ReflTransGen (Small env c) s (execStart s c) :=
    small_client fun client => ⟨rfl, rfl⟩
  have finish : ∀ t str, ReflTransGen (Small env c) t (execFinish t c str) := by
    intro t str
    refine (small_client ?_).trans (small_client ?_) <;> exact fun client => ⟨rfl, rfl⟩
  have h := commandExecProc_ok.mp h
  split at h
  · rw [h]
    exact start.trans (finish _ _)
  · obtain ⟨t, ht, rfl⟩ := h
    exact start.trans ((small_loop hq ht).trans (finish _ _))

/-- Commands whose entry asks for nothing around the handler. -/
theorem bare_entry : ∀ cmd ∈ commandsTable, cmd.proc = .exec ∨ cmd.proc = .replconf ∨
    cmd.proc = .slaveof → cmd.read = false ∧ cmd.write = false := by decide

section Bare

variable {query : RedisServer → ClientId → Except Fault RedisServer} {cmd : RedisCommand}

/-- A command that neither reads nor writes a database is its handler. -/
theorem executed_handler (hr : cmd.read = false) (hw : cmd.write = false) :
    executed query env s c cmd argv = callProc query env cmd.proc s c argv := by
  have hf : feedAof s c cmd = s := by simp [feedAof, hw]
  have he : expireArg env s c cmd argv = .ok s := expireArg_ok.mpr (by simp [hr, hw])
  rw [executed, hf, he, ok_bind, hw]
  simp only [Bool.false_eq_true, if_false]
  cases callProc query env cmd.proc s c argv <;> rfl

theorem executed_exec (hc : cmd ∈ commandsTable) (hp : cmd.proc = .exec) :
    executed query env s c cmd argv = commandExecProc query s c := by
  obtain ⟨hr, hw⟩ := bare_entry cmd hc (.inl hp)
  rw [executed_handler hr hw, hp]
  rfl

theorem replicate_read (hw : cmd.write = false) : replicate s c cmd = s := by
  simp [replicate, hw]

/-- A call that finds such a command runs the handler. -/
theorem processCommand_bare (hf : foundCommand s c argv = some cmd)
    (hp : cmd.proc = .exec ∨ cmd.proc = .replconf ∨ cmd.proc = .slaveof) :
    processCommand query env s c argv = .ok s' ↔ argv ≠ [] ∧
      ∃ t, callProc query env cmd.proc (logCall s c argv) c argv = .ok t ∧ s' = clearReadBuf t c := by
  obtain ⟨hr, hw⟩ := bare_entry cmd (mem_table hf) hp
  simp only [processCommand_found hf, executed_handler hr hw, replicate_read hw]

theorem processCommand_exec (hne : ¬ NotExec s c argv)
    (h : processCommand query env s c argv = .ok s') :
    ∃ t, commandExecProc query (logCall s c argv) c = .ok t ∧ s' = clearReadBuf t c := by
  obtain ⟨cmd, hf, hp⟩ := exec_found hne
  obtain ⟨-, t, ht, rfl⟩ := (processCommand_bare hf (.inl hp)).mp h
  rw [hp] at ht
  exact ⟨t, ht, rfl⟩

theorem processCommand_slaveof (hf : foundCommand s c argv = some cmd) (hp : cmd.proc = .slaveof)
    (h : processCommand query env s c argv = .ok s') :
    ∃ t, commandSlaveofProc env (logCall s c argv) c argv = .ok t ∧ s' = clearReadBuf t c := by
  obtain ⟨-, t, ht, rfl⟩ := (processCommand_bare hf (.inr (.inr hp))).mp h
  rw [hp] at ht
  exact ⟨t, ht, rfl⟩

end Bare

theorem small_process {query : RedisServer → ClientId → Except Fault RedisServer}
    (hq : ∀ {s s'}, query s c = .ok s' → ReflTransGen (Small env c) s s')
    (h : processCommand query env s c argv = .ok s') : ReflTransGen (Small env c) s s' := by
  by_cases hne : NotExec s c argv
  · exact .single (.command _ _ _ _ hne h)
  · obtain ⟨t, ht, rfl⟩ := processCommand_exec hne h
    exact .head (.exec _ _ hne) ((small_exec hq ht).trans (small_client fun client => ⟨rfl, rfl⟩))

theorem small_query (h : processClientQueryBuf env depth s c = .ok s') :
    ReflTransGen (Small env c) s s' := by
  induction depth generalizing s s' with
  | zero => cases h
  | succ depth ih =>
    obtain ⟨-, rfl⟩ | ⟨argv, -, -, ⟨-, h⟩ | ⟨-, h⟩⟩ := processClientQueryBuf_ok.mp h
    · exact .refl
    · exact small_queue h
    · exact small_process ih h

/-- A read is a sequence of small steps. -/
theorem read_small {nread : Bytes} (h : readFromClient env s c nread = .ok s') :
    ReflTransGen (Small env c) s s' := by
  obtain ⟨-, rfl⟩ | ⟨-, -, t, ht, rfl⟩ := readFromClient_ok.mp h
  · exact small_client fun client => ⟨rfl, rfl⟩
  · refine (small_client ?_).trans ((small_query ht).trans (small_client ?_)) <;>
      exact fun client => ⟨rfl, rfl⟩

/-- What every small step keeps, a read keeps. -/
theorem read_invariant {I : RedisServer → Prop} {nread : Bytes}
    (hstep : ∀ {s s'}, Small env c s s' → I s → I s')
    (h : readFromClient env s c nread = .ok s') (hs : I s) : I s' := by
  have steps := read_small h
  clear h
  induction steps with
  | refl => exact hs
  | tail _ h ih => exact hstep h ih

/-- The history grows, and unless one of the new calls is against it, the states
are so related. -/
def Grows (C : Call → Prop) (R : RedisServer → RedisServer → Prop) (s s' : RedisServer) : Prop :=
  ∃ new, s'.calls = s.calls ++ new ∧ ((∀ call ∈ new, C call) → R s s')

theorem chain_grows {C : Call → Prop} {R : RedisServer → RedisServer → Prop}
    (hrefl : ∀ s, R s s) (htrans : ∀ {a b d}, R a b → R b d → R a d)
    (hstep : ∀ {s s'}, Small env c s s' → Grows C R s s')
    (steps : ReflTransGen (Small env c) s s') : Grows C R s s' := by
  induction steps with
  | refl => exact ⟨[], by simp, fun _ => hrefl _⟩
  | tail _ h ih =>
    obtain ⟨n₁, e₁, r₁⟩ := ih
    obtain ⟨n₂, e₂, r₂⟩ := hstep h
    refine ⟨n₁ ++ n₂, by rw [e₂, e₁, List.append_assoc], fun hc => htrans (r₁ ?_) (r₂ ?_)⟩
    · exact fun call hm => hc call (List.mem_append_left _ hm)
    · exact fun call hm => hc call (List.mem_append_right _ hm)

theorem read_grows {C : Call → Prop} {R : RedisServer → RedisServer → Prop} {nread : Bytes}
    (hrefl : ∀ s, R s s) (htrans : ∀ {a b d}, R a b → R b d → R a d)
    (hstep : ∀ {s s'}, Small env c s s' → Grows C R s s')
    (h : readFromClient env s c nread = .ok s') : Grows C R s s' :=
  chain_grows hrefl htrans hstep (read_small h)

/-! ## Between reads -/

/-- Every read buffer is empty, as between two reads. -/
def Idle (s : RedisServer) : Prop := ∀ x, (s.client x).readBuf.len = 0

theorem small_readBufs (h : Small env c s s') {x : ClientId} (hx : x ≠ c)
    (hl : (s.client x).readBuf.len = 0) : (s'.client x).readBuf.len = 0 := by
  cases h with
  | command query s s' argv hne h => exact processCommand_readBufs hne h hx hl
  | exec s argv h => exact hl
  | client s f h => rwa [modifyClient_of_ne _ _ _ hx]

theorem readFromClient_idle {nread : Bytes} (h : readFromClient env s c nread = .ok s')
    (hi : Idle s) : Idle s' := by
  intro x
  by_cases hx : x = c
  · subst hx
    obtain ⟨-, rfl⟩ | ⟨-, -, t, -, rfl⟩ := readFromClient_ok.mp h
    · rw [clientToclose, modifyClient_self]
      exact hi x
    · exact clearReadBuf_len
  · exact read_invariant (fun hstep => small_readBufs hstep hx) h (hi x)

theorem received_client (s : RedisServer) (c : ClientId) (nread : Bytes) :
    (received s c nread).client c =
      { s.client c with readBuf := sdscat (s.client c).readBuf nread } :=
  modifyClient_self _ _ _

theorem received_content (hl : (s.client c).readBuf.len = 0) (nread : Bytes) :
    ((received s c nread).client c).readBuf.content = cstr nread := by
  rw [received, modifyClient_self]
  dsimp only
  rw [content_sdscat, content_of_len hl, List.nil_append]

/-- A request that is read as a whole is short enough for it. -/
theorem read_length (h : readFromClient env s c (respEncodeArrayString argv) = .ok s') :
    (respEncodeArrayString argv).length < 1024 := by
  obtain ⟨hnil, -⟩ | ⟨-, hlen, -⟩ := readFromClient_ok.mp h
  · exact absurd hnil (by simp [respEncodeArrayString])
  · rwa [cstr_eq_self (encode_ne_zero argv)] at hlen

/-- A read of one whole request is processed as it is. -/
theorem read_whole (hlen : (respEncodeArrayString argv).length < 1024) :
    readFromClient env s c (respEncodeArrayString argv) = do
      let t ← processClientQueryBuf env execDepth (received s c (respEncodeArrayString argv)) c
      return clearReadBuf t c := by
  have hz := cstr_eq_self (encode_ne_zero argv)
  have hne : respEncodeArrayString argv ≠ [] := by simp [respEncodeArrayString]
  rw [readFromClient, if_neg hne, hz, if_neg (by omega)]
  rfl

/-- A read of one whole request. -/
theorem read_request (hr : Request argv) (hlen : (respEncodeArrayString argv).length < 1024)
    (hl : (s.client c).readBuf.len = 0) :
    readFromClient env s c (respEncodeArrayString argv) = .ok s' ↔ ∃ t,
      ((Queues s c argv ∧ queueCommand (received s c (respEncodeArrayString argv)) c = .ok t) ∨
        (¬ Queues s c argv ∧ processCommand (processClientQueryBuf env 11) env
          (received s c (respEncodeArrayString argv)) c argv = .ok t)) ∧ s' = clearReadBuf t c := by
  have hdec : respDecode (sdsdump ((received s c (respEncodeArrayString argv)).client c).readBuf).buf =
      .ok argv := by
    refine respDecode_dump (t := []) hr ?_
    rw [received_content hl, cstr_eq_self (encode_ne_zero argv), List.append_nil]
  have hq : Queues (received s c (respEncodeArrayString argv)) c argv ↔ Queues s c argv := by
    rw [Queues, received, modifyClient_self]
    rfl
  rw [read_whole hlen, bind_ok, execDepth]
  simp only [processClientQueryBuf_ok, hdec, reduceCtorEq, false_and, false_or, Decoded.ok.injEq,
    exists_eq_left', ne_eq, hr.ne_nil, not_false_eq_true, true_and, hq, pure_ok, @eq_comm _ s']

end Fedis.Proof.Server

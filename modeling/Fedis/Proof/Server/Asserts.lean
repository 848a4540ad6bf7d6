import Fedis.Proof.Server.Queue
import Fedis.Proof.Server.Replicate

/-!
# The assertions of a request

Two assertions can fail while a request is processed: SLAVEOF asks for a server
without a master, INFO for a server that is one. The command table keeps neither
command from the wrong server.

* `call_aborts`: a command other than EXEC fails an assertion iff it is one of the
  two, on such a server (`Role.Fails`).
* `execLoop_aborts`: the loop of EXEC does if one of the queued requests does, in
  the role that the ones before it leave (`Role.FailsIn`).
* `asserts_hold`: after any run of requests, the next one fails no assertion iff
  the server's role and the client's queue let it pass.
-/

namespace Fedis.Proof.Server

open Framework Resp Relation

variable {query : RedisServer → ClientId → Except Fault RedisServer} {env : Env} {proc : Proc}
  {s s' t : RedisServer} {c x : ClientId} {argv q : List Bytes} {qs : List (List Bytes)}
  {i depth : Nat}

/-! ## Calls without a failed assertion -/

/-- No assertion fails, and no exit is reached. -/
def Passes {α : Type} (r : Except Fault α) : Prop := r ≠ .error .abort

section Passes

variable {α β : Type} {r : Except Fault α} {f : α → Except Fault β}

theorem passes_ok (a : α) : Passes (.ok a) := by simp [Passes]

theorem passes_pure (a : α) : Passes (pure a : Except Fault α) := passes_ok a

theorem passes_undefined : Passes (.error .undefined : Except Fault α) := by simp [Passes]

theorem Passes.bind (hr : Passes r) (hf : ∀ a, r = .ok a → Passes (f a)) : Passes (r >>= f) := by
  intro h
  obtain h | ⟨a, ha, h⟩ := bind_error.mp h
  · exact hr h
  · exact hf a ha h

/-- A call that neither returns nor is undefined fails an assertion. -/
theorem aborts_of (hok : ∀ a, r ≠ .ok a) (hdef : r ≠ .error .undefined) : r = .error .abort := by
  cases r with
  | ok a => exact absurd rfl (hok a)
  | error e =>
    cases e with
    | abort => rfl
    | undefined => exact absurd rfl hdef

theorem passes_argAt (argv : List Bytes) (i : Nat) : Passes (argAt argv i) := by
  unfold argAt
  split
  · exact passes_ok _
  · exact passes_undefined

theorem passes_getDb (s : RedisServer) (i : Int) : Passes (s.getDb i) := by
  unfold RedisServer.getDb
  split
  · exact passes_undefined
  · split
    · exact passes_ok _
    · exact passes_undefined

theorem passes_addWriteBulk (s : RedisServer) (c : ClientId) (str : Bytes) :
    Passes (addWriteBulk s c str) := by
  unfold addWriteBulk respEncodeBulkString
  refine Passes.bind ?_ fun b _ => passes_pure _
  split
  · exact passes_ok _
  · exact passes_undefined

end Passes

/-- The exit of SYNC is behind a test that the one before it has made. -/
theorem commandSyncProc_passes : Passes (commandSyncProc s c argv) := by
  refine (passes_argAt argv 1).bind fun arg _ => ?_
  dsimp only
  split
  · exact passes_pure _
  · rename_i ha
    rw [if_pos (accepts_iff.mp (by simpa using ha)).2]
    split
    · exact passes_pure _
    · exact passes_undefined

theorem commandWatchProc_passes : Passes (commandWatchProc s c argv) := by
  have hkeys : ∀ (args : List Bytes) (s : RedisServer),
      Passes (args.foldlM (fun s arg => watchKey s c arg) s) := by
    intro args
    induction args with
    | nil => exact fun s => passes_ok s
    | cons arg args ih =>
      intro s
      show Passes (watchKey s c arg >>= fun s => args.foldlM (fun s arg => watchKey s c arg) s)
      exact ((passes_getDb _ _).bind fun db _ => passes_pure _).bind fun s _ => ih s
  exact (hkeys _ s).bind fun s _ => passes_pure _

theorem callProc_passes (hs : proc ≠ .slaveof) (hi : proc ≠ .info) (he : proc ≠ .exec) :
    Passes (callProc query env proc s c argv) := by
  cases proc with
  | slaveof => exact absurd rfl hs
  | info => exact absurd rfl hi
  | exec => exact absurd rfl he
  | sync => exact commandSyncProc_passes
  | watch => exact commandWatchProc_passes
  | bye | ping | replconf | replack | heartbeat | multi => exact passes_ok _
  | set =>
    refine (passes_argAt argv 1).bind fun key _ => ?_
    split
    · exact passes_pure _
    · refine (passes_argAt argv 2).bind fun value _ => (passes_getDb _ _).bind fun db _ => ?_
      dsimp only
      split <;> exact passes_pure _
  | get =>
    refine (passes_argAt argv 1).bind fun key _ => (passes_getDb _ _).bind fun db _ => ?_
    split
    · exact passes_pure _
    · exact passes_addWriteBulk _ _ _
  | del =>
    refine (passes_argAt argv 1).bind fun key _ => (passes_getDb _ _).bind fun db _ => ?_
    dsimp only
    split <;> exact passes_pure _
  | object =>
    refine (passes_argAt argv 2).bind fun key _ => (passes_argAt argv 1).bind fun op _ => ?_
    split
    · refine (passes_getDb _ _).bind fun db _ => ?_
      split
      · exact passes_pure _
      · exact passes_addWriteBulk _ _ _
    · exact passes_pure _
  | select =>
    refine (passes_argAt argv 1).bind fun arg _ => ?_
    split
    · exact passes_pure _
    · exact passes_addWriteBulk _ _ _
  | expire =>
    refine (passes_argAt argv 1).bind fun key _ => (passes_argAt argv 2).bind fun arg _ => ?_
    split
    · exact passes_pure _
    · split
      · exact passes_undefined
      · refine (passes_getDb _ _).bind fun db _ => ?_
        dsimp only
        split <;> exact passes_pure _
  | ttl =>
    refine (passes_argAt argv 1).bind fun key _ => (passes_getDb _ _).bind fun db0 _ => ?_
    split
    · refine (passes_getDb _ _).bind fun db _ => ?_
      dsimp only
      split
      · exact passes_addWriteBulk _ _ _
      · exact passes_undefined
    · exact passes_pure _

/-! ## The two that fail -/

/-- What the assertions ask about a server. -/
structure Role where
  master : Bool
  linked : Bool
deriving DecidableEq, Repr

def roleOf (s : RedisServer) : Role := ⟨s.flags.master, s.master.isSome⟩

/-- The request is a SLAVEOF. -/
def IsSlaveof (q : List Bytes) : Prop := strcaseeq (bytes "SLAVEOF") (q.headD []) = true

/-- The request is an INFO. -/
def IsInfo (q : List Bytes) : Prop := strcaseeq (bytes "INFO") (q.headD []) = true

/-- The request is an EXEC. -/
def IsExec (q : List Bytes) : Prop := strcaseeq (bytes "EXEC") (q.headD []) = true

instance (q : List Bytes) : Decidable (IsSlaveof q) := inferInstanceAs (Decidable (_ = true))
instance (q : List Bytes) : Decidable (IsInfo q) := inferInstanceAs (Decidable (_ = true))
instance (q : List Bytes) : Decidable (IsExec q) := inferInstanceAs (Decidable (_ = true))

/-- In this role the request fails its assertion: a SLAVEOF with a host and a port
where there is a master already, an INFO off a master. -/
def Role.Fails (r : Role) (q : List Bytes) : Prop :=
  (IsSlaveof q ∧ 2 ≤ (strtok (q.getD 1 []) 58).length ∧ r.linked = true) ∨
    (IsInfo q ∧ r.master = false)

instance (r : Role) (q : List Bytes) : Decidable (r.Fails q) :=
  inferInstanceAs (Decidable (_ ∨ _))

def slaveofEntry : RedisCommand := ⟨false, false, bytes "SLAVEOF", .slaveof, 3⟩

def infoEntry : RedisCommand := ⟨false, false, bytes "INFO", .info, 1⟩

/-- A command that does not write is found by its name. -/
theorem found_iff (entry : RedisCommand) (he : entry ∈ commandsTable) (hw : entry.write = false)
    (hne : q ≠ []) :
    foundCommand s c q = some entry ↔ strcaseeq entry.name (q.headD []) = true :=
  ⟨foundCommand_name, fun hn => foundCommand_some hne he hn (by simp [isSupportedCmd, hw])⟩

/-- An entry of the table is determined by its handler. -/
theorem entry_of_proc : ∀ a ∈ commandsTable, ∀ b ∈ commandsTable, a.proc = b.proc → a = b := by
  decide

theorem commandInfoProc_aborts : commandInfoProc s c = .error .abort ↔ (roleOf s).master = false := by
  rw [roleOf]
  by_cases hm : s.flags.master = true
  · obtain ⟨s', h⟩ := commandInfoProc_returns (c := c) hm
    rw [h, hm]
    exact iff_of_false nofun nofun
  · rw [commandInfoProc, if_neg hm]
    exact iff_of_true rfl (Bool.eq_false_iff.mpr hm)

theorem commandSlaveofProc_aborts : commandSlaveofProc env s c q = .error .abort ↔
    2 ≤ (strtok (q.getD 1 []) 58).length ∧ (roleOf s).linked = true := by
  unfold commandSlaveofProc roleOf argAt
  rw [List.getD_eq_getElem?_getD]
  cases q[1]? with
  | none =>
    have hnil : strtok [] 58 = [] := rfl
    simp [hnil]
  | some arg =>
    rw [Option.getD_some]
    dsimp only
    rw [ok_bind]
    match strtok arg 58 with
    | [] => simp
    | [ip] => simp
    | ip :: port :: rest =>
      unfold masterToSlave
      cases s.master with
      | none => simp
      | some m => simp

/-! ## One call -/

theorem executed_passes {cmd : RedisCommand} (hs : cmd.proc ≠ .slaveof) (hi : cmd.proc ≠ .info)
    (he : cmd.proc ≠ .exec) : Passes (executed query env s c cmd argv) := by
  have hexpire : ∀ s, Passes (expireArg env s c cmd argv) := by
    intro s
    unfold expireArg
    split
    · exact (passes_argAt argv 1).bind fun key _ => (passes_getDb _ _).bind fun db _ => passes_pure _
    · exact passes_pure _
  have htouch : ∀ s, Passes (touchWatchKey s c argv) := by
    intro s
    refine (passes_argAt argv 1).bind fun key _ => (passes_getDb _ _).bind fun db _ => ?_
    split <;> exact passes_pure _
  refine (hexpire _).bind fun s _ => (callProc_passes hs hi he).bind fun s _ => ?_
  split
  · exact htouch s
  · exact passes_pure s

/-- A command other than EXEC fails an assertion iff its request asks for it. -/
theorem call_aborts (hq : q ≠ []) (hne : NotExec s c q) :
    processCommand query env s c q = .error .abort ↔ (roleOf s).Fails q := by
  rw [processCommand_error hq]
  constructor
  · rintro ⟨cmd, hf, h⟩
    have hc := mem_table hf
    by_cases hs : cmd.proc = .slaveof
    · obtain rfl := entry_of_proc cmd hc slaveofEntry (by decide) hs
      rw [executed_handler rfl rfl] at h
      exact .inl ⟨foundCommand_name hf, (commandSlaveofProc_aborts (s := logCall s c q)).mp h⟩
    · by_cases hi : cmd.proc = .info
      · obtain rfl := entry_of_proc cmd hc infoEntry (by decide) hi
        rw [executed_handler rfl rfl] at h
        exact .inr ⟨foundCommand_name hf, (commandInfoProc_aborts (s := logCall s c q)).mp h⟩
      · exact absurd h (executed_passes hs hi (hne cmd hf))
  · rintro (⟨hs, h⟩ | ⟨hi, h⟩)
    · refine ⟨slaveofEntry, (found_iff slaveofEntry (by decide) rfl hq).mpr hs, ?_⟩
      rw [executed_handler rfl rfl]
      exact commandSlaveofProc_aborts.mpr h
    · refine ⟨infoEntry, (found_iff infoEntry (by decide) rfl hq).mpr hi, ?_⟩
      rw [executed_handler rfl rfl]
      exact commandInfoProc_aborts.mpr h

/-- The role that a request leaves, if it returns: SLAVEOF ends that of a master,
and has a master if the connection can be made. -/
def Role.after (linked : Bool) (r : Role) (q : List Bytes) : Role :=
  if IsSlaveof q then ⟨false, linked⟩ else r

theorem call_role (hne : NotExec s c q) (h : processCommand query env s c q = .ok t) :
    roleOf t = (roleOf s).after env.connect.isSome q := by
  obtain ⟨hq, ⟨hf, rfl⟩ | ⟨cmd, u, hf, hu, rfl⟩⟩ := processCommand_ok.mp h
  · have hs : ¬ IsSlaveof q := by
      intro hs
      rw [(found_iff slaveofEntry (by decide) rfl hq).mpr hs] at hf
      cases hf
    rw [Role.after, if_neg hs]
    rfl
  · have hframe := executed_server (hne cmd hf) hu
    have hiff : IsSlaveof q ↔ cmd.proc = .slaveof := by
      constructor
      · intro hs
        rw [(found_iff slaveofEntry (by decide) rfl hq).mpr hs] at hf
        cases hf
        rfl
      · intro hp
        obtain rfl := entry_of_proc cmd (mem_table hf) slaveofEntry (by decide) hp
        exact foundCommand_name hf
    have hreplied : roleOf (clearReadBuf (replicate u c cmd) c) = roleOf u :=
      replied_field roleOf fun _ _ _ _ _ => rfl
    rw [hreplied, roleOf, hframe.flags, hframe.master, Role.after]
    by_cases hp : cmd.proc = .slaveof
    · rw [if_pos hp, if_pos hp, if_pos (hiff.mpr hp)]
    · rw [if_neg hp, if_neg hp, if_neg (mt hiff.mp hp)]
      rfl

/-! ## The queue of a transaction -/

/-- One of the queued requests fails its assertion, in the role that the ones
before it leave. Behind a MULTI nothing is run any more. -/
def Role.FailsIn (linked : Bool) : Role → List (List Bytes) → Prop
  | _, [] => False
  | r, q :: qs => r.Fails q ∨ ¬ IsMulti q ∧ (r.after linked q).FailsIn linked qs

instance decidableFailsIn (linked : Bool) : ∀ (r : Role) (qs : List (List Bytes)),
    Decidable (r.FailsIn linked qs)
  | _, [] => isFalse id
  | r, q :: qs =>
    have := decidableFailsIn linked (r.after linked q) qs
    inferInstanceAs (Decidable (r.Fails q ∨ ¬ IsMulti q ∧ (r.after linked q).FailsIn linked qs))

/-- While the client collects a transaction, no round runs a request. -/
theorem execLoop_passes {fuel : Nat} (hs : Slots (s.client c) i qs)
    (hq : ∀ q ∈ qs, Request q ∧ Accepted q) (hmulti : (s.client c).flags.multi = true) :
    Passes (execLoop (processClientQueryBuf env (depth + 1)) c fuel i s) := by
  by_cases hi : i < (s.client c).multiCmdCount
  · rw [execLoop_requeues hmulti hi fun j hij hj => hs.request hq hij hj]
    exact passes_undefined
  · cases fuel with
    | zero => exact passes_undefined
    | succ fuel =>
      rw [execLoop_end hi]
      exact passes_ok s

theorem execLoop_aborts (depth fuel : Nat) (hconn : env.connect ≠ some c)
    (hs : Slots (s.client c) i qs)
    (hq : ∀ q ∈ qs, Request q ∧ Accepted q) (hmulti : (s.client c).flags.multi = false) :
    (execLoop (processClientQueryBuf env (depth + 1)) c fuel i s = .error .abort →
        (roleOf s).FailsIn env.connect.isSome qs) ∧
      ((roleOf s).FailsIn env.connect.isSome qs →
        ∀ t, execLoop (processClientQueryBuf env (depth + 1)) c fuel i s ≠ .ok t) := by
  induction qs generalizing s i fuel with
  | nil =>
    refine ⟨fun h => ?_, fun h => h.elim⟩
    cases fuel with
    | zero => cases h
    | succ fuel =>
      rw [execLoop_end (by rw [hs.1, List.length_nil]; omega)] at h
      cases h
  | cons q qs ih =>
    cases fuel with
    | zero => refine ⟨fun h => ?_, fun _ t h => ?_⟩ <;> cases h
    | succ fuel =>
      obtain ⟨hi, cmd, hcmd, hcontent⟩ := hs.head
      obtain ⟨hr, ha⟩ := hq q List.mem_cons_self
      have hrest : ∀ q ∈ qs, Request q ∧ Accepted q := fun q' h => hq q' (List.mem_cons_of_mem _ h)
      have hload : ((execLoad s c i cmd).client c).readBuf.content = respEncodeArrayString q := by
        rw [execLoad_content, hcontent]
      have hnq : ¬ Queues (execLoad s c i cmd) c q := by
        rw [queues_iff ha, execLoad, modifyClient_self]
        simp [hmulti]
      have hne := notExec_of_accepted (s := execLoad s c i cmd) (c := c) ha
      have hfails : processCommand (processClientQueryBuf env depth) env (execLoad s c i cmd) c q =
          .error .abort ↔ (roleOf s).Fails q := call_aborts hr.ne_nil hne
      rw [execLoop_step hi hcmd, query_calls hr hload hnq]
      cases hu : processCommand (processClientQueryBuf env depth) env (execLoad s c i cmd) c q with
      | error e =>
        refine ⟨fun h => .inl (hfails.mp ?_), fun _ t h => ?_⟩
        · rw [hu]
          exact h
        · cases h
      | ok u =>
        rw [ok_bind]
        have hpass : ¬ (roleOf s).Fails q := by
          rw [← hfails, hu]
          simp
        have hslots := (hand_slots hconn ha hs (hand_ok.mpr ⟨cmd, u, hcmd, hu, rfl⟩)).1
        have hflag : ((clearSlot u c i).client c).flags.multi =
            (clientAfter (execLoad s c i cmd) c q c).flags.multi := by
          rw [clearSlot, modifyClient_self]
          exact (processCommand_queue hconn ha hu).2.2
        by_cases hm : IsMulti q
        · refine ⟨fun h => absurd h (execLoop_passes hslots hrest ?_), fun h => ?_⟩
          · rw [hflag]
            simp [clientAfter, found_multi hr hm, multiEntry, clientEffect]
          · exact absurd h (not_or.mpr ⟨hpass, fun h => h.1 hm⟩)
        · have hafter := call_role hne hu
          have hrole : roleOf (clearSlot u c i) = (roleOf s).after env.connect.isSome q := hafter
          have hoff : ((clearSlot u c i).client c).flags.multi = false := by
            rw [hflag]
            refine clientAfter_multi hm ?_
            rw [execLoad, modifyClient_self]
            exact hmulti
          obtain ⟨hsound, hcomplete⟩ := ih fuel hslots hrest hoff
          rw [hrole] at hsound hcomplete
          exact ⟨fun h => .inr ⟨hm, hsound h⟩, fun h => hcomplete (h.resolve_left hpass).2⟩

/-- EXEC, whose watched keys may have changed. -/
theorem exec_aborts (depth : Nat) (hconn : env.connect ≠ some c) (hq : Queued s c qs) :
    (commandExecProc (processClientQueryBuf env (depth + 1)) s c = .error .abort →
        (s.client c).flags.dirtyCas = false ∧ (roleOf s).FailsIn env.connect.isSome qs) ∧
      ((s.client c).flags.dirtyCas = false ∧ (roleOf s).FailsIn env.connect.isSome qs →
        ∀ t, commandExecProc (processClientQueryBuf env (depth + 1)) s c ≠ .ok t) := by
  have hslots : Slots ((execStart s c).client c) 0 qs := by
    rw [execStart, modifyClient_self]
    exact hq.slots
  have hmulti : ((execStart s c).client c).flags.multi = false := by
    rw [execStart, modifyClient_self]
    rfl
  obtain ⟨hsound, hcomplete⟩ := execLoop_aborts depth
    (((execStart s c).client c).multcmds.length + 1) hconn hslots hq.requests hmulti
  constructor
  · intro h
    unfold commandExecProc at h
    dsimp only at h
    split at h
    · exact absurd h ((passes_addWriteBulk _ _ _).bind fun t _ => passes_pure _)
    · rename_i hd
      refine ⟨by simpa using hd, hsound ?_⟩
      obtain h | ⟨t, -, h⟩ := bind_error.mp h
      · exact h
      · exact absurd h ((passes_addWriteBulk _ _ _).bind fun t _ => passes_pure _)
  · rintro ⟨hd, hf⟩ t h
    have h := commandExecProc_ok.mp h
    simp only [hd, Bool.false_eq_true, if_false] at h
    obtain ⟨u, hu, -⟩ := h
    refine hcomplete hf u ?_
    rw [execStart, modifyClient_self]
    exact hu

/-! ## A request -/

/-- The call of this request fails an assertion, if these requests are in the
client's queue. -/
def CallFails (env : Env) (s : RedisServer) (c : ClientId) (argv : List Bytes)
    (qs : List (List Bytes)) : Prop :=
  if IsExec argv then
    (s.client c).flags.dirtyCas = false ∧ (roleOf s).FailsIn env.connect.isSome qs
  else (roleOf s).Fails argv

/-- The request is called, and the call fails. -/
def Fatal (env : Env) (s : RedisServer) (c : ClientId) (argv : List Bytes)
    (qs : List (List Bytes)) : Prop :=
  ¬ Queues s c argv ∧ CallFails env s c argv qs

instance (argv : List Bytes) (qs : List (List Bytes)) : Decidable (CallFails env s c argv qs) :=
  inferInstanceAs (Decidable (if IsExec argv then
    (s.client c).flags.dirtyCas = false ∧ (roleOf s).FailsIn env.connect.isSome qs
    else (roleOf s).Fails argv))

instance (argv : List Bytes) (qs : List (List Bytes)) : Decidable (Fatal env s c argv qs) :=
  inferInstanceAs (Decidable (¬ (_ ∧ _) ∧ _))

theorem notExec_iff (hne : argv ≠ []) : NotExec s c argv ↔ ¬ IsExec argv := by
  constructor
  · intro h hx
    exact h execEntry ((found_iff execEntry (by decide) rfl hne).mpr hx) rfl
  · intro h cmd hf hp
    obtain rfl := entry_of_proc cmd (mem_table hf) execEntry (by decide) hp
    exact h (foundCommand_name hf)

section Request

variable (hconn : env.connect ≠ some c) (hq : Queued s c qs) (hr : Request argv)
include hconn hq hr

theorem process_aborts (depth : Nat) (hdef : IsExec argv →
      processCommand (processClientQueryBuf env (depth + 1)) env s c argv ≠ .error .undefined) :
    processCommand (processClientQueryBuf env (depth + 1)) env s c argv = .error .abort ↔
      CallFails env s c argv qs := by
  unfold CallFails
  by_cases hx : IsExec argv
  · have hf := (found_iff (s := s) (c := c) execEntry (by decide) rfl hr.ne_nil).mpr hx
    have hlog : Queued (logCall s c argv) c qs := ⟨hq.slots, hq.requests⟩
    obtain ⟨hsound, hcomplete⟩ := exec_aborts depth hconn hlog
    have hdef := hdef hx
    rw [if_pos hx]
    rw [processCommand_eq hr.ne_nil, hf] at hdef ⊢
    dsimp only at hdef ⊢
    rw [executed_exec (by decide) rfl] at hdef ⊢
    constructor
    · intro h
      obtain h | ⟨t, -, h⟩ := bind_error.mp h
      · exact hsound h
      · cases h
    · intro h
      refine aborts_of (fun t ht => ?_) hdef
      obtain ⟨u, hu, -⟩ := bind_ok.mp ht
      exact hcomplete h u hu
  · rw [if_neg hx]
    exact call_aborts hr.ne_nil ((notExec_iff hr.ne_nil).mpr hx)

/-- A request that is read fails no assertion iff it is not fatal. An EXEC must have
defined behaviour for that: it may leave its queue before it meets the assertion. -/
theorem read_passes_iff (hlen : (respEncodeArrayString argv).length < 1024)
    (hl : (s.client c).readBuf.len = 0)
    (hdef : IsExec argv → readFromClient env s c (respEncodeArrayString argv) ≠ .error .undefined) :
    Passes (readFromClient env s c (respEncodeArrayString argv)) ↔ ¬ Fatal env s c argv qs := by
  have hcontent : ((received s c (respEncodeArrayString argv)).client c).readBuf.content =
      respEncodeArrayString argv := by
    rw [received_content hl, cstr_eq_self (encode_ne_zero argv)]
  have hclient := received_client s c (respEncodeArrayString argv)
  have hqueues : Queues (received s c (respEncodeArrayString argv)) c argv ↔ Queues s c argv := by
    rw [Queues, hclient]
    rfl
  rw [read_whole hlen, execDepth] at hdef ⊢
  by_cases hm : Queues s c argv
  · rw [query_queues hr hcontent (hqueues.mpr hm)]
    refine iff_of_true (Passes.bind ?_ fun t _ => passes_pure _) fun h => h.1 hm
    intro h
    exact absurd (queueCommand_error h) (by decide)
  · rw [query_calls hr hcontent (mt hqueues.mp hm)] at hdef ⊢
    have hqr : Queued (received s c (respEncodeArrayString argv)) c qs := by
      refine ⟨?_, hq.requests⟩
      rw [hclient]
      exact hq.slots
    have hiff := process_aborts hconn hqr hr 10 fun hx h => hdef hx (by rw [h]; rfl)
    have hcall : CallFails env (received s c (respEncodeArrayString argv)) c argv qs ↔
        CallFails env s c argv qs := by
      unfold CallFails
      rw [hclient]
      rfl
    rw [hcall] at hiff
    refine not_congr (Iff.trans ?_ (hiff.trans (and_iff_right hm).symm))
    rw [bind_error]
    simp

end Request

/-! ## Runs of requests -/

/-- The client sends one whole request; the object of a new connection to a master
is not its own. -/
structure WellFormed (r : Read) : Prop where
  apart : r.env.connect ≠ some r.client
  request : ∃ argv, Request argv ∧ (respEncodeArrayString argv).length < 1024 ∧
    r.nread = respEncodeArrayString argv

theorem queued_nil (h : (s.client x).multiCmdCount = 0) : Queued s x [] :=
  ⟨⟨by rw [h]; rfl, fun j q hj => by cases hj⟩, fun q hq => by cases hq⟩

/-- The queue is in two fields of the client. -/
theorem Queued.congr (h : Queued s x qs) (hm : (s'.client x).multcmds = (s.client x).multcmds)
    (hn : (s'.client x).multiCmdCount = (s.client x).multiCmdCount) : Queued s' x qs :=
  ⟨⟨hn.trans h.slots.1, fun j q hj => by rw [hm]; exact h.slots.2 j q hj⟩, h.requests⟩

/-- SLAVEOF takes an object with an empty queue for the new connection. -/
theorem slaveof_fresh (hx : env.connect = some x) (h : commandSlaveofProc env s c q = .ok s') :
    (s'.client x).multiCmdCount = 0 := by
  obtain ⟨arg, ip, port, rest, -, -, hm, rfl⟩ := commandSlaveofProc_ok.mp h
  rw [connectMaster_fresh (by exact hm) hx]
  rfl

theorem small_queued (h : Small env c s s') (hx : x ≠ c) (hq : ∃ qs, Queued s x qs) :
    ∃ qs, Queued s' x qs := by
  obtain ⟨qs, hq⟩ := hq
  cases h with
  | exec s argv h => exact ⟨qs, hq.congr rfl rfl⟩
  | client s f h =>
    refine ⟨qs, hq.congr ?_ ?_⟩
    · rw [modifyClient_of_ne _ _ _ hx]
    · rw [modifyClient_of_ne _ _ _ hx]
  | command query s s' argv hne h =>
    by_cases ha : ∀ cmd, foundCommand s c argv = some cmd → Apart env cmd.proc x
    · have hcore := processCommand_core hne h ha
      obtain ⟨h₁, h₂⟩ := clientAfter_queue (s := s) (c := c) (q := argv) x
      exact ⟨qs, hq.congr ((core_multcmds hcore).trans h₁) ((core_multiCmdCount hcore).trans h₂)⟩
    · push Not at ha
      obtain ⟨cmd, hf, ha⟩ := ha
      obtain ⟨hp, hconn⟩ : cmd.proc = .slaveof ∧ env.connect = some x := by
        simpa [Apart] using ha
      obtain ⟨t, ht, rfl⟩ := processCommand_slaveof hf hp h
      have hfresh := slaveof_fresh (s := logCall s c argv) hconn ht
      exact ⟨[], queued_nil (by rw [core_multiCmdCount clearReadBuf_core, hfresh])⟩

/-- After a call that is not queued, the queue of its client is what it was, or
empty. -/
theorem call_queued (hconn : env.connect ≠ some c) (hq : Queued s c qs)
    (h : processCommand query env s c argv = .ok s') : ∃ qs, Queued s' c qs := by
  by_cases hne : NotExec s c argv
  · have hcore := processCommand_core hne h (x := c) fun _ _ _ => hconn
    obtain ⟨h₁, h₂⟩ := clientAfter_queue (s := s) (c := c) (q := argv) c
    exact ⟨qs, hq.congr ((core_multcmds hcore).trans h₁) ((core_multiCmdCount hcore).trans h₂)⟩
  · obtain ⟨t, ht, rfl⟩ := processCommand_exec hne h
    refine ⟨[], queued_nil ?_⟩
    rw [core_multiCmdCount clearReadBuf_core]
    have ht := commandExecProc_ok.mp ht
    split at ht
    · rw [ht, execFinish, modifyClient_self]
    · obtain ⟨u, -, rfl⟩ := ht
      rw [execFinish, modifyClient_self]

theorem serve_queued {r : Read} {u : Unit} (hr : WellFormed r) (hi : Idle s)
    (hq : ∀ x, ∃ qs, Queued s x qs) (h : serve s r = some (u, s')) : ∀ x, ∃ qs, Queued s' x qs := by
  intro x
  replace h := serve_ok.mp h
  obtain ⟨argv, hreq, hlen, hread⟩ := hr.request
  rw [hread] at h
  by_cases hx : x = r.client
  · subst hx
    obtain ⟨qs, hqs⟩ := hq r.client
    have hclient := received_client s r.client (respEncodeArrayString argv)
    obtain ⟨t, ⟨⟨hm, ha⟩, ht⟩ | ⟨-, ht⟩, rfl⟩ := (read_request hreq hlen (hi r.client)).mp h
    · obtain ⟨cmd, hcmd, -⟩ := queueCommand_ok.mp ht
      have hfree : qs.length < (s.client r.client).multcmds.length := by
        have hlt := (List.getElem?_eq_some_iff.mp hcmd).1
        rw [hclient] at hlt
        dsimp only at hlt
        have hcount := hqs.slots.1
        omega
      obtain ⟨s'', hs'', hq''⟩ : ∃ s'', readFromClient r.env s r.client (respEncodeArrayString argv) =
          .ok s'' ∧ Queued s'' r.client (qs ++ [argv]) :=
        read_queues hqs hreq ha hlen (hi r.client) hm hfree
      rw [h] at hs''
      cases hs''
      exact ⟨_, hq''⟩
    · have hqr : Queued (received s r.client (respEncodeArrayString argv)) r.client qs :=
        hqs.congr (by rw [hclient]) (by rw [hclient])
      obtain ⟨qs', hq'⟩ := call_queued hr.apart hqr ht
      have hcore := clearReadBuf_core (s := t) (c := r.client) (x := r.client)
      exact ⟨qs', hq'.congr (core_multcmds hcore) (core_multiCmdCount hcore)⟩
  · exact read_invariant (fun hstep => small_queued hstep hx) h (hq x)

/-- **After any run of whole requests**, on a server of any role, the client has a
queue of requests, and its next request fails no assertion iff it is not fatal. -/
theorem asserts_hold {s₀ : RedisServer} {reads : List Read} {us : List Unit} (hi : Idle s₀)
    (hq : ∀ x, (s₀.client x).multiCmdCount = 0) (hreads : ∀ r ∈ reads, WellFormed r)
    (hrun : run serve s₀ reads = some (us, s)) (hconn : env.connect ≠ some c) (hr : Request argv)
    (hlen : (respEncodeArrayString argv).length < 1024)
    (hdef : IsExec argv → readFromClient env s c (respEncodeArrayString argv) ≠ .error .undefined) :
    ∃ qs, Queued s c qs ∧
      (Passes (readFromClient env s c (respEncodeArrayString argv)) ↔ ¬ Fatal env s c argv qs) := by
  have hinv : Idle s ∧ ∀ x, ∃ qs, Queued s x qs := by
    refine run_invariant (I := fun s => Idle s ∧ ∀ x, ∃ qs, Queued s x qs)
      (P := fun _ r => WellFormed r) ?_ reads ⟨hi, fun x => ⟨[], queued_nil (hq x)⟩⟩
      (along_of_forall fun r h _ => hreads r h) hrun
    rintro s r u s' ⟨hi, hq⟩ hr h
    exact ⟨readFromClient_idle (serve_ok.mp h) hi, serve_queued hr hi hq h⟩
  obtain ⟨hidle, hqueues⟩ := hinv
  obtain ⟨qs, hqs⟩ := hqueues c
  exact ⟨qs, hqs, read_passes_iff hconn hqs hr hlen (hidle c) hdef⟩

theorem wellFormed_sampleRead (hr : Request argv) (hlen : (respEncodeArrayString argv).length < 1024)
    (c : ClientId) : WellFormed (sampleRead c argv) :=
  ⟨by simp [sampleRead], argv, hr, hlen, rfl⟩

/-- An INFO that a master runs in a transaction. -/
theorem asserts_hold_two : ∃ s qs, run serve (sampleServer false)
      [sampleRead 7 [bytes "MULTI"], sampleRead 7 [bytes "INFO"]] = some ([(), ()], s) ∧
    Queued s 7 qs ∧
      (Passes (readFromClient ⟨0, none⟩ s 7 (respEncodeArrayString [bytes "EXEC"])) ↔
        ¬ Fatal ⟨0, none⟩ s 7 [bytes "EXEC"] qs) := by
  have hall : (do
      let r ← run serve (sampleServer false)
        [sampleRead 7 [bytes "MULTI"], sampleRead 7 [bytes "INFO"]]
      let r' ← serve r.2 (sampleRead 7 [bytes "EXEC"])
      return (r.1, r'.1)) = some ([(), ()], ()) := by decide +kernel
  obtain ⟨⟨us, s⟩, hrun, hall⟩ := Option.bind_eq_some_iff.mp hall
  obtain ⟨⟨u, s'⟩, hread, hall⟩ := Option.bind_eq_some_iff.mp hall
  simp only [Option.pure_def, Option.some.injEq, Prod.mk.injEq, and_true] at hall
  subst hall
  have hread : readFromClient ⟨0, none⟩ s 7 (respEncodeArrayString [bytes "EXEC"]) = .ok s' :=
    serve_ok.mp hread
  have hempty : ∀ x, ((sampleServer false).client x).multiCmdCount = 0 := by
    intro x
    rw [sampleServer, acceptTcpHandler]
    dsimp only
    rw [modifyClient_client]
    split <;> rfl
  have hreads : ∀ r ∈ [sampleRead 7 [bytes "MULTI"], sampleRead 7 [bytes "INFO"]], WellFormed r := by
    intro r hr
    obtain rfl | rfl : r = _ ∨ r = _ := by simpa using hr
    · exact wellFormed_sampleRead ⟨by decide, by decide, by decide +kernel, by decide⟩ (by decide) 7
    · exact wellFormed_sampleRead ⟨by decide, by decide, by decide +kernel, by decide⟩ (by decide) 7
  obtain ⟨qs, hqs, hiff⟩ := asserts_hold (c := 7) (idle_sampleServer false) hempty hreads hrun
    (by decide : (⟨0, none⟩ : Env).connect ≠ some 7)
    (⟨by decide, by decide, by decide +kernel, by decide⟩ : Request [bytes "EXEC"]) (by decide) fun _ h => by
      rw [hread] at h
      cases h
  exact ⟨s, qs, hrun, hqs, hiff⟩

/-- INFO brings a slave down, and a second SLAVEOF what was a master. -/
theorem asserts_fail :
    readFromClient ⟨0, none⟩ (acceptTcpHandler (initServer 1 ⟨false, true, false⟩ 1 false) 7
        (bytes "127.0.0.1") 5000) 7 (respEncodeArrayString [bytes "INFO"]) = .error .abort ∧
      ∃ s, run serve (sampleServer false) [⟨⟨0, some 9⟩, 7,
          respEncodeArrayString [bytes "SLAVEOF", bytes "127.0.0.1:6668", bytes "0"]⟩] =
            some ([()], s) ∧
        readFromClient ⟨0, none⟩ s 7
          (respEncodeArrayString [bytes "SLAVEOF", bytes "127.0.0.1:6668", bytes "0"]) =
            .error .abort := by
  have herr : ∀ {r : Except Fault RedisServer}, r.map (fun _ => ()) = .error .abort →
      r = .error .abort := by
    intro r h
    cases r with
    | ok a => cases h
    | error e =>
      cases h
      rfl
  refine ⟨herr (by decide), ?_⟩
  have hall : (do
      let r ← run serve (sampleServer false) [⟨⟨0, some 9⟩, 7,
        respEncodeArrayString [bytes "SLAVEOF", bytes "127.0.0.1:6668", bytes "0"]⟩]
      return (r.1, (readFromClient ⟨0, none⟩ r.2 7 (respEncodeArrayString
        [bytes "SLAVEOF", bytes "127.0.0.1:6668", bytes "0"])).map fun _ => ())) =
      some ([()], .error .abort) := by decide +kernel
  obtain ⟨⟨us, s⟩, hrun, hall⟩ := Option.bind_eq_some_iff.mp hall
  simp only [Option.pure_def, Option.some.injEq, Prod.mk.injEq] at hall
  obtain ⟨rfl, hread⟩ := hall
  exact ⟨s, hrun, herr hread⟩

end Fedis.Proof.Server

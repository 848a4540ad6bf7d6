import Fedis.Proof.Server.SetGet

/-!
# The queue of a transaction

`execLoop_hands`: if no queued request but the last is MULTI, the loop of EXEC is
`handAll`, which hands each request to `processCommand`. `execLoop_overruns`: after
a MULTI it queues what it should run and leaves the queue's places. `exec_iff` is
both; `read_queues` is how requests come into the queue.
-/

namespace Fedis.Proof.Server

open Framework Resp

variable {query : RedisServer → ClientId → Except Fault RedisServer} {env : Env}
  {s s' t : RedisServer} {c : ClientId} {q : List Bytes} {qs : List (List Bytes)} {i depth : Nat}

/-! ## Requests that can be queued -/

/-- The test of `processClientQueryBuf` lets a request into the queue. -/
def Accepted (q : List Bytes) : Prop := strncaseeq (q.headD []) (bytes "exec") 4 = false

/-- The request is a MULTI. -/
def IsMulti (q : List Bytes) : Prop := strcaseeq (bytes "MULTI") (q.headD []) = true

instance (q : List Bytes) : Decidable (IsMulti q) := inferInstanceAs (Decidable (_ = true))

def multiEntry : RedisCommand := ⟨false, false, bytes "MULTI", .multi, 1⟩

theorem queues_iff (ha : Accepted q) : Queues s c q ↔ (s.client c).flags.multi = true :=
  and_iff_left ha

theorem notExec_of_accepted (ha : Accepted q) : NotExec s c q := by
  intro cmd hf hp
  have hname : cmd.name = bytes "EXEC" :=
    (by decide : ∀ cmd ∈ commandsTable, cmd.proc = .exec → cmd.name = bytes "EXEC") _
      (mem_table hf) hp
  have h := foundCommand_name hf
  rw [hname, strcaseeq, beq_iff_eq] at h
  have h4 : ((cstr (q.headD [])).take 4).map tolower = bytes "exec" := by
    rw [List.map_take, ← h]
    decide
  have hx : ((cstr (bytes "exec")).take 4).map tolower = bytes "exec" := by decide
  rw [Accepted, strncaseeq, h4, hx] at ha
  exact absurd ha (by decide)

theorem isMulti_of_found {cmd : RedisCommand} (hf : foundCommand s c q = some cmd)
    (hp : cmd.proc = .multi) : IsMulti q := by
  have hname : cmd.name = bytes "MULTI" :=
    (by decide : ∀ cmd ∈ commandsTable, cmd.proc = .multi → cmd.name = bytes "MULTI") _
      (mem_table hf) hp
  have h := foundCommand_name hf
  rwa [hname] at h

theorem found_multi (hr : Request q) (hm : IsMulti q) : foundCommand s c q = some multiEntry :=
  foundCommand_some hr.ne_nil (by decide) hm (by simp [isSupportedCmd, multiEntry])

/-! ## What a call leaves of a queue -/

theorem clientAfter_queue (x : ClientId) :
    (clientAfter s c q x).multcmds = (s.client x).multcmds ∧
      (clientAfter s c q x).multiCmdCount = (s.client x).multiCmdCount := by
  unfold clientAfter
  split
  · exact ⟨rfl, rfl⟩
  · split
    · split <;> exact ⟨rfl, rfl⟩
    · split
      · rename_i hx
        rw [hx]
        unfold clientEffect
        split
        · exact ⟨rfl, rfl⟩
        · exact ⟨rfl, rfl⟩
        · split <;> exact ⟨rfl, rfl⟩
        · exact ⟨rfl, rfl⟩
      · exact ⟨rfl, rfl⟩

theorem clientAfter_multi (hm : ¬ IsMulti q) (h : (s.client c).flags.multi = false) :
    (clientAfter s c q c).flags.multi = false := by
  unfold clientAfter
  split
  · exact h
  · rename_i cmd hf
    split
    · split <;> exact h
    · rw [if_pos rfl]
      unfold clientEffect
      split
      · rfl
      · rename_i hp
        exact absurd (isMulti_of_found hf hp) hm
      · split <;> exact h
      · exact h

variable (hconn : env.connect ≠ some c)
include hconn

/-- A queued request leaves the queue alone. -/
theorem processCommand_queue (ha : Accepted q) (h : processCommand query env s c q = .ok s') :
    (s'.client c).multcmds = (s.client c).multcmds ∧
      (s'.client c).multiCmdCount = (s.client c).multiCmdCount ∧
      (s'.client c).flags.multi = (clientAfter s c q c).flags.multi := by
  have hcore := processCommand_core (notExec_of_accepted ha) h (x := c) fun _ _ _ => hconn
  obtain ⟨h₁, h₂⟩ := clientAfter_queue (s := s) (c := c) (q := q) c
  refine ⟨?_, ?_, ?_⟩
  · rw [core_multcmds hcore, h₁]
  · rw [core_multiCmdCount hcore, h₂]
  · rw [core_flags hcore]

omit hconn

/-! ## The places of the queue -/

/-- The places from `i` on hold these requests, up to the client's counter. -/
def Slots (client : RedisClient) (i : Nat) (qs : List (List Bytes)) : Prop :=
  client.multiCmdCount = i + qs.length ∧
    ∀ j q, qs[j]? = some q → ∃ cmd, client.multcmds[i + j]? = some cmd ∧
      cmd.content = respEncodeArrayString q

theorem Slots.head {client : RedisClient} (h : Slots client i (q :: qs)) :
    i < client.multiCmdCount ∧
      ∃ cmd, client.multcmds[i]? = some cmd ∧ cmd.content = respEncodeArrayString q :=
  ⟨by rw [h.1, List.length_cons]; omega, h.2 0 q rfl⟩

/-- Only place `i` differs. -/
theorem Slots.tail {client client' : RedisClient} (h : Slots client i (q :: qs))
    (hn : client'.multiCmdCount = client.multiCmdCount)
    (hm : ∀ j, j ≠ i → client'.multcmds[j]? = client.multcmds[j]?) : Slots client' (i + 1) qs := by
  refine ⟨by rw [hn, h.1, List.length_cons]; omega, fun j q' hj => ?_⟩
  obtain ⟨cmd, hcmd, hc⟩ := h.2 (j + 1) q' (by simpa using hj)
  exact ⟨cmd, by rw [hm _ (by omega), ← hcmd]; congr 1; omega, hc⟩

/-- What a place holds. -/
theorem Slots.request {client : RedisClient} (h : Slots client i qs)
    (hq : ∀ q ∈ qs, Request q ∧ Accepted q) {j : Nat} (hij : i ≤ j) (hj : j < client.multiCmdCount) :
    ∃ cmd q, client.multcmds[j]? = some cmd ∧ cmd.content = respEncodeArrayString q ∧
      Request q ∧ Accepted q := by
  rw [h.1] at hj
  obtain ⟨q, hqj⟩ : ∃ q, qs[j - i]? = some q := ⟨_, List.getElem?_eq_getElem (by omega)⟩
  obtain ⟨cmd, hcmd, hc⟩ := h.2 _ _ hqj
  rw [show i + (j - i) = j by omega] at hcmd
  exact ⟨cmd, q, hcmd, hc, hq q (List.mem_of_getElem? hqj)⟩

/-! ## One round of the loop -/

/-- The place of a request that has been run is cleared. -/
def clearSlot (s : RedisServer) (c : ClientId) (i : Nat) : RedisServer :=
  s.modifyClient c fun client => { client with multcmds := client.multcmds.modify i sdsclear }

theorem execLoop_step {fuel : Nat} {cmd : Sds} (hi : i < (s.client c).multiCmdCount)
    (hcmd : (s.client c).multcmds[i]? = some cmd) : execLoop query c (fuel + 1) i s =
      query (execLoad s c i cmd) c >>= fun u => execLoop query c fuel (i + 1) (clearSlot u c i) := by
  rw [execLoop, if_pos hi, hcmd]
  rfl

theorem execLoop_end {fuel : Nat} (hi : ¬ i < (s.client c).multiCmdCount) :
    execLoop query c (fuel + 1) i s = .ok s := by
  rw [execLoop, if_neg hi]

theorem execLoop_succ {fuel : Nat} : execLoop query c (fuel + 1) i s = .ok t ↔
    (¬ i < (s.client c).multiCmdCount ∧ t = s) ∨
      i < (s.client c).multiCmdCount ∧ ∃ cmd u, (s.client c).multcmds[i]? = some cmd ∧
        query (execLoad s c i cmd) c = .ok u ∧
          execLoop query c fuel (i + 1) (clearSlot u c i) = .ok t := by
  rw [execLoop]
  split
  · rename_i hi
    simp only [hi, not_true_eq_false, false_and, true_and, false_or]
    cases (s.client c).multcmds[i]? with
    | none => simp
    | some cmd =>
      simp only [bind_ok, Option.some.injEq, exists_and_left, exists_eq_left']
      rfl
  · rename_i hi
    simp [hi, eq_comm]

theorem execLoad_content (s : RedisServer) (c : ClientId) (i : Nat) (cmd : Sds) :
    ((execLoad s c i cmd).client c).readBuf.content = cmd.content := by
  rw [execLoad, modifyClient_self]
  exact (content_sdscatlen _ _).trans (by rw [content_sdsclear, List.nil_append])

section Query

variable (hr : Request q) (hc : (s.client c).readBuf.content = respEncodeArrayString q)
include hr hc

theorem query_decodes : respDecode (sdsdump (s.client c).readBuf).buf = .ok q :=
  respDecode_dump (t := []) hr (by rw [hc, List.append_nil])

theorem query_queues (hq : Queues s c q) :
    processClientQueryBuf env (depth + 1) s c = queueCommand s c :=
  processClientQueryBuf_queues (query_decodes hr hc) hr.ne_nil hq

theorem query_calls (hq : ¬ Queues s c q) : processClientQueryBuf env (depth + 1) s c =
    processCommand (processClientQueryBuf env depth) env s c q :=
  processClientQueryBuf_calls (query_decodes hr hc) hr.ne_nil hq

/-- A request in the read buffer is queued, or handed to `processCommand`. -/
theorem query_iff : processClientQueryBuf env (depth + 1) s c = .ok s' ↔
    (Queues s c q ∧ queueCommand s c = .ok s') ∨
      (¬ Queues s c q ∧ processCommand (processClientQueryBuf env depth) env s c q = .ok s') := by
  by_cases hq : Queues s c q
  · rw [query_queues hr hc hq]
    simp [hq]
  · rw [query_calls hr hc hq]
    simp [hq]

end Query

/-- Hands one queued request to `processCommand`. -/
def hand (env : Env) (depth : Nat) (c : ClientId) (i : Nat) (q : List Bytes) (s : RedisServer) :
    Except Fault RedisServer :=
  match (s.client c).multcmds[i]? with
  | none => .error .undefined
  | some cmd => do
    let t ← processCommand (processClientQueryBuf env depth) env (execLoad s c i cmd) c q
    return clearSlot t c i

/-- Hands every queued request to `processCommand`, in order. -/
def handAll (env : Env) (depth : Nat) (c : ClientId) :
    Nat → List (List Bytes) → RedisServer → Except Fault RedisServer
  | _, [], s => .ok s
  | i, q :: qs, s => do
    let s ← hand env depth c i q s
    handAll env depth c (i + 1) qs s

theorem hand_ok : hand env depth c i q s = .ok t ↔
    ∃ cmd u, (s.client c).multcmds[i]? = some cmd ∧
      processCommand (processClientQueryBuf env depth) env (execLoad s c i cmd) c q = .ok u ∧
        t = clearSlot u c i := by
  unfold hand
  cases (s.client c).multcmds[i]? with
  | none => simp
  | some cmd =>
    simp only [bind_ok, pure_ok, Option.some.injEq, exists_and_left, exists_eq_left', @eq_comm _ t]

/-- A request, run, leaves the later places and the counter alone. -/
theorem hand_slots (hconn : env.connect ≠ some c) (ha : Accepted q)
    (hs : Slots (s.client c) i (q :: qs)) (h : hand env depth c i q s = .ok t) :
    Slots (t.client c) (i + 1) qs ∧
      (t.client c).multcmds.length = (s.client c).multcmds.length := by
  obtain ⟨cmd, u, -, hu, rfl⟩ := hand_ok.mp h
  obtain ⟨h₁, h₂, -⟩ := processCommand_queue hconn ha hu
  rw [clearSlot, modifyClient_self]
  simp only [execLoad, modifyClient_self] at h₁ h₂
  refine ⟨hs.tail h₂ fun j hj => ?_, by rw [List.length_modify, h₁, List.length_set]⟩
  dsimp only
  rw [List.getElem?_modify_ne _ _ (Ne.symm hj), h₁, List.getElem?_set_ne (Ne.symm hj)]

/-- A request that is no MULTI, run, leaves the client outside a transaction. -/
theorem hand_multi (hconn : env.connect ≠ some c) (ha : Accepted q) (hm : ¬ IsMulti q)
    (hoff : (s.client c).flags.multi = false) (h : hand env depth c i q s = .ok t) :
    (t.client c).flags.multi = false := by
  obtain ⟨cmd, v, -, hv, rfl⟩ := hand_ok.mp h
  rw [clearSlot, modifyClient_self]
  dsimp only
  rw [(processCommand_queue hconn ha hv).2.2]
  refine clientAfter_multi hm ?_
  rw [execLoad, modifyClient_self]
  exact hoff

/-- What a loop needs of the queue is there for the rest of it. -/
theorem hand_rest (hconn : env.connect ≠ some c) (ha : Accepted q)
    (hs : Slots (s.client c) i (q :: qs)) (hm : ∀ q' ∈ (q :: qs).dropLast, ¬ IsMulti q')
    (hoff : (s.client c).flags.multi = false) (h : hand env depth c i q s = .ok t) :
    Slots (t.client c) (i + 1) qs ∧ (∀ q' ∈ qs.dropLast, ¬ IsMulti q') ∧
      (qs = [] ∨ (t.client c).flags.multi = false) := by
  refine ⟨(hand_slots hconn ha hs h).1, fun q' h' => ?_, ?_⟩
  · cases qs with
    | nil => cases h'
    | cons q'' qs => exact hm q' (by rw [List.dropLast_cons_cons]; exact List.mem_cons_of_mem _ h')
  · cases qs with
    | nil => exact .inl rfl
    | cons q'' qs => exact .inr (hand_multi hconn ha (hm q (by simp)) hoff h)

/-- Outside a transaction a request from the queue is not queued again. -/
theorem load_runs {cmd : Sds} (ha : Accepted q) (hoff : (s.client c).flags.multi = false) :
    ¬ Queues (execLoad s c i cmd) c q := by
  rw [queues_iff ha, execLoad, modifyClient_self]
  simp [hoff]

/-! ## The whole loop -/

theorem execLoop_hands (hconn : env.connect ≠ some c) {qs : List (List Bytes)} {fuel : Nat}
    (hs : Slots (s.client c) i qs) (hq : ∀ q ∈ qs, Request q ∧ Accepted q)
    (hm : ∀ q ∈ qs.dropLast, ¬ IsMulti q)
    (hmulti : qs = [] ∨ (s.client c).flags.multi = false) (hfuel : qs.length < fuel) :
    execLoop (processClientQueryBuf env (depth + 1)) c fuel i s = .ok t ↔
      handAll env depth c i qs s = .ok t := by
  induction qs generalizing s i fuel with
  | nil =>
    obtain ⟨fuel, rfl⟩ : ∃ n, fuel = n + 1 := ⟨fuel - 1, by simp at hfuel; omega⟩
    have hcount : ¬ i < (s.client c).multiCmdCount := by rw [hs.1, List.length_nil]; omega
    rw [execLoop_succ, handAll]
    simp only [hcount, not_false_eq_true, true_and, false_and, or_false, Except.ok.injEq]
    exact eq_comm
  | cons q qs ih =>
    obtain ⟨fuel, rfl⟩ : ∃ n, fuel = n + 1 := ⟨fuel - 1, by rw [List.length_cons] at hfuel; omega⟩
    obtain ⟨hi, cmd, hcmd, hcontent⟩ := hs.head
    obtain ⟨hr, ha⟩ := hq q List.mem_cons_self
    have hoff : (s.client c).flags.multi = false := hmulti.resolve_left (by simp)
    have hnq : ¬ Queues (execLoad s c i cmd) c q := load_runs ha hoff
    have hrest : ∀ u, hand env depth c i q s = .ok u →
        (execLoop (processClientQueryBuf env (depth + 1)) c fuel (i + 1) u = .ok t ↔
          handAll env depth c (i + 1) qs u = .ok t) := by
      intro u hu
      obtain ⟨hslots, hmultis, hnext⟩ := hand_rest hconn ha hs hm hoff hu
      exact ih hslots (fun q' h' => hq q' (List.mem_cons_of_mem _ h')) hmultis hnext
        (by rw [List.length_cons] at hfuel; omega)
    have hquery : ∀ u, processClientQueryBuf env (depth + 1) (execLoad s c i cmd) c = .ok u ↔
        processCommand (processClientQueryBuf env depth) env (execLoad s c i cmd) c q = .ok u := by
      intro u
      rw [query_iff hr (by rw [execLoad_content, hcontent])]
      simp [hnq]
    rw [execLoop_succ, handAll, bind_ok]
    simp only [hi, not_true_eq_false, false_and, true_and, false_or, hcmd, Option.some.injEq,
      exists_and_left, exists_eq_left', hquery]
    constructor
    · rintro ⟨u, hu, h⟩
      have hh : hand env depth c i q s = .ok (clearSlot u c i) := hand_ok.mpr ⟨cmd, u, hcmd, hu, rfl⟩
      exact ⟨_, hh, (hrest _ hh).mp h⟩
    · rintro ⟨v, hh, h⟩
      obtain ⟨cmd', u, hcmd', hu, rfl⟩ := hand_ok.mp hh
      rw [hcmd] at hcmd'
      cases hcmd'
      exact ⟨u, hu, (hrest _ hh).mpr h⟩

/-- While the client collects a transaction, each round queues what it should run:
the loop ends only behind the last place. -/
theorem execLoop_requeues {fuel : Nat} (hmulti : (s.client c).flags.multi = true)
    (hi : i < (s.client c).multiCmdCount)
    (hs : ∀ j, i ≤ j → j < (s.client c).multiCmdCount → ∃ cmd q,
      (s.client c).multcmds[j]? = some cmd ∧ cmd.content = respEncodeArrayString q ∧
        Request q ∧ Accepted q) :
    execLoop (processClientQueryBuf env (depth + 1)) c fuel i s = .error .undefined := by
  induction fuel generalizing s i with
  | zero => rfl
  | succ fuel ih =>
    obtain ⟨cmd, q, hcmd, hcontent, hr, ha⟩ := hs i (Nat.le_refl i) hi
    have hload : ((execLoad s c i cmd).client c).readBuf.content = respEncodeArrayString q := by
      rw [execLoad_content, hcontent]
    have hqs : Queues (execLoad s c i cmd) c q := by
      rw [queues_iff ha, execLoad, modifyClient_self]
      exact hmulti
    rw [execLoop_step hi hcmd, query_queues hr hload hqs]
    cases hu : queueCommand (execLoad s c i cmd) c with
    | error e =>
      rw [error_bind, queueCommand_error hu]
    | ok u =>
      rw [ok_bind]
      obtain ⟨free, hfree, rfl⟩ := queueCommand_ok.mp hu
      have hnew : (sdscatsds (sdsclear free) ((execLoad s c i cmd).client c).readBuf).1.content =
          respEncodeArrayString q :=
        (content_sdscatlen _ _).trans (by rw [content_sdsclear, List.nil_append, hload])
      refine ih (s := clearSlot _ c i) (i := i + 1) ?_ ?_ ?_
      · simpa [clearSlot, clearReadBuf, addWrite, execLoad] using hmulti
      · simp [clearSlot, clearReadBuf, addWrite, execLoad]
        omega
      · intro j hij hj
        simp only [clearSlot, clearReadBuf, addWrite, execLoad, modifyClient_self] at hj hfree hnew ⊢
        have hlt := (List.getElem?_eq_some_iff.mp hfree).1
        rw [List.length_set] at hlt
        rw [List.getElem?_modify_ne _ _ (by omega)]
        by_cases hjc : j = (s.client c).multiCmdCount
        · subst hjc
          exact ⟨_, q, by rw [List.getElem?_set_self (by simpa using hlt)], hnew, hr, ha⟩
        · rw [List.getElem?_set_ne (Ne.symm hjc), List.getElem?_set_ne (by omega)]
          exact hs j (by omega) (by omega)

/-- A MULTI that is not the last in the queue makes EXEC leave the queue's places. -/
theorem execLoop_overruns (hconn : env.connect ≠ some c) {qs : List (List Bytes)} {fuel : Nat}
    (hs : Slots (s.client c) i qs) (hq : ∀ q ∈ qs, Request q ∧ Accepted q)
    (hm : ∃ q ∈ qs.dropLast, IsMulti q) (hmulti : (s.client c).flags.multi = false) :
    execLoop (processClientQueryBuf env (depth + 1)) c fuel i s ≠ .ok t := by
  intro h
  induction qs generalizing s i fuel with
  | nil =>
    obtain ⟨q, hq, -⟩ := hm
    cases hq
  | cons q qs ih =>
    cases fuel with
    | zero => cases h
    | succ fuel =>
      obtain ⟨hi, cmd, hcmd, hcontent⟩ := hs.head
      obtain ⟨hr, ha⟩ := hq q List.mem_cons_self
      obtain ⟨hn, -⟩ | ⟨-, cmd', u, hcmd', hu, h⟩ := execLoop_succ.mp h
      · exact hn hi
      rw [hcmd] at hcmd'
      cases hcmd'
      have hnq : ¬ Queues (execLoad s c i cmd) c q := by
        rw [queues_iff ha, execLoad, modifyClient_self]
        simp [hmulti]
      obtain ⟨hqs, -⟩ | ⟨-, hu⟩ := (query_iff hr (by rw [execLoad_content, hcontent])).mp hu
      · exact hnq hqs
      have hslots := (hand_slots hconn ha hs (hand_ok.mpr ⟨cmd, u, hcmd, hu, rfl⟩)).1
      have hflag := (processCommand_queue hconn ha hu).2.2
      obtain ⟨m, hmem, hmm⟩ := hm
      cases qs with
      | nil => cases hmem
      | cons q' qs =>
        rw [List.dropLast_cons_cons] at hmem
        by_cases hqm : IsMulti q
        · refine absurd (h.symm.trans (execLoop_requeues (s := clearSlot u c i) ?_ ?_ ?_)) (by simp)
          · rw [clearSlot, modifyClient_self]
            dsimp only
            rw [hflag]
            simp [clientAfter, found_multi hr hqm, multiEntry, clientEffect]
          · rw [hslots.1, List.length_cons]
            omega
          · intro j hij hj
            exact hslots.request (fun q'' h'' => hq q'' (List.mem_cons_of_mem _ h'')) hij hj
        · refine ih hslots (fun q'' h'' => hq q'' (List.mem_cons_of_mem _ h'')) ?_ ?_ h
          · rcases List.mem_cons.mp hmem with rfl | hmem
            · exact absurd hmm hqm
            · exact ⟨m, hmem, hmm⟩
          · rw [clearSlot, modifyClient_self]
            dsimp only
            rw [hflag]
            refine clientAfter_multi hqm ?_
            rw [execLoad, modifyClient_self]
            exact hmulti

/-! ## EXEC -/

/-- Between the two states, exactly these requests of the client went to
`processCommand`, in this order. -/
def Handed (s s' : RedisServer) (c : ClientId) (qs : List (List Bytes)) : Prop :=
  ∃ new, s'.calls = s.calls ++ new ∧
    new.map (fun call => (call.client, call.argv)) = qs.map fun q => (c, q)

theorem handAll_handed (hq : ∀ q ∈ qs, Accepted q) (h : handAll env depth c i qs s = .ok t) :
    Handed s t c qs := by
  induction qs generalizing s i with
  | nil =>
    cases h
    exact ⟨[], by simp, rfl⟩
  | cons q qs ih =>
    obtain ⟨u, hu, h⟩ := bind_ok.mp h
    obtain ⟨cmd, v, -, hv, rfl⟩ := hand_ok.mp hu
    obtain ⟨new, e, hnew⟩ := ih (fun q' h' => hq q' (List.mem_cons_of_mem _ h')) h
    have hcall := processCommand_calls (notExec_of_accepted (hq q List.mem_cons_self)) hv
    refine ⟨callOf (execLoad s c i cmd) c q :: new, ?_, by simp [hnew, callOf]⟩
    have hc : (clearSlot v c i).calls = v.calls := rfl
    rw [e, hc, hcall, List.append_assoc]
    rfl

/-- The client has queued these requests. -/
structure Queued (s : RedisServer) (c : ClientId) (qs : List (List Bytes)) : Prop where
  slots : Slots (s.client c) 0 qs
  requests : ∀ q ∈ qs, Request q ∧ Accepted q

theorem Queued.length_le (h : Queued s c qs) : qs.length ≤ (s.client c).multcmds.length := by
  by_contra hlt
  obtain ⟨cmd, hcmd, -⟩ := h.slots.2 (s.client c).multcmds.length _
    (List.getElem?_eq_getElem (by omega))
  rw [Nat.zero_add, List.getElem?_eq_none (Nat.le_refl _)] at hcmd
  cases hcmd

/-- **EXEC without a failed watch** returns after handing exactly the queued
requests to `processCommand` iff none of them but the last is MULTI, and each in
turn returns. -/
theorem exec_iff (hconn : env.connect ≠ some c) (hq : Queued s c qs)
    (hd : (s.client c).flags.dirtyCas = false) :
    (∃ s', commandExecProc (processClientQueryBuf env (depth + 1)) s c = .ok s' ∧
        Handed s s' c qs) ↔
      (∀ q ∈ qs.dropLast, ¬ IsMulti q) ∧
        ∃ t, handAll env depth c 0 qs (execStart s c) = .ok t := by
  have hslots : Slots ((execStart s c).client c) 0 qs := by
    rw [execStart, modifyClient_self]
    exact hq.slots
  have hmulti : ((execStart s c).client c).flags.multi = false := by
    rw [execStart, modifyClient_self]
    rfl
  have hfuel : qs.length < (s.client c).multcmds.length + 1 := by
    have := hq.length_le
    omega
  simp only [commandExecProc_ok, hd, Bool.false_eq_true, if_false]
  constructor
  · rintro ⟨s', ⟨t, ht, rfl⟩, -⟩
    have hm : ∀ q ∈ qs.dropLast, ¬ IsMulti q := fun q hmem hqm =>
      execLoop_overruns hconn hslots hq.requests ⟨q, hmem, hqm⟩ hmulti ht
    exact ⟨hm, t, (execLoop_hands hconn hslots hq.requests hm (.inr hmulti) hfuel).mp ht⟩
  · rintro ⟨hm, t, ht⟩
    refine ⟨_, ⟨t, (execLoop_hands hconn hslots hq.requests hm (.inr hmulti) hfuel).mpr ht, rfl⟩, ?_⟩
    have hh := handAll_handed (fun q h => (hq.requests q h).2) ht
    exact hh

/-- How a request comes into the queue. -/
theorem read_queues (hq : Queued s c qs) (hr : Request q) (ha : Accepted q)
    (hlen : (respEncodeArrayString q).length < 1024) (hl : (s.client c).readBuf.len = 0)
    (hm : (s.client c).flags.multi = true) (hfree : qs.length < (s.client c).multcmds.length) :
    ∃ s', readFromClient env s c (respEncodeArrayString q) = .ok s' ∧ Queued s' c (qs ++ [q]) := by
  have hcount : (s.client c).multiCmdCount = qs.length := by rw [hq.slots.1, Nat.zero_add]
  have hcontent : ((received s c (respEncodeArrayString q)).client c).readBuf.content =
      respEncodeArrayString q := by
    rw [received_content hl, cstr_eq_self (encode_ne_zero q)]
  have hslot : ((received s c (respEncodeArrayString q)).client c).multcmds[
      ((received s c (respEncodeArrayString q)).client c).multiCmdCount]? =
        some (s.client c).multcmds[qs.length] := by
    rw [received, modifyClient_self]
    dsimp only
    rw [hcount, List.getElem?_eq_getElem hfree]
  refine ⟨_, (read_request hr hlen hl).mpr ⟨_, .inl ⟨(queues_iff ha).mpr hm,
    queueCommand_ok.mpr ⟨_, hslot, rfl⟩⟩, rfl⟩, ?_⟩
  have hnew : (sdscatsds (sdsclear (s.client c).multcmds[qs.length])
      ((received s c (respEncodeArrayString q)).client c).readBuf).1.content =
        respEncodeArrayString q :=
    (content_sdscatlen _ _).trans (by rw [content_sdsclear, List.nil_append, hcontent])
  refine ⟨⟨?_, fun j q' hj => ?_⟩, fun q' h' => ?_⟩
  · simp [clearReadBuf, addWrite, received, hcount]
  · simp only [clearReadBuf, addWrite, modifyClient_self, Nat.zero_add]
    simp only [received, modifyClient_self, hcount] at hnew ⊢
    rcases Nat.lt_trichotomy j qs.length with hlt | rfl | hgt
    · rw [List.getElem?_append_left hlt] at hj
      obtain ⟨cmd, hcmd, hc⟩ := hq.slots.2 j q' hj
      rw [Nat.zero_add] at hcmd
      exact ⟨cmd, by rw [List.getElem?_set_ne (by omega), hcmd], hc⟩
    · rw [List.getElem?_append_right (Nat.le_refl _), Nat.sub_self] at hj
      cases hj
      exact ⟨_, List.getElem?_set_self hfree, hnew⟩
    · rw [List.getElem?_eq_none (by simp; omega)] at hj
      cases hj
  · rcases List.mem_append.mp h' with h' | h'
    · exact hq.requests q' h'
    · rw [List.mem_singleton.mp h']
      exact ⟨hr, ha⟩

end Fedis.Proof.Server

import Fedis.Proof.Server.Queue
import Fedis.Proof.Server.Reads

/-!
# Writes at a slave

`isSupportedCmd` refuses a write command by a bit of the client's flags. REPLCONF
and EXEC overwrite these flags (`replconf_demotes`, `exec_demotes`), and then every
write finds its handler (`found_demoted`). `replica_readonly`: up to the first such
call of a client, all its writes are refused, in every run of a slave.
-/

namespace Fedis.Proof.Server

open Framework Resp Relation

variable {query : RedisServer → ClientId → Except Fault RedisServer} {env : Env}
  {s s' t : RedisServer} {c x : ClientId} {argv : List Bytes} {cmd : RedisCommand}

/-! ## Refused calls -/

/-- No write handler ran, and a request by the name of a write found no command. -/
def Refused (call : Call) : Prop :=
  ∀ cmd ∈ commandsTable, cmd.write = true → call.proc ≠ some cmd.proc ∧
    (strcaseeq cmd.name (call.argv.headD []) = true → call.proc = none)

/-- A call of this client that overwrites its flags. -/
def Demotes (c : ClientId) (call : Call) : Prop :=
  call.client = c ∧ (call.proc = some .replconf ∨ call.proc = some .exec)

/-- Up to the first call that overwrites them, the client's calls are refused. -/
def ReadOnly (c : ClientId) (calls : List Call) : Prop :=
  ∀ pre call post, calls = pre ++ call :: post → call.client = c → (∀ d ∈ pre, ¬ Demotes c d) →
    Refused call

theorem procs_distinct : ∀ a ∈ commandsTable, ∀ b ∈ commandsTable, a.proc = b.proc → a = b := by
  decide

/-- What `lookupCommand` finds is supported. -/
theorem found_supported (h : foundCommand s c argv = some cmd) : isSupportedCmd s c cmd = true := by
  cases argv with
  | nil => cases h
  | cons name args =>
    have h : lookupCommand s c name = some cmd := h
    have := List.find?_some h
    rw [Bool.and_eq_true] at this
    exact this.1

theorem found_read (hs : s.flags.slave = true) (hn : (s.client c).flags.normal = true)
    (h : foundCommand s c argv = some cmd) : cmd.write = false := by
  simpa [isSupportedCmd, hs, hn] using found_supported h

theorem refused_of_normal (hs : s.flags.slave = true) (hn : (s.client c).flags.normal = true) :
    Refused (callOf s c argv) := by
  intro cmd hc hw
  cases hf : foundCommand s c argv with
  | none => simp [callOf, hf]
  | some found =>
    have hread := found_read hs hn hf
    have hne : found ≠ cmd := by
      rintro rfl
      rw [hread] at hw
      cases hw
    simp only [callOf, hf, Option.map_some]
    refine ⟨fun e => hne (procs_distinct _ (mem_table hf) _ hc (Option.some.inj e)), fun hname => ?_⟩
    exact absurd (foundCommand_eq hf hc hname) hne

/-- Without the bit every command is found. -/
theorem found_demoted (hn : (s.client c).flags.normal = false) (ha : argv ≠ [])
    (hc : cmd ∈ commandsTable) (hname : strcaseeq cmd.name (argv.headD []) = true) :
    foundCommand s c argv = some cmd :=
  foundCommand_some ha hc hname (by simp [isSupportedCmd, hn])

/-! ## Histories -/

theorem readOnly_concat {new : List Call} {call : Call} (h : ReadOnly c new)
    (hc : call.client = c → (∀ d ∈ new, ¬ Demotes c d) → Refused call) :
    ReadOnly c (new ++ [call]) := by
  intro pre call' post e hcl hpre
  rcases List.eq_nil_or_concat post with rfl | ⟨post, last, rfl⟩
  · obtain ⟨rfl, rfl⟩ := List.append_inj' e rfl |>.imp_right fun e => (List.cons.inj e).1
    exact hc hcl hpre
  · have e : new ++ [call] = (pre ++ call' :: post) ++ [last] := by simpa using e
    exact h pre call' post (List.append_inj' e rfl).1 hcl hpre

/-- Behind a call that overwrites the flags anything may follow. -/
theorem readOnly_append {new more : List Call} (h : ReadOnly c new) {d : Call} (hd : d ∈ new)
    (hdem : Demotes c d) : ReadOnly c (new ++ more) := by
  intro pre call post e hcl hpre
  rcases List.append_eq_append_iff.mp e with ⟨mid, rfl, -⟩ | ⟨mid, rfl, emid⟩
  · exact absurd hdem (hpre d (List.mem_append_left _ hd))
  · cases mid with
    | nil => exact absurd hdem (hpre d (by simpa using hd))
    | cons call' mid =>
      obtain ⟨rfl, -⟩ := List.cons.inj emid
      exact h pre call mid rfl hcl hpre

/-! ## One read -/

/-- A slave on which this client has its bit, unless it called a command that
overwrites it. -/
structure Guards (base : List Call) (c : ClientId) (s : RedisServer) : Prop where
  slave : s.flags.slave = true
  calls : ∃ new, s.calls = base ++ new ∧ ReadOnly c new ∧
    ((∀ d ∈ new, ¬ Demotes c d) → (s.client c).flags.normal = true)

theorem small_slave (h : Small env c s s') (hs : s.flags.slave = true) : s'.flags.slave = true := by
  cases h with
  | client s f hf => exact hs
  | exec s argv h => exact hs
  | command query s s' argv hne h =>
    obtain ⟨-, ⟨hf, rfl⟩ | ⟨cmd, t, hf, ht, rfl⟩⟩ := processCommand_ok.mp h
    · exact hs
    · have hreplied : (clearReadBuf (replicate t c cmd) c).flags = t.flags :=
        replied_field (·.flags) fun _ _ _ _ _ => rfl
      rw [hreplied, (executed_server (hne cmd hf) ht).flags]
      split
      · rfl
      · exact hs

theorem read_slave {nread : Bytes} (h : readFromClient env s c nread = .ok s')
    (hs : s.flags.slave = true) : s'.flags.slave = true :=
  read_invariant small_slave h hs

/-- The bit after a call that is not EXEC. -/
theorem clientAfter_normal (hd : ¬ Demotes c (callOf s x argv)) :
    (clientAfter s x argv c).flags.normal = (s.client c).flags.normal := by
  unfold clientAfter
  split
  · rfl
  · rename_i cmd hf
    split
    · split <;> rfl
    · split
      · rename_i hx
        subst hx
        unfold clientEffect
        split
        · rename_i hp
          exact absurd ⟨rfl, .inl (by simp [callOf, hf, hp])⟩ hd
        · rfl
        · split <;> rfl
        · rfl
      · rfl

/-- The small steps of another client. -/
theorem small_guards {base : List Call} (hx : env.connect ≠ some c) (hne : x ≠ c)
    (h : Small env x s s') (hg : Guards base c s) : Guards base c s' := by
  refine ⟨small_slave h hg.slave, ?_⟩
  obtain ⟨new, e, hr, hn⟩ := hg.calls
  have other : ∀ s argv, ¬ Demotes c (callOf s x argv) := fun s argv hd => hne hd.1
  cases h with
  | client s f hf =>
    refine ⟨new, e, hr, fun hd => ?_⟩
    rw [modifyClient_of_ne _ _ _ (Ne.symm hne)]
    exact hn hd
  | exec s argv h =>
    refine ⟨new ++ [callOf s x argv], by rw [logCall, e, List.append_assoc],
      readOnly_concat hr fun h => absurd h hne, fun hd => hn fun d hm => hd d ?_⟩
    exact List.mem_append_left _ hm
  | command query s s' argv hnot h =>
    refine ⟨new ++ [callOf s x argv], by rw [processCommand_calls hnot h, e, List.append_assoc],
      readOnly_concat hr fun h => absurd h hne, fun hd => ?_⟩
    rw [core_flags (processCommand_core hnot h fun _ _ _ => hx), clientAfter_normal (other s argv)]
    exact hn fun d hm => hd d (List.mem_append_left _ hm)

/-- A request of the client itself. -/
theorem own_query {base : List Call} (hx : env.connect ≠ some c) {depth : Nat}
    (h : processClientQueryBuf env (depth + 1) s c = .ok s') (hg : Guards base c s)
    (hs : s'.flags.slave = true) : Guards base c s' := by
  obtain ⟨new, e, hr, hn⟩ := hg.calls
  obtain ⟨-, rfl⟩ | ⟨argv, -, -, ⟨-, h⟩ | ⟨-, h⟩⟩ := processClientQueryBuf_ok.mp h
  · exact hg
  · obtain ⟨cmd, -, rfl⟩ := queueCommand_ok.mp h
    exact ⟨hs, new, e, hr, fun hd => by simpa [clearReadBuf, addWrite] using hn hd⟩
  have hcall : Refused (callOf s c argv) ∨ ∃ d ∈ new, Demotes c d := by
    by_cases hd : ∀ d ∈ new, ¬ Demotes c d
    · exact .inl (refused_of_normal hg.slave (hn hd))
    · push Not at hd
      exact .inr hd
  have hconcat : ReadOnly c (new ++ [callOf s c argv]) :=
    readOnly_concat hr fun _ hd => hcall.resolve_right fun hex => hex.elim fun d h => hd d h.1 h.2
  by_cases hnot : NotExec s c argv
  · refine ⟨hs, new ++ [callOf s c argv], by rw [processCommand_calls hnot h, e, List.append_assoc],
      hconcat, fun hd => ?_⟩
    rw [core_flags (processCommand_core hnot h fun _ _ _ => hx),
      clientAfter_normal (hd _ (by simp))]
    exact hn fun d hm => hd d (List.mem_append_left _ hm)
  · -- EXEC comes before the calls of its queue
    obtain ⟨cmd, hf, hp⟩ := exec_found hnot
    obtain ⟨t, ht, rfl⟩ := processCommand_exec hnot h
    have hdem : Demotes c (callOf s c argv) := ⟨rfl, .inr (by simp [callOf, hf, hp])⟩
    have steps : ReflTransGen (Small env c) (logCall s c argv) t := small_exec small_query ht
    obtain ⟨more, em⟩ := chain_calls steps
    refine ⟨hs, new ++ [callOf s c argv] ++ more, ?_, readOnly_append hconcat (by simp) hdem,
      fun hd => absurd hdem (hd _ (by simp))⟩
    rw [clearReadBuf_calls, em, logCall, e]
    simp

theorem read_guards {base : List Call} {nread : Bytes} (hx : env.connect ≠ some c)
    (h : readFromClient env s x nread = .ok s') (hg : Guards base c s) : Guards base c s' := by
  have hs := read_slave h hg.slave
  by_cases hne : x = c
  · subst hne
    obtain ⟨new, e, hr, hn⟩ := hg.calls
    obtain ⟨-, rfl⟩ | ⟨-, -, t, ht, rfl⟩ := readFromClient_ok.mp h
    · exact ⟨hs, new, e, hr, fun hd => by simpa [clientToclose] using hn hd⟩
    · have hg' : Guards base x (received s x nread) :=
        ⟨hg.slave, new, e, hr, fun hd => by rw [core_flags (received_core nread)]; exact hn hd⟩
      obtain ⟨new', e', hr', hn'⟩ := (own_query hx ht hg' hs).calls
      exact ⟨hs, new', e', hr', fun hd => by rw [core_flags clearReadBuf_core]; exact hn' hd⟩
  · exact read_invariant (small_guards hx hne) h hg

/-! ## The bit goes -/

theorem replconf_demotes (hx : env.connect ≠ some c) (hf : foundCommand s c argv = some cmd)
    (hp : cmd.proc = .replconf) (h : processCommand query env s c argv = .ok s') :
    (s'.client c).flags.normal = false := by
  have hw : ∀ cmd ∈ commandsTable, cmd.proc = .replconf → cmd.write = false := by decide
  have hne : NotExec s c argv := (notExec_found hf).mpr (by rw [hp]; decide)
  rw [core_flags (processCommand_core hne h fun _ _ _ => hx)]
  simp [clientAfter, hf, hw cmd (mem_table hf) hp, clientEffect, hp, ClientFlags.REDIS_CLIENT_SLAVE,
    ClientFlags.zero]

/-- The queue runs without the bit. -/
theorem exec_demotes (s : RedisServer) (c : ClientId) :
    ((execStart s c).client c).flags.normal = false := by
  simp [execStart, ClientFlags.andDirtyCas, ClientFlags.zero]

/-! ## Runs -/

/-- **A slave is read-only for a client**, in every run, up to the client's first
call of REPLCONF or EXEC. -/
theorem replica_readonly {s₀ : RedisServer} {reads : List Read} {us : List Unit}
    (hs : s₀.flags.slave = true) (hn : (s₀.client c).flags.normal = true)
    (hx : ∀ r ∈ reads, r.env.connect ≠ some c) (h : run serve s₀ reads = some (us, s)) :
    ∃ new, s.calls = s₀.calls ++ new ∧ ReadOnly c new := by
  have hg : Guards s₀.calls c s := by
    refine run_invariant (I := Guards s₀.calls c) (P := fun _ r => r.env.connect ≠ some c)
      (fun _ _ _ _ hg hx h => read_guards hx (serve_ok.mp h) hg) reads ⟨hs, [], by simp, ?_, fun _ => hn⟩
      (along_of_forall fun r hr _ => hx r hr) h
    intro pre call post e
    simp at e
  obtain ⟨new, e, hr, -⟩ := hg.calls
  exact ⟨new, e, hr⟩

/-- A slave with one client. -/
def sampleReplica : RedisServer :=
  acceptTcpHandler (initServer 2 ⟨false, true, false⟩ 1 false) 7 (bytes "127.0.0.1") 5000

theorem replica_readonly_set : ∃ s, run serve sampleReplica
      [sampleRead 7 [bytes "SET", bytes "k", bytes "v"]] = some ([()], s) ∧
    ∃ new, s.calls = sampleReplica.calls ++ new ∧ ReadOnly 7 new := by
  have hall : (run serve sampleReplica [sampleRead 7 [bytes "SET", bytes "k", bytes "v"]]).map
      (·.1) = some [()] := by decide
  obtain ⟨⟨us, s⟩, hrun, rfl⟩ := Option.map_eq_some_iff.mp hall
  exact ⟨s, hrun, replica_readonly rfl rfl (by decide) hrun⟩

/-- REPLCONF, or an EXEC, and the slave takes the client's SET. -/
theorem replica_writes : (∃ us s, run serve sampleReplica
      [sampleRead 7 [bytes "REPLCONF", bytes "listen-port", bytes "1"],
        sampleRead 7 [bytes "SET", bytes "k", bytes "v"]] = some (us, s) ∧
      s.calls.map (·.proc) = [some .replconf, some .set] ∧ kvAt s 0 (bytes "k") ≠ none) ∧
    ∃ us s, run serve sampleReplica
      [sampleRead 7 [bytes "MULTI"], sampleRead 7 [bytes "SET", bytes "k", bytes "v"],
        sampleRead 7 [bytes "EXEC"]] = some (us, s) ∧
      s.calls.map (·.proc) = [some .multi, some .exec, some .set] ∧ kvAt s 0 (bytes "k") ≠ none := by
  have conf : (run serve sampleReplica
      [sampleRead 7 [bytes "REPLCONF", bytes "listen-port", bytes "1"],
        sampleRead 7 [bytes "SET", bytes "k", bytes "v"]]).map
      (fun r => (r.2.calls.map (·.proc), (kvAt r.2 0 (bytes "k")).isSome)) =
        some ([some .replconf, some .set], true) := by decide +kernel
  have exec : (run serve sampleReplica
      [sampleRead 7 [bytes "MULTI"], sampleRead 7 [bytes "SET", bytes "k", bytes "v"],
        sampleRead 7 [bytes "EXEC"]]).map
      (fun r => (r.2.calls.map (·.proc), (kvAt r.2 0 (bytes "k")).isSome)) =
        some ([some .multi, some .exec, some .set], true) := by decide
  obtain ⟨⟨us, s⟩, hrun, hs⟩ := Option.map_eq_some_iff.mp conf
  obtain ⟨⟨us', s'⟩, hrun', hs'⟩ := Option.map_eq_some_iff.mp exec
  obtain ⟨hc, hk⟩ := Prod.mk.inj hs
  obtain ⟨hc', hk'⟩ := Prod.mk.inj hs'
  exact ⟨⟨us, s, hrun, hc, Option.isSome_iff_ne_none.mp hk⟩,
    us', s', hrun', hc', Option.isSome_iff_ne_none.mp hk'⟩

end Fedis.Proof.Server

import Fedis.Proof.Server.Reads

/-!
# Why EXEC is refused

`Watch.lean` says that a failed watch shows. This is the converse: a client is marked only
if a key that it watched was written afterwards (`run_traced`). Nothing unmarks it and
nothing ends a watch but a write (`refused_stays`), so that the reason may lie before the
client's previous EXEC; `exec_refused_for` is when it does not.
-/

namespace Fedis.Proof.Server

open Framework Resp Relation

variable {query : RedisServer → ClientId → Except Fault RedisServer} {env : Env}
  {s s' t : RedisServer} {c x : ClientId} {argv : List Bytes} {cmd : RedisCommand} {i : Nat}
  {k : Bytes}

/-! ## One call -/

/-- The client object that SLAVEOF takes for the connection is not marked. -/
theorem connectMaster_unmarked (hm : s.master = none) (hx : env.connect = some x) :
    ((connectMaster env s).client x).flags.dirtyCas = false := by
  rw [connectMaster_fresh hm hx]
  rfl

/-- A call marks a client only if it writes a key that the client watches. -/
theorem call_marked (hne : NotExec s c argv) (h : processCommand query env s c argv = .ok s')
    (hd : (s'.client x).flags.dirtyCas = true) :
    (s.client x).flags.dirtyCas = true ∨
      ∃ i k, WritesKey i k (callOf s c argv) ∧ x ∈ watchersAt s i k := by
  by_cases hap : ∀ cmd, foundCommand s c argv = some cmd → Apart env cmd.proc x
  · have hcore := core_flags (processCommand_core hne h hap)
    obtain ⟨-, ⟨hf, -⟩ | ⟨cmd, t, hf, ht, -⟩⟩ := processCommand_ok.mp h
    · rw [hcore, clientAfter, hf] at hd
      exact .inl hd
    rw [hcore, clientAfter, hf] at hd
    dsimp only at hd
    split at hd
    · rename_i hw
      split at hd
      · rename_i hmem
        obtain ⟨-, db, -, hdb⟩ := executed_getDb ht (by simp [hw])
        have hpos : 0 ≤ (s.client c).db := (getDb_ok.mp hdb).1
        refine .inr ⟨_, _, ⟨?_, rfl, ?_⟩, hmem⟩
        · exact (Int.toNat_of_nonneg hpos).symm
        · rw [callOf, hf]
          simpa using write_proc cmd (mem_table hf) hw
      · exact .inl hd
    · split at hd
      · rename_i e
        subst e
        left
        unfold clientEffect at hd
        split at hd
        · cases hd
        · exact hd
        · split at hd <;> exact hd
        · exact hd
      · exact .inl hd
  · obtain ⟨cmd, hf, hp, hx⟩ : ∃ cmd, foundCommand s c argv = some cmd ∧ cmd.proc = .slaveof ∧
        env.connect = some x := by
      simpa [Apart] using hap
    obtain ⟨t, ht, rfl⟩ := processCommand_slaveof hf hp h
    obtain ⟨_, _, _, _, -, -, hm, rfl⟩ := commandSlaveofProc_ok.mp ht
    rw [core_flags (clearReadBuf_core ..), connectMaster_unmarked (by exact hm) hx] at hd
    cases hd

/-! ## The history -/

/-- What the state shows of the client's watches has its cause in the history. -/
structure Traced (x : ClientId) (s : RedisServer) (calls : List Call) : Prop where
  armed : ∀ i k, x ∈ watchersAt s i k → Armed (WatchesKey x i k) calls
  tripped : (s.client x).flags.dirtyCas = true →
    ∃ i k, Tripped (WatchesKey x i k) (WritesKey i k) calls

theorem small_traced {base new : List Call} (h : Small env c s s') (hs : s.calls = base ++ new)
    (ht : Traced x s new) : ∃ new', s'.calls = base ++ new' ∧ Traced x s' new' := by
  cases h with
  | client s f hf =>
    have hd := modifyClient_field s c f (·.flags.dirtyCas) (fun client => (hf client).2) x
    exact ⟨new, hs, ht.armed, fun h => ht.tripped (hd.symm.trans h)⟩
  | exec s argv h =>
    refine ⟨new ++ [callOf s c argv], by rw [logCall, hs, List.append_assoc], ?_, ?_⟩
    · exact fun i k hw => (ht.armed i k hw).append _
    · intro hd
      obtain ⟨i, k, htrip⟩ := ht.tripped hd
      exact ⟨i, k, htrip.append _⟩
  | command query s s' argv hne h =>
    refine ⟨new ++ [callOf s c argv], by rw [processCommand_calls hne h, hs, List.append_assoc], ?_, ?_⟩
    · intro i k hw
      rcases call_adds hne h hw with hold | hnew
      · exact (ht.armed i k hold).append _
      · exact armed_concat.mpr (.inr hnew)
    · intro hd
      rcases call_marked hne h hd with hold | ⟨i, k, hwrite, hmem⟩
      · obtain ⟨i, k, htrip⟩ := ht.tripped hold
        exact ⟨i, k, htrip.append _⟩
      · exact ⟨i, k, (ht.armed i k hmem).tripped ⟨_, List.mem_singleton_self _, hwrite⟩⟩

theorem read_traced {base : List Call} {nread : Bytes} (h : readFromClient env s c nread = .ok s')
    (hs : ∃ new, s.calls = base ++ new ∧ Traced x s new) :
    ∃ new, s'.calls = base ++ new ∧ Traced x s' new := by
  refine read_invariant (I := fun t => ∃ new, t.calls = base ++ new ∧ Traced x t new)
    (fun hstep hs => ?_) h hs
  obtain ⟨new, e, ht⟩ := hs
  exact small_traced hstep e ht

/-- **A mark has its cause in the run.** -/
theorem run_traced {s₀ : RedisServer} {reads : List Read} {us : List Unit} (hu : Unwatched s₀ x)
    (hd : (s₀.client x).flags.dirtyCas = false)
    (h : run serve s₀ reads = some (us, s)) : ∃ new, s.calls = s₀.calls ++ new ∧ Traced x s new :=
  run_keeps (I := fun s => ∃ new, s.calls = s₀.calls ++ new ∧ Traced x s new)
    (fun _ _ _ _ hs h => read_traced (serve_ok.mp h) hs)
    ⟨[], (List.append_nil _).symm, fun i k hw => absurd hw (hu i k), fun h => by rw [hd] at h; cases h⟩ h

/-! ## EXEC -/

section Exec

variable (hr : Request argv) (hn : strcaseeq (bytes "EXEC") (argv.headD []) = true)
  (hlen : (respEncodeArrayString argv).length < 1024) (hl : (s.client c).readBuf.len = 0)
include hr hn hlen hl

/-- After an EXEC that was refused the client is as marked as before. -/
theorem refused_stays (hd : (s.client c).flags.dirtyCas = true)
    (h : readFromClient env s c (respEncodeArrayString argv) = .ok s') :
    (s'.client c).flags.dirtyCas = true := by
  obtain ⟨t, ht, rfl⟩ := (read_exec hr hn hlen hl).mp h
  set s₁ := logCall (received s c (respEncodeArrayString argv)) c argv with hs₁
  have hd₁ : (s₁.client c).flags.dirtyCas = true := by
    rw [hs₁, logCall, received, modifyClient_self]
    exact hd
  have ht := commandExecProc_ok.mp ht
  rw [if_pos hd₁] at ht
  subst ht
  rw [core_flags (clearReadBuf_core ..), core_flags (clearReadBuf_core ..), execFinish, modifyClient_self]
  change ((addWrite (execStart s₁ c) c _).client c).flags.dirtyCas = true
  rw [core_flags (addWrite_core ..), execStart, modifyClient_self]
  exact hd₁

/-- An EXEC that is not refused replies in another way. -/
theorem refused_dirty (h : readFromClient env s c (respEncodeArrayString argv) = .ok s')
    (href : bulkString (bytes "err dirty") <:+ (s'.client c).writeBuf.content) :
    (s.client c).flags.dirtyCas = true := by
  by_contra hd
  obtain ⟨t, ht, rfl⟩ := (read_exec hr hn hlen hl).mp h
  have hd₁ : ¬ ((logCall (received s c (respEncodeArrayString argv)) c argv).client c).flags.dirtyCas =
      true := by
    rw [logCall, received, modifyClient_self]
    exact hd
  have ht := commandExecProc_ok.mp ht
  rw [if_neg hd₁] at ht
  obtain ⟨u, -, rfl⟩ := ht
  rw [writeBuf_clearReadBuf, writeBuf_clearReadBuf, execFinish, modifyClient_self] at href
  change _ <:+ ((addWrite u c _).client c).writeBuf.content at href
  rw [addWrite_content] at href
  obtain ⟨pre, e⟩ := href
  have herr : bulkString (bytes "err dirty") = bytes "$9\r\nerr dirt" ++ [121, 13, 10] := by
    decide
  have hok : cstr (bulkString (bytes "Exec ok")) = bytes "$7\r\nExec o" ++ [107, 13, 10] := by
    decide
  rw [herr, hok, ← List.append_assoc, ← List.append_assoc] at e
  cases (List.append_inj' e rfl).2

end Exec

/-- An EXEC of the client. -/
def ExecCall (x : ClientId) (call : Call) : Prop := call.client = x ∧ call.proc = some .exec

/-- A reason to refuse: a key that the client put under watch after its last EXEC has been
written since. -/
def Reason (x : ClientId) (calls : List Call) : Prop :=
  ∃ i k pre w post, calls = pre ++ w :: post ∧ WatchesKey x i k w ∧ (∀ e ∈ post, ¬ ExecCall x e) ∧
    ∃ b ∈ post, WritesKey i k b

/-- No EXEC of the client comes after a WATCH of it. -/
def WatchesLast (x : ClientId) (calls : List Call) : Prop :=
  ∀ pre w post, calls = pre ++ w :: post → (∃ i k, WatchesKey x i k w) → ∀ e ∈ post, ¬ ExecCall x e

/-- **EXEC is refused only for a reason**, as long as none of the client's earlier EXECs came
after a WATCH of it. -/
theorem exec_refused_for {s₀ : RedisServer} {reads : List Read} {us : List Unit}
    (hi : Idle s₀) (hu : Unwatched s₀ x) (hd : (s₀.client x).flags.dirtyCas = false)
    (hrun : run serve s₀ reads = some (us, s))
    (hr : Request argv) (hn : strcaseeq (bytes "EXEC") (argv.headD []) = true)
    (hlen : (respEncodeArrayString argv).length < 1024)
    (h : readFromClient env s x (respEncodeArrayString argv) = .ok s')
    (href : bulkString (bytes "err dirty") <:+ (s'.client x).writeBuf.content)
    (hlast : WatchesLast x (s.calls.drop s₀.calls.length)) :
    Reason x (s.calls.drop s₀.calls.length) := by
  have hl : (s.client x).readBuf.len = 0 := run_idle hi hrun x
  obtain ⟨new, hcalls, ht⟩ := run_traced hu hd hrun
  rw [hcalls, List.drop_left] at hlast ⊢
  obtain ⟨i, k, pre, w, post, e, hw, b, hb, hwrites⟩ := ht.tripped (refused_dirty hr hn hlen hl h href)
  exact ⟨i, k, pre, w, post, e, hw, hlast pre w post e ⟨i, k, hw⟩, b, hb, hwrites⟩

/-- A watch, a write of another client and a refused EXEC. -/
theorem exec_refused_for_two : ∃ s s', run serve samplePair
      [sampleRead 7 [bytes "WATCH", bytes "k"], sampleRead 8 [bytes "SET", bytes "k", bytes "v"]] =
        some ([(), ()], s) ∧
    readFromClient ⟨0, none⟩ s 7 (respEncodeArrayString [bytes "EXEC"]) = .ok s' ∧
      Reason 7 (s.calls.drop samplePair.calls.length) := by
  have hall : (do
      let r ← run serve samplePair
        [sampleRead 7 [bytes "WATCH", bytes "k"], sampleRead 8 [bytes "SET", bytes "k", bytes "v"]]
      let r' ← serve r.2 (sampleRead 7 [bytes "EXEC"])
      return (r.1, r.2.calls.all (·.proc ≠ some .exec), (r'.2.client 7).writeBuf.content)) =
      some ([(), ()], true, resp.ok ++ bulkString (bytes "err dirty")) := by decide
  obtain ⟨⟨us, s⟩, hrun, hall⟩ := Option.bind_eq_some_iff.mp hall
  obtain ⟨⟨u, s'⟩, hread, hall⟩ := Option.bind_eq_some_iff.mp hall
  simp only [Option.pure_def, Option.some.injEq, Prod.mk.injEq] at hall
  obtain ⟨rfl, hexec, hreply⟩ := hall
  have hread := serve_ok.mp hread
  refine ⟨s, s', hrun, hread, exec_refused_for idle_samplePair (by decide) rfl hrun
    ⟨by decide, by decide, by decide +kernel, by decide⟩ (by decide) (by decide) hread ?_ ?_⟩
  · rw [hreply]
    exact List.suffix_append _ _
  · intro pre w post e _ c hc hx
    have hmem : c ∈ s.calls := by
      rw [show s.calls = pre ++ w :: post from e]
      exact List.mem_append_right _ (List.mem_cons_of_mem _ hc)
    exact absurd hx.2 (by simpa using List.all_eq_true.mp hexec c hmem)

/-- The same EXEC again is refused, without a watch since the first one. -/
theorem exec_refused_again : ∃ s s', run serve samplePair
      [sampleRead 7 [bytes "WATCH", bytes "k"], sampleRead 8 [bytes "SET", bytes "k", bytes "v"],
        sampleRead 7 [bytes "EXEC"]] = some ([(), (), ()], s) ∧
    readFromClient ⟨0, none⟩ s 7 (respEncodeArrayString [bytes "EXEC"]) = .ok s' ∧
    (s'.client 7).writeBuf.content = (s.client 7).writeBuf.content ++ bulkString (bytes "err dirty") ∧
      ¬ Reason 7 s.calls := by
  have hall : (do
      let r ← run serve samplePair
        [sampleRead 7 [bytes "WATCH", bytes "k"], sampleRead 8 [bytes "SET", bytes "k", bytes "v"],
          sampleRead 7 [bytes "EXEC"]]
      let r' ← serve r.2 (sampleRead 7 [bytes "EXEC"])
      return (r.1, r.2.calls.map fun call => (call.client, call.proc), (r.2.client 7).writeBuf.content,
        (r'.2.client 7).writeBuf.content)) =
      some ([(), (), ()], [(7, some .watch), (8, some .set), (7, some .exec)],
        resp.ok ++ bulkString (bytes "err dirty"),
        resp.ok ++ bulkString (bytes "err dirty") ++ bulkString (bytes "err dirty")) := by
    decide
  obtain ⟨⟨us, s⟩, hrun, hall⟩ := Option.bind_eq_some_iff.mp hall
  obtain ⟨⟨u, s'⟩, hread, hall⟩ := Option.bind_eq_some_iff.mp hall
  simp only [Option.pure_def, Option.some.injEq, Prod.mk.injEq] at hall
  obtain ⟨rfl, hcalls, hreply, hreply'⟩ := hall
  refine ⟨s, s', hrun, serve_ok.mp hread, by rw [hreply, hreply'], ?_⟩
  rintro ⟨i, k, pre, w, post, e, ⟨-, -, hw, -⟩, hlast, -⟩
  rw [e, List.map_append, List.map_cons, hw] at hcalls
  obtain _ | ⟨a, _ | ⟨b, _ | ⟨d, pre⟩⟩⟩ := pre
  · have hmem : ((7 : ClientId), some Proc.exec) ∈ post.map fun call => (call.client, call.proc) := by
      rw [(List.cons.inj hcalls).2]
      decide
    obtain ⟨c, hc, hproc⟩ := List.mem_map.mp hmem
    exact hlast c hc ⟨(Prod.mk.inj hproc).1, (Prod.mk.inj hproc).2⟩
  all_goals simp at hcalls

end Fedis.Proof.Server

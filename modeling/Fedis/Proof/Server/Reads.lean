import Fedis.Proof.Server.Watch

/-!
# What a read does

What a read leaves as it was, unless a call in it is against it (`read_grows`):
`read_marked` of the other clients, `read_expireAt` of a key's deadline.
`read_command` and `read_queued` say what one request leaves of its own client.
-/

namespace Fedis.Proof.Server

open Framework Resp Relation

variable {env : Env} {s s' t : RedisServer} {c x : ClientId} {argv : List Bytes}
  {cmd : RedisCommand} {i : Nat} {k : Bytes}

/-! ## What a read does, as the history tells it -/

theorem small_calls (h : Small env c s s') : Grows (fun _ => True) (fun _ _ => True) s s' := by
  cases h with
  | client s f hf => exact ⟨[], by simp, fun _ => trivial⟩
  | exec s argv h => exact ⟨[callOf s c argv], rfl, fun _ => trivial⟩
  | command query s s' argv hne h => exact ⟨_, processCommand_calls hne h, fun _ => trivial⟩

/-- The history only grows. -/
theorem chain_calls (steps : ReflTransGen (Small env c) s s') : ∃ new, s'.calls = s.calls ++ new := by
  obtain ⟨new, e, -⟩ := chain_grows (fun _ => trivial) (fun _ _ => trivial) small_calls steps
  exact ⟨new, e⟩

/-- The same client, or the same client marked. -/
def Marked (a b : RedisClient) : Prop := core b = core a ∨ core b = core (markDirty a)

theorem Marked.trans {a b d : RedisClient} (h₁ : Marked a b) (h₂ : Marked b d) : Marked a d := by
  have mark : ∀ {a b : RedisClient}, core b = core a → core (markDirty b) = core (markDirty a) :=
    fun h => congrArg markDirty h
  rcases h₁ with h₁ | h₁
  · exact h₂.imp (·.trans h₁) (·.trans (mark h₁))
  · rcases h₂ with h₂ | h₂
    · exact .inr (h₂.trans h₁)
    · exact .inr (h₂.trans (mark (a := markDirty _) h₁))

theorem small_marked (h : Small env c s s') (hx : x ≠ c) :
    Grows Plain (fun s s' => Marked (s.client x) (s'.client x)) s s' := by
  cases h with
  | client s f hf => exact ⟨[], by simp, fun _ => .inl (by rw [modifyClient_of_ne _ _ _ hx])⟩
  | exec s argv h => exact ⟨[callOf s c argv], rfl, fun _ => .inl rfl⟩
  | command query s s' argv hne h =>
    refine ⟨[callOf s c argv], processCommand_calls hne h, fun hp => ?_⟩
    have hcore := call_core hne (hp _ List.mem_cons_self) h x
    unfold Marked
    dsimp only
    rw [hcore]
    unfold clientAfter
    split
    · exact .inl rfl
    · split
      · split
        · exact .inr rfl
        · exact .inl rfl
      · exact .inl rfl

/-- A read does nothing to another client but mark it. -/
theorem read_marked {nread : Bytes} (h : readFromClient env s c nread = .ok s') (hx : x ≠ c) :
    Grows Plain (fun s s' => Marked (s.client x) (s'.client x)) s s' :=
  read_grows (fun _ => .inl rfl) (fun h₁ h₂ => h₁.trans h₂) (fun h => small_marked h hx) h

theorem small_expireAt (h : Small env c s s') :
    Grows (fun call => ¬ (WritesKey i k call ∧ call.proc = some .expire))
      (fun s s' => expireAt s' i k = expireAt s i k) s s' := by
  cases h with
  | client s f hf => exact ⟨[], by simp, fun _ => rfl⟩
  | exec s argv h => exact ⟨[callOf s c argv], rfl, fun _ => rfl⟩
  | command query s s' argv hne h =>
    refine ⟨[callOf s c argv], processCommand_calls hne h, fun hp => ?_⟩
    have hp := hp _ List.mem_cons_self
    have hel := processCommand_getElem hne h i
    dsimp only at hp ⊢
    unfold expireAt
    rw [hel]
    split
    · rename_i hi
      cases s.db[i]? with
      | none => rfl
      | some db =>
        refine callEffect_expires fun cmd hf hk he => hp ⟨⟨hi, hk, ?_⟩, ?_⟩
        · simp [callOf, hf, he]
        · simp [callOf, hf, he]
    · rfl

/-- Only EXPIRE changes a key's deadline. -/
theorem read_expireAt {nread : Bytes} (h : readFromClient env s c nread = .ok s') :
    Grows (fun call => ¬ (WritesKey i k call ∧ call.proc = some .expire))
      (fun s s' => expireAt s' i k = expireAt s i k) s s' :=
  read_grows (fun _ => rfl) (fun h₁ h₂ => h₂.trans h₁) small_expireAt h

/-! ## One request -/

theorem core_clientEffect (proc : Proc) (argv : List Bytes) (client : RedisClient) :
    core (clientEffect proc argv client) = clientEffect proc argv (core client) := by
  unfold clientEffect
  split
  · rfl
  · rfl
  · split <;> rfl
  · rfl

theorem received_core (nread : Bytes) : core ((received s c nread).client x) = core (s.client x) := by
  refine modifyClient_field s c (fun client => { client with readBuf := _ }) core (fun _ => ?_) x
  rfl

section Request

variable (hr : Request argv) (hlen : (respEncodeArrayString argv).length < 1024)
  (hl : (s.client c).readBuf.len = 0)
include hr hlen hl

/-- What a request that is no write leaves of its client and the history. -/
theorem read_command (hm : (s.client c).flags.multi = false)
    (hf : foundCommand s c argv = some cmd) (hw : cmd.write = false) (hp : cmd.proc ≠ .exec)
    (hs : cmd.proc ≠ .slaveof) (h : readFromClient env s c (respEncodeArrayString argv) = .ok s') :
    s'.calls = s.calls ++ [callOf s c argv] ∧
      core (s'.client c) = core (clientEffect cmd.proc argv (s.client c)) := by
  obtain ⟨t, ⟨hq, -⟩ | ⟨-, ht⟩, rfl⟩ := (read_request hr hlen hl).mp h
  · exact absurd hq (not_queues hm)
  have hf' := (foundCommand_received s c (respEncodeArrayString argv) argv).trans hf
  have hne : NotExec (received s c (respEncodeArrayString argv)) c argv :=
    (notExec_found hf').mpr hp
  refine ⟨?_, ?_⟩
  · rw [clearReadBuf_calls, processCommand_calls hne ht, callOf_received]
    rfl
  · rw [clearReadBuf_core, processCommand_core hne ht fun cmd' h' he => by
      rw [hf'] at h'
      cases h'
      exact absurd he hs]
    simp only [clientAfter, hf', hw, Bool.false_eq_true, if_false, if_true]
    rw [core_clientEffect, received_core, core_clientEffect]

theorem read_returns (hm : (s.client c).flags.multi = false)
    (hf : foundCommand s c argv = some cmd)
    (he : executed (processClientQueryBuf env 11) env
      (logCall (received s c (respEncodeArrayString argv)) c argv) c cmd argv = .ok t) :
    ∃ s', readFromClient env s c (respEncodeArrayString argv) = .ok s' :=
  ⟨_, (read_request hr hlen hl).mpr ⟨_, .inr ⟨not_queues hm, processCommand_ok.mpr
    ⟨hr.ne_nil, .inr ⟨cmd, t, (foundCommand_received ..).trans hf, he, rfl⟩⟩⟩, rfl⟩⟩

/-- What queueing a request leaves of its client and the server. -/
theorem read_queued (hq : Queues s c argv)
    (h : readFromClient env s c (respEncodeArrayString argv) = .ok s') :
    s'.calls = s.calls ∧ (s'.client c).db = (s.client c).db ∧
      (s'.client c).flags = (s.client c).flags ∧
      (s'.client c).multcmds.length = (s.client c).multcmds.length := by
  obtain ⟨t, ⟨-, ht⟩ | ⟨hn, -⟩, rfl⟩ := (read_request hr hlen hl).mp h
  · obtain ⟨cmd, -, rfl⟩ := queueCommand_ok.mp ht
    simp [clearReadBuf, addWrite, received]
  · exact absurd hq hn

end Request

end Fedis.Proof.Server

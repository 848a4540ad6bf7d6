import Fedis.Impl.Machine
import Fedis.Proof.Framing
import Fedis.Proof.Server.Watch

/-!
# The server on its memory does what the server does

A defined step of the machine is the step of its server (`read_server`, `send_small`), so that
what is known of the server's runs holds of the machine's. The memory behind an allocation does
not decide what is decoded (`respDecode_append`).
-/

namespace Fedis.Proof.Machine

open Framework Server Relation Resp

variable {env : Env} {m m' : Machine} {s : RedisServer} {c x : ClientId} {argv : List Bytes}
  {cmd : RedisCommand} {slack depth : Nat}

/-! ## Decoding -/

theorem afterNewline_append_mem {p : Bytes} (h : 0 ∈ p) (t : Bytes) :
    afterNewline (p ++ t) = (afterNewline p).map (· ++ t) := by
  induction p with
  | nil => cases h
  | cons b p ih =>
    rw [List.cons_append, afterNewline, afterNewline]
    by_cases hb : b = 0
    · rw [if_pos hb, if_pos hb, Option.map_none]
    rw [if_neg hb, if_neg hb]
    split
    · rfl
    · exact ih ((List.mem_cons.mp h).resolve_left (Ne.symm hb))

theorem mem_of_last {p : Bytes} (h : p.getLast? = some 0) : 0 ∈ p := List.mem_of_getLast? h

theorem last_cons {b : UInt8} {p : Bytes} (hb : b ≠ 0) (h : (b :: p).getLast? = some 0) :
    p.getLast? = some 0 := by
  cases p with
  | nil => exact absurd (Option.some.inj h) hb
  | cons a p => rwa [List.getLast?_cons_cons] at h

theorem last_afterNewline {p p' : Bytes} (h : p.getLast? = some 0) (e : afterNewline p = some p') :
    p'.getLast? = some 0 := by
  obtain ⟨line, rfl, -⟩ := afterNewline_some e
  rw [List.getLast?_append_of_ne_nil _ (List.cons_ne_nil _ _)] at h
  exact last_cons (by decide) h

/-- The memory behind the last NUL does not change what is decoded. -/
theorem respDecodeArgs_append {n : Nat} {m : Bytes} (hl : m ≠ [] → m.getLast? = some 0) (t : Bytes)
    (h : respDecodeArgs n m ≠ .undef) : respDecodeArgs n (m ++ t) = respDecodeArgs n m := by
  induction n generalizing m t with
  | zero => rfl
  | succ n ih =>
    cases m with
    | nil => exact absurd rfl h
    | cons b p =>
      rw [List.cons_append, respDecodeArgs, respDecodeArgs]
      rw [respDecodeArgs] at h
      by_cases hb : b ≠ 36
      · rw [if_pos hb, if_pos hb]
      rw [if_neg hb] at h ⊢
      rw [if_neg hb]
      have hp : p.getLast? = some 0 := last_cons (by rw [not_not.mp hb]; decide) (hl (List.cons_ne_nil _ _))
      rw [scanInt_append_of_mem (mem_of_last hp), afterNewline_append_mem (mem_of_last hp)]
      cases hn : scanInt p with
      | none => rfl
      | some len =>
        cases ha : afterNewline p with
        | none => rw [hn, ha] at h; exact absurd rfl h
        | some p' =>
          rw [hn, ha] at h
          dsimp only [Option.map_some] at h ⊢
          split at h
          · exact absurd rfl h
          rename_i hfit
          rw [not_or, Int.not_lt, Nat.not_lt] at hfit
          rw [if_neg (by rw [not_or, List.length_append]; omega), if_neg (by omega),
            List.take_append_of_le_length hfit.2, List.drop_append]
          rw [ih (fun hne => ?_)]
          · intro e
            rw [e] at h
            exact h rfl
          · have := last_afterNewline hp ha
            rw [List.getLast?_drop, if_neg, this]
            intro hle
            exact hne (List.drop_eq_nil_of_le hle)

theorem respDecode_append {m : Bytes} (hl : m.getLast? = some 0) (t : Bytes)
    (h : respDecode m ≠ .undef) : respDecode (m ++ t) = respDecode m := by
  cases m with
  | nil => cases hl
  | cons b p =>
    rw [List.cons_append, respDecode, respDecode]
    rw [respDecode] at h
    by_cases hb : b ≠ 42
    · rw [if_pos hb, if_pos hb]
    rw [if_neg hb] at h ⊢
    rw [if_neg hb]
    have hp : p.getLast? = some 0 := last_cons (by rw [not_not.mp hb]; decide) hl
    rw [scanInt_append_of_mem (mem_of_last hp), afterNewline_append_mem (mem_of_last hp)]
    cases hn : scanInt p with
    | none => rfl
    | some argc =>
      rw [hn] at h
      dsimp only at h ⊢
      by_cases hc : argc ≤ 0
      · rw [if_pos hc, if_pos hc]
      rw [if_neg hc] at h ⊢
      rw [if_neg hc]
      cases ha : afterNewline p with
      | none => rw [ha] at h; exact absurd rfl h
      | some p' =>
        rw [ha] at h
        exact respDecodeArgs_append (fun _ => last_afterNewline hp ha) t h

/-- What is known of a string's memory is its start, up to a NUL. -/
theorem known_prefix (ss : Sds) : Machine.known ss <+: (sdsdump ss).buf ∧
    (Machine.known ss ≠ [] → (Machine.known ss).getLast? = some 0) := by
  constructor
  · refine List.IsPrefix.trans ?_ (List.take_prefix ss.alloc (sdsdump ss).buf)
    rw [Machine.known, ← List.reverse_suffix, List.reverse_reverse]
    exact List.dropWhile_suffix _
  · intro hne
    rw [Machine.known] at hne ⊢
    rw [List.getLast?_reverse]
    cases hd : ((sdsdump ss).buf.take ss.alloc).reverse.dropWhile (· ≠ 0) with
    | nil => rw [hd] at hne; exact absurd rfl hne
    | cons b l =>
      have := List.head_dropWhile_not (fun b : UInt8 => decide (b ≠ 0))
        (l := ((sdsdump ss).buf.take ss.alloc).reverse) (by rw [hd]; exact List.cons_ne_nil _ _)
      simp only [hd, List.head_cons] at this
      simpa using this


theorem decode_defined {ss : Sds} (h : Machine.decode slack ss ≠ .undef) :
    respDecode (sdsdump ss).buf = Machine.decode slack ss := by
  rw [Machine.decode] at h ⊢
  split at h
  · rename_i hin
    rw [if_pos hin]
    obtain ⟨hpre, hlast⟩ := known_prefix ss
    obtain ⟨t, ht⟩ := hpre
    rw [← ht]
    exact respDecode_append (hlast hin.2) t h
  · exact absurd rfl h

/-! ## The parts of a request -/

theorem toOption_ok {α : Type} {x : Except Fault α} {a : α} (h : x.toOption = some a) : x = .ok a := by
  cases x with
  | error => cases h
  | ok => rw [Option.some.inj h]

theorem next_ok {inside : Prop} [Decidable inside] :
    m.next inside s = .ok m' ↔ inside ∧ m' = { m with server := s } := by
  rw [Machine.next]
  split
  · rename_i h
    simp [h, eq_comm]
  · rename_i h
    simp [h]

theorem addWrite_ok {str : Bytes} : m.addWrite c str = .ok m' ↔
    (m.server.client c).writeBuf.Fits (cstr str).length ∧
      m' = { m with server := addWrite m.server c str } := next_ok

theorem addWriteBulk_ok {str : Bytes} : m.addWriteBulk c str = .ok m' ↔
    ∃ enc, respEncodeBulkString str = .ok enc ∧ m.addWrite c enc = .ok m' := bind_ok

theorem addWriteBulk_server {str : Bytes} (h : m.addWriteBulk c str = .ok m') :
    addWriteBulk m.server c str = .ok m'.server := by
  obtain ⟨enc, he, h⟩ := addWriteBulk_ok.mp h
  obtain ⟨-, rfl⟩ := addWrite_ok.mp h
  rw [addWriteBulk, he]
  rfl

theorem useDb_server {i : Int} {call : DbCall} {r : DbReply × Machine} (h : m.useDb i call = .ok r) :
    r.2.server = m.server := by
  rw [Machine.useDb] at h
  split at h
  · cases h
  · split at h
    · cases h
      rfl
    · cases h

theorem useDbs_server {i : Int} {calls : List DbCall} (h : m.useDbs i calls = .ok m') :
    m'.server = m.server := by
  induction calls generalizing m with
  | nil =>
    cases h
    rfl
  | cons call calls ih =>
    obtain ⟨m₁, h₁, h⟩ := bind_ok.mp h
    obtain ⟨r, hr, rfl⟩ := bind_ok.mp h₁ |>.imp fun _ => And.imp_right pure_ok.mp
    rw [ih h, useDb_server hr]

theorem propagate_server {xs : List ClientId} {str : Bytes}
    (h : xs.foldlM (fun m x => Machine.addWrite m x str) m = .ok m') :
    m'.server = xs.foldl (fun s x => addWrite s x str) m.server := by
  induction xs generalizing m with
  | nil =>
    cases h
    rfl
  | cons x xs ih =>
    obtain ⟨m₁, h₁, h₂⟩ := bind_ok.mp h
    obtain ⟨-, rfl⟩ := addWrite_ok.mp h₁
    exact ih h₂

theorem commandPropagate_server {buf : Sds} (h : m.commandPropagate buf = .ok m') :
    m'.server = commandPropagate m.server buf := by
  rw [Machine.commandPropagate] at h
  split at h
  · cases h
  rw [commandPropagate]
  exact propagate_server h

theorem feedAof_server (h : m.feedAof c cmd = .ok m') : m'.server = feedAof m.server c cmd := by
  obtain ⟨-, rfl⟩ := next_ok.mp h
  rfl

theorem expireArg_server (h : m.expireArg env c cmd argv = .ok m') :
    expireArg env m.server c cmd argv = .ok m'.server := by
  obtain ⟨s, hs, h⟩ := bind_ok.mp h
  rw [hs]
  split at h
  · obtain ⟨key, -, h⟩ := bind_ok.mp h
    obtain ⟨r, -, h⟩ := bind_ok.mp h
    cases h
    rfl
  · cases h
    rfl

theorem touchWatchKey_server (h : m.touchWatchKey c argv = .ok m') :
    touchWatchKey m.server c argv = .ok m'.server := by
  obtain ⟨s, hs, h⟩ := bind_ok.mp h
  obtain ⟨key, -, h⟩ := bind_ok.mp h
  obtain ⟨r, -, h⟩ := bind_ok.mp h
  cases h
  exact hs

theorem propagate_eq (h : m.propagate c cmd = .ok m') : m'.server =
    if cmd.write && m.server.flags.master then
      commandPropagate { m.server with
        backlog := addRepliBuf m.server.backlog (m.server.client c).readBuf.content }
        (m.server.client c).readBuf
    else m.server := by
  rw [Machine.propagate] at h
  split at h
  · rename_i hp
    rw [if_pos hp]
    exact commandPropagate_server h
  · rename_i hp
    rw [if_neg hp]
    cases h
    rfl

theorem replicate_server (h : m.replicate c cmd = .ok m') :
    m'.server = replicate m.server c cmd := by
  obtain ⟨m₁, h₁, h⟩ := bind_ok.mp h
  rw [replicate, ← propagate_eq h₁]
  split at h
  · rename_i hp
    rw [if_pos hp]
    cases h
    rfl
  · rename_i hp
    rw [if_neg hp]
    cases h
    rfl

/-! ## Handlers -/

/-- Only EXEC looks at the requests that it runs. -/
theorem callProc_query {query query' : RedisServer → ClientId → Except Fault RedisServer} {proc : Proc}
    (hp : proc ≠ .exec) : callProc query env proc s c argv = callProc query' env proc s c argv := by
  cases proc <;> first | rfl | exact absurd rfl hp

theorem callProc_handler {mquery : Machine → ClientId → Except Fault Machine} {proc : Proc}
    (hp : proc ≠ .exec) (hs : proc ≠ .slaveof) :
    Machine.callProc mquery env proc m c argv = m.handler env proc c argv := by
  cases proc <;> first | rfl | exact absurd rfl hp | exact absurd rfl hs

theorem handler_server {query : RedisServer → ClientId → Except Fault RedisServer} {proc : Proc}
    (hp : proc ≠ .exec) (h : m.handler env proc c argv = .ok m') :
    callProc query env proc m.server c argv = .ok m'.server := by
  obtain ⟨m₁, h₁, h⟩ := bind_ok.mp h
  obtain ⟨s, hs, h⟩ := bind_ok.mp h
  obtain ⟨-, rfl⟩ := next_ok.mp h
  rw [useDbs_server h₁] at hs
  rw [callProc_query hp]
  exact hs

section Query

variable {mquery : Machine → ClientId → Except Fault Machine}
  {query : RedisServer → ClientId → Except Fault RedisServer}
  (hq : ∀ {m m'}, mquery m c = .ok m' → query m.server c = .ok m'.server)
include hq

theorem execLoop_server {fuel i : Nat} (h : Machine.execLoop mquery c fuel i m = .ok m') :
    execLoop query c fuel i m.server = .ok m'.server := by
  induction fuel generalizing m i with
  | zero => cases h
  | succ fuel ih =>
    rw [Machine.execLoop] at h
    rw [execLoop]
    split at h
    · rename_i hi
      rw [if_pos hi]
      cases hcmd : (m.server.client c).multcmds[i]? with
      | none =>
        rw [hcmd] at h
        cases h
      | some cmd =>
        rw [hcmd] at h
        obtain ⟨m₁, h₁, h₂⟩ := bind_ok.mp h
        obtain ⟨m₂, h₂, h₃⟩ := bind_ok.mp h₂
        obtain ⟨-, rfl⟩ := next_ok.mp h₁
        exact bind_ok.mpr ⟨_, hq h₂, ih h₃⟩
    · rename_i hi
      rw [if_neg hi]
      cases h
      rfl

theorem commandExecProc_server (h : Machine.commandExecProc mquery m c = .ok m') :
    commandExecProc query m.server c = .ok m'.server := by
  obtain ⟨m₁, h₁, h₂⟩ := bind_ok.mp h
  cases h₂
  rw [Machine.execQueue] at h₁
  refine commandExecProc_ok.mpr ?_
  split at h₁
  · rename_i hd
    obtain ⟨-, e⟩ := Server.addWriteBulk_ok.mp (addWriteBulk_server h₁)
    rw [if_pos hd, e]
    rfl
  · rename_i hd
    obtain ⟨m₂, h₂, h₃⟩ := bind_ok.mp h₁
    obtain ⟨-, e⟩ := Server.addWriteBulk_ok.mp (addWriteBulk_server h₃)
    have hlen : ((execStart m.server c).client c).multcmds.length =
        (m.server.client c).multcmds.length := by rw [execStart, modifyClient_self]
    have hloop := execLoop_server hq h₂
    rw [if_neg hd, e, ← hlen]
    exact ⟨m₂.server, hloop, rfl⟩

theorem callProc_server {proc : Proc} (h : Machine.callProc mquery env proc m c argv = .ok m') :
    callProc query env proc m.server c argv = .ok m'.server := by
  by_cases hp : proc = .exec
  · subst hp
    exact commandExecProc_server hq h
  · by_cases hs : proc = .slaveof
    · subst hs
      cases h
    · rw [callProc_handler hp hs] at h
      exact handler_server hp h

theorem executed_server (h : m.executed mquery env c argv cmd = .ok m') :
    executed query env m.server c cmd argv = .ok m'.server := by
  obtain ⟨m₁, h₁, h⟩ := bind_ok.mp h
  obtain ⟨m₂, h₂, h⟩ := bind_ok.mp h
  obtain ⟨m₃, h₃, h⟩ := bind_ok.mp h
  have e₂ := expireArg_server h₂
  rw [feedAof_server h₁] at e₂
  refine bind_ok.mpr ⟨m₂.server, e₂, bind_ok.mpr ⟨m₃.server, callProc_server hq h₃, ?_⟩⟩
  split at h
  · rename_i hw
    rw [if_pos hw]
    exact touchWatchKey_server h
  · rename_i hw
    rw [if_neg hw]
    cases h
    rfl

theorem processCommand_server (h : m.processCommand mquery env c argv = .ok m') :
    processCommand query env m.server c argv = .ok m'.server := by
  obtain ⟨name, hn, h⟩ := bind_ok.mp h
  obtain ⟨m₁, h₁, h⟩ := bind_ok.mp h
  cases h
  obtain ⟨args, rfl⟩ : ∃ args, argv = name :: args := by
    cases argv with
    | nil => cases hn
    | cons a as => cases hn; exact ⟨as, rfl⟩
  have hf : foundCommand m.server c (name :: args) = lookupCommand m.server c name := rfl
  refine processCommand_ok.mpr ⟨List.cons_ne_nil _ _, ?_⟩
  rw [hf]
  cases hf : lookupCommand m.server c name with
  | none =>
    rw [hf] at h₁
    obtain ⟨-, rfl⟩ := addWrite_ok.mp h₁
    exact .inl ⟨rfl, by rw [logCall, callOf, foundCommand]; simp only [List.getElem?_cons_zero, Option.bind_some, hf]; rfl⟩
  | some cmd =>
    rw [hf] at h₁
    obtain ⟨m₂, h₂, h₁⟩ := bind_ok.mp h₁
    have hlog : (m.logCall c (name :: args) (some cmd)).server = logCall m.server c (name :: args) := by
      rw [logCall, callOf, foundCommand]
      simp only [List.getElem?_cons_zero, Option.bind_some, hf]
      rfl
    have e₂ := executed_server hq h₂
    rw [hlog] at e₂
    exact .inr ⟨cmd, m₂.server, rfl, e₂, by rw [← replicate_server h₁]; rfl⟩

end Query

theorem clientMultiAdd_server (h : m.clientMultiAdd c = .ok m') :
    clientMultiAdd m.server c = .ok m'.server := by
  obtain ⟨s, hs, h⟩ := bind_ok.mp h
  obtain ⟨-, rfl⟩ := next_ok.mp h
  exact hs

theorem queueCommand_server (h : m.queueCommand c = .ok m') :
    queueCommand m.server c = .ok m'.server := by
  obtain ⟨m₁, h₁, h⟩ := bind_ok.mp h
  obtain ⟨m₂, h₂, h⟩ := bind_ok.mp h
  cases h
  exact bind_ok.mpr ⟨_, clientMultiAdd_server h₁, bind_ok.mpr ⟨_, addWriteBulk_server h₂, rfl⟩⟩

/-- A defined request is the server's. -/
theorem query_server (h : m.processClientQueryBuf slack env depth c = .ok m') :
    processClientQueryBuf env depth m.server c = .ok m'.server := by
  induction depth generalizing m m' with
  | zero => cases h
  | succ depth ih =>
    rw [Machine.processClientQueryBuf] at h
    rw [processClientQueryBuf]
    cases hd : Machine.decode slack (m.server.client c).readBuf with
    | undef =>
      rw [hd] at h
      cases h
    | err =>
      rw [hd] at h
      rw [decode_defined (by rw [hd]; exact Decoded.noConfusion), hd]
      cases h
      rfl
    | ok argv =>
      rw [hd] at h
      rw [decode_defined (by rw [hd]; exact Decoded.noConfusion), hd]
      obtain ⟨name, hn, h⟩ := bind_ok.mp h
      refine bind_ok.mpr ⟨name, hn, ?_⟩
      split at h
      · rename_i hq
        rw [if_pos hq]
        exact queueCommand_server h
      · rename_i hq
        rw [if_neg hq]
        exact processCommand_server ih h

/-- **A defined read is the server's.** -/
theorem read_server {nread : Bytes} (h : m.readFromClient slack env c nread = .ok m') :
    readFromClient env m.server c nread = .ok m'.server := by
  rw [Machine.readFromClient] at h
  rw [readFromClient]
  split at h
  · rename_i hn
    rw [if_pos hn]
    cases h
    rfl
  rename_i hn
  rw [if_neg hn]
  split at h
  · cases h
  rename_i hl
  rw [if_neg hl]
  obtain ⟨m₁, h₁, h₂⟩ := bind_ok.mp h
  obtain ⟨m₂, h₃, h₄⟩ := bind_ok.mp h₂
  obtain ⟨-, rfl⟩ := next_ok.mp h₁
  cases h₄
  exact bind_ok.mpr ⟨_, query_server h₃, rfl⟩

/-! ## Events -/

/-- The reads of a run. -/
def readsOf (events : List MachineEvent) : List Read :=
  events.filterMap fun e => match e with
    | .read r => some r
    | .send .. => none

theorem machineStep_read {r : Read} {u : Unit} : machineStep slack m (.read r) = some (u, m') ↔
    m.readFromClient slack r.env r.client r.nread = .ok m' := by
  rw [machineStep]
  cases m.readFromClient slack r.env r.client r.nread <;> simp

theorem machineStep_send {nwritten : Int} {file : Bytes} {w : RdbWrites} {u : Unit} :
    machineStep slack m (.send c nwritten file w) = some (u, m') ↔
      nwritten ≤ (m.server.client c).writeBuf.len ∧ m' = { m with
        server := (sendToClient (initOutputs m.server) c nwritten file w).server } := by
  rw [machineStep]
  split
  · rename_i h
    simp [h, eq_comm]
  · rename_i h
    simp [h]

/-- What a client is sent changes its object only, in its output buffer, the state of its
connection and the marks that it is to be closed. -/
theorem send_client (s : RedisServer) (c : ClientId) (nwritten : Int) (file : Bytes) (w : RdbWrites) :
    ∃ f : RedisClient → RedisClient, (sendToClient (initOutputs s) c nwritten file w).server =
        s.modifyClient c f ∧
      ∀ client, ∃ writeBuf replState toClose, f client = { client with
        writeBuf := writeBuf, replState := replState
        flags := { client.flags with toClose := toClose } } := by
  have hid : s = s.modifyClient c id := by
    refine (congrArg (fun client => ({ s with client := client } : RedisServer)) (funext fun x => ?_)).symm
    split <;> rfl
  have compose : ∀ f g : RedisClient → RedisClient, (s.modifyClient c f).modifyClient c g =
      s.modifyClient c (g ∘ f) := fun f g => by
    refine congrArg (fun client => ({ s with client := client } : RedisServer)) (funext fun x => ?_)
    dsimp only [RedisServer.modifyClient]
    by_cases hx : x = c
    · simp [hx]
    · simp [hx]
  rw [sendToClient]
  simp only [initOutputs, Outputs.accept, Outputs.append, clientToclose]
  by_cases hn : nwritten ≤ 0
  · rw [if_pos hn]
    exact ⟨_, rfl, fun client => ⟨client.writeBuf, client.replState, true, rfl⟩⟩
  rw [if_neg hn]
  by_cases hs : nwritten = (s.client c).writeBuf.len
  swap
  · simp only [ne_eq, hs, not_false_eq_true, if_true]
    exact ⟨id, hid, fun client => ⟨client.writeBuf, client.replState, client.flags.toClose, rfl⟩⟩
  simp only [ne_eq, hs, not_true_eq_false, if_false]
  by_cases hf : (s.client c).replState = .masterSendFullsync
  · by_cases hc : (s.client c).toclose = true
    · simp only [if_pos hf, if_pos hc, compose]
      exact ⟨_, rfl, fun client => ⟨_, _, true, rfl⟩⟩
    · simp only [if_pos hf, if_neg hc, compose]
      exact ⟨_, rfl, fun client => ⟨_, _, client.flags.toClose, rfl⟩⟩
  · by_cases hc : (s.client c).toclose = true
    · simp only [if_neg hf, if_pos hc, compose]
      exact ⟨_, rfl, fun client => ⟨_, client.replState, true, rfl⟩⟩
    · simp only [if_neg hf, if_neg hc]
      exact ⟨_, rfl, fun client => ⟨_, client.replState, client.flags.toClose, rfl⟩⟩

/-- An event is a sequence of small steps. -/
theorem machineStep_small {e : MachineEvent} {u : Unit} (h : machineStep slack m e = some (u, m')) :
    ∃ env c, ReflTransGen (Small env c) m.server m'.server := by
  cases e with
  | read r => exact ⟨r.env, r.client, read_small (read_server (machineStep_read.mp h))⟩
  | send c nwritten file w =>
    obtain ⟨-, rfl⟩ := machineStep_send.mp h
    obtain ⟨f, e, hf⟩ := send_client m.server c nwritten file w
    refine ⟨⟨0, none⟩, c, ?_⟩
    dsimp only
    rw [e]
    refine small_client fun client => ?_
    obtain ⟨_, _, _, e⟩ := hf client
    rw [e]
    exact ⟨rfl, rfl⟩

/-- What every small step keeps, a run keeps. -/
theorem run_small {I : RedisServer → Prop} {m₀ : Machine} {events : List MachineEvent} {us : List Unit}
    (hstep : ∀ {env c s s'}, Small env c s s' → I s → I s')
    (h : run (machineStep slack) m₀ events = some (us, m)) (hi : I m₀.server) : I m.server := by
  refine run_keeps (I := fun m => I m.server) (fun m e u m' hi h => ?_) hi h
  obtain ⟨env, c, steps⟩ := machineStep_small h
  generalize m'.server = s at steps
  induction steps with
  | refl => exact hi
  | tail _ h ih => exact hstep h ih

/-- Between events the read buffers are empty. -/
theorem machineStep_idle {e : MachineEvent} {u : Unit} (hi : Idle m.server)
    (h : machineStep slack m e = some (u, m')) : Idle m'.server := by
  cases e with
  | read r => exact readFromClient_idle (read_server (machineStep_read.mp h)) hi
  | send c nwritten file w =>
    obtain ⟨-, rfl⟩ := machineStep_send.mp h
    obtain ⟨f, e, hf⟩ := send_client m.server c nwritten file w
    intro x
    dsimp only
    rw [e]
    refine (congrArg Sds.len (modifyClient_field m.server c f (·.readBuf) (fun client => ?_) x)).trans (hi x)
    obtain ⟨_, _, _, e⟩ := hf client
    rw [e]

theorem run_idle {m₀ : Machine} {events : List MachineEvent} {us : List Unit} (hi : Idle m₀.server)
    (h : run (machineStep slack) m₀ events = some (us, m)) : Idle m.server :=
  run_keeps (I := fun m => Idle m.server) (fun _ _ _ _ hi h => machineStep_idle hi h) hi h

end Fedis.Proof.Machine

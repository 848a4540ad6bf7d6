import Fedis.Proof.Machine.Queue
import Fedis.Proof.Machine.Room

/-!
# When a request returns

A request in a read of its own has to have room and to be there to be read (`read_request`). It is
queued where there is a place for it, EXEC hands its queue over and answers, and the other calls
return as in `Room`, but SLAVEOF (`query_returns`).
-/

namespace Fedis.Proof.Machine

open Framework Server Resp

variable {env : Env} {m m' : Machine} {c : ClientId} {argv : List Bytes} {cmd : RedisCommand}
  {mquery : Machine → ClientId → Except Fault Machine}

/-! ## Reads -/

/-- A read that leaves a request at the front of the buffer returns iff it has room, can be read
again, and the command returns. -/
theorem read_calls (hr : Request argv) {nread v : Bytes} (hn : nread ≠ []) (hz : ∀ b ∈ nread, b ≠ 0)
    (hc : (m.server.client c).readBuf.content ++ nread = respEncodeArrayString argv ++ v)
    (hq : ¬ Queues m.server c argv) {slack : Nat} : m.readFromClient slack env c nread = .ok m' ↔
      nread.length < 1024 ∧ (m.server.client c).readBuf.Fits nread.length ∧
        Machine.decode slack (sdscat (m.server.client c).readBuf nread) ≠ .undef ∧
        ∃ m₁, Machine.processCommand (Machine.processClientQueryBuf slack env 11) env
          { m with server := received m.server c nread } c argv = .ok m₁ ∧
          m' = m₁.clearReadBuf c := by
  have hz := cstr_eq_self hz
  set m₀ : Machine := { m with server := received m.server c nread } with hm₀
  have hbuf : (m₀.server.client c).readBuf = sdscat (m.server.client c).readBuf nread := by
    rw [hm₀, received_client]
  have hcontent : (m₀.server.client c).readBuf.content = respEncodeArrayString argv ++ v := by
    rw [hbuf, sdscat, hz, content_sdscatlen, hc]
  have hq₀ : ¬ Queues m₀.server c argv := by
    rw [Queues, hm₀, received_client]
    exact hq
  rw [Machine.readFromClient, if_neg hn, hz]
  by_cases hlen : nread.length < 1024
  swap
  · rw [if_pos (by omega)]
    exact iff_of_false (fun h => by cases h) fun h => hlen h.1
  rw [if_neg (by omega), bind_ok, and_iff_right hlen, ← hbuf]
  have hcall : ∀ m₁, Machine.processClientQueryBuf slack env 12 m₀ c = .ok m₁ ↔
      Machine.decode slack (m₀.server.client c).readBuf ≠ .undef ∧
        m₀.processCommand (Machine.processClientQueryBuf slack env 11) env c argv = .ok m₁ :=
    fun _ => query_calls hr hcontent hq₀
  constructor
  · rintro ⟨m₁, h₁, h⟩
    obtain ⟨hfit, rfl⟩ := next_ok.mp h₁
    obtain ⟨m₂, h₂, h₃⟩ := bind_ok.mp h
    cases h₃
    obtain ⟨hdec, h₂⟩ := (hcall m₂).mp h₂
    exact ⟨hfit, hdec, m₂, h₂, rfl⟩
  · rintro ⟨hfit, hdec, m₁, h₁, rfl⟩
    exact ⟨m₀, next_ok.mpr ⟨hfit, rfl⟩, bind_ok.mpr ⟨m₁, (hcall m₁).mpr ⟨hdec, h₁⟩, rfl⟩⟩

/-- A request in a read of its own. -/
theorem read_request (hr : Request argv) (hi : Idle m.server) (hq : ¬ Queues m.server c argv)
    {slack : Nat} : m.readFromClient slack env c (respEncodeArrayString argv) = .ok m' ↔
      (respEncodeArrayString argv).length < 1024 ∧
        (m.server.client c).readBuf.Fits (respEncodeArrayString argv).length ∧
        Machine.decode slack (sdscat (m.server.client c).readBuf (respEncodeArrayString argv)) ≠
          .undef ∧
        ∃ m₁, Machine.processCommand (Machine.processClientQueryBuf slack env 11) env
          { m with server := received m.server c (respEncodeArrayString argv) } c argv = .ok m₁ ∧
          m' = m₁.clearReadBuf c := by
  have hempty : (m.server.client c).readBuf.content = [] := by
    rw [Sds.content, hi c, readAt_zero]
  refine read_calls (v := []) hr (by simp [respEncodeArrayString]) (encode_ne_zero argv) ?_ hq
  rw [hempty, List.nil_append, List.append_nil]

/-- A request that is no write, and that the server answers, in a read of its own. -/
theorem read_lookup (slack : Nat) {s' : RedisServer} {rep : Bytes} (hb : Coherent m)
    (hr : Request argv) (hi : Idle m.server) (hm : (m.server.client c).flags.multi = false)
    (hf : foundCommand m.server c argv = some cmd) (hw : cmd.write = false)
    (hp : cmd.proc ≠ .exec) (hs : cmd.proc ≠ .slaveof) (hsync : cmd.proc ≠ .sync)
    (h : readFromClient env m.server c (respEncodeArrayString argv) = .ok s')
    (e : (s'.client c).writeBuf.content = (m.server.client c).writeBuf.content ++ rep) :
    (∃ m', m.readFromClient slack env c (respEncodeArrayString argv) = .ok m' ∧ m'.server = s') ↔
      (m.server.client c).readBuf.Fits (respEncodeArrayString argv).length ∧
        Machine.decode slack (sdscat (m.server.client c).readBuf (respEncodeArrayString argv)) ≠
          .undef ∧
        Runs m.tables (m.server.client c).db (commandCalls env m.server c argv cmd) ∧
        (m.server.client c).writeBuf.Fits rep.length := by
  have hlen := read_length h
  obtain ⟨t, ⟨hq, -⟩ | ⟨hq, ht⟩, rfl⟩ := (Server.read_request hr hlen (hi c)).mp h
  · exact absurd hq (not_queues hm)
  set m₀ : Machine := { m with server := received m.server c (respEncodeArrayString argv) } with hm₀
  have hclient := received_client m.server c (respEncodeArrayString argv)
  have hbuf : (m₀.server.client c).writeBuf = (m.server.client c).writeBuf := by rw [hm₀, hclient]
  have hdb : (m₀.server.client c).db = (m.server.client c).db := by rw [hm₀, hclient]
  rw [writeBuf_clearReadBuf, ← hbuf] at e
  have hcall := processCommand_lookup (m := m₀) slack hb
    ((foundCommand_received ..).trans hf) hw hp hs hsync ht e
  rw [hbuf, hdb] at hcall
  have hcalls : commandCalls env m₀.server c argv cmd = commandCalls env m.server c argv cmd := rfl
  rw [hcalls] at hcall
  rw [← hcall]
  constructor
  · rintro ⟨m', h', hs'⟩
    obtain ⟨-, hfit, hdec, m₁, h₁, -⟩ := (read_request hr hi hq).mp h'
    have hserver := processCommand_server (fun h => query_server h) h₁
    rw [ht] at hserver
    exact ⟨hfit, hdec, m₁, h₁, (Except.ok.inj hserver).symm⟩
  · rintro ⟨hfit, hdec, m₁, h₁, rfl⟩
    exact ⟨_, (read_request hr hi hq).mpr ⟨hlen, hfit, hdec, m₁, h₁, rfl⟩, rfl⟩

/-! ## EXEC -/

/-- EXEC hands its queue over and answers. The requests of the queue are what `query` runs. -/
def ExecReturns (mquery : Machine → ClientId → Except Fault Machine) (m : Machine) (c : ClientId) :
    Prop :=
  if (m.server.client c).flags.dirtyCas then
    (m.server.client c).writeBuf.Fits (bulkString (bytes "err dirty")).length
  else ∃ t, Machine.execLoop mquery c ((m.server.client c).multcmds.length + 1) 0 (execStart m c) =
      .ok t ∧ (t.server.client c).writeBuf.Fits (bulkString (bytes "Exec ok")).length

theorem commandExecProc_returns :
    (∃ m', Machine.commandExecProc mquery m c = .ok m') ↔ ExecReturns mquery m c := by
  rw [ExecReturns]
  by_cases hd : (m.server.client c).flags.dirtyCas = true
  · have henc : respEncodeBulkString (bytes "err dirty") = .ok (bulkString (bytes "err dirty")) := by
      decide
    have hz : cstr (bulkString (bytes "err dirty")) = bulkString (bytes "err dirty") := by decide
    have hbuf : ((Server.execStart m.server c).client c).writeBuf =
        (m.server.client c).writeBuf := by rw [Server.execStart, modifyClient_self]
    rw [if_pos hd]
    constructor
    · rintro ⟨m', h⟩
      obtain ⟨m₁, h₁, -⟩ := bind_ok.mp h
      rw [Machine.execQueue, if_pos hd] at h₁
      obtain ⟨enc, he, h₂⟩ := addWriteBulk_ok.mp h₁
      cases henc.symm.trans he
      obtain ⟨hfit, -⟩ := addWrite_ok.mp h₂
      rw [hz] at hfit
      rw [← hbuf]
      exact hfit
    · intro hfit
      rw [← hbuf] at hfit
      refine ⟨_, bind_ok.mpr ⟨⟨addWrite (Server.execStart m.server c) c
        (bulkString (bytes "err dirty")), m.tables⟩, ?_, rfl⟩⟩
      rw [Machine.execQueue, if_pos hd]
      exact addWriteBulk_ok.mpr ⟨_, henc, addWrite_ok.mpr ⟨by rw [hz]; exact hfit, rfl⟩⟩
  · rw [if_neg hd]
    exact commandExecProc_iff (by simpa using hd)

theorem processCommand_exec (hf : foundCommand m.server c argv = some cmd) (hp : cmd.proc = .exec) :
    (∃ m', m.processCommand mquery env c argv = .ok m') ↔
      ExecReturns mquery (m.logCall c argv (some cmd)) c := by
  obtain ⟨name, hname, hlook⟩ := Option.bind_eq_some_iff.mp hf
  obtain ⟨hr, hw⟩ := bare_entry cmd (mem_table hf) (.inl hp)
  set ml := m.logCall c argv (some cmd) with hml
  have hfeed : ml.feedAof c cmd = .ok ml := by
    refine next_ok.mpr ⟨fun h => by simp [hw] at h, ?_⟩
    simp [feedAof, hw]
  have hexpire : ml.expireArg env c cmd argv = .ok ml := by
    refine expireArg_tables.mpr ⟨?_, ?_⟩
    · simp [expireArg, hr, hw]
    · simp [expireCalls, hr, hw, useTables]
  have hexec : ∀ t, ml.executed mquery env c argv cmd = .ok t ↔
      Machine.commandExecProc mquery ml c = .ok t := fun t => by
    rw [Machine.executed, hfeed, ok_bind, hexpire, ok_bind, hp]
    show (Machine.commandExecProc mquery ml c >>= _) = _ ↔ _
    rw [bind_ok]
    simp [hw]
  rw [← commandExecProc_returns, Machine.processCommand, argAt_ok.mpr hname, ok_bind]
  dsimp only
  rw [hlook]
  constructor
  · rintro ⟨m', h⟩
    obtain ⟨m₂, h₂, -⟩ := bind_ok.mp h
    obtain ⟨m₁, h₁, -⟩ := bind_ok.mp h₂
    exact ⟨m₁, (hexec m₁).mp h₁⟩
  · rintro ⟨m₁, h₁⟩
    obtain ⟨m₂, h₂⟩ : ∃ m₂, m₁.replicate c cmd = .ok m₂ := replicate_room.mpr
      fun h => absurd h (by simp [hw])
    exact ⟨_, bind_ok.mpr ⟨m₂, bind_ok.mpr ⟨m₁, (hexec m₁).mpr h₁, h₂⟩, rfl⟩⟩

/-! ## Whatever the request -/

/-- A request can be queued: there is a place, it has room, and so has the answer. -/
def HasPlace (m : Machine) (c : ClientId) : Prop :=
  ∃ cmd, (m.server.client c).multcmds[(m.server.client c).multiCmdCount]? = some cmd ∧
    (sdsclear cmd).Fits (m.server.client c).readBuf.len ∧
    (m.server.client c).writeBuf.Fits (bulkString (bytes "queued")).length

/-- What the call for a request needs to return. SLAVEOF frees the command that it is called
for. -/
def CallReturns (mquery : Machine → ClientId → Except Fault Machine) (env : Env) (m : Machine)
    (c : ClientId) (argv : List Bytes) : Option RedisCommand → Prop
  | none => (m.server.client c).writeBuf.Fits resp.invalidCommand.length
  | some cmd =>
    match cmd.proc with
    | .slaveof => False
    | .exec => ExecReturns mquery (m.logCall c argv (some cmd)) c
    | _ => ∃ out, ReturnsWith env m c argv cmd out

theorem queueCommand_returns : (∃ m', m.queueCommand c = .ok m') ↔ HasPlace m c := by
  have henc : respEncodeBulkString (bytes "queued") = .ok (bulkString (bytes "queued")) := by decide
  have hz : cstr (bulkString (bytes "queued")) = bulkString (bytes "queued") := by decide
  have hadd : ∀ {m₁ : Machine}, (∃ m₂, m₁.addWriteBulk c (bytes "queued") = .ok m₂) ↔
      (m₁.server.client c).writeBuf.Fits (bulkString (bytes "queued")).length := fun {m₁} => by
    constructor
    · rintro ⟨m₂, h⟩
      obtain ⟨enc, he, h⟩ := addWriteBulk_ok.mp h
      cases henc.symm.trans he
      obtain ⟨hfit, -⟩ := addWrite_ok.mp h
      rwa [hz] at hfit
    · intro hfit
      exact ⟨_, addWriteBulk_ok.mpr ⟨_, henc, addWrite_ok.mpr ⟨by rwa [hz], rfl⟩⟩⟩
  have hmulti : ∀ {m₁ : Machine}, m.clientMultiAdd c = .ok m₁ →
      (m₁.server.client c).writeBuf = (m.server.client c).writeBuf := fun {m₁} h => by
    have hs := clientMultiAdd_server h
    rw [clientMultiAdd] at hs
    dsimp only at hs
    split at hs
    · cases hs
    · rw [← Except.ok.inj hs, modifyClient_self]
  rw [HasPlace]
  constructor
  · rintro ⟨m', h⟩
    obtain ⟨m₁, h₁, hrest⟩ := bind_ok.mp h
    obtain ⟨m₂, h₂, -⟩ := bind_ok.mp hrest
    have hout := hadd.mp ⟨m₂, h₂⟩
    rw [hmulti h₁] at hout
    obtain ⟨s, hs, hn⟩ := bind_ok.mp h₁
    obtain ⟨hfit, -⟩ := next_ok.mp hn
    rw [clientMultiAdd] at hs
    cases hcmd : (m.server.client c).multcmds[(m.server.client c).multiCmdCount]? with
    | none =>
      simp only [hcmd] at hs
      cases hs
    | some cmd => exact ⟨cmd, rfl, hfit cmd hcmd, hout⟩
  · rintro ⟨cmd, hcmd, hfit, hout⟩
    obtain ⟨m₁, h₁⟩ : ∃ m₁, m.clientMultiAdd c = .ok m₁ := by
      obtain ⟨s, hs⟩ : ∃ s, clientMultiAdd m.server c = .ok s := by
        rw [clientMultiAdd]
        simp only [hcmd]
        exact ⟨_, rfl⟩
      refine ⟨_, bind_ok.mpr ⟨s, hs, next_ok.mpr ⟨fun cmd' hcmd' => ?_, rfl⟩⟩⟩
      rw [hcmd] at hcmd'
      cases hcmd'
      exact hfit
    rw [← hmulti h₁] at hout
    obtain ⟨m₂, h₂⟩ := hadd.mpr hout
    exact ⟨_, bind_ok.mpr ⟨m₁, h₁, bind_ok.mpr ⟨m₂, h₂, rfl⟩⟩⟩

theorem call_returns (hb : Coherent m) (hne : argv ≠ []) :
    (∃ m', m.processCommand mquery env c argv = .ok m') ↔
      CallReturns mquery env m c argv (foundCommand m.server c argv) := by
  cases hf : foundCommand m.server c argv with
  | none =>
    obtain ⟨name, args, rfl⟩ := List.exists_cons_of_ne_nil hne
    have hlook : lookupCommand m.server c name = none := hf
    have hz : cstr resp.invalidCommand = resp.invalidCommand := by decide
    have hcall : m.processCommand mquery env c (name :: args) =
        ((m.logCall c (name :: args) none).addWrite c resp.invalidCommand >>= fun m =>
          pure (m.clearReadBuf c)) := by
      rw [Machine.processCommand]
      show (_ : Except Fault Machine) = _
      simp only [argAt, List.getElem?_cons_zero, ok_bind, hlook]
      rfl
    rw [hcall, CallReturns]
    constructor
    · rintro ⟨m', h⟩
      obtain ⟨m₁, h₁, -⟩ := bind_ok.mp h
      obtain ⟨hfit, -⟩ := addWrite_ok.mp h₁
      rw [hz] at hfit
      exact hfit
    · intro hfit
      exact ⟨_, bind_ok.mpr ⟨_, addWrite_ok.mpr ⟨by rw [hz]; exact hfit, rfl⟩, rfl⟩⟩
  | some cmd =>
    rw [CallReturns]
    split
    · rename_i hp
      refine iff_of_false ?_ id
      rintro ⟨m', h⟩
      obtain ⟨name, hname, hlook⟩ := Option.bind_eq_some_iff.mp hf
      rw [Machine.processCommand, argAt_ok.mpr hname, ok_bind] at h
      dsimp only at h
      rw [hlook] at h
      obtain ⟨m₂, h₂, -⟩ := bind_ok.mp h
      obtain ⟨m₁, h₁, -⟩ := bind_ok.mp h₂
      obtain ⟨_, -, hrest⟩ := bind_ok.mp h₁
      obtain ⟨_, -, hrest⟩ := bind_ok.mp hrest
      obtain ⟨_, hcall, -⟩ := bind_ok.mp hrest
      rw [hp] at hcall
      cases hcall
    · exact processCommand_exec hf ‹_›
    · rename_i hs hp
      exact processCommand_returns hb hf hp hs

instance (s : RedisServer) (c : ClientId) (argv : List Bytes) : Decidable (Queues s c argv) :=
  inferInstanceAs (Decidable (_ ∧ _))

/-- **When a request that is decoded returns.** -/
theorem query_returns {slack depth : Nat} (hb : Coherent m) (hne : argv ≠ [])
    (hdec : Machine.decode slack (m.server.client c).readBuf = .ok argv) :
    (∃ m', m.processClientQueryBuf slack env (depth + 1) c = .ok m') ↔
      if Queues m.server c argv then HasPlace m c
      else CallReturns (Machine.processClientQueryBuf slack env depth) env m c argv
        (foundCommand m.server c argv) := by
  obtain ⟨name, args, rfl⟩ := List.exists_cons_of_ne_nil hne
  have hquery : m.processClientQueryBuf slack env (depth + 1) c =
      if Queues m.server c (name :: args) then m.queueCommand c
      else m.processCommand (Machine.processClientQueryBuf slack env depth) env c (name :: args) := by
    rw [Machine.processClientQueryBuf, hdec]
    simp only [argAt, List.getElem?_cons_zero, ok_bind, Bool.and_eq_true, Bool.not_eq_true']
    exact if_congr Iff.rfl rfl rfl
  rw [hquery]
  split
  · exact queueCommand_returns
  · exact call_returns hb hne

end Fedis.Proof.Machine

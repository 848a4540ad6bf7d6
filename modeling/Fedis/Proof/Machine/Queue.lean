import Fedis.Proof.Machine.Step
import Fedis.Proof.Server.Queue

/-!
# The queue of a transaction, on the machine

What EXEC hands over has to be there to be read, and the answers need room (`hand`). The loop of
EXEC is `handAll`, as it is for the server (`execLoop_hands`), so that EXEC returns if that does
and its last answer has room (`commandExecProc_iff`).
-/

namespace Fedis.Proof.Machine

open Framework Server Resp

variable {env : Env} {m m' t : Machine} {c : ClientId} {q : List Bytes} {qs : List (List Bytes)}
  {slack depth i : Nat}

/-- A request that can be read is decoded. -/
theorem decode_request (hr : Request q) {ss : Sds} {v : Bytes}
    (hc : ss.content = respEncodeArrayString q ++ v) (h : Machine.decode slack ss ≠ .undef) :
    Machine.decode slack ss = .ok q := by
  rw [← decode_defined h]
  exact respDecode_dump hr hc

/-- The first request in the read buffer is handed to `processCommand`, if it can be read. -/
theorem query_calls (hr : Request q) {v : Bytes}
    (hc : (m.server.client c).readBuf.content = respEncodeArrayString q ++ v)
    (hq : ¬ Queues m.server c q) : m.processClientQueryBuf slack env (depth + 1) c = .ok m' ↔
      Machine.decode slack (m.server.client c).readBuf ≠ .undef ∧
        m.processCommand (Machine.processClientQueryBuf slack env depth) env c q = .ok m' := by
  obtain ⟨name, hname⟩ : ∃ name, argAt q 0 = .ok name :=
    ⟨_, argAt_ok.mpr (List.getElem?_eq_getElem (List.length_pos_of_ne_nil hr.ne_nil))⟩
  have hhead : q.headD [] = name := by
    rw [List.headD_eq_head?_getD, List.head?_eq_getElem?, argAt_ok.mp hname]
    rfl
  rw [Machine.processClientQueryBuf]
  by_cases hd : Machine.decode slack (m.server.client c).readBuf = .undef
  · simp [hd]
  · rw [decode_request hr hc hd]
    dsimp only
    rw [hname, ok_bind, if_neg]
    · simp
    · intro hb
      rw [Bool.and_eq_true, Bool.not_eq_true', ← hhead] at hb
      exact hq hb

/-- Hands one queued request to `processCommand`. -/
def hand (slack : Nat) (env : Env) (depth : Nat) (c : ClientId) (i : Nat) (q : List Bytes)
    (m : Machine) : Except Fault Machine :=
  match (m.server.client c).multcmds[i]? with
  | none => .error .undefined
  | some cmd => do
    let m ← m.execLoad c i cmd
    if Machine.decode slack (m.server.client c).readBuf = .undef then .error .undefined
    else do
      let m ← m.processCommand (Machine.processClientQueryBuf slack env depth) env c q
      return { m with server := clearSlot m.server c i }

/-- Hands every queued request to `processCommand`, in order. -/
def handAll (slack : Nat) (env : Env) (depth : Nat) (c : ClientId) :
    Nat → List (List Bytes) → Machine → Except Fault Machine
  | _, [], m => .ok m
  | i, q :: qs, m => do
    let m ← hand slack env depth c i q m
    handAll slack env depth c (i + 1) qs m

theorem execLoad_ok {cmd : Sds} : m.execLoad c i cmd = .ok m' ↔
    (sdsclear (m.server.client c).readBuf).Fits cmd.len ∧
      m' = { m with server := execLoad m.server c i cmd } := next_ok

theorem hand_ok : hand slack env depth c i q m = .ok t ↔ ∃ cmd m₁ m₂,
    (m.server.client c).multcmds[i]? = some cmd ∧ m.execLoad c i cmd = .ok m₁ ∧
      Machine.decode slack (m₁.server.client c).readBuf ≠ .undef ∧
      m₁.processCommand (Machine.processClientQueryBuf slack env depth) env c q = .ok m₂ ∧
      t = { m₂ with server := clearSlot m₂.server c i } := by
  unfold hand
  cases (m.server.client c).multcmds[i]? with
  | none => simp
  | some cmd =>
    rw [bind_ok]
    constructor
    · rintro ⟨m₁, h₁, h⟩
      split at h
      · cases h
      · rename_i hd
        obtain ⟨m₂, h₂, h₃⟩ := bind_ok.mp h
        exact ⟨cmd, m₁, m₂, rfl, h₁, hd, h₂, (pure_ok.mp h₃).symm⟩
    · rintro ⟨cmd', m₁, m₂, hcmd, h₁, hd, h₂, rfl⟩
      cases hcmd
      refine ⟨m₁, h₁, ?_⟩
      rw [if_neg hd]
      exact bind_ok.mpr ⟨m₂, h₂, rfl⟩

/-- Handing over on the machine is handing over on its server. -/
theorem hand_server (h : hand slack env depth c i q m = .ok t) :
    Server.hand env depth c i q m.server = .ok t.server := by
  obtain ⟨cmd, m₁, m₂, hcmd, h₁, -, h₂, rfl⟩ := hand_ok.mp h
  obtain ⟨-, rfl⟩ := execLoad_ok.mp h₁
  have hcall := processCommand_server query_server h₂
  exact Server.hand_ok.mpr ⟨cmd, m₂.server, hcmd, hcall, rfl⟩

theorem execLoop_hands (hconn : env.connect ≠ some c) {fuel : Nat}
    (hs : Slots (m.server.client c) i qs) (hq : ∀ q ∈ qs, Request q ∧ Accepted q)
    (hm : ∀ q ∈ qs.dropLast, ¬ IsMulti q)
    (hmulti : qs = [] ∨ (m.server.client c).flags.multi = false) (hfuel : qs.length < fuel) :
    Machine.execLoop (Machine.processClientQueryBuf slack env (depth + 1)) c fuel i m = .ok t ↔
      handAll slack env depth c i qs m = .ok t := by
  induction qs generalizing m i fuel with
  | nil =>
    obtain ⟨fuel, rfl⟩ : ∃ n, fuel = n + 1 := ⟨fuel - 1, by simp at hfuel; omega⟩
    have hcount : ¬ i < (m.server.client c).multiCmdCount := by rw [hs.1, List.length_nil]; omega
    rw [Machine.execLoop, if_neg hcount, handAll]
  | cons q qs ih =>
    obtain ⟨fuel, rfl⟩ : ∃ n, fuel = n + 1 := ⟨fuel - 1, by rw [List.length_cons] at hfuel; omega⟩
    obtain ⟨hi, cmd, hcmd, hcontent⟩ := hs.head
    obtain ⟨hr, ha⟩ := hq q List.mem_cons_self
    have hoff : (m.server.client c).flags.multi = false := hmulti.resolve_left (by simp)
    have hrest : ∀ u, hand slack env depth c i q m = .ok u →
        (Machine.execLoop (Machine.processClientQueryBuf slack env (depth + 1)) c fuel (i + 1) u =
          .ok t ↔ handAll slack env depth c (i + 1) qs u = .ok t) := by
      intro u hu
      obtain ⟨hslots, hmultis, hnext⟩ := hand_rest hconn ha hs hm hoff (hand_server hu)
      exact ih hslots (fun q' h' => hq q' (List.mem_cons_of_mem _ h')) hmultis hnext
        (by rw [List.length_cons] at hfuel; omega)
    rw [Machine.execLoop, if_pos hi, handAll, bind_ok]
    simp only [hcmd, bind_ok]
    constructor
    · rintro ⟨m₁, h₁, m₂, h₂, h⟩
      obtain ⟨-, hm₁⟩ := execLoad_ok.mp h₁
      have hnq : ¬ Queues m₁.server c q := by
        rw [hm₁]
        exact load_runs ha hoff
      obtain ⟨hd, h₂⟩ := (query_calls hr (by rw [hm₁, execLoad_content, hcontent, List.append_nil]) hnq).mp h₂
      have hh : hand slack env depth c i q m =
          .ok { m₂ with server := clearSlot m₂.server c i } :=
        hand_ok.mpr ⟨cmd, m₁, m₂, hcmd, h₁, hd, h₂, rfl⟩
      exact ⟨_, hh, (hrest _ hh).mp h⟩
    · rintro ⟨u, hh, h⟩
      obtain ⟨cmd', m₁, m₂, hcmd', h₁, hd, h₂, rfl⟩ := hand_ok.mp hh
      rw [hcmd] at hcmd'
      cases hcmd'
      obtain ⟨-, hm₁⟩ := execLoad_ok.mp h₁
      have hnq : ¬ Queues m₁.server c q := by
        rw [hm₁]
        exact load_runs ha hoff
      exact ⟨m₁, h₁, m₂, (query_calls hr (by rw [hm₁, execLoad_content, hcontent, List.append_nil]) hnq).mpr
        ⟨hd, h₂⟩, (hrest _ hh).mpr h⟩

/-- The start of EXEC. -/
def execStart (m : Machine) (c : ClientId) : Machine :=
  { m with server := Server.execStart m.server c }

/-- EXEC without a failed watch is its loop and an answer that has room. -/
theorem commandExecProc_iff {query : Machine → ClientId → Except Fault Machine}
    (hd : (m.server.client c).flags.dirtyCas = false) :
    (∃ m', Machine.commandExecProc query m c = .ok m') ↔ ∃ t,
      Machine.execLoop query c ((m.server.client c).multcmds.length + 1) 0 (execStart m c) = .ok t ∧
        (t.server.client c).writeBuf.Fits (bulkString (bytes "Exec ok")).length := by
  have hlen : (((execStart m c).server.client c).multcmds.length =
      (m.server.client c).multcmds.length) := by
    rw [execStart, Server.execStart, modifyClient_self]
  have henc : respEncodeBulkString (bytes "Exec ok") = .ok (bulkString (bytes "Exec ok")) := by decide
  have hz : cstr (bulkString (bytes "Exec ok")) = bulkString (bytes "Exec ok") := by decide
  constructor
  · rintro ⟨m', h⟩
    obtain ⟨m₁, h₁, -⟩ := bind_ok.mp h
    rw [Machine.execQueue, hd, if_neg (by decide)] at h₁
    obtain ⟨t, ht, h₂⟩ := bind_ok.mp h₁
    obtain ⟨enc, he, h₃⟩ := addWriteBulk_ok.mp h₂
    rw [henc] at he
    cases he
    obtain ⟨hfit, -⟩ := addWrite_ok.mp h₃
    rw [hz] at hfit
    rw [← hlen]
    exact ⟨t, ht, hfit⟩
  · rintro ⟨t, ht, hfit⟩
    rw [← hlen] at ht
    refine ⟨_, bind_ok.mpr ⟨{ t with server := addWrite t.server c (bulkString (bytes "Exec ok")) },
      ?_, rfl⟩⟩
    rw [Machine.execQueue, hd, if_neg (by decide)]
    exact bind_ok.mpr ⟨t, ht, addWriteBulk_ok.mpr ⟨_, henc, addWrite_ok.mpr ⟨by rwa [hz], rfl⟩⟩⟩

/-- **EXEC without a failed watch** returns after handing exactly the queued requests to
`processCommand` iff none of them but the last is MULTI, and each in turn returns and leaves the
room for the answer. -/
theorem exec_iff (hconn : env.connect ≠ some c) (hq : Queued m.server c qs)
    (hd : (m.server.client c).flags.dirtyCas = false) :
    (∃ m', Machine.commandExecProc (Machine.processClientQueryBuf slack env (depth + 1)) m c = .ok m' ∧
        Handed m.server m'.server c qs) ↔
      (∀ q ∈ qs.dropLast, ¬ IsMulti q) ∧ ∃ t, handAll slack env depth c 0 qs (execStart m c) = .ok t ∧
        (t.server.client c).writeBuf.Fits (bulkString (bytes "Exec ok")).length := by
  have hslots : Slots ((execStart m c).server.client c) 0 qs := by
    rw [execStart, Server.execStart, modifyClient_self]
    exact hq.slots
  have hmulti : ((execStart m c).server.client c).flags.multi = false := by
    rw [execStart, Server.execStart, modifyClient_self]
    rfl
  have hfuel : qs.length < (m.server.client c).multcmds.length + 1 := by
    have := hq.length_le
    omega
  -- what the machine hands over, its server does
  have hserver : ∀ m', Machine.commandExecProc
      (Machine.processClientQueryBuf slack env (depth + 1)) m c = .ok m' →
        (∀ q ∈ qs.dropLast, ¬ IsMulti q) → Handed m.server m'.server c qs := by
    intro m' h hm
    have hs := commandExecProc_server query_server h
    have hs' := commandExecProc_ok.mp hs
    simp only [hd, Bool.false_eq_true, if_false] at hs'
    obtain ⟨u, hu, -⟩ := hs'
    have hu := (Server.execLoop_hands hconn hslots hq.requests hm (.inr hmulti) hfuel).mp hu
    obtain ⟨s', h', hh⟩ := (Server.exec_iff hconn hq hd).mpr ⟨hm, u, hu⟩
    rw [hs] at h'
    cases h'
    exact hh
  constructor
  · rintro ⟨m', h, hh⟩
    obtain ⟨hm, -⟩ := (Server.exec_iff hconn hq hd).mp ⟨_, commandExecProc_server query_server h, hh⟩
    obtain ⟨t, ht, hfit⟩ := (commandExecProc_iff hd).mp ⟨m', h⟩
    exact ⟨hm, t, (execLoop_hands hconn hslots hq.requests hm (.inr hmulti) hfuel).mp ht, hfit⟩
  · rintro ⟨hm, t, ht, hfit⟩
    obtain ⟨m', h⟩ := (commandExecProc_iff hd).mpr
      ⟨t, (execLoop_hands hconn hslots hq.requests hm (.inr hmulti) hfuel).mpr ht, hfit⟩
    exact ⟨m', h, hserver m' h hm⟩

end Fedis.Proof.Machine

import Fedis.Impl.Aof
import Fedis.Proof.Machine.Requests
import Fedis.Proof.Server.Aof

/-!
# Replaying a log, on the machine

The loop of `aof_load` over a log is a fold of the handler (`aofLoadBuf_splits`), and the server
of every defined turn is that of `handTo`. A turn returns iff the request has room behind the fake
client's input, can be read again, and its command returns (`handTo_returns`); the load does iff
its reads and its turns do (`aofLoad_returns`).
-/

namespace Fedis.Proof.Machine

open Framework Server Resp

variable {slack : Nat} {env : Env} {m m' : Machine} {c fkc : ClientId} {q : List Bytes}
  {log : List (List Bytes)} {cmd : RedisCommand} {sbuf : Sds} {reads : List Bytes}

/-! ## One request -/

/-- The read of a write command can be taken: it has room behind the client's input and the
memory to be decoded, and the command returns. -/
structure Takes (slack : Nat) (env : Env) (m : Machine) (c : ClientId) (nread : Bytes)
    (q : List Bytes) : Prop where
  input : (m.server.client c).readBuf.Fits nread.length
  decode : Machine.decode slack (sdscat (m.server.client c).readBuf nread) ≠ .undef
  returns : ∃ cmd out, entryOf q = some cmd ∧
    ReturnsWith env { m with server := received m.server c nread } c q cmd out

/-- What the loop does with a request. -/
def handTo (slack : Nat) (env : Env) (fkc : ClientId) (m : Machine) (q : List Bytes) :
    Except Fault Machine := do
  let m ← m.next ((m.server.client fkc).readBuf.Fits (respEncodeArrayString q).length)
    (fed m.server fkc q)
  m.processClientQueryBuf slack env execDepth fkc

theorem fed_received (s : RedisServer) (fkc : ClientId) (q : List Bytes) :
    fed s fkc q = received s fkc (respEncodeArrayString q) := by
  unfold fed received sdscat
  rw [cstr_eq_self (encode_ne_zero q)]

theorem handTo_iff (hf : FakeReady m.server fkc) (hr : Request q) :
    handTo slack env fkc m q = .ok m' ↔
      (m.server.client fkc).readBuf.Fits (respEncodeArrayString q).length ∧
        Machine.decode slack (sdscat (m.server.client fkc).readBuf (respEncodeArrayString q)) ≠
          .undef ∧
        Machine.processCommand (Machine.processClientQueryBuf slack env 11) env
          { m with server := received m.server fkc (respEncodeArrayString q) } fkc q = .ok m' := by
  set m₀ : Machine := { m with server := received m.server fkc (respEncodeArrayString q) } with hm₀
  have hbuf : (m₀.server.client fkc).readBuf =
      sdscat (m.server.client fkc).readBuf (respEncodeArrayString q) := by
    rw [hm₀, received_client]
  have hcontent : (m₀.server.client fkc).readBuf.content = respEncodeArrayString q ++ [] := by
    rw [hbuf, sdscat, cstr_eq_self (encode_ne_zero q), content_sdscatlen, content_of_len hf.readBuf,
      List.nil_append, List.append_nil]
  have hq : ¬ Queues m₀.server fkc q := by
    refine not_queues ?_
    rw [hm₀, received_client]
    exact hf.multi
  have hcall : ∀ m₁, Machine.processClientQueryBuf slack env 12 m₀ fkc = .ok m₁ ↔
      Machine.decode slack (m₀.server.client fkc).readBuf ≠ .undef ∧
        m₀.processCommand (Machine.processClientQueryBuf slack env 11) env fkc q = .ok m₁ :=
    fun _ => query_calls hr hcontent hq
  rw [handTo, bind_ok, ← hbuf, ← hcall, fed_received]
  constructor
  · rintro ⟨m₁, h₁, h⟩
    obtain ⟨hfit, rfl⟩ := next_ok.mp h₁
    exact ⟨hfit, h⟩
  · rintro ⟨hfit, h⟩
    exact ⟨m₀, next_ok.mpr ⟨hfit, rfl⟩, h⟩

/-- A turn is the server's. -/
theorem handTo_server (hf : FakeReady m.server fkc) (hr : Request q)
    (h : handTo slack env fkc m q = .ok m') : Server.handTo env fkc m.server q = .ok m'.server := by
  obtain ⟨-, -, h⟩ := (handTo_iff hf hr).mp h
  rw [Server.handTo, fed_received]
  have hcall := processCommand_server (fun h => query_server h) h
  exact hcall

theorem handTo_coherent (hb : Coherent m) (hf : FakeReady m.server fkc) (hr : Request q)
    (h : handTo slack env fkc m q = .ok m') : Coherent m' := by
  obtain ⟨-, -, h⟩ := (handTo_iff hf hr).mp h
  have hb₀ : Coherent { m with server := received m.server fkc (respEncodeArrayString q) } := hb
  exact processCommand_coherent query_coherent hb₀ h

/-- **When a turn returns.** -/
theorem handTo_returns (hb : Coherent m) (hf : FakeReady m.server fkc) (hq : Logged q) :
    (∃ m', handTo slack env fkc m q = .ok m') ↔
      Takes slack env m fkc (respEncodeArrayString q) q := by
  obtain ⟨hr, cmd, he, hw⟩ := id hq
  have hfound : foundCommand (received m.server fkc (respEncodeArrayString q)) fkc q = some cmd := by
    refine foundCommand_entryOf ?_ he hr.ne_nil
    rw [received_client]
    exact hf.normal
  obtain ⟨hp, hs, -⟩ := write_plain cmd (List.mem_of_find?_eq_some he) hw
  have hreturns : (∃ m', Machine.processCommand (Machine.processClientQueryBuf slack env 11) env
      { m with server := received m.server fkc (respEncodeArrayString q) } fkc q = .ok m') ↔
      ∃ out, ReturnsWith env { m with server := received m.server fkc (respEncodeArrayString q) }
        fkc q cmd out := processCommand_returns hb hfound hp hs
  simp only [handTo_iff hf hr, exists_and_left, hreturns]
  constructor
  · rintro ⟨hfit, hdec, out, hret⟩
    exact ⟨hfit, hdec, cmd, out, he, hret⟩
  · rintro ⟨hfit, hdec, cmd', out, he', hret⟩
    obtain rfl : cmd = cmd' := Option.some.inj (he.symm.trans he')
    exact ⟨hfit, hdec, out, hret⟩

/-! ## The log -/

/-- The turns as steps. -/
def handStep (slack : Nat) (env : Env) (fkc : ClientId) (m : Machine) (q : List Bytes) :
    Option (Unit × Machine) :=
  (handTo slack env fkc m q).toOption.map fun m => ((), m)

theorem handStep_some {u : Unit} : handStep slack env fkc m q = some (u, m') ↔
    handTo slack env fkc m q = .ok m' := by
  rw [handStep]
  cases handTo slack env fkc m q with
  | error e => exact iff_of_false (fun h => by cases h) fun h => by cases h
  | ok m₁ => simp [Except.toOption]

theorem handTo_next (hf : FakeReady m.server fkc) (hq : Logged q)
    (h : handTo slack env fkc m q = .ok m') : FakeReady m'.server fkc := by
  obtain ⟨hr, cmd, he, hw⟩ := id hq
  exact handTo_ready hf he hr.ne_nil hw (handTo_server hf hr h)

/-- The turns of a log are those of the server. -/
theorem hands_server (hlog : ∀ q ∈ log, Logged q) (hf : FakeReady m.server fkc)
    (h : log.foldlM (handTo slack env fkc) m = .ok m') :
    log.foldlM (Server.handTo env fkc) m.server = .ok m'.server := by
  induction log generalizing m with
  | nil =>
    cases h
    rfl
  | cons q log ih =>
    have hq := hlog q List.mem_cons_self
    obtain ⟨m₁, h₁, h⟩ := bind_ok.mp h
    exact bind_ok.mpr ⟨m₁.server, handTo_server hf hq.request h₁,
      ih (fun q h => hlog q (List.mem_cons_of_mem _ h)) (handTo_next hf hq h₁) h⟩

/-- **When the turns of a log return.** -/
theorem hands_returns (hb : Coherent m) (hlog : ∀ q ∈ log, Logged q) (hf : FakeReady m.server fkc) :
    (∃ m', log.foldlM (handTo slack env fkc) m = .ok m') ↔ Along (handStep slack env fkc)
      (fun m q => Takes slack env m fkc (respEncodeArrayString q) q) m log := by
  induction log generalizing m with
  | nil => exact iff_of_true ⟨m, rfl⟩ trivial
  | cons q log ih =>
    have hq := hlog q List.mem_cons_self
    have hrest {m₁ : Machine} (h : handTo slack env fkc m q = .ok m₁) :=
      ih (handTo_coherent hb hf hq.request h) (fun q h => hlog q (List.mem_cons_of_mem _ h))
        (handTo_next hf hq h)
    constructor
    · rintro ⟨m', h⟩
      obtain ⟨m₁, h₁, h⟩ := bind_ok.mp h
      refine ⟨(handTo_returns hb hf hq).mp ⟨m₁, h₁⟩, fun u m₂ h₂ => ?_⟩
      cases h₁.symm.trans (handStep_some.mp h₂)
      exact (hrest h₁).mp ⟨m', h⟩
    · rintro ⟨htakes, halong⟩
      obtain ⟨m₁, h₁⟩ := (handTo_returns hb hf hq).mpr htakes
      obtain ⟨m', h⟩ := (hrest h₁).mpr (halong () m₁ (handStep_some.mpr h₁))
      exact ⟨m', bind_ok.mpr ⟨m₁, h₁, h⟩⟩

/-! ## The file -/

/-- The reads of a file have room behind each other. -/
def RoomForReads : Sds → List Bytes → Prop
  | _, [] => True
  | sbuf, buf :: reads => sbuf.Fits buf.length ∧ RoomForReads (sdscatlen sbuf buf) reads

theorem aofRead_ok {t : Sds} : aofRead sbuf reads = .ok t ↔
    RoomForReads sbuf reads ∧ t = reads.foldl sdscatlen sbuf := by
  induction reads generalizing sbuf with
  | nil =>
    rw [aofRead, List.foldlM_nil, pure_ok, RoomForReads, true_and, eq_comm]
    rfl
  | cons buf reads ih =>
    rw [aofRead, List.foldlM_cons, RoomForReads]
    by_cases hfit : sbuf.Fits buf.length
    · rw [if_pos hfit, ok_bind, and_assoc, and_iff_right hfit]
      exact ih
    · rw [if_neg hfit]
      exact iff_of_false (fun h => by cases h) fun h => hfit h.1.1

/-- **The loop hands over the requests of the log**, one after the other, and leaves
what stands behind them. -/
theorem aofLoadBuf_splits (hlog : ∀ q ∈ log, Logged q) {t : Bytes} (ht : Partial t) {n : Nat}
    (hn : log.length < n) (hbuf : Holds sbuf (log.flatMap respEncodeArrayString ++ t))
    (hf : FakeReady m.server fkc) : ∃ rest, Holds rest t ∧ aofLoadBuf slack env fkc n sbuf m =
      (log.foldlM (handTo slack env fkc) m).map fun m' => (m', rest) := by
  induction log generalizing n sbuf m with
  | nil =>
    obtain ⟨n, rfl⟩ : ∃ k, n = k + 1 := ⟨n - 1, by omega⟩
    refine ⟨sbuf, hbuf, ?_⟩
    have hlen := hbuf.len
    rw [List.flatMap_nil, List.nil_append] at hlen
    rw [aofLoadBuf, hlen, ht sbuf.buf hbuf.buf]
    rfl
  | cons q log ih =>
    obtain ⟨n, rfl⟩ : ∃ k, n = k + 1 := ⟨n - 1, by omega⟩
    have hq := hlog q List.mem_cons_self
    rw [List.flatMap_cons, List.append_assoc] at hbuf
    obtain ⟨endptr, hparse, -, htake, hrange, htail⟩ := request_front hq.request hbuf
    have hturn : aofLoadBuf slack env fkc (n + 1) sbuf m =
        (handTo slack env fkc m q).bind
          (aofLoadBuf slack env fkc n (sdsTail sbuf (endptr + 1))) := by
      rw [aofLoadBuf, hparse, ok_bind]
      dsimp only
      rw [htake, hrange, handTo]
      exact (bind_assoc ..).symm
    rw [hturn, List.foldlM_cons]
    cases hand : handTo slack env fkc m q with
    | error e =>
      -- the loop stops in the handler, so that any rest will do
      have hany : Holds (sdscatlen sdsempty t) t := holds_sdscatlen (w := []) (holds_empty rfl) t
      exact ⟨_, hany, rfl⟩
    | ok m₁ =>
      exact ih (fun q h => hlog q (List.mem_cons_of_mem _ h)) (Nat.lt_of_succ_lt_succ hn) htail
        (handTo_next hf hq hand)

/-- The load can be done: the reads of the file have room, and every request can be taken. -/
def Loads (slack : Nat) (env : Env) (fkc : ClientId) (reads : List Bytes) (m : Machine)
    (log : List (List Bytes)) : Prop :=
  RoomForReads sdsempty reads ∧ Along (handStep slack env fkc)
    (fun m q => Takes slack env m fkc (respEncodeArrayString q) q) (withFake fkc m) log

/-- The fake client of `aof_load`. -/
theorem fakeReady_create (s : RedisServer) (fkc : ClientId) :
    FakeReady (s.modifyClient fkc fun _ => redisFakeClientCreate) fkc := by
  refine ⟨?_, ?_, ?_, ?_⟩ <;> rw [modifyClient_self] <;> rfl

/-- A load is a fold of the handler. -/
theorem aofLoad_splits (hlog : ∀ q ∈ log, Logged q) {t : Bytes} (ht : Partial t)
    (hreads : reads.flatten = log.flatMap respEncodeArrayString ++ t) : ∃ rest, Holds rest t ∧
      ∀ r, aofLoad slack env fkc reads m = .ok r ↔ RoomForReads sdsempty reads ∧
        ∃ m', log.foldlM (handTo slack env fkc) (withFake fkc m) = .ok m' ∧ r = (m', rest) := by
  have hbuf : Holds (reads.foldl sdscatlen sdsempty) (log.flatMap respEncodeArrayString ++ t) := by
    have hempty : Holds sdsempty [] := holds_empty rfl
    have := holds_reads reads hempty
    rwa [List.nil_append, hreads] at this
  have hn : log.length < (reads.foldl sdscatlen sdsempty).len + 1 := by
    have := length_le_log log
    rw [hbuf.len, List.length_append]
    omega
  obtain ⟨rest, hrest, hsplit⟩ : ∃ rest, Holds rest t ∧
      aofLoadBuf slack env fkc _ _ (withFake fkc m) = _ :=
    aofLoadBuf_splits hlog ht hn hbuf (fakeReady_create m.server fkc)
  refine ⟨rest, hrest, fun r => ?_⟩
  rw [aofLoad, bind_ok]
  constructor
  · rintro ⟨sbuf, hsbuf, h⟩
    obtain ⟨hroom, rfl⟩ := aofRead_ok.mp hsbuf
    rw [hsplit] at h
    cases hfold : log.foldlM (handTo slack env fkc) (withFake fkc m) with
    | error e =>
      rw [hfold] at h
      cases h
    | ok m' =>
      rw [hfold] at h
      cases h
      exact ⟨hroom, m', rfl, rfl⟩
  · rintro ⟨hroom, m', hfold, rfl⟩
    refine ⟨_, aofRead_ok.mpr ⟨hroom, rfl⟩, ?_⟩
    rw [hsplit, hfold]
    rfl

/-- **When a load returns.** -/
theorem aofLoad_returns (hb : Coherent m) (hlog : ∀ q ∈ log, Logged q) {t : Bytes} (ht : Partial t)
    (hreads : reads.flatten = log.flatMap respEncodeArrayString ++ t) :
    (∃ r, aofLoad slack env fkc reads m = .ok r) ↔ Loads slack env fkc reads m log := by
  have hturns : (∃ m', log.foldlM (handTo slack env fkc) (withFake fkc m) = .ok m') ↔ _ :=
    hands_returns hb hlog (fakeReady_create m.server fkc)
  obtain ⟨rest, -, hload⟩ := aofLoad_splits (m := m) hlog ht hreads
  rw [Loads, ← hturns]
  constructor
  · rintro ⟨r, h⟩
    obtain ⟨hroom, m', hfold, -⟩ := (hload r).mp h
    exact ⟨hroom, m', hfold⟩
  · rintro ⟨hroom, m', hfold⟩
    exact ⟨_, (hload _).mpr ⟨hroom, m', hfold, rfl⟩⟩

end Fedis.Proof.Machine

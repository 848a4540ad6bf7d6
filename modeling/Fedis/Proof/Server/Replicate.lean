import Fedis.Proof.Server.SetGet
import Fedis.Proof.Backlog

/-!
# Log and propagation of a write command

`executed_write` says what is left of the read buffer when a write command has
run, `replicate_master` what a master makes of it. `agree_iff` puts them together:
log, backlog and slaves get the command's encoding iff the AOF is off, the buffer
holds nothing but the command, and no slave watches the key.
-/

namespace Fedis.Proof.Server

open Framework Resp

variable {query : RedisServer → ClientId → Except Fault RedisServer} {env : Env}
  {s s' t : RedisServer} {c x : ClientId} {argv : List Bytes} {cmd : RedisCommand}

/-! ## The command -/

/-- What becomes of a client's read buffer before its command runs. -/
def afterFeed (s : RedisServer) (c : ClientId) : Sds :=
  if s.aofOn then sdsDrained (s.client c).readBuf else (s.client c).readBuf

/-- A write command, from its request to its replication: the buffers. -/
structure Executed (s : RedisServer) (c : ClientId) (argv : List Bytes) (t : RedisServer) : Prop where
  readBuf : (t.client c).readBuf = afterFeed s c
  activeBuf : t.activeBuf.content =
    s.activeBuf.content ++ if s.aofOn then (s.client c).readBuf.content else []
  writeBuf : ∀ x, x ≠ c → (t.client x).writeBuf = (s.client x).writeBuf
  flags : ∀ x, (t.client x).flags =
    if x ∈ watchersAt s (s.client c).db.toNat (keyOf argv)
      then { (s.client x).flags with dirtyCas := true } else (s.client x).flags
  server : t.backlog = s.backlog ∧ t.clients = s.clients ∧ t.flags = s.flags

theorem executed_write (hc : cmd ∈ commandsTable) (hw : cmd.write = true)
    (hfake : (s.client c).flags.fake = false) (h : executed query env s c cmd argv = .ok t) :
    Executed s c argv t := by
  obtain ⟨hp, hslave, -⟩ := write_plain cmd hc hw
  have hap : ∀ x, Apart env cmd.proc x := fun x e => absurd e hslave
  have hserver := executed_server hp h
  have hcore := executed_core_write hc hw h
  have hbuf := executed_readBuf hp (hap c) h
  obtain ⟨s₁, h₁, h⟩ := bind_ok.mp h
  obtain ⟨s₂, h₂, h⟩ := bind_ok.mp h
  have hf := callProc_frame hp h₂
  have hfeed : ((feedAof s c cmd).client c).readBuf = afterFeed s c ∧
      (feedAof s c cmd).activeBuf.content =
        s.activeBuf.content ++ (if s.aofOn then (s.client c).readBuf.content else []) := by
    unfold feedAof afterFeed
    cases ha : s.aofOn with
    | false => simp
    | true =>
      simp only [hfake, hw, Bool.not_false, Bool.and_self, if_true]
      refine ⟨?_, content_sdscatlen _ _⟩
      rw [modifyClient_self]
      rfl
  have e₁ : s₁.client = (feedAof s c cmd).client := expireArg_client h₁
  have a₁ : s₁.activeBuf = (feedAof s c cmd).activeBuf := by
    have h₁ := expireArg_ok.mp h₁
    split at h₁
    · obtain ⟨key, db, -, -, rfl⟩ := h₁
      rfl
    · rw [h₁]
  rw [hw, if_pos rfl] at h
  refine ⟨hbuf.trans hfeed.1, ?_, fun x hx => ?_, fun x => ?_, hserver.backlog, hserver.clients, ?_⟩
  · have : t.activeBuf = s₂.activeBuf := by
      obtain ⟨key, db, -, -, ht⟩ := touchWatchKey_ok.mp h
      rw [ht]
      rfl
    rw [this, hf.activeBuf, a₁, hfeed.2]
  · have htouch := touchWatchKey_field (·.writeBuf) (fun _ => rfl) h x
    rw [htouch, hf.other x hx (hap x), e₁, feedAof_other hx]
  · rw [core_flags (hcore x)]
    split <;> rfl
  · exact hserver.flags.trans (if_neg hslave)

/-! ## The replication -/

theorem addWrites_client {l : List ClientId} (hl : l.Nodup) (b : Bytes) (s : RedisServer)
    (x : ClientId) : ((l.foldl (fun s x => addWrite s x b) s).client x).writeBuf =
      if x ∈ l then sdscat (s.client x).writeBuf b else (s.client x).writeBuf := by
  induction l generalizing s with
  | nil => simp
  | cons y l ih =>
    obtain ⟨hy, hl⟩ := List.nodup_cons.mp hl
    rw [List.foldl_cons, ih hl]
    by_cases hx : x = y
    · subst hx
      simp [hy, addWrite]
    · simp [hx, addWrite_of_ne]

/-- What a master does with the read buffer of a write command. -/
theorem replicate_master (hw : cmd.write = true) (hm : t.flags.master = true)
    (hn : t.clients.Nodup) :
    (replicate t c cmd).backlog.stream = t.backlog.stream ++ (t.client c).readBuf.content ∧
      (replicate t c cmd).activeBuf = t.activeBuf ∧
      ∀ x, ((replicate t c cmd).client x).writeBuf.content = (t.client x).writeBuf.content ++
        if x ∈ slaves t then cstr (t.client c).readBuf.buf else [] := by
  have hslaves : (slaves t).Nodup := hn.filter _
  set u : RedisServer := { t with backlog := addRepliBuf t.backlog (t.client c).readBuf.content }
    with hu
  obtain ⟨o, p, hr⟩ : ∃ o p, replicate t c cmd =
      { commandPropagate u (t.client c).readBuf with offset := o, cfgOffset := p } := by
    simp only [replicate, hw, hm, Bool.and_self, if_true]
    split
    · exact ⟨_, _, rfl⟩
    · exact ⟨_, _, rfl⟩
  obtain ⟨w, e⟩ := addWrites_frame (slaves t) (t.client c).readBuf.buf u
  have e : commandPropagate u (t.client c).readBuf = _ := e
  refine ⟨?_, ?_, fun x => ?_⟩
  · rw [hr, e, hu]
    exact Backlog.addRepliBuf_stream _ _
  · rw [hr, e]
  · have hfold := addWrites_client hslaves (t.client c).readBuf.buf u x
    have hx : ((replicate t c cmd).client x).writeBuf =
        if x ∈ slaves t then sdscat (t.client x).writeBuf (t.client c).readBuf.buf
        else (t.client x).writeBuf := by
      rw [hr]
      exact hfold
    rw [hx]
    split
    · exact content_sdscat _ _
    · simp

/-! ## Agreement -/

/-- What a call of a command appends to the log, the backlog and the slaves is
`enc`. `t` is the state in which the command has run and given its reply. -/
structure Agree (s t s' : RedisServer) (enc : Bytes) : Prop where
  slaves : ∀ x ∈ slaves s,
    (s'.client x).writeBuf.content = (t.client x).writeBuf.content ++ enc
  backlog : s'.backlog.stream = s.backlog.stream ++ enc
  aof : s.aofOn = true → s'.activeBuf.content = s.activeBuf.content ++ enc

/-- A watcher that the command marks is no slave for `commandPropagate`. -/
theorem mem_slaves (he : Executed s c argv t) (hx : x ∈ slaves s) :
    x ∈ slaves t ↔ x ∉ watchersAt s (s.client c).db.toNat (keyOf argv) := by
  have hxs : x ∈ s.clients ∧ (s.client x).flags = .REDIS_CLIENT_SLAVE := by
    simpa [slaves] using hx
  have hdirty : ClientFlags.REDIS_CLIENT_SLAVE.dirtyCas = false := rfl
  simp only [slaves, List.mem_filter, he.server.2.1, hxs.1, true_and, decide_eq_true_eq,
    he.flags x]
  split
  · rename_i hw
    simp only [hw, not_true_eq_false, iff_false]
    intro e
    rw [← e] at hdirty
    cases hdirty
  · rename_i hw
    simp [hw, hxs.2]

theorem encode_ne_nil (argv : List Bytes) : respEncodeArrayString argv ≠ [] := by
  simp [respEncodeArrayString]

/-- **Log and propagation.** For a write command that a master executes for a
client that is not a fake one: its encoding is what log, backlog and slaves get iff
the AOF is off, the read buffer holds the encoding and, for each slave, the slave
does not watch the key and the buffer's memory has a NUL behind the encoding. -/
theorem agree_iff (hm : s.flags.master = true) (hfake : (s.client c).flags.fake = false)
    (hn : s.clients.Nodup) (hf : foundCommand s c argv = some cmd) (hw : cmd.write = true)
    (h : processCommand query env s c argv = .ok s') :
    ∃ t, executed query env (logCall s c argv) c cmd argv = .ok t ∧
      (∀ x, x ≠ c → (t.client x).writeBuf = (s.client x).writeBuf) ∧
      (Agree s t s' (respEncodeArrayString argv) ↔
        s.aofOn = false ∧ (s.client c).readBuf.content = respEncodeArrayString argv ∧
          ∀ x ∈ slaves s, x ∉ watchersAt s (s.client c).db.toNat (keyOf argv) ∧
            cstr (s.client c).readBuf.buf = respEncodeArrayString argv) := by
  obtain ⟨-, t, ht, rfl⟩ := (processCommand_found hf).mp h
  have he : Executed s c argv t := by
    have := executed_write (mem_table hf) hw (s := logCall s c argv) hfake ht
    exact ⟨this.readBuf, this.activeBuf, this.writeBuf, this.flags, this.server⟩
  obtain ⟨hb, ha, hx⟩ := replicate_master (c := c) hw (t := t) (by rw [he.server.2.2, hm])
    (by rw [he.server.2.1]; exact hn)
  have hne := encode_ne_nil argv
  refine ⟨t, ht, he.writeBuf, fun hag => ?_, fun ⟨hoff, hread, hsl⟩ => ?_⟩
  · have hread : (t.client c).readBuf.content = respEncodeArrayString argv := by
      have h₁ : (clearReadBuf (replicate t c cmd) c).backlog.stream = _ := hag.backlog
      rw [clearReadBuf_backlog, hb, he.server.1] at h₁
      exact List.append_cancel_left h₁
    rw [he.readBuf, afterFeed] at hread
    cases hoff : s.aofOn with
    | true =>
      rw [hoff, if_pos rfl, content_of_len (len_sdsDrained _)] at hread
      exact absurd hread.symm hne
    | false =>
      have hrb : (t.client c).readBuf = (s.client c).readBuf := by
        rw [he.readBuf, afterFeed, hoff]
        rfl
      rw [hoff] at hread
      refine ⟨rfl, hread, fun x hxs => ?_⟩
      have h₁ := hag.slaves x hxs
      rw [writeBuf_clearReadBuf, hx] at h₁
      have h₁ := List.append_cancel_left h₁
      split at h₁
      · rename_i hmem
        exact ⟨(mem_slaves he hxs).mp hmem, by rw [← h₁, hrb]⟩
      · exact absurd h₁.symm hne
  · have hrb : (t.client c).readBuf = (s.client c).readBuf := by
      rw [he.readBuf, afterFeed, hoff]
      rfl
    refine ⟨fun x hxs => ?_, ?_, fun hon => ?_⟩
    · obtain ⟨hnw, hc⟩ := hsl x hxs
      rw [writeBuf_clearReadBuf, hx, if_pos ((mem_slaves he hxs).mpr hnw), hrb, hc]
    · rw [clearReadBuf_backlog, hb, he.server.1, hrb, hread]
    · rw [hoff] at hon
      cases hon

/-- A master with a client and a slave. -/
def sampleMaster (aofOn : Bool) : RedisServer :=
  (acceptTcpHandler (sampleServer aofOn) 8 (bytes "127.0.0.1") 5001).modifyClient 8 fun client =>
    { client with flags := .REDIS_CLIENT_SLAVE }

theorem agree_iff_set : ∃ s' t,
    processCommand (processClientQueryBuf ⟨0, none⟩ 11) ⟨0, none⟩
      (received (sampleMaster false) 7
        (respEncodeArrayString [bytes "SET", bytes "k", bytes "v"])) 7
      [bytes "SET", bytes "k", bytes "v"] = .ok s' ∧
    Agree (sampleMaster false) t s'
      (respEncodeArrayString [bytes "SET", bytes "k", bytes "v"]) := by
  have hall : ((processCommand (processClientQueryBuf ⟨0, none⟩ 11) ⟨0, none⟩
      (received (sampleMaster false) 7
        (respEncodeArrayString [bytes "SET", bytes "k", bytes "v"])) 7
      [bytes "SET", bytes "k", bytes "v"]) >>= fun _ => .ok ()) = .ok () := by decide
  obtain ⟨s', h, -⟩ := bind_ok.mp hall
  have hf : foundCommand (received (sampleMaster false) 7
      (respEncodeArrayString [bytes "SET", bytes "k", bytes "v"])) 7 [bytes "SET", bytes "k", bytes "v"] =
      some ⟨true, false, bytes "SET", .set, 3⟩ := by decide
  obtain ⟨t, -, -, hiff⟩ := agree_iff (by decide) (by decide) (by decide) hf rfl h
  have hag := hiff.mpr ⟨by decide, by decide, by decide⟩
  exact ⟨s', t, h, hag.slaves, hag.backlog, hag.aof⟩

/-- With the AOF on, it alone gets the command. -/
theorem agree_fails : ∃ s', readFromClient ⟨0, none⟩ (sampleMaster true) 7
      (respEncodeArrayString [bytes "SET", bytes "k", bytes "v"]) = .ok s' ∧
    (s'.client 7).writeBuf.content = resp.ok ∧
    s'.activeBuf.content = respEncodeArrayString [bytes "SET", bytes "k", bytes "v"] ∧
    s'.backlog.stream = [] ∧ (s'.client 8).writeBuf.content = [] := by
  have hall : (do
      let s' ← readFromClient ⟨0, none⟩ (sampleMaster true) 7
        (respEncodeArrayString [bytes "SET", bytes "k", bytes "v"])
      return ((s'.client 7).writeBuf.content, s'.activeBuf.content, s'.backlog.stream,
        (s'.client 8).writeBuf.content)) =
      .ok (resp.ok, respEncodeArrayString [bytes "SET", bytes "k", bytes "v"], [], []) := by
    decide
  obtain ⟨s', h, hall⟩ := bind_ok.mp hall
  simp only [pure_ok, Prod.mk.injEq] at hall
  exact ⟨s', h, hall⟩

end Fedis.Proof.Server

import Fedis.Proof.Repli.FullSync
import Fedis.Proof.Server.Split

/-!
# The offset of a slave

`processCommand_counts` is a write command on a slave: the offset advances by what the
client's read buffer still holds. `appendSync_counts` adds the requests of an append-sync
buffer up, and `offset_counts` is when the offset counts what has been executed.
-/

namespace Fedis.Proof.Repli

open Framework Resp Server

variable {D : Type} {io : RdbIO D} {env : Env} {c fake : ClientId} {sl sl' : Slave D}
  {query : RedisServer → ClientId → Except Fault RedisServer} {s s' t : RedisServer}
  {argv : List Bytes} {cmd : RedisCommand}

/-! ## What has been executed -/

/-- The bytes of the requests that found a command. -/
def bytesOf (calls : List Call) : Nat :=
  ((calls.filter (·.proc.isSome)).map fun call => (respEncodeArrayString call.argv).length).sum

/-- The bytes of the requests executed between the two states. -/
def executedBytes (s s' : RedisServer) : Nat := bytesOf (s'.calls.drop s.calls.length)

/-- The offset has advanced by what was executed. -/
def Counts (s s' : RedisServer) : Prop := s'.offset = s.offset + executedBytes s s'

theorem bytesOf_cons (call : Call) (calls : List Call) (h : call.proc.isSome = true) :
    bytesOf (call :: calls) = (respEncodeArrayString call.argv).length + bytesOf calls := by
  have hfilter : (call :: calls).filter (·.proc.isSome) = call :: calls.filter (·.proc.isSome) :=
    List.filter_cons_of_pos h
  rw [bytesOf, hfilter]
  rfl

theorem counts_iff {new : List Call} (h : s'.calls = s.calls ++ new) :
    Counts s s' ↔ s'.offset = s.offset + bytesOf new := by
  rw [Counts, executedBytes, h, List.drop_left]

/-! ## A write command on a slave -/

theorem callProc_offset {proc : Proc} (hw : proc = .set ∨ proc = .del ∨ proc = .expire)
    (h : callProc query env proc s c argv = .ok s') : s'.offset = s.offset := by
  rcases hw with rfl | rfl | rfl
  · obtain ⟨_, -, ⟨-, rfl⟩ | ⟨_, _, -, -, rfl⟩⟩ := commandSetProc_ok.mp h <;> rfl
  · obtain ⟨_, _, -, -, rfl⟩ := commandDelProc_ok.mp h
    unfold afterDel
    split <;> rfl
  · obtain ⟨_, _, -, -, ⟨-, rfl⟩ | ⟨_, _, -, -, -, rfl⟩⟩ := commandExpireProc_ok.mp h
    · rfl
    · unfold afterExpire
      split <;> rfl

/-- A write command leaves the read buffers as the AOF left them. -/
theorem executed_keeps (hc : cmd ∈ commandsTable) (hw : cmd.write = true)
    (h : executed query env s c cmd argv = .ok t) :
    t.offset = s.offset ∧ ∀ x, (t.client x).readBuf = ((feedAof s c cmd).client x).readBuf := by
  obtain ⟨hp, hslave, -⟩ := write_plain cmd hc hw
  refine ⟨?_, fun x => executed_readBuf hp (fun e => absurd e hslave) h⟩
  obtain ⟨s₁, s₂, h₂, ⟨db, client, activeBuf, e₁⟩, db', client', e₂⟩ := executed_frame h
  have hoffset := callProc_offset (write_proc cmd hc hw) h₂
  rw [e₁] at hoffset
  rw [e₂]
  exact hoffset

theorem feedAof_logCall (s : RedisServer) (c : ClientId) (argv : List Bytes) (cmd : RedisCommand) :
    (feedAof (logCall s c argv) c cmd).client = (feedAof s c cmd).client := by
  unfold feedAof
  rw [show (logCall s c argv).client = s.client from rfl, show (logCall s c argv).aofOn = s.aofOn from rfl]
  split <;> rfl

/-- A slave counts what is in the read buffer. -/
theorem replicate_counts (hw : cmd.write = true) (hs : s.flags.slave = true) :
    (replicate s c cmd).offset = s.offset + (s.client c).readBuf.len := by
  unfold replicate commandPropagate
  dsimp only
  obtain ⟨w, e⟩ := addWrites_frame (slaves s) (s.client c).readBuf.buf
    { s with backlog := addRepliBuf s.backlog (s.client c).readBuf.content }
  have hs' : slaves { s with backlog := addRepliBuf s.backlog (s.client c).readBuf.content } =
      slaves s := rfl
  by_cases hm : (cmd.write && s.flags.master) = true
  · rw [if_pos hm, hs', e]
    dsimp only
    rw [if_pos (by rw [hw, hs]; rfl)]
    rfl
  · rw [if_neg hm, if_pos (by rw [hw, hs]; rfl)]
    rfl

/-- **A write command on a slave** advances the offset by what is left in the read buffer. -/
theorem processCommand_counts (hf : foundCommand s c argv = some cmd) (hw : cmd.write = true)
    (hs : s.flags.slave = true) (h : processCommand query env s c argv = .ok s') :
    s'.offset = s.offset + ((feedAof s c cmd).client c).readBuf.len ∧ s'.flags = s.flags ∧
      ∀ x, x ≠ c → (s'.client x).readBuf = (s.client x).readBuf := by
  have hc := mem_table hf
  obtain ⟨hp, hslave, -⟩ := write_plain cmd hc hw
  obtain ⟨-, t, ht, rfl⟩ := (processCommand_found hf).mp h
  obtain ⟨hoffset, hbufs⟩ := executed_keeps hc hw ht
  rw [feedAof_logCall] at hbufs
  have hflags : t.flags = s.flags := (executed_server hp ht).flags.trans (if_neg hslave)
  refine ⟨?_, ?_, fun x hx => ?_⟩
  · show (replicate t c cmd).offset = _
    rw [replicate_counts hw (hflags ▸ hs), hoffset, hbufs c]
    rfl
  · exact (replied_field (·.flags) fun _ _ _ _ _ => rfl).trans hflags
  · rw [clearReadBuf, modifyClient_of_ne _ _ _ hx, replicate_readBuf]
    exact (hbufs x).trans (congrArg RedisClient.readBuf (feedAof_other hx s cmd))

/-! ## The append-sync buffer -/

/-- Nothing but a request of the fake client is counted. -/
theorem handTo_counts (hf : FakeReady s fake) (hfake : (s.client fake).flags.fake = true)
    (ha : Logged argv) (hs : s.flags.slave = true) (h : handTo env fake s argv = .ok t) :
    t.offset = s.offset + (respEncodeArrayString argv).length ∧ t.flags = s.flags ∧
      (t.client fake).flags.fake = true ∧
      (∀ x, x ≠ fake → (t.client x).readBuf = (s.client x).readBuf) ∧
      ∃ call, call.argv = argv ∧ call.proc.isSome = true ∧ t.calls = s.calls ++ [call] := by
  obtain ⟨hr, cmd, he, hw⟩ := ha
  have hfound := fed_found hf he hr.ne_nil
  have hfed : ((fed s fake argv).client fake).flags.fake = true := by
    rw [core_flags (fed_core ..), hfake]
  obtain ⟨hoffset, hflags, hbufs⟩ := processCommand_counts (s := fed s fake argv) hfound hw hs h
  refine ⟨?_, hflags, ?_, fun x hx => ?_, callOf (fed s fake argv) fake argv, rfl, ?_, ?_⟩
  · have hlen : ((feedAof (fed s fake argv) fake cmd).client fake).readBuf.len =
        (respEncodeArrayString argv).length := by
      unfold feedAof
      rw [hfed, if_neg (by simp), fed, modifyClient_self]
      show (sdscatlen _ _).len = _
      rw [len_sdscatlen, hf.readBuf, Nat.zero_add]
    rw [hoffset, hlen]
    rfl
  · obtain ⟨⟨d, e⟩, -⟩ := handTo_client hf he hr.ne_nil hw h
    rw [e]
    exact hfake
  · rw [hbufs x hx, fed, modifyClient_of_ne _ _ _ hx]
  · rw [callOf, hfound]
    rfl
  · exact processCommand_calls (fed_notExec hf he hr.ne_nil hw) h

/-- The loop of `doAppendSync` adds up what it executes. -/
theorem appendSync_counts (hne : c ≠ fake) {log : List (List Bytes)} (hlog : ∀ q ∈ log, Logged q)
    {v : Bytes} (hv : Partial v) {n : Nat}
    (hbuf : Holds (s.client c).readBuf (log.flatMap respEncodeArrayString ++ v))
    (hf : FakeReady s fake) (hfake : (s.client fake).flags.fake = true) (hs : s.flags.slave = true)
    (h : appendSyncLoop env c fake n s = .ok t) :
    t.offset = s.offset + (log.flatMap respEncodeArrayString).length ∧
      (t.client c).readBuf.len = v.length ∧
      ∃ new, t.calls = s.calls ++ new ∧ bytesOf new = (log.flatMap respEncodeArrayString).length := by
  induction log generalizing n s with
  | nil =>
    cases n with
    | zero => cases h
    | succ n =>
      have hlen := hbuf.len
      rw [List.flatMap_nil, List.nil_append] at hlen
      rw [appendSyncLoop, hlen, hv _ hbuf.buf] at h
      cases h
      exact ⟨(Int.add_zero _).symm, hlen, [], (List.append_nil _).symm, rfl⟩
  | cons argv log ih =>
    cases n with
    | zero => cases h
    | succ n =>
      have ha := hlog argv List.mem_cons_self
      rw [List.flatMap_cons, List.append_assoc] at hbuf
      obtain ⟨endptr, hparse, hend, htake, hrange, htail⟩ := request_front ha.request hbuf
      rw [appendSyncLoop, hparse, ok_bind] at h
      dsimp only at h
      rw [htake] at h
      obtain ⟨u, hu, h⟩ := bind_ok.mp h
      have hhand : handTo env fake s argv = .ok u := by
        rw [← query_hands hf ha.request]
        exact hu
      obtain ⟨hoffset, hflags, hfakeu, hbufs, call, hargv, hproc, hcalls⟩ :=
        handTo_counts hf hfake ha hs hhand
      obtain ⟨u', hu', h⟩ := bind_ok.mp h
      rw [rangeReadBuf, hbufs c hne, hrange] at hu'
      cases hu'
      obtain ⟨cmd, he, hw⟩ := ha.entry
      have hfu := handTo_ready hf he ha.request.ne_nil hw hhand
      set u' := u.modifyClient c fun client =>
        { client with readBuf := sdsTail (s.client c).readBuf (endptr + 1) } with hdef
      have hself : u'.client fake = u.client fake := modifyClient_of_ne _ _ _ (Ne.symm hne)
      obtain ⟨ho, hl, new, hnew, hbytes⟩ := ih (s := u') (fun q h => hlog q (List.mem_cons_of_mem _ h))
        (by rw [hdef, modifyClient_self]; exact htail)
        ⟨by rw [hself]; exact hfu.normal, by rw [hself]; exact hfu.multi,
          by rw [hself]; exact hfu.db, by rw [hself]; exact hfu.readBuf⟩
        (by rw [hself]; exact hfakeu) (hflags ▸ hs) h
      refine ⟨?_, hl, call :: new, ?_, ?_⟩
      · rw [ho, show u'.offset = u.offset from rfl, hoffset, List.flatMap_cons, List.length_append]
        omega
      · rw [hnew, show u'.calls = u.calls from rfl, hcalls, List.append_assoc]
        rfl
      · rw [bytesOf_cons _ _ hproc, hbytes, hargv, List.flatMap_cons, List.length_append]

theorem flatMap_encode_length_pos {log : List (List Bytes)} (h : log ≠ []) :
    0 < (log.flatMap respEncodeArrayString).length :=
  Nat.lt_of_lt_of_le (List.length_pos_of_ne_nil h) (length_le_log log)

/-- `doAppendSync` counts the bytes of every command once for itself and once for the
buffer. -/
theorem doAppendSync_counts (hne : c ≠ fake) {log : List (List Bytes)} (hlog : ∀ q ∈ log, Logged q)
    {v : Bytes} (hv : Partial v)
    (hbuf : Holds (s.client c).readBuf (log.flatMap respEncodeArrayString ++ v))
    (hs : s.flags.slave = true) :
    (∃ s', doAppendSync env c fake s = .ok s' ∧ Counts s s') ↔ log = [] := by
  set s₁ := s.modifyClient fake fun _ => redisFakeClientCreate with hs₁
  have hself : s₁.client fake = redisFakeClientCreate := modifyClient_self ..
  have hother : s₁.client c = s.client c := modifyClient_of_ne _ _ _ hne
  have hlen := hbuf.len
  constructor
  · rintro ⟨s', h, hcounts⟩
    obtain ⟨t, ht, h⟩ := bind_ok.mp h
    cases h
    obtain ⟨ho, hl, new, hnew, hbytes⟩ := appendSync_counts (s := s₁) hne hlog hv
      (by rw [hother]; exact hbuf) (Machine.fakeReady_create s fake) (by rw [hself]; rfl) hs ht
    have hcalls (o : Int) : (slaveUpdateOffset t o).calls = s.calls ++ new := hnew
    have hoff := (counts_iff (hcalls _)).mp hcounts
    have hstart : s₁.offset = s.offset := rfl
    simp only [slaveUpdateOffset, ho, hl, hlen, hbytes, List.length_append] at hoff
    by_contra hlog'
    have := flatMap_encode_length_pos hlog'
    omega
  · rintro rfl
    rw [List.flatMap_nil, List.nil_append] at hbuf hlen
    have hloop : appendSyncLoop env c fake ((s.client c).readBuf.len + 1) s₁ = .ok s₁ := by
      rw [appendSyncLoop, hother, hlen, hv _ hbuf.buf]
      rfl
    have hcalls (o : Int) : (slaveUpdateOffset s₁ o).calls = s.calls ++ [] := (List.append_nil _).symm
    refine ⟨_, bind_ok.mpr ⟨s₁, hloop, rfl⟩, (counts_iff (hcalls _)).mpr ?_⟩
    show s.offset + _ - _ = s.offset + 0
    rw [hother]
    omega

/-! ## A read in the connected state -/

/-- The handler that is registered for the master's socket, on the memory of the slave. -/
def masterReadable (slack : Nat) (io : RdbIO D) (env : Env) (c fake : ClientId) (n : Nat)
    (sl : Slave D) (tables : List DbTables) (nread : Bytes) :
    Except Fault (Option (Slave D × List DbTables)) :=
  if sl.repliReads then
    if (sl.readBuf c).Fits nread.length then do
      let sl ← repliReadHandler io env c fake n sl nread
      return sl.map (·, tables)
    else .error .undefined
  else do
    let m ← Machine.readFromClient slack env ⟨sl.server, tables⟩ c nread
    return some ({ sl with server := m.server }, m.tables)

/-- The client that `connectMaster` made. -/
structure MasterLink (s : RedisServer) (c : ClientId) : Prop where
  normal : (s.client c).flags.normal = false
  fake : (s.client c).flags.fake = false
  multi : (s.client c).flags.multi = false

section Connected

variable {w nread v : Bytes} {q : List Bytes} {qs : List (List Bytes)} {m : Machine}

theorem received_holds (h : Holds (s.client c).readBuf w) (hz : ∀ b ∈ nread, b ≠ 0) :
    Holds ((received s c nread).client c).readBuf (w ++ nread) := by
  rw [received, modifyClient_self]
  show Holds (sdscatlen _ (cstr nread)) _
  rw [cstr_eq_self hz]
  exact holds_sdscatlen h nread

/-- The requests come from the master, so that they are looked up like those of no normal
client. -/
theorem received_found (hlink : MasterLink s c) (hr : Request q) (he : entryOf q = some cmd) :
    foundCommand (received s c nread) c q = some cmd := by
  refine foundCommand_entryOf ?_ he hr.ne_nil
  rw [received_client]
  exact hlink.normal

/-- The first request in the buffer counts all bytes that are there, of which the request is
but a part, unless the AOF took them. -/
theorem first_counts {cmd : RedisCommand} (hlink : MasterLink s c) (hs : s.flags.slave = true)
    (hr : Request q) (he : entryOf q = some cmd) (hw : cmd.write = true) (hz : ∀ b ∈ nread, b ≠ 0)
    (hbuf : Holds (s.client c).readBuf w) (hflat : w ++ nread = respEncodeArrayString q ++ v)
    (ht : processCommand (processClientQueryBuf env 11) env (received s c nread) c q = .ok t) :
    Counts s (clearReadBuf t c) ↔ s.aofOn = false ∧ v = [] := by
  have hself : (received s c nread).client c = { (s.client c) with
      readBuf := ((received s c nread).client c).readBuf } := by
    rw [received, modifyClient_self]
  have hfound : foundCommand (received s c nread) c q = some cmd := received_found hlink hr he
  have hnot : NotExec (received s c nread) c q :=
    (notExec_found hfound).mpr (write_plain cmd (List.mem_of_find?_eq_some he) hw).1
  have hlen := (received_holds hbuf hz).len
  have hpos := List.length_pos_of_ne_nil (encode_ne_nil q)
  rw [hflat, List.length_append] at hlen
  obtain ⟨hoffset, -, -⟩ := processCommand_counts hfound hw (s := received s c nread) hs ht
  have hone := processCommand_calls hnot ht
  have hcalls : (clearReadBuf t c).calls = s.calls ++ [callOf (received s c nread) c q] := hone
  have hproc : (callOf (received s c nread) c q).proc.isSome = true := by
    rw [callOf, hfound]
    rfl
  have hbytes : bytesOf [callOf (received s c nread) c q] = (respEncodeArrayString q).length :=
    bytesOf_cons _ [] hproc
  have hfeed : ((feedAof (received s c nread) c cmd).client c).readBuf.len =
      if s.aofOn then 0 else (respEncodeArrayString q).length + v.length := by
    have hfake : ((received s c nread).client c).flags.fake = false := by
      rw [hself]
      exact hlink.fake
    unfold feedAof
    rw [hfake, hw, show (received s c nread).aofOn = s.aofOn from rfl]
    cases s.aofOn with
    | false => exact hlen
    | true =>
      simp only [Bool.not_false, Bool.and_self, if_true]
      rw [modifyClient_self]
      rfl
  have hstart : (received s c nread).offset = s.offset := rfl
  rw [counts_iff hcalls, hbytes, show (clearReadBuf t c).offset = t.offset from rfl, hoffset, hfeed,
    hstart, Int.add_right_inj, Int.ofNat_inj]
  cases s.aofOn with
  | false =>
    have hv : v = [] ↔ v.length = 0 := List.length_eq_zero_iff.symm
    simp only [if_false, true_and, hv, Bool.false_eq_true]
    omega
  | true =>
    simp only [if_true, reduceCtorEq, false_and, iff_false]
    omega

/-- A read that `readFromClient` handles executes the first request, and counts all that
is in the buffer unless the AOF took it. -/
theorem read_counts {slack : Nat} (hb : Machine.Coherent m) (hlink : MasterLink m.server c)
    (hs : m.server.flags.slave = true) (hq : Logged q) (hz : ∀ b ∈ nread, b ≠ 0) (hn : nread ≠ [])
    (hbuf : Holds (m.server.client c).readBuf w) (hflat : w ++ nread = respEncodeArrayString q ++ v) :
    (∃ m', m.readFromClient slack env c nread = .ok m' ∧ Counts m.server m'.server) ↔
      m.server.aofOn = false ∧ nread.length < 1024 ∧ v = [] ∧ Machine.Takes slack env m c nread q := by
  obtain ⟨hr, cmd, he, hw⟩ := id hq
  have hfound : foundCommand (received m.server c nread) c q = some cmd := received_found hlink hr he
  obtain ⟨hp, hslave, -⟩ := write_plain cmd (List.mem_of_find?_eq_some he) hw
  have hnq : ¬ Queues m.server c q := not_queues hlink.multi
  have hread (m' : Machine) : m.readFromClient slack env c nread = .ok m' ↔ nread.length < 1024 ∧ _ :=
    Machine.read_calls hr hn hz (by rw [hbuf.content, hflat]) hnq
  have hcount {m₁ : Machine} (h : Machine.processCommand (Machine.processClientQueryBuf slack env 11)
      env { m with server := received m.server c nread } c q = .ok m₁) :
      Counts m.server (m₁.clearReadBuf c).server ↔ m.server.aofOn = false ∧ v = [] := by
    have hcall := Machine.processCommand_server (fun h => Machine.query_server h) h
    exact first_counts hlink hs hr he hw hz hbuf hflat hcall
  have hreturns : (∃ m₁, Machine.processCommand (Machine.processClientQueryBuf slack env 11) env
      { m with server := received m.server c nread } c q = .ok m₁) ↔
      ∃ out, Machine.ReturnsWith env { m with server := received m.server c nread } c q cmd out :=
    Machine.processCommand_returns hb hfound hp hslave
  constructor
  · rintro ⟨m', h, hc⟩
    obtain ⟨hlen, hfit, hdec, m₁, h₁, rfl⟩ := (hread m').mp h
    obtain ⟨haof, hv⟩ := (hcount h₁).mp hc
    obtain ⟨out, hret⟩ := hreturns.mp ⟨m₁, h₁⟩
    exact ⟨haof, hlen, hv, hfit, hdec, cmd, out, he, hret⟩
  · rintro ⟨haof, hlen, hv, hfit, hdec, cmd', out, he', hret⟩
    obtain rfl : cmd = cmd' := Option.some.inj (he.symm.trans he')
    obtain ⟨m₁, h₁⟩ := hreturns.mpr ⟨out, hret⟩
    exact ⟨_, (hread _).mpr ⟨hlen, hfit, hdec, m₁, h₁, rfl⟩, (hcount h₁).mpr ⟨haof, hv⟩⟩

/-- As long as `repliReadHandler` is registered, a complete request keeps it in its loop. -/
theorem request_stuck (hconn : sl.server.replState = .slaveConnected) (hq : Logged q)
    (hbuf : Holds (sl.readBuf c) w) (hflat : w ++ nread = respEncodeArrayString q ++ v) :
    Stuck c (receive c sl nread) := by
  have hholds : Holds ((receive c sl nread).readBuf c) (respEncodeArrayString q ++ v) := by
    rw [← hflat, receive, Slave.readBuf, modifyClient_self]
    exact holds_sdscatlen hbuf nread
  constructor
  · rw [Awaits, show (receive c sl nread).server.replState = .slaveConnected from hconn]
    have hpos := List.length_pos_of_ne_nil (encode_ne_nil q)
    -- a request begins with an asterisk
    refine not_prefix (j := 0) (by decide) ?_
    rw [hholds.getD (by rw [List.length_append]; omega), getD_append, if_pos hpos]
    show (42 : UInt8) ≠ 43
    decide
  · obtain ⟨endptr, hparse, -⟩ := request_front hq.request hholds
    exact ⟨endptr, hparse⟩

/-- **When the offset counts what was applied.** An append-sync buffer of whole requests
and a part `v` of a further one must hold no whole request, and a read of requests in the
connected state just one that can be taken, with the AOF off. -/
theorem offset_counts (slack : Nat) (io : RdbIO D) (env : Env) (hne : c ≠ fake)
    (hs : sl.server.flags.slave = true) (hqs : ∀ q ∈ qs, Logged q) :
    (∀ next v, Logged next → v <+: respEncodeArrayString next →
      v.length < (respEncodeArrayString next).length →
      Holds (sl.readBuf c) (qs.flatMap respEncodeArrayString ++ v) →
      ((∃ s', doAppendSync env c fake sl.server = .ok s' ∧ Counts sl.server s') ↔ qs = [])) ∧
    (∀ tables w nread, Machine.Coherent ⟨sl.server, tables⟩ →
      sl.server.replState = .slaveConnected → MasterLink sl.server c →
      Holds (sl.readBuf c) w → nread ≠ [] → w ++ nread = qs.flatMap respEncodeArrayString →
      ((∃ n sl' tables', masterReadable slack io env c fake n sl tables nread =
          .ok (some (sl', tables')) ∧ Counts sl.server sl'.server) ↔
        sl.repliReads = false ∧ sl.server.aofOn = false ∧ nread.length < 1024 ∧
          ∃ q, qs = [q] ∧ Machine.Takes slack env ⟨sl.server, tables⟩ c nread q)) := by
  refine ⟨fun next v hnext hv hlt hbuf => doAppendSync_counts hne hqs
    (partial_request hnext.request hv hlt) hbuf hs, fun tables w nread hb hconn hlink hbuf hn hflat => ?_⟩
  obtain ⟨q, rest, rfl⟩ : ∃ q rest, qs = q :: rest := by
    cases qs with
    | nil => exact absurd (List.append_eq_nil_iff.mp hflat).2 hn
    | cons q rest => exact ⟨q, rest, rfl⟩
  have hq := hqs q List.mem_cons_self
  have hz : ∀ b ∈ nread, b ≠ 0 := fun b hb => by
    have hmem : b ∈ (q :: rest).flatMap respEncodeArrayString := hflat ▸ List.mem_append_right _ hb
    obtain ⟨argv, -, hb⟩ := List.mem_flatMap.mp hmem
    exact encode_ne_zero argv b hb
  rw [List.flatMap_cons] at hflat
  have hrest : rest.flatMap respEncodeArrayString = [] ↔ rest = [] := by
    constructor
    · intro h
      by_contra hne
      have := flatMap_encode_length_pos hne
      rw [h] at this
      cases this
    · rintro rfl
      rfl
  cases hreads : sl.repliReads with
  | true =>
    have hloop (n : Nat) (r : Slave D × List DbTables) :
        masterReadable slack io env c fake n sl tables nread ≠ .ok (some r) := by
      rw [masterReadable, if_pos hreads]
      split
      · rw [repliReadHandler, if_neg hn, stuck_loops (request_stuck hconn hq hbuf hflat) n]
        simp [ok_bind]
      · simp
    refine iff_of_false ?_ fun h => by cases h.1
    rintro ⟨n, sl', tables', h, -⟩
    exact hloop n _ h
  | false =>
    have hread (n : Nat) (r : Slave D × List DbTables) :
        masterReadable slack io env c fake n sl tables nread = .ok (some r) ↔
          ∃ m', Machine.readFromClient slack env ⟨sl.server, tables⟩ c nread = .ok m' ∧
            r = ({ sl with server := m'.server }, m'.tables) := by
      rw [masterReadable, if_neg (by rw [hreads]; decide), bind_ok]
      simp only [pure_ok, Option.some.injEq, @eq_comm _ r]
    have hiff : (∃ m', Machine.readFromClient slack env ⟨sl.server, tables⟩ c nread = .ok m' ∧
        Counts sl.server m'.server) ↔ _ :=
      read_counts hb hlink hs hq hz hn hbuf hflat
    rw [hrest] at hiff
    constructor
    · rintro ⟨n, sl', tables', h, hc⟩
      obtain ⟨m', hm', e⟩ := (hread n _).mp h
      cases e
      obtain ⟨haof, hlen, rfl, htakes⟩ := hiff.mp ⟨m', hm', hc⟩
      exact ⟨rfl, haof, hlen, q, rfl, htakes⟩
    · rintro ⟨-, haof, hlen, q', hq', htakes⟩
      obtain ⟨rfl, rfl⟩ := List.cons.inj hq'
      obtain ⟨m', hm', hc⟩ := hiff.mpr ⟨haof, hlen, rfl, htakes⟩
      exact ⟨0, _, _, (hread 0 _).mpr ⟨m', hm', rfl⟩, hc⟩

end Connected

/-- A slave whose connection to the master is the client 1, with these bytes in its buffer. -/
def connectedSlave (aofOn : Bool) (readBuf : Bytes) : Slave Unit where
  server := { connectMaster ⟨0, some 1⟩ (initServer 1 ⟨false, true, false⟩ 1 aofOn) with
    replState := .slaveConnected }.modifyClient 1 fun client =>
      { client with readBuf := sdscatlen client.readBuf readBuf }
  disk := ()
  repliReads := false
  repliWrites := true
  received := 0
  events := []

/-- A read of the slave, with the dicts of its one database. -/
def sampleMasterRead (aofOn : Bool) (nread : Bytes) : Except Fault Machine :=
  Machine.readFromClient 64 ⟨0, none⟩ ⟨(connectedSlave aofOn []).server, initTables 1⟩ 1 nread

/-- A part of a request in the append-sync buffer, and one request in a read. -/
theorem offset_counts_one :
    let q := [bytes "SET", bytes "k", bytes "v"]
    let v := (respEncodeArrayString q).take 9
    (∃ s', doAppendSync ⟨0, none⟩ 1 2 (connectedSlave false v).server = .ok s' ∧
      Counts (connectedSlave false v).server s') ∧
    ∃ n sl' tables', masterReadable 64 noRdb ⟨0, none⟩ 1 2 n (connectedSlave false [])
        (initTables 1) (respEncodeArrayString q) = .ok (some (sl', tables')) ∧
      Counts (connectedSlave false []).server sl'.server := by
  intro q v
  have hentry : entryOf q = some ⟨true, false, bytes "SET", .set, 3⟩ := by decide
  have hq : Logged q := ⟨⟨by decide, by decide, by decide +kernel, by decide⟩, _, hentry, rfl⟩
  have hne : (1 : ClientId) ≠ 2 := by decide
  have hslave : ∀ v, (connectedSlave false v).server.flags.slave = true := fun _ => rfl
  constructor
  · have hnone : ∀ q ∈ ([] : List (List Bytes)), Logged q := by simp
    obtain ⟨happend, -⟩ := offset_counts 64 noRdb ⟨0, none⟩ hne (hslave v) hnone
    exact (happend q v hq (List.take_prefix _ _) (by decide)
      ⟨by decide, by decide⟩).mpr rfl
  · have hone : ∀ q' ∈ [q], Logged q' := by simp [hq]
    have hb : Machine.Coherent ⟨(connectedSlave false []).server, initTables 1⟩ :=
      Machine.coherent_init fun db h => List.mem_singleton.mp h
    have hdicts : Machine.Runs (initTables 1) 0
        [.expireIfNeed (bytes "k") 0, .add (bytes "k") (robjCreateStringObject (bytes "v")),
          .touchWatchKey (bytes "k")] := (Machine.runs_iff hb).mp (by decide +kernel)
    have hreturns : Machine.ReturnsWith ⟨0, none⟩
        ⟨received (connectedSlave false []).server 1 (respEncodeArrayString q), initTables 1⟩ 1 q
        ⟨true, false, bytes "SET", .set, 3⟩ [resp.ok] :=
      { keyed := fun _ => ⟨rfl, rfl⟩
        answer := rfl
        runs := hdicts
        logs := nofun
        output := by
          show Sds.Fits _ resp.ok.length
          decide
        slaves := nofun }
    obtain ⟨-, hread⟩ := offset_counts 64 noRdb ⟨0, none⟩ hne (hslave []) hone
    refine (hread _ [] _ hb rfl ⟨rfl, rfl, rfl⟩ ⟨by decide, List.nil_prefix⟩ (encode_ne_nil q)
      ?_).mpr ⟨rfl, rfl, by decide, q, rfl, by decide, by decide +kernel, _, _, hentry, hreturns⟩
    rw [List.nil_append, List.flatMap_singleton]

/-- Counted twice, counted with a request that is dropped, and not counted. -/
theorem offset_miscounts :
    let q := [bytes "SET", bytes "k", bytes "v"]
    (∃ s', doAppendSync ⟨0, none⟩ 1 2 (connectedSlave false (respEncodeArrayString q)).server = .ok s' ∧
      s'.offset = -1 + 2 * 27 ∧
      executedBytes (connectedSlave false (respEncodeArrayString q)).server s' = 27) ∧
    (∃ m', sampleMasterRead false (respEncodeArrayString q ++ respEncodeArrayString q) = .ok m' ∧
      m'.server.offset = -1 + 2 * 27 ∧
      executedBytes (connectedSlave false []).server m'.server = 27) ∧
    ∃ m', sampleMasterRead true (respEncodeArrayString q) = .ok m' ∧
      m'.server.offset = -1 ∧ executedBytes (connectedSlave true []).server m'.server = 27 := by
  intro q
  refine ⟨?_, ?_, ?_⟩
  · have hall : (doAppendSync ⟨0, none⟩ 1 2 (connectedSlave false (respEncodeArrayString q)).server >>=
        fun s' => .ok (s'.offset,
          executedBytes (connectedSlave false (respEncodeArrayString q)).server s')) =
        .ok (-1 + 2 * 27, 27) := by decide
    obtain ⟨s', h, hall⟩ := bind_ok.mp hall
    exact ⟨s', h, congrArg Prod.fst (Except.ok.inj hall), congrArg Prod.snd (Except.ok.inj hall)⟩
  · have hall : (sampleMasterRead false (respEncodeArrayString q ++ respEncodeArrayString q) >>=
        fun m' => .ok (m'.server.offset, executedBytes (connectedSlave false []).server m'.server)) =
        .ok (-1 + 2 * 27, 27) := by decide +kernel
    obtain ⟨m', h, hall⟩ := bind_ok.mp hall
    exact ⟨m', h, congrArg Prod.fst (Except.ok.inj hall), congrArg Prod.snd (Except.ok.inj hall)⟩
  · have hall : (sampleMasterRead true (respEncodeArrayString q) >>=
        fun m' => .ok (m'.server.offset, executedBytes (connectedSlave true []).server m'.server)) =
        .ok (-1, 27) := by decide +kernel
    obtain ⟨m', h, hall⟩ := bind_ok.mp hall
    exact ⟨m', h, congrArg Prod.fst (Except.ok.inj hall), congrArg Prod.snd (Except.ok.inj hall)⟩

end Fedis.Proof.Repli

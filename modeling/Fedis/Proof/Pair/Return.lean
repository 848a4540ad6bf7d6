import Fedis.Proof.Pair.Resume
import Fedis.Proof.Server.Closing

/-!
# A slave that goes away

As long as a slave follows its master, with the AOF off, its offset tells where in the master's
backlog the requests begin that it has not executed (`marked_step`). So when it loses the
connection, at any time, and connects again, the master has what it has missed
(`Marked.resuming`), and it catches up (`slave_returns`).
-/

namespace Fedis.Proof.Pair

open Framework Resp Repli Server

variable {D : Type} {io : RdbIO D} {fake : ClientId} {port : Int} {x x' c fresh : ClientId}
  {p p' : Pair D} {s s' : RedisServer} {e : PairStep} {u : Unit} {n : Nat}
  {q : List Bytes} {m : Message} {env : Env} {R : List (DbMap Robj) → Prop}

/-! ## The requests among the messages -/

def Message.argv : Message → Option (List Bytes)
  | line _ => none
  | request q => some q

/-- The bytes of the requests. -/
def logOf (ms : List Message) : Bytes := (ms.filterMap Message.argv).flatMap respEncodeArrayString

theorem logOf_append (ms ms' : List Message) : logOf (ms ++ ms') = logOf ms ++ logOf ms' := by
  rw [logOf, List.filterMap_append, List.flatMap_append]
  rfl

theorem logOf_cons (m : Message) (ms : List Message) : logOf (m :: ms) = logOf [m] ++ logOf ms :=
  logOf_append [m] ms

theorem applied_argv (ms : List Message) (kv : List (DbMap Robj)) :
    applied (ms.filterMap Message.argv) kv = ms.foldl delivered kv := by
  induction ms generalizing kv with
  | nil => rfl
  | cons m ms ih =>
    cases m with
    | line l => exact ih kv
    | request q => exact ih _

/-! ## The offset -/

/-- From the offset on, `log` has the requests of the stream. -/
def Marks (offset : Int) (log stream : Bytes) : Prop :=
  ∃ (o : Nat) (ms : List Message), offset = o ∧ o ≤ log.length ∧
    Carries Message.bytes Down stream ms ∧ log.drop o = logOf ms

variable {offset : Int} {log stream arrived rest : Bytes}

theorem Marks.push (h : Marks offset log stream) (hm : Down m) :
    Marks offset (log ++ logOf [m]) (stream ++ m.bytes) := by
  obtain ⟨o, ms, ho, hle, hc, hdrop⟩ := h
  refine ⟨o, ms ++ [m], ho, ?_, hc.push hm, ?_⟩
  · rw [List.length_append]
    exact Nat.le_add_right_of_le hle
  · rw [List.drop_append_of_le_length hle, hdrop, logOf_append]

theorem Marks.take (h : Marks offset log (arrived ++ rest)) (hm : m.Valid)
    (hn : arrived.take n = m.bytes) :
    Marks (offset + (logOf [m]).length) log (arrived.drop n ++ rest) := by
  obtain ⟨o, ms, ho, hle, hc, hdrop⟩ := h
  obtain ⟨-, ms', rfl, hc'⟩ := hc.take messages (fun _ => Down.valid) hm hn
  rw [logOf_cons] at hdrop
  have hlen := congrArg List.length hdrop
  rw [List.length_drop, List.length_append] at hlen
  refine ⟨o + (logOf [m]).length, ms', by rw [ho]; rfl, by omega, hc', ?_⟩
  rw [← List.drop_drop, hdrop, List.drop_left]

/-- The slave's offset is in its configuration, and marks what it has not executed. -/
structure Marked (x : ClientId) (p : Pair D) : Prop where
  aofOn : p.slave.server.aofOn = false
  recorded : p.slave.server.cfgOffset = some p.slave.server.offset
  backlog : Backlog.Holds p.master.backlog
  marks : Marks p.slave.server.offset p.master.backlog.stream
    (p.toSlave ++ (p.master.client x).writeBuf.content)

theorem Marked.congr (h : Marked x p) (hs : Uncounted p.slave.server p'.slave.server)
    (hb : p'.master.backlog = p.master.backlog)
    (hstream : p'.toSlave ++ (p'.master.client x).writeBuf.content =
      p.toSlave ++ (p.master.client x).writeBuf.content) : Marked x p' where
  aofOn := hs.aofOn.trans h.aofOn
  recorded := by rw [hs.cfgOffset, hs.offset, h.recorded]
  backlog := hb ▸ h.backlog
  marks := by
    rw [hs.offset, hb, hstream]
    exact h.marks

theorem replicate_records {cmd : RedisCommand} (hw : cmd.write = true) (hs : s.flags.slave = true) :
    (replicate s c cmd).cfgOffset = some (replicate s c cmd).offset := by
  unfold replicate commandPropagate
  dsimp only
  obtain ⟨w, e⟩ := addWrites_frame (slaves s) (s.client c).readBuf.buf
    { s with backlog := addRepliBuf s.backlog (s.client c).readBuf.content }
  have hs' : slaves { s with backlog := addRepliBuf s.backlog (s.client c).readBuf.content } =
      slaves s := rfl
  by_cases hm : (cmd.write && s.flags.master) = true
  · rw [if_pos hm, hs', e]
    dsimp only
    rw [if_pos (by rw [hw, hs]; rfl)]
    rfl
  · rw [if_neg hm, if_pos (by rw [hw, hs]; rfl)]
    rfl

/-- A write from the master is counted, and the count recorded. -/
theorem Following.counts (hs : Following c s) (hoff : s.aofOn = false) (hr : Request q)
    (ho : Ordinary q) (hq : IsWrite q)
    (h : readFromClient env s c (respEncodeArrayString q) = .ok s') :
    s'.aofOn = false ∧ s'.offset = s.offset + (respEncodeArrayString q).length ∧
      s'.cfgOffset = some s'.offset := by
  obtain ⟨t, ht, rfl⟩ := read_call hr (hs.idle c) (hs.multi c) h
  set u := received s c (respEncodeArrayString q) with hu
  obtain ⟨cmd, he, hw⟩ := hq
  have hf : foundCommand u c q = some cmd := by
    refine foundCommand_entryOf ?_ he hr.ne_nil
    rw [core_flags (received_core _)]
    exact hs.normal
  have hcontent : (u.client c).readBuf.content = respEncodeArrayString q := by
    rw [received_content (hs.idle c), cstr_eq_self (encode_ne_zero q)]
  have hfeed : feedAof u c cmd = u := by
    rw [feedAof, if_neg]
    simp [hu, received, hoff]
  obtain ⟨hoffset, -, -⟩ := processCommand_counts (s := u) hf hw hs.slave ht
  rw [hfeed, ← length_content, hcontent] at hoffset
  have hkept : Kept u t := call_kept ho ht
  refine ⟨hkept.aofOn.trans hoff, hoffset, ?_⟩
  obtain ⟨-, v, hv, rfl⟩ := (processCommand_found hf).mp ht
  have hflags : v.flags = u.flags :=
    (executed_server (ho.found hf).1 hv).flags.trans (if_neg (ho.found hf).2.2.1)
  exact replicate_records hw (hflags ▸ hs.slave)

/-! ## One step -/

theorem marked_request {r : Read} (hj : Joined R x c p) (hm : Marked x p)
    (hp : Paced x p (.request r)) (hx : r.client ≠ x)
    (h : readFromClient r.env p.master r.client r.nread = .ok s') :
    Marked x { p with master := s' } := by
  obtain ⟨q, hq, ho, hn, -⟩ := hp
  rw [hn] at h
  have hlen : (respEncodeArrayString q).length < 1024 := by
    obtain ⟨hnil, -⟩ | ⟨-, hlen, -⟩ := readFromClient_ok.mp h
    · exact absurd hnil (encode_ne_nil q)
    · rwa [cstr_eq_self (encode_ne_zero q)] at hlen
  obtain ⟨-, ⟨hw, hknown, -, -, hb⟩ | ⟨hclient, -, hb⟩⟩ :=
    hj.serving.hosting.request (Ne.symm hx) hq ho h
  · obtain ⟨-, hbuf⟩ := hknown hj.serving.flags
    have hpush := hm.marks.push (m := .request q) ⟨hq, ho, hw⟩
    have hlog : logOf [.request q] = respEncodeArrayString q := List.append_nil _
    rw [hlog, Message.bytes, List.append_assoc, ← hbuf, ← Backlog.addRepliBuf_stream, ← hb] at hpush
    exact ⟨hm.aofOn, hm.recorded, hb ▸ Backlog.holds_addRepliBuf hm.backlog hlen.le, hpush⟩
  · refine hm.congr ⟨rfl, rfl, rfl⟩ hb ?_
    dsimp only
    rw [hclient]

theorem marked_sends {n : Int} {file : Bytes} {w : RdbWrites} {y : ClientId} (hj : Joined R x c p)
    (hm : Marked x p) (hp : Paced x p (.sendToClient y n file w)) :
    Marked x { p with
      master := (sendToClient (initOutputs p.master) y n file w).server
      toSlave := p.toSlave ++ (sendToClient (initOutputs p.master) y n file w).socket x } := by
  refine hm.congr ⟨rfl, rfl, rfl⟩ (send_frame y n file w).1 ?_
  dsimp only
  by_cases hy : x = y
  · obtain ⟨hn, hpos⟩ := hp hy.symm
    subst hy hn
    obtain ⟨e, hsocket⟩ := send_whole (by omega) hj.serving.toclose hj.serving.replState file w
    have hcontent := flushed_content p.master x
    rw [flushed] at hcontent
    rw [e, hsocket, hcontent, List.append_nil]
  · obtain ⟨hsocket, hsent⟩ := send_other (s := p.master) hy n file w
    rw [hsocket, List.append_nil, hsent.other x hy]

theorem marked_ack (hj : Joined R x c p) (hm : Marked x p) (hv : m.Valid)
    (hn : p.toMaster.take n = m.bytes)
    (h : readFromClient env p.master x (p.toMaster.take n) = .ok s') :
    Marked x { p with master := s', toMaster := p.toMaster.drop n } := by
  obtain ⟨hup, -⟩ := hj.up.take hv hn
  rw [hn] at h
  cases m with
  | line l =>
    obtain ⟨-, hbuf, -, hb⟩ := hj.serving.line hv h
    refine hm.congr ⟨rfl, rfl, rfl⟩ hb ?_
    dsimp only
    rw [hbuf]
  | request q =>
    obtain ⟨o, -, rfl⟩ := hup
    obtain ⟨-, hbuf, -, hb⟩ := hj.serving.replack hv h
    have hok : Down (.line (bytes "+OK")) := ok_line.symm
    have hpush := hm.marks.push hok
    have hlog : logOf [.line (bytes "+OK")] = [] := rfl
    rw [hlog, List.append_nil, ← ok_line, List.append_assoc, ← hbuf] at hpush
    exact ⟨hm.aofOn, hm.recorded, hb ▸ hm.backlog, hb ▸ hpush⟩

theorem marked_delivery (hj : Joined R x c p) (hm : Marked x p) (hv : m.Valid)
    (hn : p.toSlave.take n = m.bytes)
    (h : readFromClient env p.slave.server c (p.toSlave.take n) = .ok s') :
    Marked x { p with slave := { p.slave with server := s' }, toSlave := p.toSlave.drop n } := by
  obtain ⟨hdown, -⟩ := hj.down.take hv hn
  have htake := hm.marks.take hv hn
  rw [hn] at h
  cases m with
  | line l =>
    obtain ⟨-, -, -, hcount⟩ := hj.following.line hv h
    have hlog : logOf [.line l] = [] := rfl
    rw [hlog, List.length_nil, Int.natCast_zero, Int.add_zero, ← hcount.offset] at htake
    exact ⟨hcount.aofOn.trans hm.aofOn, by rw [hcount.cfgOffset, hcount.offset, hm.recorded],
      hm.backlog, htake⟩
  | request q =>
    obtain ⟨haof, hoffset, hrecorded⟩ := hj.following.counts hm.aofOn hv hdown.2.1 hdown.2.2 h
    have hlog : logOf [.request q] = respEncodeArrayString q := List.append_nil _
    rw [hlog, ← hoffset] at htake
    exact ⟨haof, hrecorded, hm.backlog, htake⟩

/-- One step of either server. -/
theorem marked_step (hj : Joined R x c p) (hm : Marked x p) (hp : Paced x p e)
    (h : pairStep io fake port x p e = some (u, p')) : Marked x p' := by
  unfold pairStep at h
  cases e with
  | accept y ip cport =>
    dsimp only at h
    split at h
    · cases h
    · rename_i hy
      cases h
      obtain ⟨-, hclient⟩ := hj.serving.accept hy ip cport
      refine hm.congr ⟨rfl, rfl, rfl⟩ rfl ?_
      dsimp only
      rw [hclient]
  | request r =>
    dsimp only at h
    split at h
    · cases h
    · rename_i hx
      obtain ⟨⟨_, s'⟩, hs, e⟩ := Option.map_eq_some_iff.mp h
      cases e
      exact marked_request hj hm hp hx (serve_ok.mp hs)
  | sendToClient y n file w =>
    dsimp only at h
    split at h
    · cases h
      exact marked_sends hj hm hp
    · cases h
  | readFromSlave env n =>
    obtain ⟨m, hv, hn⟩ := hp
    dsimp only at h
    split at h
    · obtain ⟨⟨_, s'⟩, hs, e⟩ := Option.map_eq_some_iff.mp h
      cases e
      exact marked_ack hj hm hv hn (serve_ok.mp hs)
    · cases h
  | slaveRequest r =>
    obtain ⟨q, hq, ho, hn, hnormal⟩ := hp
    dsimp only at h
    split at h
    · cases h
    · rename_i hc
      obtain ⟨⟨_, sl'⟩, hs, e⟩ := Option.map_eq_some_iff.mp h
      cases e
      obtain ⟨s', hs', rfl⟩ := linkStep_request hj.following.link hs
      rw [hn] at hs'
      have hne : c ≠ r.client := fun e => hc (e ▸ hj.following.link)
      obtain ⟨-, -, -, hcount⟩ := hj.following.request hne hq ho hnormal hs'
      exact hm.congr hcount rfl rfl
  | slaveCron write timeout =>
    obtain ⟨rfl, rfl⟩ := hp
    dsimp only at h
    obtain ⟨⟨_, sl'⟩, hs, e⟩ := Option.map_eq_some_iff.mp h
    cases e
    obtain rfl := linkStep_cron hj.following hs
    exact hm.congr ⟨rfl, rfl, rfl⟩ rfl rfl
  | slaveWrites wrote =>
    obtain ⟨rfl, -⟩ := hp
    dsimp only at h
    obtain ⟨⟨_, sl'⟩, hs, e⟩ := Option.map_eq_some_iff.mp h
    cases e
    obtain ⟨hne, hnul⟩ := replack_noise p.slave.server
    obtain ⟨-, -, rfl⟩ := linkStep_tells (following_iff.mp hj.following)
      (messageToMaster_heartbeat hj.following port) hne hnul hs
    exact hm.congr ⟨rfl, rfl, rfl⟩ rfl rfl
  | slaveSends y n file w =>
    dsimp only at h
    split at h
    · cases h
      exact hm.congr (send_frame y n file w).2 rfl rfl
    · cases h
  | readFromMaster env n turns registered =>
    obtain ⟨m, hv, hn⟩ := hp
    dsimp only at h
    rw [hj.following.link, hj.reads] at h
    split at h
    · obtain ⟨⟨_, sl'⟩, hs, e⟩ := Option.map_eq_some_iff.mp h
      cases e
      obtain ⟨s', hs', rfl⟩ := linkStep_request hj.following.link hs
      exact marked_delivery hj hm hv hn hs'
    · cases h

/-! ## Away and back -/

theorem collectToClose_server (nodes : List ClientId) (h : Host) : ∃ cs,
    cs.Sublist h.server.clients ∧
      (collectToClose nodes h).server = { h.server with clients := cs } := by
  induction nodes generalizing h with
  | nil => exact ⟨h.server.clients, .refl _, rfl⟩
  | cons c nodes ih =>
    rw [collectToClose]
    split
    · obtain ⟨cs, hcs, e⟩ := ih { h with
        clientsToClose := h.clientsToClose ++ [c]
        server := { h.server with clients := h.server.clients.erase c } }
      exact ⟨cs, hcs.trans List.erase_sublist, e⟩
    · exact ih h

/-- The timer takes clients off the list. -/
theorem closeClients_server (h : Host) : ∃ cs, cs.Sublist h.server.clients ∧
    (closeClients h).server = { h.server with clients := cs } := by
  obtain ⟨cs, hcs, e⟩ := collectToClose_server h.server.clients h
  exact ⟨cs, hcs, (freeCollected_ok _ _).2.trans e⟩

/-- A new client in place of the one that went away. -/
theorem Hosting.replaced {cs : List ClientId} (hs : Hosting x s) (hx : x' ∉ s.clients)
    (hw : Unwatched s x') (hcs : cs.Sublist s.clients) (ip : Bytes) (cport : Int) :
    Hosting x' (acceptTcpHandler { clientToclose s x with clients := cs } x' ip cport) := by
  set s' := acceptTcpHandler { clientToclose s x with clients := cs } x' ip cport with hs'
  have hclient : ∀ z, (s'.client z).flags.multi = false ∧ (s'.client z).readBuf.len = 0 ∧
      Zeroed (s'.client z).readBuf := fun z => by
    simp only [hs', acceptTcpHandler, clientToclose, modifyClient_client]
    split_ifs
    · exact ⟨rfl, rfl, fun j _ => getD_zeros _ j⟩
    · exact ⟨hs.multi z, hs.idle z, hs.zeroed z⟩
    · exact ⟨hs.multi z, hs.idle z, hs.zeroed z⟩
  have hself : s'.client x' = redisClientCreate ip cport := if_pos rfl
  have hnodup : (cs ++ [x']).Nodup := (hcs.nodup hs.nodup).append (List.nodup_singleton x')
    (List.disjoint_singleton.mpr fun h => hx (hcs.subset h))
  refine ⟨hs.master, hs.aofOn, hnodup, List.mem_append_right _ List.mem_cons_self, ?_, ?_,
    fun z => (hclient z).1, fun z => (hclient z).2.1, fun z => (hclient z).2.2, hs.undated, hw⟩
  · rw [hself]
    rfl
  · rw [hself]
    show ReplState.slaveNone ≠ .masterSendFullsync
    decide

/-- The client of a connection to a master. -/
def masterClient (ip : Bytes) (cport : Int) : RedisClient :=
  let client := redisClientCreate ip cport
  { client with flags := { client.flags with normal := false, master := true } }

theorem connectMaster_client (s : RedisServer) :
    (connectMaster ⟨0, some fresh⟩ { s with master := none }).client fresh =
      masterClient s.masterhost s.masterport := by
  simp [connectMaster, masterClient]

/-- The slave, with the client of a new connection. -/
theorem Following.reconnects (hs : Following c s) (hw : Unwatched s fresh) :
    Attached fresh .slaveConnecting (connectMaster ⟨0, some fresh⟩ { s with master := none }) := by
  set s' := connectMaster ⟨0, some fresh⟩ { s with master := none } with hs'
  have hself : s'.client fresh = masterClient s.masterhost s.masterport := connectMaster_client s
  have hclient : ∀ z, (s'.client z).flags.multi = false ∧ (s'.client z).readBuf.len = 0 := fun z => by
    by_cases hz : z = fresh
    · rw [hz, hself]
      exact ⟨rfl, rfl⟩
    · have hother : s'.client z = s.client z := by
        simp [hs', connectMaster, hz]
      rw [hother]
      exact ⟨hs.multi z, hs.idle z⟩
  refine ⟨hs.master, hs.slave, rfl, rfl, ?_, ?_, ?_, ?_, fun z => (hclient z).1,
    fun z => (hclient z).2, ?_, ?_, hs.undated, hw⟩
  · rw [hself]
    rfl
  · rw [hself]
    rfl
  · rw [hself]
    rfl
  · rw [hself]
    show ReplState.slaveNone ≠ .masterSendFullsync
    decide
  · rw [hself]
    exact fun j _ => getD_zeros _ j
  · rw [hself]
    exact fun b hb => absurd hb List.not_mem_nil

/-- A slave that connects again is one that the backlog can help. -/
theorem Marked.resuming (hj : Joined R x c p) (hm : Marked x p) (hx : x' ∉ p.master.clients)
    (hw : Unwatched p.master x') (hfresh : Unwatched p.slave.server fresh) (ip : Bytes) (cport : Int) :
    Resuming p.slave.server.offset.toNat x' fresh (reconnect x x' fresh ip cport p) := by
  obtain ⟨cs, hcs, hclosed⟩ := closeClients_server ⟨clientToclose p.master x, [], []⟩
  have hmaster : (reconnect x x' fresh ip cport p).master =
      acceptTcpHandler { clientToclose p.master x with clients := cs } x' ip cport := by
    rw [reconnect, hclosed]
  obtain ⟨o, ms, ho, hle, hc, hdrop⟩ := hm.marks
  obtain ⟨ms', hc', hleads⟩ := hj.down
  obtain rfl := messages.injective (fun m hmem => (hc.kind m hmem).valid)
    (fun m hmem => (hc'.kind m hmem).valid) (hc.stream.symm.trans hc'.stream)
  refine ⟨?_, hj.following.reconnects hfresh, rfl, rfl, rfl, rfl, ?_, ?_, ?_, ?_⟩
  · rw [hmaster]
    exact hj.serving.hosting.replaced hx hw hcs ip cport
  · have hself : (reconnect x x' fresh ip cport p).master.client x' = redisClientCreate ip cport := by
      rw [hmaster]
      exact if_pos rfl
    rw [hself]
    rfl
  · have hself : (reconnect x x' fresh ip cport p).slave.server.client fresh =
        masterClient p.slave.server.masterhost p.slave.server.masterport := connectMaster_client _
    rw [hself]
    rfl
  · have hoffset : (reconnect x x' fresh ip cport p).slave.server.offset = p.slave.server.offset :=
      congrArg (fun offset => offset.getD (-1)) hm.recorded
    rw [hoffset, ho]
    rfl
  · have hbacklog : (reconnect x x' fresh ip cport p).master.backlog = p.master.backlog := by
      rw [hmaster]
      rfl
    have hkv : kvs (reconnect x x' fresh ip cport p).master.db = kvs p.master.db := by
      rw [hmaster]
      rfl
    have hslave : kvs (reconnect x x' fresh ip cport p).slave.server.db = kvs p.slave.server.db := rfl
    rw [hslave, ho]
    refine Missed.congr ⟨hm.backlog, hle, ms.filterMap Message.argv, fun q hq => ?_, hdrop, ?_⟩
      hbacklog hkv
    · obtain ⟨m, hmem, hargv⟩ := List.mem_filterMap.mp hq
      have hdown := hc.kind m hmem
      cases m with
      | line l => cases hargv
      | request q' =>
        cases hargv
        exact ⟨hdown.1, hdown.2.1, hdown.2.2⟩
    · rw [applied_argv, hleads.reach]

/-- `samplePair`, where the slave has recorded its offset. -/
def sampleMarked : Pair Unit :=
  { samplePair with
    slave := { samplePair.slave with
      server := { samplePair.slave.server with cfgOffset := some 0 } } }

theorem sampleMarked_inStep : InStep 1 3 sampleMarked := by
  have h := samplePair_inStep
  have hf := h.following
  exact ⟨h.serving, ⟨hf.master, hf.slave, hf.link, hf.replState, hf.normal, hf.db, hf.toclose,
    hf.clientState, hf.multi, hf.idle, hf.zeroed, hf.nul, hf.undated, hf.unwatched⟩, h.reads, h.toSlave,
    h.toMaster, h.writeBuf, h.replies, h.kvs⟩

theorem sampleMarked_marked : Marked 1 sampleMarked where
  aofOn := rfl
  recorded := rfl
  backlog := Backlog.holds_init
  marks := ⟨0, [], rfl, Nat.zero_le _, Carries.nil, rfl⟩

end Fedis.Proof.Pair

import Fedis.Framework.Run
import Fedis.Proof.Pair.Memory
import Fedis.Proof.Pair.Sending
import Fedis.Proof.Repli.Loop

/-!
# The slave follows its master

From a state in which master and slave hold the same keys (`InStep`), in every interleaving of
requests at both servers, of writes to the sockets and of reads, on the memory that the two have:
the slave's keys are those that the master has had at some time, what is on its way makes them
those that the master has now, and when nothing is, they are these (`slave_follows`). Asked is that
the steps are `Paced`. The invariant is `Joined`.
-/

namespace Fedis.Proof.Pair

open Framework Resp Repli Server

variable {D : Type} {io : RdbIO D} {fake : ClientId} {port : Int} {x c : ClientId}
  {p p' : Pair D} {sl sl' : Slave D} {s s' : RedisServer} {e : PairStep} {u : Unit}
  {R R' : List (DbMap Robj) → Prop} {kv kv' : List (DbMap Robj)} {stream rest : Bytes} {m : Message}
  {ms : List Message} {n : Nat}

/-! ## What is on its way -/

/-- From the master: replies to the heartbeat, and writes. -/
def Down : Message → Prop
  | .line l => l ++ crlf = resp.ok
  | .request q => Request q ∧ Ordinary q ∧ IsWrite q

/-- From the slave: replies to writes, and the heartbeat. -/
def Up : Message → Prop
  | .line l => l ++ crlf ∈ writeReplies
  | .request q => ∃ offset, inLong offset ∧ q = [bytes "REPLACK", decimalInt offset]

theorem writeReplies_lines : ∀ reply ∈ writeReplies, reply.dropLast.dropLast ++ crlf = reply ∧
    reply.dropLast.dropLast ≠ [] ∧ reply.dropLast.dropLast.head? ≠ some 42 ∧
    ∀ b ∈ reply.dropLast.dropLast, b ≠ 0 ∧ b ≠ 10 := by decide +kernel

theorem line_valid {l : Bytes} (h : l ++ crlf ∈ writeReplies) : Message.Valid (.line l) := by
  obtain ⟨he, hl⟩ := writeReplies_lines _ h
  rwa [List.append_cancel_right he] at hl

theorem Down.valid (h : Down m) : m.Valid := by
  cases m with
  | line l => exact line_valid (by rw [show l ++ crlf = resp.ok from h]; exact List.mem_cons_self)
  | request q => exact h.1

theorem replack_request {offset : Int} (h : inLong offset) :
    Request [bytes "REPLACK", decimalInt offset] := by
  have hname : (∀ b ∈ bytes "REPLACK", b ≠ 0) ∧ (bytes "REPLACK").length < 2 ^ 31 := by decide +kernel
  have hoffset : (decimalInt offset).length < 2 ^ 31 :=
    (Value.length_decimalInt h).trans_lt (by decide)
  refine ⟨List.cons_ne_nil _ _, by simp, fun arg ha => ?_, fun arg ha => ?_⟩
  · obtain rfl | rfl := List.mem_pair.mp ha
    · exact hname.1
    · exact Value.decimalInt_ne_zero _
  · obtain rfl | rfl := List.mem_pair.mp ha
    · exact hname.2
    · exact hoffset

theorem Up.valid (h : Up m) : m.Valid := by
  cases m with
  | line l => exact line_valid h
  | request q =>
    obtain ⟨offset, ho, rfl⟩ := h
    exact replack_request ho

/-- What a message from the master makes of the slave's keys. -/
def delivered (kv : List (DbMap Robj)) : Message → List (DbMap Robj)
  | .line _ => kv
  | .request q => kv.modify 0 (written q)

/-- These messages lead from the slave's keys to the master's, on a way that `R` knows. -/
structure Leads (R : List (DbMap Robj) → Prop) (kv kv' : List (DbMap Robj)) (ms : List Message) :
    Prop where
  reach : ms.foldl delivered kv = kv'
  known : ∀ ms₁, ms₁ <+: ms → R (ms₁.foldl delivered kv)

theorem Leads.push (h : Leads R kv kv' ms) (hR : R (delivered kv' m)) :
    Leads R kv (delivered kv' m) (ms ++ [m]) := by
  have hreach : (ms ++ [m]).foldl delivered kv = delivered kv' m := by
    rw [List.foldl_append, h.reach]
    rfl
  refine ⟨hreach, fun ms₁ hms => ?_⟩
  obtain rfl | hms := List.prefix_concat_iff.mp hms
  · rwa [hreach]
  · exact h.known ms₁ hms

/-- The stream from the master, with what comes of it. -/
def Behind (R : List (DbMap Robj) → Prop) (stream : Bytes) (kv kv' : List (DbMap Robj)) : Prop :=
  ∃ ms, Carries Message.bytes Down stream ms ∧ Leads R kv kv' ms

theorem Behind.mono (hR : ∀ k, R k → R' k) (h : Behind R stream kv kv') : Behind R' stream kv kv' := by
  obtain ⟨ms, hc, hl⟩ := h
  exact ⟨ms, hc, hl.reach, fun ms₁ hms => hR _ (hl.known ms₁ hms)⟩

theorem Behind.push (h : Behind R stream kv kv') (hm : Down m) (hR : R (delivered kv' m)) :
    Behind R (stream ++ m.bytes) kv (delivered kv' m) := by
  obtain ⟨ms, hc, hl⟩ := h
  exact ⟨ms ++ [m], hc.push hm, hl.push hR⟩

theorem Behind.take (h : Behind R (stream ++ rest) kv kv') (hm : m.Valid) (hn : stream.take n = m.bytes) :
    Down m ∧ Behind R (stream.drop n ++ rest) (delivered kv m) kv' := by
  obtain ⟨ms, hc, hl⟩ := h
  obtain ⟨hdown, ms', rfl, hc'⟩ := hc.take messages (fun _ => Down.valid) hm hn
  exact ⟨hdown, ms', hc', hl.reach,
    fun ms₁ hms => hl.known (m :: ms₁) (List.cons_prefix_cons.mpr ⟨rfl, hms⟩)⟩

/-- The stream from the slave. -/
def Acks (stream : Bytes) : Prop := ∃ ms, Carries Message.bytes Up stream ms

theorem Acks.push (h : Acks stream) (hm : Up m) : Acks (stream ++ m.bytes) := by
  obtain ⟨ms, hc⟩ := h
  exact ⟨ms ++ [m], hc.push hm⟩

theorem Acks.take (h : Acks (stream ++ rest)) (hm : m.Valid) (hn : stream.take n = m.bytes) :
    Up m ∧ Acks (stream.drop n ++ rest) := by
  obtain ⟨ms, hc⟩ := h
  obtain ⟨hup, ms', -, hc'⟩ := hc.take messages (fun _ => Up.valid) hm hn
  exact ⟨hup, ms', hc'⟩

/-! ## The invariant -/

/-- The two are joined by streams that carry what one has to say to the other. -/
structure Joined (R : List (DbMap Robj) → Prop) (x c : ClientId) (p : Pair D) : Prop where
  serving : Serving x p.master
  following : Following c p.slave.server
  reads : p.slave.repliReads = false
  down : Behind R (p.toSlave ++ (p.master.client x).writeBuf.content) (kvs p.slave.server.db)
    (kvs p.master.db)
  up : Acks (p.toMaster ++ (p.slave.server.client c).writeBuf.content)

/-- A read gets one whole message, and what is written between the two is written whole. Requests
are `Ordinary`, on the master those that write are for the first database, and on the slave there
is no other client than the master's that may write. -/
def Paced (x : ClientId) (p : Pair D) : PairStep → Prop
  | .accept _ _ _ => True
  | .request r => ∃ q, Request q ∧ Ordinary q ∧ r.nread = respEncodeArrayString q ∧
      (IsWrite q → (p.master.client r.client).db = 0)
  | .sendToClient c nwritten _ _ =>
      c = x → nwritten = (p.master.client c).writeBuf.len ∧ 0 < nwritten
  | .readFromSlave _ n => ∃ m : Message, m.Valid ∧ p.toMaster.take n = m.bytes
  | .slaveRequest r => ∃ q, Request q ∧ Ordinary q ∧ r.nread = respEncodeArrayString q ∧
      (p.slave.server.client r.client).flags.normal = true
  | .slaveCron write timeout => write = none ∧ timeout = none
  | .slaveWrites wrote => wrote = true ∧ inLong p.slave.server.offset
  | .slaveSends c nwritten _ _ => p.slave.server.master = some c →
      nwritten = (p.slave.server.client c).writeBuf.len ∧ 0 < nwritten
  | .readFromMaster _ n _ _ => ∃ m : Message, m.Valid ∧ p.toSlave.take n = m.bytes

theorem joined_request {r : Read} (hR : ∀ k, R k → R' k) (hnew : R' (kvs s'.db)) (hj : Joined R x c p)
    (hp : Paced x p (.request r)) (hx : r.client ≠ x)
    (h : readFromClient r.env p.master r.client r.nread = .ok s') :
    Joined R' x c { p with master := s' } := by
  obtain ⟨q, hq, ho, hn, hdb⟩ := hp
  rw [hn] at h
  have hdown := hj.down.mono hR
  obtain ⟨hs, ⟨hw, hbuf, hkv⟩ | ⟨hbuf, hkv⟩⟩ := hj.serving.request (Ne.symm hx) hq ho h
  · rw [hdb hw] at hkv
    have hkv : kvs s'.db = delivered (kvs p.master.db) (.request q) := hkv
    refine ⟨hs, hj.following, hj.reads, ?_, hj.up⟩
    dsimp only
    rw [hbuf, hkv, ← List.append_assoc]
    exact hdown.push (m := .request q) ⟨hq, ho, hw⟩ (hkv ▸ hnew)
  · refine ⟨hs, hj.following, hj.reads, ?_, hj.up⟩
    dsimp only
    rwa [hbuf, hkv]

theorem joined_sends {n : Int} {file : Bytes} {w : RdbWrites} {y : ClientId} (hj : Joined R x c p)
    (hp : Paced x p (.sendToClient y n file w)) :
    Joined R x c { p with
      master := (sendToClient (initOutputs p.master) y n file w).server
      toSlave := p.toSlave ++ (sendToClient (initOutputs p.master) y n file w).socket x } := by
  by_cases hy : x = y
  · obtain ⟨hn, hpos⟩ := hp hy.symm
    subst hy hn
    have hs := hj.serving
    obtain ⟨e, hsocket⟩ := send_whole (by omega) hs.toclose hs.replState file w
    rw [e, hsocket]
    refine ⟨hs.flush, hj.following, hj.reads, ?_, hj.up⟩
    have hcontent := flushed_content p.master x
    rw [flushed] at hcontent
    dsimp only
    rw [hcontent, List.append_nil]
    exact hj.down
  · obtain ⟨hsocket, hsent⟩ := send_other (s := p.master) hy n file w
    rw [hsocket, List.append_nil]
    refine ⟨hj.serving.sent hy hsent, hj.following, hj.reads, ?_, hj.up⟩
    dsimp only
    rw [hsent.other x hy, hsent.db]
    exact hj.down

/-- The master has one message of the slave. -/
theorem joined_ack {env : Env} (hj : Joined R x c p) (hm : m.Valid) (hn : p.toMaster.take n = m.bytes)
    (hR : R (kvs p.master.db)) (h : readFromClient env p.master x (p.toMaster.take n) = .ok s') :
    Joined R x c { p with master := s', toMaster := p.toMaster.drop n } := by
  obtain ⟨hup, hacks⟩ := hj.up.take hm hn
  rw [hn] at h
  cases m with
  | line l =>
    obtain ⟨hs, hbuf, hdb, -⟩ := hj.serving.line hm h
    refine ⟨hs, hj.following, hj.reads, ?_, hacks⟩
    dsimp only
    rw [hbuf, hdb]
    exact hj.down
  | request q =>
    obtain ⟨offset, -, rfl⟩ := hup
    obtain ⟨hs, hbuf, hdb, -⟩ := hj.serving.replack hm h
    have hok : resp.ok = (Message.line (bytes "+OK")).bytes := by decide
    refine ⟨hs, hj.following, hj.reads, ?_, hacks⟩
    dsimp only
    rw [hbuf, hdb, ← List.append_assoc, hok]
    exact hj.down.push (m := .line (bytes "+OK")) hok.symm hR

theorem linkStep_request {r : Read} (hm : sl.server.master = some c)
    (h : linkStep io fake port sl (.request r) = some (u, sl')) :
    ∃ s', readFromClient r.env sl.server r.client r.nread = .ok s' ∧ sl' = { sl with server := s' } := by
  unfold linkStep linkEvent at h
  dsimp only at h
  cases hs : readFromClient r.env sl.server r.client r.nread with
  | error e =>
    rw [hs] at h
    cases h
  | ok s' =>
    rw [hs, hm] at h
    dsimp only [Except.mapError, bind, Except.bind, Option.isNone_some] at h
    rw [Bool.false_and, Bool.or_false, Bool.or_false] at h
    cases h
    exact ⟨s', rfl, rfl⟩

theorem linkStep_cron (hs : Following c sl.server)
    (h : linkStep io fake port sl (.cron none none) = some (u, sl')) :
    sl' = { sl with repliWrites := true } := by
  unfold linkStep linkEvent slaveCron at h
  simp only [hs.slave, hs.replState, hs.link, if_true] at h
  cases h
  rfl

/-- The heartbeat. -/
def replack (s : RedisServer) : Bytes := respEncodeArrayString [bytes "REPLACK", decimalInt s.offset]

theorem messageToMaster_heartbeat (hs : Following c s) (port : Int) :
    messageToMaster port s = some (replack s) := by
  unfold messageToMaster
  rw [hs.replState]
  rfl

theorem replack_noise (s : RedisServer) : replack s ≠ [] ∧ ∀ b ∈ replack s, b ≠ 0 :=
  ⟨encode_ne_nil _, encode_ne_zero _⟩

theorem joined_heartbeat (hj : Joined R x c p) (ho : inLong p.slave.server.offset)
    (h : linkStep io fake port p.slave (.writable true) = some (u, sl')) :
    Joined R x c { p with slave := sl', toMaster := p.toMaster ++ repliWritten port p.slave } := by
  have hs := following_iff.mp hj.following
  obtain ⟨hne, hnul⟩ := replack_noise p.slave.server
  obtain ⟨-, hsent, rfl⟩ := linkStep_tells hs (messageToMaster_heartbeat hj.following port) hne hnul h
  refine ⟨hj.serving, following_iff.mpr (hs.tells hnul), hj.reads, hj.down, ?_⟩
  dsimp only
  rw [hsent, flushed_content, List.append_nil, ← List.append_assoc]
  exact hj.up.push (m := .request _) ⟨_, ho, rfl⟩

theorem joined_slaveSends {n : Int} {file : Bytes} {w : RdbWrites} {y : ClientId} (hj : Joined R x c p)
    (hp : Paced x p (.slaveSends y n file w)) :
    Joined R x c { p with
      slave := { p.slave with server := (sendToClient (initOutputs p.slave.server) y n file w).server }
      toMaster := p.toMaster ++ if p.slave.server.master = some y then
        (sendToClient (initOutputs p.slave.server) y n file w).socket y else [] } := by
  have hs := hj.following
  by_cases hy : c = y
  · subst hy
    obtain ⟨hn, hpos⟩ := hp hs.link
    subst hn
    obtain ⟨e, hsocket⟩ := send_whole (by omega) hs.toclose hs.clientState file w
    rw [e, hsocket, if_pos hs.link]
    refine ⟨hj.serving, hs.flush, hj.reads, hj.down, ?_⟩
    have hcontent := flushed_content p.slave.server c
    rw [flushed] at hcontent
    dsimp only
    rw [hcontent, List.append_nil]
    exact hj.up
  · obtain ⟨-, hsent⟩ := send_other (s := p.slave.server) hy n file w
    have hnot : ¬ p.slave.server.master = some y := fun e => hy (Option.some.inj (hs.link.symm.trans e))
    rw [if_neg hnot, List.append_nil]
    refine ⟨hj.serving, hs.sent hy hsent, hj.reads, ?_, ?_⟩
    · dsimp only
      rw [hsent.db]
      exact hj.down
    · dsimp only
      rw [hsent.other c hy]
      exact hj.up

/-- The slave has one message of the master. -/
theorem joined_delivery {env : Env} (hj : Joined R x c p) (hm : m.Valid)
    (hn : p.toSlave.take n = m.bytes)
    (h : readFromClient env p.slave.server c (p.toSlave.take n) = .ok s') :
    Joined R x c { p with slave := { p.slave with server := s' }, toSlave := p.toSlave.drop n } := by
  obtain ⟨hdown, hbehind⟩ := hj.down.take hm hn
  rw [hn] at h
  cases m with
  | line l =>
    obtain ⟨hs, hbuf, hdb, -⟩ := hj.following.line hm h
    refine ⟨hj.serving, hs, hj.reads, ?_, ?_⟩
    · dsimp only
      rw [hdb]
      exact hbehind
    · dsimp only
      rw [hbuf]
      exact hj.up
  | request q =>
    obtain ⟨hs, hkv, reply, hreply, hbuf⟩ := hj.following.write hm hdown.2.1 hdown.2.2 h
    obtain ⟨he, -⟩ := writeReplies_lines _ hreply
    refine ⟨hj.serving, hs, hj.reads, ?_, ?_⟩
    · dsimp only
      rw [hkv]
      exact hbehind
    · dsimp only
      have hup : Up (.line reply.dropLast.dropLast) := by
        rw [Up, he]
        exact hreply
      have hacks := hj.up.push hup
      rw [Message.bytes, he] at hacks
      rwa [hbuf, ← List.append_assoc]

theorem joined_slaveRequest {r : Read} (hj : Joined R x c p) (hp : Paced x p (.slaveRequest r))
    (hc : p.slave.server.master ≠ some r.client)
    (h : readFromClient r.env p.slave.server r.client r.nread = .ok s') :
    Joined R x c { p with slave := { p.slave with server := s' } } := by
  obtain ⟨q, hq, ho, hn, hnormal⟩ := hp
  rw [hn] at h
  have hne : c ≠ r.client := fun e => hc (e ▸ hj.following.link)
  obtain ⟨hs, hclient, hkv, -⟩ := hj.following.request hne hq ho hnormal h
  refine ⟨hj.serving, hs, hj.reads, ?_, ?_⟩
  · dsimp only
    rw [hkv]
    exact hj.down
  · dsimp only
    rw [hclient]
    exact hj.up

theorem Joined.mono (hR : ∀ k, R k → R' k) (hj : Joined R x c p) : Joined R' x c p :=
  { hj with down := hj.down.mono hR }

/-- One step of either server; `R'` knows what the master then has. -/
theorem joined_step (hR : ∀ k, R k → R' k) (hold : R (kvs p.master.db)) (hnew : R' (kvs p'.master.db))
    (hj : Joined R x c p) (hp : Paced x p e) (h : pairStep io fake port x p e = some (u, p')) :
    Joined R' x c p' := by
  have hj' := hj.mono hR
  unfold pairStep at h
  cases e with
  | accept y ip cport =>
    dsimp only at h
    split at h
    · cases h
    · rename_i hy
      cases h
      obtain ⟨hs, hclient⟩ := hj.serving.accept hy ip cport
      refine ⟨hs, hj.following, hj.reads, ?_, hj.up⟩
      dsimp only
      rw [hclient]
      exact hj'.down
  | request r =>
    dsimp only at h
    split at h
    · cases h
    · rename_i hx
      obtain ⟨⟨_, s'⟩, hs, e⟩ := Option.map_eq_some_iff.mp h
      cases e
      exact joined_request hR hnew hj hp hx (serve_ok.mp hs)
  | sendToClient y n file w =>
    dsimp only at h
    split at h
    · cases h
      exact joined_sends hj' hp
    · cases h
  | readFromSlave env n =>
    obtain ⟨m, hm, hn⟩ := hp
    dsimp only at h
    split at h
    · obtain ⟨⟨_, s'⟩, hs, e⟩ := Option.map_eq_some_iff.mp h
      cases e
      exact joined_ack hj' hm hn (hR _ hold) (serve_ok.mp hs)
    · cases h
  | slaveRequest r =>
    dsimp only at h
    split at h
    · cases h
    · rename_i hc
      obtain ⟨⟨_, sl'⟩, hs, e⟩ := Option.map_eq_some_iff.mp h
      cases e
      obtain ⟨s', hs', rfl⟩ := linkStep_request hj.following.link hs
      exact joined_slaveRequest hj' hp hc hs'
  | slaveCron write timeout =>
    obtain ⟨rfl, rfl⟩ := hp
    dsimp only at h
    obtain ⟨⟨_, sl'⟩, hs, e⟩ := Option.map_eq_some_iff.mp h
    cases e
    obtain rfl := linkStep_cron hj.following hs
    exact ⟨hj.serving, hj.following, hj.reads, hj'.down, hj.up⟩
  | slaveWrites wrote =>
    obtain ⟨rfl, ho⟩ := hp
    dsimp only at h
    obtain ⟨⟨_, sl'⟩, hs, e⟩ := Option.map_eq_some_iff.mp h
    cases e
    exact joined_heartbeat hj' ho hs
  | slaveSends y n file w =>
    dsimp only at h
    split at h
    · cases h
      exact joined_slaveSends hj' hp
    · cases h
  | readFromMaster env n turns registered =>
    obtain ⟨m, hm, hn⟩ := hp
    dsimp only at h
    rw [hj.following.link, hj.reads] at h
    split at h
    · obtain ⟨⟨_, sl'⟩, hs, e⟩ := Option.map_eq_some_iff.mp h
      cases e
      obtain ⟨s', hs', rfl⟩ := linkStep_request hj.following.link hs
      exact joined_delivery hj' hm hn hs'
    · cases h

/-- Nothing is on its way, and the two hold the same keys. -/
structure InStep (x c : ClientId) (p : Pair D) : Prop where
  serving : Serving x p.master
  following : Following c p.slave.server
  reads : p.slave.repliReads = false
  toSlave : p.toSlave = []
  toMaster : p.toMaster = []
  writeBuf : (p.master.client x).writeBuf.len = 0
  replies : (p.slave.server.client c).writeBuf.len = 0
  kvs : kvs p.slave.server.db = kvs p.master.db

theorem InStep.joined (h : InStep x c p) (hR : R (Pair.kvs p.master.db)) : Joined R x c p := by
  have hcarries : ∀ {kind : Message → Prop}, Carries Message.bytes kind [] [] := Carries.nil
  refine ⟨h.serving, h.following, h.reads, ⟨[], ?_, h.kvs, fun ms₁ hms => ?_⟩, [], ?_⟩
  · rw [h.toSlave, content_of_len h.writeBuf]
    exact hcarries
  · rw [List.prefix_nil.mp hms]
    exact h.kvs ▸ hR
  · rw [h.toMaster, content_of_len h.replies]
    exact hcarries

/-- A master with a client, and its slave, after a full synchronisation. -/
def samplePair : Pair Unit where
  master := (acceptTcpHandler (acceptTcpHandler (initServer 1 ⟨true, false, false⟩ 2 false) 1 [] 0) 2 []
    0).modifyClient 1 fun client => { client with flags := .REDIS_CLIENT_SLAVE }
  slave :=
    { initSlave 2 ⟨false, true, false⟩ 2 false () with
      server := { connectMaster ⟨0, some 3⟩ (initServer 2 ⟨false, true, false⟩ 2 false) with
        replState := .slaveConnected, offset := 0 } }
  toSlave := []
  toMaster := []

theorem samplePair_inStep : InStep 1 3 samplePair where
  serving := by
    have hclient : ∀ y, (samplePair.master.client y).flags.multi = false ∧
        (samplePair.master.client y).readBuf = sdsempty := fun y => by
      have hcreated : ∀ z, (acceptTcpHandler (acceptTcpHandler (initServer 1 ⟨true, false, false⟩ 2 false)
          1 [] 0) 2 [] 0).client z = redisClientCreate [] 0 := fun z => by
        simp only [acceptTcpHandler, modifyClient_client, initServer, ite_self]
      rw [samplePair, modifyClient_client, hcreated]
      split <;> exact ⟨rfl, rfl⟩
    exact ⟨rfl, rfl, by decide, by decide, rfl, rfl, by decide, fun y => (hclient y).1,
      fun y => by rw [(hclient y).2]; rfl, fun y => by rw [(hclient y).2]; exact fun j _ => getD_zeros _ j,
      by decide, unwatched_iff.mp (by decide)⟩
  following := by
    have hclient : ∀ y, (samplePair.slave.server.client y).flags.multi = false ∧
        (samplePair.slave.server.client y).readBuf.len = 0 := fun y => by
      by_cases hy : y = 3
      · rw [hy]
        exact ⟨rfl, rfl⟩
      · have hcreated : samplePair.slave.server.client y = redisClientCreate [] 0 :=
          (if_neg hy).trans (if_neg hy)
        rw [hcreated]
        exact ⟨rfl, rfl⟩
    exact ⟨rfl, rfl, rfl, rfl, rfl, rfl, rfl, by decide, fun y => (hclient y).1, fun y => (hclient y).2,
      fun j _ => getD_zeros _ j, by decide +kernel, by decide, unwatched_iff.mp (by decide)⟩
  reads := rfl
  toSlave := rfl
  toMaster := rfl
  writeBuf := rfl
  replies := rfl
  kvs := by decide

/-- A client's SET, and its way to the slave. -/
def sampleSteps : List PairStep :=
  [.request (sampleRead 2 [bytes "SET", bytes "k", bytes "v"]),
    .sendToClient 1 27 [] ⟨true, 0, 0, 0⟩, .readFromMaster ⟨0, none⟩ 27 0 []]

/-- The steps of the pair with empty dicts. -/
def sampleStep : PairMachine Unit → PairStep → Option (Unit × PairMachine Unit) :=
  pairMachineStep 64 noRdb 9 6379 1

theorem sampleSteps_paced : Along sampleStep (fun v => Paced 1 v.toPair) (initPairMachine samplePair)
    sampleSteps := by
  have hr : Request [bytes "SET", bytes "k", bytes "v"] :=
    ⟨by decide, by decide, by decide +kernel, by decide⟩
  have hbuf : (sampleStep (initPairMachine samplePair)
      (.request (sampleRead 2 [bytes "SET", bytes "k", bytes "v"]))).map
        (fun r => (r.2.master.client 1).writeBuf.len) = some 27 := by decide
  have hstream : (run sampleStep (initPairMachine samplePair) (sampleSteps.take 2)).map
      (fun r => r.2.toPair.toSlave) =
        some (respEncodeArrayString [bytes "SET", bytes "k", bytes "v"]) := by decide
  refine ⟨⟨_, hr, by decide, rfl, fun _ => rfl⟩, fun u₁ v₁ h₁ => ⟨fun _ => ?_, fun u₂ v₂ h₂ =>
    ⟨⟨.request [bytes "SET", bytes "k", bytes "v"], hr, ?_⟩, fun _ _ _ => trivial⟩⟩⟩
  · rw [h₁, Option.map_some, Option.some.injEq] at hbuf
    rw [hbuf]
    decide
  · rw [sampleSteps, List.take, List.take, List.take, run_cons, h₁, Option.bind_some, run_cons,
      h₂] at hstream
    have hstream : v₂.toPair.toSlave = respEncodeArrayString [bytes "SET", bytes "k", bytes "v"] :=
      Option.some.inj hstream
    rw [hstream]
    rfl

end Fedis.Proof.Pair

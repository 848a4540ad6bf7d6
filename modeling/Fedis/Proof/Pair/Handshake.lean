import Fedis.Proof.Backlog
import Fedis.Proof.Pair.Follow
import Fedis.Proof.Pair.Rounds

/-!
# The handshake of a slave that comes back

PING, REPLCONF and SYNC, the answer to SYNC with what the backlog has behind the offset, and the
heartbeat whose reply gives the connection to `readFromClient`. The slave is `Shaking` in a round
of the handshake and then `Beating`; there is one lemma for each kind of step, and steps of other
clients leave the two `Aside`.
-/

namespace Fedis.Proof.Pair

open Framework Resp Repli Server

variable {D : Type} {io : RdbIO D} {fake : ClientId} {port : Int} {x c : ClientId}
  {p p' : Pair D} {sl sl' : Slave D} {s s' : RedisServer} {e : PairStep} {u : Unit}
  {offset n : Nat} {kv : List (DbMap Robj)} {w : Bytes} {state : ReplState}

/-! ## Steps that do not concern the two -/

/-- Nothing has become of either side of the connection, nor of the keys. -/
structure Aside (x c : ClientId) (state : ReplState) (p p' : Pair D) : Prop where
  hosting : Hosting x p'.master
  object : p'.master.client x = p.master.client x
  keys : kvs p'.master.db = kvs p.master.db
  backlog : p'.master.backlog = p.master.backlog
  attached : Attached c state p'.slave.server
  link : p'.slave.server.client c = p.slave.server.client c
  slaveKeys : kvs p'.slave.server.db = kvs p.slave.server.db
  offset : p'.slave.server.offset = p.slave.server.offset
  reads : p'.slave.repliReads = p.slave.repliReads
  writes : p'.slave.repliWrites = p.slave.repliWrites
  toSlave : p'.toSlave = p.toSlave
  toMaster : p'.toMaster = p.toMaster

/-- A step of other clients, which on the master writes nothing. -/
def Outside (x : ClientId) (p : Pair D) : PairStep → Prop
  | .accept _ _ _ => True
  | .request r => ∃ q, Request q ∧ Ordinary q ∧ r.nread = respEncodeArrayString q ∧ ¬ IsWrite q
  | .sendToClient y _ _ _ => y ≠ x
  | .slaveRequest r => ∃ q, Request q ∧ Ordinary q ∧ r.nread = respEncodeArrayString q ∧
      (p.slave.server.client r.client).flags.normal = true
  | .slaveSends y _ _ _ => p.slave.server.master ≠ some y
  | _ => False

theorem aside_step (hh : Hosting x p.master) (ha : Attached c state p.slave.server)
    (ho : Outside x p e) (h : pairStep io fake port x p e = some (u, p')) : Aside x c state p p' := by
  unfold pairStep at h
  cases e with
  | accept y ip cport =>
    dsimp only at h
    split at h
    · cases h
    · rename_i hy
      cases h
      obtain ⟨hs, hclient⟩ := hh.accept hy ip cport
      exact ⟨hs, hclient, rfl, rfl, ha, rfl, rfl, rfl, rfl, rfl, rfl, rfl⟩
  | request r =>
    obtain ⟨q, hq, hord, hn, hread⟩ := ho
    dsimp only at h
    split at h
    · cases h
    · rename_i hx
      obtain ⟨⟨_, s'⟩, hs, e⟩ := Option.map_eq_some_iff.mp h
      cases e
      have hread' := serve_ok.mp hs
      rw [hn] at hread'
      obtain ⟨hs', ⟨hw, -⟩ | ⟨hclient, hkv, hb⟩⟩ := hh.request (Ne.symm hx) hq hord hread'
      · exact absurd hw hread
      · exact ⟨hs', hclient, hkv, hb, ha, rfl, rfl, rfl, rfl, rfl, rfl, rfl⟩
  | sendToClient y n file w =>
    dsimp only at h
    split at h
    · cases h
      obtain ⟨hsocket, hsent⟩ := send_other (s := p.master) (Ne.symm ho) n file w
      refine ⟨hh.sent (Ne.symm ho) hsent, hsent.other x (Ne.symm ho), by rw [hsent.db], ?_, ha, rfl,
        rfl, rfl, rfl, rfl, ?_, rfl⟩
      · exact (send_frame y n file w).1
      · dsimp only
        rw [hsocket, List.append_nil]
    · cases h
  | slaveRequest r =>
    obtain ⟨q, hq, hord, hn, hnormal⟩ := ho
    dsimp only at h
    split at h
    · cases h
    · rename_i hc
      obtain ⟨⟨_, sl'⟩, hs, e⟩ := Option.map_eq_some_iff.mp h
      cases e
      obtain ⟨s', hs', rfl⟩ := linkStep_request ha.link hs
      rw [hn] at hs'
      have hne : c ≠ r.client := fun e => hc (e ▸ ha.link)
      obtain ⟨hs₁, hclient, hkv, hcount⟩ := ha.request hne hq hord hnormal hs'
      exact ⟨hh, rfl, rfl, rfl, hs₁, hclient, hkv, hcount.offset, rfl, rfl, rfl, rfl⟩
  | slaveSends y n file w =>
    dsimp only at h
    split at h
    · cases h
      have hy : c ≠ y := fun e => ho (e ▸ ha.link)
      obtain ⟨-, hsent⟩ := send_other (s := p.slave.server) hy n file w
      refine ⟨hh, rfl, rfl, rfl, ha.sent hy hsent, hsent.other c hy, by rw [hsent.db], ?_, rfl, rfl,
        rfl, ?_⟩
      · exact (send_frame y n file w).2.offset
      · dsimp only
        rw [if_neg ho, List.append_nil]
    · cases h
  | slaveCron | slaveWrites | readFromSlave | readFromMaster => exact absurd ho id

/-! ## What the slave has missed -/

/-- The backlog holds, from this offset on, the requests that make the keys `kv` those of the
master. -/
structure Missed (offset : Nat) (kv : List (DbMap Robj)) (s : RedisServer) : Prop where
  backlog : Backlog.Holds s.backlog
  le : offset ≤ s.backlog.stream.length
  log : ∃ log, (∀ q ∈ log, Passed q) ∧
    s.backlog.stream.drop offset = log.flatMap respEncodeArrayString ∧ applied log kv = kvs s.db

theorem Missed.congr (h : Missed offset kv s) (hb : s'.backlog = s.backlog)
    (hkv : kvs s'.db = kvs s.db) : Missed offset kv s' where
  backlog := hb ▸ h.backlog
  le := hb ▸ h.le
  log := by
    rw [hb, hkv]
    exact h.log

/-- A write adds to it. -/
theorem Missed.push {q : List Bytes} (h : Missed offset kv s) (hq : Passed q)
    (hlen : (respEncodeArrayString q).length ≤ MASTER_REPLI_RINGBUFFER_SIZE)
    (hb : s'.backlog = addRepliBuf s.backlog (respEncodeArrayString q))
    (hkv : kvs s'.db = (kvs s.db).modify 0 (written q)) : Missed offset kv s' where
  backlog := hb ▸ Backlog.holds_addRepliBuf h.backlog hlen
  le := by
    rw [hb, Backlog.addRepliBuf_stream, List.length_append]
    exact Nat.le_add_right_of_le h.le
  log := by
    obtain ⟨log, hlog, hstream, happlied⟩ := h.log
    refine ⟨log ++ [q], fun q' hq' => ?_, ?_, ?_⟩
    · obtain hq' | hq' := List.mem_append.mp hq'
      · exact hlog q' hq'
      · exact List.mem_singleton.mp hq' ▸ hq
    · rw [hb, Backlog.addRepliBuf_stream, List.drop_append_of_le_length h.le, hstream,
        List.flatMap_append, List.flatMap_singleton]
    · rw [applied_append, happlied, hkv]
      rfl

/-! ## The handshake -/

/-- How far a round has come. -/
inductive Stage where
  | ready
  | asked
  | answered
deriving DecidableEq

/-- What is written to a client is on its way as a whole, or not at all. -/
def Arrives (stream : Bytes) (writeBuf : Sds) (w : Bytes) : Prop :=
  (stream = [] ∧ writeBuf.content = w) ∨ (stream = w ∧ writeBuf.len = 0)

/-- The slave is in a round of the handshake, and still has the keys `kv`. -/
structure Shaking (port : Int) (offset : Nat) (x c : ClientId) (kv : List (DbMap Robj)) (r : Round)
    (stage : Stage) (p : Pair D) : Prop where
  hosting : Hosting x p.master
  known : r = .sync ∨ (r = .replconf ∧ stage = .answered) →
    (p.master.client x).flags = .REDIS_CLIENT_SLAVE
  attached : Attached c r.state p.slave.server
  reads : p.slave.repliReads = true
  writes : p.slave.repliWrites = decide (stage = .ready)
  silent : (p.slave.server.client c).writeBuf.len = 0
  toMaster : p.toMaster =
    if stage = .asked then respEncodeArrayString (r.argv port offset) else []
  toSlave : Arrives p.toSlave (p.master.client x).writeBuf
    (if stage = .answered then r.answer (p.master.backlog.stream.drop offset) else [])
  counted : p.slave.server.offset = offset
  missed : Missed offset kv p.master
  behind : r = .sync → stage = .answered → offset < p.master.backlog.stream.length
  keys : kvs p.slave.server.db = kv

variable {r : Round} {stage : Stage}

theorem Shaking.aside (h : Shaking port offset x c kv r stage p)
    (ha : Aside x c r.state p p') : Shaking port offset x c kv r stage p' where
  hosting := ha.hosting
  known := by
    rw [ha.object]
    exact h.known
  attached := ha.attached
  reads := ha.reads.trans h.reads
  writes := ha.writes.trans h.writes
  silent := by
    rw [ha.link]
    exact h.silent
  toMaster := ha.toMaster.trans h.toMaster
  toSlave := by
    rw [ha.toSlave, ha.object, ha.backlog]
    exact h.toSlave
  counted := ha.offset.trans h.counted
  missed := h.missed.congr ha.backlog ha.keys
  behind := by
    rw [ha.backlog]
    exact h.behind
  keys := ha.slaveKeys.trans h.keys

/-- What is asked of a step. To `Paced` it adds: between the master's knowing the slave and the
end of the handshake nobody writes; SYNC finds what it asks for in the backlog, which has not been
filled; and an answer is read as a whole. -/
def Calm (x : ClientId) (p : Pair D) : PairStep → Prop
  | .request r => Paced x p (.request r) ∧ ∀ q, Request q → r.nread = respEncodeArrayString q →
      IsWrite q → (p.master.client x).flags = .REDIS_CLIENT_SLAVE → p.slave.repliReads = false
  | .readFromSlave env n => Paced x p (.readFromSlave env n) ∧
      (p.toMaster.take n =
          respEncodeArrayString [bytes "SYNC", decimalInt p.slave.server.offset] →
        p.master.backlog.accepts p.slave.server.offset = true ∧
          p.master.backlog.stream.length < MASTER_REPLI_RINGBUFFER_SIZE)
  | .readFromMaster env n turns registered =>
      if p.slave.repliReads = true ∧ p.slave.server.replState ≠ .slaveConnected then
        n = p.toSlave.length
      else Paced x p (.readFromMaster env n turns registered)
  | e => Paced x p e

/-- A write of another client, as long as the master does not know the slave. -/
theorem shaking_write {q : List Bytes} {y : ClientId} {env : Env}
    (h : Shaking port offset x c kv r stage p) (hy : x ≠ y) (hq : Passed q)
    (hdb : (p.master.client y).db = 0) (hx : (p.master.client x).flags ≠ .REDIS_CLIENT_SLAVE)
    (hread : readFromClient env p.master y (respEncodeArrayString q) = .ok s') :
    Shaking port offset x c kv r stage { p with master := s' } := by
  have hlen : (respEncodeArrayString q).length < 1024 := by
    obtain ⟨hnil, -⟩ | ⟨-, hlen, -⟩ := readFromClient_ok.mp hread
    · exact absurd hnil (encode_ne_nil q)
    · rwa [cstr_eq_self (encode_ne_zero q)] at hlen
  obtain ⟨hs, ⟨-, -, hclient, hkv, hb⟩ | ⟨hclient, hkv, hb⟩⟩ :=
    h.hosting.request hy hq.request hq.ordinary hread
  · have hclient := hclient hx
    rw [hdb] at hkv
    have hnot : ¬ (r = .sync ∨ (r = .replconf ∧ stage = .answered)) := fun hknown => hx (h.known hknown)
    refine ⟨hs, fun hknown => absurd hknown hnot, h.attached, h.reads, h.writes, h.silent, h.toMaster,
      ?_, h.counted, h.missed.push hq hlen.le hb hkv, fun e => absurd (.inl e) hnot, h.keys⟩
    have hanswer : ∀ w w' : Bytes, (if stage = .answered then r.answer w else []) =
        if stage = .answered then r.answer w' else [] := fun w w' => by
      cases r with
      | ping => rfl
      | replconf => rfl
      | sync => exact absurd (.inl rfl) hnot
    dsimp only
    rw [hclient, hanswer _ (p.master.backlog.stream.drop offset)]
    exact h.toSlave
  · exact h.aside ⟨hs, hclient, hkv, hb, h.attached, rfl, rfl, rfl, rfl, rfl, rfl, rfl⟩

theorem Arrives.sent {stream : Bytes} {writeBuf : Sds} (h : Arrives stream writeBuf w)
    (hl : 0 < writeBuf.len) : stream ++ writeBuf.content = w := by
  obtain ⟨rfl, hw⟩ | ⟨-, hempty⟩ := h
  · exact hw
  · omega

theorem Arrives.nothing {stream : Bytes} {writeBuf : Sds} (h : Arrives stream writeBuf []) :
    stream = [] ∧ writeBuf.content = [] := by
  obtain h | ⟨hs, hl⟩ := h
  · exact h
  · exact ⟨hs, content_of_len hl⟩

/-- The master's answer goes out. -/
theorem shaking_sends {n : Int} {file : Bytes} {wr : RdbWrites}
    (h : Shaking port offset x c kv r stage p) (hn : n = (p.master.client x).writeBuf.len)
    (hpos : 0 < n) :
    Shaking port offset x c kv r stage { p with
      master := (sendToClient (initOutputs p.master) x n file wr).server
      toSlave := p.toSlave ++ (sendToClient (initOutputs p.master) x n file wr).socket x } := by
  subst hn
  have hh := h.hosting
  obtain ⟨e, hsocket⟩ := send_whole (by omega) hh.toclose hh.replState file wr
  have hsent := h.toSlave.sent (by omega)
  rw [e, hsocket, hsent]
  refine ⟨hh.flush, fun hk => (flushed_flags _ _).trans (h.known hk), h.attached, h.reads, h.writes,
    h.silent, h.toMaster, .inr ⟨rfl, ?_⟩, h.counted, h.missed.congr rfl rfl, h.behind, h.keys⟩
  rw [modifyClient_self]
  rfl

/-- What the slave asks for arrives. -/
theorem shaking_asked {env : Env} (hport : inLong port) (ho : offset < 2 ^ 31)
    (h : Shaking port offset x c kv r stage p) (hread : Readable p.toMaster n) {m : Message}
    (hm : m.Valid) (hn : p.toMaster.take n = m.bytes)
    (hsync : p.toMaster.take n =
        respEncodeArrayString [bytes "SYNC", decimalInt p.slave.server.offset] →
      p.master.backlog.accepts p.slave.server.offset = true ∧
        p.master.backlog.stream.length < MASTER_REPLI_RINGBUFFER_SIZE)
    (hs : readFromClient env p.master x (p.toMaster.take n) = .ok s') :
    Shaking port offset x c kv r .answered
      { p with master := s', toMaster := p.toMaster.drop n } := by
  have hasked : stage = .asked := by
    by_contra hne
    have hnil := h.toMaster
    rw [if_neg hne] at hnil
    rw [hnil] at hread
    exact absurd (Nat.lt_of_lt_of_le hread.1 hread.2.2) (Nat.lt_irrefl 0)
  subst hasked
  have hmaster : p.toMaster = respEncodeArrayString (r.argv port offset) := h.toMaster
  have hr : Request (r.argv port offset) := round_request hport ho
  obtain rfl : m = .request (r.argv port offset) := by
    have hfront : m.bytes ++ p.toMaster.drop n =
        (Message.request (r.argv port offset)).bytes ++ [] := by
      rw [← hn, List.take_append_drop, hmaster, List.append_nil]
      rfl
    exact messages.unique hm hr hfront
  have hdrop : p.toMaster.drop n = [] := by
    have htake : p.toMaster.take n = p.toMaster := hn.trans hmaster.symm
    rw [← htake, List.drop_take, Nat.sub_self, List.take_zero]
  have hsync' : r = .sync → p.master.backlog.accepts offset = true ∧
      p.master.backlog.stream.length < MASTER_REPLI_RINGBUFFER_SIZE := fun e => by
    rw [h.counted] at hsync
    refine hsync ?_
    rw [hn, e]
    rfl
  rw [hn] at hs
  obtain ⟨hs', hflags, hbuf, hdb, hb⟩ := h.hosting.round hport ho (fun e => (hsync' e).1) hs
  obtain ⟨hstream, hempty⟩ := h.toSlave.nothing
  refine ⟨hs', fun hk => ?_, h.attached, h.reads, h.writes, h.silent, hdrop, .inl ⟨hstream, ?_⟩,
    h.counted, h.missed.congr hb (by rw [hdb]), fun e _ => ?_, h.keys⟩
  · dsimp only
    rw [hflags]
    split
    · rfl
    · rename_i hne
      obtain rfl : r = .sync := hk.elim id fun hk => absurd hk.1 hne
      exact h.known (.inl rfl)
  · dsimp only
    rw [hbuf, hempty, List.nil_append, hb, if_pos rfl]
    cases r with
    | ping => rfl
    | replconf => rfl
    | sync =>
      obtain ⟨haccepts, hlt⟩ := hsync' rfl
      rw [((Backlog.read_ok h.missed.backlog haccepts).mpr hlt).2]
  · have hlast := (accepts_iff.mp (hsync' e).1).2.2
    dsimp only
    rw [hb, ← h.missed.backlog.last]
    omega

/-- The slave asks. -/
theorem shaking_ready (ho : offset < 2 ^ 31) (h : Shaking port offset x c kv r stage p)
    (hs : linkStep io fake port p.slave (.writable true) = some (u, sl')) :
    Shaking port offset x c kv r .asked
      { p with slave := sl', toMaster := p.toMaster ++ repliWritten port p.slave } := by
  have hm := messageToMaster_round port h.attached.replState h.counted ho
  obtain ⟨hwrites, hsent, rfl⟩ :=
    linkStep_tells h.attached hm (encode_ne_nil _) (encode_ne_zero _) hs
  have hready : stage = .ready := by
    rw [h.writes] at hwrites
    exact of_decide_eq_true hwrites
  subst hready
  have hmaster : p.toMaster = [] := h.toMaster
  have hwritten : repliWritten port p.slave = respEncodeArrayString (r.argv port offset) := by
    rw [hsent, content_of_len h.silent, List.nil_append]
  refine ⟨h.hosting, fun hk => h.known (hk.elim .inl fun hk => ?_), h.attached.tells (encode_ne_zero _),
    h.reads, rfl, ?_, ?_, h.toSlave, h.counted, h.missed, fun _ e => ?_, h.keys⟩
  · cases hk.2
  · dsimp only
    rw [flushed, modifyClient_self]
    rfl
  · dsimp only
    rw [hmaster, hwritten]
    rfl
  · cases e

/-- The timer has nothing to do before the slave is connected. -/
theorem linkStep_waits (hs : Attached c state sl.server) (hne : state ≠ .slaveConnected)
    (h : linkStep io fake port sl (.cron none none) = some (u, sl')) : sl' = sl := by
  unfold linkStep linkEvent slaveCron at h
  simp only [hs.slave, hs.replState, if_neg hne, if_true] at h
  cases h
  rfl

/-! ## The heartbeat -/

/-- The slave is connected, and waits for the reply to its heartbeat. -/
structure Beating (x c : ClientId) (p : Pair D) : Prop where
  serving : Serving x p.master
  following : Following c p.slave.server
  reads : p.slave.repliReads = true
  silent : (p.slave.server.client c).writeBuf.len = 0
  down : ∃ ms, Carries Message.bytes (· = .line (bytes "+OK"))
    (p.toSlave ++ (p.master.client x).writeBuf.content) ms
  up : Acks p.toMaster
  keys : kvs p.slave.server.db = kvs p.master.db

theorem ok_line : resp.ok = (Message.line (bytes "+OK")).bytes := by decide

theorem ok_valid {m : Message} (h : m = .line (bytes "+OK")) : m.Valid := by
  subst h
  refine line_valid ?_
  rw [show bytes "+OK" ++ crlf = resp.ok from ok_line.symm]
  exact List.mem_cons_self

theorem Beating.aside (h : Beating x c p) (ha : Aside x c .slaveConnected p p') : Beating x c p' where
  serving := ha.hosting.serving (by rw [ha.object, h.serving.flags])
  following := following_iff.mpr ha.attached
  reads := ha.reads.trans h.reads
  silent := by
    rw [ha.link]
    exact h.silent
  down := by
    rw [ha.toSlave, ha.object]
    exact h.down
  up := by
    rw [ha.toMaster]
    exact h.up
  keys := ha.slaveKeys.trans (h.keys.trans ha.keys.symm)

theorem beating_sends {n : Int} {file : Bytes} {wr : RdbWrites} (h : Beating x c p)
    (hn : n = (p.master.client x).writeBuf.len) (hpos : 0 < n) :
    Beating x c { p with
      master := (sendToClient (initOutputs p.master) x n file wr).server
      toSlave := p.toSlave ++ (sendToClient (initOutputs p.master) x n file wr).socket x } := by
  subst hn
  obtain ⟨e, hsocket⟩ := send_whole (by omega) h.serving.toclose h.serving.replState file wr
  rw [e, hsocket]
  refine ⟨h.serving.flush, h.following, h.reads, h.silent, ?_, h.up, h.keys⟩
  have hcontent := flushed_content p.master x
  rw [flushed] at hcontent
  dsimp only
  rw [hcontent, List.append_nil]
  exact h.down

theorem beating_asked {env : Env} (h : Beating x c p) {m : Message} (hm : m.Valid)
    (hn : p.toMaster.take n = m.bytes)
    (hs : readFromClient env p.master x (p.toMaster.take n) = .ok s') :
    Beating x c { p with master := s', toMaster := p.toMaster.drop n } := by
  have hstream : Acks (p.toMaster ++ []) := by
    rw [List.append_nil]
    exact h.up
  obtain ⟨hup, hacks⟩ := hstream.take hm hn
  rw [List.append_nil] at hacks
  rw [hn] at hs
  cases m with
  | line l =>
    obtain ⟨hs', hbuf, hdb, -⟩ := h.serving.line hm hs
    refine ⟨hs', h.following, h.reads, h.silent, ?_, hacks, by rw [hdb]; exact h.keys⟩
    dsimp only
    rw [hbuf]
    exact h.down
  | request q =>
    obtain ⟨o, -, rfl⟩ := hup
    obtain ⟨hs', hbuf, hdb, -⟩ := h.serving.replack hm hs
    refine ⟨hs', h.following, h.reads, h.silent, ?_, hacks, by rw [hdb]; exact h.keys⟩
    obtain ⟨ms, hc⟩ := h.down
    dsimp only
    rw [hbuf, ← List.append_assoc, ok_line]
    exact ⟨_, hc.push rfl⟩

theorem beating_writes (h : Beating x c p) (ho : inLong p.slave.server.offset)
    (hs : linkStep io fake port p.slave (.writable true) = some (u, sl')) :
    Beating x c { p with slave := sl', toMaster := p.toMaster ++ repliWritten port p.slave } := by
  have ha := following_iff.mp h.following
  obtain ⟨hne, hnul⟩ := replack_noise p.slave.server
  obtain ⟨-, hsent, rfl⟩ :=
    linkStep_tells ha (messageToMaster_heartbeat h.following port) hne hnul hs
  refine ⟨h.serving, following_iff.mpr (ha.tells hnul), h.reads, ?_, h.down, ?_, h.keys⟩
  · dsimp only
    rw [flushed, modifyClient_self]
    rfl
  · dsimp only
    rw [hsent, content_of_len h.silent, List.nil_append]
    exact h.up.push (m := .request _) ⟨_, ho, rfl⟩

/-! ## Answers -/

theorem Arrives.whole {stream : Bytes} {writeBuf : Sds} (h : Arrives stream writeBuf w)
    (hne : stream ≠ []) : stream = w ∧ writeBuf.len = 0 := h.resolve_left fun h => hne h.1

theorem readable_ne_nil {stream : Bytes} (h : Readable stream n) : stream ≠ [] := fun e => by
  rw [e] at h
  exact absurd (Nat.lt_of_lt_of_le h.1 h.2.2) (Nat.lt_irrefl 0)

/-- The slave goes on to its next round. -/
theorem shaking_next {line : Bytes} {next : Round} (h : Shaking port offset x c kv r .answered p)
    (hsl : sl' = tookLine c line line next.state true p.slave) (hempty : p.toSlave.drop n = [])
    (hbuf : (p.master.client x).writeBuf.len = 0)
    (hknown : next = .sync → (p.master.client x).flags = .REDIS_CLIENT_SLAVE) :
    Shaking port offset x c kv next .ready { p with slave := sl', toSlave := p.toSlave.drop n } := by
  subst hsl
  obtain ⟨hattached, hwrite⟩ := h.attached.took line next.state true
  refine ⟨h.hosting, fun hk => hk.elim hknown fun hk => absurd hk.2 (by decide), hattached, h.reads,
    Bool.or_true _, ?_, h.toMaster, .inl ⟨hempty, content_of_len hbuf⟩, h.counted, h.missed,
    fun _ e => absurd e (by decide), h.keys⟩
  dsimp only
  rw [hwrite]
  exact h.silent

/-- The slave reads the answer. -/
theorem shaking_answered {env : Env} {turns : Nat} {registered : List Bool} (hne : c ≠ fake)
    (h : Shaking port offset x c kv r stage p) (hread : Readable p.toSlave n)
    (hn : n = p.toSlave.length)
    (hs : linkStep io fake port p.slave (.readable env (p.toSlave.take n) turns registered) =
      some (u, sl')) :
    (∃ next, Shaking port offset x c kv next .ready
        { p with slave := sl', toSlave := p.toSlave.drop n }) ∨
      Beating x c { p with slave := sl', toSlave := p.toSlave.drop n } := by
  have hnil := readable_ne_nil hread
  have hanswered : stage = .answered := by
    by_contra hstage
    have hempty := h.toSlave
    rw [if_neg hstage] at hempty
    exact hnil hempty.nothing.1
  subst hanswered
  obtain ⟨hstream, hbuf⟩ := h.toSlave.whole hnil
  have hdrop : p.toSlave.drop n = [] := by rw [hn, List.drop_length]
  obtain ⟨-, hloop⟩ := linkStep_readable h.attached.link hs
  rw [hn, List.take_length, hstream] at hloop
  cases r with
  | ping => exact .inl ⟨.replconf, shaking_next h (pong_read h.attached hloop) hdrop hbuf nofun⟩
  | replconf =>
    exact .inl ⟨.sync, shaking_next h (ok_read h.attached hloop) hdrop hbuf fun _ =>
      h.known (.inr ⟨rfl, rfl⟩)⟩
  | sync =>
    right
    obtain ⟨log, hlog, hlogged, happlied⟩ := h.missed.log
    have hlogne : log ≠ [] := by
      rintro rfl
      have hlen := congrArg List.length hlogged
      rw [List.length_drop, List.flatMap_nil, List.length_nil] at hlen
      have := h.behind rfl rfl
      omega
    rw [if_pos rfl, Round.answer, hlogged] at hloop
    obtain ⟨hattached, hwrite, hkvs, hreads, -⟩ := append_read hne hlog hlogne h.attached hloop
    refine ⟨h.hosting.serving (h.known (.inl rfl)), following_iff.mpr hattached,
      hreads.trans h.reads, ?_, ⟨[], ?_⟩, ⟨[], ?_⟩, ?_⟩
    · dsimp only
      rw [hwrite]
      exact h.silent
    · dsimp only
      rw [hdrop, content_of_len hbuf]
      exact Carries.nil
    · have hmaster : p.toMaster = [] := h.toMaster
      dsimp only
      rw [hmaster]
      exact Carries.nil
    · dsimp only
      rw [hkvs, h.keys, happlied]

theorem leads_lines {R : List (DbMap Robj) → Prop} {ms : List Message} {l : Bytes}
    (hms : ∀ m ∈ ms, m = .line l) (hR : R kv) : Leads R kv kv ms := by
  have hstay : ∀ ms : List Message, (∀ m ∈ ms, m = .line l) → ms.foldl delivered kv = kv := by
    intro ms hms
    induction ms with
    | nil => rfl
    | cons m ms ih =>
      rw [List.foldl_cons, hms m List.mem_cons_self]
      exact ih fun m hm => hms m (List.mem_cons_of_mem _ hm)
  refine ⟨hstay ms hms, fun ms₁ hfront => ?_⟩
  rw [hstay ms₁ fun m hm => hms m (hfront.subset hm)]
  exact hR

/-- The first reply to a heartbeat hands the connection over. -/
theorem beating_answered {R : List (DbMap Robj) → Prop} {env : Env} {turns : Nat}
    {registered : List Bool} {m : Message} (h : Beating x c p) (hR : R (kvs p.master.db)) (hm : m.Valid)
    (hn : p.toSlave.take n = m.bytes)
    (hs : linkStep io fake port p.slave (.readable env (p.toSlave.take n) turns registered) =
      some (u, sl')) :
    Joined R x c { p with slave := sl', toSlave := p.toSlave.drop n } := by
  have ha := following_iff.mp h.following
  obtain ⟨ms, hc⟩ := h.down
  obtain ⟨rfl, ms', -, hc'⟩ := hc.take messages (fun _ => ok_valid) hm hn
  obtain ⟨-, hloop⟩ := linkStep_readable h.following.link hs
  rw [hn, ← ok_line] at hloop
  obtain rfl := beat_read ha hloop
  obtain ⟨hattached, hwrite⟩ := ha.took resp.ok .slaveConnected false
  refine ⟨h.serving, following_iff.mpr hattached, rfl, ⟨ms', ⟨fun m hm => ?_, hc'.stream⟩, ?_⟩, ?_⟩
  · rw [hc'.kind m hm]
    exact ok_line.symm
  · show Leads R (kvs p.slave.server.db) (kvs p.master.db) ms'
    rw [h.keys]
    exact leads_lines hc'.kind hR
  · dsimp only
    rw [hwrite, content_of_len h.silent, List.append_nil]
    exact h.up

end Fedis.Proof.Pair

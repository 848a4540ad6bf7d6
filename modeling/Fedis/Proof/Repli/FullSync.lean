import Fedis.Impl.Rio
import Fedis.Proof.Parse
import Fedis.Proof.Repli.Loop

/-!
# A full synchronisation in pieces

A slave waits for `+FULLSYNC` as long as the line is not complete. When it is, the
rest of that read, or else the first bytes that follow it, have to be the whole RDB
file with its header and line end: what stands in the buffer at the next turn is
taken for it.

* `waiting_read`, `line_read`: reads up to the line;
* `receiving_all`: the turn that takes the file;
* `RoomForSync`: the memory that the reads need;
* `synced_reads`, `reads_room`: few enough reads lead to a synchronised slave iff they have room
  and the load returns.
-/

namespace Fedis.Proof.Repli

open Framework Server Resp

variable {D : Type} {io : RdbIO D} {env : Env} {c fake : ClientId} {sl sl' sl'' : Slave D}
  {P r v w rest : Bytes} {reads : List Bytes}

/-- What the master sends for a full synchronisation. -/
def syncStream (P : Bytes) : Bytes := resp.fullsync ++ bulkString P

/-- How many bytes have come when all of the payload has. -/
def payloadEnd (P : Bytes) : Nat := resp.fullsync.length + (decimal P.length).length + 3 + P.length

/-- A read has room in the buffer. While the slave waits for an answer, the byte behind what has
come of it is compared too. -/
structure ReadFits (c : ClientId) (sl : Slave D) (r : Bytes) : Prop where
  fits : (sl.readBuf c).Fits r.length
  inside : sl.server.replState = .slaveSendSync →
    (sdscatlen (sl.readBuf c) r).len < resp.fullsync.length →
      (sdscatlen (sl.readBuf c) r).len < (sdscatlen (sl.readBuf c) r).alloc

/-- The reads, one after the other; they had room, and the handler has returned from each. -/
inductive Reads (io : RdbIO D) (env : Env) (c fake : ClientId) :
    Slave D → List Bytes → Slave D → Prop
  | nil (sl : Slave D) : Reads io env c fake sl [] sl
  | read (sl sl' sl'' : Slave D) (r : Bytes) (reads : List Bytes) (n : Nat)
      (hroom : ReadFits c sl r) (h : repliReadHandler io env c fake n sl r = .ok (some sl'))
      (hreads : Reads io env c fake sl' reads sl'') : Reads io env c fake sl (r :: reads) sl''

/-- The reads up to the whole answer have room in the buffer, with the byte behind each, and so
has the next one when the answer has been taken off. -/
def RoomForSync : Sds → List Bytes → Prop
  | _, [] => True
  | ss, r :: reads => ss.Fits r.length ∧
    if (sdscatlen ss r).len < resp.fullsync.length then
      (sdscatlen ss r).len < (sdscatlen ss r).alloc ∧ RoomForSync (sdscatlen ss r) reads
    else ∀ r' ∈ reads.head?, (sdsTail (sdscatlen ss r) resp.fullsync.length).Fits r'.length

instance decidableRoomForSync : ∀ ss reads, Decidable (RoomForSync ss reads)
  | _, [] => isTrue trivial
  | ss, r :: reads =>
    have := decidableRoomForSync (sdscatlen ss r) reads
    inferInstanceAs (Decidable (ss.Fits r.length ∧
      if (sdscatlen ss r).len < resp.fullsync.length then
        (sdscatlen ss r).len < (sdscatlen ss r).alloc ∧ RoomForSync (sdscatlen ss r) reads
      else ∀ r' ∈ reads.head?, (sdsTail (sdscatlen ss r) resp.fullsync.length).Fits r'.length))

/-- The slave is connected, its buffer empty, and the payload was handed on and loaded
once, when it was there. -/
structure Synced (c : ClientId) (P : Bytes) (sl : Slave D) : Prop where
  connected : sl.server.replState = .slaveConnected
  empty : (sl.readBuf c).len = 0
  events : ∃ k, sl.events = [.receiveRDBfile P, .rdbLoad k] ∧ payloadEnd P ≤ k

/-- The slave waits for an answer to SYNC. So far `w` has come, and what stands behind
it in the buffer's memory continues none of the answers. -/
structure Waiting (c : ClientId) (w : Bytes) (sl : Slave D) : Prop where
  state : sl.server.replState = .slaveSendSync
  holds : Holds (sl.readBuf c) w
  stale : ∀ line ∈ [resp.fullsync, resp.appendsync, resp.nosync], ∀ j, 0 < j → w.length ≤ j →
    j < line.length → (sl.readBuf c).buf.getD j 0 ≠ line.getD j 0
  events : sl.events = []
  received : sl.received = w.length

/-- The slave waits for the RDB file. So far `v` has come behind the answer. -/
structure Receiving (c : ClientId) (v : Bytes) (sl : Slave D) : Prop where
  state : sl.server.replState = .slaveReceiveRdb
  holds : Holds (sl.readBuf c) v
  events : sl.events = []
  received : sl.received = resp.fullsync.length + v.length

/-! ## Handlers and reads -/

theorem readBuf_receive (sl : Slave D) (r : Bytes) :
    (receive c sl r).readBuf c = sdscatlen (sl.readBuf c) r := by
  simp [receive, Slave.readBuf]

theorem loop_more {n : Nat} (h : repliLoop io env c fake n sl = .ok (some sl')) (k : Nat) :
    repliLoop io env c fake (n + k) sl = .ok (some sl') := by
  induction n generalizing sl with
  | zero => cases h
  | succ n ih =>
    rw [Nat.succ_add]
    rw [repliLoop] at h ⊢
    split
    · rename_i hlen
      rwa [if_pos hlen] at h
    · rename_i hlen
      rw [if_neg hlen] at h
      obtain ⟨sl₁, hturn, h⟩ := bind_ok.mp h
      obtain ⟨v, hparse, h⟩ := bind_ok.mp h
      rw [hturn, ok_bind, hparse, ok_bind]
      cases v with
      | none => exact h
      | some endptr => exact ih h

/-- The handler returns in one state only. -/
theorem handler_unique {n n' : Nat} (h : repliReadHandler io env c fake n sl r = .ok (some sl'))
    (h' : repliReadHandler io env c fake n' sl r = .ok (some sl'')) : sl' = sl'' := by
  unfold repliReadHandler at h h'
  split at h
  · cases h
  · rename_i hr
    rw [if_neg hr] at h'
    have h₁ := loop_more h n'
    have h₂ := loop_more h' n
    rw [Nat.add_comm, h₂] at h₁
    cases h₁
    rfl

/-! ## Waiting for the answer -/

theorem not_prefix {line m : Bytes} {j : Nat} (hj : j < line.length) (h : m.getD j 0 ≠ line.getD j 0) :
    ¬ line <+: m := by
  rintro ⟨t, rfl⟩
  exact h (by rw [getD_append, if_pos hj])

theorem getD_of_prefix (h : w <+: v) {j : Nat} (hj : j < w.length) : w.getD j 0 = v.getD j 0 := by
  obtain ⟨t, rfl⟩ := h
  rw [getD_append, if_pos hj]

theorem Waiting.receive (h : Waiting c w sl) (r : Bytes) : Waiting c (w ++ r) (receive c sl r) where
  state := h.state
  holds := by
    rw [readBuf_receive]
    exact holds_sdscatlen h.holds r
  stale := by
    intro line hline j h0 hj hlt
    have hl := h.holds.len
    rw [List.length_append] at hj
    rw [readBuf_receive]
    have hbehind : (sl.readBuf c).len + r.length ≤ j := by omega
    rcases getD_sdscatlen_stale hbehind with hz | hold
    · rw [hz]
      have hlines : ∀ line ∈ [resp.fullsync, resp.appendsync, resp.nosync], ∀ j < line.length,
          (0 : UInt8) ≠ line.getD j 0 := by decide
      exact hlines line hline j hlt
    · rw [hold]
      exact h.stale line hline j h0 (by omega) hlt
  events := h.events
  received := by
    rw [List.length_append, ← h.received]
    rfl

/-- An answer that has not come in whole is none of the three. -/
theorem Waiting.idle (h : Waiting c w sl) (hw : w <+: resp.fullsync) (hne : w ≠ [])
    (hlt : w.length < resp.fullsync.length) : ¬ Awaits c sl := by
  have hpos := List.length_pos_of_ne_nil hne
  have hsecond : ∀ line ∈ [resp.appendsync, resp.nosync], ¬ line <+: (sl.readBuf c).buf := by
    intro line hline
    have hmem : line ∈ [resp.fullsync, resp.appendsync, resp.nosync] := List.mem_cons_of_mem _ hline
    have h1 : 1 < line.length := by
      have all : ∀ line ∈ [resp.appendsync, resp.nosync], 1 < line.length := by decide
      exact all line hline
    refine not_prefix h1 ?_
    by_cases hone : w.length = 1
    · exact h.stale line hmem 1 (by omega) (by omega) h1
    · rw [h.holds.getD (by omega), getD_of_prefix hw (by omega)]
      have all : ∀ line ∈ [resp.appendsync, resp.nosync],
          resp.fullsync.getD 1 0 ≠ line.getD 1 0 := by decide
      exact all line hline
  rw [Awaits, h.state]
  rintro (hp | hp | hp)
  · exact not_prefix hlt (h.stale resp.fullsync (by simp) w.length (by omega) (by omega) hlt) hp
  · exact hsecond _ (by simp) hp
  · exact hsecond _ (by simp) hp

theorem respParse_line {m : Bytes} (hw : w <+: resp.fullsync) (hlt : w.length < resp.fullsync.length)
    (hm : w <+: m) : respParse m w.length = .ok none := by
  have hline : resp.fullsync = bytes "+FULLSYNC" ++ crlf ++ [] := by decide
  have h11 : resp.fullsync.length = 11 := by decide
  have h9 : (bytes "+FULLSYNC").length = 9 := by decide
  rw [hline] at hw
  exact parse_short (by decide) hw (by omega) hm w.length

/-- A read that leaves the answer incomplete. -/
theorem waiting_read (h : Waiting c w sl) (hr : r ≠ []) (hw : w ++ r <+: resp.fullsync)
    (hlt : (w ++ r).length < resp.fullsync.length) :
    repliReadHandler io env c fake 1 sl r = .ok (some (receive c sl r)) := by
  have h := h.receive r
  have hne : w ++ r ≠ [] := by simp [hr]
  have hlen := h.holds.len
  have hpos := List.length_pos_of_ne_nil hne
  rw [repliReadHandler, if_neg hr, repliLoop, if_neg (by omega), turn_idle (h.idle hw hne hlt), ok_bind,
    hlen, respParse_line hw hlt h.holds.buf]
  rfl

/-- What the turn leaves that finds the whole answer, with `rest` behind it. -/
def answered (c : ClientId) (sl : Slave D) : Slave D :=
  { sl with
    server := { sl.server with replState := .slaveReceiveRdb }.modifyClient c fun client =>
      { client with readBuf := sdsTail (sl.readBuf c) resp.fullsync.length } }

theorem turn_answered (hs : sl.server.replState = .slaveSendSync)
    (hh : Holds (sl.readBuf c) (resp.fullsync ++ rest)) (hrest : rest <+: bulkString P) :
    repliTurn io env c fake sl = .ok (answered c sl) := by
  have hline : resp.fullsync <+: (sl.readBuf c).buf := (List.prefix_append _ _).trans hh.buf
  have hlen : resp.fullsync.length ≤ (sl.readBuf c).len := by
    rw [hh.len, List.length_append]
    omega
  have htail : ((answered c sl).readBuf c) = sdsTail (sl.readBuf c) resp.fullsync.length := by
    simp [answered, Slave.readBuf]
  -- behind the answer stands a `$`, or nothing
  have hfirst : ∀ line : Bytes, line.getD 0 0 = 43 → 0 < line.length →
      ¬ line <+: ((answered c sl).readBuf c).buf := by
    intro line hplus hpos
    refine not_prefix hpos ?_
    rw [htail, getD_sdsTail, hh.len, List.length_append, Nat.add_sub_cancel_left, hplus]
    split
    · rw [hh.getD (by rw [List.length_append]; omega), getD_append, if_neg (by omega),
        Nat.add_sub_cancel_left, getD_of_prefix hrest (by omega)]
      exact (by decide : (36 : UInt8) ≠ 43)
    · rw [if_pos (by omega)]
      decide
  have htake : takeLine c resp.fullsync .slaveReceiveRdb false sl = .ok (answered c sl) := by
    rw [takeLine, if_pos hline]
    have hrange : rangeReadBuf c resp.fullsync.length
        { sl.server with replState := .slaveReceiveRdb } = .ok (answered c sl).server :=
      (rangeReadBuf_ok _).mpr ⟨hlen, rfl⟩
    rw [hrange, ok_bind, Bool.or_false]
    rfl
  have hskip : ∀ (line : Bytes) (next : ReplState), line.getD 0 0 = 43 → 0 < line.length →
      takeLine c line next false (answered c sl) = .ok (answered c sl) := by
    intro line next hplus hpos
    rw [takeLine, if_neg (hfirst line hplus hpos)]
  rw [repliTurn, hs]
  dsimp only
  rw [htake, ok_bind, hskip _ _ (by decide) (by decide), ok_bind, hskip _ _ (by decide) (by decide)]

/-- The read that completes the answer: what has come behind it is left. -/
theorem answered_ok (h : Waiting c (resp.fullsync ++ rest) sl) : Receiving c rest (answered c sl) where
  state := rfl
  holds := by
    have := holds_sdsTail h.holds resp.fullsync.length
    rw [List.drop_left] at this
    simpa [answered, Slave.readBuf] using this
  events := h.events
  received := by
    rw [← List.length_append]
    exact h.received

/-! ## Receiving the file -/

theorem scanIntLen_header (hP : P.length < 2 ^ 31) (t : Bytes) :
    scanIntLen (decimal P.length ++ crlf ++ t) = some ((P.length : Int), (decimal P.length).length) := by
  have hclamp : clampLong (P.length : Int) = P.length := by
    simp only [clampLong, LONG_MIN, LONG_MAX]
    omega
  have hbmod : toInt32 (P.length : Int) = P.length := Int.bmod_eq_of_le (by omega) (by omega)
  rw [scanIntLen, List.append_assoc, strtol_decimal _ (by rintro b hb; cases hb; rfl), Option.map_some,
    hclamp, hbmod, List.length_append, Nat.add_sub_cancel]

theorem length_header (P : Bytes) :
    (36 :: decimal P.length ++ crlf).length = (decimal P.length).length + 3 := by simp [crlf]

/-- The server after the file has been loaded, up to the bytes that are taken off the
buffer then. -/
def loadedServer (c : ClientId) (k : Nat) (sl : Slave D) (db : List RedisDb) : RedisServer :=
  slaveUpdateOffset { sl.server.modifyClient c fun client =>
      { client with readBuf := sdsTail (sl.readBuf c) k } with
    db := db, replState := .slaveConnected } 0

theorem readBuf_loadedServer (k : Nat) (db : List RedisDb) :
    ((loadedServer c k sl db).client c).readBuf = sdsTail (sl.readBuf c) k := by
  simp [loadedServer, slaveUpdateOffset]

/-- The turn that finds a whole header in front: it takes the bytes behind it for the
file, as many as the header says. -/
theorem receiving_header (hh : Holds (sl.readBuf c) (36 :: decimal P.length ++ crlf ++ rest))
    (hP : P.length + 2 < 2 ^ 31) (buf : Bytes)
    (hbuf : readAt (sdsTail (sl.readBuf c) ((decimal P.length).length + 3)).buf 0 P.length = buf) :
    receiveRdb io c sl =
      (io.rdbLoad (io.receiveRDBfile buf sl.disk) sl.server.db >>= fun db =>
        rangeReadBuf c (P.length + 2 : Nat)
            (loadedServer c ((decimal P.length).length + 3) sl db) >>= fun server =>
          .ok { sl with
            server := server
            disk := io.receiveRDBfile buf sl.disk
            repliWrites := true
            events := sl.events ++ [.receiveRDBfile buf, .rdbLoad sl.received] }) := by
  obtain ⟨t, ht⟩ := hh.buf
  have hmem : (sl.readBuf c).buf.drop 1 = decimal P.length ++ crlf ++ (rest ++ t) := by
    rw [← ht]
    simp
  have hlen := hh.len
  rw [List.length_append, length_header] at hlen
  have hrange : rangeReadBuf c (1 + ((decimal P.length).length : Int) + 2) sl.server = .ok
      (sl.server.modifyClient c fun client =>
        { client with readBuf := sdsTail (sl.readBuf c) ((decimal P.length).length + 3) }) := by
    have hcast : 1 + ((decimal P.length).length : Int) + 2 = ((decimal P.length).length + 3 : Nat) := by
      omega
    rw [hcast]
    refine (rangeReadBuf_ok _).mpr ⟨?_, rfl⟩
    change _ ≤ (sl.readBuf c).len
    omega
  rw [receiveRdb, hmem, scanIntLen_header (by omega)]
  dsimp only
  rw [hrange, ok_bind, if_neg (by omega), Int.toNat_natCast, modifyClient_self, hbuf, modifyClient_db]
  rfl

/-- The slave after the turn that takes the file. -/
def loaded (io : RdbIO D) (c : ClientId) (P : Bytes) (sl : Slave D) (db : List RedisDb) : Slave D :=
  let server := loadedServer c ((decimal P.length).length + 3) sl db
  { sl with
    server := server.modifyClient c fun client =>
      { client with readBuf := sdsTail (server.client c).readBuf (P.length + 2) }
    disk := io.receiveRDBfile P sl.disk
    repliWrites := true
    events := sl.events ++ [.receiveRDBfile P, .rdbLoad sl.received] }

theorem loaded_len (hh : Holds (sl.readBuf c) (bulkString P)) (db : List RedisDb) :
    ((loaded io c P sl db).readBuf c).len = 0 := by
  rw [loaded, Slave.readBuf, modifyClient_self, len_sdsTail, readBuf_loadedServer, len_sdsTail, hh.len,
    length_bulkString]
  omega

/-- **The turn that takes the file**, when all of it has come. -/
theorem receiving_whole (hh : Holds (sl.readBuf c) (bulkString P)) (hP : P.length + 2 < 2 ^ 31) :
    receiveRdb io c sl = (io.rdbLoad (io.receiveRDBfile P sl.disk) sl.server.db >>= fun db =>
      .ok (loaded io c P sl db)) := by
  have hv : bulkString P = 36 :: decimal P.length ++ crlf ++ (P ++ crlf) := by simp [bulkString]
  have hholds := holds_sdsTail hh ((decimal P.length).length + 3)
  have hdrop : (bulkString P).drop ((decimal P.length).length + 3) = P ++ crlf := by
    rw [hv, ← length_header, List.drop_left]
  rw [hdrop] at hholds
  have hbuf : readAt (sdsTail (sl.readBuf c) ((decimal P.length).length + 3)).buf 0 P.length = P := by
    obtain ⟨t, ht⟩ := hholds.buf
    rw [← ht, readAt_eq _ _ _ (by simp), List.drop_zero, List.append_assoc, List.take_left]
  have hlen := hholds.len
  rw [List.length_append] at hlen
  have hrange : ∀ db, rangeReadBuf c (P.length + 2 : Nat)
      (loadedServer c ((decimal P.length).length + 3) sl db) = .ok (loaded io c P sl db).server :=
    fun db => (rangeReadBuf_ok _).mpr ⟨by rw [readBuf_loadedServer, hlen]; exact Nat.le_refl _, rfl⟩
  rw [hv] at hh
  rw [receiving_header hh hP P hbuf]
  congr 1
  funext db
  rw [hrange, ok_bind]
  rfl

/-- The file is loaded into the slave's databases. -/
def LoadReturns (io : RdbIO D) (P : Bytes) (sl : Slave D) : Prop :=
  ∃ db, io.rdbLoad (io.receiveRDBfile P sl.disk) sl.server.db = .ok db

theorem receiving_all (h : Receiving c (bulkString P) sl) (hP : P.length + 2 < 2 ^ 31)
    (hload : LoadReturns io P sl) : ∃ sl', receiveRdb io c sl = .ok sl' ∧ Synced c P sl' := by
  obtain ⟨db', hdb⟩ := hload
  refine ⟨loaded io c P sl db', by rw [receiving_whole h.holds hP, hdb, ok_bind], rfl,
    loaded_len h.holds db', sl.received, by rw [loaded, h.events, List.nil_append], ?_⟩
  rw [h.received, payloadEnd, length_bulkString]
  omega

theorem Receiving.receive (h : Receiving c v sl) (r : Bytes) : Receiving c (v ++ r) (receive c sl r) where
  state := h.state
  holds := by
    rw [readBuf_receive]
    exact holds_sdscatlen h.holds r
  events := h.events
  received := by
    rw [List.length_append, ← Nat.add_assoc, ← h.received]
    rfl

theorem respParse_zero (m : Bytes) : respParse m 0 = .ok none := rfl

theorem receiving_loop (h : Receiving c (bulkString P) sl) (hP : P.length + 2 < 2 ^ 31)
    (hload : LoadReturns io P sl) :
    ∃ sl', repliLoop io env c fake 1 sl = .ok (some sl') ∧ Synced c P sl' := by
  obtain ⟨sl', hturn, hs⟩ := receiving_all h hP hload
  have hlen := h.holds.len
  rw [length_bulkString] at hlen
  refine ⟨sl', ?_, hs⟩
  rw [repliLoop, if_neg (by omega), repliTurn, h.state]
  dsimp only
  rw [hturn, ok_bind, hs.empty, respParse_zero]
  rfl

/-- The loop returns only if the load does. -/
theorem receiving_loads (h : Receiving c (bulkString P) sl) (hP : P.length + 2 < 2 ^ 31) {n : Nat}
    (hrun : repliLoop io env c fake n sl = .ok (some sl')) : LoadReturns io P sl := by
  have hlen := h.holds.len
  rw [length_bulkString] at hlen
  cases n with
  | zero => cases hrun
  | succ n =>
    rw [repliLoop, if_neg (by omega), repliTurn, h.state] at hrun
    obtain ⟨sl₁, hturn, -⟩ := bind_ok.mp hrun
    dsimp only at hturn
    rw [receiving_whole h.holds hP] at hturn
    obtain ⟨db, hdb, -⟩ := bind_ok.mp hturn
    exact ⟨db, hdb⟩

/-- The read behind the answer that brings all of the file. -/
theorem receiving_read (h : Receiving c v sl) (hr : r ≠ []) (hv : v ++ r = bulkString P)
    (hP : P.length + 2 < 2 ^ 31) (hload : LoadReturns io P sl) :
    ∃ sl', repliReadHandler io env c fake 1 sl r = .ok (some sl') ∧ Synced c P sl' := by
  have h := h.receive r
  rw [hv] at h
  rw [repliReadHandler, if_neg hr]
  exact receiving_loop h hP hload

/-- The read that completes the answer, but not the file. -/
theorem line_read (h : Waiting c w sl) (hr : r ≠ []) (hw : w ++ r = resp.fullsync ++ rest)
    (hrest : rest <+: bulkString P) (hlt : rest.length < (bulkString P).length)
    (hP : P.length < 2 ^ 31) :
    repliReadHandler io env c fake 1 sl r = .ok (some (answered c (receive c sl r))) := by
  have h := h.receive r
  rw [hw] at h
  have hlen := h.holds.len
  have h11 : resp.fullsync.length = 11 := by decide
  rw [List.length_append] at hlen
  have ha := (answered_ok h).holds
  rw [repliReadHandler, if_neg hr, repliLoop, if_neg (by omega), turn_answered h.state h.holds hrest,
    ok_bind, ha.len, respParse_bulk (s := P) (t := []) (by omega) (by rwa [List.append_nil]) ha.buf,
    if_neg (by omega)]
  rfl

/-- The read that completes the answer, and the file. -/
theorem whole_loop (h : Waiting c w sl) (hr : r ≠ []) (hw : w ++ r = resp.fullsync ++ bulkString P)
    (hP : P.length + 2 < 2 ^ 31) (n : Nat) : repliReadHandler io env c fake (n + 1) sl r =
      repliLoop io env c fake n (answered c (receive c sl r)) := by
  have h := h.receive r
  rw [hw] at h
  have hlen := h.holds.len
  have h11 : resp.fullsync.length = 11 := by decide
  rw [List.length_append] at hlen
  have ha := answered_ok h
  obtain ⟨t, ht⟩ := ha.holds.buf
  have hvalue : HasValue c (answered c (receive c sl r)) := by
    refine ⟨(bulkString P).length - 1, ?_⟩
    rw [ha.holds.len, respParse_bulk (s := P) (t := []) (by omega) (by rw [List.append_nil]) ⟨t, ht⟩,
      if_pos (Nat.le_refl _)]
  rw [repliReadHandler, if_neg hr,
    loop_succ n (by omega) (turn_answered h.state h.holds (List.prefix_refl _)) hvalue]

theorem whole_read (h : Waiting c w sl) (hr : r ≠ []) (hw : w ++ r = resp.fullsync ++ bulkString P)
    (hP : P.length + 2 < 2 ^ 31) (hload : LoadReturns io P sl) :
    ∃ sl', repliReadHandler io env c fake 2 sl r = .ok (some sl') ∧ Synced c P sl' := by
  have ha := h.receive r
  rw [hw] at ha
  rw [whole_loop h hr hw hP]
  exact receiving_loop (answered_ok ha) hP hload

/-! ## Reads that are few enough -/

theorem split_answer {X : Bytes} (h : v ++ X = syncStream P) (hlen : resp.fullsync.length ≤ v.length) :
    ∃ rest, v = resp.fullsync ++ rest ∧ rest ++ X = bulkString P := by
  obtain ⟨rest, rfl⟩ : resp.fullsync <+: v :=
    List.prefix_of_prefix_length_le ⟨_, rfl⟩ (⟨X, h⟩ : v <+: syncStream P) hlen
  rw [List.append_assoc, syncStream] at h
  exact ⟨rest, rfl, List.append_cancel_left h⟩

theorem long_dropLast (r r₂ r₃ : Bytes) (more : List Bytes) :
    (r :: r₂ :: r₃ :: more).dropLast.dropLast = r :: (r₂ :: r₃ :: more).dropLast.dropLast := rfl

/-- A read that leaves the answer incomplete needs the byte behind it. -/
theorem readFits_waiting (h : Waiting c w sl) (hlt : (w ++ r).length < resp.fullsync.length) :
    ReadFits c sl r ↔ (sl.readBuf c).Fits r.length ∧
      (sdscatlen (sl.readBuf c) r).len < (sdscatlen (sl.readBuf c) r).alloc := by
  have hlen := (h.receive r).holds.len
  rw [readBuf_receive] at hlen
  exact ⟨fun ⟨hfit, hin⟩ => ⟨hfit, hin h.state (by omega)⟩, fun ⟨hfit, hin⟩ => ⟨hfit, fun _ _ => hin⟩⟩

theorem readFits_answer (h : Waiting c w sl) (hle : resp.fullsync.length ≤ (w ++ r).length) :
    ReadFits c sl r ↔ (sl.readBuf c).Fits r.length := by
  have hlen := (h.receive r).holds.len
  rw [readBuf_receive] at hlen
  exact ⟨fun h => h.fits, fun hfit => ⟨hfit, fun _ hlt => by omega⟩⟩

theorem readBuf_answered (sl : Slave D) (r : Bytes) : (answered c (receive c sl r)).readBuf c =
    sdsTail (sdscatlen (sl.readBuf c) r) resp.fullsync.length := by
  rw [← readBuf_receive]
  simp [answered, Slave.readBuf]

theorem readFits_file (sl : Slave D) (r r' : Bytes) : ReadFits c (answered c (receive c sl r)) r' ↔
    (sdsTail (sdscatlen (sl.readBuf c) r) resp.fullsync.length).Fits r'.length := by
  rw [← readBuf_answered]
  exact ⟨fun h => h.fits, fun hfit => ⟨hfit, fun hs => by cases hs⟩⟩

/-- What follows from the room of the first read. -/
theorem roomForSync_cons (h : Waiting c w sl) : RoomForSync (sl.readBuf c) (r :: reads) ↔
    (sl.readBuf c).Fits r.length ∧
      if (w ++ r).length < resp.fullsync.length then
        (sdscatlen (sl.readBuf c) r).len < (sdscatlen (sl.readBuf c) r).alloc ∧
          RoomForSync ((receive c sl r).readBuf c) reads
      else ∀ r' ∈ reads.head?, ReadFits c (answered c (receive c sl r)) r' := by
  have hlen := (h.receive r).holds.len
  rw [readBuf_receive] at hlen
  simp only [RoomForSync, hlen, readBuf_receive, readFits_file]

/-- The first of reads that are few enough: part of the answer, all that there is, or all but the
last one. -/
inductive FirstRead (P w r : Bytes) : List Bytes → Prop where
  | short {more : List Bytes} (hshort : (w ++ r).length < resp.fullsync.length)
      (hpre : w ++ r <+: resp.fullsync)
      (hcond : (w ++ r ++ more.dropLast.dropLast.flatten).length < resp.fullsync.length) :
      FirstRead P w r more
  | whole (hline : resp.fullsync.length ≤ (w ++ r).length)
      (hw : w ++ r = resp.fullsync ++ bulkString P) (hP : P.length + 2 < 2 ^ 31) : FirstRead P w r []
  | file {begun last : Bytes} (hline : resp.fullsync.length ≤ (w ++ r).length)
      (hw : w ++ r = resp.fullsync ++ begun) (hbulk : begun ++ last = bulkString P)
      (hne : last ≠ []) (hlt : begun.length < (bulkString P).length) (hP : P.length + 2 < 2 ^ 31) :
      FirstRead P w r [last]

theorem firstRead (hlt : w.length < resp.fullsync.length)
    (hflat : w ++ r ++ reads.flatten = syncStream P)
    (hr : ∀ x ∈ r :: reads, x ≠ [] ∧ x.length ≤ 1024)
    (hcond : (w ++ (r :: reads).dropLast.dropLast.flatten).length < resp.fullsync.length) :
    FirstRead P w r reads := by
  have h11 : resp.fullsync.length = 11 := by decide
  have hmax := (hr r List.mem_cons_self).2
  rcases Nat.lt_or_ge (w ++ r).length resp.fullsync.length with hshort | hline
  · refine .short hshort (List.prefix_of_prefix_length_le ⟨_, hflat⟩ ⟨_, rfl⟩ (by omega)) ?_
    match reads with
    | [] => simpa using hshort
    | [_] => simpa using hshort
    | _ :: _ :: _ => simpa using hcond
  · obtain ⟨rest, hw, hbulk⟩ := split_answer hflat hline
    have hwlen := congrArg List.length hw
    rw [List.length_append, List.length_append] at hwlen
    match reads with
    | [] =>
      rw [List.flatten_nil, List.append_nil] at hbulk
      subst hbulk
      rw [length_bulkString] at hwlen
      exact .whole hline hw (by omega)
    | [v] =>
      obtain ⟨hne, hvmax⟩ := hr v (by simp)
      rw [List.flatten_singleton] at hbulk
      have hpos := List.length_pos_of_ne_nil hne
      have hlen := congrArg List.length hbulk
      rw [List.length_append] at hlen
      have hP := length_bulkString P
      exact .file hline hw hbulk hne (by omega) (by omega)
    | v :: v' :: more =>
      have : (w ++ r).length < resp.fullsync.length := by
        refine Nat.lt_of_le_of_lt ?_ hcond
        rw [long_dropLast, List.flatten_cons, ← List.append_assoc]
        exact (List.prefix_append _ _).length_le
      omega

/-- There is no such list of no reads. -/
theorem reads_ne_nil (hlt : w.length < resp.fullsync.length) (hflat : w ++ [] = syncStream P) :
    False := by
  rw [List.append_nil] at hflat
  rw [hflat, syncStream, List.length_append] at hlt
  omega

theorem synced_reads (h : Waiting c w sl) (hlt : w.length < resp.fullsync.length)
    (hflat : w ++ reads.flatten = syncStream P) (hr : ∀ r ∈ reads, r ≠ [] ∧ r.length ≤ 1024)
    (hcond : (w ++ reads.dropLast.dropLast.flatten).length < resp.fullsync.length)
    (hroom : RoomForSync (sl.readBuf c) reads) (hload : LoadReturns io P sl) :
    ∃ sl', Reads io env c fake sl reads sl' ∧ Synced c P sl' := by
  induction reads generalizing w sl with
  | nil => exact (reads_ne_nil hlt hflat).elim
  | cons r reads ih =>
    have hne := (hr r List.mem_cons_self).1
    have hrest := fun x hx => hr x (List.mem_cons_of_mem _ hx)
    rw [List.flatten_cons, ← List.append_assoc] at hflat
    obtain ⟨hfit, hnext⟩ := (roomForSync_cons h).mp hroom
    cases firstRead hlt hflat hr hcond with
    | short hshort hpre hcond' =>
      rw [if_pos hshort] at hnext
      obtain ⟨sl', hreads, hs⟩ := ih (h.receive r) hshort hflat hrest hcond' hnext.2 hload
      exact ⟨sl', .read _ _ _ _ _ 1 ((readFits_waiting h hshort).mpr ⟨hfit, hnext.1⟩)
        (waiting_read h hne hpre hshort) hreads, hs⟩
    | whole hline hw hP =>
      obtain ⟨sl', hread, hs⟩ := whole_read h hne hw hP hload
      exact ⟨sl', .read _ _ _ _ _ 2 ((readFits_answer h hline).mpr hfit) hread (.nil _), hs⟩
    | @file rest v hline hw hbulk hne₂ hltv hP =>
      rw [if_neg (by omega)] at hnext
      have hfirst : repliReadHandler io env c fake 1 sl r =
          .ok (some (answered c (receive c sl r))) :=
        line_read h hne hw ⟨v, hbulk⟩ hltv (by omega)
      have hw₁ := h.receive r
      rw [hw] at hw₁
      obtain ⟨sl', hread, hs⟩ := receiving_read (answered_ok hw₁) hne₂ hbulk hP hload
      exact ⟨sl', .read _ _ _ _ _ 1 ((readFits_answer h hline).mpr hfit) hfirst
        (.read _ _ _ _ _ 1 (hnext v rfl) hread (.nil _)), hs⟩

/-- Reads that are few enough, and from which the handler has returned, had room, and the load
has returned. -/
theorem reads_room (h : Waiting c w sl) (hlt : w.length < resp.fullsync.length)
    (hflat : w ++ reads.flatten = syncStream P) (hr : ∀ r ∈ reads, r ≠ [] ∧ r.length ≤ 1024)
    (hcond : (w ++ reads.dropLast.dropLast.flatten).length < resp.fullsync.length)
    (hrun : Reads io env c fake sl reads sl') :
    RoomForSync (sl.readBuf c) reads ∧ LoadReturns io P sl := by
  induction reads generalizing w sl with
  | nil => exact (reads_ne_nil hlt hflat).elim
  | cons r reads ih =>
    have hne := (hr r List.mem_cons_self).1
    have hrest := fun x hx => hr x (List.mem_cons_of_mem _ hx)
    rw [List.flatten_cons, ← List.append_assoc] at hflat
    rw [roomForSync_cons h]
    cases hrun with
    | read _ sl₁ _ _ _ k hread₁ hread hrun =>
      cases firstRead hlt hflat hr hcond with
      | short hshort hpre hcond' =>
        obtain ⟨hfit, hin⟩ := (readFits_waiting h hshort).mp hread₁
        have := handler_unique hread (waiting_read h hne hpre hshort)
        subst this
        obtain ⟨hroom, hload⟩ := ih (h.receive r) hshort hflat hrest hcond' hrun
        rw [if_pos hshort]
        exact ⟨⟨hfit, hin, hroom⟩, hload⟩
      | whole hline hw hP =>
        have hfit := (readFits_answer h hline).mp hread₁
        have hw₁ := h.receive r
        rw [hw] at hw₁
        rw [if_neg (by omega)]
        refine ⟨⟨hfit, fun r' hr' => by cases hr'⟩, ?_⟩
        cases k with
        | zero =>
          rw [repliReadHandler, if_neg hne] at hread
          cases hread
        | succ k =>
          rw [whole_loop h hne hw hP] at hread
          have hload : LoadReturns io P (answered c (receive c sl r)) :=
            receiving_loads (answered_ok hw₁) hP hread
          exact hload
      | @file rest v hline hw hbulk hne₂ hltv hP =>
        have hfit := (readFits_answer h hline).mp hread₁
        have hw₁ := h.receive r
        rw [hw] at hw₁
        rw [if_neg (by omega)]
        have := handler_unique hread (line_read h hne hw ⟨v, hbulk⟩ hltv (by omega))
        subst this
        cases hrun with
        | read _ sl₂ _ _ _ k₂ hread₂ hlast _ =>
          have ha := (answered_ok hw₁).receive v
          rw [hbulk] at ha
          rw [repliReadHandler, if_neg hne₂] at hlast
          have hload : LoadReturns io P (receive c (answered c (receive c sl r)) v) :=
            receiving_loads ha hP hlast
          exact ⟨⟨hfit, fun r' hr' => by cases hr'; exact hread₂⟩, hload⟩

end Fedis.Proof.Repli

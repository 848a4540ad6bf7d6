import Fedis.Proof.Delimit
import Fedis.Proof.Pair.CatchUp

/-!
# The rounds of the handshake

A slave asks three times, and each time waits for the answer: for a sign of life, to be known as
a slave, and for what it has missed. `Hosting.round` is the master's part of a round,
`Attached.asks` and `Attached.answered` are the slave's.
-/

namespace Fedis.Proof.Pair

open Framework Resp Server

inductive Round where
  | ping
  | replconf
  | sync
deriving DecidableEq

namespace Round

/-- The state in which the slave asks. -/
def state : Round → ReplState
  | ping => .slaveConnecting
  | replconf => .slaveSendReplconf
  | sync => .slaveSendSync

def argv (port : Int) (offset : Nat) : Round → List Bytes
  | ping => [bytes "PING"]
  | replconf => [bytes "REPLCONF", bytes "listen-port", decimalInt port]
  | sync => [bytes "SYNC", decimalInt offset]

/-- The answer, where `missed` is what the backlog has behind the offset. -/
def answer (missed : Bytes) : Round → Bytes
  | ping => resp.pong
  | replconf => resp.ok
  | sync => resp.appendsync ++ missed

end Round

variable {env : Env} {s s' : RedisServer} {x c : ClientId} {r : Round} {port : Int} {offset : Nat}
  {state : ReplState}

theorem round_request (hp : inLong port) (ho : offset < 2 ^ 31) : Request (r.argv port offset) := by
  have hoffset : inLong (offset : Int) := ⟨by rw [LONG_MIN]; omega, by rw [LONG_MAX]; omega⟩
  have hnumber : ∀ {n : Int}, inLong n → (∀ b ∈ decimalInt n, b ≠ 0) ∧
      (decimalInt n).length < 2 ^ 31 := fun hn =>
    ⟨Value.decimalInt_ne_zero _, (Value.length_decimalInt hn).trans_lt (by decide)⟩
  have hword : ∀ w ∈ [bytes "PING", bytes "REPLCONF", bytes "listen-port", bytes "SYNC"],
      (∀ b ∈ w, b ≠ 0) ∧ w.length < 2 ^ 31 := by decide +kernel
  have hall : ∀ arg ∈ r.argv port offset, (∀ b ∈ arg, b ≠ 0) ∧ arg.length < 2 ^ 31 := by
    cases r with
    | ping => simpa [Round.argv] using hword _ (by simp)
    | replconf => simpa [Round.argv] using ⟨hword _ (by simp), hword _ (by simp), hnumber hp⟩
    | sync => simpa [Round.argv] using ⟨hword _ (by simp), hnumber hoffset⟩
  refine ⟨by cases r <;> simp [Round.argv], by cases r <;> simp [Round.argv], ?_, ?_⟩
  · exact fun arg ha => (hall arg ha).1
  · exact fun arg ha => (hall arg ha).2

/-! ## The master -/

theorem Hosting.ping (hs : Hosting x s) (hr : Request [bytes "PING"])
    (h : readFromClient env s x (respEncodeArrayString [bytes "PING"]) = .ok s') :
    Hosting x s' ∧ (s'.client x).flags = (s.client x).flags ∧
      (s'.client x).writeBuf = sdscat (s.client x).writeBuf resp.pong ∧ s'.db = s.db ∧
      s'.backlog = s.backlog := by
  refine hs.handle ⟨false, false, bytes "PING", .ping, 1⟩ id (fun _ => .masterWaitPing)
    (fun w => sdscat w resp.pong) hr (by decide) (beq_self_eq_true _) rfl rfl (fun u v _ hv => ?_)
    (hs.multi x) (by decide) h
  cases hv
  refine ⟨⟨rfl, rfl, rfl, rfl, rfl⟩, rfl, rfl, funext fun z => ?_⟩
  simp only [addWrite, modifyClient_client]
  split <;> rfl

theorem Hosting.replconf (hs : Hosting x s)
    (hr : Request [bytes "REPLCONF", bytes "listen-port", decimalInt port])
    (h : readFromClient env s x (respEncodeArrayString
      [bytes "REPLCONF", bytes "listen-port", decimalInt port]) = .ok s') :
    Hosting x s' ∧ (s'.client x).flags = .REDIS_CLIENT_SLAVE ∧
      (s'.client x).writeBuf = sdscat (s.client x).writeBuf resp.ok ∧ s'.db = s.db ∧
      s'.backlog = s.backlog := by
  refine hs.handle ⟨false, false, bytes "REPLCONF", .replconf, 3⟩ (fun _ => .REDIS_CLIENT_SLAVE) id
    (fun w => sdscat w resp.ok) hr (by decide) (beq_self_eq_true _) rfl rfl (fun u v _ hv => ?_)
    rfl hs.replState h
  cases hv
  refine ⟨⟨rfl, rfl, rfl, rfl, rfl⟩, rfl, rfl, funext fun z => ?_⟩
  simp only [addWrite, modifyClient_client]
  split <;> rfl

theorem Hosting.sync (hs : Hosting x s) (ho : offset < 2 ^ 31)
    (hr : Request [bytes "SYNC", decimalInt offset]) (ha : s.backlog.accepts offset = true)
    (h : readFromClient env s x (respEncodeArrayString [bytes "SYNC", decimalInt offset]) = .ok s') :
    Hosting x s' ∧ (s'.client x).flags = (s.client x).flags ∧
      (s'.client x).writeBuf = sdscatlen (sdscat (s.client x).writeBuf resp.appendsync)
        (s.backlog.read offset) ∧ s'.db = s.db ∧ s'.backlog = s.backlog := by
  have hatoi : atoi (cstr (decimalInt offset)) = offset := by
    rw [cstr_eq_self (Value.decimalInt_ne_zero _)]
    exact atoi_decimalInt (by omega) (by omega)
  refine hs.handle ⟨false, false, bytes "SYNC", .sync, 2⟩ id (fun _ => .masterSendAppendsync)
    (fun w => sdscatlen (sdscat w resp.appendsync) (s.backlog.read offset)) hr (by decide)
    (beq_self_eq_true _) rfl rfl (fun u v hu hv => ?_) (hs.multi x) (by decide) h
  obtain ⟨arg, harg, -, rfl⟩ := commandSyncProc_ok.mp hv
  cases harg
  rw [hatoi]
  have hafter : afterSync u x offset = addWriteBuf (addWrite (u.modifyClient x fun client =>
      { client with replState := .masterSendAppendsync }) x resp.appendsync) x
      (s.backlog.read offset) := by
    rw [afterSync, hu, if_pos ha]
    rfl
  rw [hafter]
  refine ⟨⟨rfl, rfl, rfl, rfl, rfl⟩, rfl, rfl, funext fun z => ?_⟩
  simp only [addWriteBuf, addWrite, modifyClient_client]
  split <;> rfl

/-- A round, on the master. -/
theorem Hosting.round (hs : Hosting x s) (hp : inLong port) (ho : offset < 2 ^ 31)
    (hsync : r = .sync → s.backlog.accepts offset = true)
    (h : readFromClient env s x (respEncodeArrayString (r.argv port offset)) = .ok s') :
    Hosting x s' ∧
      (s'.client x).flags = (if r = .replconf then .REDIS_CLIENT_SLAVE else (s.client x).flags) ∧
      (s'.client x).writeBuf.content =
        (s.client x).writeBuf.content ++ r.answer (s.backlog.read offset) ∧
      s'.db = s.db ∧ s'.backlog = s.backlog := by
  have hr := round_request (r := r) hp ho
  cases r with
  | ping =>
    obtain ⟨hs', hflags, hbuf, hdb⟩ := hs.ping hr h
    exact ⟨hs', hflags, by rw [hbuf]; exact content_sdscat _ _, hdb⟩
  | replconf =>
    obtain ⟨hs', hflags, hbuf, hdb⟩ := hs.replconf hr h
    exact ⟨hs', hflags, by rw [hbuf]; exact content_sdscat _ _, hdb⟩
  | sync =>
    obtain ⟨hs', hflags, hbuf, hdb⟩ := hs.sync ho hr (hsync rfl) h
    refine ⟨hs', hflags, ?_, hdb⟩
    rw [hbuf, content_sdscatlen, content_sdscat, List.append_assoc]
    rfl

/-! ## The slave asks -/

section Slave

variable {D : Type} {io : RdbIO D} {fake : ClientId} {sl sl' sl₁ : Slave D} {u : Unit}
  {turns n : Nat} {registered : List Bool}

theorem messageToMaster_round (port : Int) (hstate : s.replState = r.state)
    (hoffset : s.offset = offset) (ho : offset < 2 ^ 31) :
    messageToMaster port s = some (respEncodeArrayString (r.argv port offset)) := by
  unfold messageToMaster
  rw [hstate]
  cases r with
  | ping =>
    have hping : resp.ping = respEncodeArrayString [bytes "PING"] := by decide
    exact congrArg some hping
  | replconf => rfl
  | sync =>
    have hlen : (decimalInt (offset : Int)).length ≤ 15 := by
      have h := Value.length_decimal 9 (n := offset) (by omega)
      rw [decimalInt, if_neg (by omega), Int.natAbs_natCast]
      omega
    dsimp only [Round.state]
    rw [hoffset, List.take_of_length_le hlen]
    rfl

/-! ## The slave is answered -/

theorem linkStep_readable {nread : Bytes} (hm : sl.server.master = some c)
    (h : linkStep io fake port sl (.readable env nread turns registered) = some (u, sl')) :
    nread ≠ [] ∧
      readMasterLoop io env c fake turns registered (receive c sl nread) = .ok (some sl') := by
  unfold linkStep linkEvent at h
  rw [hm] at h
  dsimp only at h
  split at h
  · rename_i he
    split at he
    · cases h
      unfold readMaster at he
      split at he
      · cases he
      · rename_i hn
        refine ⟨hn, ?_⟩
        cases ho : readMasterLoop io env c fake turns registered (receive c sl nread) with
        | error e =>
          rw [ho] at he
          cases he
        | ok o =>
          rw [ho] at he
          cases o with
          | none => cases he
          | some sl₁ =>
            dsimp only [bind, Except.bind] at he
            split at he
            · cases he
              rfl
            · cases he
    · cases he
  · cases h

/-- The loop goes on behind a turn as long as there is a complete value. -/
theorem readMasterLoop_turn (hlen : (sl.readBuf c).len ≠ 0)
    (h : readMasterLoop io env c fake n registered sl = .ok (some sl')) :
    ∃ sl₁ v, repliTurn io env c fake sl = .ok sl₁ ∧
      respParse (sl₁.readBuf c).buf (sl₁.readBuf c).len = .ok v ∧
      ((v = none ∧ sl' = sl₁) ∨ v.isSome = true ∧ ∃ n' registered',
        readMasterLoop io env c fake n' registered' sl₁ = .ok (some sl')) := by
  cases n with
  | zero => cases h
  | succ n =>
    rw [readMasterLoop, if_neg hlen] at h
    cases hturn : repliTurn io env c fake sl with
    | error e =>
      rw [hturn] at h
      cases h
    | ok sl₁ =>
      rw [hturn] at h
      dsimp only [Except.mapError, bind, Except.bind] at h
      split at h
      · cases h
      · cases hv : respParse (sl₁.readBuf c).buf (sl₁.readBuf c).len with
        | error e =>
          rw [hv] at h
          cases h
        | ok v =>
          rw [hv] at h
          cases v with
          | none =>
            cases h
            exact ⟨_, _, rfl, hv, .inl ⟨rfl, rfl⟩⟩
          | some _ => exact ⟨_, _, rfl, hv, .inr ⟨rfl, _, _, h⟩⟩

/-- A turn that empties the buffer is the last one. -/
theorem readMasterLoop_last (hlen : (sl.readBuf c).len ≠ 0)
    (hturn : ∀ sl₁, repliTurn io env c fake sl = .ok sl₁ → (sl₁.readBuf c).len = 0)
    (h : readMasterLoop io env c fake n registered sl = .ok (some sl')) :
    repliTurn io env c fake sl = .ok sl' := by
  obtain ⟨sl₁, v, ht, hv, ⟨-, rfl⟩ | ⟨hsome, -⟩⟩ := readMasterLoop_turn hlen h
  · exact ht
  · rw [hturn sl₁ ht, Repli.respParse_zero] at hv
    cases hv
    cases hsome

/-- The slave with what has been read, less the line in front of it. -/
def tookLine (c : ClientId) (line nread : Bytes) (next : ReplState) (writes : Bool) (sl : Slave D) :
    Slave D :=
  { receive c sl nread with
    server := { sl.server.modifyClient c (fun client =>
      { client with readBuf := sdsTail (sdscatlen (sl.readBuf c) nread) line.length }) with
        replState := next }
    repliWrites := sl.repliWrites || writes }

theorem readBuf_tookLine {line nread : Bytes} {next : ReplState} {writes : Bool} :
    (tookLine c line nread next writes sl).readBuf c =
      sdsTail (sdscatlen (sl.readBuf c) nread) line.length := by
  simp only [tookLine, Slave.readBuf, modifyClient_self]

theorem holds_received (hl : (sl.readBuf c).len = 0) (nread : Bytes) :
    Holds ((receive c sl nread).readBuf c) nread := by
  rw [Repli.readBuf_receive]
  exact holds_sdscatlen (holds_empty hl) nread

theorem holds_tookLine {line rest : Bytes} {next : ReplState} {writes : Bool}
    (hl : (sl.readBuf c).len = 0) :
    Holds ((tookLine c line (line ++ rest) next writes sl).readBuf c) rest := by
  have h := holds_sdsTail (holds_sdscatlen (holds_empty hl) (line ++ rest)) line.length
  rw [List.nil_append, List.drop_left] at h
  rw [readBuf_tookLine]
  exact h

theorem takeLine_front {line rest : Bytes} {next : ReplState} {writes : Bool}
    (hl : (sl.readBuf c).len = 0) :
    takeLine c line next writes (receive c sl (line ++ rest)) =
      .ok (tookLine c line (line ++ rest) next writes sl) := by
  have hh := holds_received hl (line ++ rest)
  have hprefix : line <+: ((receive c sl (line ++ rest)).readBuf c).buf :=
    (List.prefix_append _ _).trans hh.buf
  have hlen : line.length ≤ ((receive c sl (line ++ rest)).readBuf c).len := by
    rw [hh.len, List.length_append]
    omega
  have hrange : rangeReadBuf c line.length
      { (receive c sl (line ++ rest)).server with replState := next } =
        .ok (tookLine c line (line ++ rest) next writes sl).server := by
    refine (Repli.rangeReadBuf_ok _).mpr ⟨hlen, ?_⟩
    simp only [tookLine, receive, RedisServer.modifyClient, Slave.readBuf]
    congr 1
    funext z
    split <;> rfl
  rw [takeLine, if_pos hprefix, hrange, ok_bind]
  rfl

theorem takeLine_whole {line : Bytes} {next : ReplState} {writes : Bool} (hl : (sl.readBuf c).len = 0) :
    takeLine c line next writes (receive c sl line) =
        .ok (tookLine c line line next writes sl) ∧
      ((tookLine c line line next writes sl).readBuf c).len = 0 := by
  have htake : takeLine c line next writes (receive c sl (line ++ [])) =
      .ok (tookLine c line (line ++ []) next writes sl) := takeLine_front hl
  have hholds : Holds ((tookLine c line (line ++ []) next writes sl).readBuf c) [] := holds_tookLine hl
  rw [List.append_nil] at htake hholds
  exact ⟨htake, hholds.len⟩

/-- Taking a line off leads to the next state. -/
theorem Attached.took (hs : Attached c state sl.server) (line : Bytes) (next : ReplState)
    (writes : Bool) :
    Attached c next (tookLine c line line next writes sl).server ∧
      ((tookLine c line line next writes sl).server.client c).writeBuf =
        (sl.server.client c).writeBuf := by
  have hself : (tookLine c line line next writes sl).server.client c = { sl.server.client c with
      readBuf := sdsTail (sdscatlen (sl.readBuf c) line) line.length } := if_pos rfl
  have hempty : ((tookLine c line line next writes sl).readBuf c).len = 0 :=
    (takeLine_whole (hs.idle c)).2
  refine ⟨?_, by rw [hself]⟩
  have hkept : Kept { sl.server with replState := next } (tookLine c line line next writes sl).server :=
    ⟨rfl, rfl, rfl, rfl, rfl⟩
  have hnext : Attached c next { sl.server with replState := next } := { hs with replState := rfl }
  refine hnext.congr hkept hself hs.zeroed hs.nul (fun z => ?_) hs.undated hs.unwatched
  by_cases hz : z = c
  · subst hz
    exact ⟨by rw [hself]; exact hs.multi z, hempty⟩
  · have hother : (tookLine c line line next writes sl).server.client z = sl.server.client z := if_neg hz
    rw [hother]
    exact ⟨hs.multi z, hs.idle z⟩

/-- The answer is one line, and there is nothing behind it. -/
theorem line_read {line : Bytes} {next : ReplState} {writes : Bool} (hs : Attached c state sl.server)
    (hne : line ≠ []) (hturn : repliTurn io env c fake (receive c sl line) =
      takeLine c line next writes (receive c sl line))
    (h : readMasterLoop io env c fake turns registered (receive c sl line) = .ok (some sl')) :
    sl' = tookLine c line line next writes sl := by
  obtain ⟨htake, hempty⟩ : takeLine c line next writes (receive c sl line) =
      .ok (tookLine c line line next writes sl) ∧
        ((tookLine c line line next writes sl).readBuf c).len = 0 := takeLine_whole (hs.idle c)
  rw [htake] at hturn
  have hlen : ((receive c sl line).readBuf c).len ≠ 0 := by
    rw [(holds_received (hs.idle c) _).len]
    exact (List.length_pos_of_ne_nil hne).ne'
  have hlast := readMasterLoop_last hlen (fun sl₁ h₁ => ?_) h
  · rw [hturn] at hlast
    exact (Except.ok.inj hlast).symm
  · rw [hturn] at h₁
    cases h₁
    exact hempty

theorem pong_read (hs : Attached c .slaveConnecting sl.server)
    (h : readMasterLoop io env c fake turns registered (receive c sl resp.pong) = .ok (some sl')) :
    sl' = tookLine c resp.pong resp.pong .slaveSendReplconf true sl := by
  refine line_read hs (by decide) ?_ h
  rw [repliTurn, show (receive c sl resp.pong).server.replState = .slaveConnecting from hs.replState]

theorem ok_read (hs : Attached c .slaveSendReplconf sl.server)
    (h : readMasterLoop io env c fake turns registered (receive c sl resp.ok) = .ok (some sl')) :
    sl' = tookLine c resp.ok resp.ok .slaveSendSync true sl := by
  refine line_read hs (by decide) ?_ h
  rw [repliTurn, show (receive c sl resp.ok).server.replState = .slaveSendReplconf from hs.replState]

theorem takeLine_skip {line : Bytes} {next : ReplState} {writes : Bool}
    (h : ¬ line <+: (sl.readBuf c).buf) : takeLine c line next writes sl = .ok sl := by
  rw [takeLine, if_neg h]

/-- The turn that takes the answer to SYNC off, in front of requests. -/
theorem append_turn {w : Bytes} (hs : Attached c .slaveSendSync sl.server) (hw : w.head? = some 42) :
    repliTurn io env c fake (receive c sl (resp.appendsync ++ w)) =
      .ok (tookLine c resp.appendsync (resp.appendsync ++ w) .slaveReceiveAppendsync false sl) := by
  obtain ⟨b, w, rfl⟩ : ∃ b w', w = b :: w' := List.exists_cons_of_ne_nil fun e => by
    rw [e] at hw
    cases hw
  cases hw
  have hh : Holds ((receive c sl (resp.appendsync ++ 42 :: w)).readBuf c) (resp.appendsync ++ 42 :: w) :=
    holds_received (hs.idle c) _
  have htail : Holds ((tookLine c resp.appendsync (resp.appendsync ++ 42 :: w)
      .slaveReceiveAppendsync false sl).readBuf c) (42 :: w) := holds_tookLine (hs.idle c)
  have hfull : ¬ resp.fullsync <+: ((receive c sl (resp.appendsync ++ 42 :: w)).readBuf c).buf := by
    have hlen : 1 < resp.appendsync.length ∧ 1 < resp.fullsync.length := by decide
    refine Repli.not_prefix hlen.2 ?_
    rw [hh.getD (by rw [List.length_append]; omega), getD_append, if_pos hlen.1]
    decide
  have hno : ¬ resp.nosync <+: ((tookLine c resp.appendsync (resp.appendsync ++ 42 :: w)
      .slaveReceiveAppendsync false sl).readBuf c).buf := by
    refine Repli.not_prefix (j := 0) (by decide) ?_
    rw [htail.getD (Nat.zero_lt_succ _)]
    exact (by decide : (42 : UInt8) ≠ resp.nosync.getD 0 0)
  rw [repliTurn, show (receive c sl (resp.appendsync ++ 42 :: w)).server.replState =
    .slaveSendSync from hs.replState]
  dsimp only
  rw [takeLine_skip hfull, ok_bind, takeLine_front (hs.idle c), ok_bind, takeLine_skip hno]

theorem log_head {log : List (List Bytes)} (h : log ≠ []) :
    (log.flatMap respEncodeArrayString).head? = some 42 := by
  obtain ⟨q, log, rfl⟩ := List.exists_cons_of_ne_nil h
  obtain ⟨w, hw⟩ := encode_head q
  rw [List.flatMap_cons, hw]
  rfl

/-- The answer to SYNC is taken off, and what was missed is executed. -/
theorem append_read {log : List (List Bytes)} (hne : c ≠ fake) (hlog : ∀ q ∈ log, Passed q)
    (hnil : log ≠ []) (hs : Attached c .slaveSendSync sl.server)
    (h : readMasterLoop io env c fake turns registered
      (receive c sl (resp.appendsync ++ log.flatMap respEncodeArrayString)) = .ok (some sl')) :
    Attached c .slaveConnected sl'.server ∧
      (sl'.server.client c).writeBuf = (sl.server.client c).writeBuf ∧
      kvs sl'.server.db = applied log (kvs sl.server.db) ∧ sl'.repliReads = sl.repliReads ∧
      sl'.repliWrites = sl.repliWrites := by
  set w := log.flatMap respEncodeArrayString with hw
  have hhead : w.head? = some 42 := log_head hnil
  set sl₁ := tookLine c resp.appendsync (resp.appendsync ++ w) .slaveReceiveAppendsync false sl with hsl₁
  have htail : Holds (sl₁.readBuf c) w := holds_tookLine (hs.idle c)
  have hpos : (sl₁.readBuf c).len ≠ 0 := fun e => by
    rw [htail.len] at e
    rw [List.length_eq_zero_iff.mp e] at hhead
    cases hhead
  have hlen : ((receive c sl (resp.appendsync ++ w)).readBuf c).len ≠ 0 := by
    rw [(holds_received (hs.idle c) _).len, List.length_append]
    exact Nat.ne_of_gt (Nat.add_pos_left (by decide) _)
  obtain ⟨sl₂, v, hturn, hv, hend⟩ := readMasterLoop_turn hlen h
  obtain rfl : sl₁ = sl₂ := Except.ok.inj ((append_turn hs hhead).symm.trans hturn)
  -- there is a request behind the answer
  obtain ⟨q, log', hcons⟩ := List.exists_cons_of_ne_nil hnil
  have hq := (hlog q (hcons ▸ List.mem_cons_self)).request
  have hfront : Holds (sl₁.readBuf c) (respEncodeArrayString q ++ log'.flatMap respEncodeArrayString) := by
    rw [← List.flatMap_cons, ← hcons]
    exact htail
  obtain ⟨endptr, hparse, -⟩ := request_front hq hfront
  rw [hparse] at hv
  obtain ⟨e, -⟩ | ⟨-, n', registered', h'⟩ := hend
  · rw [e] at hv
    cases hv
  -- and the next turn executes all of them
  have hserver : sl₁.server = { sl.server.modifyClient c (fun client =>
      { client with readBuf := sl₁.readBuf c }) with replState := .slaveReceiveAppendsync } := by
    rw [readBuf_tookLine]
    rfl
  have happlies : ∀ sl₃, repliTurn io env c fake sl₁ = .ok sl₃ →
      Attached c .slaveConnected sl₃.server ∧
        (sl₃.server.client c).writeBuf = (sl.server.client c).writeBuf ∧
        kvs sl₃.server.db = applied log (kvs sl.server.db) ∧ sl₃.repliReads = sl.repliReads ∧
        sl₃.repliWrites = sl.repliWrites := fun sl₃ h₃ => by
    rw [repliTurn, show sl₁.server.replState = .slaveReceiveAppendsync from rfl] at h₃
    dsimp only at h₃
    obtain ⟨t, ht, h₃⟩ := bind_ok.mp h₃
    cases h₃
    rw [hserver] at ht
    obtain ⟨hst, hbuf, hkvs⟩ := doAppendSync_applies hne hlog hs htail ht
    exact ⟨{ hst with replState := rfl }, hbuf, hkvs, rfl, Bool.or_false _⟩
  exact happlies sl' (readMasterLoop_last hpos (fun sl₃ h₃ => (happlies sl₃ h₃).1.idle c) h')

/-- The reply to the heartbeat takes the handler off. -/
theorem beat_read (hs : Attached c .slaveConnected sl.server)
    (h : readMasterLoop io env c fake turns registered (receive c sl resp.ok) = .ok (some sl')) :
    sl' = { tookLine c resp.ok resp.ok .slaveConnected false sl with repliReads := false } := by
  obtain ⟨htake, hempty⟩ : takeLine c resp.ok .slaveConnected false (receive c sl resp.ok) =
      .ok (tookLine c resp.ok resp.ok .slaveConnected false sl) ∧
        ((tookLine c resp.ok resp.ok .slaveConnected false sl).readBuf c).len = 0 :=
    takeLine_whole (hs.idle c)
  have hh : Holds ((receive c sl resp.ok).readBuf c) resp.ok := holds_received (hs.idle c) _
  have hturn : repliTurn io env c fake (receive c sl resp.ok) =
      .ok { tookLine c resp.ok resp.ok .slaveConnected false sl with repliReads := false } := by
    rw [repliTurn, show (receive c sl resp.ok).server.replState = .slaveConnected from hs.replState]
    dsimp only
    rw [if_pos hh.buf, htake, ok_bind]
    rfl
  have hlen : ((receive c sl resp.ok).readBuf c).len ≠ 0 := by
    rw [hh.len]
    decide
  have hlast := readMasterLoop_last hlen (fun sl₁ h₁ => ?_) h
  · rw [hturn] at hlast
    exact (Except.ok.inj hlast).symm
  · rw [hturn] at h₁
    cases h₁
    exact hempty

end Slave

end Fedis.Proof.Pair

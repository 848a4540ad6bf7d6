import Fedis.Proof.Repli.FullSync
import Fedis.Proof.Robj

/-!
# A file that is taken too early

A slave that looks for the RDB file before all of it has come does not end as it
should, whatever comes after: it has loaded something else, or too early, or it
starts again with fewer bytes to come than the file has (`Lost`). Every turn keeps
that (`lost_turn`), and so do the reads (`lost_reads`). With that, `synced_iff` says
which ways to cut the stream lead to a synchronised slave whose load returns. On a real
disk it returns without loading anything, as long as the file is not flushed
(`load_short`, `fullsync_ok`).
-/

namespace Fedis.Proof.Repli

open Framework Server Resp

variable {D : Type} {io : RdbIO D} {env : Env} {c fake : ClientId} {sl sl' : Slave D}
  {P r v w rest : Bytes} {reads : List Bytes} {n : Nat}

/-- The first file was not the payload, or was loaded before all of it was there. -/
def Spoiled (P : Bytes) (events : List RdbEvent) : Prop :=
  ∃ buf k t, events = .receiveRDBfile buf :: .rdbLoad k :: t ∧ (buf ≠ P ∨ k < payloadEnd P)

/-- With `n` bytes still to come, the slave will not be synchronised: it is connected
without a file, or too few bytes are left for the payload. -/
def Lost (c : ClientId) (P : Bytes) (n : Nat) (sl : Slave D) : Prop :=
  Spoiled P sl.events ∨ sl.events = [] ∧
    (sl.server.replState = .slaveConnected ∨ sl.server.replState = .slaveReceiveAppendsync ∨
      (sl.server.replState = .slaveSendSync ∧
        (P.length < 2 ^ 31 → (sl.readBuf c).len + n < P.length + 17)) ∨
      (sl.server.replState = .slaveReceiveRdb ∧
        (P.length < 2 ^ 31 → (sl.readBuf c).len + n < P.length + 6)))

theorem Lost.not_synced (h : Lost c P n sl) : ¬ Synced c P sl := by
  rintro ⟨-, -, k, hk, hend⟩
  rcases h with ⟨buf, k', t, he, hbad⟩ | ⟨he, -⟩
  · rw [hk] at he
    cases he
    rcases hbad with hne | hlt
    · exact hne rfl
    · omega
  · rw [hk] at he
    cases he

theorem Lost.receive (h : Lost c P (n + r.length) sl) : Lost c P n (receive c sl r) := by
  have hlen := len_receive (c := c) sl r
  rcases h with h | ⟨he, h⟩
  · exact .inl h
  · refine .inr ⟨he, ?_⟩
    rcases h with h | h | ⟨hs, h⟩ | ⟨hs, h⟩
    · exact .inl h
    · exact .inr (.inl h)
    · exact .inr (.inr (.inl ⟨hs, fun hP => by have := h hP; omega⟩))
    · exact .inr (.inr (.inr ⟨hs, fun hP => by have := h hP; omega⟩))

/-! ## Turns -/

theorem takeLine_events {line : Bytes} {next : ReplState} {writes : Bool}
    (h : takeLine c line next writes sl = .ok sl') : sl'.events = sl.events := by
  unfold takeLine at h
  split at h
  · obtain ⟨server, -, h⟩ := bind_ok.mp h
    cases h
    rfl
  · cases h
    rfl

/-- What the turn has done that takes the file: the bytes it has handed on were in the
buffer, behind a number and in front of a line end. -/
theorem receiveRdb_events (h : receiveRdb io c sl = .ok sl') :
    (sl'.events = sl.events ∧ sl'.server.replState = .slaveSendSync ∧ (sl'.readBuf c).len = 0) ∨
      ∃ buf, sl'.events = sl.events ++ [.receiveRDBfile buf, .rdbLoad sl.received] ∧
        sl'.server.replState = .slaveConnected ∧ buf.length < 2 ^ 31 ∧
        buf.length + 6 ≤ (sl.readBuf c).len := by
  unfold receiveRdb at h
  split at h
  · cases h
    exact .inl ⟨rfl, rfl, by simp [Slave.readBuf]⟩
  · rename_i len lenLength hscan
    have hdigit : 1 ≤ lenLength := by
      obtain ⟨⟨x, t⟩, hs, he⟩ := Option.map_eq_some_iff.mp hscan
      have hlt := strtol_rest hs
      cases he
      dsimp only
      omega
    have hcast : 1 + (lenLength : Int) + 2 = (lenLength + 3 : Nat) := by omega
    rw [hcast] at h
    obtain ⟨server, hrange, h⟩ := bind_ok.mp h
    obtain ⟨hle, rfl⟩ := (rangeReadBuf_ok _).mp hrange
    split at h
    · cases h
    · rename_i hfit
      obtain ⟨db, -, h⟩ := bind_ok.mp h
      obtain ⟨k, rfl⟩ : ∃ k : Nat, len = k := ⟨len.toNat, by omega⟩
      have hcast' : (k : Int) + 2 = (k + 2 : Nat) := by omega
      rw [hcast'] at h
      obtain ⟨server', hrange', h⟩ := bind_ok.mp h
      obtain ⟨hle', rfl⟩ := (rangeReadBuf_ok _).mp hrange'
      cases h
      refine .inr ⟨_, rfl, rfl, ?_, ?_⟩
      · rw [length_readAt]
        omega
      · have hbuf : (sl.server.client c).readBuf = sl.readBuf c := rfl
        simp only [slaveUpdateOffset, modifyClient_self, len_sdsTail, hbuf] at hle hle'
        rw [length_readAt]
        omega

theorem turn_events (h : repliTurn io env c fake sl = .ok sl') : ∃ t, sl'.events = sl.events ++ t := by
  unfold repliTurn at h
  split at h
  · exact ⟨[], by rw [takeLine_events h, List.append_nil]⟩
  · exact ⟨[], by rw [takeLine_events h, List.append_nil]⟩
  · obtain ⟨sl₁, h₁, h⟩ := bind_ok.mp h
    obtain ⟨sl₂, h₂, h₃⟩ := bind_ok.mp h
    exact ⟨[], by rw [takeLine_events h₃, takeLine_events h₂, takeLine_events h₁, List.append_nil]⟩
  · obtain ⟨server, -, h⟩ := bind_ok.mp h
    cases h
    exact ⟨[], by rw [List.append_nil]⟩
  · rcases receiveRdb_events h with ⟨he, -, -⟩ | ⟨buf, he, -, -, -⟩
    · exact ⟨[], by rw [he, List.append_nil]⟩
    · exact ⟨_, he⟩
  · split at h
    · obtain ⟨sl₁, h₁, h⟩ := bind_ok.mp h
      have he := takeLine_events h₁
      cases h
      exact ⟨[], by rw [List.append_nil]; exact he⟩
    · cases h
      exact ⟨[], by rw [List.append_nil]⟩
  · cases h
    exact ⟨[], by rw [List.append_nil]⟩

theorem Spoiled.append {events : List RdbEvent} (h : Spoiled P events) (t : List RdbEvent) :
    Spoiled P (events ++ t) := by
  obtain ⟨buf, k, u, rfl, hbad⟩ := h
  exact ⟨buf, k, u ++ t, rfl, hbad⟩

theorem lost_turn (h : Lost c P n sl) (hturn : repliTurn io env c fake sl = .ok sl') : Lost c P n sl' := by
  rcases h with h | ⟨he, h⟩
  · obtain ⟨t, ht⟩ := turn_events hturn
    exact .inl (by rw [ht]; exact h.append t)
  · rcases h with hs | hs | ⟨hs, hn⟩ | ⟨hs, hn⟩
    · rw [repliTurn, hs] at hturn
      dsimp only at hturn
      split at hturn
      · obtain ⟨sl₁, h₁, hturn⟩ := bind_ok.mp hturn
        have he₁ := (takeLine_events h₁).trans he
        cases hturn
        refine .inr ⟨he₁, .inl ?_⟩
        rcases takeLine_ok h₁ with ⟨-, rfl⟩ | ⟨-, hs', -⟩
        · exact hs
        · exact hs'
      · cases hturn
        exact .inr ⟨he, .inl hs⟩
    · rw [repliTurn, hs] at hturn
      obtain ⟨server, -, hturn⟩ := bind_ok.mp hturn
      cases hturn
      exact .inr ⟨he, .inl rfl⟩
    · rw [repliTurn, hs] at hturn
      obtain ⟨sl₁, h₁, hturn⟩ := bind_ok.mp hturn
      obtain ⟨sl₂, h₂, h₃⟩ := bind_ok.mp hturn
      refine .inr ⟨by rw [takeLine_events h₃, takeLine_events h₂, takeLine_events h₁, he], ?_⟩
      rcases takeLine_ok h₃ with ⟨-, rfl⟩ | ⟨-, hs₃, -⟩
      · rcases takeLine_ok h₂ with ⟨-, rfl⟩ | ⟨-, hs₂, -⟩
        · rcases takeLine_ok h₁ with ⟨-, rfl⟩ | ⟨-, hs₁, hlen⟩
          · exact .inr (.inr (.inl ⟨hs, hn⟩))
          · have h11 : resp.fullsync.length = 11 := by decide
            exact .inr (.inr (.inr ⟨hs₁, fun hP => by have := hn hP; omega⟩))
        · exact .inr (.inl hs₂)
      · exact .inl hs₃
    · rw [repliTurn, hs] at hturn
      rcases receiveRdb_events hturn with ⟨he', hs', hlen⟩ | ⟨buf, he', -, hsmall, hle⟩
      · exact .inr ⟨he'.trans he, .inr (.inr (.inl ⟨hs', fun hP => by have := hn hP; omega⟩))⟩
      · -- the buffer does not hold the whole payload
        refine .inl ⟨buf, sl.received, [], by rw [he', he]; rfl, .inl fun e => ?_⟩
        rw [e] at hsmall hle
        have := hn hsmall
        omega

/-! ## Reads -/

theorem lost_loop (h : Lost c P n sl) {k : Nat} (hrun : repliLoop io env c fake k sl = .ok (some sl')) :
    Lost c P n sl' := by
  induction k generalizing sl with
  | zero => cases hrun
  | succ k ih =>
    rw [repliLoop] at hrun
    split at hrun
    · cases hrun
      exact h
    · obtain ⟨sl₁, hturn, hrun⟩ := bind_ok.mp hrun
      obtain ⟨v, -, hrun⟩ := bind_ok.mp hrun
      have h₁ := lost_turn h hturn
      cases v with
      | none =>
        cases hrun
        exact h₁
      | some endptr => exact ih h₁ hrun

theorem lost_reads (h : Lost c P reads.flatten.length sl) (hrun : Reads io env c fake sl reads sl') :
    Lost c P 0 sl' := by
  induction hrun with
  | nil => exact h
  | read sl₁ sl₂ sl₃ r reads k _ hread _ ih =>
    refine ih ?_
    rw [repliReadHandler] at hread
    split at hread
    · cases hread
    · refine lost_loop (Lost.receive ?_) hread
      rwa [List.flatten_cons, List.length_append, Nat.add_comm] at h

/-! ## Too early -/

theorem early_turn (h : Receiving c v sl) (hv : v <+: bulkString P)
    (hlt : v.length < (bulkString P).length) (hne : v ≠ []) (hmax : v.length < 2 ^ 30)
    (hturn : repliTurn io env c fake sl = .ok sl') :
    Lost c P ((bulkString P).length - v.length) sl' := by
  rw [repliTurn, h.state] at hturn
  have hpos := List.length_pos_of_ne_nil hne
  have hl := length_bulkString P
  rcases receiveRdb_events hturn with ⟨he, hs, hlen⟩ | ⟨buf, he, -, -, -⟩
  · refine .inr ⟨he.trans h.events, .inr (.inr (.inl ⟨hs, fun hP => ?_⟩))⟩
    have := Value.length_decimal 9 (n := P.length) (by omega)
    omega
  · rw [h.events, h.received] at he
    refine .inl ⟨buf, _, [], he, .inr ?_⟩
    by_contra hall
    -- all of the payload is there, but not its line end
    rw [payloadEnd] at hall
    have hcons : bulkString P = 36 :: decimal P.length ++ crlf ++ (P ++ crlf) := by simp [bulkString]
    obtain ⟨rest, rfl⟩ : 36 :: decimal P.length ++ crlf <+: v := by
      refine List.prefix_of_prefix_length_le ⟨_, hcons.symm⟩ hv ?_
      rw [length_header]
      omega
    rw [List.length_append, length_header] at hall hlt hmax
    rw [receiving_header h.holds (by omega) _ rfl] at hturn
    obtain ⟨db, -, hturn⟩ := bind_ok.mp hturn
    obtain ⟨server, hrange, -⟩ := bind_ok.mp hturn
    have hle := ((rangeReadBuf_ok _).mp hrange).1
    have hbuf := h.holds.len
    rw [List.length_append, length_header] at hbuf
    rw [readBuf_loadedServer, len_sdsTail] at hle
    omega

/-- The read after the one that completed the answer, and it is not the last. -/
theorem early_read (h : Receiving c rest sl) (hr : r ≠ []) (hv : rest ++ r <+: bulkString P)
    (hlt : (rest ++ r).length < (bulkString P).length) (hmax : (rest ++ r).length < 2 ^ 30) {k : Nat}
    (hread : repliReadHandler io env c fake k sl r = .ok (some sl')) :
    Lost c P ((bulkString P).length - (rest ++ r).length) sl' := by
  have h := h.receive r
  have hne : rest ++ r ≠ [] := by simp [hr]
  have hlen := h.holds.len
  have hpos := List.length_pos_of_ne_nil hne
  rw [repliReadHandler, if_neg hr] at hread
  cases k with
  | zero => cases hread
  | succ k =>
    rw [repliLoop, if_neg (by omega)] at hread
    obtain ⟨sl₁, hturn, hread⟩ := bind_ok.mp hread
    obtain ⟨v, -, hread⟩ := bind_ok.mp hread
    have hlost := early_turn h hv hlt hne hmax hturn
    cases v with
    | none =>
      cases hread
      exact hlost
    | some endptr => exact lost_loop hlost hread

theorem early_reads (h : Waiting c w sl) (hlt : w.length < resp.fullsync.length)
    (hflat : w ++ reads.flatten = syncStream P) (hr : ∀ r ∈ reads, r ≠ [] ∧ r.length ≤ 1024)
    (hcond : resp.fullsync.length ≤ (w ++ reads.dropLast.dropLast.flatten).length)
    (hrun : Reads io env c fake sl reads sl') : ¬ Synced c P sl' := by
  by_cases hP : P.length < 2 ^ 31
  · induction reads generalizing w sl with
    | nil =>
      rw [List.dropLast_nil, List.dropLast_nil, List.flatten_nil, List.append_nil] at hcond
      omega
    | cons r reads ih =>
      obtain ⟨hne, hmax⟩ := hr r List.mem_cons_self
      have hrest := fun x hx => hr x (List.mem_cons_of_mem _ hx)
      rw [List.flatten_cons, ← List.append_assoc] at hflat
      cases hrun with
      | read _ sl₁ _ _ _ k _ hread hrun =>
        match reads, hcond with
        | [], hcond =>
          simp only [List.dropLast_singleton, List.dropLast_nil, List.flatten_nil,
            List.append_nil] at hcond
          omega
        | [_], hcond =>
          simp only [List.dropLast_cons_cons, List.dropLast_singleton, List.flatten_nil,
            List.append_nil] at hcond
          omega
        | r₂ :: r₃ :: more, hcond =>
          rw [long_dropLast, List.flatten_cons, ← List.append_assoc] at hcond
          rcases Nat.lt_or_ge (w ++ r).length resp.fullsync.length with hshort | hline
          · have hpre : w ++ r <+: resp.fullsync :=
              List.prefix_of_prefix_length_le ⟨_, hflat⟩ ⟨_, rfl⟩ (by omega)
            have := handler_unique hread (waiting_read h hne hpre hshort)
            subst this
            exact ih (h.receive r) hshort hflat hrest hcond hrun
          · obtain ⟨rest, hw, hbulk⟩ := split_answer hflat hline
            obtain ⟨hne₂, hmax₂⟩ := hrest r₂ (by simp)
            have hne₃ := (hrest r₃ (by simp)).1
            have hpos₂ := List.length_pos_of_ne_nil hne₂
            have hpos₃ := List.length_pos_of_ne_nil hne₃
            have hlen := congrArg List.length hbulk
            have hwlen := congrArg List.length hw
            simp only [List.flatten_cons, List.length_append] at hlen hwlen
            have hpre : rest ++ r₂ <+: bulkString P := ⟨r₃ ++ more.flatten, by
              rw [← hbulk, List.append_assoc]
              rfl⟩
            have hw₁ := h.receive r
            rw [hw] at hw₁
            have := handler_unique hread
              (line_read h hne hw ((List.prefix_append _ _).trans hpre) (by omega) hP)
            subst this
            cases hrun with
            | read _ sl₂ _ _ _ k₂ _ hread₂ hrun₂ =>
              have hlost := early_read (answered_ok hw₁) hne₂ hpre (by rw [List.length_append]; omega)
                (by rw [List.length_append]; omega) hread₂
              have hleft : (bulkString P).length - (rest ++ r₂).length = (r₃ :: more).flatten.length := by
                rw [List.length_append, List.flatten_cons, List.length_append]
                omega
              rw [hleft] at hlost
              exact (lost_reads hlost hrun₂).not_synced
  · refine (lost_reads (P := P) (.inr ⟨h.events, .inr (.inr (.inl ⟨h.state, ?_⟩))⟩) hrun).not_synced
    exact fun hP' => absurd hP' hP

/-! ## What is asked -/

/-- Whatever becomes of the file: the reads end as they should iff they are few enough and have
room, and the load returns. -/
theorem synced_iff (h : Waiting c [] sl) (hflat : reads.flatten = syncStream P)
    (hr : ∀ r ∈ reads, r ≠ [] ∧ r.length ≤ 1024) :
    (∃ sl', Reads io env c fake sl reads sl' ∧ Synced c P sl') ↔
      reads.dropLast.dropLast.flatten.length < resp.fullsync.length ∧
        RoomForSync (sl.readBuf c) reads ∧ LoadReturns io P sl := by
  have hlt : ([] : Bytes).length < resp.fullsync.length := by decide
  constructor
  · rintro ⟨sl', hrun, hs⟩
    have hcond : reads.dropLast.dropLast.flatten.length < resp.fullsync.length := by
      by_contra hcond
      exact early_reads h hlt hflat hr (Nat.le_of_not_lt hcond) hrun hs
    exact ⟨hcond, reads_room h hlt hflat hr hcond hrun⟩
  · rintro ⟨hcond, hroom, hload⟩
    exact synced_reads h hlt hflat hr hcond hroom hload

/-- The payload of two reads behind the answer is short. -/
theorem payload_short (hflat : reads.flatten = syncStream P) (hr : ∀ r ∈ reads, r.length ≤ 1024)
    (hcond : reads.dropLast.dropLast.flatten.length < resp.fullsync.length) : P.length < 2059 := by
  have h11 : resp.fullsync.length = 11 := by decide
  have hlast : ∀ xs : List Bytes, (∀ r ∈ xs, r.length ≤ 1024) →
      xs.flatten.length ≤ xs.dropLast.flatten.length + 1024 := fun xs hxs => by
    rcases List.eq_nil_or_concat xs with rfl | ⟨ys, y, rfl⟩
    · simp
    · rw [List.concat_eq_append] at hxs ⊢
      rw [List.dropLast_concat, List.flatten_concat, List.length_append]
      exact Nat.add_le_add_left (hxs y (by simp)) _
  have h₁ := hlast reads hr
  have h₂ := hlast reads.dropLast fun r h => hr r (List.dropLast_subset reads h)
  rw [hflat, syncStream, List.length_append, length_bulkString] at h₁
  omega

/-- One turn on an empty file ends the loop where it is, if it does. -/
theorem loop_empty {unset : Nat → Unset} {i : Nat} {l l' : RdbLoader}
    (hl : l.fp = { data := [], pos := 0 }) (h : rdbLoadLoopWith unset 1 i l = some (.ok l')) :
    l'.fp = { data := [], pos := 0 } := by
  rw [rdbLoadLoopWith, hl] at h
  split at h
  · cases h
    rfl
  · split at h
    · cases h
    · cases h

/-- Nothing of a short payload leaves the buffer of its stream, so that nothing is loaded. -/
theorem load_short {sha256 : Sha256} {blksize : Nat} {buf : Nat → UInt8} {dbid : UInt8}
    {unset : Nat → Unset} {sl : Slave Bytes} (hP : P.length < blksize) :
    LoadReturns (fileRdb sha256 blksize buf dbid unset) P sl ↔ (List.range' 0 9).map buf ≠ rdbMagic := by
  have hfile : P.take (P.length / blksize * blksize) = [] := by
    rw [Nat.div_eq_of_lt hP, Nat.zero_mul, List.take_zero]
  have hmagic : freadInto buf { data := [], pos := 0 } 9 =
      ((List.range' 0 9).map buf, { data := [], pos := 0 }) := rfl
  show (∃ db, rdbLoadFile sha256 buf dbid unset (P.take (P.length / blksize * blksize)) sl.server.db =
    .ok db) ↔ _
  rw [hfile, rdbLoadFile, rdbLoadWith, hmagic]
  dsimp only
  by_cases hm : (List.range' 0 9).map buf = rdbMagic
  · refine iff_of_false ?_ fun h => h hm
    rintro ⟨db, hdb⟩
    rw [if_pos hm] at hdb
    split at hdb
    · cases hdb
    · rename_i r hloop
      obtain ⟨l, rfl, hload⟩ := bind_ok.mp hdb
      -- the loop has ended at the end of the file, where there is no checksum
      have hend := loop_empty rfl hloop
      rw [if_pos hm, rdbVerify, hend] at hload
      cases hload
  · rw [if_neg hm]
    dsimp only
    rw [ok_bind, if_neg hm]
    exact iff_of_true ⟨sl.server.db, rfl⟩ hm

/-- **A full synchronisation** ends as it should iff all reads but the last two hold
less than the answer to SYNC, so that the file is there at the turn that takes it, they have room,
and `rdbLoad` does not find the magic in its buffer: nothing of the file has been flushed. -/
theorem fullsync_ok {sha256 : Sha256} {blksize : Nat} {buf : Nat → UInt8} {dbid : UInt8}
    {unset : Nat → Unset} {sl : Slave Bytes} (hblk : 4096 ≤ blksize) (h : Waiting c [] sl)
    (hflat : reads.flatten = syncStream P) (hr : ∀ r ∈ reads, r ≠ [] ∧ r.length ≤ 1024) :
    (∃ sl', Reads (fileRdb sha256 blksize buf dbid unset) env c fake sl reads sl' ∧ Synced c P sl') ↔
      reads.dropLast.dropLast.flatten.length < resp.fullsync.length ∧
        RoomForSync (sl.readBuf c) reads ∧ (List.range' 0 9).map buf ≠ rdbMagic := by
  rw [synced_iff h hflat hr]
  refine and_congr_right fun hcond => and_congr_right fun _ => load_short ?_
  have := payload_short hflat (fun r h => (hr r h).2) hcond
  omega

/-- The slave `connecting` when it has read the answers to PING and REPLCONF, with a
new history and a disk. -/
def handshaken : Slave Bytes where
  server := { connecting.server with replState := .slaveSendSync }.modifyClient 1 fun client =>
    { client with
      readBuf := sdsTail (sdscatlen (sdsTail (sdscatlen sdsempty resp.pong) 7) resp.ok) 5 }
  disk := []
  repliReads := true
  repliWrites := true
  received := 0
  events := []

/-- The two reads of the answers, in one turn each. -/
def handshake : Except Fault (Option (Slave Unit)) :=
  repliReadHandler noRdb { now := 0, connect := none } 1 2 1 connecting resp.pong >>= fun r =>
    r.elim (.error .undefined) fun sl =>
      repliReadHandler noRdb { now := 0, connect := none } 1 2 1 sl resp.ok

/-- They leave this state and this buffer, and have room. -/
theorem handshake_reads : ∃ sl', Reads noRdb { now := 0, connect := none } 1 2 connecting
    [resp.pong, resp.ok] sl' ∧ sl'.server.replState = handshaken.server.replState ∧
      sl'.readBuf 1 = handshaken.readBuf 1 := by
  have hrun : handshake.map (Option.map fun sl => (sl.server.replState, sl.readBuf 1)) =
      .ok (some (handshaken.server.replState, handshaken.readBuf 1)) := by decide
  have hpong : (repliReadHandler noRdb { now := 0, connect := none } 1 2 1 connecting resp.pong).map
      (Option.map fun sl => (sl.server.replState, sl.readBuf 1)) =
        .ok (some (.slaveSendReplconf, sdsTail (sdscatlen sdsempty resp.pong) 7)) := by decide
  cases h : handshake with
  | error e =>
    rw [h] at hrun
    cases hrun
  | ok o =>
    rw [h] at hrun
    obtain ⟨sl', rfl, he⟩ := Option.map_eq_some_iff.mp (Except.ok.inj hrun)
    obtain ⟨r, h₁, h₂⟩ := bind_ok.mp h
    cases r with
    | none => cases h₂
    | some sl₁ =>
      rw [h₁] at hpong
      obtain ⟨hstate, hbuf⟩ := Prod.mk.inj (Option.some.inj (Except.ok.inj hpong))
      have hread₁ : ReadFits 1 connecting resp.pong := ⟨by decide, fun hs => by cases hs⟩
      have hread₂ : ReadFits 1 sl₁ resp.ok :=
        ⟨by rw [hbuf]; decide, fun hs => by rw [hstate] at hs; cases hs⟩
      exact ⟨sl', .read _ _ _ _ _ 1 hread₁ h₁ (.read _ _ _ _ _ 1 hread₂ h₂ (.nil _)),
        (Prod.mk.inj he).1, (Prod.mk.inj he).2⟩

/-- What is left of these two answers in the buffer's memory continues no answer to
SYNC. -/
theorem handshaken_waits : Waiting 1 [] handshaken where
  state := rfl
  holds := holds_empty (by decide)
  stale := by
    have all : ∀ line ∈ [resp.fullsync, resp.appendsync, resp.nosync], ∀ j < line.length, 0 < j →
        (handshaken.readBuf 1).buf.getD j 0 ≠ line.getD j 0 := by decide
    exact fun line hline j h0 _ hj => all line hline j hj h0
  events := rfl
  received := rfl

/-- A disk, with zeros wherever the code has not written. -/
def sampleRdb : RdbIO Bytes :=
  fileRdb (fun _ => ⟨List.replicate RDB_CHECKSUM_LEN 0, rfl⟩) 4096 (fun _ => 0) 0
    fun _ => ⟨0, 0, fun _ => 0, .int 0⟩

theorem fullsync_ok_three : ∃ sl', Reads sampleRdb { now := 0, connect := none } 1 2 handshaken
    [bytes "+FULL", bytes "SYNC\r\n", bytes "$3\r\nabc\r\n"] sl' ∧ Synced 1 (bytes "abc") sl' :=
  (fullsync_ok (Nat.le_refl _) handshaken_waits (by decide) (by decide)).mpr (by decide)

/-- A file whose header comes in a read of its own is taken before it is there. -/
theorem header_alone_fails : ¬ ∀ (P : Bytes) (reads : List Bytes), reads.flatten = syncStream P →
    (∀ r ∈ reads, r ≠ [] ∧ r.length ≤ 1024) →
      ∃ sl', Reads sampleRdb { now := 0, connect := none } 1 2 handshaken reads sl' ∧
        Synced 1 P sl' := by
  intro h
  have hflat : [bytes "+FULLSYNC\r\n", bytes "$3\r\n", bytes "abc\r\n"].flatten =
      syncStream (bytes "abc") := by decide
  have hr : ∀ r ∈ [bytes "+FULLSYNC\r\n", bytes "$3\r\n", bytes "abc\r\n"],
      r ≠ [] ∧ r.length ≤ 1024 := by decide
  obtain ⟨sl', hrun, hs⟩ := h _ _ hflat hr
  exact early_reads handshaken_waits (by decide) ((List.nil_append _).trans hflat) hr
    (by decide) hrun hs

end Fedis.Proof.Repli

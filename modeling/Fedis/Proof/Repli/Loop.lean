import Fedis.Proof.Server.Strings
import Fedis.Impl.Repli

/-!
# When the loop of `repliReadHandler` ends

A turn either does what the state waits for, and then the state or the length of the
buffer says how far it has come (`turn_progress`), or changes nothing (`turn_idle`).
The loop goes on as long as there is a complete value in front, so that it ends iff
no turn finds one there that its state does not wait for (`returns_iff`).
-/

namespace Fedis.Proof.Repli

open Framework Server

variable {D : Type} {io : RdbIO D} {env : Env} {c fake : ClientId} {sl sl' sl'' : Slave D}
  {s s' : RedisServer}

/-- The state has a use for what is in front of the buffer. -/
def Awaits (c : ClientId) (sl : Slave D) : Prop :=
  match sl.server.replState with
  | .slaveConnecting => resp.pong <+: (sl.readBuf c).buf
  | .slaveSendReplconf => resp.ok <+: (sl.readBuf c).buf
  | .slaveSendSync => resp.fullsync <+: (sl.readBuf c).buf ∨ resp.appendsync <+: (sl.readBuf c).buf ∨
      resp.nosync <+: (sl.readBuf c).buf
  | .slaveReceiveRdb | .slaveReceiveAppendsync => True
  | .slaveConnected => resp.ok <+: (sl.readBuf c).buf
  | _ => False

/-- A complete value is in front of the buffer. -/
def HasValue (c : ClientId) (sl : Slave D) : Prop :=
  ∃ endptr, respParse (sl.readBuf c).buf (sl.readBuf c).len = .ok (some endptr)

/-- A complete value is in front, which the state has no use for. -/
def Stuck (c : ClientId) (sl : Slave D) : Prop := ¬ Awaits c sl ∧ HasValue c sl

/-- A turn of the loop that started in the first state starts in the second. -/
inductive Visits (io : RdbIO D) (env : Env) (c fake : ClientId) : Slave D → Slave D → Prop
  | here (sl : Slave D) : Visits io env c fake sl sl
  | turn (sl sl' sl'' : Slave D) (hturn : repliTurn io env c fake sl = .ok sl')
      (hvalue : HasValue c sl') (h : Visits io env c fake sl' sl'') : Visits io env c fake sl sl''

/-- The loop ends after some number of turns, at the end or at a turn that stops the
program or is undefined. -/
def Ends (io : RdbIO D) (env : Env) (c fake : ClientId) (sl : Slave D) : Prop :=
  ∃ n, repliLoop io env c fake n sl ≠ .ok none

/-! ## Turns -/

theorem turn_idle (h : ¬ Awaits c sl) : repliTurn io env c fake sl = .ok sl := by
  unfold Awaits at h
  unfold repliTurn
  split at h
  · rename_i hs
    simp only [hs, takeLine, if_neg h]
  · rename_i hs
    simp only [hs, takeLine, if_neg h]
  · rename_i hs
    obtain ⟨h₁, h₂, h₃⟩ : _ ∧ _ ∧ _ := by push Not at h; exact h
    simp only [hs, takeLine, if_neg h₁, ok_bind, if_neg h₂, if_neg h₃]
  · exact absurd trivial h
  · exact absurd trivial h
  · rename_i hs
    simp only [hs, if_neg h]
  · split <;> simp_all

/-- Taking bytes off the front of the buffer. -/
theorem rangeReadBuf_ok (start : Nat) : rangeReadBuf c start s = .ok s' ↔
    start ≤ (s.client c).readBuf.len ∧ s' = s.modifyClient c fun client =>
      { client with readBuf := sdsTail (s.client c).readBuf start } := by
  unfold rangeReadBuf
  dsimp only
  rw [sdsrange_tail]
  by_cases h : start ≤ (s.client c).readBuf.len
  · simp [h, @eq_comm _ s']
  · simp [h]

theorem takeLine_ok {line : Bytes} {next : ReplState} {writes : Bool}
    (h : takeLine c line next writes sl = .ok sl') :
    (¬ line <+: (sl.readBuf c).buf ∧ sl' = sl) ∨
      (line <+: (sl.readBuf c).buf ∧ sl'.server.replState = next ∧
        (sl'.readBuf c).len + line.length = (sl.readBuf c).len) := by
  unfold takeLine at h
  split at h
  · rename_i hline
    obtain ⟨server, hrange, h⟩ := bind_ok.mp h
    obtain ⟨hle, rfl⟩ := (rangeReadBuf_ok _).mp hrange
    cases h
    refine .inr ⟨hline, rfl, ?_⟩
    simp only [Slave.readBuf, modifyClient_self, len_sdsTail] at hle ⊢
    omega
  · rename_i hline
    cases h
    exact .inl ⟨hline, rfl⟩

/-- Loading the RDB file leads to the last state, and a header that is no number back
to the start, with an empty buffer. -/
theorem receiveRdb_ok (h : receiveRdb io c sl = .ok sl') :
    sl'.server.replState = .slaveConnected ∨ (sl'.readBuf c).len = 0 := by
  unfold receiveRdb at h
  split at h
  · cases h
    refine .inr ?_
    simp [Slave.readBuf]
  · obtain ⟨server, -, h⟩ := bind_ok.mp h
    split at h
    · cases h
    · obtain ⟨db, -, h⟩ := bind_ok.mp h
      obtain ⟨server', hrange, h⟩ := bind_ok.mp h
      cases h
      left
      unfold rangeReadBuf at hrange
      dsimp only at hrange
      split at hrange
      · cases hrange
      · cases hrange
        rfl

/-! ## Progress -/

/-- How far a state is from the end of the synchronisation. -/
def rank : ReplState → Nat
  | .slaveConnecting => 5
  | .slaveSendReplconf => 4
  | .slaveSendSync => 3
  | .slaveReceiveRdb => 2
  | .slaveReceiveAppendsync => 1
  | _ => 0

theorem HasValue.len (h : HasValue c sl) : 3 ≤ (sl.readBuf c).len := by
  obtain ⟨endptr, he⟩ := h
  by_contra hlen
  rw [respParse, respParseBounded, if_pos (by omega)] at he
  cases he

/-- Each of the three answers to SYNC leads on. -/
theorem sync_ok (h : repliTurn io env c fake sl = .ok sl')
    (hs : sl.server.replState = .slaveSendSync) (ha : Awaits c sl) :
    rank sl'.server.replState < 3 := by
  rw [Awaits, hs] at ha
  rw [repliTurn, hs] at h
  obtain ⟨sl₁, h₁, h⟩ := bind_ok.mp h
  obtain ⟨sl₂, h₂, h₃⟩ := bind_ok.mp h
  rcases takeLine_ok h₃ with ⟨hne₃, rfl⟩ | ⟨-, hs₃, -⟩
  · rcases takeLine_ok h₂ with ⟨hne₂, rfl⟩ | ⟨-, hs₂, -⟩
    · rcases takeLine_ok h₁ with ⟨hne₁, rfl⟩ | ⟨-, hs₁, -⟩
      · exact absurd ha (by simp [hne₁, hne₂, hne₃])
      · rw [hs₁]
        decide
    · rw [hs₂]
      decide
  · rw [hs₃]
    decide

/-- **A turn that does something leads on**: to a later state, or to a shorter buffer. -/
theorem turn_progress (h : repliTurn io env c fake sl = .ok sl') (ha : Awaits c sl)
    (hv : HasValue c sl') :
    rank sl'.server.replState < rank sl.server.replState ∨
      rank sl'.server.replState = rank sl.server.replState ∧
        (sl'.readBuf c).len < (sl.readBuf c).len := by
  cases hs : sl.server.replState with
  | slaveConnecting =>
    rw [Awaits, hs] at ha
    rw [repliTurn, hs] at h
    rcases takeLine_ok h with ⟨hne, -⟩ | ⟨-, hs', -⟩
    · exact absurd ha hne
    · exact .inl (by rw [hs']; decide)
  | slaveSendReplconf =>
    rw [Awaits, hs] at ha
    rw [repliTurn, hs] at h
    rcases takeLine_ok h with ⟨hne, -⟩ | ⟨-, hs', -⟩
    · exact absurd ha hne
    · exact .inl (by rw [hs']; decide)
  | slaveSendSync =>
    exact .inl (sync_ok h hs ha)
  | slaveReceiveRdb =>
    rw [repliTurn, hs] at h
    have := hv.len
    rcases receiveRdb_ok h with hs' | hlen
    · exact .inl (by rw [hs']; decide)
    · omega
  | slaveReceiveAppendsync =>
    rw [repliTurn, hs] at h
    obtain ⟨server, -, h⟩ := bind_ok.mp h
    cases h
    exact .inl Nat.zero_lt_one
  | slaveConnected =>
    rw [Awaits, hs] at ha
    rw [repliTurn, hs] at h
    dsimp only at h
    rw [if_pos ha] at h
    obtain ⟨sl₁, hline, h⟩ := bind_ok.mp h
    cases h
    rcases takeLine_ok hline with ⟨hne, -⟩ | ⟨-, hs', hlen⟩
    · exact absurd ha hne
    · have h5 : resp.ok.length = 5 := by decide
      refine .inr ⟨by rw [hs'], ?_⟩
      simp only [Slave.readBuf] at hlen ⊢
      omega
  | _ =>
    rw [Awaits, hs] at ha
    exact ha.elim

/-! ## The loop -/

theorem loop_succ (n : Nat) (hlen : (sl.readBuf c).len ≠ 0)
    (hturn : repliTurn io env c fake sl = .ok sl') (hv : HasValue c sl') :
    repliLoop io env c fake (n + 1) sl = repliLoop io env c fake n sl' := by
  obtain ⟨endptr, he⟩ := hv
  rw [repliLoop, if_neg hlen, hturn, ok_bind, he]
  rfl

theorem stuck_loops (h : Stuck c sl) (n : Nat) : repliLoop io env c fake n sl = .ok none := by
  induction n with
  | zero => rfl
  | succ n ih =>
    have := h.2.len
    rw [loop_succ n (by omega) (turn_idle h.1) h.2, ih]

/-- No number of turns is enough where a turn gets stuck. -/
theorem visits_loops (h : Visits io env c fake sl sl') (hlen : (sl.readBuf c).len ≠ 0)
    (hs : Stuck c sl') (n : Nat) : repliLoop io env c fake n sl = .ok none := by
  induction h generalizing n with
  | here => exact stuck_loops hs n
  | turn sl₁ sl₂ sl₃ hturn hvalue h ih =>
    cases n with
    | zero => rfl
    | succ n =>
      have := hvalue.len
      rw [loop_succ n hlen hturn hvalue, ih (by omega) hs]

theorem unstuck_ends (sl : Slave D) (h : ∀ sl', Visits io env c fake sl sl' → ¬ Stuck c sl') :
    Ends io env c fake sl := by
  by_cases hlen : (sl.readBuf c).len = 0
  · exact ⟨1, by rw [repliLoop, if_pos hlen]; nofun⟩
  · cases hturn : repliTurn io env c fake sl with
    | error e =>
      refine ⟨1, ?_⟩
      rw [repliLoop, if_neg hlen, hturn]
      nofun
    | ok sl₁ =>
      cases hparse : respParse (sl₁.readBuf c).buf (sl₁.readBuf c).len with
      | error e =>
        refine ⟨1, ?_⟩
        rw [repliLoop, if_neg hlen, hturn, ok_bind, hparse]
        nofun
      | ok v =>
        cases v with
        | none =>
          refine ⟨1, ?_⟩
          rw [repliLoop, if_neg hlen, hturn, ok_bind, hparse]
          nofun
        | some endptr =>
          have hv : HasValue c sl₁ := ⟨endptr, hparse⟩
          have ha : Awaits c sl := by
            by_contra hna
            have heq : sl₁ = sl := by
              rw [turn_idle hna] at hturn
              exact (Except.ok.inj hturn).symm
            rw [heq] at hv
            exact h sl (.here sl) ⟨hna, hv⟩
          have hprogress := turn_progress hturn ha hv
          obtain ⟨n, hn⟩ := unstuck_ends sl₁ fun sl₂ h₂ => h sl₂ (.turn _ _ _ hturn hv h₂)
          exact ⟨n + 1, by rwa [loop_succ n hlen hturn hv]⟩
termination_by (rank sl.server.replState, (sl.readBuf c).len)
decreasing_by
  rcases hprogress with hlt | ⟨heq, hlt⟩
  · exact .left _ _ hlt
  · rw [heq]
    exact .right _ hlt

/-- The handler comes to an end on these bytes: it returns, or a turn stops the
program or is undefined. -/
def Returns (io : RdbIO D) (env : Env) (c fake : ClientId) (sl : Slave D) (nread : Bytes) : Prop :=
  ∃ n, repliReadHandler io env c fake n sl nread ≠ .ok none

theorem len_receive (sl : Slave D) (nread : Bytes) :
    ((receive c sl nread).readBuf c).len = (sl.readBuf c).len + nread.length := by
  simp [receive, Slave.readBuf]

/-- **The loop of `repliReadHandler` ends** iff no turn finds a complete value in
front that its state has no use for. -/
theorem returns_iff {nread : Bytes} (hn : nread ≠ []) : Returns io env c fake sl nread ↔
    ∀ sl', Visits io env c fake (receive c sl nread) sl' → ¬ Stuck c sl' := by
  have hlen := len_receive (c := c) sl nread
  have hpos := List.length_pos_of_ne_nil hn
  unfold Returns repliReadHandler
  simp only [if_neg hn]
  exact ⟨fun ⟨n, h⟩ sl' hv hs => h (visits_loops hv (by omega) hs n), unstuck_ends _⟩

/-- A slave that has just connected to its master, client 1, with no file. -/
def connecting : Slave Unit where
  server := { initServer 1 { master := false, slave := true, sentinel := false } 16 false with
    master := some 1, replState := .slaveConnecting }
  disk := ()
  repliReads := true
  repliWrites := true
  received := 0
  events := []

/-- No file, and nothing to load. -/
def noRdb : RdbIO Unit := { receiveRDBfile := fun _ d => d, rdbLoad := fun _ db => .ok db }

theorem returns_iff_pong : Returns noRdb { now := 0, connect := none } 1 2 connecting resp.pong := by
  refine (returns_iff (by decide)).mpr fun sl' h => ?_
  cases h with
  | here => exact fun hs => hs.1 (by decide : resp.pong <+: _)
  | turn sl₁ _ _ hturn hvalue _ =>
    have hlen := hvalue.len
    have hs : (receive 1 connecting resp.pong).server.replState = .slaveConnecting := rfl
    rw [repliTurn, hs] at hturn
    rcases takeLine_ok hturn with ⟨hne, -⟩ | ⟨-, -, htake⟩
    · exact absurd (by decide) hne
    · have h7 : ((receive 1 connecting resp.pong).readBuf 1).len = resp.pong.length := by decide
      omega

/-- A master that answers PING with `+OK` keeps the handler busy for ever. -/
theorem ok_for_pong_loops : ¬ ∀ (sl : Slave Unit) (nread : Bytes), nread ≠ [] →
    Returns noRdb { now := 0, connect := none } 1 2 sl nread := by
  intro h
  obtain ⟨n, hn⟩ := h connecting resp.ok (by decide)
  have hstuck : Stuck 1 (receive 1 connecting resp.ok) :=
    ⟨(by decide : ¬ resp.pong <+: _), 4, by decide⟩
  rw [repliReadHandler, if_neg (by decide)] at hn
  exact hn (stuck_loops hstuck n)

end Fedis.Proof.Repli

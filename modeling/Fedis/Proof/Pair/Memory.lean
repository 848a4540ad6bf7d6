import Fedis.Impl.PairMachine
import Fedis.Proof.Machine.Step

/-!
# The pair's memory

A step of the two servers on their memory is a step of theirs (`pairMachineStep_pair`), since a
defined read is the server's.
-/

namespace Fedis.Proof.Pair

open Framework Server Proof.Machine

variable {D : Type} {slack : Nat} {io : RdbIO D} {env : Env} {c fake x : ClientId} {port : Int}
  {m m' : Machine} {sl sl' : SlaveMachine D} {v v' : PairMachine D} {n : Nat}

/-! ## The handlers of the slave -/

theorem appendSyncLoop_server (h : Machine.appendSyncLoop slack env c fake n m = .ok m') :
    appendSyncLoop env c fake n m.server = .ok m'.server := by
  induction n generalizing m with
  | zero => cases h
  | succ n ih =>
    rw [Machine.appendSyncLoop] at h
    rw [appendSyncLoop]
    dsimp only at h ⊢
    split at h
    · cases h
    obtain ⟨o, hparse, h⟩ := bind_ok.mp h
    rw [hparse, ok_bind]
    cases o with
    | none =>
      cases h
      rfl
    | some endptr =>
      obtain ⟨m₁, h₁, h⟩ := bind_ok.mp h
      obtain ⟨-, rfl⟩ := next_ok.mp h₁
      obtain ⟨m₂, h₂, h⟩ := bind_ok.mp h
      obtain ⟨server, h₃, h⟩ := bind_ok.mp h
      exact bind_ok.mpr ⟨m₂.server, query_server h₂, bind_ok.mpr ⟨server, h₃, ih h⟩⟩

theorem doAppendSync_server (h : Machine.doAppendSync slack env c fake m = .ok m') :
    doAppendSync env c fake m.server = .ok m'.server := by
  obtain ⟨m₁, h₁, h⟩ := bind_ok.mp h
  cases h
  exact bind_ok.mpr ⟨m₁.server, appendSyncLoop_server h₁, rfl⟩

theorem repliTurn_slave (h : sl.repliTurn slack io env c fake = .ok sl') :
    repliTurn io env c fake sl.toSlave = .ok sl'.toSlave := by
  rw [SlaveMachine.repliTurn] at h
  split at h
  · rename_i hs
    obtain ⟨m, hm, h⟩ := bind_ok.mp h
    cases h
    rw [repliTurn, hs]
    exact bind_ok.mpr ⟨m.server, doAppendSync_server hm, rfl⟩
  · split at h
    · cases h
    · obtain ⟨s, hs, h⟩ := bind_ok.mp h
      cases h
      exact hs

theorem mapError_ok {α : Type} {r : Except Fault α} {a : α} :
    r.mapError LinkFault.other = .ok a ↔ r = .ok a := by
  cases r <;> simp [Except.mapError]

theorem readMasterLoop_slave {registered : List Bool} {o : Option (SlaveMachine D)}
    (h : sl.readMasterLoop slack io env c fake n registered = .ok o) :
    readMasterLoop io env c fake n registered sl.toSlave = .ok (o.map (·.toSlave)) := by
  induction n generalizing registered sl with
  | zero =>
    cases h
    rfl
  | succ n ih =>
    rw [SlaveMachine.readMasterLoop] at h
    rw [readMasterLoop]
    split at h
    · rename_i hlen
      rw [if_pos hlen]
      cases h
      rfl
    · rename_i hlen
      rw [if_neg hlen]
      obtain ⟨sl₁, h₁, h⟩ := bind_ok.mp h
      refine bind_ok.mpr ⟨sl₁.toSlave, mapError_ok.mpr (repliTurn_slave (mapError_ok.mp h₁)), ?_⟩
      split at h
      · cases h
      · rename_i hr
        rw [if_neg hr]
        obtain ⟨p, hp, h⟩ := bind_ok.mp h
        refine bind_ok.mpr ⟨p, hp, ?_⟩
        cases p with
        | none =>
          cases h
          rfl
        | some endptr => exact ih h

theorem readMaster_slave {registered : List Bool} {nread : Bytes} {o : Option (SlaveMachine D)}
    (h : sl.readMaster slack io env c fake n registered nread = .ok o) :
    readMaster io env c fake n registered sl.toSlave nread = .ok (o.map (·.toSlave)) := by
  rw [SlaveMachine.readMaster] at h
  rw [readMaster]
  split at h
  · cases h
  rename_i hn
  rw [if_neg hn]
  split at h
  · cases h
  obtain ⟨o₁, h₁, h⟩ := bind_ok.mp h
  refine bind_ok.mpr ⟨_, readMasterLoop_slave h₁, ?_⟩
  cases o₁ with
  | none =>
    cases h
    rfl
  | some sl₁ =>
    dsimp only [Option.map_some] at h ⊢
    split at h
    · rename_i hm
      rw [if_pos hm]
      cases h
      rfl
    · cases h

variable (io fake port) in
theorem readFromClient_slave {r : Read} (h : sl.readFromClient slack r = some sl') :
    linkStep io fake port sl.toSlave (.request r) = some ((), sl'.toSlave) := by
  obtain ⟨⟨u, m⟩, hm, rfl⟩ := Option.map_eq_some_iff.mp h
  have hread := read_server (machineStep_read.mp hm)
  unfold linkStep linkEvent
  dsimp only at hread ⊢
  rw [hread]
  rfl

theorem readFromMaster_slave {registered : List Bool} {nread : Bytes}
    (hlink : sl.server.master = some c)
    (h : sl.readFromMaster slack io env c fake n registered nread = some sl') :
    linkStep io fake port sl.toSlave
      (if sl.repliReads then .readable env nread n registered else .request ⟨env, c, nread⟩) =
        some ((), sl'.toSlave) := by
  rw [SlaveMachine.readFromMaster] at h
  split at h
  · rename_i hreads
    rw [if_pos hreads]
    cases hr : sl.readMaster slack io env c fake n registered nread with
    | error e =>
      rw [hr] at h
      cases h
    | ok o =>
      rw [hr] at h
      cases h
      rw [linkStep, linkEvent, if_pos hreads, hlink]
      dsimp only
      rw [readMaster_slave hr]
      rfl
  · rename_i hreads
    rw [if_neg hreads]
    exact readFromClient_slave io fake port h

/-! ## A step of the pair -/

theorem slaveRequest_pair {r : Read} {u : Unit}
    (h : pairMachineStep slack io fake port x v (.slaveRequest r) = some (u, v')) :
    pairStep io fake port x v.toPair (.slaveRequest r) = some (u, v'.toPair) := by
  unfold pairMachineStep at h
  unfold pairStep
  dsimp only at h ⊢
  split at h
  · cases h
  rename_i hc
  rw [if_neg hc]
  obtain ⟨sl, hsl, e⟩ := Option.map_eq_some_iff.mp h
  cases e
  have hstep := readFromClient_slave io fake port hsl
  exact Option.map_eq_some_iff.mpr ⟨((), sl.toSlave), hstep, rfl⟩

theorem slaveWrites_pair {wrote : Bool} {u : Unit}
    (h : pairMachineStep slack io fake port x v (.slaveWrites wrote) = some (u, v')) :
    pairStep io fake port x v.toPair (.slaveWrites wrote) = some (u, v'.toPair) := by
  obtain ⟨c, -, h⟩ := Option.bind_eq_some_iff.mp h
  split at h
  · cases h
  · split at h
    · cases h
    · obtain ⟨⟨u, p⟩, hp, e⟩ := Option.map_eq_some_iff.mp h
      cases e
      exact hp

theorem readFromMaster_pair {turns : Nat} {registered : List Bool} {u : Unit}
    (h : pairMachineStep slack io fake port x v (.readFromMaster env n turns registered) =
      some (u, v')) :
    pairStep io fake port x v.toPair (.readFromMaster env n turns registered) =
      some (u, v'.toPair) := by
  unfold pairMachineStep at h
  unfold pairStep
  dsimp only at h ⊢
  split at h
  · rename_i hr
    rw [if_pos hr]
    obtain ⟨c, hc, h⟩ := Option.bind_eq_some_iff.mp h
    obtain ⟨sl, hsl, e⟩ := Option.map_eq_some_iff.mp h
    cases e
    have hstep : linkStep io fake port v.slave
        (if v.slave.repliReads then .readable env (v.toSlave.take n) turns registered
          else .request ⟨env, c, v.toSlave.take n⟩) = some ((), sl.toSlave) :=
      readFromMaster_slave hc hsl
    exact Option.bind_eq_some_iff.mpr ⟨c, hc,
      Option.map_eq_some_iff.mpr ⟨((), sl.toSlave), hstep, rfl⟩⟩
  · cases h

/-- **A step on the memory is a step of the servers.** -/
theorem pairMachineStep_pair {e : PairStep} {u : Unit}
    (h : pairMachineStep slack io fake port x v e = some (u, v')) :
    pairStep io fake port x v.toPair e = some (u, v'.toPair) := by
  cases e with
  | accept | sendToClient | slaveCron | slaveSends =>
    obtain ⟨⟨u, p⟩, hp, e⟩ := Option.map_eq_some_iff.mp h
    cases e
    exact hp
  | request r =>
    unfold pairMachineStep at h
    unfold pairStep
    dsimp only at h ⊢
    split at h
    · cases h
    rename_i hx
    rw [if_neg hx]
    obtain ⟨⟨u, m⟩, hm, e⟩ := Option.map_eq_some_iff.mp h
    cases e
    have hread := read_server (machineStep_read.mp hm)
    exact Option.map_eq_some_iff.mpr ⟨((), m.server), serve_ok.mpr hread, rfl⟩
  | readFromSlave env n =>
    unfold pairMachineStep at h
    unfold pairStep
    dsimp only at h ⊢
    split at h
    · rename_i hr
      rw [if_pos hr]
      obtain ⟨⟨u, m⟩, hm, e⟩ := Option.map_eq_some_iff.mp h
      cases e
      have hread := read_server (machineStep_read.mp hm)
      exact Option.map_eq_some_iff.mpr ⟨((), m.server), serve_ok.mpr hread, rfl⟩
    · cases h
  | slaveRequest r => exact slaveRequest_pair h
  | slaveWrites wrote => exact slaveWrites_pair h
  | readFromMaster env n turns registered => exact readFromMaster_pair h

end Fedis.Proof.Pair

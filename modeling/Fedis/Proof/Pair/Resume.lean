import Fedis.Proof.Pair.Handshake

/-!
# The slave comes back

A slave that is connected anew, with the offset that it has kept, goes through the handshake. In
every interleaving with the other clients, whose steps are `Calm` and stay on the memory there is, it
keeps its keys until it is connected, and has from then on those that the master has had
(`slave_resumes`). The invariant is `Resumed`, which ends in `Joined`.
-/

namespace Fedis.Proof.Pair

open Framework Resp Repli Server

variable {D : Type} {io : RdbIO D} {fake : ClientId} {port : Int} {x c : ClientId}
  {p p' : Pair D} {e : PairStep} {u : Unit} {offset n : Nat} {kv : List (DbMap Robj)} {r : Round}
  {stage : Stage}

/-! ## One step -/

theorem Calm.answer {env : Env} {turns : Nat} {registered : List Bool}
    (h : Calm x p (.readFromMaster env n turns registered)) (hreads : p.slave.repliReads = true)
    (hstate : p.slave.server.replState ≠ .slaveConnected) : n = p.toSlave.length := by
  rw [Calm, if_pos ⟨hreads, hstate⟩] at h
  exact h

theorem Calm.whole {env : Env} {turns : Nat} {registered : List Bool}
    (h : Calm x p (.readFromMaster env n turns registered))
    (hnot : ¬ (p.slave.repliReads = true ∧ p.slave.server.replState ≠ .slaveConnected)) :
    Paced x p (.readFromMaster env n turns registered) := by
  rw [Calm, if_neg hnot] at h
  exact h

/-- Once the slave leaves its socket to `readFromClient`, a calm step is a paced one. -/
theorem Calm.paced (h : Calm x p e) (hreads : p.slave.repliReads = false) : Paced x p e := by
  cases e with
  | request r => exact h.1
  | readFromSlave env n => exact h.1
  | readFromMaster env n turns registered =>
    exact h.whole fun hr => absurd (hreads.symm.trans hr.1) Bool.false_ne_true
  | accept | sendToClient | slaveRequest | slaveCron | slaveWrites | slaveSends => exact h

/-- A request of another client, which does not write while the master knows the slave. -/
theorem shaking_request {rd : Read} (h : Shaking port offset x c kv r stage p)
    (hp : Calm x p (.request rd)) (he : pairStep io fake port x p (.request rd) = some (u, p')) :
    Shaking port offset x c kv r stage p' := by
  obtain ⟨⟨q, hq, hord, hn, hdb⟩, hcalm⟩ := hp
  by_cases hw : IsWrite q
  · have hx : (p.master.client x).flags ≠ .REDIS_CLIENT_SLAVE := fun hx =>
      absurd (h.reads.symm.trans (hcalm q hq hn hw hx)) (by decide)
    unfold pairStep at he
    dsimp only at he
    split at he
    · cases he
    · rename_i hy
      obtain ⟨⟨_, s'⟩, hs, e⟩ := Option.map_eq_some_iff.mp he
      cases e
      have hread := serve_ok.mp hs
      rw [hn] at hread
      exact shaking_write h (Ne.symm hy) ⟨hq, hord, hw⟩ (hdb hw) hx hread
  · have hout : Outside x p (.request rd) := ⟨q, hq, hord, hn, hw⟩
    exact h.aside (aside_step h.hosting h.attached hout he)

/-- One step of the handshake. -/
theorem shaking_step (hne : c ≠ fake) (hport : inLong port) (ho : offset < 2 ^ 31)
    (h : Shaking port offset x c kv r stage p) (hp : Calm x p e)
    (he : pairStep io fake port x p e = some (u, p')) :
    (∃ r stage, Shaking port offset x c kv r stage p') ∨ Beating x c p' := by
  have hconnected : r.state ≠ .slaveConnected := by cases r <;> decide
  have haside : Outside x p e → ∃ r stage, Shaking port offset x c kv r stage p' := fun hout =>
    ⟨r, stage, h.aside (aside_step h.hosting h.attached hout he)⟩
  cases e with
  | accept y ip cport => exact .inl (haside trivial)
  | request rd => exact .inl ⟨r, stage, shaking_request h hp he⟩
  | slaveRequest rd => exact .inl (haside hp)
  | sendToClient y n file w =>
    left
    by_cases hy : y = x
    · obtain ⟨hn, hpos⟩ := hp hy
      subst hy
      unfold pairStep at he
      dsimp only at he
      split at he
      · cases he
        exact ⟨r, stage, shaking_sends h hn hpos⟩
      · cases he
    · exact haside hy
  | slaveSends y n file w =>
    left
    by_cases hy : p.slave.server.master = some y
    · obtain ⟨hn, hpos⟩ := hp hy
      obtain rfl : c = y := Option.some.inj (h.attached.link.symm.trans hy)
      have hempty := h.silent
      omega
    · exact haside hy
  | readFromSlave env n =>
    obtain ⟨⟨m, hm, hn⟩, hsync⟩ := hp
    unfold pairStep at he
    dsimp only at he
    split at he
    · rename_i hread
      obtain ⟨⟨_, s'⟩, hs, e⟩ := Option.map_eq_some_iff.mp he
      cases e
      exact .inl ⟨r, .answered, shaking_asked hport ho h hread hm hn hsync (serve_ok.mp hs)⟩
    · cases he
  | slaveCron write timeout =>
    obtain ⟨rfl, rfl⟩ := hp
    obtain ⟨⟨_, sl'⟩, hs, e⟩ := Option.map_eq_some_iff.mp he
    cases e
    obtain rfl := linkStep_waits h.attached hconnected hs
    exact .inl ⟨r, stage, h⟩
  | slaveWrites wrote =>
    obtain ⟨rfl, -⟩ := hp
    obtain ⟨⟨_, sl'⟩, hs, e⟩ := Option.map_eq_some_iff.mp he
    cases e
    exact .inl ⟨r, .asked, shaking_ready ho h hs⟩
  | readFromMaster env n turns registered =>
    have hn := hp.answer h.reads (by rwa [h.attached.replState])
    unfold pairStep at he
    dsimp only at he
    rw [h.attached.link, h.reads] at he
    split at he
    · rename_i hread
      obtain ⟨⟨_, sl'⟩, hs, e⟩ := Option.map_eq_some_iff.mp he
      cases e
      obtain ⟨next, h'⟩ | h' := shaking_answered hne h hread hn hs
      · exact .inl ⟨next, .ready, h'⟩
      · exact .inr h'
    · cases he

/-- One step until the reply to the heartbeat. -/
theorem beating_step {R : List (DbMap Robj) → Prop} (hR : R (kvs p.master.db)) (h : Beating x c p)
    (hp : Calm x p e) (he : pairStep io fake port x p e = some (u, p')) :
    Beating x c p' ∨ Joined R x c p' := by
  have ha := following_iff.mp h.following
  have haside : Outside x p e → Beating x c p' := fun hout =>
    h.aside (aside_step h.serving.hosting ha hout he)
  cases e with
  | accept y ip cport => exact .inl (haside trivial)
  | slaveRequest rd => exact .inl (haside hp)
  | request rd =>
    obtain ⟨⟨q, hq, hord, hn, -⟩, hcalm⟩ := hp
    refine .inl (haside ⟨q, hq, hord, hn, fun hw => ?_⟩)
    exact absurd (h.reads.symm.trans (hcalm q hq hn hw h.serving.flags)) (by decide)
  | sendToClient y n file w =>
    left
    by_cases hy : y = x
    · obtain ⟨hn, hpos⟩ := hp hy
      subst hy
      unfold pairStep at he
      dsimp only at he
      split at he
      · cases he
        exact beating_sends h hn hpos
      · cases he
    · exact haside hy
  | slaveSends y n file w =>
    left
    by_cases hy : p.slave.server.master = some y
    · obtain ⟨hn, hpos⟩ := hp hy
      obtain rfl : c = y := Option.some.inj (ha.link.symm.trans hy)
      have hempty := h.silent
      omega
    · exact haside hy
  | readFromSlave env n =>
    obtain ⟨⟨m, hm, hn⟩, -⟩ := hp
    unfold pairStep at he
    dsimp only at he
    split at he
    · obtain ⟨⟨_, s'⟩, hs, e⟩ := Option.map_eq_some_iff.mp he
      cases e
      exact .inl (beating_asked h hm hn (serve_ok.mp hs))
    · cases he
  | slaveCron write timeout =>
    obtain ⟨rfl, rfl⟩ := hp
    obtain ⟨⟨_, sl'⟩, hs, e⟩ := Option.map_eq_some_iff.mp he
    cases e
    obtain rfl := linkStep_cron h.following hs
    exact .inl ⟨h.serving, h.following, h.reads, h.silent, h.down, h.up, h.keys⟩
  | slaveWrites wrote =>
    obtain ⟨rfl, hoff⟩ := hp
    obtain ⟨⟨_, sl'⟩, hs, e⟩ := Option.map_eq_some_iff.mp he
    cases e
    exact .inl (beating_writes h hoff hs)
  | readFromMaster env n turns registered =>
    obtain ⟨m, hm, hn⟩ := hp.whole fun hr => hr.2 ha.replState
    unfold pairStep at he
    dsimp only at he
    rw [ha.link, h.reads] at he
    split at he
    · obtain ⟨⟨_, sl'⟩, hs, e⟩ := Option.map_eq_some_iff.mp he
      cases e
      exact .inr (beating_answered h hR hm hn hs)
    · cases he

/-! ## Every run -/

variable {slack : Nat} {v v' : PairMachine D}

/-- How far the slave has come. -/
inductive Resumed (R : List (DbMap Robj) → Prop) (port : Int) (offset : Nat) (x c : ClientId)
    (kv : List (DbMap Robj)) (p : Pair D) : Prop where
  | shaking (r : Round) (stage : Stage) (h : Shaking port offset x c kv r stage p)
  | beating (hR : R (kvs p.master.db)) (h : Beating x c p)
  | joined (h : Joined R x c p)

theorem resumed_step {R R' : List (DbMap Robj) → Prop} (hne : c ≠ fake) (hport : inLong port)
    (ho : offset < 2 ^ 31) (hR : ∀ k, R k → R' k) (hold : R (kvs p.master.db))
    (hnew : R' (kvs p'.master.db)) (h : Resumed R port offset x c kv p) (hp : Calm x p e)
    (he : pairStep io fake port x p e = some (u, p')) : Resumed R' port offset x c kv p' := by
  cases h with
  | shaking r stage h =>
    obtain ⟨r', stage', h'⟩ | h' := shaking_step hne hport ho h hp he
    · exact .shaking r' stage' h'
    · exact .beating hnew h'
  | beating _ h =>
    obtain h' | h' := beating_step (hR _ hold) h hp he
    · exact .beating hnew h'
    · exact .joined h'
  | joined h => exact .joined (joined_step hR hold hnew h (hp.paced h.reads) he)

/-- The slave has been connected to its master anew, and the backlog of the master has what the
slave has missed. -/
structure Resuming (offset : Nat) (x c : ClientId) (p : Pair D) : Prop where
  hosting : Hosting x p.master
  attached : Attached c .slaveConnecting p.slave.server
  reads : p.slave.repliReads = true
  writes : p.slave.repliWrites = true
  toSlave : p.toSlave = []
  toMaster : p.toMaster = []
  writeBuf : (p.master.client x).writeBuf.len = 0
  silent : (p.slave.server.client c).writeBuf.len = 0
  counted : p.slave.server.offset = offset
  missed : Missed offset (kvs p.slave.server.db) p.master

theorem Resuming.shaking (h : Resuming offset x c p) (port : Int) :
    Shaking port offset x c (kvs p.slave.server.db) .ping .ready p where
  hosting := h.hosting
  known := fun hk => hk.elim nofun fun hk => absurd hk.1 (by decide)
  attached := h.attached
  reads := h.reads
  writes := h.writes
  silent := h.silent
  toMaster := h.toMaster
  toSlave := .inl ⟨h.toSlave, content_of_len h.writeBuf⟩
  counted := h.counted
  missed := h.missed
  behind := nofun
  keys := rfl

/-- The keys that the master has had in this run. -/
def Had (slack : Nat) (io : RdbIO D) (fake : ClientId) (port : Int) (x : ClientId)
    (v : PairMachine D) (events : List PairStep) (kv : List (DbMap Robj)) : Prop :=
  ∃ earlier us v', earlier <+: events ∧
    run (pairMachineStep slack io fake port x) v earlier = some (us, v') ∧ kv = kvs v'.master.db

theorem Resuming.run {events : List PairStep} {us : List Unit} (h₀ : Resuming offset x c v.toPair)
    (hne : c ≠ fake) (hport : inLong port) (ho : offset < 2 ^ 31)
    (hp : Along (pairMachineStep slack io fake port x) (fun v => Calm x v.toPair) v events)
    (hrun : run (pairMachineStep slack io fake port x) v events = some (us, v')) :
    Resumed (Had slack io fake port x v events) port offset x c (kvs v.slave.server.db)
      v'.toPair := by
  refine run_history (I := fun events v' => Resumed (Had slack io fake port x v events) port offset x c
    (kvs v.slave.server.db) v'.toPair) ?_ events (run_nil v) (.shaking .ping .ready (h₀.shaking port))
    hp hrun
  intro before s bs e u s' hbefore hj hpe he
  have hsnoc := run_snoc hbefore he
  refine resumed_step hne hport ho (fun kv hkv => ?_) ?_ ?_ hj hpe (pairMachineStep_pair he)
  · obtain ⟨earlier, us₁, v₁, hprefix, h₁⟩ := hkv
    exact ⟨earlier, us₁, v₁, hprefix.trans (List.prefix_append _ _), h₁⟩
  · exact ⟨before, bs, s, List.prefix_rfl, hbefore, rfl⟩
  · exact ⟨before ++ [e], _, s', List.prefix_rfl, hsnoc, rfl⟩

/-- Before the slave is connected it has the keys it came with, afterwards those that the master
has had, and when nothing is on its way those that the master has. -/
structure Resumes (R : List (DbMap Robj) → Prop) (x : ClientId) (kv : List (DbMap Robj))
    (p : Pair D) : Prop where
  before : p.slave.server.replState ≠ .slaveConnected → kvs p.slave.server.db = kv
  known : p.slave.server.replState = .slaveConnected → R (kvs p.slave.server.db)
  same : p.slave.server.replState = .slaveConnected → p.toSlave = [] →
    (p.master.client x).writeBuf.len = 0 → kvs p.slave.server.db = kvs p.master.db

theorem Resumed.resumes {R : List (DbMap Robj) → Prop} (h : Resumed R port offset x c kv p) :
    Resumes R x kv p := by
  cases h with
  | shaking r stage h =>
    have hnot : p.slave.server.replState ≠ .slaveConnected := by
      rw [h.attached.replState]
      cases r <;> decide
    exact ⟨fun _ => h.keys, fun e => absurd e hnot, fun e => absurd e hnot⟩
  | beating hR h =>
    exact ⟨fun e => absurd h.following.replState e, fun _ => h.keys ▸ hR, fun _ _ _ => h.keys⟩
  | joined h =>
    obtain ⟨ms, hc, hl⟩ := h.down
    refine ⟨fun e => absurd h.following.replState e, fun _ => hl.known [] List.nil_prefix,
      fun _ hstream hlen => ?_⟩
    have hempty : [] = ms.flatMap Message.bytes := by
      rw [← hc.stream, hstream, content_of_len hlen]
      rfl
    obtain rfl := messages.nil (fun m hm => (hc.kind m hm).valid) hempty
    exact hl.reach

/-- A step that is `Calm` for these requests, which can be computed. -/
def Scripted (qs : List (List Bytes)) (x : ClientId) (p : Pair D) : PairStep → Prop
  | .request r => (∃ q ∈ qs, Ordinary q ∧ r.nread = respEncodeArrayString q) ∧
      (p.master.client r.client).db = 0 ∧ (p.master.client x).flags ≠ .REDIS_CLIENT_SLAVE
  | .sendToClient y nwritten _ _ => nwritten = (p.master.client y).writeBuf.len ∧ 0 < nwritten
  | .readFromSlave _ n => (∃ q ∈ qs, p.toMaster.take n = respEncodeArrayString q) ∧
      (p.toMaster.take n =
          respEncodeArrayString [bytes "SYNC", decimalInt p.slave.server.offset] →
        p.master.backlog.accepts p.slave.server.offset = true ∧
          p.master.backlog.stream.length < MASTER_REPLI_RINGBUFFER_SIZE)
  | .slaveWrites wrote => wrote = true ∧ inLong p.slave.server.offset
  | .slaveCron write timeout => write = none ∧ timeout = none
  | .readFromMaster _ n _ _ =>
      if p.slave.repliReads = true ∧ p.slave.server.replState ≠ .slaveConnected then
        n = p.toSlave.length
      else p.toSlave.take n = resp.ok
  | .accept _ _ _ | .slaveRequest _ | .slaveSends _ _ _ _ => False

instance (qs : List (List Bytes)) (x : ClientId) (p : Pair D) : DecidablePred (Scripted qs x p) :=
  fun e => by
    cases e <;> unfold Scripted <;> infer_instance

theorem Scripted.calm {qs : List (List Bytes)} (hqs : ∀ q ∈ qs, Request q) (h : Scripted qs x p e) :
    Calm x p e := by
  cases e with
  | request r =>
    obtain ⟨⟨q, hq, ho, hn⟩, hdb, hx⟩ := h
    exact ⟨⟨q, hqs q hq, ho, hn, fun _ => hdb⟩, fun _ _ _ _ hslave => absurd hslave hx⟩
  | sendToClient y n file w => exact fun _ => h
  | readFromSlave env n =>
    obtain ⟨⟨q, hq, hn⟩, hsync⟩ := h
    exact ⟨⟨.request q, hqs q hq, hn⟩, hsync⟩
  | slaveWrites wrote => exact h
  | slaveCron write timeout => exact h
  | readFromMaster env n turns registered =>
    rw [Scripted] at h
    rw [Calm]
    split_ifs at h with hreads
    · rwa [if_pos hreads]
    · rw [if_neg hreads]
      exact ⟨.line (bytes "+OK"), ok_valid rfl, h.trans ok_line⟩
  | accept | slaveRequest | slaveSends => exact absurd h id

/-- A slave that is connected anew, with the offset 0. -/
def sampleLost : Pair Unit where
  master :=
    acceptTcpHandler (acceptTcpHandler (initServer 1 ⟨true, false, false⟩ 2 false) 1 [] 0) 2 [] 0
  slave :=
    { initSlave 2 ⟨false, true, false⟩ 2 false () with
      server := { connectMaster ⟨0, some 3⟩ (initServer 2 ⟨false, true, false⟩ 2 false) with
        offset := 0 }
      repliReads := true
      repliWrites := true }
  toSlave := []
  toMaster := []

theorem sampleLost_resuming : Resuming 0 1 3 sampleLost where
  hosting := by
    have hcreated : ∀ y, sampleLost.master.client y = redisClientCreate [] 0 := fun y => by
      simp only [sampleLost, acceptTcpHandler, modifyClient_client, initServer, ite_self]
    refine ⟨rfl, rfl, by decide, by decide, rfl, by decide, fun y => ?_, fun y => ?_, fun y => ?_,
      by decide, unwatched_iff.mp (by decide)⟩
    · rw [hcreated]
      rfl
    · rw [hcreated]
      rfl
    · rw [hcreated]
      exact fun j _ => getD_zeros _ j
  attached := by
    have hclient : ∀ y, (sampleLost.slave.server.client y).flags.multi = false ∧
        (sampleLost.slave.server.client y).readBuf.len = 0 := fun y => by
      by_cases hy : y = 3
      · rw [hy]
        exact ⟨rfl, rfl⟩
      · have hcreated : sampleLost.slave.server.client y = redisClientCreate [] 0 :=
          (if_neg hy).trans (if_neg hy)
        rw [hcreated]
        exact ⟨rfl, rfl⟩
    exact ⟨rfl, rfl, rfl, rfl, rfl, rfl, rfl, by decide, fun y => (hclient y).1, fun y => (hclient y).2,
      fun j _ => getD_zeros _ j, by decide +kernel, by decide, unwatched_iff.mp (by decide)⟩
  reads := rfl
  writes := rfl
  toSlave := rfl
  toMaster := rfl
  writeBuf := rfl
  silent := rfl
  counted := rfl
  missed := ⟨Backlog.holds_init, Nat.zero_le _, [], nofun, rfl, rfl⟩

/-- The handshake, and the heartbeat. -/
def sampleHandshake (x : ClientId) : List PairStep :=
  [.slaveWrites true, .readFromSlave ⟨0, none⟩ 14, .sendToClient x 7 [] ⟨true, 0, 0, 0⟩,
    .readFromMaster ⟨0, none⟩ 7 1 [true],
    .slaveWrites true, .readFromSlave ⟨0, none⟩ 46, .sendToClient x 5 [] ⟨true, 0, 0, 0⟩,
    .readFromMaster ⟨0, none⟩ 5 1 [true],
    .slaveWrites true, .readFromSlave ⟨0, none⟩ 21, .sendToClient x 40 [] ⟨true, 0, 0, 0⟩,
    .readFromMaster ⟨0, none⟩ 40 3 [true, true],
    .slaveCron none none, .slaveWrites true, .readFromSlave ⟨0, none⟩ 25,
    .sendToClient x 5 [] ⟨true, 0, 0, 0⟩, .readFromMaster ⟨0, none⟩ 5 1 [true]]

/-- A client's SET, and the handshake. -/
def sampleReturn : List PairStep :=
  .request (sampleRead 2 [bytes "SET", bytes "k", bytes "v"]) :: sampleHandshake 1

/-- The requests in them. -/
def sampleRequests : List (List Bytes) :=
  [[bytes "SET", bytes "k", bytes "v"], [bytes "PING"],
    [bytes "REPLCONF", bytes "listen-port", bytes "6379"], [bytes "SYNC", bytes "0"],
    [bytes "REPLACK", bytes "54"]]

theorem sampleRequests_calm (h : Scripted sampleRequests x p e) : Calm x p e := by
  have hall : ∀ q ∈ sampleRequests, q ≠ [] ∧ q.length < 2 ^ 31 ∧ (∀ arg ∈ q, ∀ b ∈ arg, b ≠ 0) ∧
      ∀ arg ∈ q, arg.length < 2 ^ 31 := by decide +kernel
  refine h.calm fun q hq => ?_
  obtain ⟨hne, hargc, hnul, hlen⟩ := hall q hq
  exact ⟨hne, hargc, hnul, hlen⟩

end Fedis.Proof.Pair

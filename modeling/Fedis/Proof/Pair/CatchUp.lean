import Fedis.Proof.Pair.Sending
import Fedis.Proof.Repli.Offset

/-!
# Catching up

What `doAppendSync` makes of a slave: the requests that the buffer holds are executed by a fake
client, each of which does to the first database what the master did (`doAppendSync_applies`).
-/

namespace Fedis.Proof.Pair

open Framework Resp Server Repli

variable {env : Env} {s t : RedisServer} {c fake : ClientId} {q : List Bytes}
  {log : List (List Bytes)} {w : Bytes} {state : ReplState}

/-- What requests make of the databases, all in the first one. -/
def applied (log : List (List Bytes)) (kv : List (DbMap Robj)) : List (DbMap Robj) :=
  log.foldl (fun kv q => kv.modify 0 (written q)) kv

theorem applied_append (log log' : List (List Bytes)) (kv : List (DbMap Robj)) :
    applied (log ++ log') kv = applied log' (applied log kv) := List.foldl_append

/-- A request that a slave is sent. -/
structure Passed (q : List Bytes) : Prop where
  request : Request q
  ordinary : Ordinary q
  write : IsWrite q

theorem Passed.logged (h : Passed q) : Logged q := ⟨h.request, h.write⟩

/-- A slave between two requests of the append-sync buffer, which still holds `w`. -/
structure Syncing (c fake : ClientId) (w : Bytes) (s : RedisServer) : Prop where
  master : s.flags.master = false
  slave : s.flags.slave = true
  ready : FakeReady s fake
  holds : Holds (s.client c).readBuf w
  multi : ∀ y, (s.client y).flags.multi = false
  idle : ∀ y, y ≠ c → (s.client y).readBuf.len = 0
  undated : Undated s
  unwatched : Unwatched s c

/-- One request. -/
theorem Syncing.hand (hs : Syncing c fake w s) (hne : c ≠ fake) (hq : Passed q)
    (h : handTo env fake s q = .ok t) : Syncing c fake w t ∧ Kept s t ∧ t.client c = s.client c ∧
      kvs t.db = (kvs s.db).modify 0 (written q) := by
  obtain ⟨cmd, he, hw⟩ := hq.write
  have hnil := hq.request.ne_nil
  have hfound := fed_found hs.ready he hnil
  have hready := handTo_ready hs.ready he hnil hw h
  have hnot : ¬ (fed s fake q).flags.master = true := by
    rw [show (fed s fake q).flags.master = false from hs.master]
    exact Bool.false_ne_true
  have hfed : ∀ y, ((fed s fake q).client y).flags.multi = false := fun y => by
    by_cases hy : y = fake
    · rw [hy, core_flags (fed_core ..)]
      exact hs.multi fake
    · rw [fed, modifyClient_of_ne _ _ _ hy]
      exact hs.multi y
  have hunwatched : Unwatched (fed s fake q) c := hs.unwatched
  have hother := call_other (s := fed s fake q) (fun e => absurd e hnot) hq.ordinary hunwatched hne h
  have hclient : t.client c = s.client c := by
    rw [hother, if_neg fun hp => hnot hp.2.1, fed, modifyClient_of_ne _ _ _ hne]
  have hfeeds : Kept s (fed s fake q) := ⟨rfl, rfl, rfl, rfl, rfl⟩
  have hcall : Kept (fed s fake q) t := call_kept hq.ordinary h
  have hkept := hfeeds.trans hcall
  obtain ⟨-, -, hbufs⟩ := processCommand_counts (s := fed s fake q) hfound hw hs.slave h
  have hwatch : Unwatched t c := call_unwatched hq.ordinary hunwatched hne h
  have hundated : Undated t := call_undated (s := fed s fake q) hs.undated hq.ordinary h
  have hkvs := call_kvs (s := fed s fake q) hs.undated hq.ordinary hfound h
  rw [core_db (fed_core ..), hs.ready.db] at hkvs
  refine ⟨⟨hkept.flags ▸ hs.master, hkept.flags ▸ hs.slave, hready, hclient ▸ hs.holds, fun y => ?_,
    fun y hy => ?_, hundated, hwatch⟩, hkept, hclient, hkvs⟩
  · exact call_multi hq.ordinary hfed h y
  · by_cases hf : y = fake
    · rw [hf]
      exact hready.readBuf
    · rw [hbufs y hf, fed, modifyClient_of_ne _ _ _ hf]
      exact hs.idle y hy

/-- The bytes of the request are taken off the buffer. -/
theorem Syncing.take {r : Sds} {w' : Bytes} (hs : Syncing c fake w s) (hne : c ≠ fake)
    (hr : Holds r w') :
    Syncing c fake w' (s.modifyClient c fun client => { client with readBuf := r }) := by
  have hfake : (s.modifyClient c fun client => { client with readBuf := r }).client fake =
      s.client fake := modifyClient_of_ne _ _ _ (Ne.symm hne)
  have hready := hs.ready
  refine ⟨hs.master, hs.slave, ⟨?_, ?_, ?_, ?_⟩, ?_, fun y => ?_, fun y hy => ?_, hs.undated,
    hs.unwatched⟩
  · rw [hfake, hready.normal]
  · rw [hfake, hready.multi]
  · rw [hfake, hready.db]
  · rw [hfake, hready.readBuf]
  · rw [modifyClient_self]
    exact hr
  · rw [modifyClient_client]
    split
    all_goals exact hs.multi y
  · rw [modifyClient_of_ne _ _ _ hy]
    exact hs.idle y hy

/-- The loop executes what the buffer holds. -/
theorem appendSync_applies (hne : c ≠ fake) (hlog : ∀ q ∈ log, Passed q) {n : Nat}
    (hs : Syncing c fake (log.flatMap respEncodeArrayString) s)
    (h : appendSyncLoop env c fake n s = .ok t) :
    Syncing c fake [] t ∧ Kept s t ∧ (∃ r, t.client c = { s.client c with readBuf := r }) ∧
      kvs t.db = applied log (kvs s.db) := by
  induction log generalizing n s with
  | nil =>
    cases n with
    | zero => cases h
    | succ n =>
      have hlen := hs.holds.len
      rw [List.flatMap_nil] at hlen
      rw [appendSyncLoop, hlen, partial_nil _ List.nil_prefix] at h
      cases h
      exact ⟨hs, ⟨rfl, rfl, rfl, rfl, rfl⟩, ⟨_, rfl⟩, rfl⟩
  | cons q log ih =>
    cases n with
    | zero => cases h
    | succ n =>
      have hq := hlog q List.mem_cons_self
      have hbuf := hs.holds
      rw [List.flatMap_cons] at hbuf
      obtain ⟨endptr, hparse, -, htake, hrange, htail⟩ := request_front hq.request hbuf
      rw [appendSyncLoop, hparse, ok_bind] at h
      dsimp only at h
      rw [htake] at h
      obtain ⟨u, hu, h⟩ := bind_ok.mp h
      have hhand : handTo env fake s q = .ok u := by
        rw [← query_hands hs.ready hq.request]
        exact hu
      obtain ⟨hs₁, hkept, hclient, hkvs⟩ := hs.hand hne hq hhand
      obtain ⟨u', hu', h⟩ := bind_ok.mp h
      rw [rangeReadBuf, hclient, hrange] at hu'
      cases hu'
      have hs₂ := hs₁.take hne htail
      obtain ⟨hst, hkept', ⟨r, hr⟩, hkvs'⟩ := ih (fun q h => hlog q (List.mem_cons_of_mem _ h)) hs₂ h
      have htakes : Kept u (u.modifyClient c fun client =>
          { client with readBuf := sdsTail (s.client c).readBuf (endptr + 1) }) :=
        ⟨rfl, rfl, rfl, rfl, rfl⟩
      refine ⟨hst, hkept.trans (htakes.trans hkept'), ⟨r, ?_⟩, ?_⟩
      · rw [hr, modifyClient_self, hclient]
      · rw [hkvs']
        show applied log (kvs u.db) = _
        rw [hkvs]
        rfl

/-- `doAppendSync` executes what the buffer `r` of the master's client holds. -/
theorem doAppendSync_applies {r : Sds} {next : ReplState} (hne : c ≠ fake)
    (hlog : ∀ q ∈ log, Passed q) (hs : Attached c state s)
    (hr : Holds r (log.flatMap respEncodeArrayString))
    (h : doAppendSync env c fake { s.modifyClient c (fun client => { client with readBuf := r }) with
      replState := next } = .ok t) :
    Attached c next t ∧ (t.client c).writeBuf = (s.client c).writeBuf ∧
      kvs t.db = applied log (kvs s.db) := by
  set s₁ : RedisServer := { s.modifyClient c (fun client => { client with readBuf := r }) with
    replState := next } with hs₁
  have hself : s₁.client c = { s.client c with readBuf := r } := if_pos rfl
  have hother : ∀ y, y ≠ c → s₁.client y = s.client y := fun y hy => if_neg hy
  obtain ⟨u, hu, h⟩ := bind_ok.mp h
  cases h
  set s₂ := s₁.modifyClient fake fun _ => redisFakeClientCreate with hs₂
  have hc : s₂.client c = { s.client c with readBuf := r } := by
    rw [hs₂, modifyClient_of_ne _ _ _ hne, hself]
  have hnew : ∀ y, y ≠ fake → s₂.client y = s₁.client y := fun y hy => modifyClient_of_ne _ _ _ hy
  have hfake : s₂.client fake = redisFakeClientCreate := modifyClient_self _ _ _
  have hsyncing : Syncing c fake (log.flatMap respEncodeArrayString) s₂ := by
    refine ⟨hs.master, hs.slave, Machine.fakeReady_create s₁ fake, ?_, fun y => ?_, fun y hy => ?_,
      hs.undated, hs.unwatched⟩
    · rw [hc]
      exact hr
    · by_cases hf : y = fake
      · rw [hf, hfake]
        rfl
      · rw [hnew y hf]
        by_cases hy : y = c
        · rw [hy, hself]
          exact hs.multi c
        · rw [hother y hy]
          exact hs.multi y
    · by_cases hf : y = fake
      · rw [hf, hfake]
        rfl
      · rw [hnew y hf, hother y hy]
        exact hs.idle y
  obtain ⟨hst, hkept, ⟨r', hclient⟩, hkvs⟩ := appendSync_applies hne hlog hsyncing hu
  rw [hc] at hclient
  refine ⟨⟨hst.master, hst.slave, hkept.master.trans hs.link, hkept.replState, ?_, ?_, ?_, ?_,
    hst.multi, fun y => ?_, ?_, ?_, hst.undated, hst.unwatched⟩, ?_, hkvs⟩
  case refine_5 =>
    by_cases hy : y = c
    · rw [hy]
      exact hst.holds.len
    · exact hst.idle y hy
  all_goals
    dsimp only [slaveUpdateOffset]
    rw [hclient]
  · exact hs.normal
  · exact hs.db
  · exact hs.toclose
  · exact hs.clientState
  · exact hs.zeroed
  · exact hs.nul

end Fedis.Proof.Pair

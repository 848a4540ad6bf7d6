import Fedis.Impl.Clients
import Fedis.Proof.Server.Reads

/-!
# Clients that are freed

Nothing takes a client out of the watch lists when it is freed. `step_live` is one event,
and `watch_lists_live` every run in which no pass of `closeClients` frees a client that a
watch list names; a pass that does leaves a freed client in the list (`closeClients_breaks`).
-/

namespace Fedis.Proof.Server

open Framework Relation

variable {env : Env} {s s' : RedisServer} {c x : ClientId} {argv : List Bytes} {i : Nat} {k : Bytes}
  {h h' : Host}

/-! ## The references -/

/-- Every reference in a watch list is to a client that has not been freed. -/
def WatchLive (h : Host) : Prop := ∀ i k, ∀ x ∈ watchersAt h.server i k, x ∉ h.freed

theorem small_unwatched (hx : x ≠ c) (h : Small env c s s') (hu : Unwatched s x) :
    Unwatched s' x := by
  cases h with
  | client s f hf => exact hu
  | exec s argv h => exact hu
  | command query s s' argv hne h =>
    intro i k hw
    rcases call_adds hne h hw with hold | hwatch
    · exact hu i k hold
    · exact hx hwatch.1.symm

/-- Only the lists lead to another client's flags. -/
theorem small_flags (hx : x ≠ c) (hconn : env.connect ≠ some x) (h : Small env c s s')
    (hu : Unwatched s x) : (s'.client x).flags = (s.client x).flags := by
  cases h with
  | client s f hf => rw [modifyClient_of_ne _ _ _ hx]
  | exec s argv h => rfl
  | command query s s' argv hne h =>
    rw [core_flags (processCommand_core hne h fun _ _ _ => hconn)]
    unfold clientAfter
    split
    · rfl
    · rw [if_neg (hu _ _), if_neg hx]
      split <;> rfl

/-- A read by another client neither puts a client into a list, nor touches the flags of
one that is in none. -/
theorem read_unwatched {nread : Bytes} (h : readFromClient env s c nread = .ok s') (hx : x ≠ c)
    (hconn : env.connect ≠ some x) (hu : Unwatched s x) :
    Unwatched s' x ∧ (s'.client x).flags = (s.client x).flags :=
  read_invariant (I := fun t => Unwatched t x ∧ (t.client x).flags = (s.client x).flags)
    (fun hstep ht => ⟨small_unwatched hx hstep ht.1, (small_flags hx hconn hstep ht.1).trans ht.2⟩)
    h ⟨hu, rfl⟩

/-! ## A pass of `closeClients` -/

/-- The clients that the next pass frees. -/
def closing (h : Host) : List ClientId :=
  h.clientsToClose ++ h.server.clients.filter fun c => (h.server.client c).flags.toClose

theorem collectToClose_ok (nodes : List ClientId) (h : Host) :
    (collectToClose nodes h).clientsToClose =
        h.clientsToClose ++ nodes.filter (fun c => (h.server.client c).flags.toClose) ∧
      (collectToClose nodes h).freed = h.freed ∧
      (collectToClose nodes h).server.db = h.server.db := by
  induction nodes generalizing h with
  | nil => exact ⟨(List.append_nil _).symm, rfl, rfl⟩
  | cons c nodes ih =>
    rw [collectToClose]
    split
    · rename_i hc
      have hfilter : (c :: nodes).filter (fun c => (h.server.client c).flags.toClose) =
          c :: nodes.filter fun c => (h.server.client c).flags.toClose := List.filter_cons_of_pos hc
      obtain ⟨e, hf, hd⟩ := ih { h with
        clientsToClose := h.clientsToClose ++ [c]
        server := { h.server with clients := h.server.clients.erase c } }
      rw [hfilter]
      exact ⟨by rw [e, List.append_assoc]; rfl, hf, hd⟩
    · rename_i hc
      have hfilter : (c :: nodes).filter (fun c => (h.server.client c).flags.toClose) =
          nodes.filter fun c => (h.server.client c).flags.toClose := List.filter_cons_of_neg hc
      rw [hfilter]
      exact ih h

theorem freeCollected_ok (nodes : List ClientId) (h : Host) :
    (freeCollected nodes h).freed = h.freed ++ nodes ∧ (freeCollected nodes h).server = h.server := by
  induction nodes generalizing h with
  | nil => exact ⟨(List.append_nil _).symm, rfl⟩
  | cons c nodes ih =>
    obtain ⟨e, hs⟩ := ih { freeClient h c with clientsToClose := nodes }
    rw [freeCollected]
    exact ⟨by rw [e, freeClient, List.append_assoc]; rfl, hs⟩

theorem closeClients_ok (h : Host) :
    (closeClients h).freed = h.freed ++ closing h ∧ (closeClients h).server.db = h.server.db := by
  obtain ⟨hc, hf, hd⟩ := collectToClose_ok h.server.clients h
  obtain ⟨hfreed, hserver⟩ :=
    freeCollected_ok (collectToClose h.server.clients h).clientsToClose (collectToClose h.server.clients h)
  exact ⟨by rw [closeClients, hfreed, hf, hc]; rfl, by rw [closeClients, hserver, hd]⟩

theorem watchersAt_db (hd : s'.db = s.db) (i : Nat) (k : Bytes) :
    watchersAt s' i k = watchersAt s i k := by
  rw [watchersAt, hd]
  rfl

/-- A pass that frees a client which a list names leaves the reference behind. -/
theorem closeClients_breaks (hx : x ∈ closing h) (hw : ¬ Unwatched h.server x) :
    ¬ WatchLive (closeClients h) := by
  intro hlive
  obtain ⟨hf, hd⟩ := closeClients_ok h
  refine hw fun i k hmem => hlive i k x (by rwa [watchersAt_db hd]) ?_
  rw [hf]
  exact List.mem_append_right _ hx

/-! ## Runs -/

/-- The pass frees no client that a watch list names. -/
def ClosesUnwatched (h : Host) : HostEvent → Prop
  | .closeClients => ∀ x ∈ closing h, Unwatched h.server x
  | _ => True

instance : ∀ h e, Decidable (ClosesUnwatched h e)
  | _, .closeClients => inferInstanceAs (Decidable (∀ x ∈ _, _))
  | _, .accept .. => instDecidableTrue
  | _, .read _ => instDecidableTrue
  | _, .toClose _ => instDecidableTrue

theorem hostStep_read {r : Read} : hostStep h (.read r) = some ((), h') ↔
    r.client ∉ h.freed ∧ (∀ x ∈ r.env.connect, x ∉ h.freed) ∧
      ∃ s', readFromClient r.env h.server r.client r.nread = .ok s' ∧ h' = { h with server := s' } := by
  rw [hostStep]
  by_cases hgone : r.client ∈ h.freed ∨ ∃ x ∈ r.env.connect, x ∈ h.freed
  · rw [if_pos hgone]
    refine ⟨fun e => (by cases e), fun ⟨hr, hconn, _⟩ => ?_⟩
    obtain hgone | ⟨x, hx, hgone⟩ := hgone
    · exact absurd hgone hr
    · exact absurd hgone (hconn x hx)
  · obtain ⟨hr, hconn⟩ := not_or.mp hgone
    rw [if_neg hgone, Option.map_eq_some_iff]
    constructor
    · rintro ⟨⟨u, s'⟩, hserve, e⟩
      refine ⟨hr, fun x hx hxf => hconn ⟨x, hx, hxf⟩, s', serve_ok.mp hserve, ?_⟩
      exact ((Prod.mk.inj e).2).symm
    · rintro ⟨-, -, s', hread, rfl⟩
      exact ⟨((), s'), serve_ok.mpr hread, rfl⟩

theorem step_live (e : HostEvent) (hl : WatchLive h) (hc : ClosesUnwatched h e)
    (hstep : hostStep h e = some ((), h')) : WatchLive h' := by
  cases e with
  | accept c ip port =>
    rw [hostStep] at hstep
    split at hstep
    · cases hstep
    · cases hstep
      exact hl
  | toClose c =>
    rw [hostStep] at hstep
    split at hstep
    · cases hstep
    · cases hstep
      exact hl
  | read r =>
    obtain ⟨hlive, hconn, s', hread, rfl⟩ := hostStep_read.mp hstep
    intro i k x hw hx
    have hne : x ≠ r.client := fun e => hlive (e ▸ hx)
    exact (read_unwatched hread hne (fun e => hconn x e hx) fun i k hm => hl i k x hm hx).1 i k hw
  | closeClients =>
    cases hstep
    obtain ⟨hf, hd⟩ := closeClients_ok h
    intro i k x hw hx
    rw [watchersAt_db hd] at hw
    rw [hf] at hx
    rcases List.mem_append.mp hx with hx | hx
    · exact hl i k x hw hx
    · exact hc x hx i k hw

/-- **Watch lists name only live clients** in every run in which no client is freed while a
watch list names it; and then no request sets a flag of a client that has been freed. -/
theorem watch_lists_live {h₀ : Host} {events : List HostEvent} {us : List Unit}
    (hstart : WatchLive h₀) (hcond : Along hostStep ClosesUnwatched h₀ events)
    (hrun : run hostStep h₀ events = some (us, h)) :
    WatchLive h ∧ ∀ r h', hostStep h (.read r) = some ((), h') →
      ∀ x ∈ h.freed, (h'.server.client x).flags = (h.server.client x).flags := by
  have hlive : WatchLive h :=
    run_invariant (fun _ e _ _ hl hc hstep => step_live e hl hc hstep) events hstart hcond hrun
  refine ⟨hlive, fun r h' hstep x hx => ?_⟩
  obtain ⟨hr, hconn, s', hread, rfl⟩ := hostStep_read.mp hstep
  have hne : x ≠ r.client := fun e => hr (e ▸ hx)
  exact (read_unwatched hread hne (fun e => hconn x e hx) fun i k hm => hlive i k x hm hx).2

/-- No server starts with a watch, or with a client that has been freed. -/
theorem initServer_live (id : Int) (flags : ServerFlags) (dbnum : Nat) (aofOn : Bool) :
    WatchLive ⟨initServer id flags dbnum aofOn, [], []⟩ := fun _ _ _ _ => List.not_mem_nil

/-- A watch that a write ends before its client is closed. -/
theorem watch_lists_live_five : ∃ us h, run hostStep ⟨initServer 1 ⟨true, false, false⟩ 1 false, [], []⟩
      [.accept 7 (bytes "127.0.0.1") 5000, .read (sampleRead 7 [bytes "WATCH", bytes "k"]),
        .read (sampleRead 7 [bytes "SET", bytes "k", bytes "v"]), .read ⟨⟨0, none⟩, 7, []⟩,
        .closeClients] = some (us, h) ∧ WatchLive h ∧ h.freed = [7] := by
  have hall : (run hostStep ⟨initServer 1 ⟨true, false, false⟩ 1 false, [], []⟩
      [.accept 7 (bytes "127.0.0.1") 5000, .read (sampleRead 7 [bytes "WATCH", bytes "k"]),
        .read (sampleRead 7 [bytes "SET", bytes "k", bytes "v"]), .read ⟨⟨0, none⟩, 7, []⟩,
        .closeClients]).map (·.2.freed) = some [7] := by decide
  obtain ⟨⟨us, h⟩, hrun, hfreed⟩ := Option.map_eq_some_iff.mp hall
  exact ⟨us, h, hrun, (watch_lists_live (initServer_live 1 _ 1 false) (by decide) hrun).1, hfreed⟩

/-- A client that watches a key hangs up and is freed; a later write marks what it was. -/
theorem watch_dangles : ∃ us h h', run hostStep ⟨initServer 1 ⟨true, false, false⟩ 1 false, [], []⟩
      [.accept 7 (bytes "127.0.0.1") 5000, .read (sampleRead 7 [bytes "WATCH", bytes "k"]),
        .read ⟨⟨0, none⟩, 7, []⟩, .closeClients, .accept 8 (bytes "127.0.0.1") 5001] = some (us, h) ∧
    ¬ WatchLive h ∧
    hostStep h (.read (sampleRead 8 [bytes "SET", bytes "k", bytes "v"])) = some ((), h') ∧
    7 ∈ h.freed ∧ (h.server.client 7).flags.dirtyCas = false ∧
      (h'.server.client 7).flags.dirtyCas = true := by
  have hall : (do
      let r ← run hostStep ⟨initServer 1 ⟨true, false, false⟩ 1 false, [], []⟩
        [.accept 7 (bytes "127.0.0.1") 5000, .read (sampleRead 7 [bytes "WATCH", bytes "k"]),
          .read ⟨⟨0, none⟩, 7, []⟩, .closeClients, .accept 8 (bytes "127.0.0.1") 5001]
      let r' ← hostStep r.2 (.read (sampleRead 8 [bytes "SET", bytes "k", bytes "v"]))
      return (watchersAt r.2.server 0 (bytes "k"), r.2.freed, (r.2.server.client 7).flags.dirtyCas,
        (r'.2.server.client 7).flags.dirtyCas)) = some ([7], [7], false, true) := by decide
  obtain ⟨⟨us, h⟩, hrun, hall⟩ := Option.bind_eq_some_iff.mp hall
  obtain ⟨⟨u, h'⟩, hstep, hall⟩ := Option.bind_eq_some_iff.mp hall
  simp only [Option.pure_def, Option.some.injEq, Prod.mk.injEq] at hall
  obtain ⟨hw, hf, hd, hd'⟩ := hall
  refine ⟨us, h, h', hrun, fun hl => ?_, hstep, by simp [hf], hd, hd'⟩
  exact hl 0 (bytes "k") 7 (by simp [hw]) (by simp [hf])

end Fedis.Proof.Server

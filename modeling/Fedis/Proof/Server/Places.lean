import Fedis.Proof.Server.Asserts
import Fedis.Proof.Server.Watch

/-!
# The places of the queue

A client's queue has ten places, and nothing looks whether one is left. `placesUsed` are the
indices into `multcmds` that a request uses. They are below ten, unless the request is queued
behind ten others, or is an EXEC whose queue has a MULTI with something behind it
(`Overfull`): what is behind the MULTI is queued again while EXEC runs.

* `serve_ten`: every client has its ten places, after every read of any bytes;
* `query_places`: a request that returns has used places that are there;
* `places_hands`, `places_requeue`: the places that the loop of EXEC uses;
* `queue_bounded`: runs of requests.
-/

namespace Fedis.Proof.Server

open Framework Resp

variable {query : RedisServer → ClientId → Except Fault RedisServer} {env : Env}
  {s s' t : RedisServer} {c x : ClientId} {q argv : List Bytes} {qs : List (List Bytes)}
  {i depth : Nat}

/-! ## Ten places -/

/-- Every client has ten places. -/
def Ten (s : RedisServer) : Prop := ∀ x, (s.client x).multcmds.length = 10

theorem ten_modify {f : RedisClient → RedisClient} (ht : Ten s)
    (hf : (f (s.client c)).multcmds.length = (s.client c).multcmds.length) :
    Ten (s.modifyClient c f) := fun x => by
  by_cases hx : x = c
  · rw [hx, modifyClient_self, hf]
    exact ht c
  · rw [modifyClient_of_ne _ _ _ hx]
    exact ht x

theorem ten_command (hne : NotExec s c argv) (h : processCommand query env s c argv = .ok s')
    (ht : Ten s) : Ten s' := fun x => by
  by_cases ha : ∀ cmd, foundCommand s c argv = some cmd → Apart env cmd.proc x
  · have hcore := processCommand_core hne h ha
    rw [core_multcmds hcore, (clientAfter_queue x).1]
    exact ht x
  · push Not at ha
    obtain ⟨cmd, hf, ha⟩ := ha
    obtain ⟨hp, hconn⟩ : cmd.proc = .slaveof ∧ env.connect = some x := by
      simpa [Apart] using ha
    obtain ⟨t, hs, rfl⟩ := processCommand_slaveof hf hp h
    obtain ⟨arg, ip, port, rest, -, -, hm, rfl⟩ := commandSlaveofProc_ok.mp hs
    rw [core_multcmds clearReadBuf_core, connectMaster_fresh (by exact hm) hconn]
    rfl

theorem ten_queue (h : queueCommand s c = .ok s') (ht : Ten s) : Ten s' := by
  obtain ⟨cmd, -, rfl⟩ := queueCommand_ok.mp h
  exact ten_modify (ten_modify (ten_modify ht List.length_set) rfl) rfl

theorem ten_loop (hq : ∀ {s s'}, query s c = .ok s' → Ten s → Ten s') {fuel : Nat}
    (h : execLoop query c fuel i s = .ok s') (ht : Ten s) : Ten s' := by
  induction fuel generalizing s i with
  | zero => cases h
  | succ fuel ih =>
    obtain ⟨-, rfl⟩ | ⟨-, cmd, u, -, hu, h⟩ := execLoop_succ.mp h
    · exact ht
    · exact ih h (ten_modify (hq hu (ten_modify ht List.length_set)) (List.length_modify ..))

theorem ten_exec (hq : ∀ {s s'}, query s c = .ok s' → Ten s → Ten s')
    (h : commandExecProc query s c = .ok s') (ht : Ten s) : Ten s' := by
  have start : Ten (execStart s c) := ten_modify ht rfl
  have finish : ∀ {u str}, Ten u → Ten (execFinish u c str) := fun hu =>
    ten_modify (ten_modify hu rfl) rfl
  have h := commandExecProc_ok.mp h
  split at h
  · rw [h]
    exact finish start
  · obtain ⟨u, hu, rfl⟩ := h
    exact finish (ten_loop hq hu start)

theorem ten_query (h : processClientQueryBuf env depth s c = .ok s') (ht : Ten s) : Ten s' := by
  induction depth generalizing s s' with
  | zero => cases h
  | succ depth ih =>
    obtain ⟨-, rfl⟩ | ⟨argv, -, -, ⟨-, h⟩ | ⟨-, h⟩⟩ := processClientQueryBuf_ok.mp h
    · exact ht
    · exact ten_queue h ht
    · by_cases hne : NotExec s c argv
      · exact ten_command hne h ht
      · obtain ⟨t, hx, rfl⟩ := processCommand_exec hne h
        have hlog : Ten (logCall s c argv) := ht
        exact ten_modify (ten_exec (fun hs ht => ih hs ht) hx hlog) rfl

theorem serve_ten {r : Read} {u : Unit} (h : serve s r = some (u, s')) (ht : Ten s) : Ten s' := by
  obtain ⟨-, rfl⟩ | ⟨-, -, t, hs, rfl⟩ := readFromClient_ok.mp (serve_ok.mp h)
  · exact ten_modify ht rfl
  · exact ten_modify (ten_query hs (ten_modify ht rfl)) rfl

/-! ## The places that a request uses -/

/-- The places that the loop of EXEC uses, with those of the requests that it runs. -/
def execPlaces (query : RedisServer → ClientId → Except Fault RedisServer)
    (places : RedisServer → ClientId → List Nat) (c : ClientId) : Nat → Nat → RedisServer → List Nat
  | 0, _, _ => []
  | fuel + 1, i, s =>
    if i < (s.client c).multiCmdCount then
      i :: match (s.client c).multcmds[i]? with
        | none => []
        | some cmd => places (execLoad s c i cmd) c ++
          match query (execLoad s c i cmd) c with
          | .error _ => []
          | .ok u => execPlaces query places c fuel (i + 1) (clearSlot u c i)
    else []

/-- The call is an EXEC that runs its queue. -/
def RunsQueue (s : RedisServer) (c : ClientId) (argv : List Bytes) : Prop :=
  (foundCommand s c argv).map (·.proc) = some .exec ∧ (s.client c).flags.dirtyCas = false

instance (s : RedisServer) (c : ClientId) (argv : List Bytes) : Decidable (RunsQueue s c argv) :=
  instDecidableAnd

instance (s : RedisServer) (c : ClientId) (argv : List Bytes) : Decidable (Queues s c argv) :=
  instDecidableAnd

/-- The indices into `multcmds` that `processClientQueryBuf` uses: that of the free place when
it queues the request, and those of the loop when it runs EXEC. -/
def placesUsed (env : Env) : Nat → RedisServer → ClientId → List Nat
  | 0, _, _ => []
  | depth + 1, s, c =>
    match respDecode (sdsdump (s.client c).readBuf).buf with
    | .ok argv =>
      if Queues s c argv then [(s.client c).multiCmdCount]
      else if RunsQueue s c argv then
        execPlaces (processClientQueryBuf env depth) (placesUsed env depth) c
          ((s.client c).multcmds.length + 1) 0 (execStart (logCall s c argv) c)
      else []
    | _ => []

theorem not_runsQueue (hn : NotExec s c q) : ¬ RunsQueue s c q := by
  rintro ⟨h, -⟩
  obtain ⟨cmd, hf, hp⟩ := Option.map_eq_some_iff.mp h
  exact hn cmd hf hp

/-- A loop that returns has used places that are there. -/
theorem loop_places {places : RedisServer → ClientId → List Nat}
    (hq : ∀ {s s'}, query s c = .ok s' → Ten s → Ten s' ∧ ∀ j ∈ places s c, j < 10) {fuel : Nat}
    (h : execLoop query c fuel i s = .ok s') (ht : Ten s) :
    ∀ j ∈ execPlaces query places c fuel i s, j < 10 := by
  induction fuel generalizing s i with
  | zero => cases h
  | succ fuel ih =>
    obtain ⟨hi, -⟩ | ⟨hi, cmd, u, hcmd, hu, h⟩ := execLoop_succ.mp h
    · rw [execPlaces, if_neg hi]
      exact nofun
    · obtain ⟨htu, hplaces⟩ := hq hu (ten_modify ht List.length_set)
      have htc : Ten (clearSlot u c i) := ten_modify htu (List.length_modify ..)
      rw [execPlaces, if_pos hi, hcmd]
      simp only [hu]
      intro j hj
      obtain rfl | hj := List.mem_cons.mp hj
      · rw [← ht c]
        exact (List.getElem?_eq_some_iff.mp hcmd).1
      · exact (List.mem_append.mp hj).elim (hplaces j) (ih h htc j)

/-- A request that returns, whatever its bytes, has used places that are there. -/
theorem query_places (h : processClientQueryBuf env depth s c = .ok s') (ht : Ten s) :
    ∀ j ∈ placesUsed env depth s c, j < 10 := by
  induction depth generalizing s s' with
  | zero => cases h
  | succ depth ih =>
    obtain ⟨hdec, -⟩ | ⟨argv, hdec, -, ⟨hqs, h⟩ | ⟨hqs, h⟩⟩ := processClientQueryBuf_ok.mp h
    · simp only [placesUsed, hdec]
      exact nofun
    · obtain ⟨cmd, hcmd, -⟩ := queueCommand_ok.mp h
      simp only [placesUsed, hdec, if_pos hqs, List.mem_singleton]
      rintro j rfl
      rw [← ht c]
      exact (List.getElem?_eq_some_iff.mp hcmd).1
    · simp only [placesUsed, hdec, if_neg hqs]
      by_cases hx : RunsQueue s c argv
      · obtain ⟨t, he, -⟩ := processCommand_exec (fun hn => not_runsQueue hn hx) h
        have he := commandExecProc_ok.mp he
        rw [if_neg (show ¬ ((logCall s c argv).client c).flags.dirtyCas = true by
          rw [show ((logCall s c argv).client c).flags.dirtyCas = false from hx.2]; decide)] at he
        obtain ⟨u, hu, -⟩ := he
        rw [if_pos hx]
        exact loop_places (fun hs ht => ⟨ten_query hs ht, ih hs ht⟩) hu
          (ten_modify (s := logCall s c argv) ht rfl)
      · rw [if_neg hx]
        exact nofun

section Query

variable (hr : Request q) (hc : (s.client c).readBuf.content = respEncodeArrayString q)
include hr hc

theorem placesUsed_queues (hq : Queues s c q) :
    placesUsed env (depth + 1) s c = [(s.client c).multiCmdCount] := by
  simp only [placesUsed, query_decodes hr hc, if_pos hq]

theorem placesUsed_exec (hq : ¬ Queues s c q) (hx : RunsQueue s c q) :
    placesUsed env (depth + 1) s c =
      execPlaces (processClientQueryBuf env depth) (placesUsed env depth) c
        ((s.client c).multcmds.length + 1) 0 (execStart (logCall s c q) c) := by
  simp only [placesUsed, query_decodes hr hc, if_neg hq, if_pos hx]

theorem placesUsed_other (hq : ¬ Queues s c q) (hx : ¬ RunsQueue s c q) :
    placesUsed env (depth + 1) s c = [] := by
  simp only [placesUsed, query_decodes hr hc, if_neg hq, if_neg hx]

end Query

/-- If no queued request but the last is MULTI, the loop uses the places of the queue. -/
theorem places_hands (hconn : env.connect ≠ some c) {fuel : Nat}
    (hs : Slots (s.client c) i qs) (hq : ∀ q ∈ qs, Request q ∧ Accepted q)
    (hm : ∀ q ∈ qs.dropLast, ¬ IsMulti q)
    (hmulti : qs = [] ∨ (s.client c).flags.multi = false) :
    ∀ j ∈ execPlaces (processClientQueryBuf env (depth + 1)) (placesUsed env (depth + 1)) c fuel i s,
      j < (s.client c).multiCmdCount := by
  induction qs generalizing s i fuel with
  | nil =>
    cases fuel with
    | zero => exact nofun
    | succ fuel =>
      have hcount : ¬ i < (s.client c).multiCmdCount := by rw [hs.1, List.length_nil]; omega
      rw [execPlaces, if_neg hcount]
      exact nofun
  | cons q qs ih =>
    cases fuel with
    | zero => exact nofun
    | succ fuel =>
      obtain ⟨hi, cmd, hcmd, hcontent⟩ := hs.head
      obtain ⟨hr, ha⟩ := hq q List.mem_cons_self
      have hoff : (s.client c).flags.multi = false := hmulti.resolve_left (by simp)
      have hload : ((execLoad s c i cmd).client c).readBuf.content = respEncodeArrayString q := by
        rw [execLoad_content, hcontent]
      have hnq : ¬ Queues (execLoad s c i cmd) c q := by
        rw [queues_iff ha, execLoad, modifyClient_self]
        simp [hoff]
      rw [execPlaces, if_pos hi, hcmd]
      simp only [placesUsed_other hr hload hnq (not_runsQueue (notExec_of_accepted ha)), List.nil_append,
        query_calls hr hload hnq]
      intro j hj
      obtain rfl | hj := List.mem_cons.mp hj
      · exact hi
      · cases hu : processCommand (processClientQueryBuf env depth) env (execLoad s c i cmd) c q with
        | error e =>
          rw [hu] at hj
          cases hj
        | ok u =>
          rw [hu] at hj
          have hslots := (hand_slots hconn ha hs (hand_ok.mpr ⟨cmd, u, hcmd, hu, rfl⟩)).1
          have hcount : ((clearSlot u c i).client c).multiCmdCount = (s.client c).multiCmdCount := by
            rw [hslots.1, hs.1, List.length_cons]
            omega
          rw [← hcount]
          refine ih hslots (fun q' h' => hq q' (List.mem_cons_of_mem _ h')) (fun q' h' => ?_) ?_ j hj
          · cases qs with
            | nil => cases h'
            | cons q'' qs =>
              exact hm q' (by rw [List.dropLast_cons_cons]; exact List.mem_cons_of_mem _ h')
          · cases qs with
            | nil => exact .inl rfl
            | cons q'' qs =>
              right
              rw [clearSlot, modifyClient_self]
              show (u.client c).flags.multi = false
              rw [(processCommand_queue hconn ha hu).2.2]
              refine clientAfter_multi (hm q (by simp)) ?_
              rw [execLoad, modifyClient_self]
              exact hoff

/-- While the client collects a transaction, the loop queues what it should run, until it uses
a place behind the last. -/
theorem places_requeue {fuel : Nat} (ht : Ten s) (hmulti : (s.client c).flags.multi = true)
    (hi : i < (s.client c).multiCmdCount) (hle : (s.client c).multiCmdCount ≤ 10)
    (hfuel : 10 < fuel + (s.client c).multiCmdCount)
    (hs : ∀ j, i ≤ j → j < (s.client c).multiCmdCount → ∃ cmd q,
      (s.client c).multcmds[j]? = some cmd ∧ cmd.content = respEncodeArrayString q ∧
        Request q ∧ Accepted q) :
    10 ∈ execPlaces (processClientQueryBuf env (depth + 1)) (placesUsed env (depth + 1)) c fuel i s := by
  induction fuel generalizing s i with
  | zero => exact absurd hfuel (by omega)
  | succ fuel ih =>
    obtain ⟨cmd, q, hcmd, hcontent, hr, ha⟩ := hs i (Nat.le_refl i) hi
    have hload : ((execLoad s c i cmd).client c).readBuf.content = respEncodeArrayString q := by
      rw [execLoad_content, hcontent]
    have hqs : Queues (execLoad s c i cmd) c q := by
      rw [queues_iff ha, execLoad, modifyClient_self]
      exact hmulti
    have hcount : ((execLoad s c i cmd).client c).multiCmdCount = (s.client c).multiCmdCount := by
      rw [execLoad, modifyClient_self]
    rw [execPlaces, if_pos hi, hcmd]
    simp only [placesUsed_queues hr hload hqs, query_queues hr hload hqs, hcount]
    refine List.mem_cons_of_mem _ (List.mem_append.mpr ?_)
    obtain heq | hlt := Nat.eq_or_lt_of_le hle
    · exact .inl (List.mem_singleton.mpr heq.symm)
    · right
      have hload10 : Ten (execLoad s c i cmd) := ten_modify ht List.length_set
      obtain ⟨free, hfree⟩ : ∃ free, ((execLoad s c i cmd).client c).multcmds[
          ((execLoad s c i cmd).client c).multiCmdCount]? = some free :=
        ⟨_, List.getElem?_eq_getElem (by rw [hcount, hload10 c]; exact hlt)⟩
      have hu := queueCommand_ok.mpr ⟨free, hfree, rfl⟩
      rw [hu]
      have hnew : (sdscatsds (sdsclear free) ((execLoad s c i cmd).client c).readBuf).1.content =
          respEncodeArrayString q :=
        (content_sdscatlen _ _).trans (by rw [content_sdsclear, List.nil_append, hload])
      have ht' := ten_modify (c := c) (f := fun client =>
        { client with multcmds := client.multcmds.modify i sdsclear }) (ten_queue hu hload10)
          (List.length_modify ..)
      refine ih (s := clearSlot _ c i) (i := i + 1) ht' ?_ ?_ ?_ ?_ ?_
      · simpa [clearSlot, clearReadBuf, addWrite, execLoad] using hmulti
      · simp [clearSlot, clearReadBuf, addWrite, execLoad]
        omega
      · simp [clearSlot, clearReadBuf, addWrite, execLoad]
        omega
      · simp [clearSlot, clearReadBuf, addWrite, execLoad]
        omega
      · intro j hij hj
        simp only [clearSlot, clearReadBuf, addWrite, execLoad, modifyClient_self] at hj hfree hnew ⊢
        have hlen := ht c
        rw [List.getElem?_modify_ne _ _ (by omega)]
        by_cases hjc : j = (s.client c).multiCmdCount
        · subst hjc
          exact ⟨_, q, List.getElem?_set_self (by rw [List.length_set, hlen]; omega), hnew, hr, ha⟩
        · rw [List.getElem?_set_ne (Ne.symm hjc), List.getElem?_set_ne (by omega)]
          exact hs j (by omega) (by omega)

/-- Once the loop has run a MULTI with a request behind it, it uses a place behind the last. -/
theorem places_overrun (hconn : env.connect ≠ some c) {pre post : List (List Bytes)}
    {m q : List Bytes} {fuel : Nat} (ht : Ten s)
    (hs : Slots (s.client c) i (pre ++ m :: q :: post))
    (hq : ∀ q' ∈ pre ++ m :: q :: post, Request q' ∧ Accepted q')
    (hpre : ∀ q' ∈ pre, ¬ IsMulti q') (hm : IsMulti m) (hmulti : (s.client c).flags.multi = false)
    (hle : (s.client c).multiCmdCount ≤ 10) (hfuel : 10 < fuel + i)
    (hrun : handAll env depth c i (pre ++ [m]) s = .ok t) :
    10 ∈ execPlaces (processClientQueryBuf env (depth + 1)) (placesUsed env (depth + 1)) c fuel i s := by
  -- one request of the prefix is run
  have round : ∀ {s : RedisServer} {i : Nat} {q' : List Bytes} {rest : List (List Bytes)},
      Ten s → Slots (s.client c) i (q' :: rest) → Request q' → Accepted q' →
      (s.client c).flags.multi = false → ∀ {u}, hand env depth c i q' s = .ok u →
      Ten u ∧ Slots (u.client c) (i + 1) rest ∧
        (u.client c).multiCmdCount = (s.client c).multiCmdCount ∧
        (IsMulti q' → (u.client c).flags.multi = true) ∧
        (¬ IsMulti q' → (u.client c).flags.multi = false) ∧
        ∀ {fuel}, 10 ∈ execPlaces (processClientQueryBuf env (depth + 1))
            (placesUsed env (depth + 1)) c fuel (i + 1) u →
          10 ∈ execPlaces (processClientQueryBuf env (depth + 1)) (placesUsed env (depth + 1)) c
            (fuel + 1) i s := by
    intro s i q' rest ht hs hr ha hoff u hu
    have hslots := (hand_slots hconn ha hs hu).1
    obtain ⟨hi, cmd', hcmd', hcontent⟩ := hs.head
    obtain ⟨cmd, v, hcmd, hv, rfl⟩ := hand_ok.mp hu
    obtain rfl : cmd' = cmd := Option.some.inj (hcmd'.symm.trans hcmd)
    have hload : ((execLoad s c i cmd').client c).readBuf.content = respEncodeArrayString q' := by
      rw [execLoad_content, hcontent]
    have hoff' : ((execLoad s c i cmd').client c).flags.multi = false := by
      rw [execLoad, modifyClient_self]
      exact hoff
    have hnq : ¬ Queues (execLoad s c i cmd') c q' := by
      rw [queues_iff ha, hoff']
      simp
    have hflag : ((clearSlot v c i).client c).flags.multi =
        (clientAfter (execLoad s c i cmd') c q' c).flags.multi := by
      rw [clearSlot, modifyClient_self]
      exact (processCommand_queue hconn ha hv).2.2
    refine ⟨?_, hslots, by rw [hslots.1, hs.1, List.length_cons]; omega, fun hm => ?_,
      fun hm => by rw [hflag]; exact clientAfter_multi hm hoff', fun {fuel} hmem => ?_⟩
    · exact ten_modify (ten_command (notExec_of_accepted ha) hv (ten_modify ht List.length_set))
        (List.length_modify ..)
    · rw [hflag]
      simp [clientAfter, found_multi hr hm, multiEntry, clientEffect]
    · rw [execPlaces, if_pos hi, hcmd]
      simp only [query_calls hr hload hnq, hv]
      exact List.mem_cons_of_mem _ (List.mem_append_right _ hmem)
  induction pre generalizing s i fuel with
  | nil =>
    obtain ⟨u, hu, -⟩ := bind_ok.mp hrun
    obtain ⟨hr, ha⟩ := hq m List.mem_cons_self
    have hi := hs.head.1
    obtain ⟨fuel, rfl⟩ : ∃ n, fuel = n + 1 := ⟨fuel - 1, by omega⟩
    obtain ⟨htu, hslots, hcount, hon, -, hmem⟩ := round ht hs hr ha hmulti hu
    have hlen := hs.1
    rw [List.nil_append, List.length_cons, List.length_cons] at hlen
    refine hmem (places_requeue htu (hon hm) ?_ (by omega) (by omega) fun j hij hj => ?_)
    · rw [hcount]
      omega
    · exact hslots.request (fun q' h' => hq q' (List.mem_cons_of_mem _ h')) hij hj
  | cons q' pre ih =>
    obtain ⟨u, hu, hrest⟩ := bind_ok.mp hrun
    obtain ⟨hr, ha⟩ := hq q' List.mem_cons_self
    have hi := hs.head.1
    obtain ⟨fuel, rfl⟩ : ∃ n, fuel = n + 1 := ⟨fuel - 1, by omega⟩
    obtain ⟨htu, hslots, hcount, -, hoff, hmem⟩ := round ht hs hr ha hmulti hu
    exact hmem (ih htu hslots (fun q'' h'' => hq q'' (List.mem_cons_of_mem _ h''))
      (fun q'' h'' => hpre q'' (List.mem_cons_of_mem _ h'')) (hoff (hpre q' List.mem_cons_self))
      (by omega) (by omega) hrest)

/-! ## Requests -/

/-- The request is queued behind ten others, or it runs a queue of which a request that is not
the last is MULTI. -/
def Overfull (s : RedisServer) (c : ClientId) (argv : List Bytes) (qs : List (List Bytes)) : Prop :=
  (Queues s c argv ∧ (s.client c).multiCmdCount = 10) ∨
    (¬ Queues s c argv ∧ RunsQueue s c argv ∧ ∃ q ∈ qs.dropLast, IsMulti q)

/-- The requests of the queue up to the first MULTI run. -/
def RunsToMulti (env : Env) (s : RedisServer) (c : ClientId) (qs : List (List Bytes)) : Prop :=
  ∀ pre m post, qs = pre ++ m :: post → (∀ q ∈ pre, ¬ IsMulti q) → IsMulti m →
    ∃ t, handAll env 10 c 0 (pre ++ [m]) s = .ok t

theorem Queued.count_eq (h : Queued s c qs) : (s.client c).multiCmdCount = qs.length := by
  rw [h.slots.1, Nat.zero_add]

theorem Queued.count_le (h : Queued s c qs) (ht : Ten s) : (s.client c).multiCmdCount ≤ 10 := by
  rw [h.count_eq, ← ht c]
  exact h.length_le

/-- A MULTI before the end of a queue, and what is before and behind the first one. -/
theorem first_multi (h : ∃ q ∈ qs.dropLast, IsMulti q) : ∃ pre m q post,
    qs = pre ++ m :: q :: post ∧ (∀ q' ∈ pre, ¬ IsMulti q') ∧ IsMulti m := by
  induction qs with
  | nil =>
    obtain ⟨q, hq, -⟩ := h
    cases hq
  | cons q' qs ih =>
    obtain ⟨q, hq, hm⟩ := h
    cases qs with
    | nil => cases hq
    | cons q'' qs =>
      by_cases hq' : IsMulti q'
      · exact ⟨[], q', q'', qs, rfl, nofun, hq'⟩
      · rw [List.dropLast_cons_cons] at hq
        obtain rfl | hq := List.mem_cons.mp hq
        · exact absurd hm hq'
        · obtain ⟨pre, m, r, post, e, hpre, hm'⟩ := ih ⟨q, hq, hm⟩
          exact ⟨q' :: pre, m, r, post, by rw [e]; rfl, List.forall_mem_cons.mpr ⟨hq', hpre⟩, hm'⟩

section Request

variable (hconn : env.connect ≠ some c) (hq : Queued s c qs) (ht : Ten s) (hr : Request argv)
  (hc : (s.client c).readBuf.content = respEncodeArrayString argv)
include hconn hq ht hr hc

theorem request_places (h : ¬ Overfull s c argv qs) : ∀ j ∈ placesUsed env execDepth s c, j < 10 := by
  have hle := hq.count_le ht
  by_cases hqs : Queues s c argv
  · have hne : (s.client c).multiCmdCount ≠ 10 := fun e => h (.inl ⟨hqs, e⟩)
    rw [execDepth, placesUsed_queues hr hc hqs]
    intro j hj
    rw [List.mem_singleton.mp hj]
    omega
  · by_cases hx : RunsQueue s c argv
    · rw [execDepth, placesUsed_exec hr hc hqs hx]
      intro j hj
      have hslots : Slots ((execStart (logCall s c argv) c).client c) 0 qs := by
        rw [execStart, modifyClient_self]
        exact hq.slots
      refine Nat.lt_of_lt_of_le (places_hands hconn hslots hq.requests
        (fun q hmem hm => h (.inr ⟨hqs, hx, q, hmem, hm⟩)) (.inr ?_) j hj) ?_
      · rw [execStart, modifyClient_self]
        rfl
      · rw [execStart, modifyClient_self]
        exact hle
    · rw [execDepth, placesUsed_other hr hc hqs hx]
      exact List.forall_mem_nil _

theorem request_overruns (h : Overfull s c argv qs)
    (hrun : RunsQueue s c argv → RunsToMulti env (execStart (logCall s c argv) c) c qs) :
    10 ∈ placesUsed env execDepth s c := by
  obtain ⟨hqs, e⟩ | ⟨hqs, hx, hm⟩ := h
  · rw [execDepth, placesUsed_queues hr hc hqs, e]
    exact List.mem_singleton_self 10
  · obtain ⟨pre, m, q, post, rfl, hpre, hmulti⟩ := first_multi hm
    obtain ⟨t, hrun⟩ := hrun hx pre m (q :: post) rfl hpre hmulti
    rw [execDepth, placesUsed_exec hr hc hqs hx]
    refine places_overrun hconn (ten_modify (s := logCall s c argv) ht rfl) ?_ hq.requests hpre hmulti
      ?_ ?_ ?_ hrun
    · rw [execStart, modifyClient_self]
      exact hq.slots
    · rw [execStart, modifyClient_self]
      rfl
    · rw [execStart, modifyClient_self]
      exact hq.count_le ht
    · rw [ht c]
      omega

end Request

/-- **The queue stays in its places**, after every run of whole requests: no counter is above
ten, and the next request uses places below ten unless it makes the queue overfull; if it
does, and what EXEC runs before the MULTI does not fail, it uses place ten. -/
theorem queue_bounded (id : Int) (flags : ServerFlags) (dbnum : Nat) (aofOn : Bool)
    {reads : List Read} {us : List Unit} (hreads : ∀ r ∈ reads, WellFormed r)
    (hrun : run serve (initServer id flags dbnum aofOn) reads = some (us, s)) :
    (∀ x, (s.client x).multiCmdCount ≤ 10) ∧
      ∀ env c argv, env.connect ≠ some c → Request argv →
        (respEncodeArrayString argv).length < 1024 → ∃ qs, Queued s c qs ∧
          (¬ Overfull s c argv qs → ∀ j ∈ placesUsed env execDepth
            (received s c (respEncodeArrayString argv)) c, j < 10) ∧
          (Overfull s c argv qs →
            (RunsQueue s c argv → RunsToMulti env (execStart (logCall
              (received s c (respEncodeArrayString argv)) c argv) c) c qs) →
            10 ∈ placesUsed env execDepth (received s c (respEncodeArrayString argv)) c) := by
  obtain ⟨hidle, hqueues, ht⟩ : Idle s ∧ (∀ x, ∃ qs, Queued s x qs) ∧ Ten s := by
    refine run_invariant (I := fun s => Idle s ∧ (∀ x, ∃ qs, Queued s x qs) ∧ Ten s)
      (P := fun _ r => WellFormed r) ?_ reads
      ⟨fun _ => rfl, fun x => ⟨[], queued_nil rfl⟩, fun _ => rfl⟩
      (along_of_forall fun r h _ => hreads r h) hrun
    rintro s r u s' ⟨hi, hq, ht⟩ hr h
    exact ⟨readFromClient_idle (serve_ok.mp h) hi, serve_queued hr hi hq h, serve_ten h ht⟩
  refine ⟨fun x => ?_, fun env c argv hconn hr hlen => ?_⟩
  · obtain ⟨qs, hq⟩ := hqueues x
    exact hq.count_le ht
  · obtain ⟨qs, hq⟩ := hqueues c
    have hclient := received_client s c (respEncodeArrayString argv)
    have hqr : Queued (received s c (respEncodeArrayString argv)) c qs :=
      hq.congr (by rw [hclient]) (by rw [hclient])
    have hcr : ((received s c (respEncodeArrayString argv)).client c).readBuf.content =
        respEncodeArrayString argv := by
      rw [received_content (hidle c), cstr_eq_self (encode_ne_zero argv)]
    have htr : Ten (received s c (respEncodeArrayString argv)) := ten_modify ht rfl
    have hruns : RunsQueue (received s c (respEncodeArrayString argv)) c argv ↔ RunsQueue s c argv := by
      rw [RunsQueue, RunsQueue, foundCommand_received, hclient]
    have hover : Overfull (received s c (respEncodeArrayString argv)) c argv qs ↔
        Overfull s c argv qs := by
      rw [Overfull, Overfull, hruns, Queues, Queues, hclient]
    refine ⟨qs, hq, fun h => request_places hconn hqr htr hr hcr (fun h' => h (hover.mp h')),
      fun h hrun => request_overruns hconn hqr htr hr hcr (hover.mpr h) fun hx => hrun (hruns.mp hx)⟩

/-- A transaction of two requests is run. -/
theorem queue_bounded_two : ∃ us s, run serve (initServer 1 ⟨true, false, false⟩ 1 false)
      [sampleRead 7 [bytes "MULTI"], sampleRead 7 [bytes "PING"], sampleRead 7 [bytes "INFO"]] =
        some (us, s) ∧ (∀ x, (s.client x).multiCmdCount ≤ 10) ∧
    ∃ qs, Queued s 7 qs ∧ (¬ Overfull s 7 [bytes "EXEC"] qs →
      ∀ j ∈ placesUsed ⟨0, none⟩ execDepth
        (received s 7 (respEncodeArrayString [bytes "EXEC"])) 7, j < 10) := by
  have hall : (run serve (initServer 1 ⟨true, false, false⟩ 1 false)
      [sampleRead 7 [bytes "MULTI"], sampleRead 7 [bytes "PING"], sampleRead 7 [bytes "INFO"]]).isSome := by
    decide
  obtain ⟨⟨us, s⟩, hrun⟩ := Option.isSome_iff_exists.mp hall
  have hreads : ∀ r ∈ [sampleRead 7 [bytes "MULTI"], sampleRead 7 [bytes "PING"],
      sampleRead 7 [bytes "INFO"]], WellFormed r := by
    intro r hr
    obtain rfl | rfl | rfl : r = _ ∨ r = _ ∨ r = _ := by simpa using hr
    · exact wellFormed_sampleRead ⟨by decide, by decide, by decide +kernel, by decide⟩ (by decide) 7
    · exact wellFormed_sampleRead ⟨by decide, by decide, by decide +kernel, by decide⟩ (by decide) 7
    · exact wellFormed_sampleRead ⟨by decide, by decide, by decide +kernel, by decide⟩ (by decide) 7
  obtain ⟨hle, hreq⟩ := queue_bounded 1 ⟨true, false, false⟩ 1 false hreads hrun
  obtain ⟨qs, hq, hplaces, -⟩ := hreq ⟨0, none⟩ 7 [bytes "EXEC"] (by decide)
    ⟨by decide, by decide, by decide +kernel, by decide⟩ (by decide)
  exact ⟨us, s, hrun, hle, qs, hq, hplaces⟩

/-- The eleventh request of a transaction, and an EXEC of a queue in which a GET follows a
MULTI, use place ten. -/
theorem queue_uses_ten :
    (∃ us s, run serve (initServer 1 ⟨true, false, false⟩ 1 false)
      (sampleRead 7 [bytes "MULTI"] :: List.replicate 10 (sampleRead 7 [bytes "PING"])) =
        some (us, s) ∧
      10 ∈ placesUsed ⟨0, none⟩ execDepth (received s 7 (respEncodeArrayString [bytes "PING"])) 7) ∧
    ∃ us s, run serve (initServer 1 ⟨true, false, false⟩ 1 false)
      [sampleRead 7 [bytes "MULTI"], sampleRead 7 [bytes "MULTI"], sampleRead 7 [bytes "PING"]] =
        some (us, s) ∧
      10 ∈ placesUsed ⟨0, none⟩ execDepth (received s 7 (respEncodeArrayString [bytes "EXEC"])) 7 := by
  have queued : (run serve (initServer 1 ⟨true, false, false⟩ 1 false)
      (sampleRead 7 [bytes "MULTI"] :: List.replicate 10 (sampleRead 7 [bytes "PING"]))).map
        (fun r => decide (10 ∈ placesUsed ⟨0, none⟩ execDepth
          (received r.2 7 (respEncodeArrayString [bytes "PING"])) 7)) = some true := by decide
  have requeued : (run serve (initServer 1 ⟨true, false, false⟩ 1 false)
      [sampleRead 7 [bytes "MULTI"], sampleRead 7 [bytes "MULTI"], sampleRead 7 [bytes "PING"]]).map
        (fun r => decide (10 ∈ placesUsed ⟨0, none⟩ execDepth
          (received r.2 7 (respEncodeArrayString [bytes "EXEC"])) 7)) = some true := by decide
  obtain ⟨⟨us, s⟩, h, e⟩ := Option.map_eq_some_iff.mp queued
  obtain ⟨⟨us', s'⟩, h', e'⟩ := Option.map_eq_some_iff.mp requeued
  exact ⟨⟨us, s, h, of_decide_eq_true e⟩, us', s', h', of_decide_eq_true e'⟩

end Fedis.Proof.Server

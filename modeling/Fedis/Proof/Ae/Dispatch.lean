import Fedis.Proof.Ae
import Fedis.Spec.Dispatch

/-!
# The loop calls the handlers that are registered

Whatever handlers do to the loop, every turn of it stays in `events` and calls no `NULL`: for a
descriptor that epoll has told to be ready, the handlers which it has at its turn, each with
the data of its last registration (`loop_dispatches`). The invariant is `Tracks`: the masks,
handlers and data of the loop are those that the log tells of.
-/

namespace Fedis.Proof.Ae

open Framework

variable {P D : Type} {loop loop' : AeEventLoop P D} {log more : List (AeLog P D)} {fd : Int}
  {call : AeCall P D} {code : Int} {write : Bool}

/-! ## Logs -/

theorem registeredProc_returned (fd : Int) (write : Bool) (log : List (AeLog P D)) (call : AeCall P D)
    (code : Int) : registeredProc fd write (log ++ [.returned call code]) =
      match call with
      | .create _ x mask p _ =>
        if x = fd ∧ code = AE_OK ∧ mask.has write then some p else registeredProc fd write log
      | .delete x mask =>
        if x = fd ∧ code = AE_OK ∧ mask.has write then none else registeredProc fd write log := by
  rw [registeredProc, List.foldl_append]
  cases call <;> rfl

theorem registeredData_returned (fd : Int) (log : List (AeLog P D)) (call : AeCall P D) (code : Int) :
    registeredData fd (log ++ [.returned call code]) =
      match call with
      | .create _ x _ _ d => if x = fd ∧ code = AE_OK then d else registeredData fd log
      | .delete _ _ => registeredData fd log := by
  rw [registeredData, List.foldl_append]
  cases call <;> rfl

theorem registeredProc_handler (fd : Int) (write : Bool) (log : List (AeLog P D)) (x : Int) (w : Bool)
    (p : P) (d : Option D) :
    registeredProc fd write (log ++ [.handler x w p d]) = registeredProc fd write log := by
  rw [registeredProc, List.foldl_append]
  rfl

theorem registeredData_handler (fd : Int) (log : List (AeLog P D)) (x : Int) (w : Bool) (p : P)
    (d : Option D) : registeredData fd (log ++ [.handler x w p d]) = registeredData fd log := by
  rw [registeredData, List.foldl_append]
  rfl

/-! ## Masks and handlers -/

theorem has_or (m n : AeMask) (write : Bool) : (m.or n).has write = (m.has write || n.has write) := by
  cases write <;> rfl

theorem has_andNot (m n : AeMask) (write : Bool) :
    (m.andNot n).has write = (m.has write && !n.has write) := by
  cases write <;> rfl

theorem has_none (write : Bool) : AE_NONE.has write = false := by
  cases write <;> rfl

/-- The handler that an entry of `events` has, if it may be called. -/
def procOf (fe : AeFileEvent P D) (write : Bool) : Option P :=
  if fe.mask.has write then fe.proc write else none

/-- An entry after a registration. -/
theorem procOf_created (fe : AeFileEvent P D) (mask : AeMask) (proc : P) (data : Option D) (write : Bool) :
    procOf { mask := fe.mask.or mask
             rfileProc := if mask.readable then some proc else fe.rfileProc
             wfileProc := if mask.writable then some proc else fe.wfileProc
             data := data } write = if mask.has write then some proc else procOf fe write := by
  rw [procOf, procOf, has_or]
  by_cases hm : mask.has write = true
  · cases write <;> simp_all [AeFileEvent.proc, AeMask.has]
  · cases write <;> simp_all [AeFileEvent.proc, AeMask.has]

theorem procOf_deleted (fe : AeFileEvent P D) (mask : AeMask) (write : Bool) :
    procOf { fe with mask := fe.mask.andNot mask } write =
      if mask.has write then none else procOf fe write := by
  rw [procOf, procOf, has_andNot]
  by_cases hm : mask.has write = true
  · simp [hm]
  · simp [hm, AeFileEvent.proc]

/-- The loop is what the log tells. -/
structure Tracks (loop : AeEventLoop P D) (log : List (AeLog P D)) : Prop where
  known : Known loop
  proc : ∀ fd fe, 0 ≤ fd → loop.events[fd.toNat]? = some fe → ∀ write,
    procOf fe write = registeredProc fd write log
  set : ∀ fe ∈ loop.events, ∀ write, fe.mask.has write = true → (fe.proc write).isSome
  data : ∀ fd fe, 0 ≤ fd → loop.events[fd.toNat]? = some fe → fe.data = registeredData fd log

theorem tracks_create (maxsize : Nat) (maxfd : Int) :
    Tracks (aeCreateEventLoop maxsize maxfd : AeEventLoop P D) [] := by
  have hfe : ∀ fe ∈ (aeCreateEventLoop maxsize maxfd : AeEventLoop P D).events,
      fe = { mask := AE_NONE, rfileProc := none, wfileProc := none, data := none } :=
    fun _ hfe => List.eq_of_mem_replicate hfe
  refine ⟨known_init _ _, fun fd fe _ hget write => ?_, fun fe hmem write hw => ?_,
    fun fd fe _ hget => ?_⟩
  · rw [hfe fe (List.mem_of_getElem? hget), procOf, if_neg (by rw [has_none]; decide)]
    rfl
  · rw [hfe fe hmem, has_none] at hw
    cases hw
  · rw [hfe fe (List.mem_of_getElem? hget)]
    rfl

/-- The loop has changed one entry of `events`, and the log tells so. -/
theorem Tracks.set_entry (h : Tracks loop log) (hk : Known loop') {fe : AeFileEvent P D} (h0 : 0 ≤ fd)
    (hlt : fd.toNat < loop.events.length) (hev : loop'.events = loop.events.set fd.toNat fe)
    (hother : ∀ x, x ≠ fd → (∀ write, registeredProc x write more = registeredProc x write log) ∧
      registeredData x more = registeredData x log)
    (hproc : ∀ write, procOf fe write = registeredProc fd write more)
    (hset : ∀ write, fe.mask.has write = true → (fe.proc write).isSome)
    (hdata : fe.data = registeredData fd more) : Tracks loop' more where
  known := hk
  proc x fe' hx hget write := by
    by_cases hxf : x = fd
    · subst hxf
      rw [hev, List.getElem?_set_self hlt, Option.some.injEq] at hget
      rw [← hget, hproc]
    · rw [hev, List.getElem?_set_ne (by omega)] at hget
      rw [(hother x hxf).1, h.proc x fe' hx hget]
  set fe' hfe write hw := by
    rw [hev] at hfe
    rcases List.mem_or_eq_of_mem_set hfe with hfe | rfl
    · exact h.set fe' hfe write hw
    · exact hset write hw
  data x fe' hx hget := by
    by_cases hxf : x = fd
    · subst hxf
      rw [hev, List.getElem?_set_self hlt, Option.some.injEq] at hget
      rw [← hget, hdata]
    · rw [hev, List.getElem?_set_ne (by omega)] at hget
      rw [(hother x hxf).2, h.data x fe' hx hget]

/-- A log that tells nothing new. -/
theorem Tracks.same (h : Tracks loop log) (hev : loop'.events = loop.events) (hk : Known loop')
    (hp : ∀ x write, registeredProc x write more = registeredProc x write log)
    (hd : ∀ x, registeredData x more = registeredData x log) : Tracks loop' more where
  known := hk
  proc x fe hx hget write := by rw [hp, h.proc x fe hx (hev ▸ hget)]
  set fe hfe := h.set fe (hev ▸ hfe)
  data x fe hx hget := by rw [hd, h.data x fe hx (hev ▸ hget)]

/-! ## Calls -/

/-- `aeDeleteFileEvent` is not called with a negative descriptor. -/
def AeCall.NonNeg : AeCall P D → Prop
  | .create _ _ _ _ _ => True
  | .delete fd _ => 0 ≤ fd

theorem Tracks.entry (h : Tracks loop log) (h0 : 0 ≤ fd) (hlt : fd < loop.maxsize) :
    ∃ fe, loop.events[fd.toNat]? = some fe ∧ fd.toNat < loop.events.length := by
  have : fd.toNat < loop.events.length := by
    rw [h.known.length]
    omega
  exact ⟨_, List.getElem?_eq_getElem this, this⟩

theorem create_tracks (h : Tracks loop log) {sockOk : Bool} {mask : AeMask} {proc : P} {data : Option D}
    (e : aeCreateFileEvent sockOk loop fd mask proc data = some (code, loop')) :
    Tracks loop' (log ++ [.returned (.create sockOk fd mask proc data) code]) := by
  have hk : Known loop' := call_known h.known (show aeCall loop (.create ..) = _ from e)
  -- a registration that fails leaves everything as it was
  have failed : loop'.events = loop.events → code = AE_ERROR →
      Tracks loop' (log ++ [.returned (.create sockOk fd mask proc data) code]) := by
    rintro hev rfl
    refine h.same hev hk (fun x write => ?_) fun x => ?_
    · rw [registeredProc_returned]
      exact if_neg fun hc => absurd hc.2.1 (by decide)
    · rw [registeredData_returned]
      exact if_neg fun hc => absurd hc.2 (by decide)
  rw [aeCreateFileEvent] at e
  split at e
  · cases e
    exact failed rfl rfl
  split at e
  · cases e
    exact failed rfl rfl
  rename_i hr
  have h0 : 0 ≤ fd := by omega
  obtain ⟨fe, hfe, hlt⟩ := h.entry h0 (by omega)
  rw [hfe, Option.map_some, Option.some.injEq] at e
  dsimp only at e
  split at e
  · cases e
    exact failed rfl rfl
  · cases e
    have hproc := h.proc fd fe h0 hfe
    refine h.set_entry hk h0 hlt rfl (fun x hx => ⟨fun write => ?_, ?_⟩) (fun write => ?_)
      (fun write hw => ?_) ?_
    · rw [registeredProc_returned]
      exact if_neg fun hc => hx hc.1.symm
    · rw [registeredData_returned]
      exact if_neg fun hc => hx hc.1.symm
    · rw [registeredProc_returned, ← hproc, procOf_created]
      simp only [true_and]
    · have hset := h.set fe (List.mem_of_getElem? hfe) write
      have hp := procOf_created fe mask proc data write
      rw [procOf, if_pos hw] at hp
      rw [hp]
      split
      · rfl
      · rename_i hm
        have hw : fe.mask.has write = true := by simpa [has_or, hm] using hw
        rw [procOf, if_pos hw]
        exact hset hw
    · rw [registeredData_returned]
      exact (if_pos ⟨rfl, rfl⟩).symm

theorem delete_tracks (h : Tracks loop log) {mask : AeMask}
    (e : aeDeleteFileEvent loop fd mask = some (code, loop')) :
    Tracks loop' (log ++ [.returned (.delete fd mask) code]) := by
  have hk : Known loop' := call_known h.known (show aeCall loop (.delete ..) = _ from e)
  have hdata : ∀ x, registeredData x (log ++ [.returned (.delete fd mask) code]) = registeredData x log :=
    fun x => registeredData_returned x log _ _
  rw [aeDeleteFileEvent] at e
  split at e
  · cases e
    refine h.same rfl hk (fun x write => ?_) hdata
    rw [registeredProc_returned]
    exact if_neg fun hc => absurd hc.2.1 (by decide)
  split at e
  · cases e
  have h0 : 0 ≤ fd := by omega
  obtain ⟨fe, hfe, hlt⟩ := h.entry h0 (by omega)
  have hproc := h.proc fd fe h0 hfe
  rw [hfe, Option.map_some, Option.some.injEq] at e
  split at e
  · -- nothing is registered, and nothing was in the log
    rename_i hnone
    cases e
    refine h.same rfl hk (fun x write => ?_) hdata
    rw [registeredProc_returned]
    dsimp only
    split
    · rename_i hc
      rw [← hc.1, ← hproc, procOf, hnone, has_none]
      rfl
    · rfl
  · cases e
    refine h.set_entry hk h0 hlt rfl (fun x hx => ⟨fun write => ?_, hdata x⟩) (fun write => ?_)
      (fun write hw => ?_) ?_
    · rw [registeredProc_returned]
      exact if_neg fun hc => hx hc.1.symm
    · rw [registeredProc_returned, ← hproc, procOf_deleted]
      simp only [true_and]
    · have hset := h.set fe (List.mem_of_getElem? hfe) write
      rw [has_andNot, Bool.and_eq_true] at hw
      exact hset hw.1
    · rw [hdata]
      exact h.data fd fe h0 hfe

theorem call_tracks (h : Tracks loop log) (e : aeCall loop call = some (code, loop')) :
    Tracks loop' (log ++ [.returned call code]) := by
  cases call with
  | create => exact create_tracks h e
  | delete => exact delete_tracks h e

/-- A call with a descriptor that is not negative is defined. -/
theorem call_defined (h : Tracks loop log) (hc : AeCall.NonNeg call) : ∃ r, aeCall loop call = some r := by
  cases call with
  | create sockOk fd mask proc data =>
    rw [aeCall, aeCreateFileEvent]
    split
    · exact ⟨_, rfl⟩
    split
    · exact ⟨_, rfl⟩
    obtain ⟨fe, hfe, -⟩ := h.entry (show 0 ≤ fd by omega) (by omega)
    rw [hfe]
    exact ⟨_, rfl⟩
  | delete fd mask =>
    have h0 : 0 ≤ fd := hc
    rw [aeCall, aeDeleteFileEvent]
    split
    · exact ⟨_, rfl⟩
    rw [if_neg (by omega)]
    obtain ⟨fe, hfe, -⟩ := h.entry h0 (by omega)
    rw [hfe]
    exact ⟨_, rfl⟩

/-- The calls of a handler. -/
theorem calls_tracks : ∀ {calls : List (AeCall P D)} {loop : AeEventLoop P D} {log : List (AeLog P D)},
    Tracks loop log → (∀ call ∈ calls, AeCall.NonNeg call) →
      ∃ codes loop', run aeCall loop calls = some (codes, loop') ∧ codes.length = calls.length ∧
        Tracks loop' (log ++ List.zipWith .returned calls codes)
  | [], loop, log, h, _ => ⟨[], loop, rfl, rfl, by rwa [List.zipWith_nil_left, List.append_nil]⟩
  | call :: calls, loop, log, h, hc => by
    obtain ⟨⟨code, loop₁⟩, e₁⟩ := call_defined h (hc call List.mem_cons_self)
    obtain ⟨codes, loop₂, e₂, hl, h₂⟩ := calls_tracks (call_tracks h e₁)
      fun x hx => hc x (List.mem_cons_of_mem _ hx)
    refine ⟨code :: codes, loop₂, run_cons_eq_some.mpr ⟨_, _, _, e₁, e₂, rfl⟩,
      by rw [List.length_cons, List.length_cons, hl], ?_⟩
    rwa [List.append_assoc] at h₂

/-! ## Turns -/

variable {f : AeFireEvent P D} {fired : List (AeFireEvent P D)}

/-- The handlers of an event call nothing with a negative descriptor. -/
def AeFireEvent.NonNeg (f : AeFireEvent P D) : Prop :=
  ∀ write, ∀ call ∈ f.calls write, AeCall.NonNeg call

theorem run_maxsize {calls : List (AeCall P D)} {codes : List Int} (h : Known loop)
    (e : run aeCall loop calls = some (codes, loop')) : loop'.maxsize = loop.maxsize := by
  refine (run_keeps (I := fun l => Known l ∧ l.maxsize = loop.maxsize) ?_ ⟨h, rfl⟩ e).2
  rintro l call code l' ⟨hk, hm⟩ e
  refine ⟨call_known hk e, ?_⟩
  cases call with
  | create =>
    obtain ⟨-, rfl⟩ | ⟨-, hc⟩ := create_ok hk e
    · exact hm
    · rw [hc.maxsize, hm]
  | delete =>
    obtain rfl | hc := delete_ok hk e
    · exact hm
    · rw [hc.maxsize, hm]

theorem handle_tracks (h : Tracks loop log) (h0 : 0 ≤ f.fd) (hlt : f.fd < loop.maxsize)
    (hf : AeFireEvent.NonNeg f) (write : Bool) :
    ∃ more loop', aeHandle loop f write = some (more, loop') ∧ Handled log f write more ∧
      Tracks loop' (log ++ more) ∧ loop'.maxsize = loop.maxsize := by
  obtain ⟨fe, hfe, -⟩ := h.entry h0 hlt
  have hproc := h.proc f.fd fe h0 hfe write
  unfold Handled
  rw [aeHandle, if_neg (by omega), hfe, Option.bind_some, ← hproc, procOf]
  by_cases hm : fe.mask.has write = true
  · obtain ⟨proc, hp⟩ := Option.isSome_iff_exists.mp (h.set fe (List.mem_of_getElem? hfe) write hm)
    rw [if_pos hm, hm, Bool.true_and, hp]
    dsimp only
    by_cases hr : f.mask.has write = true
    · have hhandler : Tracks loop (log ++ [.handler f.fd write proc fe.data]) :=
        h.same rfl h.known (fun x w => registeredProc_handler x w log _ _ _ _)
          fun x => registeredData_handler x log _ _ _ _
      obtain ⟨codes, loop', e, hl, ht⟩ := calls_tracks hhandler (hf write)
      simp only [if_pos hr, Option.bind_some, e, Option.map_some]
      rw [List.append_assoc] at ht
      exact ⟨_, loop', rfl, ⟨codes, hl, by rw [h.data f.fd fe h0 hfe]⟩, ht, run_maxsize h.known e⟩
    · simp only [if_neg hr]
      exact ⟨[], loop, rfl, rfl, by rwa [List.append_nil], rfl⟩
  · rw [if_neg hm, if_neg (by simp [hm])]
    exact ⟨[], loop, rfl, rfl, by rwa [List.append_nil], rfl⟩

theorem dispatchAll_tracks : ∀ {fired : List (AeFireEvent P D)} {loop : AeEventLoop P D}
    {log : List (AeLog P D)}, Tracks loop log →
      (∀ f ∈ fired, 0 ≤ f.fd ∧ f.fd < loop.maxsize ∧ AeFireEvent.NonNeg f) →
      ∃ more loop', aeDispatchAll loop fired = some (more, loop') ∧ Dispatched log fired more ∧
        Tracks loop' (log ++ more)
  | [], loop, log, h, _ => ⟨[], loop, rfl, .nil log, by rwa [List.append_nil]⟩
  | f :: fired, loop, log, h, hf => by
    obtain ⟨h0, hlt, hn⟩ := hf f List.mem_cons_self
    obtain ⟨reads, loop₁, e₁, d₁, t₁, m₁⟩ := handle_tracks h h0 hlt hn false
    obtain ⟨writes, loop₂, e₂, d₂, t₂, m₂⟩ := handle_tracks t₁ h0 (m₁ ▸ hlt) hn true
    obtain ⟨more, loop₃, e₃, d₃, t₃⟩ := dispatchAll_tracks t₂ fun x hx => by
      rw [m₂, m₁]
      exact hf x (List.mem_cons_of_mem _ hx)
    refine ⟨reads ++ writes ++ more, loop₃, ?_, .cons d₁ d₂ d₃, by simpa using t₃⟩
    rw [aeDispatchAll, aeDispatch, e₁]
    simp only [Option.bind_eq_bind, Option.bind_some, e₂, Option.pure_def, e₃]

/-- What can happen: `epoll_wait` tells of descriptors that epoll has, and no event is deleted for
a negative descriptor. -/
def Possible (loop : AeEventLoop P D) : AeEvent P D → Prop
  | .call call => AeCall.NonNeg call
  | .turn fired => ∀ f ∈ fired, (loop.epoll.interest f.fd).isSome ∧ AeFireEvent.NonNeg f

/-- A descriptor that epoll has is one of `events`. -/
theorem interest_bounds (h : Known loop) (hi : (loop.epoll.interest fd).isSome) :
    0 ≤ fd ∧ fd < loop.maxsize := by
  have hr := (h.present fd).mp hi
  rw [registered] at hr
  by_cases h0 : 0 ≤ fd
  · rw [if_pos h0] at hr
    cases hget : loop.events[fd.toNat]? with
    | none =>
      rw [hget] at hr
      exact absurd rfl hr
    | some fe =>
      obtain ⟨hlt, -⟩ := List.getElem?_eq_some_iff.mp hget
      rw [h.length] at hlt
      omega
  · rw [if_neg h0] at hr
    exact absurd rfl hr

theorem event_tracks (h : Tracks loop log) {event : AeEvent P D} (hp : Possible loop event) :
    ∃ more loop', aeEvent loop event = some (more, loop') ∧ LoggedEvent log event more ∧
      Tracks loop' (log ++ more) := by
  cases event with
  | call call =>
    obtain ⟨⟨code, loop'⟩, e⟩ := call_defined h hp
    exact ⟨_, loop', by rw [aeEvent, e]; rfl, ⟨code, rfl⟩, call_tracks h e⟩
  | turn fired =>
    exact dispatchAll_tracks h fun f hf =>
      let hb := interest_bounds h.known (hp f hf).1
      ⟨hb.1, hb.2, (hp f hf).2⟩

theorem events_tracked {events : List (AeEvent P D)} (h : Tracks loop log)
    (hp : Along aeEvent Possible loop events) :
    ∃ logs loop', run aeEvent loop events = some (logs, loop') ∧ LoggedEvents log events logs := by
  induction events generalizing loop log with
  | nil => exact ⟨[], loop, rfl, .nil log⟩
  | cons event events ih =>
    obtain ⟨more, loop₁, e₁, hl, h₁⟩ := event_tracks h hp.1
    obtain ⟨logs, loop₂, e₂, hall⟩ := ih h₁ (hp.2 _ _ e₁)
    exact ⟨more :: logs, loop₂, run_cons_eq_some.mpr ⟨_, _, _, e₁, e₂, rfl⟩, .cons hl hall⟩

/-- **The loop calls the handlers that are registered.** In every run from a new loop, whatever
its handlers register and delete, every turn is defined, and calls for the descriptors that are
ready the handlers that the log of all calls leaves them at their turn, with the data of the last
registration. -/
theorem loop_dispatches (maxsize : Nat) (maxfd : Int) {events : List (AeEvent P D)}
    (h : Along aeEvent Possible (aeCreateEventLoop maxsize maxfd) events) :
    ∃ logs loop, run aeEvent (aeCreateEventLoop maxsize maxfd) events = some (logs, loop) ∧
      LoggedEvents [] events logs :=
  events_tracked (tracks_create maxsize maxfd) h

/-- A reader that deletes the event of the writer behind it, whose turn does not come. -/
theorem loop_dispatches_deleted : ∃ logs loop,
    run aeEvent (aeCreateEventLoop 8 0 : AeEventLoop Nat Nat)
      [.call (.create true 5 AE_READABLE 1 (some 50)), .call (.create true 6 AE_WRITABLE 2 (some 60)),
        .turn [⟨5, AE_READABLE, [.delete 6 AE_WRITABLE], []⟩, ⟨6, AE_WRITABLE, [], []⟩]] =
      some (logs, loop) ∧
      LoggedEvents [] [.call (.create true 5 AE_READABLE 1 (some 50)),
        .call (.create true 6 AE_WRITABLE 2 (some 60)),
        .turn [⟨5, AE_READABLE, [.delete 6 AE_WRITABLE], []⟩, ⟨6, AE_WRITABLE, [], []⟩]] logs :=
  loop_dispatches 8 0 ⟨trivial, fun _ _ e => by
    cases e
    refine ⟨trivial, fun _ _ e => ?_⟩
    cases e
    refine ⟨fun f hf => ?_, fun _ _ _ => trivial⟩
    simp only [List.mem_cons, List.not_mem_nil, or_false] at hf
    rcases hf with rfl | rfl
    · refine ⟨by decide, fun write call hc => ?_⟩
      cases write
      · rw [List.mem_singleton.mp hc]
        show (0 : Int) ≤ 6
        decide
      · cases hc
    · refine ⟨by decide, fun write call hc => ?_⟩
      cases write <;> cases hc⟩

end Fedis.Proof.Ae

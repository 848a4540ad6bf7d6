import Fedis.Impl.Ae

/-!
# The event loop and epoll

`aeDeleteFileEvent` hands the mask that is left on to epoll, but `aeCreateFileEvent` only the
new one, which then takes the place of what epoll had. A call changes one descriptor
(`Changed`, `create_ok`, `delete_ok`).

* `call_known`: the masks of the loop tell which descriptors epoll has, so that every
  operation is valid;
* `create_agrees_iff`: a registration keeps the masks equal to the interest sets if and only
  if it covers what is registered;
* `epoll_agrees`: runs.
-/

namespace Fedis.Proof.Ae

open Framework

variable {P D : Type} {loop loop' : AeEventLoop P D} {fd : Int} {mask : AeMask} {r : Int}

/-! ## Masks -/

@[simp] theorem or_none (m : AeMask) : m.or AE_NONE = m := by
  simp [AeMask.or, AE_NONE]

@[simp] theorem none_or (m : AeMask) : AE_NONE.or m = m := by
  simp [AeMask.or, AE_NONE]

theorem or_ne_none {m n : AeMask} (h : n ≠ AE_NONE) : m.or n ≠ AE_NONE := by
  obtain ⟨r, w⟩ := n
  intro e
  simp only [AeMask.or, AE_NONE, AeMask.mk.injEq, Bool.or_eq_false_iff] at e
  exact h (by rw [e.1.2, e.2.2]; rfl)

/-- The mask that `events` has for a descriptor. -/
def registered (loop : AeEventLoop P D) (fd : Int) : AeMask :=
  if 0 ≤ fd then ((loop.events[fd.toNat]?).map AeFileEvent.mask).getD AE_NONE else AE_NONE

/-- The interest set of a mask. -/
def interestOf (m : AeMask) : Option AeMask := if m = AE_NONE then none else some m

/-- Epoll has for every descriptor what the loop has. -/
def Agrees (loop : AeEventLoop P D) : Prop :=
  ∀ fd, loop.epoll.interest fd = interestOf (registered loop fd)

/-- Epoll has the descriptors that have a mask, and has refused no operation. -/
structure Known (loop : AeEventLoop P D) : Prop where
  length : loop.events.length = loop.maxsize
  present : ∀ fd, (loop.epoll.interest fd).isSome ↔ registered loop fd ≠ AE_NONE
  valid : loop.epoll.refused = []

theorem isSome_interestOf (m : AeMask) : (interestOf m).isSome ↔ m ≠ AE_NONE := by
  rw [interestOf]
  split <;> simp_all

/-! ## One call -/

/-- The call has changed one descriptor, to this mask and this interest set. -/
structure Changed (loop loop' : AeEventLoop P D) (fd : Int) (m : AeMask) (i : Option AeMask) : Prop where
  length : loop'.events.length = loop.events.length
  maxsize : loop'.maxsize = loop.maxsize
  masks : ∀ x, registered loop' x = if x = fd then m else registered loop x
  interest : ∀ x, loop'.epoll.interest x = if x = fd then i else loop.epoll.interest x
  refused : loop'.epoll.refused = loop.epoll.refused

/-- A change of a mask, and of what epoll has in accordance with it. -/
theorem Changed.known {m : AeMask} {i : Option AeMask} (h : Changed loop loop' fd m i)
    (hk : Known loop) (hi : i.isSome ↔ m ≠ AE_NONE) : Known loop' where
  length := by rw [h.length, h.maxsize, hk.length]
  present x := by
    rw [h.interest, h.masks]
    split
    · exact hi
    · exact hk.present x
  valid := h.refused.trans hk.valid

theorem Changed.agrees {m : AeMask} {i : Option AeMask} (h : Changed loop loop' fd m i)
    (ha : Agrees loop) (hi : i = interestOf m) : Agrees loop' := fun x => by
  rw [h.interest, h.masks]
  split
  · exact hi
  · exact ha x

/-- The masks after one of them was set. -/
theorem registered_set {fe : AeFileEvent P D} (hfd : 0 ≤ fd) (hlt : fd.toNat < loop.events.length)
    (maxfd : Int) (ep : Epoll) (x : Int) :
    registered { loop with
      maxfd := maxfd, events := loop.events.set fd.toNat fe, epoll := ep } x =
        if x = fd then fe.mask else registered loop x := by
  simp only [registered]
  by_cases hx : x = fd
  · subst hx
    rw [if_pos hfd, if_pos rfl, List.getElem?_set_self hlt, Option.map_some, Option.getD_some]
  · rw [if_neg hx]
    by_cases h0 : 0 ≤ x
    · rw [if_pos h0, if_pos h0, List.getElem?_set_ne (by omega)]
    · rw [if_neg h0, if_neg h0]

theorem registered_eq {fe : AeFileEvent P D} (hfd : 0 ≤ fd) (h : loop.events[fd.toNat]? = some fe) :
    registered loop fd = fe.mask := by
  rw [registered, if_pos hfd, h, Option.map_some, Option.getD_some]

theorem ctl_valid {ep : Epoll} {op : EpollOp} {m : AeMask} (h : ep.valid op fd = true) :
    ep.ctl op fd m = (true, ep.update fd (op.leaves m)) :=
  if_pos h

/-- `aeCreateFileEvent` fails and does nothing, or adds to the mask of the descriptor and sets
the interest set to the new mask alone. -/
theorem create_ok (hk : Known loop) {sockOk : Bool} {proc : P} {data : Option D}
    (e : aeCreateFileEvent sockOk loop fd mask proc data = some (r, loop')) :
    (r = AE_ERROR ∧ loop' = loop) ∨ (r = AE_OK ∧ Changed loop loop' fd ((registered loop fd).or mask)
      (if mask = AE_NONE then loop.epoll.interest fd else some mask)) := by
  rw [aeCreateFileEvent] at e
  by_cases hs : sockOk = true
  case neg =>
    rw [if_pos (by simpa using hs)] at e
    cases e
    exact .inl ⟨rfl, rfl⟩
  rw [if_neg (by simp [hs])] at e
  by_cases hr : loop.maxsize ≤ fd ∨ fd < 0
  · rw [if_pos hr] at e
    cases e
    exact .inl ⟨rfl, rfl⟩
  · rw [if_neg hr] at e
    obtain ⟨fe, hfe, e⟩ := Option.map_eq_some_iff.mp e
    have h0 : 0 ≤ fd := by omega
    have hlt : fd.toNat < loop.events.length := by
      rw [hk.length]
      omega
    have hreg := registered_eq h0 hfe
    have hpres := hk.present fd
    rw [hreg] at hpres
    -- the operation that is chosen is valid
    have hadd : aeApiAddEvent loop.epoll fd fe.mask mask =
        (AE_OK, if mask = AE_NONE then loop.epoll else loop.epoll.update fd (some mask)) := by
      rw [aeApiAddEvent]
      by_cases hm : mask = AE_NONE
      · rw [if_pos hm, if_pos hm]
      · by_cases hf : fe.mask = AE_NONE
        · have hv : loop.epoll.valid .EPOLL_CTL_ADD fd = true := by
            show (loop.epoll.interest fd).isNone = true
            rw [← Option.not_isSome, Bool.not_eq_true', ← Bool.not_eq_true, hpres]
            exact fun h => h hf
          simp only [if_neg hm, if_pos hf, ctl_valid hv, if_true, EpollOp.leaves]
        · have hv : loop.epoll.valid .EPOLL_CTL_MOD fd = true := hpres.mpr hf
          simp only [if_neg hm, if_neg hf, ctl_valid hv, if_true, EpollOp.leaves]
    rw [hadd] at e
    simp only [show ¬ AE_OK = AE_ERROR by decide, if_false] at e
    cases e
    refine .inr ⟨rfl, ⟨by simp, rfl, fun x => ?_, fun x => ?_, ?_⟩⟩
    · rw [registered_set h0 hlt, hreg]
    · show (if mask = AE_NONE then loop.epoll else loop.epoll.update fd (some mask)).interest x = _
      by_cases hm : mask = AE_NONE
      · rw [if_pos hm, if_pos hm]
        split
        · rename_i hx
          rw [hx]
        · rfl
      · rw [if_neg hm, if_neg hm]
        rfl
    · show (if mask = AE_NONE then loop.epoll else loop.epoll.update fd (some mask)).refused = _
      split <;> rfl

/-- `aeDeleteFileEvent` does nothing, or leaves the rest of the mask on both sides. -/
theorem delete_ok (hk : Known loop) (e : aeDeleteFileEvent loop fd mask = some (r, loop')) :
    loop' = loop ∨ Changed loop loop' fd ((registered loop fd).andNot mask)
      (interestOf ((registered loop fd).andNot mask)) := by
  rw [aeDeleteFileEvent] at e
  by_cases hs : loop.maxsize ≤ fd
  · rw [if_pos hs] at e
    cases e
    exact .inl rfl
  rw [if_neg hs] at e
  by_cases h0 : fd < 0
  · rw [if_pos h0] at e
    cases e
  rw [if_neg h0] at e
  obtain ⟨fe, hfe, e⟩ := Option.map_eq_some_iff.mp e
  have h0 : 0 ≤ fd := by omega
  have hlt : fd.toNat < loop.events.length := by
    rw [hk.length]
    omega
  have hreg := registered_eq h0 hfe
  by_cases hm : fe.mask = AE_NONE
  · rw [if_pos hm] at e
    cases e
    exact .inl rfl
  rw [if_neg hm] at e
  cases e
  have hpres : (loop.epoll.interest fd).isSome = true := by
    rw [hk.present fd, hreg]
    exact hm
  have hdel : ∀ left, aeApiDelEvent loop.epoll fd left = loop.epoll.update fd (interestOf left) := by
    intro left
    have hd : loop.epoll.valid .EPOLL_CTL_DEL fd = true := hpres
    have hv : loop.epoll.valid .EPOLL_CTL_MOD fd = true := hpres
    rw [aeApiDelEvent, interestOf]
    split
    · rw [ctl_valid hd, EpollOp.leaves]
    · rw [ctl_valid hv, EpollOp.leaves]
  refine .inr ⟨by simp, rfl, fun x => ?_, fun x => ?_, ?_⟩
  · rw [registered_set h0 hlt, hreg]
  · show (aeApiDelEvent loop.epoll fd _).interest x = _
    rw [hdel, hreg]
    rfl
  · show (aeApiDelEvent loop.epoll fd _).refused = _
    rw [hdel]
    rfl

/-- Every call keeps epoll's descriptors those with a mask, and its operations valid. -/
theorem call_known (hk : Known loop) {call : AeCall P D} (e : aeCall loop call = some (r, loop')) :
    Known loop' := by
  cases call with
  | create sockOk fd mask proc data =>
    obtain ⟨-, rfl⟩ | ⟨-, hc⟩ := create_ok hk e
    · exact hk
    · refine hc.known hk ?_
      by_cases hm : mask = AE_NONE
      · rw [if_pos hm, hm, or_none]
        exact hk.present fd
      · rw [if_neg hm]
        exact ⟨fun _ => or_ne_none hm, fun _ => rfl⟩
  | delete fd mask =>
    obtain rfl | hc := delete_ok hk e
    · exact hk
    · exact hc.known hk (isSome_interestOf _)

/-- A registration is for at least what is registered. -/
def Covers (loop : AeEventLoop P D) : AeCall P D → Prop
  | .create _ fd mask _ _ => mask = AE_NONE ∨ (registered loop fd).or mask = mask
  | .delete _ _ => True

instance (loop : AeEventLoop P D) : DecidablePred (Covers loop)
  | .create _ fd mask _ _ =>
    inferInstanceAs (Decidable (mask = AE_NONE ∨ (registered loop fd).or mask = mask))
  | .delete _ _ => instDecidableTrue

/-- A registration that succeeds keeps the agreement if and only if it covers. -/
theorem create_agrees_iff (hk : Known loop) (ha : Agrees loop) {sockOk : Bool} {proc : P}
    {data : Option D} (e : aeCreateFileEvent sockOk loop fd mask proc data = some (AE_OK, loop')) :
    Agrees loop' ↔ mask = AE_NONE ∨ (registered loop fd).or mask = mask := by
  obtain ⟨h, -⟩ | ⟨-, hc⟩ := create_ok hk e
  · cases h
  by_cases hm : mask = AE_NONE
  · refine ⟨fun _ => .inl hm, fun _ => hc.agrees ha ?_⟩
    rw [if_pos hm, hm, or_none]
    exact ha fd
  · have hne : (registered loop fd).or mask ≠ AE_NONE := or_ne_none hm
    rw [if_neg hm] at hc
    constructor
    · intro h
      have := h fd
      rw [hc.interest, hc.masks, if_pos rfl, if_pos rfl, interestOf, if_neg hne] at this
      exact .inr (Option.some.inj this).symm
    · intro h
      refine hc.agrees ha ?_
      rw [h.resolve_left hm, interestOf, if_neg hm]

theorem call_agrees (hk : Known loop) (ha : Agrees loop) {call : AeCall P D}
    (hc : Covers loop call) (e : aeCall loop call = some (r, loop')) : Agrees loop' := by
  cases call with
  | create sockOk fd mask proc data =>
    obtain ⟨-, rfl⟩ | ⟨rfl, -⟩ := create_ok hk e
    · exact ha
    · exact (create_agrees_iff hk ha e).mpr hc
  | delete fd mask =>
    obtain rfl | hd := delete_ok hk e
    · exact ha
    · exact hd.agrees ha rfl

/-! ## Runs -/

theorem registered_init (maxsize : Nat) (maxfd fd : Int) :
    registered (aeCreateEventLoop maxsize maxfd : AeEventLoop P D) fd = AE_NONE := by
  rw [registered]
  split
  · rw [aeCreateEventLoop, List.getElem?_replicate]
    split <;> rfl
  · rfl

theorem known_init (maxsize : Nat) (maxfd : Int) :
    Known (aeCreateEventLoop maxsize maxfd : AeEventLoop P D) where
  length := List.length_replicate
  present fd := by
    rw [registered_init]
    simp [aeCreateEventLoop]
  valid := rfl

theorem agrees_init (maxsize : Nat) (maxfd : Int) :
    Agrees (aeCreateEventLoop maxsize maxfd : AeEventLoop P D) := fun fd => by
  rw [registered_init]
  rfl

/-- **The event loop and epoll agree** in every run whose registrations cover what is
registered; and in every run epoll has the descriptors with a mask and refuses no operation. -/
theorem epoll_agrees (maxsize : Nat) (maxfd : Int) {calls : List (AeCall P D)} {rs : List Int}
    (h : run aeCall (aeCreateEventLoop maxsize maxfd) calls = some (rs, loop)) :
    (Along aeCall Covers (aeCreateEventLoop maxsize maxfd) calls →
        ∀ fd, loop.epoll.interest fd = interestOf (registered loop fd)) ∧
      (∀ fd, (loop.epoll.interest fd).isSome ↔ registered loop fd ≠ AE_NONE) ∧
      loop.epoll.refused = [] := by
  have hk : Known loop := run_keeps (fun _ _ _ _ hk e => call_known hk e) (known_init _ _) h
  refine ⟨fun hc => ?_, hk.present, hk.valid⟩
  exact (run_invariant (I := fun loop => Known loop ∧ Agrees loop)
    (fun _ _ _ _ hi hp e => ⟨call_known hi.1 e, call_agrees hi.1 hi.2 hp e⟩) calls
    ⟨known_init _ _, agrees_init _ _⟩ hc h).2

/-- A socket to read from, and one to write to until it has been written. -/
theorem epoll_agrees_two : ∃ rs loop,
    run aeCall (aeCreateEventLoop 8 0 : AeEventLoop Nat Nat)
      [.create true 5 AE_READABLE 1 none, .create true 6 AE_WRITABLE 2 none,
        .delete 6 AE_WRITABLE] = some (rs, loop) ∧
      ∀ fd, loop.epoll.interest fd = interestOf (registered loop fd) :=
  ⟨_, _, rfl, (@epoll_agrees Nat Nat _ 8 0
    [.create true 5 AE_READABLE 1 none, .create true 6 AE_WRITABLE 2 none,
      .delete 6 AE_WRITABLE] _ rfl).1 (by decide)⟩

/-- The registration for writing takes the place of that for reading, which the loop still
has. -/
theorem epoll_forgets_reading : ∃ rs loop,
    run aeCall (aeCreateEventLoop 8 0 : AeEventLoop Nat Nat)
      [.create true 5 AE_READABLE 1 none, .create true 5 AE_WRITABLE 2 none] = some (rs, loop) ∧
      rs = [AE_OK, AE_OK] ∧ registered loop 5 = AE_READABLE.or AE_WRITABLE ∧
      loop.epoll.interest 5 = some AE_WRITABLE ∧
      ¬ ∀ fd, loop.epoll.interest fd = interestOf (registered loop fd) :=
  ⟨_, _, rfl, by decide, by decide, by decide, fun h => absurd (h 5) (by decide)⟩

end Fedis.Proof.Ae

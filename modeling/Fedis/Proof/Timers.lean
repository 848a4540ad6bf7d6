import Mathlib.Data.List.Nodup
import Mathlib.Data.List.Perm.Subperm
import Mathlib.Order.Monotone.Basic
import Fedis.Impl.Timers

/-!
# One pass over the time events

`processTimeEvents` starts again at the head of the list after every call. As long as the clock
advances by less than the periods, an event that was called is not due again before the pass ends,
so that the calls, and between them the places in the list, are counted.

* `add_eq`, `due_reset`: deadlines;
* `set_update`, `delete_update`: what a call does to the list, event by event;
* `step_good`: one step of the loop;
* `pass_once`: the pass;
* `numbered_create`, `numbered_pass`: the ids stay distinct.
-/

namespace Fedis.Proof.Timers

open Framework

variable {P D : Type} {env : AeEnv P D} {events l : List (AeTimeEvent P D)} {s s' : AePass P D}
  {te te' : AeTimeEvent P D} {t t' : AeTime} {ms id : Int} {fired : List AeFiring} {f : AeFiring}

/-! ## Deadlines -/

/-- The event with a deadline of so many milliseconds. -/
def reset (te : AeTimeEvent P D) (ms : Int) : AeTimeEvent P D :=
  { te with when := ms / 1000, when_ms := ms % 1000 }

theorem add_eq (h : 0 ≤ ms) (t : AeTime) :
    aeAddMillisecondsToNow t ms = ((t.toMs + ms) / 1000, (t.toMs + ms) % 1000) := by
  have hbelow := t.below
  rw [aeAddMillisecondsToNow, Int.tdiv_eq_ediv_of_nonneg h, Int.tmod_eq_emod_of_nonneg h, AeTime.toMs]
  split <;> exact Prod.ext (by dsimp only; omega) (by dsimp only; omega)

theorem due_reset : (reset te ms).Due t ↔ ms ≤ t.toMs := by
  have := t.below
  rw [AeTimeEvent.Due, reset, AeTime.toMs]
  dsimp only
  omega

/-- An event that is due stays due. -/
theorem due_mono (h : te.Due t) (hle : t.toMs ≤ t'.toMs) : te.Due t' := by
  have hbelow := t.below
  have hbelow' := t'.below
  rw [AeTimeEvent.Due, AeTime.toMs] at *
  rw [AeTime.toMs] at hle
  omega

/-! ## The list -/

/-- `r` in the place of the event with this id, or nothing. -/
def update (id : Int) (r : Option (AeTimeEvent P D)) (e : AeTimeEvent P D) : Option (AeTimeEvent P D) :=
  if e.id = id then r else some e

theorem filterMap_update_absent (r : Option (AeTimeEvent P D)) (h : ∀ e ∈ l, e.id ≠ id) :
    l.filterMap (update id r) = l := by
  induction l with
  | nil => rfl
  | cons e l ih =>
    obtain ⟨he, hl⟩ := List.forall_mem_cons.mp h
    have hsome : update id r e = some e := if_neg he
    rw [List.filterMap_cons, hsome, ih hl]

theorem ne_of_nodup (h : ((te :: l).map AeTimeEvent.id).Nodup) : ∀ e ∈ l, e.id ≠ te.id := by
  rw [List.map_cons, List.nodup_cons] at h
  exact fun e he heq => h.1 (heq ▸ List.mem_map_of_mem he)

theorem set_update (h : (l.map AeTimeEvent.id).Nodup) {i : Nat} (hi : l[i]? = some te)
    (te' : AeTimeEvent P D) : l.set i te' = l.filterMap (update te.id (some te')) := by
  induction l generalizing i with
  | nil => cases hi
  | cons e l ih =>
    have hrest := ne_of_nodup h
    rw [List.map_cons, List.nodup_cons] at h
    cases i with
    | zero =>
      cases hi
      have hsome : update te.id (some te') te = some te' := if_pos rfl
      rw [List.set_cons_zero, List.filterMap_cons, hsome, filterMap_update_absent _ hrest]
    | succ i =>
      rw [List.getElem?_cons_succ] at hi
      have hsome : update te.id (some te') e = some e :=
        if_neg fun heq => hrest te (List.mem_of_getElem? hi) heq.symm
      rw [List.set_cons_succ, List.filterMap_cons, hsome, ih h.2 hi]

theorem delete_update (h : (l.map AeTimeEvent.id).Nodup) (id : Int) :
    (aeDeleteTimeEvent id l).2 = l.filterMap (update id none) := by
  induction l with
  | nil => rfl
  | cons e l ih =>
    have hrest := ne_of_nodup h
    rw [List.map_cons, List.nodup_cons] at h
    rw [aeDeleteTimeEvent]
    split
    · rename_i heq
      have hnone : update id none e = none := if_pos heq
      rw [List.filterMap_cons, hnone, filterMap_update_absent _ (heq ▸ hrest)]
    · rename_i hne
      have hsome : update id none e = some e := if_neg hne
      show e :: (aeDeleteTimeEvent id l).2 = _
      rw [List.filterMap_cons, hsome, ih h.2]

/-! ## What is left of an event -/

/-- The event after the calls of the pass: gone, with its next deadline, or as it was. -/
def after (env : AeEnv P D) (fired : List AeFiring) (te : AeTimeEvent P D) : Option (AeTimeEvent P D) :=
  match fired.find? (·.id = te.id) with
  | none => some te
  | some f =>
    if f.retval = AE_NOMORE then none
    else some (reset te ((env.clock (f.read + 1)).toMs + f.retval))

theorem after_id (h : te' ∈ after env fired te) : te'.id = te.id := by
  rw [after] at h
  split at h
  · cases h
    rfl
  · split at h
    · cases h
    · cases h
      rfl

theorem after_ids (env : AeEnv P D) (fired : List AeFiring) (events : List (AeTimeEvent P D)) :
    ((events.filterMap (after env fired)).map AeTimeEvent.id).Sublist (events.map AeTimeEvent.id) := by
  induction events with
  | nil => exact List.Sublist.refl _
  | cons te events ih =>
    rw [List.filterMap_cons]
    cases h : after env fired te with
    | none => exact ih.cons _
    | some te' =>
      rw [List.map_cons, List.map_cons, after_id h]
      exact ih.cons_cons _

/-- One more call, of an event that was not called. -/
theorem after_append (hf : f.id = te.id) (hnew : ∀ g ∈ fired, g.id ≠ te.id) {e : AeTimeEvent P D}
    (he : e.id = te.id → e = te) :
    after env (fired ++ [f]) e = (after env fired e).bind (update te.id (after env [f] te)) := by
  by_cases hid : e.id = te.id
  · obtain rfl := he hid
    have hnone : fired.find? (·.id = e.id) = none :=
      List.find?_eq_none.mpr fun g hg => by simpa using hnew g hg
    have hleft : after env fired e = some e := by rw [after, hnone]
    have hupdate : update e.id (after env [f] e) e = after env [f] e := if_pos rfl
    rw [hleft, Option.bind_some, hupdate, after, after, List.find?_append, hnone, Option.none_or]
  · have hnone : [f].find? (·.id = e.id) = none :=
      List.find?_eq_none.mpr fun g hg => by
        rw [List.mem_singleton.mp hg, hf]
        simpa using Ne.symm hid
    have hsame : after env (fired ++ [f]) e = after env fired e := by
      rw [after, after, List.find?_append, hnone, Option.or_none]
    rw [hsame]
    cases hleft : after env fired e with
    | none => rfl
    | some e' =>
      have hid' : e'.id ≠ te.id := by rwa [after_id hleft]
      exact (if_neg hid').symm

/-! ## One step -/

/-- A callback returns `AE_NOMORE`, or more than the clock has advanced. -/
def Bounded (env : AeEnv P D) (s : AePass P D) : Prop :=
  ∀ f ∈ s.fired, f.retval = AE_NOMORE ∨ ∀ i < s.reads, (env.clock i).toMs - (env.clock 0).toMs < f.retval

/-- No event is called twice or before its deadline; those with `AE_NOMORE` are gone, and the others
are in their places, with new deadlines if they were called. -/
structure Once (env : AeEnv P D) (events : List (AeTimeEvent P D)) (s : AePass P D) : Prop where
  once : (s.fired.map AeFiring.id).Nodup
  due : ∀ f ∈ s.fired, ∃ te ∈ events, te.id = f.id ∧ te.Due (env.clock f.read)
  left : s.events = events.filterMap (after env s.fired)

/-- The invariant: what the loop has passed was not due at the start. -/
structure Good (env : AeEnv P D) (events : List (AeTimeEvent P D)) (s : AePass P D) : Prop
    extends Once env events s where
  passed : ∀ te ∈ s.events.take s.te, ¬ te.Due (env.clock 0)

theorem good_start (env : AeEnv P D) (events : List (AeTimeEvent P D)) : Good env events (.start events) where
  once := List.nodup_nil
  due := by
    intro f hf
    cases hf
  left := List.filterMap_some.symm
  passed := by
    intro te hte
    cases hte

/-- The steps of the loop that are left, at most. -/
def measure (events : List (AeTimeEvent P D)) (s : AePass P D) : Nat :=
  (events.length - s.fired.length) * (events.length + 1) + (s.events.length - s.te)

/-- An event that is due was not called. -/
theorem due_new (hclock : ∀ i, (env.clock i).toMs ≤ (env.clock (i + 1)).toMs) (hgood : Good env events s) (hbound : Bounded env s') (hread : s.reads < s'.reads)
    (hfired : ∀ f ∈ s.fired, f ∈ s'.fired) (hte : te ∈ s.events) (hdue : te.Due (env.clock s.reads)) :
    te ∈ events ∧ ∀ f ∈ s.fired, f.id ≠ te.id := by
  rw [hgood.left] at hte
  obtain ⟨te₀, hmem, hafter⟩ := List.mem_filterMap.mp hte
  rw [after] at hafter
  split at hafter
  · rename_i hnone
    cases hafter
    exact ⟨hmem, fun f hf => by simpa using List.find?_eq_none.mp hnone f hf⟩
  · rename_i f hfind
    exfalso
    split at hafter
    · cases hafter
    · rename_i hmore
      cases hafter
      -- its deadline is a period behind the start
      have hle := due_reset.mp hdue
      have hperiod := ((hbound f (hfired f (List.mem_of_find?_eq_some hfind))).resolve_left hmore) _ hread
      have hstart := monotone_nat_of_le_succ hclock (Nat.zero_le (f.read + 1))
      omega

theorem length_fired (h : Once env events s) : s.fired.length ≤ events.length := by
  have hsub : s.fired.map AeFiring.id ⊆ events.map AeTimeEvent.id := by
    intro id hid
    obtain ⟨f, hf, rfl⟩ := List.mem_map.mp hid
    obtain ⟨te, hte, hid, -⟩ := h.due f hf
    exact hid ▸ List.mem_map_of_mem hte
  simpa using (List.subperm_of_subset h.once hsub).length_le

theorem after_single (hid : f.id = te.id) :
    after env [f] te = if f.retval = AE_NOMORE then none
      else some (reset te ((env.clock (f.read + 1)).toMs + f.retval)) := by
  have hfind : [f].find? (·.id = te.id) = some f := List.find?_cons_of_pos (by simpa using hid)
  rw [after, hfind]

/-- A call. -/
theorem fire_good (hids : (events.map AeTimeEvent.id).Nodup) (hgood : Good env events s)
    (hmem : te ∈ events) (hnew : ∀ g ∈ s.fired, g.id ≠ te.id) (hdue : te.Due (env.clock s.reads)) (hid : f.id = te.id) (hread : f.read = s.reads)
    (hfired : s'.fired = s.fired ++ [f]) (hte : s'.te = 0)
    (hevents : s'.events = s.events.filterMap (update te.id (after env [f] te))) :
    Good env events s' ∧ measure events s' < measure events s := by
  have honce : Once env events s' := by
    refine ⟨?_, ?_, ?_⟩
    · rw [hfired, List.map_append, List.nodup_append]
      refine ⟨hgood.once, List.nodup_singleton _, ?_⟩
      rintro a ha b hb rfl
      obtain ⟨g, hg, rfl⟩ := List.mem_map.mp ha
      exact hnew g hg ((List.mem_singleton.mp hb).trans hid)
    · intro g hg
      rw [hfired, List.mem_append, List.mem_singleton] at hg
      rcases hg with hg | rfl
      · exact hgood.due g hg
      · exact ⟨te, hmem, hid.symm, hread ▸ hdue⟩
    · rw [hevents, hgood.left, List.filterMap_filterMap, hfired]
      refine List.filterMap_congr fun e he => (after_append hid hnew fun heq => ?_).symm
      exact List.inj_on_of_nodup_map hids he hmem heq
  refine ⟨⟨honce, by rw [hte, List.take_zero]; intro te hte; cases hte⟩, ?_⟩
  have hcalls := length_fired honce
  have hleft : s'.events.length ≤ events.length := honce.left ▸ List.length_filterMap_le _ _
  rw [hfired, List.length_append, List.length_singleton] at hcalls
  rw [measure, measure, hfired, List.length_append, List.length_singleton, hte,
    show events.length - s.fired.length = events.length - (s.fired.length + 1) + 1 by omega, Nat.succ_mul]
  omega

/-- **One step of the loop.** -/
theorem step_good (hids : (events.map AeTimeEvent.id).Nodup)
    (hclock : ∀ i, (env.clock i).toMs ≤ (env.clock (i + 1)).toMs) (hgood : Good env events s)
    (hbound : Bounded env s') (hstep : processTimeEvent env s = some s') : Good env events s' ∧ measure events s' < measure events s := by
  obtain ⟨te, hget, rfl⟩ := Option.map_eq_some_iff.mp hstep
  have hnodup : (s.events.map AeTimeEvent.id).Nodup :=
    hgood.left ▸ (after_ids env s.fired events).nodup hids
  have hmem := List.mem_of_getElem? hget
  by_cases hdue : te.Due (env.clock s.reads)
  · rw [if_pos hdue] at hbound ⊢
    generalize env.timeProc s.reads te.timeProc te.id te.data = retval at *
    let f : AeFiring := { id := te.id, read := s.reads, retval := retval }
    by_cases hmore : retval = AE_NOMORE
    · rw [if_neg (not_not_intro hmore)] at hbound ⊢
      obtain ⟨hin, hnew⟩ := due_new hclock hgood hbound (Nat.lt_succ_self _)
        (fun g hg => List.mem_append_left _ hg) hmem hdue
      refine fire_good (f := f) hids hgood hin hnew hdue rfl rfl rfl rfl ?_
      rw [after_single rfl, if_pos hmore]
      exact delete_update hnodup te.id
    · rw [if_pos hmore] at hbound ⊢
      obtain ⟨hin, hnew⟩ := due_new hclock hgood hbound (by dsimp only; omega)
        (fun g hg => List.mem_append_left _ hg) hmem hdue
      refine fire_good (f := f) hids hgood hin hnew hdue rfl rfl rfl rfl ?_
      have hpos : (env.clock 0).toMs - (env.clock 0).toMs < retval :=
        (hbound f (List.mem_append_right _ (List.mem_singleton.mpr rfl))).resolve_left hmore 0
          (by dsimp only; omega)
      rw [after_single rfl, if_neg hmore, add_eq (by omega)]
      exact set_update hnodup hget _
  · rw [if_neg hdue] at hbound ⊢
    obtain ⟨hlt, -⟩ := List.getElem?_eq_some_iff.mp hget
    refine ⟨⟨⟨hgood.once, hgood.due, hgood.left⟩, fun e he => ?_⟩, ?_⟩
    · rw [List.take_add_one, hget, List.mem_append] at he
      rcases he with he | he
      · exact hgood.passed e he
      · rw [List.mem_singleton.mp he]
        exact fun h => hdue (due_mono h (monotone_nat_of_le_succ hclock (Nat.zero_le _)))
    · rw [measure, measure]
      dsimp only
      omega

/-- **One pass.** It ends, and every event that is due at its start is called in it, once. -/
theorem pass_once (hids : (events.map AeTimeEvent.id).Nodup)
    (hclock : ∀ i, (env.clock i).toMs ≤ (env.clock (i + 1)).toMs)
    (hbound : ∀ s, Reached (processTimeEvent env) (.start events) s → Bounded env s) :
    ∃ n s, (∀ fuel, n ≤ fuel → processTimeEvents env fuel events = some s) ∧ Once env events s ∧
      ∀ te ∈ events, te.Due (env.clock 0) → te.id ∈ s.fired.map AeFiring.id := by
  obtain ⟨s, hloop, hgood, hend⟩ := loop_ends (I := Good env events) (μ := measure events)
    (fun s s' hs' hgood hstep => step_good hids hclock hgood (hbound s' hs') hstep) (good_start env events)
  refine ⟨_, s, hloop, hgood.toOnce, fun te hte hdue => ?_⟩
  by_contra hnot
  have hnone : s.fired.find? (·.id = te.id) = none := List.find?_eq_none.mpr fun f hf heq =>
    hnot (of_decide_eq_true heq ▸ List.mem_map_of_mem hf)
  have hleft : te ∈ s.events := by
    rw [hgood.left]
    exact List.mem_filterMap.mpr ⟨te, hte, by rw [after, hnone]⟩
  have hlen : s.events.length ≤ s.te := by
    rw [processTimeEvent, Option.map_eq_none_iff] at hend
    exact List.getElem?_eq_none_iff.mp hend
  exact hgood.passed te (by rwa [List.take_of_length_le hlen]) hdue

/-- What the callbacks return is what the environment has for them. -/
theorem mem_fired (h : Reached (processTimeEvent env) (.start events) s) :
    ∀ f ∈ s.fired, ∃ k p i d, f.retval = env.timeProc k p i d := by
  induction h with
  | start =>
    intro f hf
    cases hf
  | @next s s' _ hstep ih =>
    obtain ⟨te, -, rfl⟩ := Option.map_eq_some_iff.mp hstep
    have hcall : ∀ g ∈ s.fired ++ [⟨te.id, s.reads, env.timeProc s.reads te.timeProc te.id te.data⟩],
        ∃ k p i d, g.retval = env.timeProc k p i d := by
      intro g hg
      rcases List.mem_append.mp hg with hg | hg
      · exact ih g hg
      · rw [List.mem_singleton.mp hg]
        exact ⟨_, _, _, _, rfl⟩
    split
    · dsimp only
      split
      · exact hcall
      · exact hcall
    · exact ih

theorem bounded_of_forall (h : ∀ k p i d, env.timeProc k p i d = AE_NOMORE ∨
      ∀ i', (env.clock i').toMs - (env.clock 0).toMs < env.timeProc k p i d)
    (hs : Reached (processTimeEvent env) (.start events) s) : Bounded env s := by
  intro f hf
  obtain ⟨k, p, i, d, hretval⟩ := mem_fired hs f hf
  rw [hretval]
  exact (h k p i d).imp_right fun h i' _ => h i'

/-- A timer that is called once, one that is called again in a second, and one that is not due. -/
theorem pass_once_three :
    let env : AeEnv Unit Unit :=
      { clock := fun _ => { sec := 5, ms := 20, below := by decide, fits := by decide }
        timeProc := fun _ _ id _ => if id = 1 then AE_NOMORE else 1000 }
    let events : List (AeTimeEvent Unit Unit) :=
      [⟨2, 5, 21, (), ()⟩, ⟨1, 4, 999, (), ()⟩, ⟨0, 5, 20, (), ()⟩]
    ∃ n s, (∀ fuel, n ≤ fuel → processTimeEvents env fuel events = some s) ∧ Once env events s ∧
      ∀ te ∈ events, te.Due (env.clock 0) → te.id ∈ s.fired.map AeFiring.id := by
  intro env events
  refine pass_once (by decide) (fun i => Int.le_refl _) fun s hs => bounded_of_forall (fun k p i d => ?_) hs
  by_cases hi : i = 1
  · exact .inl (if_pos hi)
  · refine .inr fun _ => ?_
    show (5 * 1000 + 20 : Int) - (5 * 1000 + 20) < if i = 1 then AE_NOMORE else 1000
    rw [if_neg hi]
    decide

/-! ## Numbers -/

/-- The ids are distinct, and below the next one. -/
structure Numbered (events : List (AeTimeEvent P D)) (timeEventNextId : Int) : Prop where
  distinct : (events.map AeTimeEvent.id).Nodup
  below : ∀ te ∈ events, te.id < timeEventNextId

theorem numbered_create {next : Int} (h : Numbered events next) (now : AeTime) (ms : Int) (proc : P)
    (data : D) :
    Numbered (aeCreateTimeEvent now events next ms proc data).1
      (aeCreateTimeEvent now events next ms proc data).2 := by
  constructor
  · refine List.nodup_cons.mpr ⟨fun hmem => ?_, h.distinct⟩
    obtain ⟨te, hte, hid⟩ := List.mem_map.mp hmem
    have := h.below te hte
    dsimp only at hid
    omega
  · refine List.forall_mem_cons.mpr ⟨Int.lt_succ _, fun te hte => ?_⟩
    exact Int.lt_trans (h.below te hte) (Int.lt_succ _)

theorem numbered_pass {next : Int} (h : Numbered events next) (hs : Once env events s) :
    Numbered s.events next := by
  rw [hs.left]
  refine ⟨(after_ids env s.fired events).nodup h.distinct, fun te hte => ?_⟩
  obtain ⟨te₀, hmem, hafter⟩ := List.mem_filterMap.mp hte
  rw [after_id hafter]
  exact h.below te₀ hmem

end Fedis.Proof.Timers

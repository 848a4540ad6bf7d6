import Mathlib.Order.Lattice
import Mathlib.Algebra.Order.Group.Unbundled.Int
import Fedis.Framework.FirstMin
import Fedis.Impl.Timers

/-!
# How long the loop polls

The search for the nearest event compares the seconds of the deadlines, and the delay is the one
to the deadline's second: both leave the milliseconds out.

* `search_iff`: the event that is found;
* `timeout_eq`: the timeout for it;
* `sleeps_iff`: when the loop sleeps until the next deadline;
* `Sleeps.wakes`: it then wakes up before every deadline, and does not poll while none has come.
-/

namespace Fedis.Proof.Timers

open Framework

variable {P D : Type} {events : List (AeTimeEvent P D)} {te : AeTimeEvent P D} {now : AeTime}

/-- The order of deadlines: seconds, then milliseconds. -/
def NotLater (te e : AeTimeEvent P D) : Prop :=
  te.when < e.when ∨ (te.when = e.when ∧ te.when_ms ≤ e.when_ms)

/-- The milliseconds from now to the deadline, or 0 if it has passed. -/
def remaining (now : AeTime) (te : AeTimeEvent P D) : Int := max 0 (te.when * 1000 + te.when_ms - now.toMs)

/-- The event that is found has the least deadline, and the loop polls until then. -/
def Sleeps (now : AeTime) (events : List (AeTimeEvent P D)) : Prop :=
  ∃ te ∈ events, aeSearchNearestTimer events = some te ∧ (∀ e ∈ events, NotLater te e) ∧
    aePollTimeout now events = some (remaining now te)

/-- The first event of the least second has the least milliseconds of that second; its deadline has
passed, or is a whole second less than 2³¹ milliseconds ahead; and nothing leaves `long`. -/
def OnTime (now : AeTime) (events : List (AeTimeEvent P D)) : Prop :=
  ∃ te, FirstMin AeTimeEvent.when events te ∧
    (∀ e ∈ events, e.when = te.when → te.when_ms ≤ e.when_ms) ∧
    (te.when * 1000 + te.when_ms ≤ now.toMs ∨ te.when_ms = 0 ∧ te.when * 1000 - now.toMs < 2 ^ 31) ∧
    inLong (te.when * 1000) ∧ inLong (te.when * 1000 - now.toMs)

theorem search_iff : aeSearchNearestTimer events = some te ↔ FirstMin AeTimeEvent.when events te :=
  foldl_firstMin

theorem notLater_iff (h : FirstMin AeTimeEvent.when events te) :
    (∀ e ∈ events, NotLater te e) ↔ ∀ e ∈ events, e.when = te.when → te.when_ms ≤ e.when_ms := by
  refine forall_congr' fun e => imp_congr_right fun he => ?_
  have hle := h.le e he
  rw [NotLater]
  omega

/-- The timeout, where nothing leaves `long`. -/
theorem timeout_eq (hsearch : aeSearchNearestTimer events = some te) (n : Int) :
    aePollTimeout now events = some n ↔
      (inLong (te.when * 1000) ∧ inLong (te.when * 1000 - now.toMs)) ∧
        toInt32 (max 0 (te.when * 1000 - now.toMs)) = n := by
  rw [aePollTimeout, hsearch]
  dsimp only
  rw [aeTimeval]
  dsimp only
  generalize te.when * 1000 - now.toMs = delay
  by_cases hfits : inLong (te.when * 1000) ∧ inLong delay
  · have hmax : (if delay < 0 then 0 else delay) = max 0 delay := by
      split <;> omega
    have hpos : 0 ≤ max 0 delay := Int.le_max_left 0 delay
    rw [if_pos hfits, and_iff_right hfits, hmax, Option.map_some, Option.some.injEq, aeApiPollTimeout,
      Int.tdiv_eq_ediv_of_nonneg hpos, Int.tmod_eq_emod_of_nonneg hpos,
      Int.tdiv_eq_ediv_of_nonneg (by omega)]
    generalize max 0 delay = d
    rw [show d / 1000 * 1000 + (d % 1000 * 1000 + 999) / 1000 = d by omega]
  · rw [if_neg hfits]
    simp [hfits]

/-- The delay to the second is the one to the deadline. -/
theorem delay_iff {when ms now : Int} (h : 0 ≤ ms ∧ ms < 1000) :
    toInt32 (max 0 (when * 1000 - now)) = max 0 (when * 1000 + ms - now) ↔
      when * 1000 + ms ≤ now ∨ ms = 0 ∧ when * 1000 - now < 2 ^ 31 := by
  have hrange := toInt32_range (max 0 (when * 1000 - now))
  constructor
  · intro heq
    by_contra hnot
    have hself := toInt32_eq_self (z := max 0 (when * 1000 - now)) (by omega) (by omega)
    omega
  · intro hcase
    rw [toInt32_eq_self (by omega) (by omega)]
    omega

/-- **When the loop sleeps until the next deadline.** -/
theorem sleeps_iff (h : ∀ te ∈ events, 0 ≤ te.when_ms ∧ te.when_ms < 1000) :
    Sleeps now events ↔ OnTime now events := by
  constructor
  · rintro ⟨te, hte, hsearch, hleast, htimeout⟩
    have hmin := search_iff.mp hsearch
    obtain ⟨hfits, heq⟩ := (timeout_eq hsearch _).mp htimeout
    exact ⟨te, hmin, (notLater_iff hmin).mp hleast, (delay_iff (h te hte)).mp heq, hfits⟩
  · rintro ⟨te, hmin, hleast, hdelay, hfits⟩
    have hsearch := search_iff.mpr hmin
    exact ⟨te, hmin.mem, hsearch, (notLater_iff hmin).mpr hleast,
      (timeout_eq hsearch _).mpr ⟨hfits, (delay_iff (h te hmin.mem)).mpr hdelay⟩⟩

/-- Two whole seconds to the next deadline. -/
theorem sleeps_iff_two :
    Sleeps (P := Unit) (D := Unit) { sec := 4, ms := 0, below := by decide, fits := by decide }
      [⟨1, 7, 250, (), ()⟩, ⟨0, 6, 0, (), ()⟩] :=
  (sleeps_iff (by decide)).mpr ⟨⟨0, 6, 0, (), ()⟩, ⟨[⟨1, 7, 250, (), ()⟩], [], rfl, by decide, by decide⟩,
    by decide, by decide, by decide, by decide⟩

/-- Of two deadlines in one second the later one is found, and the loop polls without waiting. -/
theorem not_sleeps :
    ¬ (∀ (now : AeTime) (events : List (AeTimeEvent Unit Unit)), events ≠ [] →
      (∀ te ∈ events, 0 ≤ te.when_ms ∧ te.when_ms < 1000) → Sleeps now events) ∧
    let now : AeTime := { sec := 5, ms := 0, below := by decide, fits := by decide }
    let events : List (AeTimeEvent Unit Unit) := [⟨1, 5, 900, (), ()⟩, ⟨0, 5, 100, (), ()⟩]
    aeSearchNearestTimer events = some ⟨1, 5, 900, (), ()⟩ ∧ aePollTimeout now events = some 0 ∧
      ∀ te ∈ events, ¬ te.Due now := by
  refine ⟨fun h => ?_, by decide, by decide, by decide⟩
  obtain ⟨te, -, hsearch, hleast, -⟩ :=
    h { sec := 5, ms := 0, below := by decide, fits := by decide } [⟨1, 5, 900, (), ()⟩, ⟨0, 5, 100, (), ()⟩]
      (by decide) (by decide)
  have hfound : aeSearchNearestTimer (P := Unit) (D := Unit) [⟨1, 5, 900, (), ()⟩, ⟨0, 5, 100, (), ()⟩] =
      some ⟨1, 5, 900, (), ()⟩ := by decide
  obtain rfl := Option.some.inj (hfound.symm.trans hsearch)
  rcases hleast ⟨0, 5, 100, (), ()⟩ (by decide) with hlt | ⟨-, hle⟩
  · exact absurd hlt (by decide)
  · exact absurd hle (by decide)

theorem Sleeps.wakes (hs : Sleeps now events) (h : ∀ te ∈ events, 0 ≤ te.when_ms ∧ te.when_ms < 1000) :
    ∃ n, aePollTimeout now events = some n ∧ (∀ te ∈ events, n ≤ remaining now te) ∧
      ((∀ te ∈ events, ¬ te.Due now) → 0 < n) := by
  obtain ⟨te, hte, -, hleast, htimeout⟩ := hs
  have hbelow := h te hte
  refine ⟨_, htimeout, fun e he => ?_, fun hnone => ?_⟩
  · have hlater := hleast e he
    have hbelow' := h e he
    rw [NotLater] at hlater
    rw [remaining, remaining]
    omega
  · have hnot := hnone te hte
    have hnow := now.below
    rw [AeTimeEvent.Due] at hnot
    rw [remaining, AeTime.toMs]
    omega

end Fedis.Proof.Timers

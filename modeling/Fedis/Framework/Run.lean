import Mathlib.Logic.Basic
import Mathlib.Data.Option.Basic

/-!
# Runs of a partial machine

A machine is a step function `step : σ → α → Option (β × σ)`: from a state and
an action it gives a reply and the next state, or `none` where the program's
behaviour is undefined. `run` performs a list of actions; since an interleaving
of several parties is a list of actions, so is every run of a concurrent
system. The rules for runs:

* `run_append`: a run splits where its list of actions does;
* `run_invariant`, `run_keeps`: what every step keeps, every run keeps;
* `run_history`: the same of what refers to the run so far;
* `run_breaks`: what holds of a run tells whether all its steps met a condition;
* `run_along`: the steps of a defined run meet what every defined step meets;
* `along_congr`: conditions that agree on every step agree along a run;
* `run_simulates`: a machine whose every step is matched by a total abstract
  step is defined on the whole run and gives the abstract replies;
* `run_refines`: a machine that matches the defined steps of an abstract one
  matches its defined runs.

The rules come with a condition on the steps (`Along`), evaluated in the state
that each step is taken in.
-/

namespace Fedis.Framework

variable {σ α β : Type*}

/-- The replies and the last state of a run, or `none` if a step is undefined. -/
def run (step : σ → α → Option (β × σ)) : σ → List α → Option (List β × σ)
  | s, [] => some ([], s)
  | s, a :: as => (step s a).bind fun r => (run step r.2 as).map fun q => (r.1 :: q.1, q.2)

/-- Every step of the run from `s` meets `P`. -/
def Along (step : σ → α → Option (β × σ)) (P : σ → α → Prop) : σ → List α → Prop
  | _, [] => True
  | s, a :: as => P s a ∧ ∀ b s', step s a = some (b, s') → Along step P s' as

variable {step : σ → α → Option (β × σ)} {P : σ → α → Prop}

@[simp] theorem run_nil (s : σ) : run step s [] = some ([], s) := rfl

theorem run_cons (s : σ) (a : α) (as : List α) :
    run step s (a :: as) =
      (step s a).bind fun r => (run step r.2 as).map fun q => (r.1 :: q.1, q.2) := rfl

/-- A defined run that starts with `a`: its first step, then the rest. -/
theorem run_cons_eq_some {s s' : σ} {a : α} {as : List α} {bs : List β} :
    run step s (a :: as) = some (bs, s') ↔
      ∃ b s₁ bs', step s a = some (b, s₁) ∧ run step s₁ as = some (bs', s') ∧ bs = b :: bs' := by
  simp only [run_cons, Option.bind_eq_some_iff, Option.map_eq_some_iff, Prod.exists, Prod.mk.injEq]
  constructor
  · rintro ⟨b, s₁, h, bs', s'', h', rfl, rfl⟩
    exact ⟨b, s₁, bs', h, h', rfl⟩
  · rintro ⟨b, s₁, bs', h, h', rfl⟩
    exact ⟨b, s₁, h, bs', s', h', rfl, rfl⟩

theorem run_append (s : σ) (as as' : List α) :
    run step s (as ++ as') =
      (run step s as).bind fun r => (run step r.2 as').map fun q => (r.1 ++ q.1, q.2) := by
  induction as generalizing s with
  | nil => simp
  | cons a as ih =>
    cases h : step s a with
    | none => simp [run_cons, h]
    | some r =>
      simp only [List.cons_append, run_cons, h, Option.bind_some, ih]
      cases run step r.2 as with
      | none => rfl
      | some q => simp [Function.comp_def]

/-- A run's condition is evaluated along the run. -/
instance decidableAlong [∀ s a, Decidable (P s a)] : ∀ s as, Decidable (Along step P s as)
  | _, [] => isTrue trivial
  | s, a :: as =>
    match h : step s a with
    | none => decidable_of_iff (P s a) ⟨fun hp => ⟨hp, fun _ _ e => by rw [h] at e; cases e⟩, And.left⟩
    | some (b, s') =>
      have := decidableAlong s' as
      decidable_of_iff (P s a ∧ Along step P s' as)
        ⟨fun hp => ⟨hp.1, fun _ _ e => by rw [h] at e; cases e; exact hp.2⟩,
          fun hp => ⟨hp.1, hp.2 b s' h⟩⟩

theorem along_of_forall : ∀ {as : List α} {s : σ}, (∀ a ∈ as, ∀ s, P s a) → Along step P s as
  | [], _, _ => trivial
  | a :: _, s, h => ⟨h a List.mem_cons_self s, fun _ _ _ =>
      along_of_forall fun b hb => h b (List.mem_cons_of_mem a hb)⟩

theorem along_mono {Q : σ → α → Prop} (h : ∀ s a, P s a → Q s a) :
    ∀ {as : List α} {s : σ}, Along step P s as → Along step Q s as
  | [], _, _ => trivial
  | a :: _, s, hp => ⟨h s a hp.1, fun b s' e => along_mono h (hp.2 b s' e)⟩

theorem along_and {Q : σ → α → Prop} : ∀ {as : List α} {s : σ},
    Along step (fun s a => P s a ∧ Q s a) s as ↔ Along step P s as ∧ Along step Q s as
  | [], _ => and_self_iff.symm
  | a :: as, s => by
    constructor
    · intro ⟨⟨hp, hq⟩, h⟩
      exact ⟨⟨hp, fun b s' e => (along_and.mp (h b s' e)).1⟩,
        hq, fun b s' e => (along_and.mp (h b s' e)).2⟩
    · intro ⟨⟨hp, h⟩, hq, h'⟩
      exact ⟨⟨hp, hq⟩, fun b s' e => along_and.mpr ⟨h b s' e, h' b s' e⟩⟩

theorem along_append {s : σ} {as as' : List α} (h : Along step P s (as ++ as')) :
    Along step P s as ∧ ∀ bs s', run step s as = some (bs, s') → Along step P s' as' := by
  induction as generalizing s with
  | nil => exact ⟨trivial, fun _ _ e => by cases e; exact h⟩
  | cons a as ih =>
    refine ⟨⟨h.1, fun b s' e => (ih (h.2 b s' e)).1⟩, fun bs s' e => ?_⟩
    obtain ⟨b, s₁, bs', e₁, e₂, -⟩ := run_cons_eq_some.mp e
    exact (ih (h.2 b s₁ e₁)).2 bs' s' e₂

/-- What every step that meets `P` keeps, every run whose steps meet `P` keeps. -/
theorem run_invariant {I : σ → Prop}
    (hstep : ∀ s a b s', I s → P s a → step s a = some (b, s') → I s') :
    ∀ (as : List α) {s s' : σ} {bs : List β}, I s → Along step P s as →
      run step s as = some (bs, s') → I s'
  | [], _, _, _, hi, _, h => by cases h; exact hi
  | a :: as, s, s', bs, hi, hp, h => by
    obtain ⟨b, s₁, bs', e₁, e₂, -⟩ := run_cons_eq_some.mp h
    exact run_invariant hstep as (hstep s a b s₁ hi hp.1 e₁) (hp.2 b s₁ e₁) e₂

/-- What every step keeps, every run keeps. -/
theorem run_keeps {I : σ → Prop} {as : List α} {s s' : σ} {bs : List β}
    (hstep : ∀ s a b s', I s → step s a = some (b, s') → I s') (hi : I s)
    (h : run step s as = some (bs, s')) : I s' :=
  run_invariant (P := fun _ _ => True) (fun s a b s' hi _ h => hstep s a b s' hi h) as hi
    (along_of_forall fun _ _ _ => trivial) h

theorem run_snoc {s s₁ s' : σ} {as : List α} {a : α} {bs : List β} {b : β}
    (h : run step s as = some (bs, s₁)) (ha : step s₁ a = some (b, s')) :
    run step s (as ++ [a]) = some (bs ++ [b], s') := by
  rw [run_append, h, Option.bind_some, run_cons, ha]
  rfl

/-- The rule for an invariant that speaks of the run so far. -/
theorem run_history {I : List α → σ → Prop} {s₀ : σ}
    (hstep : ∀ as s bs a b s', run step s₀ as = some (bs, s) → I as s → P s a →
      step s a = some (b, s') → I (as ++ [a]) s') :
    ∀ (as : List α) {pre : List α} {s s' : σ} {bs₀ bs : List β}, run step s₀ pre = some (bs₀, s) →
      I pre s → Along step P s as → run step s as = some (bs, s') → I (pre ++ as) s'
  | [], pre, _, _, _, _, _, hi, _, h => by
    cases h
    rwa [List.append_nil]
  | a :: as, pre, s, s', bs₀, bs, hpre, hi, hp, h => by
    obtain ⟨b, s₁, bs', e₁, e₂, -⟩ := run_cons_eq_some.mp h
    rw [List.append_cons]
    exact run_history hstep as (run_snoc hpre e₁) (hstep pre s bs₀ a b s₁ hpre hi hp.1 e₁)
      (hp.2 b s₁ e₁) e₂

/-- A run whose every step is defined, under an invariant its steps keep, is
defined. -/
theorem run_defined {I : σ → Prop}
    (hstep : ∀ s a, I s → P s a → ∃ b s', step s a = some (b, s') ∧ I s') :
    ∀ (as : List α) {s : σ}, I s → Along step P s as →
      ∃ bs s', run step s as = some (bs, s') ∧ I s'
  | [], s, hi, _ => ⟨[], s, rfl, hi⟩
  | a :: as, s, hi, hp => by
    obtain ⟨b, s₁, e₁, h₁⟩ := hstep s a hi hp.1
    obtain ⟨bs, s₂, e₂, h₂⟩ := run_defined hstep as h₁ (hp.2 b s₁ e₁)
    exact ⟨b :: bs, s₂, run_cons_eq_some.mpr ⟨b, s₁, bs, e₁, e₂, rfl⟩, h₂⟩

/-- Steps that meet `P` keep `I`, another step leads from `I` to `J`, and every step keeps `J`:
a run from `I` meets `P` throughout and ends in `I`, or does not and ends in `J`. -/
theorem run_breaks {I J : σ → Prop}
    (hkeep : ∀ s a b s', I s → P s a → step s a = some (b, s') → I s')
    (hbreak : ∀ s a b s', I s → ¬ P s a → step s a = some (b, s') → J s')
    (hstay : ∀ s a b s', J s → step s a = some (b, s') → J s') :
    ∀ (as : List α) {s s' : σ} {bs : List β}, I s → run step s as = some (bs, s') →
      (Along step P s as ∧ I s') ∨ (¬ Along step P s as ∧ J s')
  | [], _, _, _, hi, h => by cases h; exact .inl ⟨trivial, hi⟩
  | a :: as, s, s', bs, hi, h => by
    obtain ⟨b, s₁, bs', e₁, e₂, -⟩ := run_cons_eq_some.mp h
    by_cases hp : P s a
    · obtain ⟨ha, hi'⟩ | ⟨ha, hj⟩ := run_breaks hkeep hbreak hstay as (hkeep s a b s₁ hi hp e₁) e₂
      · refine .inl ⟨⟨hp, fun b' s₂ e => ?_⟩, hi'⟩
        rw [e₁] at e
        cases e
        exact ha
      · exact .inr ⟨fun hal => ha (hal.2 b s₁ e₁), hj⟩
    · exact .inr ⟨fun hal => hp hal.1, run_keeps hstay (hbreak s a b s₁ hi hp e₁) e₂⟩

/-- If every defined step, under an invariant it keeps, meets `P`, then so do
the steps of a defined run. -/
theorem run_along {I : σ → Prop}
    (hstep : ∀ s a b s', I s → step s a = some (b, s') → P s a ∧ I s') :
    ∀ (as : List α) {s s' : σ} {bs : List β}, I s → run step s as = some (bs, s') →
      Along step P s as
  | [], _, _, _, _, _ => trivial
  | a :: as, s, s', bs, hi, h => by
    obtain ⟨b, s₁, bs', e₁, e₂, -⟩ := run_cons_eq_some.mp h
    refine ⟨(hstep s a b s₁ hi e₁).1, fun b' s₂ e => ?_⟩
    rw [e₁] at e
    cases e
    exact run_along hstep as (hstep s a b s₁ hi e₁).2 e₂

/-- Two conditions that agree on the steps of an invariant agree along a run. -/
theorem along_congr {I : σ → Prop} {Q : σ → α → Prop}
    (hkeep : ∀ s a b s', I s → step s a = some (b, s') → I s')
    (hiff : ∀ s a, I s → (P s a ↔ Q s a)) :
    ∀ (as : List α) {s : σ}, I s → (Along step P s as ↔ Along step Q s as)
  | [], _, _ => Iff.rfl
  | a :: as, s, hi => and_congr (hiff s a hi) (forall_congr' fun b => forall_congr' fun s' =>
      imp_congr_right fun e => along_congr hkeep hiff as (hkeep s a b s' hi e))

section Simulation

variable {τ : Type*}

/-- The replies and the last state of a run of a total machine. -/
def runTotal (astep : τ → α → β × τ) : τ → List α → List β × τ
  | m, [] => ([], m)
  | m, a :: as =>
    let r := astep m a
    let q := runTotal astep r.2 as
    (r.1 :: q.1, q.2)

/-- If every step that meets `P` is matched, from related states, by the
abstract step with the same reply, then a run whose steps meet `P` is defined,
gives the abstract run's replies and ends in a related state. -/
theorem run_simulates {astep : τ → α → β × τ} {R : σ → τ → Prop}
    (hstep : ∀ s m a, R s m → P s a →
      ∃ s', step s a = some ((astep m a).1, s') ∧ R s' (astep m a).2) :
    ∀ (as : List α) {s : σ} {m : τ}, R s m → Along step P s as →
      ∃ s', run step s as = some ((runTotal astep m as).1, s') ∧ R s' (runTotal astep m as).2
  | [], s, _, hr, _ => ⟨s, rfl, hr⟩
  | a :: as, s, m, hr, hp => by
    obtain ⟨s₁, e₁, h₁⟩ := hstep s m a hr hp.1
    obtain ⟨s₂, e₂, h₂⟩ := run_simulates hstep as h₁ (hp.2 _ _ e₁)
    exact ⟨s₂, run_cons_eq_some.mpr ⟨_, s₁, _, e₁, e₂, rfl⟩, h₂⟩

/-- If every defined abstract step is matched, from related states, by a step with the same reply,
then so is every defined abstract run. -/
theorem run_refines {astep : τ → α → Option (β × τ)} {R : σ → τ → Prop}
    (hstep : ∀ s m a b m', R s m → astep m a = some (b, m') →
      ∃ s', step s a = some (b, s') ∧ R s' m') :
    ∀ (as : List α) {s : σ} {m m' : τ} {bs : List β}, R s m → run astep m as = some (bs, m') →
      ∃ s', run step s as = some (bs, s') ∧ R s' m'
  | [], s, _, _, _, hr, h => by cases h; exact ⟨s, rfl, hr⟩
  | a :: as, s, m, m', bs, hr, h => by
    obtain ⟨b, m₁, bs', e₁, e₂, rfl⟩ := run_cons_eq_some.mp h
    obtain ⟨s₁, f₁, h₁⟩ := hstep s m a b m₁ hr e₁
    obtain ⟨s₂, f₂, h₂⟩ := run_refines hstep as h₁ e₂
    exact ⟨s₂, run_cons_eq_some.mpr ⟨b, s₁, bs', f₁, f₂, rfl⟩, h₂⟩

end Simulation

end Fedis.Framework

import Mathlib.Data.List.Basic
import Fedis.Framework.Run

/-!
# First-in first-out streams

A stream is written at its end and read from its start. `IsFifo` says of a machine with these two
operations that it is one: after every part of a run, what was read and what is still there are what
was written, and each read gives as much as it asks for, or all there is.

* `fifo_iff`: this is what the list with its elements in order gives;
* `isFifo_cons`: step by step;
* `isFifo_iff`: a condition that tells, under an invariant, whether one step is the list's tells
  along a run whether the machine is a stream.
-/

namespace Fedis.Framework

variable {σ α : Type*}

inductive StreamOp (α : Type*) where
  | write (as : List α)
  | read (n : Nat)
deriving DecidableEq, Repr

/-- What the writes of a run have written. -/
def written : List (StreamOp α) → List α
  | [] => []
  | .write as :: ops => as ++ written ops
  | .read _ :: ops => written ops

/-- With `n` elements there, each read gives the number it asks for, or all. -/
def Served : Nat → List (StreamOp α) → List (List α) → Prop
  | _, [], [] => True
  | n, .write as :: ops, r :: rs => r = [] ∧ Served (n + as.length) ops rs
  | n, .read k :: ops, r :: rs => r.length = min k n ∧ Served (n - r.length) ops rs
  | _, [], _ :: _ | _, _ :: _, [] => False

/-- An operation on the elements in order. -/
def fifoStep (q : List α) : StreamOp α → List α × List α
  | .write as => ([], q ++ as)
  | .read n => (q.take n, q.drop n)

theorem fifo_iff {ops : List (StreamOp α)} {q rest : List α} {rs : List (List α)} :
    Served q.length ops rs ∧ rs.flatten ++ rest = q ++ written ops ↔
      (rs, rest) = runTotal fifoStep q ops := by
  induction ops generalizing q rs with
  | nil =>
    cases rs with
    | nil => simp [Served, written, runTotal]
    | cons r rs => simp [Served, runTotal]
  | cons op ops ih =>
    cases rs with
    | nil => simp [Served, runTotal]
    | cons r rs =>
      rw [runTotal, Prod.mk.injEq, List.cons.injEq, and_assoc, ← Prod.mk.injEq, Prod.eta, ← ih]
      cases op with
      | write as =>
        rw [Served, written, fifoStep, List.length_append, and_assoc, List.flatten_cons, List.append_assoc,
          List.append_assoc]
        exact and_congr_right fun h => by rw [h, List.nil_append]
      | read n =>
        rw [Served, written, fifoStep, List.flatten_cons, List.append_assoc, List.length_drop]
        constructor
        · rintro ⟨⟨hlen, hserved⟩, hall⟩
          have hr : r = q.take n := by
            have := congrArg (List.take r.length) hall
            rw [List.take_left, List.take_append_of_le_length (by omega), hlen, ← List.take_eq_take_min] at this
            exact this
          refine ⟨hr, ?_, ?_⟩
          · rwa [hlen, show q.length - min n q.length = q.length - n by omega] at hserved
          · rw [← List.take_append_drop n q, List.append_assoc, hr] at hall
            exact List.append_cancel_left hall
        · rintro ⟨rfl, hserved, hall⟩
          refine ⟨⟨List.length_take, ?_⟩, ?_⟩
          · rwa [List.length_take, show q.length - min n q.length = q.length - n by omega]
          · rw [hall, ← List.append_assoc, List.take_append_drop]

/-! ## Machines -/

variable {step : σ → StreamOp α → Option (List α × σ)} {content : σ → List α} {P : σ → StreamOp α → Prop}

/-- From `s` on, the machine is a stream. -/
def IsFifo (step : σ → StreamOp α → Option (List α × σ)) (content : σ → List α) (s : σ)
    (ops : List (StreamOp α)) : Prop :=
  ∀ pre, pre <+: ops → ∃ rs s', run step s pre = some (rs, s') ∧ Served (content s).length pre rs ∧
    rs.flatten ++ content s' = content s ++ written pre

/-- The step is that of the elements in order. -/
def StepFifo (step : σ → StreamOp α → Option (List α × σ)) (content : σ → List α) (s : σ)
    (op : StreamOp α) : Prop :=
  ∃ r s', step s op = some (r, s') ∧ (r, content s') = fifoStep (content s) op

theorem isFifo_nil (s : σ) : IsFifo step content s [] := by
  intro pre hpre
  obtain rfl := List.prefix_nil.mp hpre
  exact ⟨[], s, rfl, trivial, by simp [written]⟩

theorem isFifo_cons {s : σ} {op : StreamOp α} {ops : List (StreamOp α)} :
    IsFifo step content s (op :: ops) ↔
      StepFifo step content s op ∧ ∀ r s', step s op = some (r, s') → IsFifo step content s' ops := by
  simp only [IsFifo, fifo_iff]
  constructor
  · intro h
    obtain ⟨rs, s₁, hrun, hfifo⟩ := h [op] ⟨ops, rfl⟩
    obtain ⟨r, s₂, rs', hstep, hnil, rfl⟩ := run_cons_eq_some.mp hrun
    cases hnil
    rw [runTotal, Prod.mk.injEq, List.cons.injEq] at hfifo
    obtain ⟨⟨hr, -⟩, hcontent⟩ : (r = (fifoStep (content s) op).1 ∧ _) ∧
      content s₁ = (fifoStep (content s) op).2 := hfifo
    refine ⟨⟨r, s₁, hstep, Prod.ext hr hcontent⟩, fun r' s' hstep' pre hpre => ?_⟩
    rw [hstep] at hstep'
    cases hstep'
    obtain ⟨rs, s₂, hrun, hfifo⟩ := h (op :: pre) (List.prefix_cons_inj op |>.mpr hpre)
    obtain ⟨r', s₃, rs', hstep', hrest, rfl⟩ := run_cons_eq_some.mp hrun
    rw [hstep] at hstep'
    cases hstep'
    rw [runTotal, Prod.mk.injEq, List.cons.injEq, ← hcontent] at hfifo
    exact ⟨rs', s₂, hrest, Prod.ext hfifo.1.2 hfifo.2⟩
  · rintro ⟨⟨r, s₁, hstep, hfifo⟩, hrest⟩ pre hpre
    have hr : r = (fifoStep (content s) op).1 := congrArg Prod.fst hfifo
    have hcontent : content s₁ = (fifoStep (content s) op).2 := congrArg Prod.snd hfifo
    cases pre with
    | nil => exact ⟨[], s, rfl, rfl⟩
    | cons op' pre =>
      obtain ⟨rfl, htail⟩ := List.cons_prefix_cons.mp hpre
      obtain ⟨rs, s', hrun, hfifo⟩ := hrest r s₁ hstep pre htail
      refine ⟨r :: rs, s', run_cons_eq_some.mpr ⟨r, s₁, rs, hstep, hrun, rfl⟩, ?_⟩
      rw [runTotal, ← hcontent, ← hr, ← hfifo]

/-- **Streams.** Under an invariant that its steps keep, a machine is a stream as long as its steps
meet the condition for one step, and no longer. -/
theorem isFifo_iff {I : σ → Prop}
    (hkeep : ∀ s op r s', I s → step s op = some (r, s') → I s')
    (hiff : ∀ s op, I s → (StepFifo step content s op ↔ P s op)) :
    ∀ (ops : List (StreamOp α)) {s : σ}, I s → (IsFifo step content s ops ↔ Along step P s ops)
  | [], s, _ => ⟨fun _ => trivial, fun _ => isFifo_nil s⟩
  | op :: ops, s, hi => isFifo_cons.trans (and_congr (hiff s op hi) (forall_congr' fun r =>
      forall_congr' fun s' => imp_congr_right fun e => isFifo_iff hkeep hiff ops (hkeep s op r s' hi e)))

end Fedis.Framework

import Mathlib.Data.List.Basic
import Mathlib.Data.List.Forall2

/-!
# Two runs of a computation that can fail

`Both R x y`: the computations `x` and `y` fail with the same error, or return
values that are in `R`. `Both.bind` is the rule for a sequence, `Both.foldlM` for a
loop over a list, and `Both.of_eq` for two equal computations. Behind stand two lists that are
related place by place (`forall₂_getElem?`, `forall₂_modify`).
-/

namespace Fedis.Framework

universe u v w

variable {ε : Type w} {α γ : Type u} {β δ : Type v}

def Both (R : α → β → Prop) : Except ε α → Except ε β → Prop
  | .ok a, .ok b => R a b
  | .error e, .error e' => e = e'
  | _, _ => False

variable {R : α → β → Prop} {S : γ → δ → Prop} {x : Except ε α} {y : Except ε β}

theorem Both.bind {f : α → Except ε γ} {g : β → Except ε δ} (h : Both R x y)
    (hf : ∀ a b, x = .ok a → y = .ok b → R a b → Both S (f a) (g b)) : Both S (x >>= f) (y >>= g) := by
  cases x with
  | error e =>
    cases y with
    | error e' => exact h
    | ok b => exact absurd h id
  | ok a =>
    cases y with
    | error e' => exact absurd h id
    | ok b => exact hf a b rfl rfl h

theorem Both.of_eq {x y : Except ε α} (h : x = y) : Both Eq x y := by
  subst h
  cases x with
  | error e => exact rfl
  | ok a => exact rfl

theorem Both.foldlM {ι : Type*} {R : α → β → Prop} {f : α → ι → Except ε α}
    {g : β → ι → Except ε β}
    (hstep : ∀ a b i, R a b → Both R (f a i) (g b i)) :
    ∀ (is : List ι) {a : α} {b : β}, R a b → Both R (is.foldlM f a) (is.foldlM g b)
  | [], _, _, h => h
  | i :: is, a, b, h => by
    rw [List.foldlM_cons, List.foldlM_cons]
    exact Both.bind (hstep a b i h) fun _ _ _ _ h => Both.foldlM hstep is h

/-! ## Lists that are related place by place -/

theorem forall₂_getElem? {R : α → β → Prop} {l : List α} {l' : List β}
    (h : List.Forall₂ R l l') {i : Nat} {b : β} (hb : l'[i]? = some b) :
    ∃ a, l[i]? = some a ∧ R a b := by
  obtain ⟨hlen, hR⟩ := List.forall₂_iff_get.mp h
  obtain ⟨hi, rfl⟩ := List.getElem?_eq_some_iff.mp hb
  exact ⟨l[i], List.getElem?_eq_getElem (hlen ▸ hi), hR i (hlen ▸ hi) hi⟩

theorem forall₂_modify {R : α → β → Prop} {as : List α} {bs : List β} {n : Nat} {a : α}
    {f : β → β} (h : List.Forall₂ R as bs) (hf : ∀ b, bs[n]? = some b → R a (f b)) :
    List.Forall₂ R (as.set n a) (bs.modify n f) := by
  induction h generalizing n with
  | nil => rw [List.set_nil, List.modify_nil]; exact .nil
  | @cons a₁ b₁ as bs hab hall ih =>
    cases n with
    | zero => exact .cons (hf b₁ rfl) hall
    | succ n => exact .cons hab (ih hf)

end Fedis.Framework

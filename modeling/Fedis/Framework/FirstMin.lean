import Mathlib.Data.List.Basic
import Mathlib.Order.Lattice

/-!
# The first least element of a list

* `FirstMin.unique`: there is one;
* `foldl_firstMin`: a search that changes its mind for smaller keys only finds it.
-/

namespace Fedis.Framework

variable {α β : Type*} [LinearOrder β] {key : α → β} {a b : α} {l : List α}

/-- Those before it have larger keys, those behind it none smaller. -/
def FirstMin (key : α → β) (l : List α) (a : α) : Prop :=
  ∃ pre post, l = pre ++ a :: post ∧ (∀ b ∈ pre, key a < key b) ∧ ∀ b ∈ post, key a ≤ key b

theorem FirstMin.mem (h : FirstMin key l a) : a ∈ l := by
  obtain ⟨pre, post, rfl, -, -⟩ := h
  exact List.mem_append_right _ List.mem_cons_self

theorem FirstMin.le (h : FirstMin key l a) : ∀ b ∈ l, key a ≤ key b := by
  obtain ⟨pre, post, rfl, hpre, hpost⟩ := h
  intro b hb
  rcases List.mem_append.mp hb with hb | hb
  · exact le_of_lt (hpre b hb)
  · rcases List.mem_cons.mp hb with rfl | hb
    · exact le_refl _
    · exact hpost b hb

theorem FirstMin.unique (ha : FirstMin key l a) (hb : FirstMin key l b) : a = b := by
  have hkey := le_antisymm (ha.le b hb.mem) (hb.le a ha.mem)
  obtain ⟨pre, post, rfl, hpre, -⟩ := ha
  obtain ⟨pre', post', heq, hpre', -⟩ := hb
  rcases List.append_eq_append_iff.mp heq with ⟨t, rfl, ht⟩ | ⟨t, rfl, ht⟩
  · cases t with
    | nil => exact (List.cons.inj ht).1
    | cons c t =>
      obtain ⟨rfl, -⟩ := List.cons.inj ht
      exact absurd hkey.symm (ne_of_lt (hpre' a (List.mem_append_right _ List.mem_cons_self)))
  · cases t with
    | nil => exact (List.cons.inj ht).1.symm
    | cons c t =>
      obtain ⟨rfl, -⟩ := List.cons.inj ht
      exact absurd hkey (ne_of_lt (hpre b (List.mem_append_right _ List.mem_cons_self)))

theorem FirstMin.cons (h : FirstMin key l a) (hb : key a < key b) : FirstMin key (b :: l) a := by
  obtain ⟨pre, post, rfl, hpre, hpost⟩ := h
  exact ⟨b :: pre, post, rfl, List.forall_mem_cons.mpr ⟨hb, hpre⟩, hpost⟩

/-- An element behind the first one that is not smaller. -/
theorem FirstMin.insert {c : α} (h : FirstMin key (b :: l) a) (hc : key b ≤ key c) :
    FirstMin key (b :: c :: l) a := by
  obtain ⟨pre, post, heq, hpre, hpost⟩ := h
  cases pre with
  | nil =>
    obtain ⟨rfl, rfl⟩ := List.cons.inj heq
    exact ⟨[], c :: l, rfl, hpre, List.forall_mem_cons.mpr ⟨hc, hpost⟩⟩
  | cons d pre =>
    obtain ⟨rfl, rfl⟩ := List.cons.inj heq
    obtain ⟨hb, hpre⟩ := List.forall_mem_cons.mp hpre
    exact ⟨b :: c :: pre, post, rfl, List.forall_mem_cons.mpr
      ⟨hb, List.forall_mem_cons.mpr ⟨lt_of_lt_of_le hb hc, hpre⟩⟩, hpost⟩

/-- The step of the search. -/
def keepFirst (key : α → β) (nearest : Option α) (b : α) : Option α :=
  if nearest.all fun a => key b < key a then some b else nearest

theorem firstMin_some (key : α → β) (l : List α) (b : α) : ∃ a, l.foldl (keepFirst key) (some b) = some a ∧
    FirstMin key (b :: l) a := by
  induction l generalizing b with
  | nil => exact ⟨b, rfl, [], [], rfl, List.forall_mem_nil _, List.forall_mem_nil _⟩
  | cons c l ih =>
    rw [List.foldl_cons]
    by_cases hlt : key c < key b
    · have hstep : keepFirst key (some b) c = some c := if_pos (decide_eq_true hlt)
      obtain ⟨a, hfold, hmin⟩ := ih c
      rw [hstep]
      exact ⟨a, hfold, hmin.cons (lt_of_le_of_lt (hmin.le c List.mem_cons_self) hlt)⟩
    · have hstep : keepFirst key (some b) c = some b :=
        if_neg fun h => hlt (of_decide_eq_true h)
      obtain ⟨a, hfold, hmin⟩ := ih b
      rw [hstep]
      exact ⟨a, hfold, hmin.insert (not_lt.mp hlt)⟩

/-- **The search.** -/
theorem foldl_firstMin : l.foldl (keepFirst key) none = some a ↔ FirstMin key l a := by
  cases l with
  | nil =>
    refine ⟨fun h => ?_, fun h => ?_⟩
    · cases h
    · cases h.mem
  | cons b l =>
    obtain ⟨a', hfold, hmin⟩ := firstMin_some key l b
    show l.foldl (keepFirst key) (some b) = some a ↔ _
    rw [hfold, Option.some.injEq]
    exact ⟨fun h => h ▸ hmin, hmin.unique⟩

end Fedis.Framework

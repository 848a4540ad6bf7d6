import Mathlib.Data.List.Basic

/-!
# Guards over a history

Some events arm a guard, and some events trip it if they come later. A machine
guards its history if its state shows the guard as up once it has been armed, and
as down once it has been tripped. That is kept event by event (`Guarded.concat`)
and by steps without an event (`Guarded.mono`).
-/

namespace Fedis.Framework

variable {α : Type*} {arms trips : α → Prop} {up down up' down' : Prop} {l : List α} {a : α}

/-- An event of the history arms the guard. -/
def Armed (arms : α → Prop) (l : List α) : Prop := ∃ a ∈ l, arms a

/-- An event that trips the guard follows one that arms it. -/
def Tripped (arms trips : α → Prop) (l : List α) : Prop :=
  ∃ pre a post, l = pre ++ a :: post ∧ arms a ∧ ∃ b ∈ post, trips b

theorem armed_concat : Armed arms (l ++ [a]) ↔ Armed arms l ∨ arms a := by
  simp [Armed, or_and_right, exists_or]

theorem tripped_concat (h : Tripped arms trips (l ++ [a])) :
    Tripped arms trips l ∨ (Armed arms l ∧ trips a) := by
  obtain ⟨pre, w, post, e, hw, b, hb, ht⟩ := h
  rcases List.eq_nil_or_concat post with rfl | ⟨post, last, rfl⟩
  · cases hb
  · rw [List.concat_eq_append, ← List.cons_append, ← List.append_assoc] at e
    obtain ⟨rfl, e⟩ := List.append_inj' e rfl
    obtain rfl : a = last := by simpa using e
    rw [List.concat_eq_append, List.mem_append, List.mem_singleton] at hb
    rcases hb with hb | rfl
    · exact .inl ⟨pre, w, post, rfl, hw, b, hb, ht⟩
    · exact .inr ⟨⟨w, by simp, hw⟩, ht⟩

theorem Armed.append (h : Armed arms l) (m : List α) : Armed arms (l ++ m) := by
  obtain ⟨a, ha, h⟩ := h
  exact ⟨a, List.mem_append_left _ ha, h⟩

theorem Tripped.append (h : Tripped arms trips l) (m : List α) : Tripped arms trips (l ++ m) := by
  obtain ⟨pre, a, post, rfl, ha, b, hb, ht⟩ := h
  exact ⟨pre, a, post ++ m, by simp, ha, b, List.mem_append_left _ hb, ht⟩

/-- Later events trip an armed guard. -/
theorem Armed.tripped (h : Armed arms l) {m : List α} (hm : ∃ b ∈ m, trips b) :
    Tripped arms trips (l ++ m) := by
  obtain ⟨a, ha, h⟩ := h
  obtain ⟨b, hb, ht⟩ := hm
  obtain ⟨pre, post, rfl⟩ := List.mem_iff_append.mp ha
  exact ⟨pre, a, post ++ m, by simp, h, b, List.mem_append_right _ hb, ht⟩

/-- What a state shows of the guard is what the history says. -/
structure Guarded (arms trips : α → Prop) (up down : Prop) (l : List α) : Prop where
  armed : Armed arms l → up
  tripped : Tripped arms trips l → down

namespace Guarded

theorem nil : Guarded arms trips up down [] := by
  refine ⟨?_, ?_⟩
  · rintro ⟨a, ha, -⟩
    cases ha
  · rintro ⟨pre, a, post, e, -⟩
    simp at e

theorem mono (h : Guarded arms trips up down l) (hup : up → up') (hdown : down → down') :
    Guarded arms trips up' down' l :=
  ⟨fun ha => hup (h.armed ha), fun ht => hdown (h.tripped ht)⟩

theorem concat (h : Guarded arms trips up down l) (hup : up → up') (hdown : down → down')
    (harm : arms a → up') (htrip : up → trips a → down') : Guarded arms trips up' down' (l ++ [a]) where
  armed ha := by
    rcases armed_concat.mp ha with ha | ha
    · exact hup (h.armed ha)
    · exact harm ha
  tripped ht := by
    rcases tripped_concat ht with ht | ⟨ha, ht⟩
    · exact hdown (h.tripped ht)
    · exact htrip (h.armed ha) ht

end Guarded

end Fedis.Framework

import Mathlib.Data.List.Basic

/-!
# Streams of messages

A stream that carries messages one behind the other, written by a code whose words are told
apart whatever follows them. A reader that finds a word at the front has the first message
(`PrefixFree.front`), also when only the front of the stream has arrived (`PrefixFree.take`).
-/

namespace Fedis.Framework

variable {α β : Type*} {ok : α → Prop} {enc : α → List β}

/-- No word is the front of another one, nor of what follows it. -/
structure PrefixFree (ok : α → Prop) (enc : α → List β) : Prop where
  ne_nil : ∀ a, ok a → enc a ≠ []
  unique : ∀ {a b r r'}, ok a → ok b → enc a ++ r = enc b ++ r' → a = b

namespace PrefixFree

variable (hf : PrefixFree ok enc)
include hf

theorem front {a : α} {as : List α} {r : List β} (ha : ok a) (has : ∀ b ∈ as, ok b)
    (h : enc a ++ r = as.flatMap enc) : ∃ bs, as = a :: bs ∧ r = bs.flatMap enc := by
  cases as with
  | nil => exact absurd (List.append_eq_nil_iff.mp h).1 (hf.ne_nil a ha)
  | cons b bs =>
    rw [List.flatMap_cons] at h
    obtain rfl := hf.unique ha (has b List.mem_cons_self) h
    exact ⟨bs, rfl, List.append_cancel_left h⟩

/-- An empty stream carries nothing. -/
theorem nil {as : List α} (has : ∀ b ∈ as, ok b) (h : [] = as.flatMap enc) : as = [] := by
  cases as with
  | nil => rfl
  | cons b bs =>
    rw [List.flatMap_cons] at h
    exact absurd (List.append_eq_nil_iff.mp h.symm).1 (hf.ne_nil b (has b List.mem_cons_self))

/-- A stream is read in one way. -/
theorem injective {as : List α} : ∀ {bs : List α}, (∀ a ∈ as, ok a) → (∀ b ∈ bs, ok b) →
    as.flatMap enc = bs.flatMap enc → as = bs := by
  induction as with
  | nil =>
    intro bs _ hbs h
    exact (hf.nil hbs h).symm
  | cons a as ih =>
    intro bs has hbs h
    obtain ⟨bs', rfl, hrest⟩ := hf.front (has a List.mem_cons_self) hbs h
    rw [ih (fun b hb => has b (List.mem_cons_of_mem a hb))
      (fun b hb => hbs b (List.mem_cons_of_mem a hb)) hrest]

end PrefixFree

/-- The stream is these messages, all of one kind. -/
structure Carries (enc : α → List β) (kind : α → Prop) (stream : List β) (as : List α) : Prop where
  kind : ∀ a ∈ as, kind a
  stream : stream = as.flatMap enc

namespace Carries

variable {kind : α → Prop} {stream arrived rest : List β} {a : α} {as : List α} {n : Nat}

theorem nil : Carries enc kind [] [] := ⟨fun _ h => absurd h List.not_mem_nil, rfl⟩

theorem push (h : Carries enc kind stream as) (ha : kind a) :
    Carries enc kind (stream ++ enc a) (as ++ [a]) where
  kind b hb := (List.mem_append.mp hb).elim (h.kind b) fun e => List.mem_singleton.mp e ▸ ha
  stream := by rw [h.stream, List.flatMap_append, List.flatMap_singleton]

/-- `arrived` is what a read takes from, and `rest` what comes later. -/
theorem take (hf : PrefixFree ok enc) (hkind : ∀ a, kind a → ok a)
    (h : Carries enc kind (arrived ++ rest) as) (ha : ok a) (hn : arrived.take n = enc a) :
    kind a ∧ ∃ bs, as = a :: bs ∧ Carries enc kind (arrived.drop n ++ rest) bs := by
  have hstream : enc a ++ (arrived.drop n ++ rest) = as.flatMap enc := by
    rw [← h.stream, ← hn, ← List.append_assoc, List.take_append_drop]
  obtain ⟨bs, rfl, hrest⟩ := hf.front ha (fun b hb => hkind b (h.kind b hb)) hstream
  exact ⟨h.kind a List.mem_cons_self, bs, rfl, fun b hb => h.kind b (List.mem_cons_of_mem a hb), hrest⟩

end Carries

end Fedis.Framework

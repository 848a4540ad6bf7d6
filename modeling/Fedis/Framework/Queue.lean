import Fedis.Framework.Bytes

/-!
# Bounded queues and circular memory

`Queue α cap` is a first-in first-out queue of at most `cap` elements. Its bytes
can be kept in a region of memory that is read and written around its end:

* `circular_append`: a write behind the `n` bytes kept appends to them;
* `circular_take`, `circular_drop`: the first bytes kept, and the others;
* `circular_eq_readAt`, `circular_eq_append`: the bytes kept are one piece of the
  region, or its end and then its start.
-/

namespace Fedis.Framework

/-- A queue of at most `cap` elements. -/
structure Queue (α : Type*) (cap : Nat) where
  items : List α
  bounded : items.length ≤ cap
deriving DecidableEq, Repr

namespace Queue

variable {α : Type*} {cap : Nat}

def empty : Queue α cap := ⟨[], Nat.zero_le _⟩

/-- Appends `xs`, if there is room for all of them. -/
def push (q : Queue α cap) (xs : List α) : Option (Queue α cap) :=
  if h : q.items.length + xs.length ≤ cap then
    some ⟨q.items ++ xs, by rw [List.length_append]; exact h⟩
  else none

/-- Takes the first `n` elements, if there are that many. -/
def pop (q : Queue α cap) (n : Nat) : Option (List α × Queue α cap) :=
  if n ≤ q.items.length then
    some (q.items.take n, ⟨q.items.drop n, by
      rw [List.length_drop]; exact (Nat.sub_le _ _).trans q.bounded⟩)
  else none

/-- Two pieces are appended one after the other. -/
theorem push_append (q : Queue α cap) (xs ys : List α) :
    q.push (xs ++ ys) = (q.push xs).bind (·.push ys) := by
  simp only [push, List.length_append]
  by_cases h : q.items.length + xs.length ≤ cap
  · rw [dif_pos h]
    simp only [Option.bind_some, List.length_append, List.append_assoc, Nat.add_assoc]
  · rw [dif_neg h, dif_neg (by omega)]
    rfl

theorem push_eq_none {q : Queue α cap} {xs : List α} (h : cap < q.items.length + xs.length) :
    q.push xs = none := dif_neg (Nat.not_le.mpr h)

theorem push_eq_some {q : Queue α cap} {xs : List α} (h : ¬ cap < q.items.length + xs.length) :
    ∃ q', q.push xs = some q' := ⟨_, dif_pos (Nat.not_lt.mp h)⟩

theorem pop_eq_none {q : Queue α cap} {n : Nat} (h : q.items.length < n) : q.pop n = none :=
  if_neg (Nat.not_le.mpr h)

theorem pop_eq_some {q : Queue α cap} {n : Nat} (h : ¬ q.items.length < n) :
    ∃ q', q.pop n = some (q.items.take n, q') := ⟨_, if_pos (Nat.not_lt.mp h)⟩

end Queue

/-- The `n` bytes of a region from index `head` on, around its end. -/
def circular (m : Bytes) (head n : Nat) : Bytes := readAt (m ++ m) head n

section Circular

variable {m : Bytes} {head n : Nat}

theorem mod_cases {i k : Nat} (h : i < 2 * k) :
    i % k = i ∧ i < k ∨ i % k = i - k ∧ k ≤ i := by
  by_cases hlt : i < k
  · exact .inl ⟨Nat.mod_eq_of_lt hlt, hlt⟩
  · exact .inr ⟨by rw [Nat.mod_eq_sub_mod (by omega), Nat.mod_eq_of_lt (by omega)], by omega⟩

@[simp] theorem length_circular : (circular m head n).length = n := length_readAt _ _ _

theorem getD_circular (hh : head < m.length) (hn : n ≤ m.length) {j : Nat} (hj : j < n) :
    (circular m head n).getD j 0 = m.getD ((head + j) % m.length) 0 := by
  rw [circular, getD_readAt, if_pos hj, getD_append]
  split
  · rw [Nat.mod_eq_of_lt (by omega)]
  · rw [Nat.mod_eq_sub_mod (by omega), Nat.mod_eq_of_lt (by omega)]

/-- Bytes that do not reach the end of the region. -/
theorem circular_eq_readAt (h : head + n ≤ m.length) : circular m head n = readAt m head n := by
  refine bytes_ext (by simp) fun j hj => ?_
  rw [length_circular] at hj
  rw [circular, getD_readAt, getD_readAt, if_pos hj, if_pos hj, getD_append, if_pos (by omega)]

/-- Bytes that reach the end of the region: those up to it, then those from its start on. -/
theorem circular_eq_append (hh : head ≤ m.length) (h : m.length ≤ head + n) :
    circular m head n = readAt m head (m.length - head) ++ readAt m 0 (n - (m.length - head)) := by
  refine bytes_ext (by simp only [length_circular, List.length_append, length_readAt]; omega)
    fun j hj => ?_
  rw [length_circular] at hj
  rw [circular, getD_readAt, if_pos hj, getD_append, getD_append, length_readAt, getD_readAt,
    getD_readAt]
  by_cases hlt : j < m.length - head
  · rw [if_pos (by omega), if_pos hlt, if_pos hlt]
  · rw [if_neg (by omega), if_neg hlt, if_pos (by omega)]
    congr 1
    omega

/-- A write of one piece behind the bytes kept. -/
theorem circular_append (hh : head < m.length) {bs : Bytes} (hn : n + bs.length ≤ m.length)
    (ht : (head + n) % m.length + bs.length ≤ m.length) :
    circular (writeAt m ((head + n) % m.length) bs) head (n + bs.length) =
      circular m head n ++ bs := by
  have hl : (writeAt m ((head + n) % m.length) bs).length = m.length :=
    (length_writeAt_eq_iff _ _ _).mpr ht
  refine bytes_ext (by simp) fun j hj => ?_
  rw [length_circular] at hj
  rw [getD_circular (by rw [hl]; exact hh) (by rw [hl]; exact hn) hj, hl, getD_writeAt, getD_append,
    length_circular]
  -- both indexes go around at most once
  have hw := mod_cases (by omega : head + n < 2 * m.length)
  have hj' := mod_cases (by omega : head + j < 2 * m.length)
  by_cases hjn : j < n
  · rw [if_pos hjn, getD_circular hh (by omega) hjn, if_neg (by omega)]
  · rw [if_neg hjn, if_pos (by omega)]
    congr 1
    omega

theorem circular_take {k : Nat} (hk : k ≤ n) :
    (circular m head n).take k = circular m head k := by
  refine bytes_ext (by simp [hk]) fun j hj => ?_
  simp only [List.length_take, length_circular] at hj
  rw [List.getD_eq_getElem?_getD, List.getElem?_take_of_lt (by omega), ← List.getD_eq_getElem?_getD,
    circular, circular, getD_readAt, getD_readAt, if_pos (by omega), if_pos (by omega)]

theorem circular_drop (hh : head < m.length) (hn : n ≤ m.length) {k : Nat} (hk : k ≤ n) :
    (circular m head n).drop k = circular m ((head + k) % m.length) (n - k) := by
  refine bytes_ext (by simp) fun j hj => ?_
  simp only [List.length_drop, length_circular] at hj
  rw [List.getD_eq_getElem?_getD, List.getElem?_drop, ← List.getD_eq_getElem?_getD,
    getD_circular hh hn (by omega), getD_circular (Nat.mod_lt _ (by omega)) (by omega) hj,
    Nat.mod_add_mod, Nat.add_assoc]

end Circular

end Fedis.Framework

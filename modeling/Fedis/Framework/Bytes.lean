import Mathlib.Data.List.GetD
import Mathlib.Data.List.TakeWhile
import Mathlib.Data.UInt

/-!
# Byte memory

A region of memory is the list of its bytes. `writeAt` stores bytes at an index,
`readAt` reads a number of them; both take the memory to go on behind the list
with zeros, so that a write stayed inside a region iff it left its length alone
(`length_writeAt_eq_iff`). `cstr` is the C string at the start of a region.

* `getD_writeAt`, `getD_readAt`: both operations byte by byte;
* `readAt_writeAt_append`: what a write at the end of some content adds to it;
* `readAt_eq`: a read inside the region;
* `cstr_append`, `cstr_eq_self`: the C string of a terminated string.
-/

namespace Fedis.Framework

abbrev Bytes := List UInt8

/-- The bytes of a string of ASCII characters. -/
def bytes (s : String) : Bytes := s.toList.map fun c => c.val.toUInt8

/-- Stores `bs` at index `i`. -/
def writeAt (m : Bytes) (i : Nat) (bs : Bytes) : Bytes :=
  m.take i ++ List.replicate (i - m.length) 0 ++ bs ++ m.drop (i + bs.length)

/-- The `n` bytes from index `i` on. -/
def readAt (m : Bytes) (i n : Nat) : Bytes :=
  (m.drop i).take n ++ List.replicate (n - (m.length - i)) 0

/-- The bytes before the first NUL. -/
def cstr (m : Bytes) : Bytes := m.takeWhile (· != 0)

section Write

variable (m : Bytes) (i : Nat) (bs : Bytes)

theorem length_writeAt : (writeAt m i bs).length = max m.length (i + bs.length) := by
  simp only [writeAt, List.length_append, List.length_take, List.length_replicate, List.length_drop]
  omega

/-- A write is inside the region iff it leaves the region's length alone. -/
theorem length_writeAt_eq_iff : (writeAt m i bs).length = m.length ↔ i + bs.length ≤ m.length := by
  rw [length_writeAt]
  omega

theorem getD_writeAt (j : Nat) :
    (writeAt m i bs).getD j 0 =
      if i ≤ j ∧ j < i + bs.length then bs.getD (j - i) 0 else m.getD j 0 := by
  have hl : (m.take i ++ List.replicate (i - m.length) 0).length = i := by
    simp only [List.length_append, List.length_take, List.length_replicate]
    omega
  simp only [writeAt, List.getD_eq_getElem?_getD]
  by_cases h₁ : j < i
  · rw [if_neg (by omega), List.append_assoc, List.getElem?_append_left (by omega)]
    by_cases h₂ : j < m.length
    · rw [List.getElem?_append_left (by rw [List.length_take]; omega), List.getElem?_take_of_lt h₁]
    · rw [List.getElem?_append_right (by rw [List.length_take]; omega), List.getElem?_replicate,
        List.getElem?_eq_none (by omega)]
      split <;> rfl
  · by_cases h₂ : j < i + bs.length
    · rw [if_pos (by omega), List.append_assoc, List.getElem?_append_right (by omega), hl,
        List.getElem?_append_left (by omega)]
    · rw [if_neg (by omega), List.getElem?_append_right (by rw [List.length_append]; omega),
        List.getElem?_drop, List.length_append, hl,
        show i + bs.length + (j - (i + bs.length)) = j by omega]

/-- Writing nothing inside a region changes nothing. -/
theorem writeAt_nil (h : i ≤ m.length) : writeAt m i [] = m := by
  simp [writeAt, Nat.sub_eq_zero_of_le h]

end Write

section Read

variable (m : Bytes) (i n : Nat)

@[simp] theorem length_readAt : (readAt m i n).length = n := by
  simp only [readAt, List.length_append, List.length_take, List.length_drop, List.length_replicate]
  omega

@[simp] theorem readAt_zero : readAt m i 0 = [] := by simp [readAt]

theorem getD_readAt (j : Nat) : (readAt m i n).getD j 0 = if j < n then m.getD (i + j) 0 else 0 := by
  simp only [readAt, List.getD_eq_getElem?_getD]
  by_cases h : j < min n (m.length - i)
  · rw [List.getElem?_append_left (by simpa using h), List.getElem?_take_of_lt (by omega),
      List.getElem?_drop, if_pos (by omega)]
  · rw [List.getElem?_append_right (by simpa using Nat.le_of_not_lt h), List.getElem?_replicate]
    by_cases hn : j < n
    · rw [if_pos hn, List.getElem?_eq_none (l := m) (by omega)]
      split <;> rfl
    · rw [if_neg hn]
      split <;> rfl

/-- A read inside the region. -/
theorem readAt_eq (h : i + n ≤ m.length) : readAt m i n = (m.drop i).take n := by
  rw [readAt, Nat.sub_eq_zero_of_le (by omega), List.replicate_zero, List.append_nil]

end Read

/-- Two byte strings of one length with the same bytes are equal. -/
theorem bytes_ext {a b : Bytes} (hl : a.length = b.length)
    (h : ∀ j < a.length, a.getD j 0 = b.getD j 0) : a = b := by
  refine List.ext_getElem hl fun j h₁ h₂ => ?_
  have := h j h₁
  rwa [List.getD_eq_getElem _ _ h₁, List.getD_eq_getElem _ _ h₂] at this

theorem getD_append (a b : Bytes) (j : Nat) :
    (a ++ b).getD j 0 = if j < a.length then a.getD j 0 else b.getD (j - a.length) 0 := by
  split
  · rename_i h
    exact List.getD_append _ _ _ _ h
  · rename_i h
    exact List.getD_append_right _ _ _ _ (by omega)

/-- A write at the end of some content appends to it. -/
theorem readAt_writeAt_append (m : Bytes) (i n : Nat) (bs : Bytes) :
    readAt (writeAt m (i + n) bs) i (n + bs.length) = readAt m i n ++ bs := by
  refine bytes_ext (by simp) fun j hj => ?_
  rw [length_readAt] at hj
  rw [getD_readAt, getD_writeAt, getD_append, getD_readAt, length_readAt, if_pos hj]
  by_cases h : j < n
  · rw [if_neg (by omega), if_pos h, if_pos h]
  · rw [if_pos (by omega), if_neg h, show i + j - (i + n) = j - n by omega]

/-- The end of a read is a read. -/
theorem drop_readAt (m : Bytes) (i n k : Nat) :
    (readAt m i n).drop k = readAt m (i + k) (n - k) := by
  refine bytes_ext (by simp) fun j hj => ?_
  rw [List.length_drop, length_readAt] at hj
  rw [List.getD_eq_getElem?_getD, List.getElem?_drop, ← List.getD_eq_getElem?_getD, getD_readAt,
    getD_readAt, if_pos (by omega), if_pos hj, Nat.add_assoc]

/-- A read does not see a write behind it. -/
theorem readAt_writeAt_of_le (m : Bytes) {i n k : Nat} (bs : Bytes) (h : i + n ≤ k) :
    readAt (writeAt m k bs) i n = readAt m i n := by
  refine bytes_ext (by simp) fun j hj => ?_
  rw [length_readAt] at hj
  rw [getD_readAt, getD_readAt, getD_writeAt, if_pos hj, if_pos hj, if_neg (by omega)]

/-! ## C strings -/

theorem cstr_append {s : Bytes} (hs : ∀ b ∈ s, b ≠ 0) (m : Bytes) :
    cstr (s ++ m) = s ++ cstr m :=
  List.takeWhile_append_of_pos fun b hb => bne_iff_ne.mpr (hs b hb)

/-- A terminated string is its own C string. -/
theorem cstr_append_zero {s : Bytes} (hs : ∀ b ∈ s, b ≠ 0) (m : Bytes) : cstr (s ++ 0 :: m) = s := by
  rw [cstr_append hs, cstr, List.takeWhile_cons_of_neg (by decide), List.append_nil]

theorem cstr_eq_self {s : Bytes} (hs : ∀ b ∈ s, b ≠ 0) : cstr s = s :=
  List.takeWhile_eq_self_iff.mpr fun b hb => bne_iff_ne.mpr (hs b hb)

theorem cstr_ne_zero {m : Bytes} : ∀ b ∈ cstr m, b ≠ 0 := fun _ hb =>
  bne_iff_ne.mp (List.mem_takeWhile_imp (p := (· != 0)) hb)

end Fedis.Framework

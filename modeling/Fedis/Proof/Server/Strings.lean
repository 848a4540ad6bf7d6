import Fedis.Proof.Server.Basic

/-!
# A buffer: bytes on at its end, and off at its front

`Holds` says what is in a string and in front of its memory, where functions read on
that do not know its length.

* `sdsrange_tail`, `getD_sdsTail`: `sdsrange` from an index to the
  last one, which is -1 for the empty string, moves the rest to the front, with a NUL
  behind it; a start behind the end fails the assertion;
* `holds_sdscatlen`, `holds_sdsTail`: what a string holds then;
* `getD_sdscatlen_stale`: old bytes behind the content.
-/

namespace Fedis.Proof.Server

open Framework

variable (ss : Sds) {k : Nat}

/-- The string without its first `k` bytes. -/
def sdsTail (ss : Sds) (k : Nat) : Sds :=
  { ss with
    buf := writeAt (if 0 < ss.len - k then writeAt ss.buf 0 (readAt ss.buf k (ss.len - k)) else ss.buf)
      (ss.len - k) [0]
    len := ss.len - k
    free := ss.free + ss.len - (ss.len - k) }

theorem sdsrange_tail (k : Nat) :
    sdsrange ss k (ss.len - 1) = if k ≤ ss.len then some (sdsTail ss k) else none := by
  have hstop : sdsIndex ss (ss.len - 1) = ss.len - 1 := by
    unfold sdsIndex sdslen
    split <;> omega
  have hstart : sdsIndex ss k = k := if_neg (by omega)
  unfold sdsrange sdslen
  dsimp only
  rw [hstop, hstart, if_neg (by omega)]
  by_cases h : k ≤ ss.len
  · have hn : ((ss.len : Int) - 1 - k + 1).toNat = ss.len - k := by omega
    rw [if_neg (by omega), if_pos h, hn, Int.toNat_natCast, sdsTail]
  · rw [if_pos (by omega), if_neg h]

@[simp] theorem len_sdsTail (k : Nat) : (sdsTail ss k).len = ss.len - k := rfl

theorem getD_sdsTail (k i : Nat) : (sdsTail ss k).buf.getD i 0 =
    if i < ss.len - k then ss.buf.getD (k + i) 0
    else if i = ss.len - k then 0 else ss.buf.getD i 0 := by
  rw [sdsTail, getD_writeAt]
  simp only [List.length_cons, List.length_nil, Nat.zero_add]
  by_cases h : i < ss.len - k
  · rw [if_neg (by omega), if_pos (by omega), getD_writeAt, length_readAt, if_pos (by omega), getD_readAt,
      if_pos (by omega), if_pos h, Nat.sub_zero]
  · rw [if_neg h]
    by_cases hi : i = ss.len - k
    · rw [if_pos (by omega), if_pos hi, hi, Nat.sub_self]
      rfl
    · rw [if_neg (by omega), if_neg hi]
      split
      · rw [getD_writeAt, length_readAt, if_neg (by omega)]
      · rfl

/-! ## Bytes in front of the memory -/

/-- The string is `w`, and its memory starts with it. -/
structure Holds (ss : Sds) (w : Bytes) : Prop where
  len : ss.len = w.length
  buf : w <+: ss.buf

theorem Holds.content {ss : Sds} {w : Bytes} (h : Holds ss w) : ss.content = w := by
  have hle := h.buf.length_le
  rw [Sds.content, h.len, readAt_eq _ _ _ (by omega), List.drop_zero]
  exact (List.prefix_iff_eq_take.mp h.buf).symm

theorem holds_of_getD {ss : Sds} {w : Bytes} (hl : ss.len = w.length) (hb : w.length ≤ ss.buf.length)
    (h : ∀ i < w.length, ss.buf.getD i 0 = w.getD i 0) : Holds ss w := by
  refine ⟨hl, List.prefix_iff_eq_take.mpr (bytes_ext (by rw [List.length_take]; omega) fun i hi => ?_)⟩
  rw [← h i hi, List.getD_eq_getElem?_getD, List.getD_eq_getElem?_getD, List.getElem?_take_of_lt hi]

theorem Holds.getD {ss : Sds} {w : Bytes} (h : Holds ss w) {i : Nat} (hi : i < w.length) :
    ss.buf.getD i 0 = w.getD i 0 := by
  obtain ⟨t, ht⟩ := h.buf
  rw [← ht, List.getD_eq_getElem?_getD, List.getD_eq_getElem?_getD, List.getElem?_append_left hi]

theorem holds_empty {ss : Sds} (h : ss.len = 0) : Holds ss [] := ⟨h, List.nil_prefix⟩

theorem getD_sdscatlen (ss : Sds) (bs : Bytes) (i : Nat) :
    (sdscatlen ss bs).buf.getD i 0 =
      if i < ss.len then ss.buf.getD i 0
      else if i < ss.len + bs.length then bs.getD (i - ss.len) 0
      else if ss.free < bs.length then 0 else ss.buf.getD i 0 := by
  unfold sdscatlen sdslen sdsavail
  dsimp only
  by_cases hfree : ss.free < bs.length
  · have hsize : ss.len + bs.length < sdsAllocSize (ss.len + bs.length) := by
      unfold sdsAllocSize
      split <;> omega
    rw [if_pos hfree]
    dsimp only
    simp only [getD_writeAt, List.length_replicate, reallocBuf, getD_readAt, Nat.zero_add]
    by_cases h₁ : i < ss.len
    · rw [if_neg (by omega), if_neg (by omega), if_pos (by omega), if_pos h₁]
    · by_cases h₂ : i < ss.len + bs.length
      · rw [if_pos (by omega), if_neg h₁, if_pos h₂]
      · rw [if_neg (by omega), if_neg h₁, if_neg h₂, if_pos hfree]
        split
        · rw [List.getD_eq_getElem?_getD, List.getElem?_replicate]
          split <;> rfl
        · rw [if_neg (by omega)]
  · rw [if_neg hfree]
    simp only [getD_writeAt]
    by_cases h₁ : i < ss.len
    · rw [if_neg (by omega), if_pos h₁]
    · by_cases h₂ : i < ss.len + bs.length
      · rw [if_pos (by omega), if_neg h₁, if_pos h₂]
      · rw [if_neg (by omega), if_neg h₁, if_neg h₂, if_neg hfree]

@[simp] theorem len_sdscatlen (ss : Sds) (bs : Bytes) : (sdscatlen ss bs).len = ss.len + bs.length := by
  have := congrArg List.length (content_sdscatlen ss bs)
  simpa using this

theorem length_le_sdscatlen (ss : Sds) (bs : Bytes) :
    ss.len + bs.length ≤ (sdscatlen ss bs).buf.length := by
  unfold sdscatlen sdslen sdsavail
  dsimp only
  split <;> simp only [length_writeAt] <;> omega

theorem holds_sdscatlen {ss : Sds} {w : Bytes} (h : Holds ss w) (bs : Bytes) :
    Holds (sdscatlen ss bs) (w ++ bs) := by
  have hl := h.len
  refine holds_of_getD (by rw [len_sdscatlen, hl, List.length_append])
    (by have := length_le_sdscatlen ss bs; rw [List.length_append]; omega) fun i hi => ?_
  rw [List.length_append] at hi
  rw [getD_sdscatlen, getD_append]
  by_cases h₁ : i < w.length
  · rw [if_pos (by omega), if_pos h₁, h.getD h₁]
  · rw [if_neg (by omega), if_neg h₁, if_pos (by omega), hl]

/-- Behind the new content are old bytes, or zeros. -/
theorem getD_sdscatlen_stale {ss : Sds} {bs : Bytes} {i : Nat} (hi : ss.len + bs.length ≤ i) :
    (sdscatlen ss bs).buf.getD i 0 = 0 ∨ (sdscatlen ss bs).buf.getD i 0 = ss.buf.getD i 0 := by
  rw [getD_sdscatlen, if_neg (by omega), if_neg (by omega)]
  split
  · exact .inl rfl
  · exact .inr rfl

theorem holds_sdsTail {ss : Sds} {w : Bytes} (h : Holds ss w) (k : Nat) :
    Holds (sdsTail ss k) (w.drop k) := by
  have hl := h.len
  refine holds_of_getD (by rw [len_sdsTail, hl, List.length_drop]) ?_ fun i hi => ?_
  · rw [sdsTail, List.length_drop, length_writeAt]
    omega
  · rw [List.length_drop] at hi
    rw [getD_sdsTail, if_pos (by omega), h.getD (by omega), List.getD_eq_getElem?_getD,
      List.getD_eq_getElem?_getD, List.getElem?_drop]

end Fedis.Proof.Server

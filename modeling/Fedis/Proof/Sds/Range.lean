import Fedis.Proof.Sds

/-!
# What `sdsrange` keeps

* `sdsrange_slice`: a range inside the string, which may be empty where it ends just before its
  start;
* `sdsrange_iff`: the string is cut as it should, unless the range ends before the byte below its
  start (`CutsBelow`). The note promises the empty string there.
-/

namespace Fedis.Proof.Sds

open Framework

/-- The buffer has room for the content and its NUL, and no write has left it. -/
structure Roomy (ss : Sds) : Prop where
  room : ss.len < ss.alloc
  inside : ss.buf.length = ss.alloc

theorem Ok.roomy {ss : Sds} (h : Ok ss) : Roomy ss := ⟨by have := h.room; omega, h.inside⟩

theorem roomy_sdsnew (s : Bytes) : Roomy (sdsnew s) := (tight_sdsnewWithLen (cstr s)).ok.roomy

/-- The bytes from index `i` to index `j`, both counted in. -/
def slice (bs : Bytes) (i j : Int) : Bytes :=
  if i ≤ j then (bs.drop i.toNat).take (j - i + 1).toNat else []

/-- `sdsrange` does what it should: on a range inside the string it is defined, leaves the slice and
writes inside the buffer only, and otherwise it does nothing. -/
def Slices (ss : Sds) (start stop : Int) : Prop :=
  if 0 ≤ sdsIndex ss start ∧ sdsIndex ss stop < sdslen ss then
    ∃ ss', sdsrange ss start stop = some ss' ∧
      ss'.content = slice ss.content (sdsIndex ss start) (sdsIndex ss stop) ∧
      ss'.buf.length = ss.alloc
  else sdsrange ss start stop = some ss

variable {ss : Sds} {start stop : Int}

theorem take_readAt (m : Bytes) (i n : Nat) {k : Nat} (h : k ≤ n) :
    (readAt m i n).take k = readAt m i k := by
  refine bytes_ext (by simpa using h) fun j hj => ?_
  rw [List.length_take, length_readAt] at hj
  rw [List.getD_eq_getElem?_getD, List.getElem?_take_of_lt (by omega), ← List.getD_eq_getElem?_getD,
    getD_readAt, getD_readAt, if_pos (by omega), if_pos (by omega)]

/-- A slice of the content is read from the buffer. -/
theorem slice_content {i n : Nat} (h : i + n ≤ ss.len) :
    (ss.content.drop i).take n = readAt ss.buf i n := by
  rw [Sds.content, drop_readAt, Nat.zero_add, take_readAt _ _ _ (by omega)]

/-- The `n` bytes at `i` are moved to the front, and a NUL is written behind them. -/
theorem content_moved (m : Bytes) (i n : Nat) :
    readAt (writeAt (if 0 < n then writeAt m 0 (readAt m i n) else m) n [0]) 0 n = readAt m i n := by
  rw [readAt_writeAt_of_le _ _ (by omega)]
  split
  · have hmoved := readAt_writeAt_append m 0 0 (readAt m i n)
    rw [length_readAt, readAt_zero, List.nil_append, Nat.add_zero, Nat.zero_add] at hmoved
    exact hmoved
  · obtain rfl : n = 0 := by omega
    rw [readAt_zero, readAt_zero]

theorem sdsrange_slice (h : Roomy ss) (start stop : Int) (hstart : 0 ≤ sdsIndex ss start)
    (hstop : sdsIndex ss stop < sdslen ss) (hle : sdsIndex ss start ≤ sdsIndex ss stop + 1) :
    ∃ ss', sdsrange ss start stop = some ss' ∧
      ss'.content = slice ss.content (sdsIndex ss start) (sdsIndex ss stop) ∧
      ss'.buf.length = ss.alloc := by
  unfold sdsrange
  dsimp only [sdslen] at hstop ⊢
  generalize sdsIndex ss start = a at *
  generalize sdsIndex ss stop = b at *
  obtain ⟨i, rfl⟩ := Int.eq_ofNat_of_zero_le hstart
  obtain ⟨n, hn⟩ : ∃ n : Nat, b - i + 1 = n := Int.eq_ofNat_of_zero_le (by omega)
  have hroom := h.room
  have hinside := h.inside
  rw [if_neg (by omega), if_neg (by omega), hn, Int.toNat_natCast, Int.toNat_natCast]
  refine ⟨_, rfl, ?_, ?_⟩
  · rw [Sds.content, content_moved, slice]
    split
    · rw [hn, Int.toNat_natCast, Int.toNat_natCast, slice_content (by omega)]
    · obtain rfl : n = 0 := by omega
      rw [readAt_zero]
  · dsimp only
    rw [length_writeAt, List.length_singleton]
    split
    · rw [length_writeAt, length_readAt]
      omega
    · omega

/-- The bytes from index `i` up to `j`, not counted in. -/
theorem sdsrange_nat (h : Roomy ss) {i j : Nat} (hij : i ≤ j) (hj : j ≤ ss.len) (hpos : 0 < j) :
    ∃ ss', sdsrange ss i ((j : Int) - 1) = some ss' ∧
      ss'.content = (ss.content.drop i).take (j - i) := by
  have hstart : sdsIndex ss i = i := if_neg (by omega)
  have hstop : sdsIndex ss ((j : Int) - 1) = (j : Int) - 1 := if_neg (by omega)
  obtain ⟨ss', e, hcontent, -⟩ := sdsrange_slice h i ((j : Int) - 1) (by omega)
    (by rw [hstop, sdslen]; omega) (by omega)
  refine ⟨ss', e, ?_⟩
  rw [hcontent, hstart, hstop, slice]
  split
  · rw [Int.toNat_natCast, show ((j : Int) - 1 - i + 1).toNat = j - i by omega]
  · rw [show j - i = 0 by omega, List.take_zero]

/-- **`sdsrange` keeps the slice, unless its end is below the byte before its start.** -/
theorem sdsrange_iff (h : Roomy ss) (start stop : Int) :
    Slices ss start stop ↔ ¬ CutsBelow ss start stop := by
  by_cases hin : 0 ≤ sdsIndex ss start ∧ sdsIndex ss stop < sdslen ss
  · rw [Slices, if_pos hin]
    by_cases hcut : sdsIndex ss stop + 1 < sdsIndex ss start
    · have hnone : sdsrange ss start stop = none := by
        unfold sdsrange
        dsimp only
        rw [if_neg (by omega), if_pos (by omega)]
      rw [hnone]
      refine iff_of_false (fun ⟨_, e, _⟩ => ?_) fun hn => hn ⟨hin.1, hin.2, hcut⟩
      cases e
    · exact iff_of_true (sdsrange_slice h start stop hin.1 hin.2 (by omega)) fun hn => hcut hn.2.2
  · rw [Slices, if_neg hin]
    refine iff_of_true ?_ fun hn => hin ⟨hn.1, hn.2.1⟩
    unfold sdsrange
    dsimp only
    rw [if_pos (by omega)]

/-- The end of a string. -/
theorem sdsrange_iff_tail : Slices (sdsnew [104, 105, 33]) 1 (-1) :=
  (sdsrange_iff (roomy_sdsnew _) 1 (-1)).mpr (by decide)

/-- `[4, 1]` of five bytes: the NUL is written two bytes below the buffer. -/
theorem sdsrange_below : Roomy (sdsnew [104, 101, 108, 108, 111]) ∧
    ¬ Slices (sdsnew [104, 101, 108, 108, 111]) 4 1 := by
  refine ⟨roomy_sdsnew _, fun h => ?_⟩
  rw [Slices, if_pos (by decide)] at h
  obtain ⟨ss', e, -⟩ := h
  cases e

end Fedis.Proof.Sds

import Fedis.Framework.Trim
import Fedis.Proof.Sds.Range

/-!
# What `sdstrim` leaves

The loops stop at the first and the last byte that is not in the set (`trimStart_spec`,
`trimEnd_spec`), the first one at the last byte at the latest. If all bytes are in the set, the end
comes out just before the start, which is the empty range; only for a single byte that end is -1,
which `sdsrange` takes for the last byte (`sdstrim_iff`).
-/

namespace Fedis.Proof.Sds

open Framework

/-- The string is trimmed. -/
def Trims (ss : Sds) (s : Bytes) : Prop :=
  ∃ ss', sdstrim ss s = some ss' ∧ ss'.content = trimmed (fun b => (cstr s).contains b) ss.content

variable {ss : Sds} {buf s : Bytes} {start : Nat}

/-! ## The loops -/

theorem trimStart_spec (buf s : Bytes) : ∀ n start, ∃ k ≤ n, trimStart buf s n start = start + k ∧
    (∀ j, start ≤ j → j < start + k → strchr s (buf.getD j 0)) ∧
      (k < n → ¬ strchr s (buf.getD (start + k) 0))
  | 0, start => ⟨0, Nat.le_refl 0, rfl, fun j h₁ h₂ => by omega, fun h => by omega⟩
  | n + 1, start => by
    rw [trimStart]
    by_cases hhit : strchr s (buf.getD start 0)
    · obtain ⟨k, hk, heq, hpass, hstop⟩ := trimStart_spec buf s n (start + 1)
      rw [if_pos hhit]
      refine ⟨k + 1, by omega, by omega, fun j h₁ h₂ => ?_, fun h => ?_⟩
      · rcases Nat.eq_or_lt_of_le h₁ with rfl | hlt
        · exact hhit
        · exact hpass j hlt (by omega)
      · rw [show start + (k + 1) = start + 1 + k by omega]
        exact hstop (by omega)
    · rw [if_neg hhit]
      exact ⟨0, Nat.zero_le _, rfl, fun j h₁ h₂ => by omega, fun _ => hhit⟩

theorem trimEnd_spec (buf s : Bytes) (start : Nat) : ∀ n, ∃ m ≤ n,
    trimEnd buf s start n = (start + m : Nat) - (1 : Int) ∧
      (∀ j, start + m ≤ j → j < start + n → strchr s (buf.getD j 0)) ∧
        (0 < m → ¬ strchr s (buf.getD (start + m - 1) 0))
  | 0 => ⟨0, Nat.le_refl 0, rfl, fun j h₁ h₂ => by omega, fun h => by omega⟩
  | n + 1 => by
    rw [trimEnd]
    by_cases hhit : strchr s (buf.getD (start + n) 0)
    · obtain ⟨m, hm, heq, hpass, hstop⟩ := trimEnd_spec buf s start n
      rw [if_pos hhit]
      refine ⟨m, by omega, heq, fun j h₁ h₂ => ?_, hstop⟩
      rcases Nat.eq_or_lt_of_le (Nat.le_of_lt_succ h₂) with rfl | hlt
      · exact hhit
      · exact hpass j h₁ hlt
    · rw [if_neg hhit]
      exact ⟨n + 1, Nat.le_refl _, by omega, fun j h₁ h₂ => by omega, fun _ => hhit⟩

/-! ## Where they stop -/

/-- On the bytes of a string without NUL, `strchr` is membership. -/
theorem strchr_content (hs : ∀ b ∈ ss.content, b ≠ 0) {j : Nat} {a : UInt8}
    (ha : ss.content[j]? = some a) : strchr s (ss.buf.getD j 0) = (cstr s).contains a := by
  have hj : j < ss.len := by
    have := (List.getElem?_eq_some_iff.mp ha).1
    rwa [Sds.content, length_readAt] at this
  have hget : ss.buf.getD j 0 = a := by
    have := getD_readAt ss.buf 0 ss.len j
    rw [if_pos hj, Nat.zero_add, List.getD_eq_getElem?_getD] at this
    rw [← this, show (readAt ss.buf 0 ss.len)[j]? = some a from ha]
    rfl
  have hne : (a == 0) = false := beq_eq_false_iff_ne.mpr (hs a (List.mem_of_getElem? ha))
  rw [hget, strchr, hne, Bool.false_or]

/-- Before the new start all bytes are in the set, and the byte there is not, if it is not the last. -/
theorem trimStart_content (hs : ∀ b ∈ ss.content, b ≠ 0) (s : Bytes) :
    ∃ i ≤ ss.len - 1, trimStart ss.buf s (ss.len - 1) 0 = i ∧
      (∀ k < i, ∀ a ∈ ss.content[k]?, (cstr s).contains a) ∧
        (i < ss.len - 1 → ∀ a ∈ ss.content[i]?, ¬ (cstr s).contains a) := by
  obtain ⟨i, hi, heq, hpass, hstop⟩ := trimStart_spec ss.buf s (ss.len - 1) 0
  rw [Nat.zero_add] at heq hpass hstop
  refine ⟨i, hi, heq, fun k hk a ha => ?_, fun hlt a ha => ?_⟩
  · rw [← strchr_content hs ha]
    exact hpass k (Nat.zero_le k) hk
  · rw [← strchr_content hs ha]
    exact hstop hlt

/-- From the new end on all bytes are in the set, and the byte before it is not. -/
theorem trimEnd_content (hs : ∀ b ∈ ss.content, b ≠ 0) (s : Bytes) {i : Nat} (hi : i ≤ ss.len) :
    ∃ j, i ≤ j ∧ j ≤ ss.len ∧ trimEnd ss.buf s i (ss.len - i) = (j : Int) - 1 ∧
      (∀ k, j ≤ k → ∀ a ∈ ss.content[k]?, (cstr s).contains a) ∧
        (i < j → ∀ a ∈ ss.content[j - 1]?, ¬ (cstr s).contains a) := by
  have hlen : ss.content.length = ss.len := length_readAt _ _ _
  obtain ⟨m, hm, heq, hpass, hstop⟩ := trimEnd_spec ss.buf s i (ss.len - i)
  refine ⟨i + m, by omega, by omega, heq, fun k hk a ha => ?_, fun hlt a ha => ?_⟩
  · have hk' := (List.getElem?_eq_some_iff.mp ha).1
    rw [← strchr_content hs ha]
    exact hpass k hk (by omega)
  · rw [← strchr_content hs ha]
    exact hstop (by omega)

/-- Where the loops stop in a string that is not empty: around the trimmed string, or with the end
just before the start, which is the last byte. -/
theorem loops_spec (hs : ∀ b ∈ ss.content, b ≠ 0) (s : Bytes) (hpos : 0 < ss.len) :
    ∃ i j, i ≤ j ∧ j ≤ ss.len ∧ trimStart ss.buf s (ss.len - 1) 0 = i ∧
      trimEnd ss.buf s i (ss.len - i) = (j : Int) - 1 ∧
      trimmed (fun b => (cstr s).contains b) ss.content = (ss.content.drop i).take (j - i) ∧
      (i = j ↔ ∀ b ∈ ss.content, b ∈ cstr s) ∧ (i = j → i = ss.len - 1) := by
  have hlen : ss.content.length = ss.len := length_readAt _ _ _
  have hget : ∀ {k}, k < ss.len → ∃ a, ss.content[k]? = some a := fun hk =>
    ⟨_, List.getElem?_eq_getElem (by omega)⟩
  obtain ⟨i, hi, hstart, hpre, hfirst⟩ := trimStart_content hs s
  obtain ⟨j, hij, hj, hstop, hpost, hlast⟩ := trimEnd_content hs s (show i ≤ ss.len by omega)
  refine ⟨i, j, hij, hj, hstart, hstop, ?_⟩
  rcases Nat.eq_or_lt_of_le hij with rfl | hlt
  · -- the loops have passed all bytes
    have hall : ∀ b ∈ ss.content, (cstr s).contains b := by
      intro b hb
      obtain ⟨k, hk⟩ := List.mem_iff_getElem?.mp hb
      rcases Nat.lt_or_ge k i with hlt | hge
      · exact hpre k hlt b hk
      · exact hpost k hge b hk
    refine ⟨?_, iff_of_true rfl fun b hb => List.contains_iff_mem.mp (hall b hb), fun _ => ?_⟩
    · rw [trimmed_nil hall, Nat.sub_self, List.take_zero]
    · by_contra hne
      obtain ⟨a, ha⟩ := hget (show i < ss.len by omega)
      exact hfirst (by omega) a ha (hpost i (Nat.le_refl i) a ha)
  · refine ⟨trimmed_eq hlt (by omega) hpre hpost (fun a ha => ?_) (hlast hlt), ?_, fun h => by omega⟩
    · by_cases hi' : i < ss.len - 1
      · exact hfirst hi' a ha
      · -- the first loop stopped at the last byte
        apply hlast hlt a
        rwa [show j - 1 = i by omega]
    · refine iff_of_false (by omega) fun hall => ?_
      obtain ⟨a, ha⟩ := hget (show j - 1 < ss.len by omega)
      exact hlast hlt a ha (List.contains_iff_mem.mpr (hall a (List.mem_of_getElem? ha)))

/-! ## The result -/

theorem sdstrim_eq {i j : Nat} (hstart : trimStart ss.buf s (ss.len - 1) 0 = i)
    (hstop : trimEnd ss.buf s i (ss.len - i) = (j : Int) - 1) : sdstrim ss s =
      if 0 < i ∨ (j : Int) - 1 < (ss.len : Int) - 1 then sdsrange ss i ((j : Int) - 1)
      else some ss := by
  unfold sdstrim
  dsimp only [sdslen]
  rw [hstart, hstop]

/-- The empty string is left alone. -/
theorem trims_nil (hnil : ss.content = []) : Trims ss s := by
  have hlen : ss.content.length = ss.len := length_readAt _ _ _
  rw [hnil, List.length_nil] at hlen
  refine ⟨ss, ?_, ?_⟩
  · rw [sdstrim, sdslen, ← hlen]
    rfl
  · rw [hnil]
    rfl

/-- With an end that is not -1, `sdsrange` leaves what is between the two stops. -/
theorem trims_of_range (h : Roomy ss) {i j : Nat} (hij : i ≤ j) (hj : j ≤ ss.len) (hjpos : 0 < j)
    (hstart : trimStart ss.buf s (ss.len - 1) 0 = i)
    (hstop : trimEnd ss.buf s i (ss.len - i) = (j : Int) - 1)
    (htrim : trimmed (fun b => (cstr s).contains b) ss.content = (ss.content.drop i).take (j - i)) :
    Trims ss s := by
  have hlen : ss.content.length = ss.len := length_readAt _ _ _
  rw [Trims, sdstrim_eq hstart hstop, htrim]
  by_cases hcut : 0 < i ∨ (j : Int) - 1 < (ss.len : Int) - 1
  · rw [if_pos hcut]
    exact sdsrange_nat h hij hj hjpos
  · have hi : i = 0 := by omega
    rw [if_neg hcut]
    refine ⟨ss, rfl, ?_⟩
    rw [hi, List.drop_zero, List.take_of_length_le (by omega)]

/-- `sdsrange` takes an end of -1 for the last byte. -/
theorem sdsrange_byte (h : Roomy ss) (hone : ss.len = 1) :
    ∃ ss', sdsrange ss 0 (-1) = some ss' ∧ ss'.content = ss.content := by
  have hlen : ss.content.length = ss.len := length_readAt _ _ _
  have hstop : sdsIndex ss (-1) = 0 := by
    rw [sdsIndex, sdslen, hone]
    rfl
  have hstart : sdsIndex ss 0 = 0 := rfl
  obtain ⟨ss', e, hcontent, -⟩ := sdsrange_slice h 0 (-1) (Int.le_refl 0)
    (by rw [hstop, sdslen, hone]; decide) (by rw [hstop, hstart]; decide)
  refine ⟨ss', e, ?_⟩
  rw [hcontent, hstart, hstop, slice, if_pos (Int.le_refl 0)]
  show ss.content.take 1 = _
  rw [List.take_of_length_le (by omega)]

/-- A single byte stays, also if it is in the set. -/
theorem not_trims_byte (h : Roomy ss) {b : UInt8} (hb : ss.content = [b]) (hset : b ∈ cstr s)
    (hstart : trimStart ss.buf s (ss.len - 1) 0 = 0)
    (hstop : trimEnd ss.buf s 0 (ss.len - 0) = ((0 : Nat) : Int) - 1) : ¬ Trims ss s := by
  have hone : ss.len = 1 := by
    have hlen : ss.content.length = ss.len := length_readAt _ _ _
    rw [← hlen, hb, List.length_singleton]
  have hnil : trimmed (fun b => (cstr s).contains b) ss.content = [] :=
    trimmed_nil fun a ha => by
      rw [hb, List.mem_singleton] at ha
      exact List.contains_iff_mem.mpr (ha ▸ hset)
  obtain ⟨ss₁, e₁, hcontent₁⟩ := sdsrange_byte h hone
  rw [Trims, sdstrim_eq hstart hstop, if_pos (by omega), hnil]
  rintro ⟨ss', e, hcontent⟩
  obtain rfl := Option.some.inj (e₁.symm.trans e)
  rw [hcontent₁, hb] at hcontent
  cases hcontent

/-- **`sdstrim` trims every string but a single byte that is in the set.** -/
theorem sdstrim_iff (h : Roomy ss) (hs : ∀ b ∈ ss.content, b ≠ 0) (s : Bytes) :
    Trims ss s ↔ ¬ ∃ b ∈ cstr s, ss.content = [b] := by
  have hlen : ss.content.length = ss.len := length_readAt _ _ _
  rcases Nat.eq_zero_or_pos ss.len with hzero | hpos
  · have hnil : ss.content = [] := List.eq_nil_of_length_eq_zero (hlen.trans hzero)
    refine iff_of_true (trims_nil hnil) ?_
    simp [hnil]
  obtain ⟨i, j, hij, hj, hstart, hstop, htrim, hall, hlast⟩ := loops_spec hs s hpos
  rcases Nat.eq_zero_or_pos j with rfl | hjpos
  · -- the end is -1, and the start at the last byte
    obtain rfl : i = 0 := Nat.le_zero.mp hij
    have hzero := hlast rfl
    obtain ⟨b, hb⟩ := List.length_eq_one_iff.mp (show ss.content.length = 1 by omega)
    have hset : b ∈ cstr s := hall.mp rfl b (hb ▸ List.mem_singleton_self b)
    exact iff_of_false (not_trims_byte h hb hset hstart hstop) fun hn => hn ⟨b, hset, hb⟩
  · refine iff_of_true (trims_of_range h hij hj hjpos hstart hstop htrim) ?_
    rintro ⟨b, hb, hcontent⟩
    have heq := hall.mpr fun a ha => by
      rw [hcontent, List.mem_singleton] at ha
      exact ha ▸ hb
    have := hlast heq
    rw [hcontent, List.length_singleton] at hlen
    omega

/-- Blanks around a word go. -/
theorem sdstrim_iff_blanks : Trims (sdsnew [32, 32, 104, 105, 32]) [32] := by
  have hcontent : (sdsnew [32, 32, 104, 105, 32]).content = [32, 32, 104, 105, 32] := rfl
  refine (sdstrim_iff (roomy_sdsnew [32, 32, 104, 105, 32]) ?_ [32]).mpr fun ⟨b, _, hb⟩ => ?_
  · rw [hcontent]
    simp
  · rw [hcontent] at hb
    cases hb

/-- A single blank stays. -/
theorem sdstrim_single : Roomy (sdsnew [32]) ∧ (∀ b ∈ (sdsnew [32]).content, b ≠ 0) ∧
    ¬ Trims (sdsnew [32]) [32] := by
  have hcontent : (sdsnew [32]).content = [32] := rfl
  refine ⟨roomy_sdsnew _, ?_, fun ⟨ss', e, h⟩ => ?_⟩
  · rw [hcontent]
    simp
  · cases e
    cases h

end Fedis.Proof.Sds

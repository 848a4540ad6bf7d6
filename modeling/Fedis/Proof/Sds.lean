import Fedis.Framework.Run
import Fedis.Impl.Sds

/-!
# The representation invariant of strings

A string is `Ok` if `len + free + 1` bytes are allocated, no write has left the
allocation and `buf[len]` is NUL. New strings are `Tight`: nothing else is
allocated. Growing, clearing, cutting and dumping keep a tight string tight; an
append in place keeps `free`, and `sdscatsds` gives its source one byte more than
it has. So the invariant holds in every run whose appends all grow or add
nothing (`sds_ok`), and every other append breaks it (`unsafe_breaks`).
-/

namespace Fedis.Proof.Sds

open Framework

/-- The invariant of `sds.h`. -/
structure Ok (s : Sds) : Prop where
  room : s.len + s.free + 1 ≤ s.alloc
  inside : s.buf.length = s.alloc
  terminated : s.buf[s.len]? = some 0

instance (s : Sds) : Decidable (Ok s) :=
  decidable_of_iff (s.len + s.free + 1 ≤ s.alloc ∧ s.buf.length = s.alloc ∧ s.buf[s.len]? = some 0)
    ⟨fun ⟨a, b, c⟩ => ⟨a, b, c⟩, fun h => ⟨h.room, h.inside, h.terminated⟩⟩

/-- The invariant, with no byte to spare. -/
structure Tight (s : Sds) : Prop where
  room : s.len + s.free + 1 = s.alloc
  inside : s.buf.length = s.alloc
  terminated : s.buf.getD s.len 0 = 0

theorem Tight.ok {s : Sds} (h : Tight s) : Ok s where
  room := Nat.le_of_eq h.room
  inside := h.inside
  terminated := by
    have hlt : s.len < s.buf.length := by rw [h.inside, ← h.room]; omega
    rw [List.getElem?_eq_getElem hlt, ← List.getD_eq_getElem _ 0 hlt, h.terminated]

/-- An append of `n` bytes adds nothing or reallocates the buffer. -/
def Grows (d : Sds) (n : Nat) : Prop := n = 0 ∨ sdsavail d < n

instance (d : Sds) (n : Nat) : Decidable (Grows d n) := instDecidableOr

/-- The range is inside the string and ends before the byte below its start. -/
def CutsBelow (d : Sds) (start stop : Int) : Prop :=
  0 ≤ sdsIndex d start ∧ sdsIndex d stop < sdslen d ∧ sdsIndex d stop + 1 < sdsIndex d start

instance (d : Sds) (start stop : Int) : Decidable (CutsBelow d start stop) := instDecidableAnd

/-- The calls that keep the invariant. -/
def SafeOp (heap : List Sds) : SdsOp → Prop
  | .cat i s => ∃ d ∈ heap[i]?, Grows d (cstr s).length
  | .catlen i buf => ∀ d ∈ heap[i]?, Grows d buf.length
  | .cpy i s => ∃ d ∈ heap[i]?, Grows (sdsclear d) (cstr s).length
  | .catsds _ j => heap[j]? = none
  | .range i start stop => ∀ d ∈ heap[i]?, ¬ CutsBelow d start stop
  | .new _ | .empty | .clear _ | .dump _ => True

instance (heap : List Sds) : DecidablePred (SafeOp heap)
  | .cat .. | .cpy .. => inferInstanceAs (Decidable (∃ d ∈ _, _))
  | .catlen .. | .range .. => inferInstanceAs (Decidable (∀ d ∈ _, _))
  | .catsds .. => inferInstanceAs (Decidable (_ = none))
  | .new _ | .empty | .clear _ | .dump _ => instDecidableTrue

/-! ## Operations -/

theorem sdsAllocSize_gt (n : Nat) : n + 1 ≤ sdsAllocSize n := by
  unfold sdsAllocSize
  split <;> omega

theorem tight_sdsnewWithLen (init : Bytes) : Tight (sdsnewWithLen init) := by
  have := sdsAllocSize_gt init.length
  refine ⟨?_, ?_, ?_⟩
  · simp only [sdsnewWithLen]
    omega
  · simp only [sdsnewWithLen, length_writeAt, List.length_replicate]
    omega
  · simp only [sdsnewWithLen, getD_writeAt]
    rw [if_neg (by omega), List.getD_eq_getElem?_getD, List.getElem?_replicate, if_pos (by omega)]
    rfl

section Op

variable {s : Sds} (h : Tight s)

include h

theorem tight_sdsclear : Tight (sdsclear s) := by
  obtain ⟨hr, hi, ht⟩ := h
  refine ⟨?_, ?_, ?_⟩
  · simp only [sdsclear]
    omega
  · simp only [sdsclear, length_writeAt, List.length_replicate]
    omega
  · simp only [sdsclear, getD_writeAt, List.length_replicate]
    split
    · rw [List.getD_eq_getElem?_getD, List.getElem?_replicate, if_pos (by omega)]
      rfl
    · rw [show s.len = 0 by omega] at ht
      exact ht

theorem tight_sdsdump : Tight (sdsdump s) := by
  refine ⟨rfl, length_readAt _ _ _, ?_⟩
  simp only [sdsdump, getD_readAt, Nat.zero_add]
  rw [if_pos (by omega), h.terminated]

/-- A reallocated buffer is filled with zeros before the append. -/
theorem tight_sdscatlen {buf : Bytes} (hg : Grows s buf.length) : Tight (sdscatlen s buf) := by
  obtain ⟨hr, hi, ht⟩ := h
  unfold sdscatlen
  dsimp only [sdslen]
  split
  · have := sdsAllocSize_gt (s.len + buf.length)
    refine ⟨?_, ?_, ?_⟩
    · dsimp only
      omega
    · simp only [length_writeAt, List.length_replicate, reallocBuf, length_readAt]
      omega
    · simp only [getD_writeAt, List.length_replicate]
      rw [if_neg (by omega), if_pos (by omega), List.getD_eq_getElem?_getD, List.getElem?_replicate,
        if_pos (by omega)]
      rfl
  · have hn : buf = [] := List.eq_nil_of_length_eq_zero (hg.resolve_right ‹_›)
    subst hn
    rw [writeAt_nil _ _ (by omega)]
    exact ⟨hr, hi, ht⟩

theorem tight_sdscat {t : Bytes} (hg : Grows s (cstr t).length) : Tight (sdscat s t) :=
  tight_sdscatlen h hg

theorem tight_sdsrange {start stop : Int} (hc : ¬ CutsBelow s start stop) :
    ∃ s', sdsrange s start stop = some s' ∧ Tight s' := by
  have hs := h
  obtain ⟨hr, hi, ht⟩ := h
  unfold CutsBelow at hc
  unfold sdsrange
  dsimp only
  generalize sdsIndex s start = a at *
  generalize sdsIndex s stop = b at *
  simp only [sdslen] at *
  by_cases hout : a < 0 ∨ (s.len : Int) ≤ b
  · exact ⟨s, if_pos hout, hs⟩
  · rw [if_neg hout, if_neg (by omega)]
    refine ⟨_, rfl, ?_, ?_, ?_⟩
    · dsimp only
      omega
    · dsimp only
      split <;> simp only [length_writeAt, length_readAt, List.length_singleton] <;> omega
    · simp only [getD_writeAt, List.length_singleton]
      rw [if_pos (by omega), Nat.sub_self]
      rfl

end Op

/-! ## Runs -/

theorem tight_modify {heap : List Sds} {i : Nat} {f : Sds → Sds} (h : ∀ s ∈ heap, Tight s)
    (hf : ∀ s ∈ heap[i]?, Tight (f s)) : ∀ s ∈ heap.modify i f, Tight s := by
  intro s hs
  obtain ⟨j, hj⟩ := List.mem_iff_getElem?.mp hs
  rw [List.getElem?_modify] at hj
  obtain ⟨t, ht, rfl⟩ := Option.map_eq_some_iff.mp hj
  split
  · rename_i hij
    subst hij
    exact hf t ht
  · exact h t (List.mem_of_getElem? ht)

theorem tight_set {heap : List Sds} {i : Nat} {s : Sds} (h : ∀ s ∈ heap, Tight s) (hs : Tight s) :
    ∀ t ∈ heap.set i s, Tight t := fun t ht =>
  (List.mem_or_eq_of_mem_set ht).elim (h t) fun e => e ▸ hs

theorem tight_append {heap rest : List Sds} (h : ∀ s ∈ heap, Tight s) (hs : ∀ s ∈ rest, Tight s) :
    ∀ s ∈ heap ++ rest, Tight s := fun t ht =>
  (List.mem_append.mp ht).elim (h t) (hs t)

/-- A safe call on tight strings. -/
theorem call_tight {heap : List Sds} {op : SdsOp} (h : ∀ s ∈ heap, Tight s)
    (hsafe : SafeOp heap op) :
    ∃ heap', sdsCall heap op = some ((), heap') ∧ ∀ s ∈ heap', Tight s := by
  have mem : ∀ {i : Nat} (s : Sds), s ∈ heap[i]? → Tight s := fun s hs =>
    h s (List.mem_of_getElem? hs)
  cases op with
  | new s =>
    exact ⟨_, rfl, tight_append h (List.forall_mem_singleton.mpr (tight_sdsnewWithLen _))⟩
  | empty =>
    exact ⟨_, rfl, tight_append h (List.forall_mem_singleton.mpr (tight_sdsnewWithLen _))⟩
  | cat i t =>
    obtain ⟨s, hs, hg⟩ := hsafe
    exact ⟨heap.set i (sdscat s t), by rw [sdsCall, Option.mem_def.mp hs]; rfl,
      tight_set h (tight_sdscat (mem s hs) hg)⟩
  | catlen i buf =>
    exact ⟨_, rfl, tight_modify h fun s hs => tight_sdscatlen (mem s hs) (hsafe s hs)⟩
  | cpy i t =>
    obtain ⟨s, hs, hg⟩ := hsafe
    exact ⟨heap.set i (sdscpy s t), by rw [sdsCall, Option.mem_def.mp hs]; rfl,
      tight_set h (tight_sdscat (tight_sdsclear (mem s hs)) hg)⟩
  | clear i => exact ⟨_, rfl, tight_modify h fun s hs => tight_sdsclear (mem s hs)⟩
  | catsds i j =>
    have e : heap[j]? = none := hsafe
    exact ⟨heap, by simp only [sdsCall, e], h⟩
  | range i start stop =>
    simp only [sdsCall]
    cases hi : heap[i]? with
    | none => exact ⟨_, rfl, h⟩
    | some s =>
      obtain ⟨s', hs', ht⟩ := tight_sdsrange (h s (List.mem_of_getElem? hi)) (hsafe s hi)
      exact ⟨heap.set i s', by simp only [hs', Option.map_some], tight_set h ht⟩
  | dump i =>
    refine ⟨_, rfl, tight_append h fun s hs => ?_⟩
    cases hi : heap[i]? with
    | none => rw [hi] at hs; cases hs
    | some t =>
      rw [hi] at hs
      cases List.mem_singleton.mp hs
      exact tight_sdsdump (h t (List.mem_of_getElem? hi))

/-- **Strings keep their invariant while every append grows its destination.**
A run of safe calls is defined, and every string it leaves is `Ok`. -/
theorem sds_ok (ops : List SdsOp) (h : Along sdsCall SafeOp [] ops) :
    ∃ rs heap, run sdsCall [] ops = some (rs, heap) ∧ ∀ s ∈ heap, Ok s := by
  obtain ⟨rs, heap, e, ht⟩ := run_defined (I := fun heap : List Sds => ∀ s ∈ heap, Tight s)
    (fun heap op ht hsafe => by
      obtain ⟨heap', e, ht'⟩ := call_tight ht hsafe
      exact ⟨(), heap', e, ht'⟩) ops (List.forall_mem_nil _) h
  exact ⟨rs, heap, e, fun s hs => (ht s hs).ok⟩

/-- A string that grows, is copied, cut and cleared. -/
theorem sds_ok_five : ∃ rs heap, run sdsCall []
      [.new [104, 105], .cat 0 [33, 33, 33], .dump 0, .range 1 1 (-2), .clear 0] = some (rs, heap) ∧
    ∀ s ∈ heap, Ok s :=
  sds_ok _ (by decide)

/-- Two appends in place to a string with two bytes to spare: the second one
writes its last byte behind the allocation. -/
theorem sds_overrun : ∃ rs s, run sdsCall [] [.new [97, 98], .cat 0 [99, 100], .cat 0 [101, 102]] =
    some (rs, [s]) ∧ s.alloc = 5 ∧ s.buf.length = 6 ∧ ¬ Ok s :=
  ⟨_, _, rfl, rfl, rfl, by decide⟩

/-! ## The other calls -/

/-- An append in place breaks the invariant. -/
theorem not_ok_sdscatlen {s : Sds} (h : Tight s) {buf : Bytes} (hg : ¬ Grows s buf.length) :
    ¬ Ok (sdscatlen s buf) := by
  intro hok
  have hroom := hok.room
  have := h.room
  simp only [Grows, not_or] at hg
  simp only [sdscatlen, if_neg hg.2, sdslen] at hroom
  omega

/-- A source that `sdscatsds` has emptied claims one byte more than it has. -/
theorem not_ok_sdsDrained {s : Sds} (h : s.alloc ≤ s.len + s.free + 1) : ¬ Ok (sdsDrained s) := by
  intro hok
  have hroom := hok.room
  simp only [sdsDrained] at hroom
  omega

/-- An append to a string, or to none, that is not safe. -/
theorem append_breaks {heap : List Sds} {i : Nat} {n : Nat} {f g : Sds → Sds}
    (h : ∀ s ∈ heap, Tight s) (hf : ∀ s, Tight s → ¬ Grows (g s) n → ¬ Ok (f s))
    (hsafe : ¬ ∃ s ∈ heap[i]?, Grows (g s) n) :
    (heap[i]?.map fun s => ((), heap.set i (f s))) = none ∨
      ∃ heap', (heap[i]?.map fun s => ((), heap.set i (f s))) = some ((), heap') ∧
        ∃ s ∈ heap', ¬ Ok s := by
  cases hi : heap[i]? with
  | none => exact .inl rfl
  | some s =>
    have hg : ¬ Grows (g s) n := fun hg => hsafe ⟨s, hi, hg⟩
    exact .inr ⟨_, rfl, f s, List.mem_set (List.getElem?_eq_some_iff.mp hi).1 _,
      hf s (h s (List.mem_of_getElem? hi)) hg⟩

/-- A call that is not safe, on tight strings, is undefined or breaks one. -/
theorem unsafe_breaks {heap : List Sds} {op : SdsOp} (h : ∀ s ∈ heap, Tight s)
    (hsafe : ¬ SafeOp heap op) :
    sdsCall heap op = none ∨
      ∃ heap', sdsCall heap op = some ((), heap') ∧ ∃ s ∈ heap', ¬ Ok s := by
  cases op with
  | new | empty | clear | dump => exact absurd trivial hsafe
  | cat i t => exact append_breaks (g := id) h (fun s hs hg => not_ok_sdscatlen hs hg) hsafe
  | catlen i buf =>
    simp only [SafeOp, not_forall] at hsafe
    obtain ⟨s, hs, hg⟩ := hsafe
    refine .inr ⟨_, rfl, sdscatlen s buf, ?_, not_ok_sdscatlen (h s (List.mem_of_getElem? hs)) hg⟩
    exact List.mem_of_getElem? (i := i) (by simp [Option.mem_def.mp hs])
  | cpy i t =>
    exact append_breaks (g := sdsclear) h
      (fun s hs hg => not_ok_sdscatlen (tight_sdsclear hs) hg) hsafe
  | range i start stop =>
    simp only [SafeOp, not_forall, not_not] at hsafe
    obtain ⟨s, hs, h₁, h₂, h₃⟩ := hsafe
    left
    simp only [sdsCall, Option.mem_def.mp hs, sdsrange]
    rw [if_neg (by omega), if_pos (by omega)]
    rfl
  | catsds i j =>
    obtain ⟨src, hj⟩ := Option.ne_none_iff_exists'.mp hsafe
    have htj := (h src (List.mem_of_getElem? hj)).room
    cases hi : heap[i]? with
    | none =>
      refine .inr ⟨heap.set j (sdsDrained src), by simp only [sdsCall, hi, hj], sdsDrained src, ?_,
        not_ok_sdsDrained (Nat.le_of_eq htj.symm)⟩
      exact List.mem_set (List.getElem?_eq_some_iff.mp hj).1 _
    | some dest =>
      have hti := (h dest (List.mem_of_getElem? hi)).room
      simp only [sdsCall, hi, hj]
      split
      · unfold sdscatsdsSelf
        split
        · exact .inl rfl
        · rename_i hfit
          refine .inr ⟨_, rfl, _, List.mem_set (List.getElem?_eq_some_iff.mp hi).1 _, ?_⟩
          refine not_ok_sdsDrained ?_
          simp only [sdscatlen, Sds.content, length_readAt, if_neg hfit, sdslen]
          omega
      · refine .inr ⟨_, rfl, _, List.mem_set ?_ _, not_ok_sdsDrained (Nat.le_of_eq htj.symm)⟩
        rw [List.length_set]
        exact (List.getElem?_eq_some_iff.mp hj).1

end Fedis.Proof.Sds

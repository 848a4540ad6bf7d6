import Fedis.Proof.Dict.Step

/-!
# A rehash takes as many steps as `ht0` has entries

Every step from a rehashing state moves one entry (`Rehashing.step`), keeps the entries of the dict
(`Moves.perm`) and leads to a rehashing state, unless it was the last one (`Moves.next`,
`Moves.last`). So a rehash ends with the step that moves its last entry, and not before
(`rehash_finishes`). Where the entries of the old tables are does not matter.
-/

namespace Fedis.Proof.Dict

open List Fedis.Framework

universe u v

variable {K : Type u} {V : Type v} {t : DictType K} {d d' : Dict K V} {j : Nat} {e : DictEntry K V}
  {c b : List (DictEntry K V)}

/-- A rehashing state: both tables are allocated, and the buckets below `rehashidx` are empty. -/
structure Rehashing (d : Dict K V) : Prop where
  ht0 : Allocated d.ht0
  ht1 : Allocated d.ht1
  idx : ∃ i : Nat, d.rehashidx = i ∧ ∀ j < i, ∀ c, d.ht0.table[j]? = some c → c = []

/-- `n` calls of `_dictRehashStep`. -/
def rehashSteps (t : DictType K) : Nat → Dict K V → Option (Dict K V)
  | 0, d => some d
  | n + 1, d => (rehashSteps t n d).bind (dictRehashStep t)

/-! ## One step -/

theorem Rehashing.step (t : DictType K) (h : Rehashing d) (hpos : 0 < d.ht0.used) :
    ∃ d' j e c b, dictRehashStep t d = some d' ∧ Moves t d d' j e c b := by
  obtain ⟨h0, h1, i, hi, hb⟩ := h
  obtain ⟨ht0, ht1, idx⟩ := d
  dsimp only at h0 h1 hi hb hpos
  subst hi
  refine rehashStep_moves t h0 h1 hb fun hnil => ?_
  rw [h0.used, hnil] at hpos
  exact absurd hpos (Nat.lt_irrefl 0)

theorem allocated_popBucket {ht : DictHT K V} (h : Allocated ht) (hpos : 0 < ht.used)
    (hj : ht.table[j]? = some (e :: c)) : Allocated (popBucket ht j c) := by
  refine h.set hj ?_
  rw [List.length_cons]
  omega

theorem allocated_pushBucket {ht : DictHT K V} (h : Allocated ht) (hj : ht.table[j]? = some b) :
    Allocated (pushBucket ht j e b) := by
  refine h.set hj ?_
  rw [List.length_cons]
  omega

theorem entries_pushBucket {ht : DictHT K V} (h : ht.table[j]? = some b) :
    entries (pushBucket ht j e b) ~ e :: entries ht := by
  obtain ⟨rest, h₁, h₂⟩ := flatten_set_perm h
  exact (h₂ (e :: b)).trans (h₁.symm.cons e)

namespace Moves

variable (hm : Moves t d d' j e c b)

include hm

/-- The entry that is moved is the first one of `ht0`. -/
theorem entries_eq : entries d.ht0 = e :: entries (popBucket d.ht0 j c) :=
  flatten_eq_cons hm.below hm.source

theorem push_perm :
    entries (popBucket d.ht0 j c) ++ entries (pushBucket d.ht1 (d.ht1.idx t e.key) e b) ~
      allEntries d := by
  have hpush := (entries_pushBucket (e := e) hm.target).append_left (entries (popBucket d.ht0 j c))
  rw [allEntries, hm.entries_eq]
  exact hpush.trans List.perm_middle

/-- The last entry of `ht0`. -/
theorem last (h : Rehashing d) (hone : d.ht0.used = 1) :
    d' = { ht0 := pushBucket d.ht1 (d.ht1.idx t e.key) e b, ht1 := dictReset, rehashidx := -1 } ∧
      entries (popBucket d.ht0 j c) = [] := by
  refine ⟨by rw [hm.result, if_pos hone], ?_⟩
  have hlen := h.ht0.used
  rw [hone, hm.entries_eq, List.length_cons] at hlen
  exact List.eq_nil_of_length_eq_zero (by omega)

/-- A step that is not the last one. -/
theorem next (h : Rehashing d) (hpos : 0 < d.ht0.used) (hone : d.ht0.used ≠ 1) :
    Rehashing d' ∧ d'.ht0.used = d.ht0.used - 1 ∧ d'.ht1.size = d.ht1.size ∧
      d'.ht1.sizemask = d.ht1.sizemask := by
  have hresult := hm.result
  rw [if_neg hone] at hresult
  subst hresult
  refine ⟨⟨allocated_popBucket h.ht0 hpos hm.source, allocated_pushBucket h.ht1 hm.target, j, rfl,
    fun j' hj' c' hc' => ?_⟩, rfl, rfl, rfl⟩
  rw [popBucket, List.getElem?_set_ne (by omega), hm.below j' hj'] at hc'
  cases hc'
  rfl

/-- No entry is lost or made. -/
theorem perm (h : Rehashing d) : allEntries d' ~ allEntries d := by
  refine List.Perm.trans ?_ hm.push_perm
  by_cases hone : d.ht0.used = 1
  · obtain ⟨hd', hnil⟩ := hm.last h hone
    rw [hd', hnil, allEntries, entries_dictReset, List.append_nil, List.nil_append]
  · rw [hm.result, if_neg hone, allEntries]

end Moves

/-! ## All steps -/

/-- What is left after `n` steps. -/
structure After (d s : Dict K V) (n : Nat) : Prop where
  rehashing : Rehashing s
  used : s.ht0.used = d.ht0.used - n
  perm : allEntries s ~ allEntries d
  size : s.ht1.size = d.ht1.size
  mask : s.ht1.sizemask = d.ht1.sizemask

theorem rehashSteps_ok (t : DictType K) (h : Rehashing d) :
    ∀ n < d.ht0.used, ∃ s, rehashSteps t n d = some s ∧ After d s n
  | 0, _ => ⟨d, rfl, h, rfl, .refl _, rfl, rfl⟩
  | n + 1, hn => by
    obtain ⟨s, hs, ha⟩ := rehashSteps_ok t h n (by omega)
    have hused := ha.used
    obtain ⟨s', j, e, c, b, hstep, hm⟩ := ha.rehashing.step t (by omega)
    obtain ⟨hr, hu, hsize, hmask⟩ := hm.next ha.rehashing (by omega) (by omega)
    refine ⟨s', by rw [rehashSteps, hs, Option.bind_some, hstep], hr, by omega,
      (hm.perm ha.rehashing).trans ha.perm, hsize.trans ha.size, hmask.trans ha.mask⟩

/-- **A rehash finishes after exactly as many steps as `ht0` has entries.** Each of them is defined,
starts in a rehashing state, moves one entry to its bucket in `ht1` and keeps the entries of the
dict. After the last one `ht1` has become `ht0`, with all entries. -/
theorem rehash_finishes (t : DictType K) (h : Rehashing d) (hpos : 0 < d.ht0.used) :
    (∀ n < d.ht0.used, ∃ s s' j e c b, rehashSteps t n d = some s ∧ dictIsRehashing s = true ∧
      dictRehashStep t s = some s' ∧ Moves t s s' j e c b ∧ allEntries s' ~ allEntries d) ∧
    ∃ ht, rehashSteps t d.ht0.used d = some { ht0 := ht, ht1 := dictReset, rehashidx := -1 } ∧
      Allocated ht ∧ ht.size = d.ht1.size ∧ ht.sizemask = d.ht1.sizemask ∧
      entries ht ~ allEntries d := by
  have hstep : ∀ n < d.ht0.used, ∃ s s' j e c b, rehashSteps t n d = some s ∧ After d s n ∧
      dictRehashStep t s = some s' ∧ Moves t s s' j e c b := by
    intro n hn
    obtain ⟨s, hs, ha⟩ := rehashSteps_ok t h n hn
    have hused := ha.used
    obtain ⟨s', j, e, c, b, hstep, hm⟩ := ha.rehashing.step t (by omega)
    exact ⟨s, s', j, e, c, b, hs, ha, hstep, hm⟩
  constructor
  · intro n hn
    obtain ⟨s, s', j, e, c, b, hs, ha, hs', hm⟩ := hstep n hn
    obtain ⟨-, -, i, hi, -⟩ := ha.rehashing
    refine ⟨s, s', j, e, c, b, hs, ?_, hs', hm, (hm.perm ha.rehashing).trans ha.perm⟩
    rw [dictIsRehashing, hi, bne_iff_ne]
    omega
  · obtain ⟨s, s', j, e, c, b, hs, ha, hs', hm⟩ := hstep (d.ht0.used - 1) (by omega)
    have hused := ha.used
    obtain ⟨hlast, -⟩ := hm.last ha.rehashing (by omega)
    have hperm := (hm.perm ha.rehashing).trans ha.perm
    subst hlast
    refine ⟨pushBucket s.ht1 (s.ht1.idx t e.key) e b, ?_,
      allocated_pushBucket ha.rehashing.ht1 hm.target, ha.size, ha.mask, ?_⟩
    · rw [show d.ht0.used = d.ht0.used - 1 + 1 by omega, rehashSteps, hs, Option.bind_some, hs']
    · rw [allEntries, entries_dictReset, List.append_nil] at hperm
      exact hperm

/-- Three entries, two of them in one bucket, go to a smaller table. -/
theorem rehash_finishes_three :
    ∃ ht : DictHT UInt64 Nat, rehashSteps ⟨id, fun a b => if a = b then 0 else 1⟩ 3
        { ht0 := ⟨[[], [⟨1, 10⟩, ⟨5, 50⟩], [], [⟨3, 30⟩]], 4, 3, 3⟩, ht1 := dictAlloc 2, rehashidx := 1 } =
      some { ht0 := ht, ht1 := dictReset, rehashidx := -1 } ∧
      entries ht ~ [⟨1, 10⟩, ⟨5, 50⟩, ⟨3, 30⟩] := by
  let t : DictType UInt64 := ⟨id, fun a b => if a = b then 0 else 1⟩
  obtain ⟨-, ht, hrun, -, -, -, hperm⟩ := rehash_finishes (K := UInt64) (V := Nat)
    (d := { ht0 := ⟨[[], [⟨1, 10⟩, ⟨5, 50⟩], [], [⟨3, 30⟩]], 4, 3, 3⟩, ht1 := dictAlloc 2, rehashidx := 1 }) t
    { ht0 := ⟨⟨2, rfl⟩, rfl, rfl, rfl⟩
      ht1 := (wf_dictAlloc t 1).allocated
      idx := ⟨1, rfl, fun j hj c hc => by
        obtain rfl := Nat.lt_one_iff.mp hj
        cases hc
        rfl⟩ } (by decide)
  exact ⟨ht, hrun, hperm⟩

end Fedis.Proof.Dict

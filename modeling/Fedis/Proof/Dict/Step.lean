import Fedis.Proof.Dict.Table

/-!
# The two tables through growing, shrinking and migrating

The invariant `Inv` of a dict: unused, idle with one well-formed table, or
rehashing with two, the buckets of `ht0` below `rehashidx` empty. What a
migration step does (`rehashStep_ok`, and `rehashStep_empty` where `ht0` has no
entry left), what `dictExpandIfNeed` does (`expandIfNeed_ok`), and how the calls
use them (`rehashIfNeed_ok`, `addEntry_ok`).
-/

namespace Fedis.Proof.Dict

open List Fedis.Framework

universe u v

variable {K : Type u} {V : Type v}

/-- The entries of a dict, in whichever table they are. -/
def allEntries (d : Dict K V) : List (DictEntry K V) := entries d.ht0 ++ entries d.ht1

/-- The states of a dict. -/
inductive Inv (t : DictType K) : Dict K V → Prop
  | fresh : Inv t dictCreate
  | idle {ht : DictHT K V} (wf : Wf t ht) (size : DICT_INITIAL_SIZE ≤ ht.size) :
      Inv t { ht0 := ht, ht1 := dictReset, rehashidx := -1 }
  | rehashing {ht0 ht1 : DictHT K V} {i : Nat} (wf0 : Wf t ht0) (wf1 : Wf t ht1)
      (size : DICT_INITIAL_SIZE ≤ ht1.size) (below : ∀ j < i, ht0.table[j]? = some []) :
      Inv t { ht0 := ht0, ht1 := ht1, rehashidx := i }

@[simp] theorem isRehashing_neg_one (ht0 ht1 : DictHT K V) :
    dictIsRehashing { ht0 := ht0, ht1 := ht1, rehashidx := -1 } = false := rfl

@[simp] theorem isRehashing_ofNat (ht0 ht1 : DictHT K V) (i : Nat) :
    dictIsRehashing { ht0 := ht0, ht1 := ht1, rehashidx := i } = true := by
  simp only [dictIsRehashing, bne_iff_ne]
  omega

/-! ## Sizes -/

theorem nextpowerLoop_spec (n : Nat) : ∀ fuel k, n ≤ 2 ^ k + fuel →
    ∃ k', nextpowerLoop n fuel (2 ^ k) = 2 ^ k' ∧ n ≤ 2 ^ k'
  | 0, k, h => ⟨k, rfl, h⟩
  | fuel + 1, k, h => by
    rw [nextpowerLoop]
    split
    · rw [Nat.shiftLeft_eq, ← pow_add]
      refine nextpowerLoop_spec n fuel (k + 1) ?_
      have := Nat.one_le_two_pow (n := k)
      rw [pow_succ]
      omega
    · exact ⟨k, rfl, by omega⟩

/-- `_nextpower` gives a power of two that is not less than `n`. -/
theorem nextpower_spec (n : Nat) : ∃ k, nextpower n = 2 ^ k ∧ n ≤ 2 ^ k :=
  nextpowerLoop_spec n n 0 (by omega)

theorem nextpowerLoop_lt {n : Nat} : ∀ fuel res, res < 2 * n → nextpowerLoop n fuel res < 2 * n
  | 0, _, h => h
  | fuel + 1, res, h => by
    rw [nextpowerLoop]
    split
    · rw [Nat.shiftLeft_eq]
      exact nextpowerLoop_lt fuel _ (by omega)
    · exact h

/-- It is less than twice `n`. -/
theorem nextpower_lt {n : Nat} (h : 0 < n) : nextpower n < 2 * n := nextpowerLoop_lt n 1 (by omega)

/-! ## A migration step -/

/-- The skip loop stops at the first bucket that is not empty, or past the
table. -/
theorem skipEmpty_spec {ht : DictHT K V} (hl : ht.table.length = ht.size) :
    ∀ fuel i, ht.size ≤ i + fuel → (∀ j < i, ht.table[j]? = some []) →
      (∀ j < skipEmpty ht fuel i, ht.table[j]? = some []) ∧
        ht.table[skipEmpty ht fuel i]? ≠ some []
  | 0, i, hf, hb => by
    refine ⟨hb, fun h => ?_⟩
    have := (List.getElem?_eq_some_iff.mp h).1
    simp only [skipEmpty] at this
    omega
  | fuel + 1, i, hf, hb => by
    rw [skipEmpty]
    split
    · rename_i h
      have := (List.getElem?_eq_some_iff.mp h).1
      rw [if_pos (by omega)]
      refine skipEmpty_spec hl fuel (i + 1) (by omega) fun j hj => ?_
      rcases Nat.lt_succ_iff_lt_or_eq.mp hj with hj | rfl
      · exact hb j hj
      · exact h
    · rename_i h
      exact ⟨hb, h⟩

section Step

variable {t : DictType K} {ht0 ht1 : DictHT K V} {i : Nat}

/-- `ht` without the first entry of bucket `j`, in front of `c`. -/
def popBucket (ht : DictHT K V) (j : Nat) (c : List (DictEntry K V)) : DictHT K V :=
  { ht with table := ht.table.set j c, used := ht.used - 1 }

/-- `ht` with `e` in front of bucket `j`, which holds `c`. -/
def pushBucket (ht : DictHT K V) (j : Nat) (e : DictEntry K V) (c : List (DictEntry K V)) :
    DictHT K V :=
  { ht with table := ht.table.set j (e :: c), used := ht.used + 1 }

/-- A step moves `e`, the first entry of the first bucket `j` that is not empty, in front of its
bucket in the other table. -/
structure Moves (t : DictType K) (d d' : Dict K V) (j : Nat) (e : DictEntry K V)
    (c b : List (DictEntry K V)) : Prop where
  below : ∀ j' < j, d.ht0.table[j']? = some []
  source : d.ht0.table[j]? = some (e :: c)
  target : d.ht1.table[d.ht1.idx t e.key]? = some b
  result : d' =
    if d.ht0.used = 1 then
      { ht0 := pushBucket d.ht1 (d.ht1.idx t e.key) e b, ht1 := dictReset, rehashidx := -1 }
    else
      { ht0 := popBucket d.ht0 j c, ht1 := pushBucket d.ht1 (d.ht1.idx t e.key) e b
        rehashidx := j }

/-- A step from a non-empty `ht0`. -/
theorem rehashStep_moves (t : DictType K) (h0 : Allocated ht0) (h1 : Allocated ht1)
    (hb : ∀ j < i, ∀ c, ht0.table[j]? = some c → c = []) (hne : entries ht0 ≠ []) :
    ∃ d' j e c b,
      dictRehashStep t { ht0 := ht0, ht1 := ht1, rehashidx := i } = some d' ∧
        Moves t { ht0 := ht0, ht1 := ht1, rehashidx := i } d' j e c b := by
  have hb' : ∀ j < i, ht0.table[j]? = some [] := by
    intro j hj
    cases hg : ht0.table[j]? with
    | some c => rw [hb j hj c hg]
    | none =>
      -- all buckets are below `i`
      refine absurd (List.flatten_eq_nil_iff.mpr fun c hc => ?_) hne
      obtain ⟨j', hj', rfl⟩ := List.mem_iff_getElem.mp hc
      have := List.getElem?_eq_none_iff.mp hg
      exact hb j' (by omega) _ (List.getElem?_eq_getElem hj')
  obtain ⟨hbelow, hstop⟩ := skipEmpty_spec h0.length (ht0.size - i) i (by omega) hb'
  generalize hj : skipEmpty ht0 (ht0.size - i) i = j at hbelow hstop
  obtain ⟨e, c, hc⟩ : ∃ e c, ht0.table[j]? = some (e :: c) := by
    cases hg : ht0.table[j]? with
    | none =>
      -- all buckets are empty
      have hnil := flatten_take_eq_nil hbelow
      rw [List.take_of_length_le (List.getElem?_eq_none_iff.mp hg)] at hnil
      exact absurd hnil hne
    | some c =>
      cases c with
      | nil => exact absurd hg hstop
      | cons e c => exact ⟨e, c, rfl⟩
  obtain ⟨b, hbucket⟩ := h1.bucket t e.key
  have hused : ht0.used - 1 = 0 ↔ ht0.used = 1 := by
    have := h0.used
    have := List.length_pos_iff.mpr hne
    omega
  refine ⟨_, j, e, c, b, ?_, hbelow, hc, hbucket, rfl⟩
  simp only [dictRehashStep, Int.toNat_natCast, hj, hc, DictHT.link, hbucket, Option.map_some,
    hused, popBucket, pushBucket]

/-- A step from a non-empty `ht0` moves its first entry; the step that moves the
last one ends the rehash. -/
theorem rehashStep_ok (h0 : Wf t ht0) (h1 : Wf t ht1) (hb : ∀ j < i, ht0.table[j]? = some [])
    {e : DictEntry K V} {es : List (DictEntry K V)} (he : entries ht0 = e :: es) :
    ∃ ht1', Wf t ht1' ∧ entries ht1' ~ e :: entries ht1 ∧ ht1'.size = ht1.size ∧
      ((es = [] ∧ dictRehashStep t { ht0 := ht0, ht1 := ht1, rehashidx := i } =
          some { ht0 := ht1', ht1 := dictReset, rehashidx := -1 }) ∨
        ∃ (ht0' : DictHT K V) (j : Nat), es ≠ [] ∧
          dictRehashStep t { ht0 := ht0, ht1 := ht1, rehashidx := i } =
            some { ht0 := ht0', ht1 := ht1', rehashidx := j } ∧
          Wf t ht0' ∧ entries ht0' = es ∧ ht0'.sizemask = ht0.sizemask ∧
          ∀ j' < j, ht0'.table[j']? = some []) := by
  obtain ⟨d', j, a, c, b, hstep, hm⟩ := rehashStep_moves t h0.allocated h1.allocated
    (fun j hj c hc => by rw [hb j hj] at hc; cases hc; rfl) (by rw [he]; exact List.cons_ne_nil e es)
  obtain ⟨hb', hc, hbucket, hresult⟩ := hm
  dsimp only at hb' hc hbucket hresult
  have hcons := flatten_eq_cons hb' hc
  rw [← entries, he] at hcons
  obtain ⟨rfl, hes⟩ := List.cons_eq_cons.mp hcons
  obtain ⟨ht1', hl, w1, p1, s1, -⟩ := link_ok h1 e
  rw [DictHT.link, hbucket] at hl
  cases hl
  have hused := h0.used
  rw [he, List.length_cons] at hused
  refine ⟨_, w1, p1, s1, ?_⟩
  rw [hstep, hresult]
  by_cases hnil : es = []
  · left
    rw [if_pos (by rw [hused, hnil]; rfl)]
    exact ⟨hnil, rfl⟩
  · right
    have := List.length_pos_iff.mpr hnil
    rw [if_neg (by omega)]
    refine ⟨_, j, hnil, rfl, ?_, hes.symm, rfl, fun j' hj' => ?_⟩
    · refine h0.set hc (fun e' he' => h0.home hc e' (List.mem_cons_of_mem _ he')) ?_
      rw [List.length_cons]
      omega
    · rw [popBucket, List.getElem?_set_ne (by omega)]
      exact hb' j' hj'

/-- A step from an empty `ht0` reads past its table. -/
theorem rehashStep_empty (h0 : Wf t ht0) (hb : ∀ j < i, ht0.table[j]? = some [])
    (he : entries ht0 = []) :
    dictRehashStep t { ht0 := ht0, ht1 := ht1, rehashidx := i } = none := by
  obtain ⟨-, hne⟩ := skipEmpty_spec h0.length (ht0.size - i) i (by omega) hb
  simp only [dictRehashStep, Int.toNat_natCast]
  cases hg : ht0.table[skipEmpty ht0 (ht0.size - i) i]? with
  | none => rfl
  | some c => exact absurd (hg.trans (congrArg some
      (List.flatten_eq_nil_iff.mp he c (List.mem_of_getElem? hg)))) hne

end Step

/-! ## Growing and shrinking -/

/-- On an idle dict `dictExpandIfNeed` does nothing, or starts a rehash, which it does with
four entries or more: to a table of twice their number where the old one is full, or to a
smaller one than the old. -/
theorem expandIfNeed_idle {t : DictType K} {ht : DictHT K V} (wf : Wf t ht)
    (hs : DICT_INITIAL_SIZE ≤ ht.size) :
    (dictExpandIfNeed { ht0 := ht, ht1 := dictReset, rehashidx := -1 } =
        { ht0 := ht, ht1 := dictReset, rehashidx := -1 } ∧ ht.used ≠ ht.size) ∨
      ∃ k, DICT_INITIAL_SIZE ≤ 2 ^ k ∧ 4 ≤ ht.used ∧
        dictExpandIfNeed { ht0 := ht, ht1 := dictReset, rehashidx := -1 } =
          { ht0 := ht, ht1 := dictAlloc (2 ^ k), rehashidx := (0 : Nat) } ∧
        ((ht.used = ht.size ∧ 2 * ht.used ≤ 2 ^ k) ∨ (ht.used ≤ 2 ^ k ∧ 2 ^ k < ht.size)) := by
  have hz : ht.size ≠ 0 := by have := wf.size_pos; omega
  have expand : ∀ n, dictExpand { ht0 := ht, ht1 := dictReset, rehashidx := -1 } n =
      { ht0 := ht, ht1 := dictAlloc n, rehashidx := (0 : Nat) } := by
    intro n
    cases htab : ht.table with
    | nil => exact absurd htab wf.ne_nil
    | cons => simp [dictExpand, htab]
  simp only [DICT_INITIAL_SIZE] at hs ⊢
  simp only [dictExpandIfNeed, isRehashing_neg_one, Bool.false_eq_true, if_false, hz, expand,
    DICT_INITIAL_SIZE]
  by_cases hfull : ht.used = ht.size
  · right
    obtain ⟨k, e₁, e₂⟩ := nextpower_spec (ht.used * 2)
    exact ⟨k, by omega, by omega, by rw [if_pos hfull, e₁], .inl ⟨hfull, by omega⟩⟩
  rw [if_neg hfull]
  by_cases hlow : 5 * ht.used < ht.size
  · rw [if_pos hlow]
    by_cases hshrink : 4 < nextpower ht.used
    · right
      obtain ⟨k, e₁, e₂⟩ := nextpower_spec ht.used
      have hused : 4 ≤ ht.used := by
        by_contra hlt
        have small : ∀ n < 4, nextpower n ≤ 4 := by decide
        exact absurd hshrink (Nat.not_lt.mpr (small _ (by omega)))
      have hlt := nextpower_lt (n := ht.used) (by omega)
      exact ⟨k, by omega, hused, by rw [if_pos hshrink, e₁], .inr ⟨by omega, by omega⟩⟩
    · rw [if_neg hshrink]
      exact .inl ⟨rfl, hfull⟩
  · rw [if_neg hlow]
    exact .inl ⟨rfl, hfull⟩

/-- What `dictExpandIfNeed` leaves: an allocated `ht0` and the same entries; and
if it has just started a rehash, four of them or more are in `ht0`. -/
structure Expanded (t : DictType K) (d d' : Dict K V) : Prop where
  inv : Inv t d'
  wf0 : Wf t d'.ht0
  all : allEntries d' = allEntries d
  busy : dictIsRehashing d = true → d' = d
  started : dictIsRehashing d = false → dictIsRehashing d' = true → 4 ≤ (entries d'.ht0).length

theorem expandIfNeed_ok {t : DictType K} {d : Dict K V} (h : Inv t d) :
    Expanded t d (dictExpandIfNeed d) := by
  cases h with
  | fresh =>
    have e : dictExpandIfNeed (dictCreate : Dict K V) =
        { ht0 := dictAlloc 4, ht1 := dictReset, rehashidx := -1 } := rfl
    rw [e]
    exact ⟨.idle (wf_dictAlloc t 2) (Nat.le_refl _), wf_dictAlloc t 2, rfl, nofun, nofun⟩
  | @idle ht wf hs =>
    rcases expandIfNeed_idle wf hs with ⟨e, -⟩ | ⟨k, hk, h4, e, -⟩
    · rw [e]
      exact ⟨.idle wf hs, wf, rfl, nofun, nofun⟩
    · rw [e]
      refine ⟨.rehashing wf (wf_dictAlloc t k) hk fun j hj => absurd hj (Nat.not_lt_zero j), wf,
        ?_, nofun, fun _ _ => wf.used ▸ h4⟩
      simp [allEntries, entries_dictAlloc, entries_dictReset]
  | @rehashing ht0 ht1 i wf0 wf1 hs hb =>
    have e : dictExpandIfNeed { ht0 := ht0, ht1 := ht1, rehashidx := i } =
        { ht0 := ht0, ht1 := ht1, rehashidx := i } := by simp [dictExpandIfNeed]
    rw [e]
    exact ⟨.rehashing wf0 wf1 hs hb, wf0, rfl, fun _ => rfl, fun h => by simp at h⟩

/-! ## The migration step of a call -/

/-- While the dict rehashes, `ht0` has an entry left to move. -/
def HasWork (d : Dict K V) : Prop := dictIsRehashing d = true → entries d.ht0 ≠ []

/-- What a migration step of `d` leaves in `d'`: the same entries, and, unless it
was the last step, a non-empty `ht0` without its first entry. -/
structure Migrated (t : DictType K) (d d' : Dict K V) : Prop where
  inv : Inv t d'
  wf0 : Wf t d'.ht0
  all : allEntries d' ~ allEntries d
  busy : dictIsRehashing d' = true → entries d'.ht0 ≠ [] ∧
    d'.ht0.sizemask = d.ht0.sizemask ∧ ∃ e, entries d.ht0 = e :: entries d'.ht0

theorem rehash_ok {t : DictType K} {d : Dict K V} (h : Inv t d) (hr : dictIsRehashing d = true)
    (hne : entries d.ht0 ≠ []) : ∃ d', dictRehashStep t d = some d' ∧ Migrated t d d' := by
  cases h with
  | fresh => cases hr
  | idle => cases hr
  | @rehashing ht0 ht1 i wf0 wf1 hs hb =>
    obtain ⟨e, es, he⟩ := List.exists_cons_of_ne_nil hne
    obtain ⟨ht1', w1, p1, s1, hstep⟩ := rehashStep_ok wf0 wf1 hb he
    have all : allEntries { ht0 := ht0, ht1 := ht1, rehashidx := i } = e :: (es ++ entries ht1) := by
      rw [allEntries, he]
      rfl
    rcases hstep with ⟨rfl, hd⟩ | ⟨ht0', j, hes, hd, w0, e0, m0, hb'⟩
    · refine ⟨_, hd, .idle w1 (s1 ▸ hs), w1, ?_, nofun⟩
      rw [all, allEntries, entries_dictReset, List.append_nil]
      exact p1
    · refine ⟨_, hd, .rehashing w0 w1 (s1 ▸ hs) hb', w0, ?_, fun _ => ⟨e0 ▸ hes, m0, e, ?_⟩⟩
      · rw [all, allEntries, e0]
        exact (p1.append_left es).trans List.perm_middle
      · rw [e0]
        exact he

/-- The migration step of a fetch or a delete. -/
theorem rehashIfNeed_ok {t : DictType K} {d : Dict K V} (h : Inv t d) (hw : HasWork d) :
    ∃ d', dictRehashIfNeed t d = some d' ∧ Inv t d' ∧ (Wf t d.ht0 → Wf t d'.ht0) ∧ HasWork d' ∧
      allEntries d' ~ allEntries d := by
  rw [dictRehashIfNeed]
  split
  · rename_i hr
    obtain ⟨d', e, m⟩ := rehash_ok h hr (hw hr)
    exact ⟨d', e, m.inv, fun _ => m.wf0, fun hr' => (m.busy hr').1, m.all⟩
  · exact ⟨d, rfl, h, id, hw, .refl _⟩

/-- Adding an entry to a dict that does not have its key. -/
theorem addEntry_ok {t : DictType K} {d : Dict K V} (h : Inv t d) (e : DictEntry K V)
    (hw : HasWork (dictExpandIfNeed d)) :
    ∃ d', dictAddEntry t d e = some d' ∧ Inv t d' ∧ HasWork d' ∧
      allEntries d' ~ e :: allEntries d := by
  obtain ⟨hi, w0, hall, -, -⟩ := expandIfNeed_ok h
  rw [dictAddEntry, ← hall]
  generalize dictExpandIfNeed d = d₁ at hi w0 hw
  cases hi with
  | fresh => exact absurd rfl w0.ne_nil
  | @idle ht wf hs =>
    obtain ⟨ht', hl, w, p, s, -⟩ := link_ok wf e
    refine ⟨_, by simp [hl], .idle w (s ▸ hs), nofun, ?_⟩
    simpa [allEntries, entries_dictReset] using p
  | @rehashing ht0 ht1 i wf0 wf1 hs hb =>
    obtain ⟨ht1', hl, w, p, s, -⟩ := link_ok wf1 e
    obtain ⟨d', hd, m⟩ := rehash_ok (.rehashing wf0 w (s ▸ hs) hb) (isRehashing_ofNat _ _ _)
      (hw (isRehashing_ofNat _ _ _))
    refine ⟨d', by simp [hl, hd], m.inv, fun hr => (m.busy hr).1, m.all.trans ?_⟩
    exact (p.append_left (entries ht0)).trans List.perm_middle

end Fedis.Proof.Dict

import Fedis.Proof.Dict.Safety
import Fedis.Proof.Dict.Keys

/-!
# The iterator

`dictIterNext` walks `ht0` and then `ht1`, from the bucket behind `index` on. It starts with
`index` at -1, but behind a used `ht0` it enters `ht1` with `index` at 0 and so passes over
bucket 0 (`iterate_ok`).

* `call_inv`: the invariant of a dict, along every defined run of calls;
* `At`, `next_ok`: the entries that an iterator has left, and what `dictIterNext` does to them;
* `iterates_all_iff`: when a fresh iterator returns every entry once.
-/

namespace Fedis.Proof.Dict

open List Fedis.Framework

universe u v

variable {K : Type u} {V : Type v} {t : DictType K} {d d' : Dict K V}

/-! ## Dicts that calls can make -/

theorem rehash_inv (h : Inv t d) (e : dictRehashIfNeed t d = some d') :
    Inv t d' ∧ (Wf t d.ht0 → Wf t d'.ht0) := by
  rw [dictRehashIfNeed] at e
  split at e
  · rename_i hr
    by_cases hne : entries d.ht0 = []
    · cases h with
      | fresh => cases hr
      | idle => cases hr
      | rehashing wf0 wf1 hs hb =>
        rw [rehashStep_empty wf0 hb hne] at e
        cases e
    · obtain ⟨d₁, e₁, m⟩ := rehash_ok h hr hne
      rw [e₁] at e
      cases e
      exact ⟨m.inv, fun _ => m.wf0⟩
  · cases e
    exact ⟨h, id⟩

theorem add_inv (h : Inv t d) {key : K} {val : V} {r : Int} (e : dictAdd t d key val = some (r, d')) :
    Inv t d' := by
  rw [dictAdd] at e
  split at e
  · cases e
  · cases e
    exact h
  · rw [dictAddEntry] at e
    obtain ⟨hi, w0, -, -, -⟩ := expandIfNeed_ok h
    generalize dictExpandIfNeed d = d₁ at hi w0 e
    cases hi with
    | fresh => exact absurd rfl w0.ne_nil
    | @idle ht wf hs =>
      obtain ⟨ht', hl, w, -, s, -⟩ := link_ok wf { key := key, val := val }
      simp only [isRehashing_neg_one, Bool.false_eq_true, if_false, hl, Option.map_some] at e
      cases e
      exact .idle w (s ▸ hs)
    | @rehashing ht0 ht1 i wf0 wf1 hs hb =>
      obtain ⟨ht1', hl, w, -, s, -⟩ := link_ok wf1 { key := key, val := val }
      have hi : Inv t { ht0 := ht0, ht1 := ht1', rehashidx := i } := .rehashing wf0 w (s ▸ hs) hb
      simp only [isRehashing_ofNat, if_true, hl, Option.bind_some, Option.map_eq_some_iff] at e
      obtain ⟨d₂, e₂, hd⟩ := e
      cases hd
      exact (rehash_inv hi (by rw [dictRehashIfNeed, if_pos (isRehashing_ofNat _ _ _), e₂])).1

theorem replace_inv (h : Inv t d) {key : K} {val : V} {r : Int}
    (e : dictReplace t d key val = some (r, d')) : Inv t d' := by
  obtain ⟨q, hq, hf⟩ := find_total h key
  rw [dictReplace, hq] at e
  cases q with
  | none =>
    cases e
    exact h
  | some q =>
    obtain ⟨i, entry⟩ := q
    obtain ⟨hz, hi⟩ := hf i entry rfl
    cases e
    split
    · cases h with
      | fresh => exact absurd rfl hz
      | idle wf hs => exact .idle (wf_setVal wf key val).1 hs
      | rehashing wf0 wf1 hs hb =>
        exact .rehashing (wf_setVal wf0 key val).1 wf1 hs (setVal_below hb key val)
    · rename_i hne
      cases h with
      | fresh => exact absurd rfl hz
      | idle => exact absurd (hi.resolve_left hne) (by simp)
      | rehashing wf0 wf1 hs hb => exact .rehashing wf0 (wf_setVal wf1 key val).1 hs hb

theorem delete_inv (h : Inv t d) {key : K} {r : Int} (e : dictDelete t d key = some (r, d')) :
    Inv t d' := by
  rw [dictDelete] at e
  obtain ⟨d₂, e₂, e⟩ := Option.bind_eq_some_iff.mp e
  have hx := expandIfNeed_ok h
  obtain ⟨i₂, w₂⟩ := rehash_inv hx.inv e₂
  have w₂ := w₂ hx.wf0
  cases i₂ with
  | fresh => exact absurd rfl w₂.ne_nil
  | @idle ht wf hs =>
    obtain ⟨q, hq, hf⟩ := unlink_total wf key
    cases q with
    | none =>
      simp only [hq, isRehashing_neg_one, Bool.false_eq_true, if_false] at e
      cases e
      exact .idle wf hs
    | some ht' =>
      obtain ⟨w', s', -⟩ := hf ht' rfl
      simp only [hq] at e
      cases e
      exact .idle w' (s' ▸ hs)
  | @rehashing ht0 ht1 i wf0 wf1 hs hb =>
    obtain ⟨q, hq, hf⟩ := unlink_total wf0 key
    cases q with
    | some ht' =>
      simp only [hq] at e
      cases e
      exact .rehashing (hf ht' rfl).1 wf1 hs (unlink_below hq hb)
    | none =>
      obtain ⟨q', hq', hf'⟩ := unlink_total wf1 key
      simp only [hq, isRehashing_ofNat, if_true, hq', Option.map_some] at e
      cases q' with
      | none =>
        cases e
        exact .rehashing wf0 wf1 hs hb
      | some ht' =>
        obtain ⟨w', s', -⟩ := hf' ht' rfl
        cases e
        exact .rehashing wf0 w' (s' ▸ hs) hb

/-- Every call that is defined keeps the invariant. -/
theorem call_inv [Inhabited V] (h : Inv t d) {op : DictOp K V} {r : DictReply V}
    (e : dictCall t d op = some (r, d')) : Inv t d' := by
  cases op with
  | size =>
    cases e
    exact h
  | contains key =>
    obtain ⟨b, -, hb⟩ := Option.map_eq_some_iff.mp e
    cases hb
    exact h
  | fetchValue key =>
    obtain ⟨q, hq, hd⟩ := Option.map_eq_some_iff.mp e
    obtain ⟨d₁, e₁, e₂⟩ := Option.bind_eq_some_iff.mp hq
    obtain ⟨f, -, hf⟩ := Option.map_eq_some_iff.mp e₂
    cases hf
    cases hd
    exact (rehash_inv h e₁).1
  | add key val =>
    obtain ⟨q, hq, hd⟩ := Option.map_eq_some_iff.mp e
    cases hd
    exact add_inv h hq
  | replace key val =>
    obtain ⟨q, hq, hd⟩ := Option.map_eq_some_iff.mp e
    cases hd
    exact replace_inv h hq
  | delete key =>
    obtain ⟨q, hq, hd⟩ := Option.map_eq_some_iff.mp e
    cases hd
    exact delete_inv h hq

theorem run_inv [Inhabited V] {ops : List (DictOp K V)} {rs : List (DictReply V)}
    (h : run (dictCall t) dictCreate ops = some (rs, d)) : Inv t d :=
  run_keeps (I := Inv t) (fun _ _ _ _ hi e => call_inv hi e) .fresh h

/-! ## What an iterator has left -/

/-- A table whose size and counter are those of its buckets, allocated or not. -/
structure Counted (ht : DictHT K V) : Prop where
  length : ht.table.length = ht.size
  used : ht.used = (entries ht).length

theorem counted_dictReset : Counted (dictReset : DictHT K V) := ⟨rfl, rfl⟩

theorem Wf.counted {ht : DictHT K V} (h : Wf t ht) : Counted ht := ⟨h.length, h.used⟩

theorem Inv.counted (h : Inv t d) : Counted d.ht0 ∧ Counted d.ht1 := by
  cases h with
  | fresh => exact ⟨counted_dictReset, counted_dictReset⟩
  | idle wf _ => exact ⟨wf.counted, counted_dictReset⟩
  | rehashing wf0 wf1 _ _ => exact ⟨wf0.counted, wf1.counted⟩

theorem Counted.entries_eq_nil {ht : DictHT K V} (h : Counted ht) :
    entries ht = [] ↔ ht.used = 0 := by
  rw [h.used, List.length_eq_zero_iff]

/-- The inner loop finds the first entry from bucket `i` on, with what is behind it. -/
theorem iterBucket_ok {ht : DictHT K V} (h : Counted ht) : ∀ (fuel i : Nat), i ≤ ht.size →
    ht.size < i + fuel →
    ((ht.table.drop i).flatten = [] ∧ iterBucket ht fuel ((i : Int) - 1) = some ((ht.size : Int), [])) ∨
      ∃ j e next, j < ht.size ∧ iterBucket ht fuel ((i : Int) - 1) = some ((j : Int), e :: next) ∧
        (ht.table.drop i).flatten = e :: (next ++ (ht.table.drop (j + 1)).flatten)
  | 0, i, hi, hf => absurd hf (by omega)
  | fuel + 1, i, hi, hf => by
    rw [iterBucket, Int.sub_add_cancel]
    by_cases hs : i = ht.size
    · refine .inl ⟨?_, by rw [if_pos (by omega), hs]⟩
      rw [List.drop_eq_nil_of_le (by rw [h.length]; omega), List.flatten_nil]
    · have hlt : i < ht.table.length := by rw [h.length]; omega
      have hne : ¬ ((i : Int) = ht.size) := by omega
      rw [if_neg hne, Int.toNat_natCast, List.getElem?_eq_getElem hlt,
        List.drop_eq_getElem_cons hlt, List.flatten_cons]
      cases hc : ht.table[i] with
      | nil =>
        have ih := iterBucket_ok h fuel (i + 1) (by omega) (by omega)
        rw [show ((i + 1 : Nat) : Int) - 1 = i by omega] at ih
        simpa using ih
      | cons e next => exact .inr ⟨i, e, next, by omega, rfl, rfl⟩

/-- The iterator is in the dict, and has these entries left: before `ht0` where that is not
in use, in `ht0`, in `ht1`, or behind both. -/
inductive At (d : Dict K V) : DictIterator K V → List (DictEntry K V) → Prop
  | unused (used : d.ht0.used = 0) : At d (dictGetIterator d) (entries d.ht1)
  | first {i : Nat} {c : List (DictEntry K V)} (used : d.ht0.used ≠ 0) (bound : i ≤ d.ht0.size) :
      At d { dict := d, index := (i : Int) - 1, entry := c, htidx := 0 }
        (c ++ (d.ht0.table.drop i).flatten ++ (d.ht1.table.drop 1).flatten)
  | second {i : Nat} {c : List (DictEntry K V)} (used : d.ht1.used ≠ 0) (bound : i ≤ d.ht1.size) :
      At d { dict := d, index := (i : Int) - 1, entry := c, htidx := 1 }
        (c ++ (d.ht1.table.drop i).flatten)

/-- What a call of `dictIterNext` does to the entries that are left. -/
def Nexts (d : Dict K V) (es : List (DictEntry K V))
    (r : Option (Option (DictEntry K V) × DictIterator K V)) : Prop :=
  match es with
  | [] => ∃ iter, r = some (none, iter)
  | e :: es => ∃ iter, r = some (some e, iter) ∧ At d iter es

section Next

variable (h0 : Counted d.ht0) (h1 : Counted d.ht1)
include h1

theorem second_ok {i : Nat} {c : List (DictEntry K V)} (used : d.ht1.used ≠ 0)
    (bound : i ≤ d.ht1.size) (n : Nat) :
    Nexts d (c ++ (d.ht1.table.drop i).flatten)
      (iterTable (n + 2) { dict := d, index := (i : Int) - 1, entry := c, htidx := 1 }) := by
  rw [iterTable]
  simp only [DictIterator.ht, Nat.one_ne_zero, if_false, Nat.lt_add_one, if_true, if_neg used]
  cases c with
  | cons e next => exact ⟨_, rfl, .second used bound⟩
  | nil =>
    rcases iterBucket_ok h1 (d.ht1.size + 1) i bound (by omega) with
      ⟨hnil, hb⟩ | ⟨j, e, next, hj, hb, hr⟩
    · rw [hb, List.nil_append, hnil]
      exact ⟨_, rfl⟩
    · rw [hb, List.nil_append, hr]
      refine ⟨_, rfl, ?_⟩
      have := At.second (d := d) (c := next) used (Nat.succ_le_of_lt hj)
      rwa [Nat.cast_succ, Int.add_sub_cancel] at this

/-- `ht1` from bucket `i` on, whether it is in use or not. -/
theorem enter_ok (i n : Nat) (bound : d.ht1.used ≠ 0 → i ≤ d.ht1.size) :
    Nexts d (d.ht1.table.drop i).flatten
      (iterTable (n + 2) { dict := d, index := (i : Int) - 1, entry := [], htidx := 1 }) := by
  by_cases used : d.ht1.used = 0
  · have hnil : (d.ht1.table.drop i).flatten = [] := by
      have := h1.entries_eq_nil.mpr used
      exact List.flatten_eq_nil_iff.mpr fun c hc =>
        List.flatten_eq_nil_iff.mp this c (List.mem_of_mem_drop hc)
    rw [hnil, iterTable]
    simp only [DictIterator.ht, Nat.one_ne_zero, if_false, Nat.lt_add_one, if_true, used]
    exact ⟨_, rfl⟩
  · exact second_ok h1 (c := []) used (bound used) n

include h0

/-- One call of `dictIterNext`. -/
theorem next_ok {iter : DictIterator K V} {es : List (DictEntry K V)} (h : At d iter es) :
    Nexts d es (dictIterNext iter) := by
  cases h with
  | unused used =>
    have := enter_ok h1 0 0 fun _ => Nat.zero_le _
    rw [dictIterNext, iterTable]
    simp only [dictGetIterator, DictIterator.ht, if_true, Nat.zero_lt_two, used]
    exact this
  | second used bound => exact second_ok h1 used bound 1
  | @first i c used bound =>
    rw [dictIterNext, iterTable]
    simp only [DictIterator.ht, if_true, Nat.zero_lt_two, if_neg used]
    cases c with
    | cons e next => exact ⟨_, rfl, .first used bound⟩
    | nil =>
      rcases iterBucket_ok h0 (d.ht0.size + 1) i bound (by omega) with
        ⟨hnil, hb⟩ | ⟨j, e, next, hj, hb, hr⟩
      · rw [hb, List.nil_append, hnil, List.nil_append]
        refine enter_ok h1 1 0 fun hu => ?_
        -- a table in use has a bucket
        have hne : entries d.ht1 ≠ [] := fun e => hu (h1.entries_eq_nil.mp e)
        rw [← h1.length]
        refine List.length_pos_iff.mpr fun e => hne ?_
        rw [entries, e, List.flatten_nil]
      · rw [hb, List.nil_append, hr]
        refine ⟨_, rfl, ?_⟩
        have := At.first (d := d) (c := next) used (Nat.succ_le_of_lt hj)
        rwa [Nat.cast_succ, Int.add_sub_cancel] at this

theorem iterRest_ok : ∀ {es : List (DictEntry K V)} {iter : DictIterator K V} {fuel : Nat},
    At d iter es → es.length < fuel → iterRest fuel iter = some es
  | [], iter, fuel + 1, h, _ => by
    obtain ⟨iter', e⟩ := next_ok h0 h1 h
    rw [iterRest, e]
  | e :: es, iter, fuel + 1, h, hf => by
    obtain ⟨iter', en, h'⟩ := next_ok h0 h1 h
    have ih : iterRest fuel iter' = some es := iterRest_ok h' (Nat.lt_of_succ_lt_succ hf)
    rw [iterRest, en]
    simp only [ih, Option.map_some]

/-- What a fresh iterator returns. -/
theorem iterate_ok : dictIterate d = some (entries d.ht0 ++
    if d.ht0.used = 0 then entries d.ht1 else (d.ht1.table.drop 1).flatten) := by
  have hlen : dictSize d = (entries d.ht0).length + (entries d.ht1).length := by
    rw [dictSize, h0.used, h1.used]
  by_cases used : d.ht0.used = 0
  · rw [if_pos used, h0.entries_eq_nil.mpr used]
    exact iterRest_ok h0 h1 (.unused used) (by rw [hlen, List.nil_append]; omega)
  · have hdrop : (d.ht1.table.drop 1).flatten.length ≤ (entries d.ht1).length :=
      ((List.drop_sublist 1 d.ht1.table).flatten).length_le
    rw [if_neg used]
    refine iterRest_ok h0 h1 (At.first (i := 0) (c := []) used (Nat.zero_le _)) ?_
    rw [hlen, List.length_append]
    exact Nat.lt_succ_of_le (Nat.add_le_add_left hdrop _)

end Next

theorem entries_headD (ht : DictHT K V) :
    entries ht = ht.table.headD [] ++ (ht.table.drop 1).flatten := by
  cases h : ht.table <;> simp [entries, h]

/-- A fresh iterator returns every entry once if and only if `ht0` is not in use or bucket
0 of `ht1` is empty, in every dict that calls can make. -/
theorem iterates_all_iff [Inhabited V] (t : DictType K) {ops : List (DictOp K V)}
    {rs : List (DictReply V)} (h : run (dictCall t) dictCreate ops = some (rs, d)) :
    (∃ es, dictIterate d = some es ∧ es ~ entries d.ht0 ++ entries d.ht1) ↔
      d.ht0.used = 0 ∨ d.ht1.table.headD [] = [] := by
  obtain ⟨h0, h1⟩ := (run_inv h).counted
  rw [iterate_ok h0 h1]
  constructor
  · rintro ⟨es, he, hp⟩
    cases he
    refine or_iff_not_imp_left.mpr fun used => ?_
    rw [if_neg used, entries_headD d.ht1] at hp
    have hl := hp.length_eq
    simp only [List.length_append] at hl
    exact List.length_eq_zero_iff.mp (by omega)
  · intro hd
    refine ⟨_, rfl, .of_eq (congrArg _ ?_)⟩
    split
    · rfl
    · rename_i used
      rw [entries_headD, hd.resolve_left used, List.nil_append]

/-- Keys of a database: the fifth one starts a rehash and is in bucket 0 of `ht1`. -/
def fiveKeys : List (DictOp Bytes Int) :=
  [.add (bytes "a") 1, .add (bytes "b") 2, .add (bytes "d") 3, .add (bytes "e") 4,
    .add (bytes "c") 5]

/-- The iterator of the dict with these keys does not return the key `c`. -/
theorem iterates_without_c : ∃ rs d, run (dictCall dbDictType) dictCreate fiveKeys = some (rs, d) ∧
    dictSize d = 5 ∧
    (dictIterate d).map (List.map DictEntry.key) = some [bytes "e", bytes "a", bytes "b", bytes "d"] ∧
    ¬ ∃ es, dictIterate d = some es ∧ es ~ entries d.ht0 ++ entries d.ht1 := by
  have defined : (run (dictCall dbDictType) dictCreate fiveKeys).isSome := by decide
  have size : (run (dictCall dbDictType) dictCreate fiveKeys).map (fun r => dictSize r.2) =
      some 5 := by decide
  have keys : (run (dictCall dbDictType) dictCreate fiveKeys).map
      (fun r => (dictIterate r.2).map (List.map DictEntry.key)) =
        some (some [bytes "e", bytes "a", bytes "b", bytes "d"]) := by decide
  obtain ⟨⟨rs, d⟩, h⟩ := Option.isSome_iff_exists.mp defined
  rw [h] at size keys
  simp only [Option.map_some, Option.some.injEq] at size keys
  refine ⟨rs, d, h, size, keys, ?_⟩
  rintro ⟨es, he, hp⟩
  obtain ⟨h0, h1⟩ := (run_inv h).counted
  rw [he, Option.map_some, Option.some.injEq] at keys
  have hk := congrArg List.length keys
  have hl := hp.length_eq
  rw [dictSize, h0.used, h1.used] at size
  rw [List.length_append, size] at hl
  rw [List.length_map, hl] at hk
  cases hk

end Fedis.Proof.Dict

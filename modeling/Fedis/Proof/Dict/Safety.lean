import Fedis.Framework.Run
import Fedis.Proof.Dict.Step

/-!
# Rehashing always has an entry to move

`_dictRehashStep` looks for a non-empty bucket of `ht0` and reads `table[size]`
if there is none. A delete can leave it none: its own migration step moves one
of the last two entries of `ht0`, and the delete then unlinks the other one
(`DropsLast`). Every other call leaves `ht0` an entry (`call_safe`), so in a run
without such a delete the step always finds one (`rehash_safe`); after such a
delete the next step reads past the table (`dropsLast_breaks`).
-/

namespace Fedis.Proof.Dict

open List Fedis.Framework

universe u v

variable {K : Type u} {V : Type v}

/-- The call deletes, while the dict rehashes with two entries left in `ht0`, the
one of them that its migration step does not move. -/
def DropsLast (t : DictType K) (d : Dict K V) : DictOp K V → Prop
  | .delete key => dictIsRehashing d = true ∧ ∃ a b, entries d.ht0 = [a, b] ∧
      t.hits key b = true ∧ d.ht0.idx t b.key = d.ht0.idx t key
  | _ => False

instance (t : DictType K) (d : Dict K V) : DecidablePred (DropsLast t d)
  | .delete key =>
    match h : entries d.ht0 with
    | [_, b] => decidable_of_iff (dictIsRehashing d = true ∧ t.hits key b = true ∧
        d.ht0.idx t b.key = d.ht0.idx t key) (by simp [DropsLast, h])
    | [] | [_] | _ :: _ :: _ :: _ => isFalse (by simp [DropsLast, h])
  | .add .. | .replace .. | .fetchValue _ | .contains _ | .size => isFalse id

/-- A rehashing dict has a non-empty bucket at or above `rehashidx`, its next
migration step stays inside the tables, and `dictIsEmpty` tells whether the dict
has no entry. -/
structure RehashSafe (t : DictType K) (d : Dict K V) : Prop where
  bucket : dictIsRehashing d = true → ∃ j : Nat, d.rehashidx ≤ j ∧ j < d.ht0.size ∧
    ∃ e next, d.ht0.table[j]? = some (e :: next)
  step : dictIsRehashing d = true → (dictRehashStep t d).isSome
  empty : dictIsEmpty d = true ↔ dictSize d = 0

/-- What the invariant says of a dict that has work. -/
theorem rehashSafe_of_hasWork {t : DictType K} {d : Dict K V} (h : Inv t d) (hw : HasWork d) :
    RehashSafe t d where
  bucket hr := by
    cases h with
    | fresh => cases hr
    | idle => cases hr
    | @rehashing ht0 ht1 i wf0 wf1 hs hb =>
      obtain ⟨e, he⟩ := List.exists_mem_of_ne_nil _ (hw hr)
      obtain ⟨c, hc, hm⟩ := wf0.placed.mem_bucket he
      generalize hj : ht0.idx t e.key = j at hc
      obtain ⟨a, next, rfl⟩ := List.exists_cons_of_ne_nil (List.ne_nil_of_mem hm)
      refine ⟨j, ?_, wf0.length ▸ (List.getElem?_eq_some_iff.mp hc).1, a, next, hc⟩
      by_contra hlt
      have := hb j (by simpa using hlt)
      rw [hc] at this
      cases this
  step hr := by
    obtain ⟨d', hd, -⟩ := rehash_ok h hr (hw hr)
    rw [hd]
    rfl
  empty := by
    rw [dictIsEmpty, beq_iff_eq, dictSize]
    cases h with
    | fresh => simp [dictCreate, dictReset]
    | idle => simp [dictReset]
    | rehashing wf0 _ _ _ =>
      have := List.length_pos_iff.mpr (hw (isRehashing_ofNat _ _ _))
      have := wf0.used
      constructor <;> intro <;> simp_all

/-- Every key is looked up inside the tables. -/
theorem find_total {t : DictType K} {d : Dict K V} (h : Inv t d) (key : K) :
    ∃ r, dictFind t d key = some r ∧ ∀ i e, r = some (i, e) → d.ht0.size ≠ 0 ∧
      (i = 0 ∨ dictIsRehashing d = true) := by
  have total : ∀ {ht : DictHT K V}, Wf t ht → ∃ r, ht.find t key = some r := fun wf => by
    obtain ⟨c, hc⟩ := wf.bucket key
    exact ⟨_, by rw [DictHT.find, hc, Option.map_some]⟩
  cases h with
  | fresh => exact ⟨none, rfl, fun _ _ e => by cases e⟩
  | @idle ht wf hs =>
    have hz : ht.size ≠ 0 := by have := wf.size_pos; omega
    obtain ⟨r, hr⟩ := total wf
    cases r with
    | none => exact ⟨none, by simp [dictFind, hz, hr], fun _ _ e => by cases e⟩
    | some e =>
      exact ⟨some (0, e), by simp [dictFind, hz, hr], fun i e' he => by cases he; exact ⟨hz, .inl rfl⟩⟩
  | @rehashing ht0 ht1 i wf0 wf1 hs hb =>
    have hz : ht0.size ≠ 0 := by have := wf0.size_pos; omega
    obtain ⟨r, hr⟩ := total wf0
    obtain ⟨r', hr'⟩ := total wf1
    cases r with
    | some e =>
      exact ⟨some (0, e), by simp [dictFind, hz, hr], fun _ _ _ => ⟨hz, .inr (isRehashing_ofNat _ _ _)⟩⟩
    | none =>
      exact ⟨r'.map fun e => (1, e), by simp [dictFind, hz, hr, hr'],
        fun _ _ _ => ⟨hz, .inr (isRehashing_ofNat _ _ _)⟩⟩

/-! ## The calls -/

section Calls

variable {t : DictType K} {d : Dict K V}

/-- The work left after `dictExpandIfNeed`. -/
theorem hasWork_expandIfNeed (h : Inv t d) (hw : HasWork d) : HasWork (dictExpandIfNeed d) := by
  intro hr
  have hx := expandIfNeed_ok h
  cases hd : dictIsRehashing d with
  | true =>
    rw [hx.busy hd]
    exact hw hd
  | false =>
    have := hx.started hd hr
    exact List.ne_nil_of_length_pos (by omega)

theorem add_safe (h : Inv t d) (hw : HasWork d) (key : K) (val : V) :
    ∃ r d', dictAdd t d key val = some (r, d') ∧ Inv t d' ∧ HasWork d' := by
  obtain ⟨r, hr, -⟩ := find_total h key
  cases r with
  | some r => exact ⟨DICT_ERR, d, by rw [dictAdd, hr], h, hw⟩
  | none =>
    obtain ⟨d', hd, hi, hw', -⟩ := addEntry_ok h { key := key, val := val } (hasWork_expandIfNeed h hw)
    exact ⟨DICT_OK, d', by rw [dictAdd, hr]; simp only [hd, Option.map_some], hi, hw'⟩

theorem replace_safe (h : Inv t d) (hw : HasWork d) (key : K) (val : V) :
    ∃ r d', dictReplace t d key val = some (r, d') ∧ Inv t d' ∧ HasWork d' := by
  obtain ⟨r, hr, hf⟩ := find_total h key
  cases r with
  | none => exact ⟨_, _, by rw [dictReplace, hr], h, hw⟩
  | some r =>
    obtain ⟨i, e⟩ := r
    obtain ⟨hz, hi⟩ := hf i e rfl
    refine ⟨_, _, by rw [dictReplace, hr], ?_⟩
    -- the entries keep their number, so the tables keep their work
    have keeps : ∀ {ht : DictHT K V}, Wf t ht → entries ht ≠ [] →
        entries (ht.setVal t key val) ≠ [] := fun {ht} wf hne => by
      have e₁ := (wf_setVal wf key val).1.used
      have e₂ := wf.used
      have := List.length_pos_iff.mpr hne
      have e₃ : (ht.setVal t key val).used = ht.used := rfl
      exact List.ne_nil_of_length_pos (by omega)
    split
    · cases h with
      | fresh => exact absurd rfl hz
      | idle wf hs => exact ⟨.idle (wf_setVal wf key val).1 hs, nofun⟩
      | rehashing wf0 wf1 hs hb =>
        exact ⟨.rehashing (wf_setVal wf0 key val).1 wf1 hs (setVal_below hb key val),
          fun _ => keeps wf0 (hw (isRehashing_ofNat _ _ _))⟩
    · rename_i hne
      have hr := hi.resolve_left hne
      cases h with
      | fresh => exact absurd rfl hz
      | idle => cases hr
      | rehashing wf0 wf1 hs hb =>
        exact ⟨.rehashing wf0 (wf_setVal wf1 key val).1 hs hb, fun _ => hw hr⟩

theorem fetch_safe [Inhabited V] (h : Inv t d) (hw : HasWork d) (key : K) :
    ∃ r d', dictFetchValue t d key = some (r, d') ∧ Inv t d' ∧ HasWork d' := by
  obtain ⟨d₁, h₁, i₁, -, w₁, -⟩ := rehashIfNeed_ok h hw
  obtain ⟨r, hr, -⟩ := find_total i₁ key
  exact ⟨_, d₁, by rw [dictFetchValue, h₁, Option.bind_some, hr, Option.map_some], i₁, w₁⟩

/-- The dict that a delete searches: of its entries in `ht0`, two or more, or the
last of two. -/
theorem delete_searches (h : Inv t d) (hw : HasWork d) :
    ∃ d₂, dictRehashIfNeed t (dictExpandIfNeed d) = some d₂ ∧ Inv t d₂ ∧ Wf t d₂.ht0 ∧ HasWork d₂ ∧
      (dictIsRehashing d₂ = true → 2 ≤ (entries d₂.ht0).length ∨ (dictIsRehashing d = true ∧
        d₂.ht0.sizemask = d.ht0.sizemask ∧ ∃ a b, entries d.ht0 = [a, b] ∧ entries d₂.ht0 = [b])) := by
  have hx := expandIfNeed_ok h
  have hw₁ := hasWork_expandIfNeed h hw
  rw [dictRehashIfNeed]
  split
  · rename_i hr
    obtain ⟨d₂, e₂, m⟩ := rehash_ok hx.inv hr (hw₁ hr)
    refine ⟨d₂, e₂, m.inv, m.wf0, fun hr₂ => (m.busy hr₂).1, fun hr₂ => ?_⟩
    obtain ⟨hne, hmask, e, he⟩ := m.busy hr₂
    cases hd : dictIsRehashing d with
    | false =>
      have := hx.started hd hr
      rw [he, List.length_cons] at this
      exact .inl (by omega)
    | true =>
      rw [hx.busy hd] at hmask he
      cases hl : entries d₂.ht0 with
      | nil => exact absurd hl hne
      | cons b bs =>
        cases bs with
        | nil => exact .inr ⟨rfl, hmask, e, b, by rw [he, hl], rfl⟩
        | cons => exact .inl (by simp)
  · rename_i hr
    exact ⟨_, rfl, hx.inv, hx.wf0, hw₁, fun hr' => absurd hr' hr⟩

theorem delete_safe (h : Inv t d) (hw : HasWork d) (key : K)
    (hn : ¬ DropsLast t d (.delete key : DictOp K V)) :
    ∃ r d', dictDelete t d key = some (r, d') ∧ Inv t d' ∧ HasWork d' := by
  obtain ⟨d₂, e₂, i₂, wf₂, w₂, hlast⟩ := delete_searches h hw
  rw [dictDelete, e₂]
  simp only [Option.bind_some]
  cases i₂ with
  | fresh => exact absurd rfl wf₂.ne_nil
  | @idle ht wf hs =>
    obtain ⟨r, hr, hf⟩ := unlink_total wf key
    cases r with
    | none => exact ⟨DICT_ERR, _, by simp [hr], .idle wf hs, nofun⟩
    | some ht' =>
      obtain ⟨w', s', -⟩ := hf ht' rfl
      exact ⟨DICT_OK, _, by simp [hr], .idle w' (s' ▸ hs), nofun⟩
  | @rehashing ht0 ht1 i wf0 wf1 hs hb =>
    obtain ⟨r, hr, hf⟩ := unlink_total wf0 key
    have hre := isRehashing_ofNat ht0 ht1 i
    cases r with
    | some ht' =>
      obtain ⟨w', -, e, hhit, hidx, hp⟩ := hf ht' rfl
      refine ⟨DICT_OK, _, by simp [hr], .rehashing w' wf1 hs (unlink_below hr hb), fun _ hnil => ?_⟩
      rw [hnil] at hp
      rcases hlast hre with hlen | ⟨hd, hmask, a, b, hab, hb₂⟩
      · have := hp.length_eq
        simp only [List.length_cons, List.length_nil] at this hlen
        omega
      · -- the entry unlinked is the one the migration step has left
        rw [hb₂] at hp
        obtain rfl : b = e := by simpa using hp
        refine hn ⟨hd, a, b, hab, hhit, ?_⟩
        simpa only [DictHT.idx, ← hmask] using hidx
    | none =>
      obtain ⟨r', hr', hf'⟩ := unlink_total wf1 key
      cases r' with
      | none => exact ⟨DICT_ERR, _, by simp [hr, hr'], .rehashing wf0 wf1 hs hb, w₂⟩
      | some ht' =>
        obtain ⟨w', s', -⟩ := hf' ht' rfl
        exact ⟨DICT_OK, _, by simp [hr, hr'], .rehashing wf0 w' (s' ▸ hs) hb, fun _ => w₂ hre⟩

/-- Every call that does not drop the last entry of `ht0`. -/
theorem call_safe [Inhabited V] (h : Inv t d) (hw : HasWork d) (op : DictOp K V)
    (hn : ¬ DropsLast t d op) : ∃ r d', dictCall t d op = some (r, d') ∧ Inv t d' ∧ HasWork d' := by
  cases op with
  | add key val =>
    obtain ⟨r, d', e, hs⟩ := add_safe h hw key val
    exact ⟨_, d', by rw [dictCall, e]; rfl, hs⟩
  | replace key val =>
    obtain ⟨r, d', e, hs⟩ := replace_safe h hw key val
    exact ⟨_, d', by rw [dictCall, e]; rfl, hs⟩
  | fetchValue key =>
    obtain ⟨r, d', e, hs⟩ := fetch_safe h hw key
    exact ⟨_, d', by rw [dictCall, e]; rfl, hs⟩
  | delete key =>
    obtain ⟨r, d', e, hs⟩ := delete_safe h hw key hn
    exact ⟨_, d', by rw [dictCall, e]; rfl, hs⟩
  | contains key =>
    obtain ⟨r, hr, -⟩ := find_total h key
    exact ⟨_, d, by rw [dictCall, dictContains, hr]; rfl, h, hw⟩
  | size => exact ⟨_, d, rfl, h, hw⟩

/-- The delete that drops the last entry leaves a dict that still rehashes, whose
next migration step reads past the table. -/
theorem dropsLast_breaks (h : Inv t d) {key : K} (hn : DropsLast t d (.delete key : DictOp K V)) :
    ∃ d', dictDelete t d key = some (DICT_OK, d') ∧ dictIsRehashing d' = true ∧
      entries d'.ht0 = [] ∧ dictRehashStep t d' = none := by
  obtain ⟨hr, a, b, hab, hhit, hidx⟩ := hn
  cases h with
  | fresh => cases hr
  | idle => cases hr
  | @rehashing ht0 ht1 i wf0 wf1 hs hb =>
    obtain ⟨ht1', w1, p1, s1, ⟨hnil, -⟩ | ⟨ht0', j, -, hd, w0, e0, m0, hb'⟩⟩ :=
      rehashStep_ok wf0 wf1 hb hab
    · cases hnil
    obtain ⟨c, hc, hm⟩ := w0.placed.mem_bucket (e0 ▸ List.mem_singleton_self b : b ∈ entries ht0')
    have hidx' : ht0'.idx t b.key = ht0'.idx t key := by
      simpa only [DictHT.idx, m0] using hidx
    rw [hidx'] at hc
    obtain ⟨r, hu, hf⟩ := unlink_total w0 key
    have hsome : r.isSome := by
      rw [DictHT.unlink, hc, Option.map_some, if_pos (List.any_eq_true.mpr ⟨b, hm, hhit⟩)] at hu
      cases hu
      rfl
    obtain ⟨ht0'', rfl⟩ := Option.isSome_iff_exists.mp hsome
    obtain ⟨w', -, e, -, -, hp⟩ := hf ht0'' rfl
    have hnil : entries ht0'' = [] := by
      have := hp.length_eq
      rw [e0] at this
      exact List.eq_nil_of_length_eq_zero (by simpa using this.symm)
    have hex : dictExpandIfNeed { ht0 := ht0, ht1 := ht1, rehashidx := i } =
        { ht0 := ht0, ht1 := ht1, rehashidx := i } := by simp [dictExpandIfNeed]
    refine ⟨{ ht0 := ht0'', ht1 := ht1', rehashidx := j }, ?_, isRehashing_ofNat _ _ _, hnil,
      rehashStep_empty w' (unlink_below hu hb') hnil⟩
    simp [dictDelete, hex, dictRehashIfNeed, hd, hu]

end Calls

/-- **Rehashing is safe without a delete that drops the last entry of `ht0`.**
Every run of calls from `dictCreate` without one is defined and ends in a safe
dict. -/
theorem rehash_safe [Inhabited V] (t : DictType K) (ops : List (DictOp K V))
    (h : Along (dictCall t) (fun d op => ¬ DropsLast t d op) dictCreate ops) :
    ∃ rs d, run (dictCall t) dictCreate ops = some (rs, d) ∧ RehashSafe t d := by
  obtain ⟨rs, d, e, hi, hw⟩ := run_defined (I := fun d : Dict K V => Inv t d ∧ HasWork d)
    (fun d op hs hn => call_safe hs.1 hs.2 op hn) ops ⟨.fresh, nofun⟩ h
  exact ⟨rs, d, e, rehashSafe_of_hasWork hi hw⟩

/-- A dict that grows to eight buckets, and its keys deleted during the move. -/
theorem rehash_safe_grow : ∃ rs d, run (dictCall natKeys.toDictType) dictCreate
      [.add 0 7, .add 1 7, .add 2 7, .add 3 7, .add 4 7, .delete 4, .delete 5, .fetchValue 3] =
        some (rs, d) ∧ RehashSafe natKeys.toDictType d :=
  rehash_safe natKeys.toDictType _ (by decide)

/-- A run with a delete that drops the last entry of `ht0`: the dict, which holds
four entries, looks empty, and its next migration step reads past the table. -/
theorem rehash_unsafe : ∃ rs d, run (dictCall natKeys.toDictType) dictCreate
      [.add 0 0, .add 1 0, .add 2 0, .add 3 0, .add 4 0, .delete 5, .delete 3] = some (rs, d) ∧
    ¬ RehashSafe natKeys.toDictType d ∧ dictRehashStep natKeys.toDictType d = none ∧
    dictIsEmpty d = true ∧ dictSize d = 4 :=
  ⟨_, _, rfl, fun h => absurd (h.step rfl) (by decide), by decide, by decide, by decide⟩

end Fedis.Proof.Dict

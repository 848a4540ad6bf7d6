import Fedis.Proof.Dict.Expire

/-!
# A database on its dicts

The functions of `db.c` do on the dicts what they do on the maps (`db_refines`): a run of calls
is defined iff no call starts a migration step in a dict whose `ht0` has no entry or asks for a
time to live that is no `long` (`Defined`), and then the replies are those of the maps, which the
dicts still hold. The watch lists are behind pointers:
the invariant `Watches` says that no two keys share a list and none is at the address that
`listCreate` returns next.
-/

namespace Fedis.Proof.Dict

open Fedis.Framework

variable {db db' : DbTables} {m : RedisDb} {key : Bytes}

/-! ## The calls of a dict -/

section Holds

universe u v

variable {K : Type u} {V : Type v} {t : KeyType K} {d : Dict K V} {m : KeyMap t V} {key : K}

section Inhabited

variable [Inhabited V]

theorem add_holds (h : Inv t.toDictType d) (hm : Holds t d m) {val : V}
    (hne : ¬ StartsEmptyStep t.toDictType d (.add key val)) :
    ∃ d', dictAdd t.toDictType d key val = some ((mapAdd m (t.cls key) val).1, d') ∧
      Inv t.toDictType d' ∧ Holds t d' (mapAdd m (t.cls key) val).2 := by
  obtain ⟨d', e, hi, hm'⟩ := add_ok h hm key val hne
  obtain ⟨⟨v, d₁⟩, hq, hr⟩ := Option.map_eq_some_iff.mp e
  obtain ⟨hv, rfl⟩ := Prod.mk.inj hr
  have hv : v = (mapAdd m (t.cls key) val).1 := DictReply.status.inj hv
  exact ⟨d₁, by rw [hq, hv], hi, hm'⟩

theorem replace_holds (h : Inv t.toDictType d) (hm : Holds t d m) (key : K) (val : V) :
    ∃ d', dictReplace t.toDictType d key val = some ((mapReplace m (t.cls key) val).1, d') ∧
      Inv t.toDictType d' ∧ Holds t d' (mapReplace m (t.cls key) val).2 := by
  obtain ⟨d', e, hi, hm'⟩ := replace_ok h hm key val
  obtain ⟨⟨v, d₁⟩, hq, hr⟩ := Option.map_eq_some_iff.mp e
  obtain ⟨hv, rfl⟩ := Prod.mk.inj hr
  have hv : v = (mapReplace m (t.cls key) val).1 := DictReply.status.inj hv
  exact ⟨d₁, by rw [hq, hv], hi, hm'⟩

end Inhabited

/-- A step that a call starts while `ht0` is empty is not defined. -/
theorem rehash_empty (h : Inv t.toDictType d) (hr : dictIsRehashing d = true)
    (he : entries d.ht0 = []) : dictRehashStep t.toDictType d = none := by
  cases h with
  | fresh => cases hr
  | idle => cases hr
  | rehashing wf0 _ _ hb => exact rehashStep_empty wf0 hb he

theorem delete_empty (h : Inv t.toDictType d)
    (hs : StartsEmptyStep t.toDictType d (.delete key)) :
    dictDelete t.toDictType d key = none := by
  have hx := expandIfNeed_ok h
  rw [dictDelete, dictRehashIfNeed, if_pos hs.1, rehash_empty hx.inv hs.1 hs.2, Option.bind_none]

theorem add_empty (h : Inv t.toDictType d) {val : V}
    (hs : StartsEmptyStep t.toDictType d (.add key val)) :
    dictAdd t.toDictType d key val = none := by
  obtain ⟨hc, hr, he⟩ := hs
  have hx := (expandIfNeed_ok h).inv
  obtain ⟨r, hf, -⟩ := find_spec h key
  rw [dictContains, hf, Option.map_some, Option.some.injEq] at hc
  rw [dictAdd, hf]
  cases r with
  | some r => cases hc
  | none =>
    simp only [dictAddEntry, if_pos hr]
    cases hl : (dictExpandIfNeed d).ht1.link t.toDictType ⟨key, val⟩ with
    | none => rfl
    | some ht1 =>
      -- the new entry is in `ht1`, and `ht0` is as it was
      have hnone : dictRehashStep t.toDictType { dictExpandIfNeed d with ht1 := ht1 } = none := by
        generalize dictExpandIfNeed d = d₁ at hx hr he
        cases hx with
        | fresh => cases hr
        | idle => cases hr
        | rehashing wf0 _ _ hb => exact rehashStep_empty wf0 hb he
      rw [Option.bind_some, hnone, Option.map_none]

end Holds

section Pointers

variable {V : Type} {t : KeyType Bytes} {d : Dict Bytes V} {m : KeyMap t V}

theorem fetchPtr_holds (h : Inv t.toDictType d) (hm : Holds t d m)
    (hne : ¬ StartsEmptyStep t.toDictType d (.fetchValue key)) :
    ∃ d', dictFetchPtr t.toDictType d key = some (m.lookup (t.cls key), d') ∧
      Inv t.toDictType d' ∧ Holds t d' m := by
  obtain ⟨d₁, h₁, i₁, -, -, p₁⟩ := rehashIfNeed_ok h fun hr he => hne ⟨hr, he⟩
  obtain ⟨r, hr, hl⟩ := find_lookup i₁ (hm.perm p₁) key
  exact ⟨d₁, by rw [dictFetchPtr, h₁, Option.bind_some, hr, hl, Option.map_some], i₁, hm.perm p₁⟩

theorem fetchPtr_empty (h : Inv t.toDictType d)
    (hs : StartsEmptyStep t.toDictType d (.fetchValue key)) :
    dictFetchPtr t.toDictType d key = none := by
  rw [dictFetchPtr, dictRehashIfNeed, if_pos hs.1, rehash_empty h hs.1 hs.2, Option.bind_none]

end Pointers

/-! ## The invariant -/

/-- The watch lists behind a dict of pointers. -/
structure Watches (db : DbTables) (m : RedisDb) (ids : DbMap ListId) : Prop where
  inv : Inv dbDictType db.watchedKeys
  holds : Holds dbKeys db.watchedKeys ids
  lists : ∀ k, m.watchedKeys.lookup k = (ids.lookup k).map db.lists
  unshared : ∀ k k' id, ids.lookup k = some id → ids.lookup k' = some id → k = k'
  fresh : ∀ k id, ids.lookup k = some id → id < db.next

/-- The dicts and the lists of a database hold its maps. -/
structure Backs (db : DbTables) (m : RedisDb) : Prop where
  dicts : Represents db.dicts m
  watches : ∃ ids, Watches db m ids

/-- A call starts a migration step in a dict whose `ht0` has no entry. -/
def StartsEmpty (db : DbTables) : DbCall → Prop
  | .add key value => StartsEmptyStep dbDictType db.dicts.kv (.add key value)
  | .get key => StartsEmptyStep dbDictType db.dicts.kv (.fetchValue key : DictOp Bytes Robj)
  | .delete key => StartsEmptyStep dbDictType db.dicts.kv (.delete key : DictOp Bytes Robj)
  | .setExpire key time => StartsEmptyStep dbDictType db.dicts.expires (.add key time)
  | .getTTL key _ => StartsEmptyStep dbDictType db.dicts.expires (.fetchValue key : DictOp Bytes Int)
  | .expireIfNeed key now =>
    dictContains dbDictType db.dicts.expires key = some true ∧
      (StartsEmptyStep dbDictType db.dicts.expires (.fetchValue key : DictOp Bytes Int) ∨
        (∃ r ∈ dictFetchValue dbDictType db.dicts.expires key, r.1 < now) ∧
          StartsEmptyStep dbDictType db.dicts.kv (.delete key : DictOp Bytes Robj))
  | .addWatch key _ =>
    StartsEmptyStep dbDictType db.watchedKeys (.add key db.next) ∨
      ∃ r ∈ dictAdd dbDictType db.watchedKeys key db.next,
        StartsEmptyStep dbDictType r.2 (.fetchValue key : DictOp Bytes ListId)
  | .touchWatchKey key =>
    dictContains dbDictType db.watchedKeys key = some true ∧
      StartsEmptyStep dbDictType db.watchedKeys (.fetchValue key : DictOp Bytes ListId)
  | .hasExpire _ | .isWatching _ => False

/-- A call stays inside the tables, and the time to live that it asks for is a `long`. -/
structure Defined (db : DbTables) (call : DbCall) : Prop where
  safe : ¬ StartsEmpty db call
  ttl : ∀ key now, call = .getTTL key now →
    ∀ r ∈ dictFetchValue dbDictType db.dicts.expires key, inLong (r.1 - now)

theorem backs_dbInit (lists : ListId → List ClientId) (next : ListId) :
    Backs (.dbInit lists next) dbInit where
  dicts := ⟨.fresh, holds_dictCreate, .fresh, holds_dictCreate⟩
  watches := ⟨∅, .fresh, holds_dictCreate, fun _ => rfl, nofun, nofun⟩

/-- A call that leaves the watch lists alone. -/
theorem Backs.withDicts {m' : RedisDb} (h : Backs db m) {dicts : DbDicts}
    (hd : Represents dicts m') (hw : m'.watchedKeys = m.watchedKeys) :
    Backs { db with dicts := dicts } m' := by
  obtain ⟨ids, w⟩ := h.watches
  exact ⟨hd, ids, w.inv, w.holds, fun k => hw ▸ w.lists k, w.unshared, w.fresh⟩

/-- The watch lists are not in these dicts. -/
theorem Represents.watched {m' : RedisDb} {dicts : DbDicts} (h : Represents dicts m)
    (hk : m'.kv = m.kv) (he : m'.expires = m.expires) : Represents dicts m' :=
  ⟨h.kvInv, hk ▸ h.kv, h.expiresInv, he ▸ h.expires⟩

theorem contains_kv (h : Represents db.dicts m) (key : Bytes) :
    dictContains dbDictType db.dicts.kv key = some (mapContains m.kv (cstr key)) :=
  contains_holds (t := dbKeys) h.kvInv h.kv key

theorem contains_expires (h : Represents db.dicts m) (key : Bytes) :
    dictContains dbDictType db.dicts.expires key = some (mapContains m.expires (cstr key)) :=
  contains_holds (t := dbKeys) h.expiresInv h.expires key

/-! ## Values and deadlines -/

/-- A value is read from a dict for values without `NULL`. -/
local instance : Inhabited Robj := ⟨.int 0⟩

theorem dbAdd_ok (h : Backs db m) {value : Robj} (hne : ¬ StartsEmpty db (.add key value)) :
    ∃ db', db.dbAdd key value = some ((dbAdd m (cstr key) value).1, db') ∧
      Backs db' (dbAdd m (cstr key) value).2 := by
  have hd := h.dicts
  rw [DbTables.dbAdd, contains_kv hd, dbAdd]
  cases mapContains m.kv (cstr key) with
  | false =>
    obtain ⟨kv, e, hi, hm⟩ := add_holds (t := dbKeys) hd.kvInv hd.kv hne
    have e : dictAdd dbDictType db.dicts.kv key value = some (_, kv) := e
    simp only [Option.bind_eq_bind, Option.bind_some, Bool.not_false, if_true, e,
      Bool.false_eq_true, if_false]
    exact ⟨_, rfl, h.withDicts ⟨hi, hm, hd.expiresInv, hd.expires⟩ rfl⟩
  | true =>
    obtain ⟨kv, e, hi, hm⟩ := replace_holds (t := dbKeys) hd.kvInv hd.kv key value
    have e : dictReplace dbDictType db.dicts.kv key value = some (_, kv) := e
    simp only [Option.bind_eq_bind, Option.bind_some, Bool.not_true, Bool.false_eq_true, if_false, e,
      if_true]
    exact ⟨_, rfl, h.withDicts ⟨hi, hm, hd.expiresInv, hd.expires⟩ rfl⟩

theorem dbGet_ok (h : Backs db m) (hne : ¬ StartsEmpty db (.get key)) :
    ∃ db', db.dbGet key = some (dbGet m (cstr key), db') ∧ Backs db' m := by
  have hd := h.dicts
  obtain ⟨kv, e, hi, hm⟩ := fetchPtr_holds (t := dbKeys) hd.kvInv hd.kv hne
  have e : dictFetchPtr dbDictType db.dicts.kv key = some (m.kv.lookup (cstr key), kv) := e
  rw [DbTables.dbGet, e]
  exact ⟨_, rfl, h.withDicts ⟨hi, hm, hd.expiresInv, hd.expires⟩ rfl⟩

theorem dbDelete_ok (h : Backs db m) (hne : ¬ StartsEmpty db (.delete key)) :
    ∃ db', db.dbDelete key = some ((dbDelete m (cstr key)).1, db') ∧
      Backs db' (dbDelete m (cstr key)).2 := by
  have hd := h.dicts
  obtain ⟨kv, e, hi, hm⟩ := delete_holds (t := dbKeys) hd.kvInv hd.kv hne
  have e : dictDelete dbDictType db.dicts.kv key = some ((mapDelete m.kv (cstr key)).1, kv) := e
  rw [DbTables.dbDelete, e]
  exact ⟨_, rfl, h.withDicts ⟨hi, hm, hd.expiresInv, hd.expires⟩ rfl⟩

theorem dbSetExpire_ok (h : Backs db m) {time : Int}
    (hne : ¬ StartsEmpty db (.setExpire key time)) :
    ∃ db', db.dbSetExpire key time = some ((dbSetExpire m (cstr key) time).1, db') ∧
      Backs db' (dbSetExpire m (cstr key) time).2 := by
  have hd := h.dicts
  obtain ⟨expires, e, hi, hm⟩ := add_holds (t := dbKeys) hd.expiresInv hd.expires hne
  have e : dictAdd dbDictType db.dicts.expires key time =
    some ((mapAdd m.expires (cstr key) time).1, expires) := e
  rw [DbTables.dbSetExpire, e]
  exact ⟨_, rfl, h.withDicts ⟨hd.kvInv, hd.kv, hi, hm⟩ rfl⟩

theorem dbGetTTL_ok (h : Backs db m) {now : Int} (hne : Defined db (.getTTL key now)) :
    ∃ db', db.dbGetTTL key now = some (dbGetTTL m (cstr key) now, db') ∧ Backs db' m := by
  have hd := h.dicts
  obtain ⟨expires, e, hi, hm⟩ := fetch_holds (t := dbKeys) hd.expiresInv hd.expires hne.safe
  have e : dictFetchValue dbDictType db.dicts.expires key =
    some (mapFetchValue m.expires (cstr key), expires) := e
  have hlong := hne.ttl key now rfl _ e
  simp only [DbTables.dbGetTTL, e, Option.bind_eq_bind, Option.bind_some, if_pos hlong]
  exact ⟨_, rfl, h.withDicts ⟨hd.kvInv, hd.kv, hi, hm⟩ rfl⟩

/-- No step with an empty `ht0`, said of the dicts and said of the maps. -/
theorem noEmptyStep_iff (h : Represents db.dicts m) {now : Int} :
    ¬ StartsEmpty db (.expireIfNeed key now) ↔ NoEmptyStep db.dicts m key now := by
  rw [StartsEmpty, contains_expires h, NoEmptyStep, Option.some.injEq, mapContains,
    decide_eq_true_eq]
  by_cases hk : cstr key ∈ m.expires
  · by_cases hs : StartsEmptyStep dbDictType db.dicts.expires (.fetchValue key : DictOp Bytes Int)
    · exact iff_of_false (fun hn => hn ⟨hk, .inl hs⟩) fun hn => hn.1 hk hs
    · obtain ⟨expires, e, -⟩ := fetch_holds (t := dbKeys) h.expiresInv h.expires hs
      have e : dictFetchValue dbDictType db.dicts.expires key =
        some (mapFetchValue m.expires (cstr key), expires) := e
      rw [e, passed_iff]
      simp [hk, hs]
  · rw [passed_iff]
    simp [hk]

theorem expireIfNeed_ok (h : Backs db m) {now : Int}
    (hne : ¬ StartsEmpty db (.expireIfNeed key now)) :
    ∃ db', db.expireIfNeed key now = some db' ∧ Backs db' (expireIfNeed m (cstr key) now) := by
  obtain ⟨dicts, e, hr⟩ := expireIfNeed_refines h.dicts ((noEmptyStep_iff h.dicts).mp hne)
  rw [DbTables.expireIfNeed, e]
  refine ⟨_, rfl, h.withDicts hr ?_⟩
  rw [Server.expireIfNeed_eq]
  split <;> rfl

/-! ## Watch lists -/

section Watches

variable {ids : DbMap ListId}

theorem Watches.mem_iff (w : Watches db m ids) {k : Bytes} : k ∈ m.watchedKeys ↔ k ∈ ids := by
  rw [← Finmap.lookup_isSome, ← Finmap.lookup_isSome, w.lists, Option.isSome_map]

theorem Watches.contains (w : Watches db m ids) (key : Bytes) :
    db.dbIsWatching key = some (dbIsWatching m (cstr key)) := by
  have hc : dictContains dbDictType db.watchedKeys key = some (mapContains ids (cstr key)) :=
    contains_holds (t := dbKeys) w.inv w.holds key
  rw [DbTables.dbIsWatching, hc, dbIsWatching, mapContains, mapContains, Option.some.injEq,
    Bool.eq_iff_iff, decide_eq_true_eq, decide_eq_true_eq, w.mem_iff]

/-- `dictAdd` does nothing for a key that has a list. -/
theorem Watches.add_again (w : Watches db m ids) (hk : cstr key ∈ m.watchedKeys) :
    dictAdd dbDictType db.watchedKeys key db.next = some (DICT_ERR, db.watchedKeys) := by
  obtain ⟨r, hr, hl⟩ := find_lookup (t := dbKeys) w.inv w.holds key
  obtain ⟨id, hid⟩ := Finmap.mem_iff.mp (w.mem_iff.mp hk)
  have hl : ids.lookup (cstr key) = r.map fun r => r.2.val := hl
  rw [hid] at hl
  cases r with
  | none => cases hl
  | some r => rw [dictAdd, show dictFind dbDictType db.watchedKeys key = some (some r) from hr]

/-- A list that is changed behind its pointer. -/
theorem Watches.setList (w : Watches db m ids) {id : ListId} (hid : ids.lookup (cstr key) = some id)
    {watchedKeys : Dict Bytes ListId} (hi : Inv dbDictType watchedKeys)
    (hw : Holds dbKeys watchedKeys ids) (cs : List ClientId) :
    Watches { db with watchedKeys := watchedKeys, lists := Function.update db.lists id cs }
      { m with watchedKeys := m.watchedKeys.insert (cstr key) cs } ids where
  inv := hi
  holds := hw
  lists k := by
    dsimp only
    by_cases hk : k = cstr key
    · rw [hk, Finmap.lookup_insert, hid, Option.map_some, Function.update_self]
    · rw [Finmap.lookup_insert_of_ne _ hk, w.lists]
      cases hl : ids.lookup k with
      | none => rfl
      | some id' =>
        have hne : id' ≠ id := fun e => hk (w.unshared _ _ _ hl (e ▸ hid))
        rw [Option.map_some, Option.map_some, Function.update_of_ne hne]
  unshared := w.unshared
  fresh := w.fresh

theorem addWatchList_ok (w : Watches db m ids) (hk : cstr key ∉ ids)
    (hne : ¬ StartsEmptyStep dbDictType db.watchedKeys (.add key db.next)) :
    ∃ db', db.addWatchList key = some db' ∧ db'.dicts = db.dicts ∧
      dictAdd dbDictType db.watchedKeys key db.next = some (DICT_OK, db'.watchedKeys) ∧
      Watches db' { m with watchedKeys := m.watchedKeys.insert (cstr key) [] }
        (ids.insert (cstr key) db.next) := by
  obtain ⟨watchedKeys, e, hi, hm⟩ := add_holds (t := dbKeys) w.inv w.holds hne
  have hadd : mapAdd ids (cstr key) db.next = (DICT_OK, ids.insert (cstr key) db.next) :=
    if_neg hk
  have e : dictAdd dbDictType db.watchedKeys key db.next =
    some ((mapAdd ids (cstr key) db.next).1, watchedKeys) := e
  have hm : Holds dbKeys watchedKeys (mapAdd ids (cstr key) db.next).2 := hm
  rw [hadd] at e hm
  rw [DbTables.addWatchList, e]
  refine ⟨_, rfl, rfl, rfl, hi, hm, fun k => ?_, fun k k' id h h' => ?_, fun k id h => ?_⟩
  · dsimp only
    by_cases hkk : k = cstr key
    · rw [hkk, Finmap.lookup_insert, Finmap.lookup_insert, Option.map_some, Function.update_self]
    · rw [Finmap.lookup_insert_of_ne _ hkk, Finmap.lookup_insert_of_ne _ hkk, w.lists]
      cases hl : ids.lookup k with
      | none => rfl
      | some id' =>
        have hne : id' ≠ db.next := Nat.ne_of_lt (w.fresh _ _ hl)
        rw [Option.map_some, Option.map_some, Function.update_of_ne hne]
  · -- a list that was there is not at the address of the new one
    by_cases hkk : k = cstr key <;> by_cases hkk' : k' = cstr key
    · rw [hkk, hkk']
    · rw [hkk, Finmap.lookup_insert, Option.some.injEq] at h
      rw [Finmap.lookup_insert_of_ne _ hkk', ← h] at h'
      exact absurd (w.fresh _ _ h') (Nat.lt_irrefl _)
    · rw [hkk', Finmap.lookup_insert, Option.some.injEq] at h'
      rw [Finmap.lookup_insert_of_ne _ hkk, ← h'] at h
      exact absurd (w.fresh _ _ h) (Nat.lt_irrefl _)
    · rw [Finmap.lookup_insert_of_ne _ hkk] at h
      rw [Finmap.lookup_insert_of_ne _ hkk'] at h'
      exact w.unshared _ _ _ h h'
  · by_cases hkk : k = cstr key
    · rw [hkk, Finmap.lookup_insert, Option.some.injEq] at h
      exact h ▸ Nat.lt_succ_self _
    · rw [Finmap.lookup_insert_of_ne _ hkk] at h
      exact Nat.lt_succ_of_lt (w.fresh _ _ h)

/-- The end of `dbAddWatch`, on a key that has a list. -/
theorem appendWatch_ok (w : Watches db m ids) (hk : cstr key ∈ ids)
    (hne : ¬ StartsEmptyStep dbDictType db.watchedKeys (.fetchValue key : DictOp Bytes ListId)) :
    ∃ clients watchedKeys, dictFetchPtr dbDictType db.watchedKeys key = some (some clients, watchedKeys) ∧
      db.lists clients = mapFetchValue m.watchedKeys (cstr key) ∧
      ∀ cs, Watches { db with
          watchedKeys := watchedKeys, lists := Function.update db.lists clients cs }
        { m with watchedKeys := m.watchedKeys.insert (cstr key) cs } ids := by
  obtain ⟨id, hid⟩ := Finmap.mem_iff.mp hk
  obtain ⟨watchedKeys, e, hi, hm⟩ := fetchPtr_holds (t := dbKeys) w.inv w.holds hne
  have e : dictFetchPtr dbDictType db.watchedKeys key = some (ids.lookup (cstr key), watchedKeys) := e
  rw [hid] at e
  refine ⟨id, watchedKeys, e, ?_, fun cs => w.setList hid hi hm cs⟩
  rw [mapFetchValue, w.lists, hid]
  rfl

theorem dbAddWatch_ok (h : Backs db m) {client : ClientId}
    (hne : ¬ StartsEmpty db (.addWatch key client)) :
    ∃ db', db.dbAddWatch key client = some db' ∧ Backs db' (dbAddWatch m (cstr key) client) := by
  obtain ⟨ids, w⟩ := h.watches
  rw [StartsEmpty, not_or] at hne
  rw [DbTables.dbAddWatch, w.contains, dbAddWatch, ← dbIsWatching]
  by_cases hk : cstr key ∈ m.watchedKeys
  · have hw : dbIsWatching m (cstr key) = true := decide_eq_true hk
    obtain ⟨clients, watchedKeys, e, hcs, hall⟩ := appendWatch_ok w (w.mem_iff.mp hk)
      fun hs => hne.2 ⟨_, w.add_again hk, hs⟩
    simp only [hw, Option.bind_eq_bind, Option.bind_some, Bool.not_true, Bool.false_eq_true, if_false,
      if_true, e, hcs]
    exact ⟨_, rfl, h.dicts.watched rfl rfl, ids, hall _⟩
  · have hw : dbIsWatching m (cstr key) = false := decide_eq_false hk
    obtain ⟨db₁, e₁, hdicts, hadd, w₁⟩ := addWatchList_ok w (fun hm => hk (w.mem_iff.mpr hm)) hne.1
    have hk₁ : cstr key ∈ ids.insert (cstr key) db.next :=
      Finmap.mem_of_lookup_eq_some (Finmap.lookup_insert _)
    obtain ⟨clients, watchedKeys, e, hcs, hall⟩ := appendWatch_ok w₁ hk₁
      fun hs => hne.2 ⟨_, hadd, hs⟩
    have hmap : mapAdd m.watchedKeys (cstr key) [] =
      (DICT_OK, m.watchedKeys.insert (cstr key) []) := if_neg hk
    simp only [hw, Option.bind_eq_bind, Option.bind_some, Bool.not_false, if_true, e₁, e, hmap,
      Bool.false_eq_true, if_false, hcs]
    exact ⟨_, rfl, hdicts ▸ h.dicts.watched rfl rfl, _, hall _⟩

theorem touchWatchKey_ok (h : Backs db m) (hne : ¬ StartsEmpty db (.touchWatchKey key)) :
    ∃ db', db.call (.touchWatchKey key) = some ((m.call (.touchWatchKey key)).1, db') ∧
      Backs db' (m.call (.touchWatchKey key)).2 := by
  obtain ⟨ids, w⟩ := h.watches
  rw [DbTables.call, DbTables.touchWatchKey, w.contains, RedisDb.call]
  by_cases hk : cstr key ∈ m.watchedKeys
  · have hw : dbIsWatching m (cstr key) = true := decide_eq_true hk
    have hc : dictContains dbDictType db.watchedKeys key = some true := by
      have := w.contains key
      rwa [hw] at this
    obtain ⟨clients, watchedKeys, e, hcs, hall⟩ := appendWatch_ok w (w.mem_iff.mp hk)
      fun hs => hne ⟨hc, hs⟩
    simp only [hw, Option.bind_eq_bind, Option.bind_some, if_true, e, hcs]
    exact ⟨_, rfl, h.dicts.watched rfl rfl, ids, hall _⟩
  · have hw : dbIsWatching m (cstr key) = false := decide_eq_false hk
    simp only [hw, Option.bind_eq_bind, Option.bind_some, Bool.false_eq_true, if_false]
    exact ⟨db, rfl, h⟩

end Watches

/-! ## Every call -/

theorem tables_call_ok (h : Backs db m) (call : DbCall) (hdef : Defined db call) :
    ∃ db', db.call call = some ((m.call call).1, db') ∧ Backs db' (m.call call).2 := by
  have hne := hdef.safe
  cases call with
  | add key value =>
    obtain ⟨db', e, hb⟩ := dbAdd_ok h hne
    exact ⟨db', by rw [DbTables.call, e]; rfl, hb⟩
  | get key =>
    obtain ⟨db', e, hb⟩ := dbGet_ok h hne
    exact ⟨db', by rw [DbTables.call, e]; rfl, hb⟩
  | delete key =>
    obtain ⟨db', e, hb⟩ := dbDelete_ok h hne
    exact ⟨db', by rw [DbTables.call, e]; rfl, hb⟩
  | setExpire key time =>
    obtain ⟨db', e, hb⟩ := dbSetExpire_ok h hne
    exact ⟨db', by rw [DbTables.call, e]; rfl, hb⟩
  | hasExpire key => exact ⟨db, by rw [DbTables.call, contains_expires h.dicts]; rfl, h⟩
  | getTTL key now =>
    obtain ⟨db', e, hb⟩ := dbGetTTL_ok h hdef
    exact ⟨db', by rw [DbTables.call, e]; rfl, hb⟩
  | expireIfNeed key now =>
    obtain ⟨db', e, hb⟩ := expireIfNeed_ok h hne
    exact ⟨db', by rw [DbTables.call, e]; rfl, hb⟩
  | addWatch key client =>
    obtain ⟨db', e, hb⟩ := dbAddWatch_ok h hne
    exact ⟨db', by rw [DbTables.call, e]; rfl, hb⟩
  | isWatching key =>
    obtain ⟨ids, w⟩ := h.watches
    exact ⟨db, by rw [DbTables.call, w.contains]; rfl, h⟩
  | touchWatchKey key => exact touchWatchKey_ok h hne

/-- A call that starts such a step is not defined. -/
theorem tables_call_empty (h : Backs db m) {call : DbCall} (hs : StartsEmpty db call) :
    db.call call = none := by
  have hd := h.dicts
  obtain ⟨ids, w⟩ := h.watches
  cases call with
  | add key value =>
    have hc : dictContains dbDictType db.dicts.kv key = some false := hs.1
    have e : dictAdd dbDictType db.dicts.kv key value = none := add_empty (t := dbKeys) hd.kvInv hs
    simp [DbTables.call, DbTables.dbAdd, hc, e]
  | get key =>
    have e : dictFetchPtr dbDictType db.dicts.kv key = none :=
      fetchPtr_empty (t := dbKeys) hd.kvInv hs
    simp [DbTables.call, DbTables.dbGet, e]
  | delete key =>
    have e : dictDelete dbDictType db.dicts.kv key = none := delete_empty (t := dbKeys) hd.kvInv hs
    simp [DbTables.call, DbTables.dbDelete, e]
  | setExpire key time =>
    have e : dictAdd dbDictType db.dicts.expires key time = none :=
      add_empty (t := dbKeys) hd.expiresInv hs
    simp [DbTables.call, DbTables.dbSetExpire, e]
  | hasExpire key => exact absurd hs id
  | getTTL key now =>
    have e : dictFetchValue dbDictType db.dicts.expires key = none :=
      fetch_empty (t := dbKeys) hd.expiresInv hs
    simp [DbTables.call, DbTables.dbGetTTL, e]
  | expireIfNeed key now =>
    obtain ⟨hc, hs⟩ := hs
    simp only [DbTables.call, DbTables.expireIfNeed, expireIfNeedDicts, hc]
    rcases hs with hs | ⟨⟨⟨expireAt, expires⟩, hr, hlt⟩, hs⟩
    · have e : dictFetchValue dbDictType db.dicts.expires key = none :=
        fetch_empty (t := dbKeys) hd.expiresInv hs
      simp [e]
    · have e : dictDelete dbDictType db.dicts.kv key = none :=
        delete_empty (t := dbKeys) hd.kvInv hs
      have hr : dictFetchValue dbDictType db.dicts.expires key = some (expireAt, expires) := hr
      have hlt : expireAt < now := hlt
      simp [hr, hlt, e]
  | addWatch key client =>
    rw [DbTables.call, DbTables.dbAddWatch, w.contains]
    by_cases hk : cstr key ∈ m.watchedKeys
    · have hw : dbIsWatching m (cstr key) = true := decide_eq_true hk
      rcases hs with hs | ⟨r, hr, hs⟩
      · have hc : db.dbIsWatching key = some false := hs.1
        rw [w.contains, hw] at hc
        cases hc
      · rw [w.add_again hk] at hr
        cases hr
        have e : dictFetchPtr dbDictType db.watchedKeys key = none :=
          fetchPtr_empty (t := dbKeys) w.inv hs
        simp [hw, e]
    · have hw : dbIsWatching m (cstr key) = false := decide_eq_false hk
      by_cases ha : StartsEmptyStep dbDictType db.watchedKeys (.add key db.next)
      · have e : dictAdd dbDictType db.watchedKeys key db.next = none :=
          add_empty (t := dbKeys) w.inv ha
        simp [hw, DbTables.addWatchList, e]
      · obtain ⟨r, hr, hs⟩ := hs.resolve_left ha
        obtain ⟨db₁, e₁, -, hadd, w₁⟩ := addWatchList_ok w (fun hm => hk (w.mem_iff.mpr hm)) ha
        rw [hadd] at hr
        cases hr
        have e : dictFetchPtr dbDictType db₁.watchedKeys key = none :=
          fetchPtr_empty (t := dbKeys) w₁.inv hs
        simp [hw, e₁, e]
  | isWatching key => exact absurd hs id
  | touchWatchKey key =>
    have e : dictFetchPtr dbDictType db.watchedKeys key = none :=
      fetchPtr_empty (t := dbKeys) w.inv hs.2
    have hc : db.dbIsWatching key = some true := hs.1
    simp [DbTables.call, DbTables.touchWatchKey, hc, e]

/-- A call that gives a reply is one of the defined ones. -/
theorem tables_call_some (h : Backs db m) {call : DbCall} {reply : DbReply}
    (e : db.call call = some (reply, db')) :
    Defined db call ∧ reply = (m.call call).1 ∧ Backs db' (m.call call).2 := by
  have hdef : Defined db call := by
    refine ⟨fun hs => ?_, fun key now hcall r hr => ?_⟩
    · rw [tables_call_empty h hs] at e
      cases e
    · subst hcall
      have hr : dictFetchValue dbDictType db.dicts.expires key = some r := hr
      by_contra hlong
      simp [DbTables.call, DbTables.dbGetTTL, hr, hlong] at e
  obtain ⟨db₁, e₁, hb₁⟩ := tables_call_ok h call hdef
  rw [e₁] at e
  cases e
  exact ⟨hdef, rfl, hb₁⟩

theorem tables_run_some {calls : List DbCall} {replies : List DbReply} (h : Backs db m)
    (e : run DbTables.call db calls = some (replies, db')) :
    Along DbTables.call Defined db calls ∧ replies = (runTotal RedisDb.call m calls).1 ∧
      Backs db' (runTotal RedisDb.call m calls).2 := by
  have along : Along DbTables.call Defined db calls := by
    refine run_along (I := fun db => ∃ m, Backs db m) ?_ calls ⟨_, h⟩ e
    rintro db call reply db' ⟨m, hb⟩ e
    obtain ⟨hdef, -, hb'⟩ := tables_call_some hb e
    exact ⟨hdef, _, hb'⟩
  obtain ⟨db₁, e₁, hb⟩ := run_simulates (R := Backs) (fun _ _ call hb hdef => tables_call_ok hb call hdef)
    calls h along
  rw [e] at e₁
  cases e₁
  exact ⟨along, rfl, hb⟩

theorem tables_run_isSome {calls : List DbCall} (h : Backs db m) :
    Along DbTables.call Defined db calls ↔ (run DbTables.call db calls).isSome := by
  refine ⟨fun along => ?_, fun e => ?_⟩
  · obtain ⟨db, e, -⟩ := run_simulates (R := Backs)
      (fun _ _ call hb hdef => tables_call_ok hb call hdef) calls h along
    rw [e]
    rfl
  · obtain ⟨⟨replies, db'⟩, e⟩ := Option.isSome_iff_exists.mp e
    exact (tables_run_some h e).1

/-- **`db.c` refines a database of maps.** A run of calls on a new database is defined iff no call
of it starts a migration step in a dict whose `ht0` has no entry, or asks for a time to live that
is no `long`. Then every reply is that of the maps, and the dicts and watch lists hold the maps at
its end. -/
theorem db_refines (lists : ListId → List ClientId) (next : ListId) (calls : List DbCall) :
    (Along DbTables.call Defined (.dbInit lists next) calls ↔
      (run DbTables.call (.dbInit lists next) calls).isSome) ∧
    ∀ replies db, run DbTables.call (.dbInit lists next) calls = some (replies, db) →
      replies = (runTotal RedisDb.call dbInit calls).1 ∧
        Backs db (runTotal RedisDb.call dbInit calls).2 := by
  have hb := backs_dbInit lists next
  exact ⟨tables_run_isSome hb, fun replies db h => (tables_run_some hb h).2⟩

/-! ## Deadlines are never taken away -/

section Work

variable {V : Type} {t : DictType Bytes} {d d' : Dict Bytes V}

theorem HasWork.expand (h : Inv t d) (hw : HasWork d) : HasWork (dictExpandIfNeed d) := by
  have hx := expandIfNeed_ok h
  cases hr : dictIsRehashing d with
  | true => rwa [hx.busy hr]
  | false =>
    intro hr' he
    have := hx.started hr hr'
    rw [he, List.length_nil] at this
    omega

theorem HasWork.add (h : Inv t d) (hw : HasWork d) {key : Bytes} {val : V} {res : Int}
    (e : dictAdd t d key val = some (res, d')) : HasWork d' := by
  rw [dictAdd] at e
  split at e
  · cases e
  · cases e
    exact hw
  · obtain ⟨d₁, e₁, w₁, -⟩ := (addEntry_ok h ⟨key, val⟩ (hw.expand h)).imp fun _ h =>
      And.imp_right And.right h
    rw [e₁] at e
    cases e
    exact w₁

theorem HasWork.fetchValue [Inhabited V] (h : Inv t d) (hw : HasWork d) {key : Bytes} {val : V}
    (e : dictFetchValue t d key = some (val, d')) : HasWork d' := by
  obtain ⟨d₁, e₁, -, -, w₁, -⟩ := rehashIfNeed_ok h hw
  rw [dictFetchValue, e₁, Option.bind_some] at e
  obtain ⟨r, -, e⟩ := Option.map_eq_some_iff.mp e
  cases e
  exact w₁

end Work

theorem HasWork.expireIfNeed {db db' : DbDicts} {now : Int} (h : Inv dbDictType db.expires)
    (hw : HasWork db.expires) (e : expireIfNeedDicts db key now = some db') :
    HasWork db'.expires := by
  rw [expireIfNeedDicts] at e
  obtain ⟨contains, -, e⟩ := Option.bind_eq_some_iff.mp e
  split at e
  · obtain ⟨⟨expireAt, expires⟩, e₁, e⟩ := Option.bind_eq_some_iff.mp e
    have hw' := hw.fetchValue h e₁
    dsimp only at e
    split at e
    · obtain ⟨⟨res, kv⟩, e₂, e⟩ := Option.bind_eq_some_iff.mp e
      -- the first deletion says 0 or -1
      simp only [if_neg (not_lt_delete e₂)] at e
      cases e
      exact hw'
    · cases e
      exact hw'
  · cases e
    exact hw

/-- No call leaves the deadlines with a migration that has nothing left to move. -/
theorem tables_call_work (h : Backs db m) (hw : HasWork db.dicts.expires) {call : DbCall}
    {reply : DbReply} (e : db.call call = some (reply, db')) : HasWork db'.dicts.expires := by
  have hi := h.dicts.expiresInv
  have same : db'.dicts.expires = db.dicts.expires → HasWork db'.dicts.expires := fun hs => by rwa [hs]
  cases call with
  | add key value =>
    refine same ?_
    obtain ⟨_, h₁, h₂⟩ := Option.map_eq_some_iff.mp e
    obtain ⟨contains, -, h₁⟩ := Option.bind_eq_some_iff.mp h₁
    cases h₂
    split at h₁
    · obtain ⟨_, -, h₁⟩ := Option.bind_eq_some_iff.mp h₁
      cases h₁
      rfl
    · obtain ⟨_, -, h₁⟩ := Option.bind_eq_some_iff.mp h₁
      cases h₁
      rfl
  | get key =>
    refine same ?_
    obtain ⟨_, e, e'⟩ := Option.map_eq_some_iff.mp e
    obtain ⟨_, -, e⟩ := Option.bind_eq_some_iff.mp e
    cases e
    cases e'
    rfl
  | delete key =>
    refine same ?_
    obtain ⟨_, e, e'⟩ := Option.map_eq_some_iff.mp e
    obtain ⟨_, -, e⟩ := Option.bind_eq_some_iff.mp e
    cases e
    cases e'
    rfl
  | setExpire key time =>
    obtain ⟨_, e, e'⟩ := Option.map_eq_some_iff.mp e
    obtain ⟨⟨res, expires⟩, hadd, e⟩ := Option.bind_eq_some_iff.mp e
    cases e
    cases e'
    exact hw.add hi hadd
  | hasExpire key =>
    obtain ⟨_, -, e⟩ := Option.map_eq_some_iff.mp e
    cases e
    exact hw
  | getTTL key now =>
    obtain ⟨_, e, e'⟩ := Option.map_eq_some_iff.mp e
    obtain ⟨⟨expireat, expires⟩, hfetch, e⟩ := Option.bind_eq_some_iff.mp e
    dsimp only at e
    by_cases hlong : inLong (expireat - now)
    · rw [if_pos hlong] at e
      cases e
      cases e'
      exact hw.fetchValue hi hfetch
    · rw [if_neg hlong] at e
      cases e
  | expireIfNeed key now =>
    obtain ⟨_, e, e'⟩ := Option.map_eq_some_iff.mp e
    obtain ⟨dicts, hexp, e⟩ := Option.bind_eq_some_iff.mp e
    cases e
    cases e'
    exact hw.expireIfNeed hi hexp
  | addWatch key client =>
    refine same ?_
    obtain ⟨_, h₁, h₂⟩ := Option.map_eq_some_iff.mp e
    obtain ⟨watching, -, h₁⟩ := Option.bind_eq_some_iff.mp h₁
    cases h₂
    -- the end of `dbAddWatch` is that of both branches
    have append : ∀ db₁ : DbTables, ((dictFetchPtr dbDictType db₁.watchedKeys key).bind fun r =>
        r.1.bind fun clients => some { db₁ with
          watchedKeys := r.2
          lists := Function.update db₁.lists clients (db₁.lists clients ++ [client]) }) = some db' →
        db'.dicts.expires = db₁.dicts.expires := fun db₁ e => by
      obtain ⟨⟨clients, watchedKeys⟩, -, e⟩ := Option.bind_eq_some_iff.mp e
      obtain ⟨clients, -, e⟩ := Option.bind_eq_some_iff.mp e
      cases e
      rfl
    split at h₁
    · obtain ⟨db₁, e₁, h₁⟩ := Option.bind_eq_some_iff.mp h₁
      refine (append db₁ h₁).trans ?_
      obtain ⟨_, -, e₁⟩ := Option.bind_eq_some_iff.mp e₁
      cases e₁
      rfl
    · exact append db h₁
  | isWatching key =>
    obtain ⟨_, -, e⟩ := Option.map_eq_some_iff.mp e
    cases e
    exact hw
  | touchWatchKey key =>
    refine same ?_
    obtain ⟨_, e, e'⟩ := Option.map_eq_some_iff.mp e
    obtain ⟨watching, -, e⟩ := Option.bind_eq_some_iff.mp e
    split at e
    · obtain ⟨⟨clients, watchedKeys⟩, -, e⟩ := Option.bind_eq_some_iff.mp e
      obtain ⟨clients, -, e⟩ := Option.bind_eq_some_iff.mp e
      cases e
      cases e'
      rfl
    · cases e
      cases e'
      rfl

end Fedis.Proof.Dict

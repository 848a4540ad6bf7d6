import Fedis.Framework.Relational
import Fedis.Impl.RdbDicts
import Fedis.Proof.Dict.Database
import Fedis.Proof.Dict.Iter
import Fedis.Proof.Rdb.Checksum
import Fedis.Proof.Rdb.Records

/-!
# What is saved from the dicts is loaded again

An iterator that sees all of a dict gives the entries of its map, each once, so that `rdbSaveDicts`
writes the file of `rdbSave` for these entries (`saveDbs_ok`). The databases that any calls have
made are loaded from it as they were, with the deadlines of the keys that have a value
(`save_load`).
-/

namespace Fedis.Proof.Rdb

open Framework Server Value Proof.Dict

variable {c : ValueCodec} {db : DbDicts} {m : RedisDb} {dbs : List DbDicts} {ms : List RedisDb}
  {es : List (DictEntry Bytes Robj)}

/-- `rdbSave` sees all entries: none is in bucket 0 of `ht1`, nor all of them in `ht1`. -/
def Walked {K V : Type} (d : Dict K V) : Prop :=
  if d.ht0.used = 0 then d.ht1.used = 0 else d.ht1.table.headD [] = []

instance {K V : Type} [DecidableEq K] [DecidableEq V] (d : Dict K V) : Decidable (Walked d) := by
  unfold Walked
  infer_instance

/-! ## The entries of a dict -/

theorem walked_iterate {K V : Type} {t : DictType K} {d : Dict K V} (h : Inv t d) (hw : Walked d) :
    ∃ es, dictIterate d = some es ∧ List.Perm es (allEntries d) ∧
      (dictIsEmpty d = true ↔ es = []) := by
  obtain ⟨h0, h1⟩ := h.counted
  refine ⟨_, iterate_ok h0 h1, ?_⟩
  rw [dictIsEmpty, beq_iff_eq]
  by_cases used : d.ht0.used = 0
  · rw [Walked, if_pos used] at hw
    have e0 := h0.entries_eq_nil.mpr used
    have e1 := h1.entries_eq_nil.mpr hw
    rw [if_pos used, e0, e1, allEntries, e0, e1]
    exact ⟨.refl _, iff_of_true used rfl⟩
  · rw [Walked, if_neg used] at hw
    rw [if_neg used, allEntries, entries_headD d.ht1, hw, List.nil_append]
    refine ⟨.refl _, iff_of_false used fun hnil => used (h0.entries_eq_nil.mp ?_)⟩
    exact (List.append_eq_nil_iff.mp hnil).1

/-- The entries, by the C strings of their keys. -/
def savedEntries (es : List (DictEntry Bytes Robj)) : List (Bytes × Robj) :=
  es.map fun e => (cstr e.key, e.val)

theorem savedEntries_nodup {d : Dict Bytes Robj} {kv : DbMap Robj} (h : Holds dbKeys d kv)
    (hp : List.Perm es (allEntries d)) : ((savedEntries es).map Prod.fst).Nodup := by
  have hnd := kv.nodupKeys
  rw [h, ← pairs_perm hp] at hnd
  have hnd : (es.map fun e => (⟨cstr e.key, e.val⟩ : Σ _ : Bytes, Robj)).NodupKeys := hnd
  rw [List.NodupKeys, List.keys, List.map_map] at hnd
  rw [savedEntries, List.map_map]
  exact hnd

theorem mem_savedEntries {d : Dict Bytes Robj} {kv : DbMap Robj} (h : Holds dbKeys d kv)
    (hp : List.Perm es (allEntries d)) {key : Bytes} {v : Robj} :
    (key, v) ∈ savedEntries es ↔ kv.lookup key = some v := by
  rw [Finmap.lookup_eq_some_iff, h, ← pairs_perm hp, savedEntries]
  change _ ↔ _ ∈ es.map fun e => (⟨cstr e.key, e.val⟩ : Σ _ : Bytes, Robj)
  simp [List.mem_map]

/-! ## Saving -/

/-- What is saved of a database. -/
structure Saved (m : RedisDb) (src : RdbDb) : Prop where
  entries : ∀ key v, (key, v) ∈ src.entries ↔ m.kv.lookup key = some v
  expires : src.expires = m.expires

/-- Looking a key up among the deadlines leaves them as they were. -/
theorem saveEntry_ok {expires : Dict Bytes Int} {dl : DbMap Int} (h : Inv dbDictType expires)
    (hm : Holds dbKeys expires dl) (hw : HasWork expires) (e : DictEntry Bytes Robj) :
    ∃ expires', rdbSaveEntryDicts c expires e =
        some (rdbSaveEntry c dl (cstr e.key, e.val), expires') ∧
      Inv dbDictType expires' ∧ Holds dbKeys expires' dl ∧ HasWork expires' := by
  have hc : dictContains dbDictType expires e.key = some (mapContains dl (cstr e.key)) :=
    contains_holds (t := dbKeys) h hm e.key
  rw [rdbSaveEntryDicts, hc, rdbSaveEntry]
  cases mapContains dl (cstr e.key) with
  | false => exact ⟨expires, by simp, h, hm, hw⟩
  | true =>
    have hne : ¬ StartsEmptyStep dbDictType expires (.fetchValue e.key : DictOp Bytes Int) :=
      fun hs => hw hs.1 hs.2
    obtain ⟨expires', e₁, hi, hm'⟩ := fetch_holds (t := dbKeys) h hm hne
    have e₁ : dictFetchValue dbDictType expires e.key =
      some (mapFetchValue dl (cstr e.key), expires') := e₁
    exact ⟨expires', by simp [e₁], hi, hm', hw.fetchValue h e₁⟩

theorem saveEntries_ok {dl : DbMap Int} : ∀ (es : List (DictEntry Bytes Robj))
    {expires : Dict Bytes Int}, Inv dbDictType expires → Holds dbKeys expires dl → HasWork expires →
      rdbSaveEntriesDicts c expires es = some ((savedEntries es).flatMap (rdbSaveEntry c dl))
  | [], _, _, _, _ => rfl
  | e :: es, expires, h, hm, hw => by
    obtain ⟨expires', e₁, h', hm', hw'⟩ := saveEntry_ok (c := c) h hm hw e
    rw [rdbSaveEntriesDicts, e₁]
    simp only [Option.bind_eq_bind, Option.bind_some, saveEntries_ok es h' hm' hw']
    rfl

theorem saveDb_ok (h : Represents db m) (hk : Walked db.kv) (hw : HasWork db.expires) (id : Nat) :
    ∃ src, rdbSaveDbDicts c id db = some (rdbSaveDb c src) ∧ src.id = id ∧ Saved m src := by
  obtain ⟨es, hes, hp, hempty⟩ := walked_iterate h.kvInv hk
  refine ⟨⟨id, savedEntries es, m.expires, savedEntries_nodup h.kv hp⟩, ?_, rfl,
    fun _ _ => mem_savedEntries h.kv hp, rfl⟩
  have hiff : savedEntries es = [] ↔ es = [] := List.map_eq_nil_iff
  rw [rdbSaveDbDicts, rdbSaveDb]
  dsimp only
  by_cases hnil : es = []
  · rw [if_pos (hempty.mpr hnil), if_pos (hiff.mpr hnil)]
    rfl
  · rw [if_neg fun he => hnil (hempty.mp he), if_neg fun he => hnil (hiff.mp he), hes]
    simp only [Option.bind_eq_bind, Option.bind_some,
      saveEntries_ok es h.expiresInv h.expires hw]
    rfl

/-- The databases are saved one after the other. -/
theorem saveDbs_ok (h : List.Forall₂ Represents dbs ms) (hk : ∀ db ∈ dbs, Walked db.kv)
    (hw : ∀ db ∈ dbs, HasWork db.expires) (id : Nat) :
    ∃ srcs, rdbSaveDbsDicts c id dbs = some (srcs.flatMap (rdbSaveDb c)) ∧
      srcs.map RdbDb.id = List.range' id ms.length ∧ List.Forall₂ Saved ms srcs := by
  induction h generalizing id with
  | nil => exact ⟨[], rfl, rfl, .nil⟩
  | @cons db m dbs ms hdb _ ih =>
    obtain ⟨src, e₁, hid, hs⟩ := saveDb_ok (c := c) hdb (hk db List.mem_cons_self)
      (hw db List.mem_cons_self) id
    obtain ⟨srcs, e₂, hids, hss⟩ := ih (fun d hd => hk d (List.mem_cons_of_mem _ hd))
      (fun d hd => hw d (List.mem_cons_of_mem _ hd)) (id + 1)
    refine ⟨src :: srcs, ?_, by rw [List.map_cons, hid, hids]; rfl, .cons hs hss⟩
    rw [rdbSaveDbsDicts, e₁]
    simp only [Option.bind_eq_bind, Option.bind_some, e₂]
    rfl

/-! ## Loading -/

/-- A value that comes back from a file as it was. -/
def Reloads (v : Robj) : Prop := Stored v ∧ ∀ n, v = .int n → 0 ≤ n ∧ n < 2 ^ 31 ∧ n ≠ 32768

theorem decodeValue_reloads {v : Robj} (h : Reloads v) : decodeValue v = v := by
  cases v with
  | int n => rw [decodeValue, (decodeInt_eq n).mpr (h.2 n rfl)]
  | embstr ss => rfl
  | raw ss => rfl

/-- What a database holds that was loaded from the file of `m`. -/
structure Reloaded (m db : RedisDb) : Prop where
  kv : db.kv = m.kv
  expires : ∀ key, db.expires.lookup key = if key ∈ m.kv then m.expires.lookup key else none

/-- What the limits of the format ask of a database. -/
structure WithinLimits (m : RedisDb) : Prop where
  key : ∀ key ∈ m.kv, key.length ≤ 1024
  val : ∀ key v, m.kv.lookup key = some v → Reloads v
  expire : ∀ key ∈ m.kv, ∀ d ∈ m.expires.lookup key, 0 < d ∧ d ≤ LONG_MAX

theorem Reloaded.of_restores {srcs : List RdbDb} {src : RdbDb} {i : Nat} {db : RedisDb}
    (h : Restores srcs i db) (hsrc : src ∈ srcs) (hid : src.id = i)
    (hids : (srcs.map RdbDb.id).Nodup) (hs : Saved m src) : Reloaded m db := by
  have only : ∀ s ∈ srcs, s.id = i → s = src := fun s hm e =>
    List.inj_on_of_nodup_map hids hm hsrc (e.trans hid.symm)
  have hkv : ∀ key v, db.kv.lookup key = some v ↔ m.kv.lookup key = some v := fun key v => by
    rw [h.kv, ← hs.entries]
    exact ⟨fun ⟨s, hm, e, he⟩ => only s hm e ▸ he, fun he => ⟨src, hsrc, hid, he⟩⟩
  have hmem : ∀ key, key ∈ src.entries.map Prod.fst ↔ key ∈ m.kv := fun key => by
    rw [Finmap.mem_iff]
    simp [← hs.entries]
  have hexp : ∀ key d, db.expires.lookup key = some d ↔
      key ∈ m.kv ∧ m.expires.lookup key = some d := fun key d => by
    rw [h.expires, ← hmem, ← hs.expires]
    exact ⟨fun ⟨s, hm, e, he⟩ => only s hm e ▸ he, fun he => ⟨src, hsrc, hid, he⟩⟩
  refine ⟨Finmap.ext_lookup fun key => Option.ext fun v => hkv key v, fun key => Option.ext fun d => ?_⟩
  rw [hexp]
  by_cases hk : key ∈ m.kv
  · simp [hk]
  · simp [hk]

/-- The file of these databases is loaded by an empty server as they were. -/
theorem load_saved {sha256 : Sha256} {srcs : List RdbDb} (hs : List.Forall₂ Saved ms srcs)
    (hids : srcs.map RdbDb.id = List.range' 0 ms.length) (hnum : ms.length ≤ 256)
    (hst : ∀ m ∈ ms, WithinLimits m) (hsize : (rdbBody stringCodec srcs).length ≤ RDB_MAX_SIZE) :
    ∃ dbs, rdbLoad sha256 stringCodec (List.replicate ms.length dbInit)
        (rdbSave sha256 stringCodec srcs) = .ok dbs ∧ List.Forall₂ Reloaded ms dbs := by
  have hnd : (([] ++ srcs).map RdbDb.id).Nodup := by
    rw [List.nil_append, hids]
    exact List.nodup_range'
  have hlen : (List.replicate ms.length dbInit).length = ms.length := List.length_replicate
  have hlt : ∀ src ∈ srcs, src.id < ms.length := fun src hsrc => by
    have : src.id ∈ List.range' 0 ms.length := hids ▸ List.mem_map_of_mem hsrc
    simpa using this
  have hof : ∀ src ∈ srcs, ∃ m, WithinLimits m ∧ Saved m src := fun src hsrc => by
    obtain ⟨i, hi⟩ := List.mem_iff_getElem?.mp hsrc
    obtain ⟨m, hm, hsm⟩ := forall₂_getElem? hs hi
    exact ⟨m, hst m (List.mem_of_getElem? hm), hsm⟩
  have hmem : ∀ {src m e}, Saved m src → e ∈ src.entries → m.kv.lookup e.1 = some e.2 :=
    fun hsm he => (hsm.entries _ _).mp he
  have hval : ∀ src ∈ srcs, ∀ e ∈ src.entries, Reloads e.2 := fun src hsrc e he => by
    obtain ⟨m, hl, hsm⟩ := hof src hsrc
    exact hl.val _ _ (hmem hsm he)
  have hfit : ∀ src ∈ srcs, Fits stringCodec id src := fun src hsrc => by
    obtain ⟨m, hl, hsm⟩ := hof src hsrc
    refine ⟨fun e he => hl.key _ (Finmap.mem_of_lookup_eq_some (hmem hsm he)), fun e he => ?_⟩
    have hloads := fits_small hsize hsrc (fun e he => (hval src hsrc e he).1) (fun _ he => he) e he
    rwa [decodeValue_reloads (hval src hsrc e he)] at hloads
  obtain ⟨st, hst', hl', hres⟩ := loadDbs_ok restores_init hnd
    (fun src hsrc => by
      rw [hlen]
      exact ⟨hlt src hsrc, (hlt src hsrc).trans_le hnum⟩)
    (fun src hsrc e he d hd => by
      obtain ⟨m, hl, hsm⟩ := hof src hsrc
      exact hl.expire _ (Finmap.mem_of_lookup_eq_some (hmem hsm he)) d (hsm.expires ▸ hd))
  refine ⟨st, ?_, List.forall₂_iff_get.mpr ⟨by rw [hl', hlen], fun i h₁ h₂ => ?_⟩⟩
  · rw [rdbSave, List.take_of_length_le hsize, rdbLoad_small (by rwa [hlen]) hfit hsize, hst']
  · have hsrcs := (List.forall₂_iff_get.mp hs).1
    have hi : i < srcs.length := by rwa [← hsrcs]
    have hid : srcs[i].id = i := by
      have := congrArg (·[i]?) hids
      simpa [hi, h₁] using this
    obtain ⟨m, hm, hsm⟩ := forall₂_getElem? hs (List.getElem?_eq_getElem hi)
    rw [List.getElem?_eq_getElem h₁, Option.some.injEq] at hm
    rw [← hm] at hsm
    refine .of_restores (hres i _ (List.getElem?_eq_getElem h₂)) ?_ hid ?_ hsm
    · exact List.mem_append_right _ (List.getElem_mem hi)
    · exact hnd

/-! ## Databases that calls have made -/

/-- The calls have made these dicts. -/
def Made (calls : List DbCall) (db : DbTables) : Prop :=
  ∃ replies, run DbTables.call (.dbInit (fun _ => []) 0) calls = some (replies, db)

/-- The database of maps behind these calls. -/
def madeOf (calls : List DbCall) : RedisDb := (runTotal RedisDb.call dbInit calls).2

theorem Made.backs {calls : List DbCall} {db : DbTables} (h : Made calls db) :
    Backs db (madeOf calls) ∧ HasWork db.dicts.expires := by
  obtain ⟨replies, h⟩ := h
  have hkeep : (∃ m, Backs db m) ∧ HasWork db.dicts.expires := by
    refine run_keeps (I := fun db => (∃ m, Backs db m) ∧ HasWork db.dicts.expires) ?_ ?_ h
    · rintro db call reply db' ⟨⟨m, hb⟩, hw⟩ e
      exact ⟨⟨_, (tables_call_some hb e).2.2⟩, tables_call_work hb hw e⟩
    · exact ⟨⟨_, backs_dbInit _ _⟩, nofun⟩
  exact ⟨(tables_run_some (backs_dbInit _ _) h).2.2, hkeep.2⟩

/-- **Databases survive a restart.** The file that is written of databases which any calls have
made, whose iterators see all, is loaded by an empty server, if it fits the buffers for it: every
database has its values again, and the deadlines of the keys that have one. -/
theorem save_load (sha256 : Sha256) {runs : List (List DbCall)} {tables : List DbTables}
    (hruns : List.Forall₂ Made runs tables) (hnum : runs.length ≤ 256)
    (hwalk : ∀ db ∈ tables, Walked db.dicts.kv) (hlim : ∀ calls ∈ runs, WithinLimits (madeOf calls)) :
    ∃ file, rdbSaveDicts stringCodec sha256 (tables.map DbTables.dicts) = some file ∧
      (file.length ≤ RDB_MAX_SIZE + RDB_CHECKSUM_LEN →
        ∃ dbs, rdbLoad sha256 stringCodec (List.replicate runs.length dbInit) file = .ok dbs ∧
          List.Forall₂ (fun calls db => Reloaded (madeOf calls) db) runs dbs) := by
  have hrep : List.Forall₂ Represents (tables.map DbTables.dicts) (runs.map madeOf) := by
    rw [List.forall₂_map_left_iff, List.forall₂_map_right_iff]
    exact (hruns.imp fun _ _ h => h.backs.1.dicts).flip
  have hwork : ∀ db ∈ tables.map DbTables.dicts, HasWork db.expires := fun db hdb => by
    obtain ⟨t, ht, rfl⟩ := List.mem_map.mp hdb
    obtain ⟨i, hi⟩ := List.mem_iff_getElem?.mp ht
    obtain ⟨calls, -, hmade⟩ := forall₂_getElem? hruns hi
    exact hmade.backs.2
  obtain ⟨srcs, hsaved, hids, hs⟩ := saveDbs_ok (c := stringCodec) hrep
    (fun db hdb => by
      obtain ⟨t, ht, rfl⟩ := List.mem_map.mp hdb
      exact hwalk t ht) hwork 0
  have hfile : rdbSaveDicts stringCodec sha256 (tables.map DbTables.dicts) =
      some (rdbSave sha256 stringCodec srcs) := by
    rw [rdbSaveDicts, hsaved, rdbSave, rdbBody, rdbSaveDbs, ← List.append_assoc]
    rfl
  refine ⟨_, hfile, fun hsize => ?_⟩
  rw [rdbSave, List.length_append, (sha256 _).property] at hsize
  obtain ⟨dbs, hload, hall⟩ := load_saved hs hids (by rwa [List.length_map])
    (fun m hm => by
      obtain ⟨calls, hc, rfl⟩ := List.mem_map.mp hm
      exact hlim calls hc) (Nat.add_le_add_iff_right.mp hsize)
  rw [List.length_map] at hload
  exact ⟨dbs, hload, List.forall₂_map_left_iff.mp hall⟩

/-- A key with a value and a deadline, and another key that is deleted. -/
def sampleCalls : List DbCall :=
  [.add (bytes "k") (.int 5), .add (bytes "d") (.int 6), .setExpire (bytes "k") 100,
    .delete (bytes "d")]

theorem madeOf_sample : madeOf sampleCalls =
    { kv := (∅ : DbMap Robj).insert (bytes "k") (.int 5)
      expires := (∅ : DbMap Int).insert (bytes "k") 100, watchedKeys := ∅ } := by
  have hkv : (madeOf sampleCalls).kv = (∅ : DbMap Robj).insert (bytes "k") (.int 5) := by decide
  have hexp : (madeOf sampleCalls).expires = (∅ : DbMap Int).insert (bytes "k") 100 := by decide
  have hw : (madeOf sampleCalls).watchedKeys = ∅ := by decide
  rw [← hkv, ← hexp, ← hw]

theorem sample_within : WithinLimits (madeOf sampleCalls) := by
  rw [madeOf_sample]
  have hkey : ∀ key ∈ (∅ : DbMap Robj).insert (bytes "k") (.int 5), key = bytes "k" := fun key hk =>
    (Finmap.mem_insert.mp hk).resolve_right Finmap.notMem_empty
  refine ⟨fun key hk => by rw [hkey key hk]; decide, fun key v hv => ?_, fun key hk d hd => ?_⟩
  · have hk := hkey key (Finmap.mem_of_lookup_eq_some hv)
    rw [hk, Finmap.lookup_insert, Option.some.injEq] at hv
    subst hv
    exact ⟨⟨decimal 5, fun _ hb => (decimal_ne hb).1, by decide⟩, fun n hn => by cases hn; decide⟩
  · rw [hkey key hk, Finmap.lookup_insert, Option.mem_some_iff] at hd
    subst hd
    decide

theorem save_load_sample : ∃ db, Made sampleCalls db ∧
    ∃ file, rdbSaveDicts stringCodec (tells []) [db.dicts] = some file ∧
      ∃ dbs, rdbLoad (tells []) stringCodec [dbInit] file = .ok dbs ∧
        List.Forall₂ (fun calls db => Reloaded (madeOf calls) db) [sampleCalls] dbs := by
  have hsize : ((run DbTables.call (.dbInit (fun _ => []) 0) sampleCalls).bind fun r =>
      (rdbSaveDicts stringCodec (tells []) [r.2.dicts]).map fun file =>
        (file.length, decide (Walked r.2.dicts.kv))) = some (58, true) := by decide
  obtain ⟨⟨replies, db⟩, hrun, hsize⟩ := Option.bind_eq_some_iff.mp hsize
  obtain ⟨file, hfile, hsize⟩ := Option.map_eq_some_iff.mp hsize
  obtain ⟨hlen, hwalk⟩ := Prod.mk.inj hsize
  have hmade : Made sampleCalls db := ⟨replies, hrun⟩
  obtain ⟨file', hfile', hload⟩ := save_load (tells []) (.cons hmade .nil) (by decide)
    (fun d hd => by rw [List.mem_singleton.mp hd]; exact of_decide_eq_true hwalk)
    (fun calls hc => by rw [List.mem_singleton.mp hc]; exact sample_within)
  have hsame : file = file' := Option.some.inj (hfile.symm.trans hfile')
  exact ⟨db, hmade, file, hfile, hsame ▸ hload (by rw [← hsame, hlen]; decide)⟩

end Fedis.Proof.Rdb

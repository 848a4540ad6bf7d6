import Fedis.Proof.Rdb.Dicts
import Fedis.Proof.Server.SetGet

/-!
# What the iterator misses, `rdbSave` does not write

An iterator that does not see all of a dict gives fewer entries than the dict has, or the dict
looks empty, and the records that are written are shorter than those of all entries
(`saveDb_short`). So a file with every key is written iff every iterator sees all
(`rdbSave_all_iff`).
-/

namespace Fedis.Proof.Rdb

open scoped List
open Framework Server Value Proof.Dict

variable {c : ValueCodec} {db : DbDicts} {m : RedisDb} {dbs : List DbDicts} {ms : List RedisDb}
  {src : RdbDb} {srcs : List RdbDb}

/-! ## The entries that are written -/

/-- The entries that `rdbSave` visits: none of a dict that looks empty. -/
def visited {K V : Type} (d : Dict K V) : List (DictEntry K V) :=
  if d.ht0.used = 0 then [] else entries d.ht0 ++ (d.ht1.table.drop 1).flatten

theorem visited_sublist {K V : Type} (d : Dict K V) : visited d <+ allEntries d := by
  rw [visited, allEntries]
  split
  · exact List.nil_sublist _
  · exact (List.Sublist.refl _).append (List.drop_sublist 1 d.ht1.table).flatten

/-- An entry is missed if the iterator does not see all. -/
theorem visited_length {K V : Type} {t : DictType K} {d : Dict K V} (h : Inv t d) (hw : ¬ Walked d) :
    (visited d).length < (allEntries d).length := by
  obtain ⟨h0, h1⟩ := h.counted
  rw [visited, allEntries, List.length_append]
  by_cases used : d.ht0.used = 0
  · rw [Walked, if_pos used, h1.used] at hw
    rw [if_pos used, List.length_nil]
    omega
  · rw [Walked, if_neg used] at hw
    have := List.length_pos_iff.mpr hw
    rw [if_neg used, List.length_append, entries_headD d.ht1, List.length_append]
    omega

/-- Records are never empty, so that fewer of them are shorter. -/
theorem records_short {f : Bytes × Robj → Bytes} (hf : ∀ e, 0 < (f e).length)
    {es es' : List (Bytes × Robj)} (hs : es <+ es') :
    (es.flatMap f).length + (es'.length - es.length) ≤ (es'.flatMap f).length := by
  induction hs with
  | slnil => exact Nat.le_refl _
  | @cons es es' e hs ih =>
    have := hf e
    have := hs.length_le
    rw [List.flatMap_cons, List.length_append, List.length_cons]
    omega
  | @cons_cons es es' e hs ih =>
    rw [List.flatMap_cons, List.flatMap_cons, List.length_append, List.length_append,
      List.length_cons, List.length_cons]
    omega

theorem record_pos (c : ValueCodec) (dl : DbMap Int) (e : Bytes × Robj) :
    0 < (rdbSaveEntry c dl e).length := by
  rw [rdbSaveEntry, List.length_append, List.length_append, List.length_cons]
  omega

/-- What is to be written of a database has the length of the records of all its entries. -/
theorem saveDb_length (h : Represents db m) (hs : Saved m src) : (rdbSaveDb c src).length =
    if allEntries db.kv = [] then 0
    else 2 + ((savedEntries (allEntries db.kv)).flatMap (rdbSaveEntry c m.expires)).length := by
  have hp : src.entries ~ savedEntries (allEntries db.kv) := by
    have hnd : (savedEntries (allEntries db.kv)).Nodup :=
      .of_map Prod.fst (savedEntries_nodup h.kv (.refl _))
    refine (List.perm_ext_iff_of_nodup (.of_map Prod.fst src.nodup) hnd).mpr fun e => ?_
    rw [hs.entries e.1 e.2, mem_savedEntries h.kv (.refl _)]
  have hnil : src.entries = [] ↔ allEntries db.kv = [] := by
    rw [← List.length_eq_zero_iff, hp.length_eq, savedEntries, List.length_map,
      List.length_eq_zero_iff]
  rw [rdbSaveDb, hs.expires]
  by_cases he : allEntries db.kv = []
  · rw [if_pos (hnil.mpr he), if_pos he]
    rfl
  · rw [if_neg fun e => he (hnil.mp e), if_neg he, List.length_cons, List.length_cons,
      (hp.flatMap_right _).length_eq]
    omega

/-- What is written of a database is no longer than that, and shorter if the iterator misses an
entry. -/
theorem saveDb_short (h : Represents db m) (hw : HasWork db.expires) (hs : Saved m src) (id : Nat) :
    ∃ bs, rdbSaveDbDicts c id db = some bs ∧ bs.length ≤ (rdbSaveDb c src).length ∧
      (¬ Walked db.kv → bs.length < (rdbSaveDb c src).length) := by
  rw [saveDb_length h hs]
  by_cases hk : Walked db.kv
  · obtain ⟨src', e, -, hs'⟩ := saveDb_ok (c := c) h hk hw id
    exact ⟨_, e, Nat.le_of_eq (saveDb_length h hs'), fun hn => absurd hk hn⟩
  obtain ⟨h0, h1⟩ := h.kvInv.counted
  have hlt := visited_length h.kvInv hk
  have hne : allEntries db.kv ≠ [] := List.ne_nil_of_length_pos (by omega)
  rw [if_neg hne, rdbSaveDbDicts, dictIsEmpty, iterate_ok h0 h1]
  rw [visited] at hlt
  by_cases used : db.kv.ht0.used = 0
  · rw [if_pos (beq_iff_eq.mpr used)]
    exact ⟨_, rfl, Nat.zero_le _, fun _ => by rw [List.length_nil]; omega⟩
  · have hsub := visited_sublist db.kv
    rw [visited, if_neg used] at hsub
    rw [if_neg used] at hlt
    rw [if_neg (by simpa using used), if_neg used]
    simp only [Option.bind_eq_bind, Option.bind_some,
      saveEntries_ok (c := c) _ h.expiresInv h.expires hw]
    have hshort := records_short (record_pos c m.expires) (hsub.map fun e => (cstr e.key, e.val))
    rw [List.length_map, List.length_map] at hshort
    refine ⟨_, rfl, ?_, fun _ => ?_⟩
    · rw [List.length_cons, List.length_cons, savedEntries, savedEntries]
      omega
    · rw [List.length_cons, List.length_cons, savedEntries, savedEntries]
      omega

theorem saveDbs_short (h : List.Forall₂ Represents dbs ms) (hw : ∀ db ∈ dbs, HasWork db.expires)
    (hs : List.Forall₂ Saved ms srcs) (id : Nat) :
    ∃ bs, rdbSaveDbsDicts c id dbs = some bs ∧ bs.length ≤ (srcs.flatMap (rdbSaveDb c)).length ∧
      ((∃ db ∈ dbs, ¬ Walked db.kv) → bs.length < (srcs.flatMap (rdbSaveDb c)).length) := by
  induction h generalizing srcs id with
  | nil => exact ⟨[], rfl, Nat.zero_le _, fun ⟨_, hm, _⟩ => by cases hm⟩
  | @cons db m dbs ms hdb hall ih =>
    cases hs with
    | @cons _ src _ srcs hsrc hsrcs =>
      obtain ⟨bs, e, hle, hlt⟩ := saveDb_short (c := c) hdb (hw db List.mem_cons_self) hsrc id
      obtain ⟨bs', e', hle', hlt'⟩ := ih (fun d hd => hw d (List.mem_cons_of_mem _ hd)) hsrcs (id + 1)
      refine ⟨bs ++ bs', ?_, ?_, fun ⟨d, hd, hn⟩ => ?_⟩
      · rw [rdbSaveDbsDicts, e]
        simp only [Option.bind_eq_bind, Option.bind_some, e']
        rfl
      · rw [List.flatMap_cons, List.length_append, List.length_append]
        omega
      · rw [List.flatMap_cons, List.length_append, List.length_append]
        rcases List.mem_cons.mp hd with rfl | hd
        · have := hlt hn
          omega
        · have := hlt' ⟨d, hd, hn⟩
          omega

/-! ## The file -/

/-- `rdbSave` writes the file of all entries of these databases, in their order. -/
def SavesAll (sha256 : Sha256) (c : ValueCodec) (dbs : List DbDicts) (ms : List RedisDb) : Prop :=
  ∃ srcs, rdbSaveDicts c sha256 dbs = some (rdbSave sha256 c srcs) ∧
    srcs.map RdbDb.id = List.range' 0 ms.length ∧ List.Forall₂ Saved ms srcs

theorem savesAll_iff {sha256 : Sha256} (h : List.Forall₂ Represents dbs ms)
    (hw : ∀ db ∈ dbs, HasWork db.expires) :
    SavesAll sha256 c dbs ms ↔ ∀ db ∈ dbs, Walked db.kv := by
  constructor
  · rintro ⟨srcs, e, -, hs⟩
    by_contra hn
    obtain ⟨db, hdb, hn⟩ : ∃ db ∈ dbs, ¬ Walked db.kv := by simpa using hn
    obtain ⟨bs, e', -, hlt⟩ := saveDbs_short (c := c) h hw hs 0
    have hlt := hlt ⟨db, hdb, hn⟩
    rw [rdbSaveDicts, e'] at e
    have hlen := congrArg List.length (Option.some.inj e)
    simp only [rdbSave, rdbBody, rdbSaveDbs, List.length_append, (sha256 _).property] at hlen
    omega
  · intro hk
    obtain ⟨srcs, hsaved, hids, hs⟩ := saveDbs_ok (c := c) h hk hw 0
    refine ⟨srcs, ?_, hids, hs⟩
    rw [rdbSaveDicts, hsaved, rdbSave, rdbBody, rdbSaveDbs, ← List.append_assoc]
    rfl

/-- **The iterator** returns every entry of a dict once iff `ht0` is not in use or bucket 0 of
`ht1` is empty. `rdbSave` writes every key of databases that any calls have made iff moreover none
of them has all its entries in `ht1`; and what `lookupCommand` walks over are all commands. -/
theorem walks_all_iff (sha256 : Sha256) (c : ValueCodec) :
    (∀ (K V : Type) [Inhabited V] (t : DictType K) (ops : List (DictOp K V)) (rs : List (DictReply V))
      (d : Dict K V), run (dictCall t) dictCreate ops = some (rs, d) →
      ((∃ es, dictIterate d = some es ∧ es ~ entries d.ht0 ++ entries d.ht1) ↔
        d.ht0.used = 0 ∨ d.ht1.table.headD [] = [])) ∧
    (∀ (runs : List (List DbCall)) (tables : List DbTables), List.Forall₂ Made runs tables →
      (SavesAll sha256 c (tables.map DbTables.dicts) (runs.map madeOf) ↔
        ∀ db ∈ tables, Walked db.dicts.kv)) ∧
    ∃ d es, loadCommands = some d ∧ dictIterate d = some es ∧
      es.map DictEntry.val ~ commandsTable := by
  refine ⟨fun K V _ t ops rs d h => iterates_all_iff t h, fun runs tables h => ?_, loadCommands_ok⟩
  have hrep : List.Forall₂ Represents (tables.map DbTables.dicts) (runs.map madeOf) := by
    rw [List.forall₂_map_left_iff, List.forall₂_map_right_iff]
    exact (h.imp fun _ _ h => h.backs.1.dicts).flip
  have hwork : ∀ db ∈ tables.map DbTables.dicts, HasWork db.expires := fun db hdb => by
    obtain ⟨t, ht, rfl⟩ := List.mem_map.mp hdb
    obtain ⟨i, hi⟩ := List.mem_iff_getElem?.mp ht
    obtain ⟨calls, -, hmade⟩ := forall₂_getElem? h hi
    exact hmade.backs.2
  rw [savesAll_iff hrep hwork, List.forall_mem_map]

/-- A database with two keys is written as a whole. -/
theorem walks_all_two : ∃ db, Made [.add (bytes "k") (.int 5), .add (bytes "d") (.int 6)] db ∧
    SavesAll (tells []) stringCodec [db.dicts]
      [madeOf [.add (bytes "k") (.int 5), .add (bytes "d") (.int 6)]] := by
  have hwalk : (run DbTables.call (.dbInit (fun _ => []) 0)
      [.add (bytes "k") (.int 5), .add (bytes "d") (.int 6)]).map
        (fun r => decide (Walked r.2.dicts.kv)) = some true := by decide
  obtain ⟨⟨replies, db⟩, hrun, hwalk⟩ := Option.map_eq_some_iff.mp hwalk
  have hmade : Made [.add (bytes "k") (.int 5), .add (bytes "d") (.int 6)] db := ⟨replies, hrun⟩
  refine ⟨db, hmade, ((walks_all_iff (tells []) stringCodec).2.1 _ _ (.cons hmade .nil)).mpr ?_⟩
  exact fun d hd => List.mem_singleton.mp hd ▸ of_decide_eq_true hwalk

/-- A database that has all its four keys in `ht1` looks empty: the file holds none of them. -/
example : ((run DbTables.call (.dbInit (fun _ => []) 0)
    [.add (bytes "a") (.int 1), .add (bytes "b") (.int 2), .add (bytes "d") (.int 3),
      .add (bytes "e") (.int 4), .add (bytes "c") (.int 5), .get (bytes "a"), .delete (bytes "b")]).bind
        fun r => (rdbSaveDicts stringCodec (tells []) [r.2.dicts]).map fun file =>
          (dictSize r.2.dicts.kv, file.take 10)) = some (4, rdbMagic ++ [RDB_EOF]) := by decide

end Fedis.Proof.Rdb

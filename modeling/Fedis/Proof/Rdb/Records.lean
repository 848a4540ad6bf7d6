import Fedis.Proof.Rdb.Strings

/-!
# A loaded RDB file has what was saved

With values that are loaded as they are, and deadlines after the epoch, the
databases of an empty server hold exactly the entries that were saved, and their
deadlines (`records_ok`). The invariant over the entries of a database is
`Restored`, that over the databases is `Restores`.
-/

namespace Fedis.Proof.Rdb

open Framework Server

variable {c : ValueCodec} {db : RedisDb} {src : RdbDb} {dbs : List RdbDb}
  {entries pre : List (Bytes × Robj)} {e : Bytes × Robj} {expires : DbMap Int} {i dbnum : Nat}

/-- What can be saved: databases of the server, values that are loaded as they are. -/
structure Savable (c : ValueCodec) (dbnum : Nat) (dbs : List RdbDb) : Prop where
  ids : (dbs.map RdbDb.id).Nodup
  id_lt : ∀ src ∈ dbs, src.id < dbnum ∧ src.id < 256
  key : ∀ src ∈ dbs, ∀ e ∈ src.entries, (∀ b ∈ e.1, b ≠ 0) ∧ e.1.length ≤ 1024
  val : ∀ src ∈ dbs, ∀ e ∈ src.entries, LoadsAs c e.2 e.2
  expire : ∀ src ∈ dbs, ∀ e ∈ src.entries, ∀ d ∈ src.expires.lookup e.1, 0 < d ∧ d ≤ LONG_MAX

/-- The database holds these entries and their deadlines, and nothing else. -/
structure Restored (entries : List (Bytes × Robj)) (expires : DbMap Int) (db : RedisDb) : Prop where
  kv : ∀ key v, db.kv.lookup key = some v ↔ (key, v) ∈ entries
  expires : ∀ key d, db.expires.lookup key = some d ↔
    key ∈ entries.map Prod.fst ∧ expires.lookup key = some d

/-- Database `i` holds what was saved with its number, and nothing else. -/
structure Restores (dbs : List RdbDb) (i : Nat) (db : RedisDb) : Prop where
  kv : ∀ key v, db.kv.lookup key = some v ↔ ∃ src ∈ dbs, src.id = i ∧ (key, v) ∈ src.entries
  expires : ∀ key d, db.expires.lookup key = some d ↔
    ∃ src ∈ dbs, src.id = i ∧ key ∈ src.entries.map Prod.fst ∧ src.expires.lookup key = some d

/-! ## Entries -/

theorem pending_some {key : Bytes} {d : Int} (h : expires.lookup key = some d) (h0 : 0 < d)
    (hd : d ≤ LONG_MAX) : pending expires key 0 = d := by
  have hmem : mapContains expires key = true :=
    decide_eq_true (Finmap.mem_iff.mpr ⟨d, h⟩)
  rw [pending, if_pos hmem, mapFetchValue, h, Option.getD_some]
  rw [LONG_MAX] at hd
  exact Int.bmod_eq_of_le (by omega) (by omega)

theorem pending_none {key : Bytes} (h : expires.lookup key = none) : pending expires key 0 = 0 := by
  have hmem : ¬ mapContains expires key = true := by
    rw [mapContains, decide_eq_true_eq, Finmap.mem_iff, h]
    simp
  rw [pending, if_neg hmem]

/-- What adding a key that is not there does to a map. -/
theorem lookup_insert_iff {V : Type} {m : DbMap V} {entries : List (Bytes × V)} {key : Bytes} {v : V}
    (h : ∀ k w, m.lookup k = some w ↔ (k, w) ∈ entries) (hkey : key ∉ entries.map Prod.fst)
    (k : Bytes) (w : V) :
    (m.insert key v).lookup k = some w ↔ (k, w) ∈ entries ++ [(key, v)] := by
  rw [List.mem_append, List.mem_singleton, Prod.mk.injEq]
  by_cases hk : k = key
  · subst hk
    have hnot : (k, w) ∉ entries := fun hm => hkey (List.mem_map_of_mem (f := Prod.fst) hm)
    simp [Finmap.lookup_insert, hnot, @eq_comm _ v]
  · rw [Finmap.lookup_insert_of_ne _ hk, h]
    simp [hk]

theorem loadEntry_ok (h : Restored pre expires db) (hkey : e.1 ∉ pre.map Prod.fst)
    (hexp : ∀ d ∈ expires.lookup e.1, 0 < d ∧ d ≤ LONG_MAX) :
    ∃ db', loadEntry id expires (db, 0) e = (db', 0) ∧ Restored (pre ++ [e]) expires db' := by
  have hkv := lookup_insert_iff (v := e.2) h.kv hkey
  rw [loadEntry]
  dsimp only
  cases hd : expires.lookup e.1 with
  | none =>
    rw [pending_none hd, if_neg (by decide), if_neg (by decide), dbAdd_eq]
    refine ⟨_, rfl, hkv, fun key d => ?_⟩
    rw [h.expires, List.map_append, List.mem_append, List.map_singleton, List.mem_singleton]
    refine ⟨fun hml => ⟨.inl hml.1, hml.2⟩, ?_⟩
    rintro ⟨hm | rfl, hl⟩
    · exact ⟨hm, hl⟩
    · rw [hd] at hl
      cases hl
  | some d =>
    obtain ⟨h0, hmax⟩ := hexp d hd
    have hnew : e.1 ∉ db.expires := fun hm => by
      obtain ⟨d', hd'⟩ := Finmap.mem_iff.mp hm
      exact hkey ((h.expires _ _).mp hd').1
    rw [pending_some hd h0 hmax, if_pos h0, if_pos h0, dbAdd_eq, dbSetExpire, mapAdd, if_neg hnew]
    refine ⟨_, rfl, hkv, fun key d' => ?_⟩
    rw [List.map_append, List.mem_append, List.map_singleton, List.mem_singleton]
    by_cases hk : key = e.1
    · subst hk
      rw [Finmap.lookup_insert, hd]
      simp
    · rw [Finmap.lookup_insert_of_ne _ hk, h.expires]
      simp [hk]

theorem loadEntries_ok (h : Restored pre expires db) (hnodup : ((pre ++ entries).map Prod.fst).Nodup)
    (hexp : ∀ e ∈ entries, ∀ d ∈ expires.lookup e.1, 0 < d ∧ d ≤ LONG_MAX) :
    ∃ db', entries.foldl (loadEntry id expires) (db, 0) = (db', 0) ∧
      Restored (pre ++ entries) expires db' := by
  induction entries generalizing pre db with
  | nil => exact ⟨db, rfl, by rwa [List.append_nil]⟩
  | cons e entries ih =>
    have hkey : e.1 ∉ pre.map Prod.fst := fun hm => by
      rw [List.map_append, List.map_cons] at hnodup
      exact (List.nodup_append.mp hnodup).2.2 _ hm _ List.mem_cons_self rfl
    obtain ⟨db₁, h₁, hres⟩ := loadEntry_ok h hkey (hexp e List.mem_cons_self)
    rw [← List.singleton_append, ← List.append_assoc] at hnodup
    obtain ⟨db₂, h₂, hres₂⟩ := ih hres hnodup fun e he => hexp e (List.mem_cons_of_mem _ he)
    refine ⟨db₂, ?_, ?_⟩
    · rw [List.foldl_cons, h₁, h₂]
    · rwa [List.append_assoc, List.singleton_append] at hres₂

/-! ## Databases -/

theorem Restores.empty (h : Restores dbs i db) (hi : i ∉ dbs.map RdbDb.id)
    (expires : DbMap Int) : Restored [] expires db := by
  have none_of : ∀ src ∈ dbs, src.id ≠ i := fun src hs e => hi (List.mem_map.mpr ⟨src, hs, e⟩)
  refine ⟨fun key v => ?_, fun key d => ?_⟩
  · rw [h.kv]
    refine ⟨fun ⟨src, hs, e, _⟩ => absurd e (none_of src hs), nofun⟩
  · rw [h.expires]
    refine ⟨fun ⟨src, hs, e, _⟩ => absurd e (none_of src hs), fun ⟨hm, _⟩ => by cases hm⟩

theorem Restores.append_self (h : Restored src.entries src.expires db)
    (hid : src.id ∉ dbs.map RdbDb.id) : Restores (dbs ++ [src]) src.id db := by
  have none_of : ∀ s ∈ dbs, s.id ≠ src.id := fun s hs e => hid (List.mem_map.mpr ⟨s, hs, e⟩)
  refine ⟨fun key v => ?_, fun key d => ?_⟩
  · rw [h.kv]
    refine ⟨fun hm => ⟨src, by simp, rfl, hm⟩, ?_⟩
    rintro ⟨s, hs, e, hm⟩
    rcases List.mem_append.mp hs with hs | hs
    · exact absurd e (none_of s hs)
    · rwa [List.mem_singleton.mp hs] at hm
  · rw [h.expires]
    refine ⟨fun hm => ⟨src, by simp, rfl, hm⟩, ?_⟩
    rintro ⟨s, hs, e, hm⟩
    rcases List.mem_append.mp hs with hs | hs
    · exact absurd e (none_of s hs)
    · rwa [List.mem_singleton.mp hs] at hm

theorem Restores.append_ne (h : Restores dbs i db) (hi : src.id ≠ i) :
    Restores (dbs ++ [src]) i db := by
  refine ⟨fun key v => ?_, fun key d => ?_⟩
  · rw [h.kv]
    simp [hi]
  · rw [h.expires]
    simp [hi]

theorem loadDb_ok {st : List RedisDb} (h : ∀ i db, st[i]? = some db → Restores dbs i db)
    (hid : src.id ∉ dbs.map RdbDb.id) (hlt : src.id < st.length ∧ src.id < 256)
    (hexp : ∀ e ∈ src.entries, ∀ d ∈ src.expires.lookup e.1, 0 < d ∧ d ≤ LONG_MAX) :
    ∃ st', loadDb id (st, 0) src = (st', 0) ∧ st'.length = st.length ∧
      ∀ i db, st'[i]? = some db → Restores (dbs ++ [src]) i db := by
  have hget := List.getElem?_eq_getElem hlt.1
  have hempty := (h src.id _ hget).empty hid src.expires
  rw [loadDb]
  split
  · rename_i hnil
    refine ⟨st, rfl, rfl, fun i db hdb => ?_⟩
    by_cases hi : src.id = i
    · subst hi
      rw [hget] at hdb
      cases hdb
      exact .append_self (by rwa [hnil]) hid
    · exact (h i db hdb).append_ne hi
  · dsimp only
    rw [Nat.mod_eq_of_lt hlt.2, hget]
    have hnodup : (([] ++ src.entries).map Prod.fst).Nodup := src.nodup
    obtain ⟨db', hfold, hres⟩ := loadEntries_ok hempty hnodup hexp
    refine ⟨st.set src.id db', by dsimp only; rw [hfold], List.length_set, fun i db hdb => ?_⟩
    by_cases hi : src.id = i
    · subst hi
      rw [List.getElem?_set_self hlt.1] at hdb
      cases hdb
      exact .append_self hres hid
    · rw [List.getElem?_set_ne hi] at hdb
      exact (h i db hdb).append_ne hi

theorem loadDbs_ok {st : List RedisDb} {rest : List RdbDb}
    (h : ∀ i db, st[i]? = some db → Restores dbs i db) (hids : ((dbs ++ rest).map RdbDb.id).Nodup)
    (hlt : ∀ src ∈ rest, src.id < st.length ∧ src.id < 256)
    (hexp : ∀ src ∈ rest, ∀ e ∈ src.entries, ∀ d ∈ src.expires.lookup e.1, 0 < d ∧ d ≤ LONG_MAX) :
    ∃ st', loadDbs id (st, 0) rest = (st', 0) ∧ st'.length = st.length ∧
      ∀ i db, st'[i]? = some db → Restores (dbs ++ rest) i db := by
  induction rest generalizing dbs st with
  | nil => exact ⟨st, rfl, rfl, by rwa [List.append_nil]⟩
  | cons src rest ih =>
    have hid : src.id ∉ dbs.map RdbDb.id := fun hm => by
      rw [List.map_append, List.map_cons] at hids
      exact (List.nodup_append.mp hids).2.2 _ hm _ List.mem_cons_self rfl
    obtain ⟨st₁, h₁, hl₁, hres₁⟩ :=
      loadDb_ok h hid (hlt src List.mem_cons_self) (hexp src List.mem_cons_self)
    rw [← List.singleton_append, ← List.append_assoc] at hids
    obtain ⟨st₂, h₂, hl₂, hres₂⟩ := ih hres₁ hids
      (fun s hs => by rw [hl₁]; exact hlt s (List.mem_cons_of_mem _ hs))
      fun s hs => hexp s (List.mem_cons_of_mem _ hs)
    refine ⟨st₂, ?_, hl₂.trans hl₁, ?_⟩
    · rw [loadDbs, List.foldl_cons, h₁]
      exact h₂
    · rwa [List.append_assoc, List.singleton_append] at hres₂

theorem restores_init (i : Nat) (db : RedisDb) (h : (List.replicate dbnum dbInit)[i]? = some db) :
    Restores [] i db := by
  rw [List.eq_of_mem_replicate (List.mem_of_getElem? h)]
  exact ⟨fun key v => by simp [dbInit], fun key d => by simp [dbInit]⟩

/-- **The record loop round-trips.** On what `rdbSave` writes it stops behind the
EOF opcode, and every database of the empty server has what was saved with its
number. -/
theorem records_ok (h : Savable c dbnum dbs) (a t : Bytes) {n : Nat}
    (hn : (rdbSaveDbs c dbs).length ≤ n) :
    ∃ l, rdbLoadLoop c n { db := List.replicate dbnum dbInit, dbid := none, expire := 0
                           fp := fileAt a (rdbSaveDbs c dbs ++ t) } = .ok l ∧
      l.fp = fileAt (a ++ rdbSaveDbs c dbs) t ∧ l.db.length = dbnum ∧
      ∀ i db, l.db[i]? = some db → Restores dbs i db := by
  have hlen : (List.replicate dbnum dbInit).length = dbnum := List.length_replicate
  have hids : (([] ++ dbs).map RdbDb.id).Nodup := h.ids
  have hfit : ∀ src ∈ dbs, Fits c id src := fun src hs =>
    ⟨fun e he => (h.key src hs e he).2, h.val src hs⟩
  obtain ⟨st, hst, hl, hres⟩ := loadDbs_ok restores_init hids
    (fun src hs => by rw [hlen]; exact h.id_lt src hs) h.expire
  obtain ⟨dbid, hrun⟩ := loop_ok
    (l := { db := List.replicate dbnum dbInit, dbid := none, expire := 0, fp := fileAt a t })
    (fun src hs => by rw [hlen]; exact (h.id_lt src hs).1) hfit a t hn
  refine ⟨_, hrun, rfl, ?_, ?_⟩
  · rw [hst, ← hlen, ← hl]
  · rw [hst]
    exact hres

/-- Two entries of database 3; the first has a key of opcodes, and a deadline. -/
def sampleDb : RdbDb where
  id := 3
  entries := [([RDB_EOF, RDB_EXPIRETIME], .int 5), (bytes "k", robjCreateStringObject (bytes "v"))]
  expires := (∅ : DbMap Int).insert [RDB_EOF, RDB_EXPIRETIME] 100
  nodup := by decide

theorem five_loads : LoadsAs stringCodec (.int 5) (.int 5) := by
  have h := int_loads 5
  rwa [(by decide : decodeInt (toInt32 5) = 5)] at h

theorem letter_loads : LoadsAs stringCodec (robjCreateStringObject (bytes "v"))
    (robjCreateStringObject (bytes "v")) :=
  string_loads (by decide +kernel) (by decide) (by decide)

theorem sampleDb_savable : Savable stringCodec 16 [sampleDb] where
  ids := by decide
  id_lt := by decide
  key := by decide +kernel
  val := by
    intro src hs e he
    rw [List.mem_singleton.mp hs] at he
    rcases List.mem_cons.mp he with rfl | he
    · exact five_loads
    · rw [List.mem_singleton.mp he]
      exact letter_loads
  expire := by
    intro src hs e he d hd
    rw [List.mem_singleton.mp hs] at he hd
    rcases List.mem_cons.mp he with rfl | he
    · rw [sampleDb, Finmap.lookup_insert] at hd
      cases hd
      decide
    · rw [List.mem_singleton.mp he, sampleDb, Finmap.lookup_insert_of_ne _ (by decide)] at hd
      simp at hd

theorem records_ok_two : ∃ l, rdbLoadLoop stringCodec 100
    { db := List.replicate 16 dbInit, dbid := none, expire := 0
      fp := fileAt rdbMagic (rdbSaveDbs stringCodec [sampleDb] ++ [1, 2, 3]) } = .ok l ∧
      l.fp = fileAt (rdbMagic ++ rdbSaveDbs stringCodec [sampleDb]) [1, 2, 3] ∧ l.db.length = 16 ∧
      ∀ i db, l.db[i]? = some db → Restores [sampleDb] i db :=
  records_ok sampleDb_savable rdbMagic [1, 2, 3] (by decide)

end Fedis.Proof.Rdb

import Fedis.Proof.Server.Handlers
import Fedis.Spec.Rdb

/-!
# The record loop of `rdbLoad` on what `rdbSave` writes

The loop keeps its place as long as every key fits in its buffer and every value
is read back to its end, whatever it is read as.

* `rdbLoadLen_save`, `rdbLoadKey_save`: lengths and keys;
* `len_delimited`: lengths are a prefix-free code;
* `Reaches`: the turns that lead from one state of the loop to another, no more of
  them than bytes they read;
* `entry_reaches`, `db_reaches`, `dbs_reaches`: the loop does what `Spec.Rdb` says.
-/

namespace Fedis.Proof.Rdb

open Framework Server

variable {c : ValueCodec} {decode : Robj → Robj} {l l' l'' : RdbLoader} {a t key : Bytes}

/-! ## Lengths and keys -/

theorem fread_one (a : Bytes) (b : UInt8) (t : Bytes) :
    fread (fileAt a (b :: t)) 1 = ([b], fileAt (a ++ [b]) t) := fread_fileAt a [b] t

theorem freadItem_one (a : Bytes) (b : UInt8) (t : Bytes) :
    freadItem (fileAt a (b :: t)) 1 = .ok ([b], fileAt (a ++ [b]) t) := freadItem_fileAt a [b] t rfl

/-- The first byte of a length in one or two bytes. -/
theorem marker_short {n : Nat} (h : n < 64) :
    UInt8.ofNat n &&& 0xC0 = 0 ∧ (UInt8.ofNat n &&& 0x3F).toNat = n ∧
      (0x80 ||| UInt8.ofNat n) &&& 0xC0 = 0x80 ∧ ((0x80 ||| UInt8.ofNat n) &&& 0x3F).toNat = n := by
  have all : ∀ n < 64, UInt8.ofNat n &&& 0xC0 = 0 ∧ (UInt8.ofNat n &&& 0x3F).toNat = n ∧
      (0x80 ||| UInt8.ofNat n) &&& 0xC0 = 0x80 ∧
        ((0x80 ||| UInt8.ofNat n) &&& 0x3F).toNat = n := by decide
  exact all n h

theorem rdbLoadLen_save {n : Nat} (h : n < 2 ^ 32) (a t : Bytes) :
    rdbLoadLen (fileAt a (rdbSaveLen n ++ t)) = (n, fileAt (a ++ rdbSaveLen n) t) := by
  unfold rdbSaveLen
  rw [Nat.mod_eq_of_lt h]
  dsimp only
  split
  · rename_i hn
    obtain ⟨h₁, h₂, -⟩ := marker_short hn
    rw [List.singleton_append, rdbLoadLen, fread_one]
    simp only [h₁, h₂, if_true]
  · split
    · rename_i hn
      obtain ⟨-, -, h₁, h₂⟩ := marker_short (n := n / 256) (by omega)
      have hb : (UInt8.ofNat n).toNat = n % 256 := by simp
      rw [List.cons_append, List.singleton_append, rdbLoadLen, fread_one]
      simp only [h₁, h₂, fread_one, if_neg (by decide : ¬ (0x80 : UInt8) = 0), if_true, hb]
      rw [List.append_assoc, List.singleton_append]
      congr 1
      omega
    · rw [List.cons_append, rdbLoadLen, fread_one]
      have hread := fread_fileAt (a ++ [0xFE]) (leBytes 4 n) t
      rw [length_leBytes] at hread
      simp only [if_neg (by decide : ¬ (0xFE &&& 0xC0 : UInt8) = 0),
        if_neg (by decide : ¬ (0xFE &&& 0xC0 : UInt8) = 0x80), if_true, hread, length_leBytes,
        leVal_leBytes]
      rw [Nat.mod_eq_of_lt (by omega), List.append_assoc, List.singleton_append]

/-- The three formats. -/
theorem length_rdbSaveLen {n : Nat} (h : n < 2 ^ 32) :
    (rdbSaveLen n).length = if n < 64 then 1 else if n < 2 ^ 14 then 2 else 5 := by
  unfold rdbSaveLen
  rw [Nat.mod_eq_of_lt h]
  dsimp only
  by_cases h₁ : n < 64
  · rw [if_pos h₁, if_pos h₁]
    rfl
  · rw [if_neg h₁, if_neg h₁]
    by_cases h₂ : n < 2 ^ 14
    · rw [if_pos h₂, if_pos h₂]
      rfl
    · rw [if_neg h₂, if_neg h₂, List.length_cons, length_leBytes]

/-- **Lengths are a self-delimiting code.** A length is read back from its bytes, whatever stands
behind them, and the bytes of no other length are a prefix of them. -/
theorem len_delimited (n : UInt32) :
    ReadsBack rdbLoadLen n.toNat (rdbSaveLen n.toNat) ∧
      (rdbSaveLen n.toNat).length =
        (if n.toNat < 64 then 1 else if n.toNat < 2 ^ 14 then 2 else 5) ∧
      ∀ m : UInt32, m ≠ n → ¬ rdbSaveLen m.toNat <+: rdbSaveLen n.toNat := by
  have hread : ∀ k : UInt32, ReadsBack rdbLoadLen k.toNat (rdbSaveLen k.toNat) := fun k =>
    rdbLoadLen_save k.toNat_lt
  refine ⟨hread n, length_rdbSaveLen n.toNat_lt, fun m hne hprefix => hne ?_⟩
  exact UInt32.toNat_inj.mp ((hread m).unique (hread n) hprefix)

theorem rdbLoadKey_save (h : key.length ≤ 1024) (a t : Bytes) :
    rdbLoadKey (fileAt a (rdbSaveKey key ++ t)) = .ok (key, fileAt (a ++ rdbSaveKey key) t) := by
  rw [rdbLoadKey, rdbSaveKey, List.append_assoc, rdbLoadLen_save (by omega)]
  simp only [fread_fileAt]
  rw [if_neg (by omega), List.append_assoc]

/-- A longer key is written behind the buffer's end. -/
theorem rdbLoadKey_long (h : 1024 < key.length) (hlt : key.length < 2 ^ 32) (a t : Bytes) :
    rdbLoadKey (fileAt a (rdbSaveKey key ++ t)) = .error .undefined := by
  rw [rdbLoadKey, rdbSaveKey, List.append_assoc, rdbLoadLen_save hlt]
  simp only [fread_fileAt]
  rw [if_pos h]

/-! ## Turns of the loop -/

/-- The value is read back to its end, as `v'`. -/
def LoadsAs (c : ValueCodec) (v v' : Robj) : Prop :=
  ∀ a t, c.load RDB_TYPE_STRING (fileAt a (c.save v ++ t)) = .ok (v', fileAt (a ++ c.save v) t)

/-- The loop comes from one state to the other, in no more turns than the bytes that
it reads. -/
def Reaches (c : ValueCodec) (l l' : RdbLoader) : Prop :=
  ∃ k, l.fp.pos + k ≤ l'.fp.pos ∧ ∀ n, rdbLoadLoop c (n + k) l = rdbLoadLoop c n l'

theorem Reaches.refl (l : RdbLoader) : Reaches c l l := ⟨0, Nat.le_refl _, fun _ => rfl⟩

theorem Reaches.trans (h : Reaches c l l') (h' : Reaches c l' l'') : Reaches c l l'' := by
  obtain ⟨k, hk, hrun⟩ := h
  obtain ⟨k', hk', hrun'⟩ := h'
  exact ⟨k' + k, by omega, fun n => by rw [← Nat.add_assoc, hrun, hrun']⟩

theorem turn_reaches {type : UInt8} (htype : type ≠ RDB_EOF)
    (hturn : rdbLoadTurn c type { l with fp := fileAt (a ++ [type]) t } = .ok l')
    (hpos : a.length < l'.fp.pos) : Reaches c { l with fp := fileAt a (type :: t) } l' := by
  refine ⟨1, hpos, fun n => ?_⟩
  rw [rdbLoadLoop, freadItem_one]
  change (if [type] = [RDB_EOF] then _ else _) = _
  rw [if_neg (by simpa using htype)]
  change (rdbLoadTurn c type { l with fp := fileAt (a ++ [type]) t } >>= _) = _
  rw [hturn]
  rfl

theorem turn_fails {type : UInt8} {e : Fault} (htype : type ≠ RDB_EOF)
    (hturn : rdbLoadTurn c type { l with fp := fileAt (a ++ [type]) t } = .error e) (n : Nat) :
    rdbLoadLoop c (n + 1) { l with fp := fileAt a (type :: t) } = .error e := by
  rw [rdbLoadLoop, freadItem_one]
  change (if [type] = [RDB_EOF] then _ else _) = _
  rw [if_neg (by simpa using htype)]
  change (rdbLoadTurn c type { l with fp := fileAt (a ++ [type]) t } >>= _) = _
  rw [hturn]
  rfl

/-- The loop ends at the opcode. -/
theorem loop_eof (n : Nat) (l : RdbLoader) (a t : Bytes) :
    rdbLoadLoop c (n + 1) { l with fp := fileAt a (RDB_EOF :: t) } =
      .ok { l with fp := fileAt (a ++ [RDB_EOF]) t } := by
  rw [rdbLoadLoop, freadItem_one]
  rfl

/-! ## Entries -/

/-- The bytes of an entry's deadline. -/
def expireBytes (expires : DbMap Int) (key : Bytes) : Bytes :=
  if mapContains expires key then RDB_EXPIRETIME :: leInt 8 (mapFetchValue expires key) else []

theorem expire_reaches (expires : DbMap Int) (key : Bytes) (l : RdbLoader) (a t : Bytes) :
    Reaches c { l with fp := fileAt a (expireBytes expires key ++ t) }
      { l with
        expire := pending expires key l.expire
        fp := fileAt (a ++ expireBytes expires key) t } := by
  unfold expireBytes pending
  split
  · rw [List.cons_append]
    refine turn_reaches (by decide) ?_ ?_
    · rw [rdbLoadTurn, if_neg (by decide), if_pos rfl]
      dsimp only
      rw [freadItem_fileAt _ _ _ (length_leInt 8 _)]
      change Except.ok _ = _
      rw [signed_leInt, List.append_assoc]
      rfl
    · simp [fileAt]
  · rw [List.append_nil]
    exact .refl _

theorem record_ok {id : Nat} {db : RedisDb} {v v' : Robj} (hdb : l.db[id]? = some db)
    (hid : l.dbid = some id) (hkey : key.length ≤ 1024) (hv : LoadsAs c v v') (a t : Bytes) :
    rdbLoadTurn c RDB_TYPE_STRING { l with fp := fileAt a (rdbSaveKey key ++ (c.save v ++ t)) } =
      .ok { l with
        db := l.db.set id
          (if 0 < l.expire then (dbSetExpire (dbAdd db key v').2 key l.expire).2
            else (dbAdd db key v').2)
        expire := if 0 < l.expire then 0 else l.expire
        fp := fileAt (a ++ rdbSaveKey key ++ c.save v) t } := by
  rw [rdbLoadTurn, if_neg (by decide), if_neg (by decide), rdbLoadRecord]
  dsimp only
  rw [rdbLoadKey_save hkey]
  change (c.load RDB_TYPE_STRING (fileAt (a ++ rdbSaveKey key) (c.save v ++ t)) >>= _) = _
  rw [hv, ok_bind, hid]
  dsimp only
  rw [hdb]
  dsimp only
  split <;> rfl

/-- **An entry**: the loop adds it to the database at hand. -/
theorem entry_reaches {expires : DbMap Int} {id : Nat} {db : RedisDb} {e : Bytes × Robj}
    (hdb : l.db[id]? = some db) (hid : l.dbid = some id) (hkey : e.1.length ≤ 1024)
    (hv : LoadsAs c e.2 (decode e.2)) (a t : Bytes) :
    Reaches c { l with fp := fileAt a (rdbSaveEntry c expires e ++ t) }
      { l with
        db := l.db.set id (loadEntry decode expires (db, l.expire) e).1
        expire := (loadEntry decode expires (db, l.expire) e).2
        fp := fileAt (a ++ rdbSaveEntry c expires e) t } := by
  have hbytes : rdbSaveEntry c expires e ++ t = expireBytes expires e.1 ++
      (RDB_TYPE_STRING :: (rdbSaveKey e.1 ++ (c.save e.2 ++ t))) := by
    simp [rdbSaveEntry, expireBytes]
  rw [hbytes]
  refine (expire_reaches expires e.1 l a _).trans ?_
  refine turn_reaches (l := { l with expire := pending expires e.1 l.expire }) (by decide) ?_ ?_
  · rw [record_ok (l := { l with expire := pending expires e.1 l.expire }) hdb hid hkey hv]
    simp [rdbSaveEntry, expireBytes, loadEntry]
  · simp only [fileAt, rdbSaveEntry, expireBytes, List.length_append, List.length_cons]
    omega

theorem entries_reaches (expires : DbMap Int) {id : Nat} {entries : List (Bytes × Robj)}
    {db : RedisDb} (hdb : l.db[id]? = some db) (hid : l.dbid = some id)
    (hkey : ∀ e ∈ entries, e.1.length ≤ 1024) (hv : ∀ e ∈ entries, LoadsAs c e.2 (decode e.2))
    (a t : Bytes) :
    Reaches c { l with fp := fileAt a (entries.flatMap (rdbSaveEntry c expires) ++ t) }
      { l with
        db := l.db.set id (entries.foldl (loadEntry decode expires) (db, l.expire)).1
        expire := (entries.foldl (loadEntry decode expires) (db, l.expire)).2
        fp := fileAt (a ++ entries.flatMap (rdbSaveEntry c expires)) t } := by
  induction entries generalizing l db a with
  | nil =>
    have hset : l.db.set id db = l.db := by
      obtain ⟨hlt, rfl⟩ := List.getElem?_eq_some_iff.mp hdb
      exact List.set_getElem_self hlt
    rw [List.foldl_nil, hset, List.flatMap_nil, List.append_nil]
    exact .refl _
  | cons e entries ih =>
    rw [List.flatMap_cons, List.append_assoc]
    refine (entry_reaches hdb hid (hkey e List.mem_cons_self) (hv e List.mem_cons_self) a _).trans ?_
    obtain ⟨hlt, -⟩ := List.getElem?_eq_some_iff.mp hdb
    have hset : (l.db.set id (loadEntry decode expires (db, l.expire) e).1)[id]? =
        some (loadEntry decode expires (db, l.expire) e).1 := by simp [hlt]
    have ih := ih (l := { l with
        db := l.db.set id (loadEntry decode expires (db, l.expire) e).1
        expire := (loadEntry decode expires (db, l.expire) e).2 }) hset hid
      (fun e he => hkey e (List.mem_cons_of_mem _ he)) (fun e he => hv e (List.mem_cons_of_mem _ he))
      (a ++ rdbSaveEntry c expires e)
    rw [List.foldl_cons, ← List.append_assoc]
    simpa using ih

/-! ## Databases -/

/-- The keys of the database fit in the loader's buffer, and its values are read to
their ends. -/
structure Fits (c : ValueCodec) (decode : Robj → Robj) (db : RdbDb) : Prop where
  key : ∀ e ∈ db.entries, e.1.length ≤ 1024
  val : ∀ e ∈ db.entries, LoadsAs c e.2 (decode e.2)

theorem select_reaches {id : Nat} (h : id % 256 ≤ l.db.length) (a t : Bytes) :
    Reaches c { l with fp := fileAt a (RDB_SELECTDB :: UInt8.ofNat id :: t) }
      { l with dbid := some (id % 256), fp := fileAt (a ++ [RDB_SELECTDB, UInt8.ofNat id]) t } := by
  refine turn_reaches (by decide) ?_ (by simp [fileAt])
  have hval : leVal [UInt8.ofNat id] = id % 256 := by simp [leVal]
  rw [rdbLoadTurn, if_pos rfl]
  dsimp only
  rw [freadItem_one]
  change (if l.db.length < leVal [UInt8.ofNat id] then _ else _) = _
  rw [hval, if_neg (by omega), List.append_assoc]
  rfl

/-- **A database**: the loop adds its entries. -/
theorem db_reaches {src : RdbDb} (hid : src.id < l.db.length) (h : Fits c decode src) (a t : Bytes) :
    ∃ dbid, Reaches c { l with fp := fileAt a (rdbSaveDb c src ++ t) }
      { db := (loadDb decode (l.db, l.expire) src).1
        dbid := dbid
        expire := (loadDb decode (l.db, l.expire) src).2
        fp := fileAt (a ++ rdbSaveDb c src) t } := by
  unfold rdbSaveDb loadDb
  split
  · rw [List.append_nil]
    exact ⟨l.dbid, .refl _⟩
  · have hmod := Nat.mod_le src.id 256
    obtain ⟨db, hdb⟩ : ∃ db, l.db[src.id % 256]? = some db := ⟨_, List.getElem?_eq_getElem (by omega)⟩
    refine ⟨some (src.id % 256), ?_⟩
    dsimp only
    rw [hdb]
    refine (select_reaches (by omega) a _).trans ?_
    have hrun := entries_reaches src.expires
      (l := { l with dbid := some (src.id % 256) }) hdb rfl h.key h.val
      (a ++ [RDB_SELECTDB, UInt8.ofNat src.id]) t
    simpa using hrun

@[simp] theorem length_loadDb (st : List RedisDb × Int) (src : RdbDb) :
    (loadDb decode st src).1.length = st.1.length := by
  unfold loadDb
  split
  · rfl
  · split <;> simp

@[simp] theorem length_loadDbs (st : List RedisDb × Int) (dbs : List RdbDb) :
    (loadDbs decode st dbs).1.length = st.1.length := by
  induction dbs generalizing st with
  | nil => rfl
  | cons src dbs ih => exact (ih _).trans (length_loadDb st src)

/-- **The databases**: the loop adds the entries of all of them. -/
theorem dbs_reaches {dbs : List RdbDb} (hid : ∀ src ∈ dbs, src.id < l.db.length)
    (h : ∀ src ∈ dbs, Fits c decode src) (a t : Bytes) :
    ∃ dbid, Reaches c { l with fp := fileAt a (dbs.flatMap (rdbSaveDb c) ++ t) }
      { db := (loadDbs decode (l.db, l.expire) dbs).1
        dbid := dbid
        expire := (loadDbs decode (l.db, l.expire) dbs).2
        fp := fileAt (a ++ dbs.flatMap (rdbSaveDb c)) t } := by
  induction dbs generalizing l a with
  | nil =>
    refine ⟨l.dbid, ?_⟩
    rw [List.flatMap_nil, List.append_nil]
    exact .refl _
  | cons src dbs ih =>
    rw [List.flatMap_cons, List.append_assoc]
    obtain ⟨dbid, hsrc⟩ := db_reaches (hid src List.mem_cons_self) (h src List.mem_cons_self) a
      (dbs.flatMap (rdbSaveDb c) ++ t)
    obtain ⟨dbid', hrest⟩ := ih
      (l := { db := (loadDb decode (l.db, l.expire) src).1, dbid := dbid,
              expire := (loadDb decode (l.db, l.expire) src).2, fp := l.fp })
      (fun s hs => by
        rw [length_loadDb]
        exact hid s (List.mem_cons_of_mem _ hs))
      (fun s hs => h s (List.mem_cons_of_mem _ hs)) (a ++ rdbSaveDb c src)
    refine ⟨dbid', hsrc.trans ?_⟩
    rw [loadDbs, List.foldl_cons, ← List.append_assoc]
    exact hrest

/-- The loop on all that `rdbSave` writes before the checksum. -/
theorem loop_ok {dbs : List RdbDb} (hid : ∀ src ∈ dbs, src.id < l.db.length)
    (h : ∀ src ∈ dbs, Fits c decode src) (a t : Bytes) {n : Nat} (hn : (rdbSaveDbs c dbs).length ≤ n) :
    ∃ dbid, rdbLoadLoop c n { l with fp := fileAt a (rdbSaveDbs c dbs ++ t) } =
      .ok { db := (loadDbs decode (l.db, l.expire) dbs).1
            dbid := dbid
            expire := (loadDbs decode (l.db, l.expire) dbs).2
            fp := fileAt (a ++ rdbSaveDbs c dbs) t } := by
  obtain ⟨dbid, k, hk, hrun⟩ := dbs_reaches hid h a (RDB_EOF :: t)
  simp only [fileAt, List.length_append] at hk
  rw [rdbSaveDbs, List.length_append, List.length_singleton] at hn
  have hcons : rdbSaveDbs c dbs ++ t = dbs.flatMap (rdbSaveDb c) ++ (RDB_EOF :: t) := by
    simp [rdbSaveDbs]
  obtain ⟨m, rfl⟩ : ∃ m, n = m + 1 + k := ⟨n - k - 1, by omega⟩
  refine ⟨dbid, ?_⟩
  rw [hcons, hrun]
  have heof := loop_eof (c := c) m
    { db := (loadDbs decode (l.db, l.expire) dbs).1, dbid := dbid,
      expire := (loadDbs decode (l.db, l.expire) dbs).2, fp := l.fp }
    (a ++ dbs.flatMap (rdbSaveDb c)) t
  rw [heof, rdbSaveDbs, List.append_assoc]

end Fedis.Proof.Rdb

import Fedis.Proof.Rdb.Strings

/-!
# The checksum of an RDB file

The saver's digest and the loader's are of what each has in a buffer of 4096 bytes,
and the loader's key buffer has 1024. The file passes whatever the digest is iff
neither buffer is too small for what was saved (`checksum_ok`): in a smaller file
the loop finds its way to the EOF opcode, since what it takes values for does not
matter there (`loads_any`); a first key that is too long is written behind its buffer
before (`long_key_fails`).
-/

namespace Fedis.Proof.Rdb

open Framework Server Value

variable {c : ValueCodec} {decode : Robj → Robj} {l l' : RdbLoader} {a t : Bytes} {src : RdbDb}
  {dbs : List RdbDb} {server : List RedisDb} {entries : List (Bytes × Robj)} {e : Bytes × Robj}

/-- A value as the commands make them. -/
def Stored (v : Robj) : Prop := ∃ s, (∀ b ∈ s, b ≠ 0) ∧ v = robjCreateStringObject s

/-- The checksum is the digest of all that stands before it, and the loader, in this
server, finds it right. -/
structure Checks (server : List RedisDb) (dbs : List RdbDb) : Prop where
  digest : ∀ sha256, rdbSave sha256 stringCodec dbs =
    rdbBody stringCodec dbs ++ (sha256 (rdbBody stringCodec dbs)).val
  verify : ∀ sha256, ∃ db,
    rdbLoad sha256 stringCodec server (rdbSave sha256 stringCodec dbs) = .ok db

/-! ## Small files -/

/-- What the loader takes a value for. -/
def decodeValue : Robj → Robj
  | .int n => .int (decodeInt (toInt32 n))
  | v => v

theorem length_le_flatMap {α : Type} {f : α → Bytes} {x : α} {xs : List α} (h : x ∈ xs) :
    (f x).length ≤ (xs.flatMap f).length := by
  rw [List.flatMap_def]
  exact (List.sublist_flatten_of_mem (List.mem_map_of_mem h)).length_le

theorem length_entry_le (hs : src ∈ dbs) (he : e ∈ src.entries) :
    (rdbSaveEntry c src.expires e).length ≤ (rdbBody c dbs).length := by
  have h₁ := length_le_flatMap (f := rdbSaveEntry c src.expires) he
  have h₂ := length_le_flatMap (f := rdbSaveDb c) hs
  rw [rdbSaveDb, if_neg (List.ne_nil_of_mem he)] at h₂
  simp only [rdbBody, rdbSaveDbs, List.length_append, List.length_cons] at h₂ ⊢
  omega

/-- In a small file every value is read to its end. -/
theorem loads_any {v : Robj} (h : Stored v) (hlen : (rdbSaveStringObject v).length ≤ RDB_MAX_SIZE) :
    LoadsAs stringCodec v (decodeValue v) := by
  obtain ⟨s, hz, rfl⟩ := h
  cases hs : string2l s with
  | some n =>
    have hv : robjCreateStringObject s = .int n := by rw [robjCreateStringObject, hs]
    rw [hv]
    exact int_loads n
  | none =>
    rw [saved_string hz hs, List.length_append, RDB_MAX_SIZE] at hlen
    have hv : decodeValue (robjCreateStringObject s) = robjCreateStringObject s := by
      rw [robjCreateStringObject, hs]
      dsimp only
      split <;> rfl
    rw [hv]
    exact string_loads hz hs (by omega)

theorem fits_small (hsize : (rdbBody stringCodec dbs).length ≤ RDB_MAX_SIZE) (hs : src ∈ dbs)
    (hval : ∀ e ∈ entries, Stored e.2) (he : ∀ e ∈ entries, e ∈ src.entries) :
    ∀ e ∈ entries, LoadsAs stringCodec e.2 (decodeValue e.2) := by
  intro e hm
  refine loads_any (hval e hm) ?_
  have := length_entry_le (c := stringCodec) hs (he e hm)
  simp only [rdbSaveEntry, stringCodec, List.length_append, List.length_cons] at this hsize ⊢
  omega

/-- The verification of a file with a digest of all bytes before it. -/
theorem rdbVerify_ok {sha256 : Sha256} {body : Bytes} (h : body.length ≤ RDB_MAX_SIZE) :
    rdbVerify sha256 (fileAt body (sha256 body).val) = .ok () := by
  have hhash := fread_fileAt body (sha256 body).val []
  rw [List.append_nil, (sha256 body).property] at hhash
  have hdata : fread { data := (fileAt body (sha256 body).val).data, pos := 0 } body.length =
      (body, fileAt body (sha256 body).val) := fread_fileAt [] body _
  have hpos : (fileAt body (sha256 body).val).pos = body.length := rfl
  have hlen := (sha256 body).property
  rw [rdbVerify, hhash]
  dsimp only
  rw [if_neg (not_not_intro hlen), hpos, hdata, if_neg (Nat.not_lt.mpr h),
    if_neg (not_not_intro rfl), if_pos rfl]

theorem rdbLoad_eq (sha256 : Sha256) (c : ValueCodec) (server : List RedisDb) (t : Bytes) :
    rdbLoad sha256 c server (rdbMagic ++ t) =
      (rdbLoadLoop c ((rdbMagic ++ t).length + 1)
        { db := server, dbid := none, expire := 0, fp := fileAt rdbMagic t } >>= fun l =>
          rdbVerify sha256 l.fp >>= fun _ => .ok l.db) := by
  have h9 : rdbMagic.length = 9 := by decide
  have hmagic : fread { data := rdbMagic ++ t, pos := 0 } 9 = (rdbMagic, fileAt rdbMagic t) := by
    rw [← h9]
    exact fread_fileAt [] rdbMagic t
  rw [rdbLoad, hmagic]
  dsimp only
  rw [if_pos rfl]

theorem rdbLoad_small {sha256 : Sha256} (hid : ∀ src ∈ dbs, src.id < server.length)
    (hfit : ∀ src ∈ dbs, Fits c decode src) (hsize : (rdbBody c dbs).length ≤ RDB_MAX_SIZE) :
    rdbLoad sha256 c server (rdbBody c dbs ++ (sha256 (rdbBody c dbs)).val) =
      .ok (loadDbs decode (server, 0) dbs).1 := by
  have hn : (rdbSaveDbs c dbs).length ≤
      (rdbMagic ++ (rdbSaveDbs c dbs ++ (sha256 (rdbBody c dbs)).val)).length + 1 := by
    simp only [List.length_append]
    omega
  obtain ⟨dbid, hrun⟩ := loop_ok (l := { db := server, dbid := none, expire := 0
                                         fp := fileAt rdbMagic [] }) hid hfit rdbMagic
    (sha256 (rdbBody c dbs)).val hn
  have happend : rdbBody c dbs ++ (sha256 (rdbBody c dbs)).val =
      rdbMagic ++ (rdbSaveDbs c dbs ++ (sha256 (rdbBody c dbs)).val) := by
    rw [rdbBody, List.append_assoc]
  rw [happend, rdbLoad_eq]
  dsimp only at hrun
  rw [hrun]
  change (rdbVerify sha256 (fileAt (rdbBody c dbs) (sha256 (rdbBody c dbs)).val) >>= _) = _
  rw [rdbVerify_ok hsize]
  rfl

/-! ## Long keys -/

/-- The loop comes to something undefined within the bytes of the file. -/
def Fails (c : ValueCodec) (l : RdbLoader) : Prop :=
  ∃ k, l.fp.pos + k ≤ l.fp.data.length ∧ ∀ n, rdbLoadLoop c (n + 1 + k) l = .error .undefined

theorem Reaches.fails (h : Reaches c l l') (hf : Fails c l') (hd : l'.fp.data = l.fp.data) :
    Fails c l := by
  obtain ⟨k, hk, hrun⟩ := h
  obtain ⟨k', hk', hfail⟩ := hf
  rw [hd] at hk'
  exact ⟨k' + k, by omega, fun n => by rw [← Nat.add_assoc, hrun, hfail]⟩

/-- The first key that is too long is written behind its buffer. -/
theorem entry_fails (hkey : 1024 < e.1.length) (hlt : e.1.length < 2 ^ 32) (expires : DbMap Int)
    (db : List RedisDb) (dbid : Option Nat) (expire : Int) (a t : Bytes) :
    Fails c ⟨db, dbid, expire, fileAt a (rdbSaveEntry c expires e ++ t)⟩ := by
  have hbytes : rdbSaveEntry c expires e ++ t = expireBytes expires e.1 ++
      (RDB_TYPE_STRING :: (rdbSaveKey e.1 ++ (c.save e.2 ++ t))) := by
    simp [rdbSaveEntry, expireBytes]
  rw [hbytes]
  refine (expire_reaches expires e.1 ⟨db, dbid, expire, fileAt a t⟩ a _).fails
    ⟨0, by simp [fileAt], fun n => ?_⟩ (by simp [fileAt])
  refine turn_fails (l := ⟨db, dbid, pending expires e.1 expire, fileAt a t⟩) (by decide) ?_ n
  rw [rdbLoadTurn, if_neg (by decide), if_neg (by decide), rdbLoadRecord]
  dsimp only
  rw [rdbLoadKey_long hkey hlt]
  rfl

theorem db_fails {epre epost : List (Bytes × Robj)} (hid : src.id < l.db.length)
    (hsrc : src.entries = epre ++ e :: epost) (hkey : ∀ e ∈ epre, e.1.length ≤ 1024)
    (hval : ∀ e ∈ epre, LoadsAs c e.2 (decode e.2)) (hlong : 1024 < e.1.length)
    (hlt : e.1.length < 2 ^ 32) (a t : Bytes) :
    Fails c { l with fp := fileAt a (rdbSaveDb c src ++ t) } := by
  have hmod := Nat.mod_le src.id 256
  obtain ⟨db, hdb⟩ : ∃ db, l.db[src.id % 256]? = some db := ⟨_, List.getElem?_eq_getElem (by omega)⟩
  have hbytes : rdbSaveDb c src ++ t = RDB_SELECTDB :: UInt8.ofNat src.id ::
      (epre.flatMap (rdbSaveEntry c src.expires) ++ (rdbSaveEntry c src.expires e ++
        (epost.flatMap (rdbSaveEntry c src.expires) ++ t))) := by
    rw [rdbSaveDb, hsrc, if_neg (by simp)]
    simp
  rw [hbytes]
  have hrun := entries_reaches src.expires (l := { l with dbid := some (src.id % 256) }) hdb rfl hkey hval
    (a ++ [RDB_SELECTDB, UInt8.ofNat src.id]) (rdbSaveEntry c src.expires e ++
        (epost.flatMap (rdbSaveEntry c src.expires) ++ t))
  refine ((select_reaches (l := l) (by omega) a _).trans hrun).fails ?_ (by simp [fileAt])
  exact entry_fails hlong hlt _ _ _ _ _ _

/-- The first of the entries, or databases, that has a property. -/
theorem exists_first {α : Type} {p : α → Prop} [DecidablePred p] {xs : List α} {x : α} (hx : x ∈ xs)
    (hp : p x) : ∃ pre y post, xs = pre ++ y :: post ∧ p y ∧ ∀ z ∈ pre, ¬ p z := by
  obtain ⟨y, hy⟩ : ∃ y, xs.find? (fun x => decide (p x)) = some y := by
    rw [← Option.isSome_iff_exists, List.find?_isSome]
    exact ⟨x, hx, decide_eq_true hp⟩
  obtain ⟨hpy, pre, post, hxs, hpre⟩ := List.find?_eq_some_iff_append.mp hy
  exact ⟨pre, y, post, hxs, of_decide_eq_true hpy, fun z hz => by simpa using hpre z hz⟩

/-- A small file with a long key. -/
theorem long_key_fails (hid : ∀ src ∈ dbs, src.id < l.db.length)
    (hval : ∀ src ∈ dbs, ∀ e ∈ src.entries, LoadsAs c e.2 (decode e.2))
    (hsize : (rdbBody c dbs).length ≤ RDB_MAX_SIZE) (hs : src ∈ dbs) (he : e ∈ src.entries)
    (hlong : 1024 < e.1.length) (a t : Bytes) :
    Fails c { l with fp := fileAt a (rdbSaveDbs c dbs ++ t) } := by
  obtain ⟨pre, src, post, rfl, ⟨e, he, hlong⟩, hpre⟩ :=
    exists_first (p := fun src : RdbDb => ∃ e ∈ src.entries, 1024 < e.1.length) hs ⟨e, he, hlong⟩
  obtain ⟨epre, e, epost, hsrc, hlong, hepre⟩ :=
    exists_first (p := fun e : Bytes × Robj => 1024 < e.1.length) he hlong
  have hmem : src ∈ pre ++ src :: post := by simp
  have hlt : e.1.length < 2 ^ 32 := by
    have := length_entry_le (c := c) hmem (e := e) (by simp [hsrc])
    simp only [rdbSaveEntry, rdbSaveKey, List.length_append, List.length_cons, RDB_MAX_SIZE]
      at this hsize
    omega
  have hfit : ∀ s ∈ pre, Fits c decode s := fun s hm => by
    refine ⟨fun e he => ?_, hval s (List.mem_append_left _ hm)⟩
    have := hpre s hm
    push Not at this
    exact this e he
  obtain ⟨dbid, hrun⟩ := dbs_reaches (l := l)
    (fun s hm => hid s (List.mem_append_left _ hm)) hfit a
    (rdbSaveDb c src ++ (rdbSaveDbs c post ++ t))
  have hbytes : rdbSaveDbs c (pre ++ src :: post) ++ t =
      pre.flatMap (rdbSaveDb c) ++ (rdbSaveDb c src ++ (rdbSaveDbs c post ++ t)) := by
    simp [rdbSaveDbs]
  rw [hbytes]
  refine hrun.fails ?_ (by simp [fileAt])
  refine db_fails (l := ⟨_, dbid, _, fileAt a t⟩) ?_ hsrc (fun e he => Nat.le_of_not_lt (hepre e he))
    (fun e he => hval src hmem e (by simp [hsrc, he])) hlong hlt _ _
  rw [length_loadDbs]
  exact hid src hmem

/-! ## What is asked -/

/-- A digest that tells one string from all others. -/
def tells (body : Bytes) : Sha256 := fun bs =>
  if bs = body then ⟨List.replicate RDB_CHECKSUM_LEN 1, List.length_replicate⟩
  else ⟨List.replicate RDB_CHECKSUM_LEN 0, List.length_replicate⟩

theorem digest_small (h : ∀ sha256, rdbSave sha256 c dbs =
    rdbBody c dbs ++ (sha256 (rdbBody c dbs)).val) : (rdbBody c dbs).length ≤ RDB_MAX_SIZE := by
  by_contra hlong
  have hne : (rdbBody c dbs).take RDB_MAX_SIZE ≠ rdbBody c dbs := fun e => by
    have := congrArg List.length e
    rw [List.length_take] at this
    omega
  have hd := List.append_cancel_left (h (tells (rdbBody c dbs)))
  rw [tells, if_neg hne, tells, if_pos rfl] at hd
  exact absurd hd (by decide)

/-- The file passes its check, whatever SHA-256 is, iff the body is no longer than the
buffers for it, and no key than the loader's buffer. -/
theorem checksum_ok (hid : ∀ src ∈ dbs, src.id < server.length)
    (hval : ∀ src ∈ dbs, ∀ e ∈ src.entries, Stored e.2) :
    Checks server dbs ↔ (rdbBody stringCodec dbs).length ≤ RDB_MAX_SIZE ∧
      ∀ src ∈ dbs, ∀ e ∈ src.entries, e.1.length ≤ 1024 := by
  constructor
  · intro h
    have hsize := digest_small h.digest
    refine ⟨hsize, fun src hs e he => ?_⟩
    by_contra hlong
    let sha256 := tells []
    obtain ⟨db, hdb⟩ := h.verify sha256
    have hloads : ∀ src ∈ dbs, ∀ e ∈ src.entries, LoadsAs stringCodec e.2 (decodeValue e.2) :=
      fun src hs => fits_small hsize hs (hval src hs) fun _ he => he
    obtain ⟨k, hk, hfail⟩ := long_key_fails (l := ⟨server, none, 0, fileAt rdbMagic []⟩) hid hloads
      hsize hs he (Nat.lt_of_not_le hlong) rdbMagic (sha256 (rdbBody stringCodec dbs)).val
    rw [h.digest sha256, rdbBody, List.append_assoc, rdbLoad_eq] at hdb
    have hn : (rdbMagic ++ (rdbSaveDbs stringCodec dbs ++
        (sha256 (rdbMagic ++ rdbSaveDbs stringCodec dbs)).val)).length + 1 =
          (rdbMagic ++ (rdbSaveDbs stringCodec dbs ++
            (sha256 (rdbMagic ++ rdbSaveDbs stringCodec dbs)).val)).length - k + 1 + k := by
      simp only [fileAt, rdbBody] at hk
      omega
    rw [hn] at hdb
    change (rdbLoadLoop stringCodec _ ⟨server, none, 0, fileAt rdbMagic (_ ++
      (sha256 (rdbBody stringCodec dbs)).val)⟩ >>= _) = _ at hdb
    rw [hfail] at hdb
    cases hdb
  · rintro ⟨hsize, hkey⟩
    have hdigest : ∀ sha256, rdbSave sha256 stringCodec dbs =
        rdbBody stringCodec dbs ++ (sha256 (rdbBody stringCodec dbs)).val := fun sha256 => by
      rw [rdbSave, List.take_of_length_le hsize]
    refine ⟨hdigest, fun sha256 => ?_⟩
    rw [hdigest]
    have hfit : ∀ src ∈ dbs, Fits stringCodec decodeValue src := fun src hs =>
      ⟨hkey src hs, fits_small hsize hs (hval src hs) fun _ he => he⟩
    exact ⟨_, rdbLoad_small hid hfit hsize⟩

/-- A database with a number for its one value. -/
def oneDb : RdbDb where
  id := 0
  entries := [(bytes "k", .int 5)]
  expires := ∅
  nodup := by decide

theorem checksum_ok_one : Checks (List.replicate 16 dbInit) [oneDb] :=
  (checksum_ok (by decide) (by
    intro src hs e he
    rw [List.mem_singleton.mp hs] at he
    rw [List.mem_singleton.mp he]
    exact ⟨bytes "5", by decide +kernel, by decide⟩)).mpr (by decide)

/-- A database with a string of letters for its one value. -/
def lettersDb (n : Nat) : RdbDb where
  id := 0
  entries := [(bytes "k", robjCreateStringObject (List.replicate n 97))]
  expires := ∅
  nodup := by simp

theorem letters_ne_zero (n : Nat) : ∀ b ∈ List.replicate n (97 : UInt8), b ≠ 0 := fun b hb => by
  rw [List.eq_of_mem_replicate hb]
  decide

theorem lettersDb_stored (n : Nat) : ∀ src ∈ [lettersDb n], ∀ e ∈ src.entries, Stored e.2 := by
  intro src hs e he
  rw [List.mem_singleton.mp hs] at he
  rw [List.mem_singleton.mp he]
  exact ⟨List.replicate n 97, letters_ne_zero n, rfl⟩

theorem string2l_letters (n : Nat) : string2l (List.replicate n 97) = none := by
  cases n with
  | zero => rfl
  | succ n =>
    rw [string2l, cstr_eq_self (letters_ne_zero (n + 1)), List.replicate_succ]
    rfl

theorem length_lettersDb (n : Nat) : n ≤ (rdbBody stringCodec [lettersDb n]).length := by
  have h := length_entry_le (c := stringCodec) (List.mem_singleton_self (lettersDb n))
    (List.mem_singleton_self (bytes "k", robjCreateStringObject (List.replicate n 97)))
  have hsave : stringCodec.save (robjCreateStringObject (List.replicate n 97)) =
      rdbSaveLen (List.replicate n (97 : UInt8)).length ++ List.replicate n 97 :=
    saved_string (letters_ne_zero n) (string2l_letters n)
  rw [rdbSaveEntry, hsave] at h
  simp only [List.length_append, List.length_cons, List.length_replicate] at h
  omega

/-- The digest of a longer file leaves its end out. -/
theorem long_body_unchecked : ¬ ∀ (server : List RedisDb) (dbs : List RdbDb),
    (∀ src ∈ dbs, src.id < server.length) → (∀ src ∈ dbs, ∀ e ∈ src.entries, Stored e.2) →
      Checks server dbs := by
  intro h
  have hchecks := h (List.replicate 16 dbInit) [lettersDb 5000] (by decide) (lettersDb_stored 5000)
  exact absurd ((length_lettersDb 5000).trans (digest_small hchecks.digest)) (by decide)

end Fedis.Proof.Rdb

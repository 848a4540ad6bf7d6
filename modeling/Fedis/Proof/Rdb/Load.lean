import Fedis.Impl.Load
import Fedis.Proof.Rdb.Stream

/-!
# Where the record loop of `rdbLoad` ends

A read takes the bytes of a grammar, or it stops at the end of the file. There the loop goes on:
the type that it does not read may be that of a string as often as one likes.

* `rdbLoadLen_cases`, `rdbLoadKey_cases`, `value_cases`: the grammar of each reader (`Len`,
  `Key`, `StringValue`), and what is left of a cut file;
* `turn_whole`, `turn_cases`: a turn reads an item (`Item`), whatever is unset, or it leaves the
  loop, or it stops at the end;
* `loop_runs_on`: behind the end the loop has no end of its own;
* `load_ends_iff`: it ends iff the items of the file lead to an opcode that ends it (`Closes`).
-/

namespace Fedis.Proof.Rdb

open Framework Server

variable {a t bs : Bytes} {u : Unset} {m : Nat → Unset} {l l' : RdbLoader} {type : UInt8}
  {n i id id' dbnum : Nat}

/-! ## Reads -/

/-- The file is read to its end. -/
def AtEnd (l : RdbLoader) : Prop := ∃ a id, l.fp = fileAt a [] ∧ l.dbid = some id

theorem fread_end (a : Bytes) (n : Nat) : fread (fileAt a []) n = ([], fileAt a []) := by
  simp [fread, fileAt]

/-- `fread` reads all it is to read, or the rest of the file. -/
theorem fread_cases (a t : Bytes) (n : Nat) :
    (∃ bs t', bs.length = n ∧ t = bs ++ t' ∧ fread (fileAt a t) n = (bs, fileAt (a ++ bs) t')) ∨
      (t.length < n ∧ fread (fileAt a t) n = (t, fileAt (a ++ t) [])) := by
  by_cases h : n ≤ t.length
  · left
    have hlen : (t.take n).length = n := List.length_take_of_le h
    have hread := fread_fileAt a (t.take n) (t.drop n)
    rw [hlen, List.take_append_drop] at hread
    exact ⟨_, _, hlen, (List.take_append_drop n t).symm, hread⟩
  · right
    have htake : t.take n = t := List.take_of_length_le (by omega)
    refine ⟨by omega, ?_⟩
    simp [fread, fileAt, htake]

theorem freadInto_whole (mem : Nat → UInt8) (a bs t : Bytes) :
    freadInto mem (fileAt a (bs ++ t)) bs.length = (bs, fileAt (a ++ bs) t) := by
  rw [freadInto, fread_fileAt, Nat.sub_self, List.range'_zero, List.map_nil, List.append_nil]

/-- What is read into memory ends where `fread` does. -/
theorem freadInto_snd (mem : Nat → UInt8) (fp : File) (n : Nat) :
    (freadInto mem fp n).2 = (fread fp n).2 := rfl

/-- The encodings of a length, among them the first bytes of none, which stand for 0. -/
inductive Len : Nat → Bytes → Prop
  | one (b : UInt8) (h : b &&& 0xC0 = 0) : Len (b &&& 0x3F).toNat [b]
  | two (b b' : UInt8) (h : b &&& 0xC0 = 0x80) : Len ((b &&& 0x3F).toNat * 256 + b'.toNat) [b, b']
  | four (bs : Bytes) (h : bs.length = 4) : Len (leVal bs) (0xFE :: bs)
  | none (b : UInt8) (h : b &&& 0xC0 ≠ 0) (h' : b &&& 0xC0 ≠ 0x80) (hb : b ≠ 0xFE) : Len 0 [b]

theorem rdbLoadLen_whole (h : Len n bs) (a t : Bytes) :
    rdbLoadLen (fileAt a (bs ++ t)) = (n, fileAt (a ++ bs) t) := by
  cases h with
  | one b h =>
    rw [List.singleton_append, rdbLoadLen, fread_one]
    simp only [h, if_true]
  | two b b' h =>
    rw [List.cons_append, List.singleton_append, rdbLoadLen, fread_one]
    simp only [h, fread_one, if_neg (by decide : ¬ (0x80 : UInt8) = 0), if_true]
    rw [List.append_assoc, List.singleton_append]
  | four bs h =>
    have hread := fread_fileAt (a ++ [0xFE]) bs t
    rw [h] at hread
    rw [List.cons_append, rdbLoadLen, fread_one]
    simp only [if_neg (by decide : ¬ (0xFE &&& 0xC0 : UInt8) = 0),
      if_neg (by decide : ¬ (0xFE &&& 0xC0 : UInt8) = 0x80), if_true, hread, h]
    rw [List.append_assoc, List.singleton_append]
  | none b h h' hb =>
    rw [List.singleton_append, rdbLoadLen, fread_one]
    simp only [if_neg h, if_neg h', if_neg hb]

theorem rdbLoadLen_cases (a t : Bytes) : (∃ n bs t', Len n bs ∧ t = bs ++ t') ∨
    rdbLoadLen (fileAt a t) = (0, fileAt (a ++ t) []) := by
  cases t with
  | nil =>
    right
    rw [rdbLoadLen, fread_end, List.append_nil]
  | cons b t =>
    by_cases h : b &&& 0xC0 = 0
    · exact .inl ⟨_, [b], t, .one b h, rfl⟩
    by_cases h' : b &&& 0xC0 = 0x80
    · cases t with
      | nil =>
        right
        rw [rdbLoadLen, fread_one]
        simp only [if_neg h, if_pos h', fread_end]
      | cons b' t => exact .inl ⟨_, [b, b'], t, .two b b' h', rfl⟩
    by_cases hb : b = 0xFE
    · subst hb
      obtain ⟨bs, t', hlen, rfl, -⟩ | ⟨hlen, hread⟩ := fread_cases (a ++ [0xFE]) t 4
      · exact .inl ⟨_, 0xFE :: bs, t', .four bs hlen, rfl⟩
      · right
        rw [rdbLoadLen, fread_one]
        simp only [if_neg h, if_neg h', if_true, hread, if_neg (Nat.ne_of_lt hlen)]
        rw [List.append_assoc, List.singleton_append]
    · exact .inl ⟨0, [b], t, .none b h h' hb, rfl⟩

theorem Len.ne_nil (h : Len n bs) : bs ≠ [] := by
  cases h <;> exact List.cons_ne_nil _ _

/-! ## Keys -/

/-- The encoding of a key that fits the buffer. -/
inductive Key : Bytes → Prop
  | mk (len key : Bytes) (hl : Len key.length len) (hk : key.length ≤ 1024) : Key (len ++ key)

theorem rdbLoadKey_whole (h : Key bs) (a t : Bytes) :
    ∃ key, rdbLoadKey (fileAt a (bs ++ t)) = .ok (key, fileAt (a ++ bs) t) := by
  obtain ⟨len, key, hl, hk⟩ := h
  refine ⟨key, ?_⟩
  rw [rdbLoadKey, List.append_assoc, rdbLoadLen_whole hl]
  dsimp only
  rw [fread_fileAt, if_neg (Nat.not_lt.mpr hk), List.append_assoc]

theorem rdbLoadKey_cases (a t : Bytes) : (∃ bs t', Key bs ∧ t = bs ++ t') ∨
    rdbLoadKey (fileAt a t) = .error .undefined ∨
      ∃ key, rdbLoadKey (fileAt a t) = .ok (key, fileAt (a ++ t) []) := by
  obtain ⟨n, len, t', hl, rfl⟩ | hread := rdbLoadLen_cases a t
  · have hkey : rdbLoadKey (fileAt a (len ++ t')) = if 1024 < (fread (fileAt (a ++ len) t') n).1.length
        then .error .undefined else .ok (fread (fileAt (a ++ len) t') n) := by
      rw [rdbLoadKey, rdbLoadLen_whole hl]
    rw [hkey]
    split
    · exact .inr (.inl rfl)
    · rename_i hfit
      obtain ⟨key, t'', rfl, rfl, hread⟩ | ⟨-, hread⟩ := fread_cases (a ++ len) t' n
      · rw [hread] at hfit
        exact .inl ⟨len ++ key, t'', .mk len key hl (by simpa using hfit), by rw [List.append_assoc]⟩
      · exact .inr (.inr ⟨t', by rw [hread, List.append_assoc]⟩)
  · refine .inr (.inr ⟨[], ?_⟩)
    rw [rdbLoadKey, hread]
    dsimp only
    rw [fread_end, if_neg (by simp)]

/-! ## Values -/

/-- The encoding of a string value. -/
inductive StringValue : Bytes → Prop
  | int (enc : UInt8) (val : Bytes)
      (h : (enc, val.length) ∈ [(RDB_ENC_INT8, 1), (RDB_ENC_INT16, 2), (RDB_ENC_INT32, 4)]) :
      StringValue (enc :: val)
  | string (len str : Bytes) (hl : Len str.length len)
      (hc : ∀ b ∈ len.head?, b ∉ [RDB_ENC_INT8, RDB_ENC_INT16, RDB_ENC_INT32])
      (hs : str.length + 1 ≠ 2 ^ 32) : StringValue (len ++ str)

theorem fseekBack_fileAt (a : Bytes) (b : UInt8) (t : Bytes) :
    fseekBack (fileAt (a ++ [b]) t) = fileAt a (b :: t) := by
  simp [fseekBack, fileAt]

/-- A value behind its first byte, when that is no marker of a number. -/
theorem value_string {b : UInt8} (hc : b ∉ [RDB_ENC_INT8, RDB_ENC_INT16, RDB_ENC_INT32])
    (u : Unset) (a t : Bytes) : rdbLoadStringObjectWith u (fileAt a (b :: t)) =
      let len := rdbLoadLen (fileAt a (b :: t))
      if len.1 + 1 = 2 ^ 32 then .error .undefined
      else .ok (robjCreateStringObject (freadInto u.mem len.2 len.1).1, (fread len.2 len.1).2) := by
  simp only [List.mem_cons, List.not_mem_nil, or_false, not_or] at hc
  obtain ⟨h8, h16, h32⟩ := hc
  rw [rdbLoadStringObjectWith, fread_one]
  dsimp only
  rw [List.headD_cons, if_neg h8, if_neg h16, if_neg h32, fseekBack_fileAt]
  rfl

/-- The width of the number behind a marker. -/
theorem marker_size {b : UInt8} (hc : b ∈ [RDB_ENC_INT8, RDB_ENC_INT16, RDB_ENC_INT32]) :
    ∃ n, (b, n) ∈ [(RDB_ENC_INT8, 1), (RDB_ENC_INT16, 2), (RDB_ENC_INT32, 4)] := by
  simp only [List.mem_cons, List.not_mem_nil, or_false] at hc
  obtain rfl | rfl | rfl := hc
  · exact ⟨1, by decide⟩
  · exact ⟨2, by decide⟩
  · exact ⟨4, by decide⟩

/-- A value behind the marker of a number. -/
theorem value_int {b : UInt8}
    (h : (b, n) ∈ [(RDB_ENC_INT8, 1), (RDB_ENC_INT16, 2), (RDB_ENC_INT32, 4)]) (u : Unset) (fp : File)
    (hb : (fread fp 1).1.headD u.code = b) :
    ∃ v, rdbLoadStringObjectWith u fp = .ok (v, (fread (fread fp 1).2 n).2) := by
  rw [rdbLoadStringObjectWith]
  dsimp only
  rw [hb]
  simp only [List.mem_cons, Prod.mk.injEq, List.not_mem_nil, or_false] at h
  obtain ⟨rfl, rfl⟩ | ⟨rfl, rfl⟩ | ⟨rfl, rfl⟩ := h
  · rw [if_pos rfl]
    exact ⟨_, rfl⟩
  · rw [if_neg (by decide), if_pos rfl]
    exact ⟨_, rfl⟩
  · rw [if_neg (by decide), if_neg (by decide), if_pos rfl]
    exact ⟨_, rfl⟩

theorem value_whole (h : StringValue bs) (u : Unset) (a t : Bytes) :
    ∃ v, rdbLoadStringObjectWith u (fileAt a (bs ++ t)) = .ok (v, fileAt (a ++ bs) t) := by
  cases h with
  | int enc val h =>
    obtain ⟨v, hv⟩ := value_int h u (fileAt a (enc :: (val ++ t))) (by rw [fread_one]; rfl)
    refine ⟨v, ?_⟩
    rw [List.cons_append, hv, fread_one]
    dsimp only
    rw [fread_fileAt, List.append_assoc, List.singleton_append]
  | string len str hl hc hs =>
    obtain ⟨b, len, rfl⟩ := List.exists_cons_of_ne_nil hl.ne_nil
    refine ⟨robjCreateStringObject str, ?_⟩
    have hlen := rdbLoadLen_whole hl a (str ++ t)
    rw [List.append_assoc, List.cons_append, value_string (hc b rfl), ← List.cons_append, hlen]
    dsimp only
    rw [if_neg hs, freadInto_whole, fread_fileAt, List.append_assoc]

/-- What is unset when the loop finds one string after another behind the end of the file. -/
def endless : Unset := ⟨RDB_TYPE_STRING, RDB_ENC_INT8, fun _ => 0, .int 0⟩

theorem value_end (a : Bytes) :
    ∃ v, rdbLoadStringObjectWith endless (fileAt a []) = .ok (v, fileAt a []) := by
  obtain ⟨v, hv⟩ := value_int (b := RDB_ENC_INT8) (n := 1) (by decide) endless (fileAt a []) (by
    rw [fread_end]
    rfl)
  exact ⟨v, by rw [hv, fread_end, fread_end]⟩

theorem string_cases {b : UInt8} (hc : b ∉ [RDB_ENC_INT8, RDB_ENC_INT16, RDB_ENC_INT32])
    (u : Unset) (a t : Bytes) : (∃ bs t', StringValue bs ∧ b :: t = bs ++ t') ∨
      rdbLoadStringObjectWith u (fileAt a (b :: t)) = .error .undefined ∨
      ∃ v, rdbLoadStringObjectWith u (fileAt a (b :: t)) = .ok (v, fileAt (a ++ b :: t) []) := by
  rw [value_string hc]
  obtain ⟨n, len, t', hl, e⟩ | hread := rdbLoadLen_cases a (b :: t)
  · rw [e, rdbLoadLen_whole hl]
    dsimp only
    split
    · exact .inr (.inl rfl)
    · rename_i hs
      obtain ⟨str, t'', rfl, rfl, -⟩ | ⟨-, hread⟩ := fread_cases (a ++ len) t' n
      · refine .inl ⟨len ++ str, t'', .string len str hl ?_ hs, by rw [List.append_assoc]⟩
        obtain ⟨b', len, rfl⟩ := List.exists_cons_of_ne_nil hl.ne_nil
        obtain ⟨rfl, -⟩ := List.cons.inj e
        rintro x ⟨⟩
        exact hc
      · exact .inr (.inr ⟨_, by rw [hread, List.append_assoc]⟩)
  · rw [hread]
    dsimp only
    rw [fread_end, if_neg (by decide)]
    exact .inr (.inr ⟨_, rfl⟩)

theorem value_cases (a t : Bytes) : (∃ bs t', StringValue bs ∧ t = bs ++ t') ∨
    rdbLoadStringObjectWith endless (fileAt a t) = .error .undefined ∨
      ∃ v, rdbLoadStringObjectWith endless (fileAt a t) = .ok (v, fileAt (a ++ t) []) := by
  cases t with
  | nil =>
    rw [List.append_nil]
    exact .inr (.inr (value_end a))
  | cons b t =>
    by_cases hc : b ∈ [RDB_ENC_INT8, RDB_ENC_INT16, RDB_ENC_INT32]
    · obtain ⟨n, hn⟩ := marker_size hc
      obtain ⟨v, hv⟩ := value_int hn endless (fileAt a (b :: t)) (by rw [fread_one]; rfl)
      rw [fread_one] at hv
      obtain ⟨val, t', hlen, rfl, hread⟩ | ⟨-, hread⟩ := fread_cases (a ++ [b]) t n
      · exact .inl ⟨b :: val, t', .int b val (by rwa [hlen]), rfl⟩
      · refine .inr (.inr ⟨v, ?_⟩)
        rw [hv, hread, List.append_assoc, List.singleton_append]
    · exact string_cases hc endless a t

/-- What `_rdbLoadObject` reads: the encoding of a string, and nothing for another type. -/
def Object (type : UInt8) (bs : Bytes) : Prop := if type = RDB_TYPE_STRING then StringValue bs else bs = []

theorem object_whole (h : Object type bs) (u : Unset) (a t : Bytes) :
    ∃ v, (unsetCodec u).load type (fileAt a (bs ++ t)) = .ok (v, fileAt (a ++ bs) t) := by
  dsimp only [unsetCodec]
  unfold Object at h
  split at h
  · rename_i ht
    rw [if_pos ht]
    exact value_whole h u a t
  · rename_i ht
    rw [if_neg ht, h, List.nil_append, List.append_nil]
    exact ⟨_, rfl⟩

theorem object_cases (type : UInt8) (a t : Bytes) : (∃ bs t', Object type bs ∧ t = bs ++ t') ∨
    (unsetCodec endless).load type (fileAt a t) = .error .undefined ∨
      ∃ v, (unsetCodec endless).load type (fileAt a t) = .ok (v, fileAt (a ++ t) []) := by
  dsimp only [unsetCodec]
  unfold Object
  split
  · exact value_cases a t
  · exact .inl ⟨[], t, rfl, rfl⟩

theorem object_end (type : UInt8) (a : Bytes) :
    ∃ v, (unsetCodec endless).load type (fileAt a []) = .ok (v, fileAt a []) := by
  dsimp only [unsetCodec]
  split
  · exact value_end a
  · exact ⟨_, rfl⟩

/-! ## Turns -/

/-- The bytes of a whole turn but the last, with the database that is selected before it and
after it. -/
inductive Item (dbnum id : Nat) : Bytes → Nat → Prop
  | selectdb (dbid : UInt8) (h : dbid.toNat ≤ dbnum) : Item dbnum id [RDB_SELECTDB, dbid] dbid.toNat
  | expiretime (bs : Bytes) (h : bs.length = 8) : Item dbnum id (RDB_EXPIRETIME :: bs) id
  | record (type : UInt8) (key val : Bytes)
      (ht : type ∉ [RDB_EOF, RDB_SELECTDB, RDB_EXPIRETIME]) (hid : id < dbnum) (hk : Key key)
      (hv : Object type val) : Item dbnum id (type :: (key ++ val)) id

/-- The bytes lead, item by item, to an opcode that ends the loop: `RDB_EOF`, or
`RDB_SELECTDB` with a number that is too large. At the end of the file the number is that of
before. -/
inductive Closes (dbnum : Nat) : Nat → Bytes → Prop
  | eof (id : Nat) (t : Bytes) : Closes dbnum id (RDB_EOF :: t)
  | exit (id : Nat) (t : Bytes) (h : dbnum < (t.head?.map UInt8.toNat).getD id) :
      Closes dbnum id (RDB_SELECTDB :: t)
  | item {id id' : Nat} {bs t : Bytes} (h : Item dbnum id bs id') (ht : Closes dbnum id' t) :
      Closes dbnum id (bs ++ t)

/-- The loop is left, or the program exits. -/
def Ends (r : Option (Except Fault RdbLoader)) : Prop :=
  (∃ l, r = some (.ok l)) ∨ r = some (.error .abort)

/-- The record goes to the database that is selected. -/
theorem record_with (ht : type ∉ [RDB_EOF, RDB_SELECTDB, RDB_EXPIRETIME]) (hid : l.dbid = some id)
    {key : Bytes × File} {val : Robj × File} (hk : rdbLoadKey l.fp = .ok key)
    (hv : (unsetCodec u).load type key.2 = .ok val) :
    if id < l.db.length then ∃ l', rdbLoadTurnWith u type l = .ok l' ∧
        l'.db.length = l.db.length ∧ l'.dbid = some id ∧ l'.fp = val.2
      else rdbLoadTurnWith u type l = .error .undefined := by
  simp only [List.mem_cons, List.not_mem_nil, or_false, not_or] at ht
  obtain ⟨-, hs, he⟩ := ht
  rw [rdbLoadTurnWith, if_neg hs, if_neg he, rdbLoadRecord, hk, ok_bind, hv, ok_bind, hid]
  dsimp only
  split
  · rename_i hlt
    rw [List.getElem?_eq_getElem hlt]
    dsimp only
    split <;> exact ⟨_, rfl, List.length_set, rfl, rfl⟩
  · rename_i hge
    rw [List.getElem?_eq_none (Nat.not_lt.mp hge)]

/-- A whole item is read to its end, whatever is unset. -/
theorem turn_whole (h : Item dbnum id bs id') : ∃ type rest, bs = type :: rest ∧ type ≠ RDB_EOF ∧
    ∀ u a t l, l.fp = fileAt a (rest ++ t) → l.dbid = some id → l.db.length = dbnum →
      ∃ l', rdbLoadTurnWith u type l = .ok l' ∧ l'.fp = fileAt (a ++ rest) t ∧
        l'.dbid = some id' ∧ l'.db.length = dbnum := by
  cases h with
  | selectdb dbid h =>
    refine ⟨_, _, rfl, by decide, fun u a t l hfp hid hdb => ?_⟩
    rw [rdbLoadTurnWith, if_pos rfl, hfp, List.singleton_append, fread_one]
    refine ⟨_, if_neg ?_, rfl, rfl, hdb⟩
    rw [hdb]
    exact Nat.not_lt.mpr h
  | expiretime bs h =>
    refine ⟨_, _, rfl, by decide, fun u a t l hfp hid hdb => ?_⟩
    have hread := freadInto_whole (fun i => (leInt 8 l.expire).getD i 0) a bs t
    rw [h] at hread
    rw [rdbLoadTurnWith, if_neg (by decide), if_pos rfl, hfp, hread]
    exact ⟨_, rfl, rfl, hid, hdb⟩
  | record type key val ht hlt hk hv =>
    refine ⟨_, _, rfl, fun e => ht (by simp [e]), fun u a t l hfp hid hdb => ?_⟩
    obtain ⟨key', hkey⟩ := rdbLoadKey_whole hk a (val ++ t)
    obtain ⟨v, hval⟩ := object_whole hv u (a ++ key) t
    rw [← List.append_assoc, ← hfp] at hkey
    have hturn := record_with ht hid hkey hval
    rw [if_pos (by rwa [hdb])] at hturn
    obtain ⟨l', h, hlen, hid', hfp'⟩ := hturn
    exact ⟨l', h, by rw [hfp', List.append_assoc], hid', hlen.trans hdb⟩

/-- A record that is not whole, or that has no database. -/
theorem record_cases (ht : type ∉ [RDB_EOF, RDB_SELECTDB, RDB_EXPIRETIME]) (hid : l.dbid = some id)
    (hfp : l.fp = fileAt a t) :
    (∃ bs t', Item l.db.length id bs id ∧ type :: t = bs ++ t') ∨
      rdbLoadTurnWith endless type l = .error .undefined ∨
      ∃ l', rdbLoadTurnWith endless type l = .ok l' ∧ AtEnd l' := by
  have herror : ∀ e, rdbLoadRecord (unsetCodec endless) type l = .error e →
      rdbLoadTurnWith endless type l = .error e := by
    intro e h
    simp only [List.mem_cons, List.not_mem_nil, or_false, not_or] at ht
    rw [rdbLoadTurnWith, if_neg ht.2.1, if_neg ht.2.2, h]
  have hend : ∀ {key val}, rdbLoadKey l.fp = .ok key → (unsetCodec endless).load type key.2 = .ok val →
      AtEnd { l with fp := val.2 } → rdbLoadTurnWith endless type l = .error .undefined ∨
        ∃ l', rdbLoadTurnWith endless type l = .ok l' ∧ AtEnd l' := by
    intro key val hk hv he
    have hturn := record_with ht hid hk hv
    split at hturn
    · obtain ⟨l', h, -, hid', hfp'⟩ := hturn
      obtain ⟨a, -, ha, -⟩ := he
      exact .inr ⟨l', h, a, id, hfp'.trans ha, hid'⟩
    · exact .inl hturn
  obtain ⟨key, t', hkey, rfl⟩ | hkey | ⟨key, hkey⟩ := rdbLoadKey_cases a t
  · obtain ⟨key', hread⟩ := rdbLoadKey_whole hkey a t'
    rw [← hfp] at hread
    obtain ⟨val, t'', hval, rfl⟩ | hval | ⟨v, hval⟩ := object_cases type (a ++ key) t'
    · by_cases hlt : id < l.db.length
      · exact .inl ⟨_, t'', .record type key val ht hlt hkey hval, by simp⟩
      · obtain ⟨v, hv⟩ := object_whole hval endless (a ++ key) t''
        have hturn := record_with ht hid hread hv
        rw [if_neg hlt] at hturn
        exact .inr (.inl hturn)
    · refine .inr (.inl (herror _ ?_))
      rw [rdbLoadRecord, hread, ok_bind, hval, error_bind]
    · exact .inr (hend hread hval ⟨_, id, rfl, hid⟩)
  · refine .inr (.inl (herror _ ?_))
    rw [rdbLoadRecord, hfp, hkey, error_bind]
  · rw [← hfp] at hkey
    obtain ⟨v, hval⟩ := object_end type (a ++ t)
    exact .inr (hend hkey hval ⟨_, id, rfl, hid⟩)

/-- A turn whose values are unset as in `endless` reads a whole item, or a number that is too
large, or is undefined, or reads the file to its end. -/
theorem turn_cases (ht : type ≠ RDB_EOF) (hid : l.dbid = some id) (hfp : l.fp = fileAt a t) :
    (∃ bs t' id', Item l.db.length id bs id' ∧ type :: t = bs ++ t') ∨
      (type = RDB_SELECTDB ∧ l.db.length < (t.head?.map UInt8.toNat).getD id) ∨
      rdbLoadTurnWith endless type l = .error .undefined ∨
      ∃ l', rdbLoadTurnWith endless type l = .ok l' ∧ AtEnd l' := by
  by_cases hs : type = RDB_SELECTDB
  · subst hs
    by_cases hlt : l.db.length < (t.head?.map UInt8.toNat).getD id
    · exact .inr (.inl ⟨rfl, hlt⟩)
    · cases t with
      | nil =>
        refine .inr (.inr (.inr ?_))
        rw [rdbLoadTurnWith, if_pos rfl, hfp, fread_end, hid]
        exact ⟨_, if_neg hlt, a, id, rfl, rfl⟩
      | cons dbid t => exact .inl ⟨_, t, _, .selectdb dbid (Nat.not_lt.mp hlt), rfl⟩
  by_cases he : type = RDB_EXPIRETIME
  · subst he
    obtain ⟨bs, t', hlen, rfl, -⟩ | ⟨-, hread⟩ := fread_cases a t 8
    · exact .inl ⟨_, t', id, .expiretime bs hlen, rfl⟩
    · refine .inr (.inr (.inr ?_))
      rw [rdbLoadTurnWith, if_neg (by decide), if_pos rfl]
      refine ⟨_, rfl, a ++ t, id, ?_, hid⟩
      rw [freadInto_snd, hfp, hread]
  · have htype : type ∉ [RDB_EOF, RDB_SELECTDB, RDB_EXPIRETIME] := by simp [ht, hs, he]
    obtain ⟨bs, t', hitem⟩ | hturn := record_cases htype hid hfp
    · exact .inl ⟨bs, t', id, hitem⟩
    · exact .inr (.inr hturn)

/-! ## The loop -/

/-- A turn on a type that is read. -/
theorem loop_type (hfp : l.fp = fileAt a (type :: t)) (ht : type ≠ RDB_EOF) :
    rdbLoadLoopWith m (n + 1) i l =
      match rdbLoadTurnWith (m i) type { l with fp := fileAt (a ++ [type]) t } with
      | .error e => some (.error e)
      | .ok l => rdbLoadLoopWith m n (i + 1) l := by
  rw [rdbLoadLoopWith, hfp, fread_one]
  dsimp only
  rw [List.headD_cons]
  exact if_neg ht

/-- A turn behind the end of the file. -/
theorem loop_turn (hfp : l.fp = fileAt a []) :
    rdbLoadLoopWith (fun _ => endless) (n + 1) i l =
      match rdbLoadTurnWith endless RDB_TYPE_STRING l with
      | .error e => some (.error e)
      | .ok l => rdbLoadLoopWith (fun _ => endless) n (i + 1) l := by
  rw [rdbLoadLoopWith, hfp, fread_end]
  dsimp only
  rw [List.headD_nil, if_neg (by decide), ← hfp]
  rfl

/-- Behind the end of the file the loop finds one string after another. -/
theorem turn_end (hfp : l.fp = fileAt a []) (hid : l.dbid = some id) :
    if id < l.db.length then ∃ l', rdbLoadTurnWith endless RDB_TYPE_STRING l = .ok l' ∧
        l'.db.length = l.db.length ∧ l'.dbid = some id ∧ l'.fp = fileAt a []
      else rdbLoadTurnWith endless RDB_TYPE_STRING l = .error .undefined := by
  obtain ⟨v, hval⟩ := object_end RDB_TYPE_STRING a
  have hkey : rdbLoadKey l.fp = .ok ([], fileAt a []) := by
    rw [hfp, rdbLoadKey, rdbLoadLen, fread_end]
    simp [fread_end]
  exact record_with (by decide) hid hkey hval

theorem loop_runs_on (n : Nat) : ∀ {i l}, l.fp = fileAt a [] → l.dbid = some id →
    id < l.db.length → rdbLoadLoopWith (fun _ => endless) n i l = none := by
  induction n with
  | zero => exact fun _ _ _ => rfl
  | succ n ih =>
    intro i l hfp hid hlt
    have hturn := turn_end hfp hid
    rw [if_pos hlt] at hturn
    obtain ⟨l', h, hlen, hid', hfp'⟩ := hturn
    rw [loop_turn hfp, h]
    exact ih hfp' hid' (by rwa [hlen])

theorem not_ends_none : ¬ Ends none := by
  rintro (⟨l, h⟩ | h) <;> cases h

theorem not_ends_undefined : ¬ Ends (some (.error .undefined)) := by
  rintro (⟨l, h⟩ | h) <;> cases h

theorem not_ends_end (h : AtEnd l) : ¬ Ends (rdbLoadLoopWith (fun _ => endless) n i l) := by
  obtain ⟨a, id, hfp, hid⟩ := h
  by_cases hlt : id < l.db.length
  · rw [loop_runs_on n hfp hid hlt]
    exact not_ends_none
  · cases n with
    | zero => exact not_ends_none
    | succ n =>
      have hturn := turn_end hfp hid
      rw [if_neg hlt] at hturn
      rw [loop_turn hfp, hturn]
      exact not_ends_undefined

theorem Item.length_pos (h : Item dbnum id bs id') : 0 < bs.length := by
  cases h <;> exact Nat.succ_pos _

/-- The loop reads a whole item in one turn, whatever is unset. -/
theorem loop_item (h : Item l.db.length id bs id') (hfp : l.fp = fileAt a (bs ++ t))
    (hid : l.dbid = some id) :
    ∃ l', l'.fp = fileAt (a ++ bs) t ∧ l'.dbid = some id' ∧ l'.db.length = l.db.length ∧
      ∀ n, rdbLoadLoopWith m (n + 1) i l = rdbLoadLoopWith m n (i + 1) l' := by
  obtain ⟨type, rest, rfl, ht, hturn⟩ := turn_whole h
  obtain ⟨l', hl', hfp', hid', hdb'⟩ := hturn (m i) (a ++ [type]) t
    { l with fp := fileAt (a ++ [type]) (rest ++ t) } rfl hid rfl
  rw [List.cons_append] at hfp
  refine ⟨l', ?_, hid', hdb', fun n => ?_⟩
  · rw [hfp', List.append_assoc, List.singleton_append]
  · rw [loop_type hfp ht, hl']

/-- A file whose items close is loaded, or exits, in no more turns than it has bytes. -/
theorem Closes.ends (h : Closes dbnum id t) : ∀ {a n i l}, l.fp = fileAt a t → l.dbid = some id →
    l.db.length = dbnum → t.length ≤ n → Ends (rdbLoadLoopWith m n i l) := by
  induction h with
  | eof id t =>
    intro a n i l hfp hid hdb hn
    obtain ⟨n, rfl⟩ := Nat.exists_eq_add_of_le' (Nat.le_trans (Nat.succ_pos _) hn)
    rw [rdbLoadLoopWith, hfp, fread_one]
    exact .inl ⟨_, if_pos rfl⟩
  | exit id t h =>
    intro a n i l hfp hid hdb hn
    obtain ⟨n, rfl⟩ := Nat.exists_eq_add_of_le' (Nat.le_trans (Nat.succ_pos _) hn)
    have hturn : rdbLoadTurnWith (m i) RDB_SELECTDB { l with fp := fileAt (a ++ [RDB_SELECTDB]) t } =
        .error .abort := by
      rw [rdbLoadTurnWith, if_pos rfl, hid]
      refine if_pos ?_
      rw [hdb]
      cases t with
      | nil =>
        rw [fread_end]
        exact h
      | cons dbid t =>
        rw [fread_one]
        exact h
    rw [loop_type hfp (by decide), hturn]
    exact .inr rfl
  | item h ht ih =>
    intro a n i l hfp hid hdb hn
    subst hdb
    rw [List.length_append] at hn
    have hpos := h.length_pos
    obtain ⟨n, rfl⟩ := Nat.exists_eq_add_of_le' (show 1 ≤ n by omega)
    obtain ⟨l', hfp', hid', hdb', hloop⟩ := loop_item h hfp hid
    rw [hloop]
    exact ih hfp' hid' hdb' (by omega)

/-- The loop ends by itself, behind an endless file, only if the items of the file close. -/
theorem closes_of_ends (n : Nat) : ∀ {a t id i l}, l.fp = fileAt a t → l.dbid = some id →
    Ends (rdbLoadLoopWith (fun _ => endless) n i l) → Closes l.db.length id t := by
  induction n with
  | zero => exact fun _ _ h => absurd h not_ends_none
  | succ n ih =>
    intro a t id i l hfp hid h
    cases t with
    | nil => exact absurd h (not_ends_end ⟨a, id, hfp, hid⟩)
    | cons type t =>
      by_cases ht : type = RDB_EOF
      · subst ht
        exact .eof id t
      have hloop := loop_type (m := fun _ => endless) (n := n) (i := i) hfp ht
      obtain ⟨bs, t', id', hitem, e⟩ | ⟨rfl, hlt⟩ | hturn | ⟨l', hturn, hend⟩ :=
        turn_cases (l := { l with fp := fileAt (a ++ [type]) t }) ht hid rfl
      · have hitem : Item l.db.length id bs id' := hitem
        rw [e] at hfp ⊢
        obtain ⟨l', hfp', hid', hdb', hloop⟩ := loop_item hitem hfp hid
        rw [hloop] at h
        have hcloses := ih hfp' hid' h
        rw [hdb'] at hcloses
        exact .item hitem hcloses
      · exact .exit id t hlt
      · rw [hloop, hturn] at h
        exact absurd h not_ends_undefined
      · rw [hloop, hturn] at h
        exact absurd h (not_ends_end hend)

theorem fread_magic (buf : Nat → UInt8) (file : Bytes) : freadInto buf { data := file, pos := 0 } 9 =
    (file.take 9 ++ (List.range' (file.take 9).length (9 - (file.take 9).length)).map buf,
      fileAt (file.take 9) (file.drop 9)) := by
  simp [freadInto, fread, fileAt]

/-- The rest of the magic may be what is unset. -/
theorem magic_filled (h : bs <+: rdbMagic) : bs ++ (List.range' bs.length (9 - bs.length)).map
    (fun i => rdbMagic.getD i 0) = rdbMagic := by
  have hdrop : (List.range' bs.length (9 - bs.length)).map (fun i => rdbMagic.getD i 0) =
      rdbMagic.drop bs.length := by
    have hlen : rdbMagic.length = 9 := rfl
    refine List.ext_getElem (by simp [hlen]) fun i h₁ h₂ => ?_
    rw [List.length_drop] at h₂
    simp [List.getD_eq_getElem?_getD, List.getElem?_eq_getElem (show bs.length + i < rdbMagic.length by omega)]
  rw [hdrop]
  exact List.prefix_iff_eq_append.mp h

/-- **Loading ends**, whatever is unset, iff the file has another magic, or its whole items lead
to an opcode that ends the loop. It then takes no more turns than the file has bytes. -/
theorem load_ends_iff (db : List RedisDb) (file : Bytes) :
    (∀ buf dbid unset, Ends (rdbLoadWith buf dbid unset db file (file.length + 1))) ↔
      (file.take 9 <+: rdbMagic → ∀ dbid : UInt8, Closes db.length dbid.toNat (file.drop 9)) := by
  unfold rdbLoadWith
  constructor
  · intro h hpre dbid
    have h := h (fun i => rdbMagic.getD i 0) dbid fun _ => endless
    rw [fread_magic] at h
    rw [if_pos (magic_filled hpre)] at h
    exact closes_of_ends _ rfl rfl h
  · intro h buf dbid unset
    dsimp only
    split
    · rename_i hm
      have hpre : file.take 9 <+: rdbMagic := by
        rw [← hm, fread_magic]
        exact List.prefix_append _ _
      have hfp : (freadInto buf { data := file, pos := 0 } 9).2 =
          fileAt (file.take 9) (file.drop 9) := by rw [fread_magic]
      have hlen : (file.drop 9).length ≤ file.length + 1 := by
        rw [List.length_drop]
        omega
      exact (h hpre dbid).ends hfp rfl rfl hlen
    · exact .inl ⟨_, rfl⟩

/-- A file that is cut behind its first number is read without end. -/
theorem cut_load_runs_on : ∃ buf dbid unset, ∀ n, rdbLoadWith buf dbid unset
    (List.replicate 16 dbInit) (rdbMagic ++ [RDB_SELECTDB, 0]) n = none := by
  refine ⟨fun _ => 0, 0, fun _ => endless, fun n => ?_⟩
  unfold rdbLoadWith
  rw [fread_magic]
  dsimp only
  rw [if_pos (by decide)]
  cases n with
  | zero => rfl
  | succ n =>
    obtain ⟨l', hfp, hid, hdb, hloop⟩ := loop_item (m := fun _ => endless) (i := 0)
      (l := { db := List.replicate 16 dbInit, dbid := some 0, expire := 0,
              fp := fileAt rdbMagic [RDB_SELECTDB, 0] }) (.selectdb 0 (by decide)) rfl rfl
    exact (hloop n).trans (loop_runs_on n hfp hid (by rw [hdb]; decide))

end Fedis.Proof.Rdb

import Fedis.Impl.Load
import Fedis.Proof.Server.Basic

/-!
# Files that are loaded

What `rdbLoad` reads without a read that fails, it reads whatever is unset (`value_load`,
`turn_load`, `loop_load`): `rdbLoadWith` takes a file that is loaded to the same databases
(`load_with`).
-/

namespace Fedis.Proof.Rdb

open Framework Server

variable {db db' : List RedisDb} {u : Unset} {m : Nat → Unset} {l l' : RdbLoader} {type : UInt8}
  {n i id dbid : Nat} {fp : File} {r : Bytes × File} {v : Robj × File}

/-! ## Reads -/

theorem robjCreate_congr {s s' : Bytes} (h : cstr s = cstr s') :
    robjCreateStringObject s = robjCreateStringObject s' := by
  simp only [robjCreateStringObject, string2l, createEmbeddedString, createRawString, sdscpy, sdscat,
    sdsnew, h]

/-- What stands behind a NUL is not part of a string. -/
theorem cstr_append_of_mem {s : Bytes} (h : 0 ∈ s) (t : Bytes) : cstr (s ++ t) = cstr s := by
  unfold cstr
  rw [List.takeWhile_append, if_neg]
  intro hlen
  have hall := (List.takeWhile_prefix (· != 0)).eq_of_length hlen
  have hz : (0 : UInt8) ∈ s.takeWhile (· != 0) := by rwa [hall]
  exact absurd (List.mem_takeWhile_imp hz) (by decide)

theorem freadItem_ok :
    freadItem fp n = .ok r ↔ fread fp n = r ∧ r.1.length = n := by
  unfold freadItem
  dsimp only
  split
  · rename_i h
    constructor
    · rintro ⟨⟩
      exact ⟨rfl, h⟩
    · rintro ⟨rfl, -⟩
      rfl
  · rename_i h
    constructor
    · intro e
      cases e
    · rintro ⟨rfl, hr⟩
      exact absurd hr h

theorem freadInto_item (h : freadItem fp n = .ok r) (mem : Nat → UInt8) :
    freadInto mem fp n = r := by
  obtain ⟨rfl, hlen⟩ := freadItem_ok.mp h
  rw [freadInto, hlen, Nat.sub_self, List.range'_zero, List.map_nil, List.append_nil]

theorem number_load (f : Bytes → Robj)
    (h : (do let val ← freadItem fp n; .ok (f val.1, val.2)) = .ok v) (mem : Nat → UInt8) :
    .ok (f (freadInto mem fp n).1, (freadInto mem fp n).2) = (.ok v : Except Fault _) := by
  obtain ⟨val, hval, h⟩ := bind_ok.mp h
  rw [freadInto_item hval]
  exact h

theorem fseekBack_fread (h : (fread fp 1).1.length = 1) : fseekBack (fread fp 1).2 = fp := by
  have hpos : (fread fp 1).2 = { fp with pos := fp.pos + (fread fp 1).1.length } := rfl
  rw [hpos, h]
  rfl

theorem string_load (h : rdbLoadString fp = .ok v) (u : Unset) :
    (let len := rdbLoadLen fp
      if len.1 + 1 = 2 ^ 32 then .error .undefined
      else
        let buf := freadInto u.mem len.2 len.1
        .ok (robjCreateStringObject buf.1, buf.2)) = (.ok v : Except Fault _) := by
  unfold rdbLoadString at h
  dsimp only at h ⊢
  split at h
  · cases h
  · rename_i hs
    rw [not_or, not_and, not_not] at hs
    cases h
    have hobj : robjCreateStringObject (freadInto u.mem (rdbLoadLen fp).2 (rdbLoadLen fp).1).1 =
        robjCreateStringObject (fread (rdbLoadLen fp).2 (rdbLoadLen fp).1).1 := by
      by_cases hlen : (fread (rdbLoadLen fp).2 (rdbLoadLen fp).1).1.length = (rdbLoadLen fp).1
      · rw [freadInto, hlen, Nat.sub_self, List.range'_zero, List.map_nil, List.append_nil]
      · exact robjCreate_congr (cstr_append_of_mem (hs.2 hlen) _)
    rw [if_neg hs.1, hobj]
    rfl

/-- A value that `_rdbLoadStringObject` reads is read, whatever is unset. -/
theorem value_load (h : rdbLoadStringObject fp = .ok v) (u : Unset) :
    rdbLoadStringObjectWith u fp = .ok v := by
  obtain ⟨c, hc, h⟩ := bind_ok.mp h
  obtain ⟨hread, hlen⟩ := freadItem_ok.mp hc
  obtain ⟨b, hb⟩ := List.length_eq_one_iff.mp hlen
  rw [hb] at h
  simp only [List.cons.injEq, and_true] at h
  rw [rdbLoadStringObjectWith, hread]
  dsimp only
  rw [hb, List.headD_cons]
  split at h
  · rename_i h8
    rw [if_pos h8]
    exact number_load (fun bs => robjCreateStringObject (printInt (leVal bs))) h u.mem
  rename_i h8
  rw [if_neg h8]
  split at h
  · rename_i h16
    rw [if_pos h16]
    exact number_load (fun bs => robjCreateStringObject (printInt (signed bs))) h u.mem
  rename_i h16
  rw [if_neg h16]
  split at h
  · rename_i h32
    rw [if_pos h32]
    exact number_load (fun bs => robjCreateStringObject (printInt (signed bs))) h u.mem
  rename_i h32
  rw [if_neg h32, ← hread, fseekBack_fread (by rw [hread, hlen])]
  exact string_load h u

/-- A value of the string type, and only such a one. -/
theorem object_load (h : rdbLoadObject type fp = .ok v) (u : Unset) :
    (unsetCodec u).load type fp = .ok v := by
  unfold rdbLoadObject at h
  dsimp only [unsetCodec]
  split at h
  · rename_i ht
    rw [if_pos ht]
    exact value_load h u
  · cases h

/-- The state with a number of a database. -/
def seen (dbid : Nat) (l : RdbLoader) : RdbLoader := { l with dbid := some (l.dbid.getD dbid) }

theorem seen_eq (h : l.dbid = some id) : seen dbid l = l := by
  rw [seen, h, Option.getD_some, ← h]

/-- A record is applied to the same database. -/
theorem record_load (h : rdbLoadRecord stringCodec type l = .ok l') (u : Unset) :
    rdbLoadRecord (unsetCodec u) type (seen dbid l) = .ok (seen dbid l') := by
  obtain ⟨key, hk, h⟩ := bind_ok.mp h
  obtain ⟨val, hv, h⟩ := bind_ok.mp h
  dsimp only at h
  cases hid : l.dbid with
  | none =>
    rw [hid] at h
    cases h
  | some id =>
    rw [seen_eq hid, rdbLoadRecord, hk, ok_bind, object_load hv, ok_bind]
    rw [hid] at h ⊢
    dsimp only at h ⊢
    cases hdb : l.db[id]? with
    | none =>
      rw [hdb] at h
      cases h
    | some db =>
      rw [hdb] at h
      dsimp only at h ⊢
      split at h
      · rename_i hx
        cases h
        rw [if_pos hx, seen_eq rfl]
      · rename_i hx
        cases h
        rw [if_neg hx, seen_eq rfl]

theorem turn_load (h : rdbLoadTurn stringCodec type l = .ok l') (u : Unset) :
    rdbLoadTurnWith u type (seen dbid l) = .ok (seen dbid l') := by
  unfold rdbLoadTurn at h
  unfold rdbLoadTurnWith
  split at h
  · rename_i hs
    rw [if_pos hs]
    obtain ⟨r, hr, h⟩ := bind_ok.mp h
    obtain ⟨hread, hlen⟩ := freadItem_ok.mp hr
    obtain ⟨b, hb⟩ := List.length_eq_one_iff.mp hlen
    have hval : leVal r.1 = b.toNat := by simp [hb, leVal]
    rw [hval] at h
    dsimp only [seen]
    rw [hread, hb]
    split at h
    · cases h
    · rename_i hlt
      cases h
      exact if_neg hlt
  rename_i hs
  rw [if_neg hs]
  split at h
  · rename_i he
    rw [if_pos he]
    obtain ⟨r, hr, h⟩ := bind_ok.mp h
    cases h
    dsimp only [seen]
    rw [freadInto_item hr]
  · rename_i he
    rw [if_neg he]
    exact record_load h u

theorem loop_load (n : Nat) : ∀ {i l}, rdbLoadLoop stringCodec n l = .ok l' →
    rdbLoadLoopWith m n i (seen dbid l) = some (.ok (seen dbid l')) := by
  induction n with
  | zero =>
    intro i l h
    cases h
  | succ n ih =>
    intro i l h
    obtain ⟨r, hr, h⟩ := bind_ok.mp h
    obtain ⟨hread, hlen⟩ := freadItem_ok.mp hr
    obtain ⟨b, hb⟩ := List.length_eq_one_iff.mp hlen
    have hfp : (seen dbid l).fp = l.fp := rfl
    rw [rdbLoadLoopWith, hfp, hread]
    rw [hb] at h ⊢
    rw [List.headD_cons]
    by_cases ht : b = RDB_EOF
    · rw [if_pos (by rw [ht])] at h
      cases h
      rw [if_pos ht]
      rfl
    · rw [if_neg (by simpa using ht)] at h
      obtain ⟨l₁, hturn, h⟩ := bind_ok.mp h
      have hturn : rdbLoadTurnWith (m i) b (seen dbid { l with fp := r.2 }) = .ok (seen dbid l₁) :=
        turn_load hturn (m i)
      rw [if_neg ht]
      dsimp only [seen] at hturn ⊢
      rw [hturn]
      exact ih h

/-- A file that is loaded is loaded to the same databases, whatever is unset. -/
theorem load_with {sha256 : Sha256} {file : Bytes} (h : rdbLoad sha256 stringCodec db file = .ok db')
    (buf : Nat → UInt8) (dbid : UInt8) : ∃ l, rdbLoadWith buf dbid m db file (file.length + 1) =
      some (.ok l) ∧ l.db = db' := by
  unfold rdbLoad at h
  unfold rdbLoadWith
  dsimp only at h ⊢
  split at h
  · rename_i hm
    obtain ⟨l, hloop, h⟩ := bind_ok.mp h
    obtain ⟨_, -, h⟩ := bind_ok.mp h
    cases h
    have hread : freadInto buf { data := file, pos := 0 } 9 = fread { data := file, pos := 0 } 9 :=
      freadInto_item (freadItem_ok.mpr ⟨rfl, by rw [hm]; rfl⟩) buf
    rw [hread, if_pos hm]
    exact ⟨seen dbid.toNat l, loop_load _ hloop, rfl⟩
  · split at h
    · cases h
    · rename_i hpre
      cases h
      have hne : (freadInto buf { data := file, pos := 0 } 9).1 ≠ rdbMagic := fun e =>
        hpre (e ▸ List.prefix_append _ _)
      exact ⟨_, if_neg hne, rfl⟩

end Fedis.Proof.Rdb

import Fedis.Impl.Db
import Fedis.Proof.Robj
import Fedis.Proof.Dict.Refine

/-!
# The dicts of a database

`dbKeys`: `dbDictKeyCmp` tells the strings of keys apart by the C strings that they
were made from, and `dbDictKeyHash` hashes nothing else. So a dict with these
callbacks holds a `DbMap`, and goes on holding one (`dbDict_holds`).
-/

namespace Fedis.Proof.Dict

open Fedis.Framework

variable {V : Type} [Inhabited V]

/-- The string of a key ends where the key does. -/
theorem cstr_sdsnew (key : Bytes) : cstr (sdsnew key).buf = cstr key := by
  have hz : ∀ b ∈ cstr key, b ≠ 0 := cstr_ne_zero
  have h := Value.cstr_raw hz
  rwa [sdsnew, cstr_eq_self hz] at h

theorem sdscmp_sdsnew (key₁ key₂ : Bytes) :
    sdscmp (sdsnew key₁) (sdsnew key₂) = 0 ↔ cstr key₁ = cstr key₂ := by
  have hlen : ∀ key, (sdsnew key).len = (cstr key).length := fun _ => rfl
  unfold sdscmp
  split
  · rename_i hne
    rw [hlen, hlen] at hne ⊢
    constructor
    · intro h
      omega
    · exact fun h => absurd (congrArg List.length h) hne
  · rw [strcmp_eq_zero, cstr_sdsnew, cstr_sdsnew]

theorem dbDictKeyHash_sdsnew {key₁ key₂ : Bytes} (h : cstr key₁ = cstr key₂) :
    dbDictKeyHash (sdsnew key₁) = dbDictKeyHash (sdsnew key₂) := by
  rw [dbDictKeyHash, dbDictKeyHash, cstr_sdsnew, cstr_sdsnew, h]

/-- The keys of a database, each known by its C string. -/
def dbKeys : KeyType Bytes where
  toDictType := dbDictType
  Class := Bytes
  decEq := inferInstance
  cls := cstr
  cls_eq_iff := (sdscmp_sdsnew _ _).symm
  hash_eq h := dbDictKeyHash_sdsnew ((sdscmp_sdsnew _ _).mp h)

/-- **A dict of a database is a map** from the C strings of its keys, whatever calls
it has been through. -/
theorem dbDict_holds {d : Dict Bytes V} {m : DbMap V} (h : Inv dbDictType d)
    (hm : Holds dbKeys d m) (ops : List (DictOp Bytes V))
    (hne : Along (dictCall dbDictType) (fun d op => ¬ StartsEmptyStep dbDictType d op) d ops) :
    ∃ d', run (dictCall dbDictType) d ops = some ((runTotal (mapCall dbKeys) m ops).1, d') ∧
      Inv dbDictType d' ∧ Holds dbKeys d' (runTotal (mapCall dbKeys) m ops).2 :=
  run_ok (t := dbKeys) h hm ops hne

end Fedis.Proof.Dict

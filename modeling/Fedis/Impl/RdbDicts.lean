import Fedis.Impl.DbDicts
import Fedis.Impl.Rdb

/-!
# Saving the dicts of the databases (`rdb.c`)

`rdbSave` walks the dict of a database with an iterator and looks every key up among the
deadlines. The look-up may move an entry of `expires`, of the child's copy.
-/

namespace Fedis

open Framework

section Save

variable (c : ValueCodec)

/-- The turn of `rdbSave` for an entry: what is written, and the deadlines behind it. -/
def rdbSaveEntryDicts (expires : Dict Bytes Int) (entry : DictEntry Bytes Robj) :
    Option (Bytes × Dict Bytes Int) := do
  let key := cstr entry.key
  let record := RDB_TYPE_STRING :: rdbSaveKey key ++ c.save entry.val
  if ← dictContains dbDictType expires entry.key then
    let (time, expires) ← dictFetchValue dbDictType expires entry.key
    return (RDB_EXPIRETIME :: leInt 8 time ++ record, expires)
  else return (record, expires)

/-- The loop over the iterator. -/
def rdbSaveEntriesDicts : Dict Bytes Int → List (DictEntry Bytes Robj) → Option Bytes
  | _, [] => some []
  | expires, entry :: entries => do
    let (record, expires) ← rdbSaveEntryDicts c expires entry
    return record ++ (← rdbSaveEntriesDicts expires entries)

/-- The turn of `rdbSave` for the database with this number. -/
def rdbSaveDbDicts (id : Nat) (db : DbDicts) : Option Bytes := do
  if dictIsEmpty db.kv then return []
  else
    let entries ← dictIterate db.kv
    return RDB_SELECTDB :: UInt8.ofNat id :: (← rdbSaveEntriesDicts c db.expires entries)

/-- The loop over the databases, from this number on. -/
def rdbSaveDbsDicts : Nat → List DbDicts → Option Bytes
  | _, [] => some []
  | id, db :: dbs => do
    let saved ← rdbSaveDbDicts c id db
    return saved ++ (← rdbSaveDbsDicts (id + 1) dbs)

/-- `rdbSave`: the file. -/
def rdbSaveDicts (sha256 : Sha256) (dbs : List DbDicts) : Option Bytes := do
  let body := rdbMagic ++ (← rdbSaveDbsDicts c 0 dbs) ++ [RDB_EOF]
  return body ++ (sha256 (body.take RDB_MAX_SIZE)).val

end Save

end Fedis

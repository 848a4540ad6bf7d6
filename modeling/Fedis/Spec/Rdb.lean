import Fedis.Impl.Rdb

/-!
# What an RDB file says

The entries that were saved, put into databases one after the other. `decode` is
what a value is loaded as. A deadline is read from 8 bytes and a database's number
from one; a deadline that is not set off by an entry is there for the next one.
-/

namespace Fedis

open Framework

/-- The deadline that is pending at an entry. -/
def pending (expires : DbMap Int) (key : Bytes) (expire : Int) : Int :=
  if mapContains expires key then (mapFetchValue expires key).bmod (256 ^ 8) else expire

variable (decode : Robj → Robj)

/-- An entry is added to its database, with the deadline that is pending. -/
def loadEntry (expires : DbMap Int) (st : RedisDb × Int) (entry : Bytes × Robj) : RedisDb × Int :=
  let expire := pending expires entry.1 st.2
  let db := (dbAdd st.1 entry.1 (decode entry.2)).2
  (if 0 < expire then (dbSetExpire db entry.1 expire).2 else db, if 0 < expire then 0 else expire)

/-- The entries of a database that was saved, added to the database of its number. -/
def loadDb (st : List RedisDb × Int) (src : RdbDb) : List RedisDb × Int :=
  if src.entries = [] then st
  else match st.1[src.id % 256]? with
    | none => st
    | some db =>
      let r := src.entries.foldl (loadEntry decode src.expires) (db, st.2)
      (st.1.set (src.id % 256) r.1, r.2)

/-- The databases after the whole file, and the deadline that is pending. -/
def loadDbs (st : List RedisDb × Int) (dbs : List RdbDb) : List RedisDb × Int :=
  dbs.foldl (loadDb decode) st

end Fedis

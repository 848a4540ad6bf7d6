import Fedis.Impl.Robj
import Fedis.Spec.DictMap

/-!
# Databases (`db.c`)

The three dicts of a database are the finite maps that they refine (see
`dbKeys`). A key is the C string that its sds was made from. A client is known
by its number, and the time is an argument of the functions that ask for it.
-/

namespace Fedis

open Framework

abbrev ClientId := Nat

def sdscmp (sds1 sds2 : Sds) : Int :=
  if sds1.len ≠ sds2.len then (sds1.len : Int) - sds2.len else strcmp sds1.buf sds2.buf

/-- A `char` as the `unsigned long` it is added as. -/
def signedChar (b : UInt8) : UInt64 := if b < 128 then b.toUInt64 else b.toUInt64 - 256

def dbDictKeyHash (key : Sds) : UInt64 :=
  (cstr key.buf).foldl (fun hash b => (hash <<< 5) + hash + signedChar b) 5381

/-- The callbacks of the dicts, on the strings that keys are made from. -/
def dbDictType : DictType Bytes where
  hashFunction key := dbDictKeyHash (sdsnew key)
  keyCompare key1 key2 := sdscmp (sdsnew key1) (sdsnew key2)

/-- A map from keys. -/
abbrev DbMap (V : Type) := Finmap fun _ : Bytes => V

structure RedisDb where
  kv : DbMap Robj
  expires : DbMap Int
  watchedKeys : DbMap (List ClientId)

/-- `dbInit`. -/
def dbInit : RedisDb := { kv := ∅, expires := ∅, watchedKeys := ∅ }

/-- `dbAdd`: adds the key, or replaces its value. -/
def dbAdd (db : RedisDb) (key : Bytes) (value : Robj) : Int × RedisDb :=
  let r := if mapContains db.kv key then mapReplace db.kv key value else mapAdd db.kv key value
  (r.1, { db with kv := r.2 })

/-- `dbGet`; `none` is `NULL`. -/
def dbGet (db : RedisDb) (key : Bytes) : Option Robj := db.kv.lookup key

def dbDelete (db : RedisDb) (key : Bytes) : Int × RedisDb :=
  let r := mapDelete db.kv key
  (r.1, { db with kv := r.2 })

def dbSetExpire (db : RedisDb) (key : Bytes) (time : Int) : Int × RedisDb :=
  let r := mapAdd db.expires key time
  (r.1, { db with expires := r.2 })

def dbGetTTL (db : RedisDb) (key : Bytes) (now : Int) : Int := mapFetchValue db.expires key - now

/-- `expireIfNeed`. The deadline would be deleted if the first `dictDelete`
returned more than 0. -/
def expireIfNeed (db : RedisDb) (key : Bytes) (now : Int) : RedisDb :=
  if mapContains db.expires key && mapFetchValue db.expires key < now then
    let kv := mapDelete db.kv key
    if 0 < kv.1 then { db with kv := kv.2, expires := (mapDelete db.expires key).2 }
    else { db with kv := kv.2 }
  else db

/-- `dbAddWatch`. -/
def dbAddWatch (db : RedisDb) (key : Bytes) (client : ClientId) : RedisDb :=
  let watched :=
    if mapContains db.watchedKeys key then db.watchedKeys else (mapAdd db.watchedKeys key []).2
  { db with watchedKeys := watched.insert key (mapFetchValue watched key ++ [client]) }

def dbIsWatching (db : RedisDb) (key : Bytes) : Bool := mapContains db.watchedKeys key

end Fedis

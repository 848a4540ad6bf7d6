import Fedis.Impl.Db

/-!
# Databases on their dicts (`db.c`)

The functions of `Db`, with the dicts that `RedisDb` takes for maps. `expireIfNeed` fetches from
`expires`, which may move an entry, and deletes from `kv`, which may start to resize it. A
deadline is the `long` that is stored in the place of a value pointer. The values of
`watched_keys` are the addresses of lists, which are changed behind the dict's back.
-/

namespace Fedis

open Framework

structure DbDicts where
  kv : Dict Bytes Robj
  expires : Dict Bytes Int
deriving DecidableEq, Repr

/-- `expireIfNeed`; `none` where a dict's table is read out of its bounds. -/
def expireIfNeedDicts (db : DbDicts) (key : Bytes) (now : Int) : Option DbDicts := do
  if ← dictContains dbDictType db.expires key then
    let (expireAt, expires) ← dictFetchValue dbDictType db.expires key
    if expireAt < now then
      let (res, kv) ← dictDelete dbDictType db.kv key
      if 0 < res then
        let (_, expires) ← dictDelete dbDictType expires key
        return { kv := kv, expires := expires }
      else return { kv := kv, expires := expires }
    else return { kv := db.kv, expires := expires }
  else return db

/-- `dictFetchValue` of a dict of pointers; the inner `none` is `NULL`. -/
def dictFetchPtr {K V : Type} (t : DictType K) (d : Dict K V) (key : K) :
    Option (Option V × Dict K V) :=
  (dictRehashIfNeed t d).bind fun d =>
    (dictFind t d key).map fun r => (r.map fun q => q.2.val, d)

/-- A `list *` of clients. -/
abbrev ListId := Nat

/-- `redisDb`. `lists` is the memory of the watch lists, which are sequences of clients, and `next`
the address that `listCreate` will return. -/
structure DbTables where
  dicts : DbDicts
  watchedKeys : Dict Bytes ListId
  lists : ListId → List ClientId
  next : ListId

namespace DbTables

/-- `dbInit`, in a memory with other lists. -/
def dbInit (lists : ListId → List ClientId) (next : ListId) : DbTables where
  dicts := { kv := dictCreate, expires := dictCreate }
  watchedKeys := dictCreate
  lists := lists
  next := next

variable (db : DbTables) (key : Bytes)

def dbAdd (value : Robj) : Option (Int × DbTables) := do
  let contains ← dictContains dbDictType db.dicts.kv key
  let (res, kv) ← if !contains then dictAdd dbDictType db.dicts.kv key value
    else dictReplace dbDictType db.dicts.kv key value
  return (res, { db with dicts := { db.dicts with kv := kv } })

def dbGet : Option (Option Robj × DbTables) := do
  let (value, kv) ← dictFetchPtr dbDictType db.dicts.kv key
  return (value, { db with dicts := { db.dicts with kv := kv } })

def dbDelete : Option (Int × DbTables) := do
  let (res, kv) ← dictDelete dbDictType db.dicts.kv key
  return (res, { db with dicts := { db.dicts with kv := kv } })

def dbSetExpire (time : Int) : Option (Int × DbTables) := do
  let (res, expires) ← dictAdd dbDictType db.dicts.expires key time
  return (res, { db with dicts := { db.dicts with expires := expires } })

/-- `dbGetTTL`; the difference is a `long`. -/
def dbGetTTL (now : Int) : Option (Int × DbTables) := do
  let (expireat, expires) ← dictFetchValue dbDictType db.dicts.expires key
  if inLong (expireat - now) then
    return (expireat - now, { db with dicts := { db.dicts with expires := expires } })
  else none

def expireIfNeed (now : Int) : Option DbTables := do
  return { db with dicts := ← expireIfNeedDicts db.dicts key now }

/-- `listCreate`, and `dictAdd` of the new list. -/
def addWatchList : Option DbTables := do
  let (_, watchedKeys) ← dictAdd dbDictType db.watchedKeys key db.next
  return { db with
    watchedKeys := watchedKeys
    lists := Function.update db.lists db.next []
    next := db.next + 1 }

def dbIsWatching : Option Bool := dictContains dbDictType db.watchedKeys key

/-- `dbAddWatch`; there is no list behind `NULL`. -/
def dbAddWatch (client : ClientId) : Option DbTables := do
  let db ← if !(← dbIsWatching db key) then addWatchList db key else some db
  let (clients, watchedKeys) ← dictFetchPtr dbDictType db.watchedKeys key
  let clients ← clients
  return { db with
    watchedKeys := watchedKeys
    lists := Function.update db.lists clients (db.lists clients ++ [client]) }

/-- What `touchWatchKey` does to a database: the clients that it takes off the key's list. -/
def touchWatchKey : Option (List ClientId × DbTables) := do
  if ← dbIsWatching db key then
    let (clients, watchedKeys) ← dictFetchPtr dbDictType db.watchedKeys key
    let clients ← clients
    return (db.lists clients,
      { db with watchedKeys := watchedKeys, lists := Function.update db.lists clients [] })
  else return ([], db)

end DbTables

/-! ## Calls -/

/-- A use of a database; `hasExpire` is the test of `commandTtlProc`. -/
inductive DbCall where
  | add (key : Bytes) (value : Robj)
  | get (key : Bytes)
  | delete (key : Bytes)
  | setExpire (key : Bytes) (time : Int)
  | hasExpire (key : Bytes)
  | getTTL (key : Bytes) (now : Int)
  | expireIfNeed (key : Bytes) (now : Int)
  | addWatch (key : Bytes) (client : ClientId)
  | isWatching (key : Bytes)
  | touchWatchKey (key : Bytes)
deriving DecidableEq, Repr

/-- What a call returns. -/
inductive DbReply where
  | done
  | status (code : Int)
  | object (value : Option Robj)
  | time (t : Int)
  | bool (b : Bool)
  | clients (cs : List ClientId)
deriving DecidableEq, Repr

/-- One call on the dicts. -/
def DbTables.call (db : DbTables) : DbCall → Option (DbReply × DbTables)
  | .add key value => (db.dbAdd key value).map fun r => (.status r.1, r.2)
  | .get key => (db.dbGet key).map fun r => (.object r.1, r.2)
  | .delete key => (db.dbDelete key).map fun r => (.status r.1, r.2)
  | .setExpire key time => (db.dbSetExpire key time).map fun r => (.status r.1, r.2)
  | .hasExpire key => (dictContains dbDictType db.dicts.expires key).map fun b => (.bool b, db)
  | .getTTL key now => (db.dbGetTTL key now).map fun r => (.time r.1, r.2)
  | .expireIfNeed key now => (db.expireIfNeed key now).map fun db => (.done, db)
  | .addWatch key client => (db.dbAddWatch key client).map fun db => (.done, db)
  | .isWatching key => (db.dbIsWatching key).map fun b => (.bool b, db)
  | .touchWatchKey key => (db.touchWatchKey key).map fun r => (.clients r.1, r.2)

/-- The call on the maps. -/
def RedisDb.call (db : RedisDb) : DbCall → DbReply × RedisDb
  | .add key value => let r := dbAdd db (cstr key) value; (.status r.1, r.2)
  | .get key => (.object (dbGet db (cstr key)), db)
  | .delete key => let r := dbDelete db (cstr key); (.status r.1, r.2)
  | .setExpire key time => let r := dbSetExpire db (cstr key) time; (.status r.1, r.2)
  | .hasExpire key => (.bool (mapContains db.expires (cstr key)), db)
  | .getTTL key now => (.time (dbGetTTL db (cstr key) now), db)
  | .expireIfNeed key now => (.done, expireIfNeed db (cstr key) now)
  | .addWatch key client => (.done, dbAddWatch db (cstr key) client)
  | .isWatching key => (.bool (dbIsWatching db (cstr key)), db)
  | .touchWatchKey key =>
    if dbIsWatching db (cstr key) then
      (.clients (mapFetchValue db.watchedKeys (cstr key)),
        { db with watchedKeys := db.watchedKeys.insert (cstr key) [] })
    else (.clients [], db)

end Fedis

import Fedis.Framework.File
import Fedis.Impl.Db

/-!
# The RDB file (`rdb.c`)

`rdbSave` writes the databases record by record, and `rdbLoad` reads them back.
A file that is written is the list of its bytes. The encoding of values is an
argument of both, for which the program has `stringCodec`; every value is a
`REDIS_STRING`. SHA-256 is any function to digests of its length. A database is
saved in the order in which the iterator of its dict gives the entries.
-/

namespace Fedis

open Framework

def RDB_ENC_INT8 : UInt8 := 0xFC
def RDB_ENC_INT16 : UInt8 := 0xFD
def RDB_ENC_INT32 : UInt8 := 0xFE
def RDB_EOF : UInt8 := 0xFF
def RDB_SELECTDB : UInt8 := 0xFE
def RDB_EXPIRETIME : UInt8 := 0xFD
def RDB_TYPE_STRING : UInt8 := 0
def RDB_MAX_SIZE : Nat := 4096
def RDB_CHECKSUM_LEN : Nat := 32

def rdbMagic : Bytes := bytes "REDIS0001"

/-! ## Saving -/

/-- `_rdbSaveLen`, of a `uint32_t`. -/
def rdbSaveLen (len : Nat) : Bytes :=
  let len := len % 2 ^ 32
  if len < 64 then [UInt8.ofNat len]
  else if len < 2 ^ 14 then [0x80 ||| UInt8.ofNat (len / 256), UInt8.ofNat len]
  else 0xFE :: leBytes 4 len

/-- `_rdbSaveStringObject`. -/
def rdbSaveStringObject : Robj → Bytes
  | .int val =>
    let val := toInt32 val
    if val ≤ 128 then RDB_ENC_INT8 :: leInt 1 val
    else if val ≤ 32768 then RDB_ENC_INT16 :: leInt 2 val
    else RDB_ENC_INT32 :: leInt 4 val
  | .embstr ss | .raw ss => rdbSaveLen ss.len ++ readAt ss.buf 0 ss.len

/-- `_rdbSaveKey`. -/
def rdbSaveKey (key : Bytes) : Bytes := rdbSaveLen key.length ++ key

/-- A database as `rdbSave` walks it, each key once. -/
structure RdbDb where
  id : Nat
  entries : List (Bytes × Robj)
  expires : DbMap Int
  nodup : (entries.map Prod.fst).Nodup

/-- How values are written, and read behind their type. -/
structure ValueCodec where
  save : Robj → Bytes
  load : UInt8 → File → Except Fault (Robj × File)

/-- The turn of `rdbSave` for an entry. -/
def rdbSaveEntry (c : ValueCodec) (expires : DbMap Int) (entry : Bytes × Robj) : Bytes :=
  (if mapContains expires entry.1 then
      RDB_EXPIRETIME :: leInt 8 (mapFetchValue expires entry.1)
    else []) ++
    RDB_TYPE_STRING :: rdbSaveKey entry.1 ++ c.save entry.2

/-- The turn of `rdbSave` for a database. -/
def rdbSaveDb (c : ValueCodec) (db : RdbDb) : Bytes :=
  if db.entries = [] then []
  else RDB_SELECTDB :: UInt8.ofNat db.id :: db.entries.flatMap (rdbSaveEntry c db.expires)

/-- The databases and the opcode behind them. -/
def rdbSaveDbs (c : ValueCodec) (dbs : List RdbDb) : Bytes := dbs.flatMap (rdbSaveDb c) ++ [RDB_EOF]

/-- The file without its checksum. -/
def rdbBody (c : ValueCodec) (dbs : List RdbDb) : Bytes := rdbMagic ++ rdbSaveDbs c dbs

/-- A function from bytes to digests, in the place of SHA-256. -/
abbrev Sha256 := Bytes → { hash : Bytes // hash.length = RDB_CHECKSUM_LEN }

/-- `rdbSave`: the file. The digest is of what its buffer holds of the body. -/
def rdbSave (sha256 : Sha256) (c : ValueCodec) (dbs : List RdbDb) : Bytes :=
  rdbBody c dbs ++ (sha256 ((rdbBody c dbs).take RDB_MAX_SIZE)).val

/-! ## Loading -/

/-- `_rdbLoadLen`. -/
def rdbLoadLen (fp : File) : Nat × File :=
  match fread fp 1 with
  | ([b], fp) =>
    if b &&& 0xC0 = 0 then ((b &&& 0x3F).toNat, fp)
    else if b &&& 0xC0 = 0x80 then
      match fread fp 1 with
      | ([b'], fp) => ((b &&& 0x3F).toNat * 256 + b'.toNat, fp)
      | (_, fp) => (0, fp)
    else if b = 0xFE then
      let r := fread fp 4
      if r.1.length = 4 then (leVal r.1, r.2) else (0, r.2)
    else (0, fp)
  | (_, fp) => (0, fp)

/-- `snprintf` with `%d` into 11 bytes. -/
def printInt (val : Int) : Bytes := (decimalInt val).take 10

/-- The strings of `_rdbLoadStringObject`; `len + 1` is a `uint32_t`. What `fread`
has not filled is read up to the first NUL. -/
def rdbLoadString (fp : File) : Except Fault (Robj × File) :=
  let r := rdbLoadLen fp
  let s := fread r.2 r.1
  if r.1 + 1 = 2 ^ 32 ∨ s.1.length ≠ r.1 ∧ 0 ∉ s.1 then .error .undefined
  else .ok (robjCreateStringObject s.1, s.2)

/-- `_rdbLoadStringObject`. -/
def rdbLoadStringObject (fp : File) : Except Fault (Robj × File) := do
  let c ← freadItem fp 1
  if c.1 = [RDB_ENC_INT8] then
    let val ← freadItem c.2 1
    .ok (robjCreateStringObject (printInt (leVal val.1)), val.2)
  else if c.1 = [RDB_ENC_INT16] then
    let val ← freadItem c.2 2
    .ok (robjCreateStringObject (printInt (signed val.1)), val.2)
  else if c.1 = [RDB_ENC_INT32] then
    let val ← freadItem c.2 4
    .ok (robjCreateStringObject (printInt (signed val.1)), val.2)
  else rdbLoadString fp

/-- `_rdbLoadObject`; it returns what was never set for another type. -/
def rdbLoadObject (type : UInt8) (fp : File) : Except Fault (Robj × File) :=
  if type = RDB_TYPE_STRING then rdbLoadStringObject fp else .error .undefined

/-- The program's own encoding of values. -/
def stringCodec : ValueCodec := { save := rdbSaveStringObject, load := rdbLoadObject }

/-- `_rdbLoadKey`, with its buffer of 1024 bytes. -/
def rdbLoadKey (fp : File) : Except Fault (Bytes × File) :=
  let r := rdbLoadLen fp
  let s := fread r.2 r.1
  if 1024 < s.1.length then .error .undefined else .ok s

/-- The variables of `rdbLoad`, with the databases of the server. `dbid` is `none`
until it is set. -/
structure RdbLoader where
  db : List RedisDb
  dbid : Option Nat
  expire : Int
  fp : File

/-- The turn of the loop for a record, behind its type. -/
def rdbLoadRecord (c : ValueCodec) (type : UInt8) (l : RdbLoader) : Except Fault RdbLoader := do
  let key ← rdbLoadKey l.fp
  let val ← c.load type key.2
  match l.dbid with
  | none => .error .undefined
  | some id =>
    match l.db[id]? with
    | none => .error .undefined
    | some db =>
      let db := (dbAdd db key.1 val.1).2
      if 0 < l.expire then
        .ok { l with db := l.db.set id (dbSetExpire db key.1 l.expire).2, expire := 0, fp := val.2 }
      else .ok { l with db := l.db.set id db, fp := val.2 }

/-- A turn of the loop, behind the type it has read. -/
def rdbLoadTurn (c : ValueCodec) (type : UInt8) (l : RdbLoader) : Except Fault RdbLoader :=
  if type = RDB_SELECTDB then do
    let dbid ← freadItem l.fp 1
    if l.db.length < leVal dbid.1 then .error .abort
    else .ok { l with dbid := some (leVal dbid.1), fp := dbid.2 }
  else if type = RDB_EXPIRETIME then do
    let expire ← freadItem l.fp 8
    .ok { l with expire := signed expire.1, fp := expire.2 }
  else rdbLoadRecord c type l

/-- The loop of `rdbLoad`. Every turn reads a byte, so that as many turns as there
are bytes are enough. -/
def rdbLoadLoop (c : ValueCodec) : Nat → RdbLoader → Except Fault RdbLoader
  | 0, _ => .error .undefined
  | n + 1, l => do
    let type ← freadItem l.fp 1
    let l := { l with fp := type.2 }
    if type.1 = [RDB_EOF] then .ok l
    else
      let l ← rdbLoadTurn c (type.1.headD 0) l
      rdbLoadLoop c n l

/-- The end of `rdbLoad`: the checksum, and the digest of the bytes before it in a
buffer of `RDB_MAX_SIZE`. -/
def rdbVerify (sha256 : Sha256) (fp : File) : Except Fault Unit :=
  let hash := fread fp RDB_CHECKSUM_LEN
  if hash.1.length ≠ RDB_CHECKSUM_LEN then .error .abort
  else
    let data := fread { fp with pos := 0 } fp.pos
    if RDB_MAX_SIZE < data.1.length then .error .undefined
    else if data.1.length ≠ fp.pos then .error .abort
    else if (sha256 data.1).val = hash.1 then .ok () else .error .abort

/-- `rdbLoad`, on the databases of a server. -/
def rdbLoad (sha256 : Sha256) (c : ValueCodec) (db : List RedisDb) (file : Bytes) :
    Except Fault (List RedisDb) := do
  let magic := fread { data := file, pos := 0 } 9
  if magic.1 = rdbMagic then
    let l ← rdbLoadLoop c (file.length + 1) { db := db, dbid := none, expire := 0, fp := magic.2 }
    rdbVerify sha256 l.fp
    .ok l.db
  else if magic.1 <+: rdbMagic then .error .undefined
  else .ok db

end Fedis

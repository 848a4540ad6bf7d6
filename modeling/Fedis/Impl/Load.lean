import Fedis.Impl.Rdb

/-!
# Loading with reads that fail (`rdb.c`)

The record loop of `rdbLoad` looks at no end of file: where `fread` fails, a variable keeps
what it held. That is any value for the variables of a call (`Unset`), and the value of the
turn before for those of `rdbLoad`. `_rdbLoadLen` and `_rdbLoadKey` use nothing that is unset.
-/

namespace Fedis

open Framework

/-- What the variables of a turn hold before they are set: `c` of `_rdbLoadType`, `c` and the
bytes of `val` or `buf` in `_rdbLoadStringObject`, and `obj` of `_rdbLoadObject`. -/
structure Unset where
  type : UInt8
  code : UInt8
  mem : Nat → UInt8
  obj : Robj

/-- `fread` into `n` bytes of memory, of which it leaves what it does not read. -/
def freadInto (mem : Nat → UInt8) (fp : File) (n : Nat) : Bytes × File :=
  let r := fread fp n
  (r.1 ++ (List.range' r.1.length (n - r.1.length)).map mem, r.2)

/-- `fseek` by one byte back. -/
def fseekBack (fp : File) : File := { fp with pos := fp.pos - 1 }

/-- `_rdbLoadStringObject`. -/
def rdbLoadStringObjectWith (u : Unset) (fp : File) : Except Fault (Robj × File) :=
  let c := fread fp 1
  let code := c.1.headD u.code
  if code = RDB_ENC_INT8 then
    let val := freadInto u.mem c.2 1
    .ok (robjCreateStringObject (printInt (leVal val.1)), val.2)
  else if code = RDB_ENC_INT16 then
    let val := freadInto u.mem c.2 2
    .ok (robjCreateStringObject (printInt (signed val.1)), val.2)
  else if code = RDB_ENC_INT32 then
    let val := freadInto u.mem c.2 4
    .ok (robjCreateStringObject (printInt (signed val.1)), val.2)
  else
    let len := rdbLoadLen (fseekBack c.2)
    if len.1 + 1 = 2 ^ 32 then .error .undefined
    else
      let buf := freadInto u.mem len.2 len.1
      .ok (robjCreateStringObject buf.1, buf.2)

/-- `_rdbLoadObject`, as the reading half of a codec. -/
def unsetCodec (u : Unset) : ValueCodec where
  save := rdbSaveStringObject
  load type fp := if type = RDB_TYPE_STRING then rdbLoadStringObjectWith u fp else .ok (u.obj, fp)

/-- A turn of the loop, behind its type. -/
def rdbLoadTurnWith (u : Unset) (type : UInt8) (l : RdbLoader) : Except Fault RdbLoader :=
  if type = RDB_SELECTDB then
    let r := fread l.fp 1
    let dbid := (r.1.head?.map UInt8.toNat).or l.dbid
    if l.db.length < dbid.getD 0 then .error .abort
    else .ok { l with dbid := dbid, fp := r.2 }
  else if type = RDB_EXPIRETIME then
    let r := freadInto (fun i => (leInt 8 l.expire).getD i 0) l.fp 8
    .ok { l with expire := signed r.1, fp := r.2 }
  else rdbLoadRecord (unsetCodec u) type l

/-- The first `n` turns of the loop of `rdbLoad` from turn `i` on; `none` if it goes on behind
them. -/
def rdbLoadLoopWith (unset : Nat → Unset) : Nat → Nat → RdbLoader → Option (Except Fault RdbLoader)
  | 0, _, _ => none
  | n + 1, i, l =>
    let r := fread l.fp 1
    let type := r.1.headD (unset i).type
    let l := { l with fp := r.2 }
    if type = RDB_EOF then some (.ok l)
    else
      match rdbLoadTurnWith (unset i) type l with
      | .error e => some (.error e)
      | .ok l => rdbLoadLoopWith unset n (i + 1) l

/-- `rdbLoad` up to the end of its loop, with what `buf` and `dbid` hold before they are set. A
file with another magic is left alone. -/
def rdbLoadWith (buf : Nat → UInt8) (dbid : UInt8) (unset : Nat → Unset) (db : List RedisDb)
    (file : Bytes) (n : Nat) : Option (Except Fault RdbLoader) :=
  let magic := freadInto buf { data := file, pos := 0 } 9
  let l : RdbLoader := { db := db, dbid := some dbid.toNat, expire := 0, fp := magic.2 }
  if magic.1 = rdbMagic then rdbLoadLoopWith unset n 0 l else some (.ok l)

end Fedis

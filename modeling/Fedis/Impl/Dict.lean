import Mathlib.Data.List.Basic
import Mathlib.Data.UInt

/-!
# The incrementally rehashed hash table (`dict.c`)

A dict has two tables `ht0` and `ht1`. While it rehashes (`rehashidx` is not
`-1`) every add, fetch and delete moves one entry from `ht0` to `ht1`.

A bucket's chain of `next` pointers is the list of its entries; a table that
has not been allocated (`table == NULL`) is the empty list of buckets. An
access outside a table, and following a `NULL` entry, are undefined behaviour:
such a call gives `none`. Counters are unbounded (they wrap from 2⁶³ entries on,
the `int` `rehashidx` from 2³¹ buckets on), and the ratio `used / size`
is compared exactly. `keyDup` and `valDup` copy their argument, which is the
same value here; the destructors only free memory. The iterator's loops are bounded by
the buckets of a table and by the two tables.
-/

namespace Fedis

universe u v

def DICT_OK : Int := 0
def DICT_ERR : Int := -1
def DICT_INITIAL_SIZE : Nat := 4

/-- The callbacks of a dict that decide where a key is stored. `keyCompare` is 0
on equal keys. -/
structure DictType (K : Type u) where
  hashFunction : K → UInt64
  keyCompare : K → K → Int

structure DictEntry (K : Type u) (V : Type v) where
  key : K
  val : V
deriving DecidableEq, Repr

structure DictHT (K : Type u) (V : Type v) where
  table : List (List (DictEntry K V))
  size : Nat
  sizemask : Nat
  used : Nat
deriving DecidableEq, Repr

structure Dict (K : Type u) (V : Type v) where
  ht0 : DictHT K V
  ht1 : DictHT K V
  rehashidx : Int
deriving DecidableEq, Repr

variable {K : Type u} {V : Type v}

/-- `key` finds this entry. -/
def DictType.hits (t : DictType K) (key : K) (e : DictEntry K V) : Bool :=
  t.keyCompare e.key key == 0

/-! ## One table -/

/-- `_dictReset`. -/
def dictReset : DictHT K V := { table := [], size := 0, sizemask := 0, used := 0 }

/-- A table of `newSize` empty buckets, as `dictExpand` allocates it. -/
def dictAlloc (newSize : Nat) : DictHT K V :=
  { table := List.replicate newSize [], size := newSize, sizemask := newSize - 1, used := 0 }

/-- The bucket of `key`: its hash, cut to `unsigned int`, under the mask. -/
def DictHT.idx (t : DictType K) (ht : DictHT K V) (key : K) : Nat :=
  (t.hashFunction key).toUInt32.toNat &&& ht.sizemask

/-- Links `entry` at the head of its bucket. -/
def DictHT.link (t : DictType K) (ht : DictHT K V) (entry : DictEntry K V) :
    Option (DictHT K V) :=
  (ht.table[ht.idx t entry.key]?).map fun chain =>
    { ht with table := ht.table.set (ht.idx t entry.key) (entry :: chain), used := ht.used + 1 }

/-- The first entry of the key's bucket that compares equal. -/
def DictHT.find (t : DictType K) (ht : DictHT K V) (key : K) : Option (Option (DictEntry K V)) :=
  (ht.table[ht.idx t key]?).map fun chain => chain.find? (t.hits key)

/-- Stores `val` in the first entry of a chain that compares equal. -/
def chainSetVal (t : DictType K) (key : K) (val : V) : List (DictEntry K V) → List (DictEntry K V)
  | [] => []
  | e :: es => if t.hits key e then { e with val := val } :: es else e :: chainSetVal t key val es

/-- `dictSetVal` on the entry of this table that `key` finds. -/
def DictHT.setVal (t : DictType K) (ht : DictHT K V) (key : K) (val : V) : DictHT K V :=
  { ht with table := ht.table.modify (ht.idx t key) (chainSetVal t key val) }

/-- Unlinks the entry that `key` finds; the inner `none` is "not in this table". -/
def DictHT.unlink (t : DictType K) (ht : DictHT K V) (key : K) : Option (Option (DictHT K V)) :=
  (ht.table[ht.idx t key]?).map fun chain =>
    if chain.any (t.hits key) then
      some { ht with
        table := ht.table.set (ht.idx t key) (chain.eraseP (t.hits key))
        used := ht.used - 1 }
    else none

/-! ## Growing, shrinking and migrating -/

/-- The loop of `_nextpower`; `fuel` bounds the doublings of `res`. -/
def nextpowerLoop (n : Nat) : Nat → Nat → Nat
  | 0, res => res
  | fuel + 1, res => if res < n then nextpowerLoop n fuel (res <<< 1) else res

/-- `_nextpower`: `n` doublings of 1 always reach `n`. -/
def nextpower (n : Nat) : Nat := nextpowerLoop n n 1

def dictIsRehashing (d : Dict K V) : Bool := d.rehashidx != -1

/-- The loop of `_dictRehashStep` that passes over empty buckets. -/
def skipEmpty (ht : DictHT K V) : Nat → Nat → Nat
  | 0, i => i
  | fuel + 1, i =>
    match ht.table[i]? with
    | some [] => if i < ht.size then skipEmpty ht fuel (i + 1) else i
    | _ => i

/-- `_dictRehashStep`: moves the first entry of the first non-empty bucket. If
all buckets from `rehashidx` on are empty, it reads `table[size]`. -/
def dictRehashStep (t : DictType K) (d : Dict K V) : Option (Dict K V) :=
  let i := skipEmpty d.ht0 (d.ht0.size - d.rehashidx.toNat) d.rehashidx.toNat
  match d.ht0.table[i]? with
  | none => none
  | some [] => none
  | some (entry :: next) =>
    let ht0 := { d.ht0 with table := d.ht0.table.set i next, used := d.ht0.used - 1 }
    (d.ht1.link t entry).map fun ht1 =>
      if ht0.used = 0 then { ht0 := ht1, ht1 := dictReset, rehashidx := -1 }
      else { ht0 := ht0, ht1 := ht1, rehashidx := i }

/-- The migration step that fetch and delete start when the dict is rehashing. -/
def dictRehashIfNeed (t : DictType K) (d : Dict K V) : Option (Dict K V) :=
  if dictIsRehashing d then dictRehashStep t d else some d

/-- `dictExpand`: the first allocation fills `ht0`, every later one starts a
rehash. -/
def dictExpand (d : Dict K V) (newSize : Nat) : Dict K V :=
  match d.ht0.table with
  | [] => { d with ht0 := dictAlloc newSize }
  | _ :: _ => { d with ht1 := dictAlloc newSize, rehashidx := 0 }

/-- `dictExpandIfNeed`: grows a full table, shrinks one filled below
`DICT_LOAD_RATIO` (0.2). -/
def dictExpandIfNeed (d : Dict K V) : Dict K V :=
  if dictIsRehashing d then d
  else if d.ht0.size = 0 then dictExpand d DICT_INITIAL_SIZE
  else if d.ht0.used = d.ht0.size then dictExpand d (nextpower (d.ht0.used * 2))
  else if 5 * d.ht0.used < d.ht0.size then
    if DICT_INITIAL_SIZE < nextpower d.ht0.used then dictExpand d (nextpower d.ht0.used) else d
  else d

/-! ## The interface -/

def dictCreate : Dict K V := { ht0 := dictReset, ht1 := dictReset, rehashidx := -1 }

/-- `dictFind`: the entry and the number of the table that holds it. -/
def dictFind (t : DictType K) (d : Dict K V) (key : K) :
    Option (Option (Fin 2 × DictEntry K V)) :=
  if d.ht0.size = 0 then some none
  else match d.ht0.find t key with
    | none => none
    | some (some e) => some (some (0, e))
    | some none =>
      if dictIsRehashing d then (d.ht1.find t key).map fun r => r.map fun e => (1, e)
      else some none

/-- `dictAddEntry`. -/
def dictAddEntry (t : DictType K) (d : Dict K V) (entry : DictEntry K V) : Option (Dict K V) :=
  let d := dictExpandIfNeed d
  if dictIsRehashing d then
    (d.ht1.link t entry).bind fun ht1 => dictRehashStep t { d with ht1 := ht1 }
  else (d.ht0.link t entry).map fun ht0 => { d with ht0 := ht0 }

/-- `dictAdd`. `dictAddRaw` links the new entry with a `NULL` value, which
nothing reads before `dictSetVal` stores `val` through the returned pointer. -/
def dictAdd (t : DictType K) (d : Dict K V) (key : K) (val : V) : Option (Int × Dict K V) :=
  match dictFind t d key with
  | none => none
  | some (some _) => some (DICT_ERR, d)
  | some none => (dictAddEntry t d { key := key, val := val }).map fun d => (DICT_OK, d)

/-- `dictReplace`: the key must be there. -/
def dictReplace (t : DictType K) (d : Dict K V) (key : K) (val : V) : Option (Int × Dict K V) :=
  match dictFind t d key with
  | none => none
  | some none => some (DICT_ERR, d)
  | some (some (i, _)) =>
    some (DICT_OK, if i = 0 then { d with ht0 := d.ht0.setVal t key val }
      else { d with ht1 := d.ht1.setVal t key val })

/-- `dictFetchValue`; `default` is the `NULL` pointer. -/
def dictFetchValue [Inhabited V] (t : DictType K) (d : Dict K V) (key : K) :
    Option (V × Dict K V) :=
  (dictRehashIfNeed t d).bind fun d =>
    (dictFind t d key).map fun r => (match r with | some (_, e) => e.val | none => default, d)

/-- `dictDelete`. -/
def dictDelete (t : DictType K) (d : Dict K V) (key : K) : Option (Int × Dict K V) :=
  (dictRehashIfNeed t (dictExpandIfNeed d)).bind fun d =>
    match d.ht0.unlink t key with
    | none => none
    | some (some ht0) => some (DICT_OK, { d with ht0 := ht0 })
    | some none =>
      if dictIsRehashing d then
        (d.ht1.unlink t key).map fun
          | some ht1 => (DICT_OK, { d with ht1 := ht1 })
          | none => (DICT_ERR, d)
      else some (DICT_ERR, d)

def dictContains (t : DictType K) (d : Dict K V) (key : K) : Option Bool :=
  (dictFind t d key).map Option.isSome

def dictIsEmpty (d : Dict K V) : Bool := d.ht0.used == 0

def dictSize (d : Dict K V) : Nat := d.ht0.used + d.ht1.used

/-! ## The iterator -/

/-- `dictIterator`. `entry` is what is left of the chain that it is in. -/
structure DictIterator (K : Type u) (V : Type v) where
  dict : Dict K V
  index : Int
  entry : List (DictEntry K V)
  htidx : Nat
deriving DecidableEq, Repr

/-- `dictGetIterator`. -/
def dictGetIterator (d : Dict K V) : DictIterator K V :=
  { dict := d, index := -1, entry := [], htidx := 0 }

/-- `ht[htidx]` of the dict. -/
def DictIterator.ht (iter : DictIterator K V) : DictHT K V :=
  if iter.htidx = 0 then iter.dict.ht0 else iter.dict.ht1

/-- The inner loop of `dictIterNext` from an empty chain on: the next bucket that is not
empty, or the end of the table. -/
def iterBucket (ht : DictHT K V) : Nat → Int → Option (Int × List (DictEntry K V))
  | 0, _ => none
  | fuel + 1, index =>
    if index + 1 = ht.size then some (index + 1, [])
    else match ht.table[(index + 1).toNat]? with
      | none => none
      | some [] => iterBucket ht fuel (index + 1)
      | some (entry :: next) => some (index + 1, entry :: next)

/-- The outer loop of `dictIterNext`, which every turn takes to the next table or ends. -/
def iterTable : Nat → DictIterator K V → Option (Option (DictEntry K V) × DictIterator K V)
  | 0, _ => none
  | fuel + 1, iter =>
    if iter.htidx < 2 then
      if iter.ht.used = 0 then iterTable fuel { iter with htidx := iter.htidx + 1 }
      else match iter.entry with
        | entry :: next => some (some entry, { iter with entry := next })
        | [] =>
          match iterBucket iter.ht (iter.ht.size + 1) iter.index with
          | none => none
          | some (_, []) => iterTable fuel { iter with index := 0, htidx := iter.htidx + 1 }
          | some (index, entry :: next) => some (some entry, { iter with index := index, entry := next })
    else some (none, iter)

/-- `dictIterNext`; the inner `none` is `NULL`. -/
def dictIterNext (iter : DictIterator K V) : Option (Option (DictEntry K V) × DictIterator K V) :=
  iterTable 3 iter

/-- The entries that a loop of `dictIterNext` sees before `NULL`. -/
def iterRest : Nat → DictIterator K V → Option (List (DictEntry K V))
  | 0, _ => none
  | fuel + 1, iter =>
    match dictIterNext iter with
    | none => none
    | some (none, _) => some []
    | some (some entry, iter) => (iterRest fuel iter).map fun es => entry :: es

/-- The entries that a fresh iterator returns; there are no more than in the dict. -/
def dictIterate (d : Dict K V) : Option (List (DictEntry K V)) :=
  iterRest (dictSize d + 1) (dictGetIterator d)

/-! ## Calls -/

/-- A call on a dict. -/
inductive DictOp (K : Type u) (V : Type v) where
  | add (key : K) (val : V)
  | replace (key : K) (val : V)
  | fetchValue (key : K)
  | contains (key : K)
  | delete (key : K)
  | size
deriving DecidableEq, Repr

/-- What a call returns: a status code, a value pointer, a truth value or a
count. -/
inductive DictReply (V : Type v) where
  | status (code : Int)
  | value (val : V)
  | bool (b : Bool)
  | count (n : Nat)
deriving DecidableEq, Repr

/-- One call: its reply and the dict after it. -/
def dictCall [Inhabited V] (t : DictType K) (d : Dict K V) :
    DictOp K V → Option (DictReply V × Dict K V)
  | .add key val => (dictAdd t d key val).map fun r => (.status r.1, r.2)
  | .replace key val => (dictReplace t d key val).map fun r => (.status r.1, r.2)
  | .fetchValue key => (dictFetchValue t d key).map fun r => (.value r.1, r.2)
  | .contains key => (dictContains t d key).map fun b => (.bool b, d)
  | .delete key => (dictDelete t d key).map fun r => (.status r.1, r.2)
  | .size => some (.count (dictSize d), d)

end Fedis

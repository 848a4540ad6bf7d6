import Fedis.Framework.Libc
import Fedis.Impl.Sds

/-!
# String objects (`robj.c`) and number arguments (`util.c`)

The encoding of a value is the constructor, what `ptr` points to its argument.
`type` is `REDIS_STRING` always; nothing reads `lru` and `refcount`.
-/

namespace Fedis

open Framework

inductive Robj where
  | int (val : Int)
  | embstr (ss : Sds)
  | raw (ss : Sds)
deriving DecidableEq, Repr

/-- `_createEmbeddedString`: the buffer behind the object has a byte for each
character and for the NUL. -/
def createEmbeddedString (s : Bytes) : Robj :=
  let len := (cstr s).length
  .embstr (sdscpy { buf := List.replicate (len + 1) 0, alloc := len + 1, len := 0, free := len } s)

/-- `_createRawString`. -/
def createRawString (s : Bytes) : Robj := .raw (sdsnew s)

/-- The base that `_string2l` reads a number in. -/
def string2lBase : Bytes → Nat
  | 48 :: x :: _ => if x = 120 ∨ x = 88 then 16 else 10
  | _ => 10

/-- `_string2l`: a decimal number, or a hexadecimal one that starts with `0x`,
and nothing behind it. -/
def string2l (s : Bytes) : Option Int :=
  let s := cstr s
  if s = [] then none
  else
    match strtol (string2lBase s) s with
    | some (value, []) => if inLong value then some value else none
    | _ => none

/-- `string2long` of `util.c`: a decimal number and nothing behind it. -/
def string2long (s : Bytes) : Option Int :=
  match strtol 10 (cstr s) with
  | some (val, []) => if inLong val then some val else none
  | _ => none

def robjCreateStringObject (s : Bytes) : Robj :=
  match string2l s with
  | some value => .int value
  | none => if (cstr s).length < 32 then createEmbeddedString s else createRawString s

/-- `robjGetValStr`: at most 1023 bytes fit in its buffer. -/
def robjGetValStr : Robj → Bytes
  | .int val => decimalInt val
  | .embstr ss | .raw ss => (cstr ss.buf).take 1023

/-- `_encodingStr`. -/
def encodingStr : Robj → Bytes
  | .int _ => bytes "integer"
  | .embstr _ => bytes "embstr"
  | .raw _ => bytes "raw"

end Fedis

import Fedis.Impl.Resp

/-!
# The values of the wire format

The format at the head of `resp.c`: simple strings, errors, integers, bulk strings and arrays of
values, with a null form for the last two. `encode` is the text of a value. The other functions
tell what the two parsers trip over: negative numbers and empty arrays (`refused`), and empty
bulk strings, which are at the end of the value (`endsEmpty`), before it, or nowhere
(`emptyFree`).
-/

namespace Fedis

open Framework

inductive RespValue where
  | simple (s : Bytes)
  | error (s : Bytes)
  | int (z : Int)
  | bulk (s : Bytes)
  | nullBulk
  | array (vs : List RespValue)
  | nullArray

namespace RespValue

mutual

def encode : RespValue → Bytes
  | simple s => 43 :: s ++ crlf
  | error s => 45 :: s ++ crlf
  | int z => 58 :: decimalInt z ++ crlf
  | bulk s => bulkString s
  | nullBulk => 36 :: decimalInt (-1) ++ crlf
  | array vs => 42 :: decimal vs.length ++ crlf ++ encodeAll vs
  | nullArray => 42 :: decimalInt (-1) ++ crlf

def encodeAll : List RespValue → Bytes
  | [] => []
  | v :: vs => v.encode ++ encodeAll vs

end

mutual

/-- Simple strings and errors are single lines. Bulk strings are shorter than `n`, and arrays have
fewer than 2³¹ elements. -/
def Within (n : Nat) : RespValue → Prop
  | simple s | error s => (13 : UInt8) ∉ s ∧ (10 : UInt8) ∉ s
  | bulk s => s.length < n
  | array vs => vs.length < 2 ^ 31 ∧ AllWithin n vs
  | int _ | nullBulk | nullArray => True

def AllWithin (n : Nat) : List RespValue → Prop
  | [] => True
  | v :: vs => v.Within n ∧ AllWithin n vs

end

mutual

/-- There is a negative number or an empty array in it. -/
def refused : RespValue → Bool
  | int z => decide (z < 0)
  | array vs => vs.isEmpty || anyRefused vs
  | simple _ | error _ | bulk _ | nullBulk | nullArray => false

def anyRefused : List RespValue → Bool
  | [] => false
  | v :: vs => v.refused || anyRefused vs

end

mutual

/-- There is no empty bulk string in it. -/
def emptyFree : RespValue → Bool
  | bulk s => !s.isEmpty
  | array vs => allEmptyFree vs
  | simple _ | error _ | int _ | nullBulk | nullArray => true

def allEmptyFree : List RespValue → Bool
  | [] => true
  | v :: vs => v.emptyFree && allEmptyFree vs

end

mutual

/-- It ends with an empty bulk string, and there is no other in it. -/
def endsEmpty : RespValue → Bool
  | bulk s => s.isEmpty
  | array vs => lastEndsEmpty vs
  | simple _ | error _ | int _ | nullBulk | nullArray => false

def lastEndsEmpty : List RespValue → Bool
  | [] => false
  | [v] => v.endsEmpty
  | v :: w :: vs => v.emptyFree && lastEndsEmpty (w :: vs)

end

end RespValue

end Fedis

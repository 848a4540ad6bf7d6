import Fedis.Impl.Resp

/-!
# The length of a value in a buffer (`net.c`)

`getRespLength` looks for a complete value at the start of the first `len` bytes of a memory, and
gives its length; -1 is `none`. A number is copied to a buffer of 32 bytes before it is read.
-/

namespace Fedis

open Framework

/-- The loop for the first line end, over `n` places from `i` on. -/
def findCrlf (m : Bytes) : Nat → Nat → Option Nat
  | 0, _ => none
  | n + 1, i => if m.getD i 0 = 13 ∧ m.getD (i + 1) 0 = 10 then some i else findCrlf m n (i + 1)

/-- The number between the type and the line end at `i`, which goes through `len_buf`. -/
def lenField (m : Bytes) (i : Nat) : Except Fault Int :=
  if 32 ≤ i - 1 then .error .undefined else .ok (atoi (cstr ((m.drop 1).take (i - 1))))

/-- A bulk string with its first line. -/
def bulkLength (m : Bytes) (len prefixLen : Nat) (dataLen : Int) : Option Nat :=
  if dataLen ≤ 0 then some prefixLen
  else
    let last := prefixLen + dataLen.toNat
    if len < last + 2 then none
    else if m.getD last 0 = 13 ∧ m.getD (last + 1) 0 = 10 then some (last + 2)
    else none

/-- The elements of an array that are left, `measure` being `getRespLength`. -/
def elementsLength (measure : Bytes → Nat → Except Fault (Option Nat)) (m : Bytes) (len : Nat) :
    Nat → Nat → Except Fault (Option Nat)
  | 0, offset => .ok (some offset)
  | n + 1, offset => do
    if len ≤ offset then .ok none
    else match ← measure (m.drop offset) (len - offset) with
      | none => .ok none
      | some elemLen => elementsLength measure m len n (offset + elemLen)

/-- `getRespLength`. The recursion is bounded as that of `respParse` is. -/
def getRespLengthBounded : Nat → Bytes → Nat → Except Fault (Option Nat)
  | 0, _, _ => .error .undefined
  | depth + 1, m, len =>
    if len < 2 then .ok none
    else match m.getD 0 0 with
      | 43 | 45 | 58 => .ok ((findCrlf m (len - 2) 1).map (· + 2))
      | 36 =>
        match findCrlf m (len - 2) 1 with
        | none => .ok none
        | some i => (lenField m i).map (bulkLength m len (i + 2))
      | 42 =>
        match findCrlf m (len - 2) 1 with
        | none => .ok none
        | some i => do
          let numElements ← lenField m i
          if numElements ≤ 0 then .ok (some (i + 2))
          else elementsLength (getRespLengthBounded depth) m len numElements.toNat (i + 2)
      | _ => .ok none

def getRespLength (m : Bytes) (len : Nat) : Except Fault (Option Nat) :=
  getRespLengthBounded (len + 1) m len

end Fedis

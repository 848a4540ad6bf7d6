import Fedis.Framework.Libc

/-!
# The wire format (`resp.c`)

`resp_decode` runs on the memory of a dumped string. Where the source reads a
variable that `sscanf` left unset, dereferences `strchr`'s `NULL` or copies from
behind the memory, the result is `undef`. An argument keeps all bytes that were
copied; its users see the C string in it.

`respEncodeArrayString` is the encoding of a request. The function of that name prints it into
a buffer that it doubles at most once for each argument (`respEncodeArrayStringBuf`).

`respParse` looks for a complete value in the first `len` bytes of a memory and
gives the index of its last byte.
-/

namespace Fedis

open Framework

namespace resp

def ok : Bytes := bytes "+OK\r\n"
def pong : Bytes := bytes "+PONG\r\n"
def err : Bytes := bytes "-ERR\r\n"
def keyNotFound : Bytes := bytes "-ERR key not found\r\n"
def bye : Bytes := bytes "-bye\r\n"
def invalidCommand : Bytes := bytes "-Invalid command\r\n"
def fullsync : Bytes := bytes "+FULLSYNC\r\n"
def appendsync : Bytes := bytes "+APPENDSYNC\r\n"
def nosync : Bytes := bytes "+NOSYNC\r\n"
def dupkey : Bytes := bytes "-ERR:Duplicate key\r\n"
def ping : Bytes := bytes "*1\r\n$4\r\nPING\r\n"
def valmissed : Bytes := bytes "-ERR: Value missed\r\n"

end resp

def crlf : Bytes := [13, 10]

/-- One argument of an encoded array, without its line end. -/
def respEncodeArg (arg : Bytes) : Bytes := 36 :: decimal (cstr arg).length ++ crlf ++ cstr arg

/-- The string that `respEncodeArrayString` is to return. -/
def respEncodeArrayString (argv : List Bytes) : Bytes :=
  42 :: decimal argv.length ++ crlf ++ argv.flatMap fun arg => respEncodeArg arg ++ crlf

/-! ## The buffer of `respEncodeArrayString` -/

/-- A `malloc`ed buffer and the length that is counted. Bytes that were not written are not set. -/
structure RespBuf where
  buf : List (Option UInt8)
  len : Nat
deriving DecidableEq, Repr

namespace RespBuf

/-- Bytes are written from index `i` on. -/
def store (m : List (Option UInt8)) (i : Nat) (bs : Bytes) : List (Option UInt8) :=
  m.take i ++ bs.map some ++ m.drop (i + bs.length)

/-- `len += snprintf(buf + len, cap - len, …)`. The text is cut to `cap - len`, its NUL
included; what is added is the length of the whole text. -/
def print (b : RespBuf) (text : Bytes) : Except Fault RespBuf :=
  let size := b.buf.length - b.len
  -- `cap - len` is a `size_t`
  if b.buf.length < b.len then .error .undefined
  else .ok ⟨store b.buf b.len (if size = 0 then [] else text.take (size - 1) ++ [0]),
    b.len + text.length⟩

/-- The `realloc`, if `n` more bytes reach the capacity. -/
def grow (b : RespBuf) (n : Nat) : RespBuf :=
  if b.buf.length ≤ b.len + n then { b with buf := b.buf ++ List.replicate b.buf.length none } else b

/-- `memcpy(buf + len, …)`, and `len` after it. -/
def copy (b : RespBuf) (bs : Bytes) : Except Fault RespBuf :=
  if b.len + bs.length ≤ b.buf.length then .ok ⟨store b.buf b.len bs, b.len + bs.length⟩
  else .error .undefined

/-- The body of the loop. -/
def addArg (b : RespBuf) (arg : Bytes) : Except Fault RespBuf := do
  let arglen := toInt32 (cstr arg).length
  let b ← b.print (36 :: decimalInt arglen ++ crlf)
  -- a `memcpy` of a negative length
  if arglen < 0 then .error .undefined
  else
    let b ← (b.grow (arglen.toNat + 2)).copy ((cstr arg).take arglen.toNat)
    b.copy crlf

/-- The C string at the start of a memory. -/
def string : List (Option UInt8) → Except Fault Bytes
  | some b :: m => if b = 0 then .ok [] else do return b :: (← string m)
  | _ => .error .undefined

end RespBuf

/-- `respEncodeArrayString`, with the string that is in the buffer it returns. -/
def respEncodeArrayStringBuf (argv : List Bytes) : Except Fault Bytes := do
  let b : RespBuf ← (RespBuf.mk (List.replicate 1024 none) 0).print
    (42 :: decimalInt (toInt32 argv.length) ++ crlf)
  let b ← argv.foldlM RespBuf.addArg b
  if b.len < b.buf.length then RespBuf.string (RespBuf.store b.buf b.len [0]) else .error .undefined

/-- The encoding of a bulk string. -/
def bulkString (s : Bytes) : Bytes := 36 :: decimal s.length ++ crlf ++ s ++ crlf

/-- `respEncodeBulkString`: it prints, with the NUL, into 1024 bytes. -/
def respEncodeBulkString (s : Bytes) : Except Fault Bytes :=
  if (bulkString (cstr s)).length < 1024 then .ok (bulkString (cstr s)) else .error .undefined

/-- How `resp_decode` ends: with 0 and the arguments, with -1, or not at all. -/
inductive Decoded where
  | ok (argv : List Bytes)
  | err
  | undef
deriving DecidableEq, Repr

/-- `strchr(p, '\n') + 1`. -/
def afterNewline : Bytes → Option Bytes
  | [] => none
  | b :: m => if b = 0 then none else if b = 10 then some m else afterNewline m

/-- The loop of `resp_decode` over the arguments that are left. -/
def respDecodeArgs : Nat → Bytes → Decoded
  | 0, _ => .ok []
  | _ + 1, [] => .undef
  | n + 1, c :: p =>
    if c ≠ 36 then .err
    else match scanInt p, afterNewline p with
      | some len, some p =>
        if len < 0 ∨ p.length < len.toNat then .undef
        else match respDecodeArgs n (p.drop (len.toNat + 2)) with
          | .ok argv => .ok (p.take len.toNat :: argv)
          | r => r
      | _, _ => .undef

def respDecode (m : Bytes) : Decoded :=
  match m with
  | [] => .err
  | c :: p =>
    if c ≠ 42 then .err
    else match scanInt p with
      | none => .undef
      | some argc =>
        if argc ≤ 0 then .ok []
        else match afterNewline p with
          | none => .undef
          | some p => respDecodeArgs argc.toNat p

/-- `find_line_end`: the index of the line end's last byte. -/
def findLineEnd (m : Bytes) (len : Nat) : Option Nat :=
  if len < 2 then none
  else match (m.take (len - 1)).idxOf? 13 with
    | none => none
    | some r => if m.getD (r + 1) 0 = 10 then some (r + 1) else none

/-- `strtol` with base 10, which is 0 where there is no number. -/
def strtolVal (m : Bytes) : Int := ((strtol 10 m).map fun r => clampLong r.1).getD 0

/-- The elements of an array from index `current` on, `parse` being `respParse`. -/
def respParseElements (parse : Bytes → Nat → Except Fault (Option Nat)) (m : Bytes) (len : Nat) :
    Nat → Nat → Except Fault (Option Nat)
  | 0, current => .ok (some (current - 1))
  | n + 1, current => do
    match ← parse (m.drop current) (len - current) with
    | none => .ok none
    | some elementEnd => respParseElements parse m len n (current + elementEnd + 1)

/-- A bulk string with its first line's end. -/
def respParseBulk (m : Bytes) (len firstCrlf : Nat) : Except Fault (Option Nat) :=
  let slen := strtolVal (m.drop 1)
  if slen = -1 then .ok (some firstCrlf)
  else if slen < -1 then .ok none
  else if LONG_MAX < slen + 2 then .error .undefined
  else
    let str := firstCrlf + 1
    if len - str < slen.toNat + 2 then .ok none
    else
      let secondCrlf := str + slen.toNat
      if m.getD secondCrlf 0 = 13 ∧ m.getD (secondCrlf + 1) 0 = 10 then .ok (some (secondCrlf + 1))
      else .ok none

/-- `respParse`. It returns nothing for a value of another type. An element of an
array has fewer bytes left than the array, by which the recursion is bounded. -/
def respParseBounded : Nat → Bytes → Nat → Except Fault (Option Nat)
  | 0, _, _ => .error .undefined
  | depth + 1, m, len =>
    if len < 3 then .ok none
    else match findLineEnd m len with
      | none => .ok none
      | some firstCrlf =>
        match m.getD 0 0 with
        | 43 | 45 => .ok (some firstCrlf)
        | 58 => .ok (if ((m.take (firstCrlf - 1)).drop 1).all (isDigitOf 10) then some firstCrlf
            else none)
        | 36 => respParseBulk m len firstCrlf
        | 42 =>
          let count := strtolVal (m.drop 1)
          if count = 0 then .ok none
          else respParseElements (respParseBounded depth) m len count.toNat (firstCrlf + 1)
        | _ => .error .undefined

def respParse (m : Bytes) (len : Nat) : Except Fault (Option Nat) := respParseBounded (len + 1) m len

end Fedis

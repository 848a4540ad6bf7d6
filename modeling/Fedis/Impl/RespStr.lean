import Fedis.Impl.Resp

/-!
# A value as a text for the user (`resp_str`)

The argument is the string without its NUL, and `p` what is left of it up to `endp`. `buf` has the
bytes that were written to the buffer of 1024, which is all zeros before; a write behind its end is
undefined, and so is the use of `len` and `n` where `sscanf` did not set them.
-/

namespace Fedis

open Framework

/-- `sscanf` with `%d%n`: the number, and how many bytes it took with the blanks before it. -/
def scanLen (p : Bytes) : Option (Int × Nat) :=
  (strtol 10 p).map fun r => (toInt32 (clampLong r.1), p.length - r.2.length)

/-- The checks for a line end at `p`. -/
def skipCrlf : Bytes → Option Bytes
  | 13 :: 10 :: p => some p
  | _ => none

/-- A write at `buf + bufidx`. -/
def emit (buf bs : Bytes) : Except Fault Bytes :=
  if buf.length + bs.length ≤ 1024 then .ok (buf ++ bs) else .error .undefined

/-- `strdup(buf)`, which needs a NUL in the buffer. -/
def dupBuf (buf : Bytes) : Except Fault (Option Bytes) :=
  if buf.length < 1024 then .ok (some buf) else .error .undefined

/-- The bytes of a bulk string and its line end. They are written behind `buf`, and `sep` behind
them. -/
def respStrPayload (buf p : Bytes) (len : Nat) (sep : Bytes) : Except Fault (Option (Bytes × Bytes)) := do
  if p.length < len + 2 then .ok none
  else
    let buf ← emit buf (p.take len ++ sep)
    match skipCrlf (p.drop len) with
    | none => .ok none
    | some p => .ok (some (buf, p))

/-- The case `'$'`. Here `len` and `n` have no value before `sscanf`. -/
def respStrBulk (p : Bytes) : Except Fault (Option Bytes) := do
  match scanLen p with
  | none => .error .undefined
  | some (len, n) =>
    if n = 0 then .ok none
    else if len < -1 then .ok none
    else if len = -1 then dupBuf (bytes "NULL")
    else match skipCrlf (p.drop n) with
      | none => .ok none
      | some p =>
        match ← respStrPayload [] p len.toNat [] with
        | none => .ok none
        | some (buf, _) => dupBuf buf

/-- The loop over the elements of an array that are left. `len` and `n` keep their values where
`sscanf` does not set them. -/
def respStrElements : Nat → Int → Nat → Bytes → Bytes → Except Fault (Option Bytes)
  | 0, _, _, _, buf => do dupBuf (← emit buf (bytes "]"))
  | i + 1, len, n, p, buf =>
    match p with
    | 36 :: p =>
      let (len, n) := (scanLen p).getD (len, n)
      if n = 0 then .ok none
      else match skipCrlf (p.drop n) with
        | none => .ok none
        | some p =>
          if len < -1 then .ok none
          else if len = -1 then do respStrElements i len n p (← emit buf (bytes "NULL,"))
          else do
            match ← respStrPayload buf p len.toNat (bytes ",") with
            | none => .ok none
            | some (buf, p) => respStrElements i len n p buf
    | _ => .ok none

/-- The case `'*'`. -/
def respStrArray (p : Bytes) : Except Fault (Option Bytes) :=
  let (arrlen, n) := (scanLen p).getD (0, 0)
  if n = 0 then .ok none
  else match skipCrlf (p.drop n) with
    | none => .ok none
    | some p =>
      if arrlen = -1 then dupBuf (bytes "NULL")
      else if arrlen < -1 then .ok none
      else respStrElements arrlen.toNat 0 n p (bytes "[")

/-- The case `':'`. -/
def respStrInteger (p : Bytes) : Except Fault (Option Bytes) :=
  let (num, n) := (scanLen p).getD (0, 0)
  if n = 0 then .ok none
  else match skipCrlf (p.drop n) with
    | none => .ok none
    | some _ => dupBuf (decimalInt num)

/-- The cases `'+'` and `'-'`. -/
def respStrLine (p : Bytes) : Except Fault (Option Bytes) :=
  match p.idxOf? 13 with
  | none => .ok none
  | some len =>
    if p.getD (len + 1) 0 ≠ 10 then .ok none
    else if len = 0 then .ok none
    else do dupBuf (← emit [] (p.take len))

def respStr (resp : Bytes) : Except Fault (Option Bytes) :=
  if 1024 < resp.length then .ok none
  else match resp with
    | 36 :: p => respStrBulk p
    | 42 :: p => respStrArray p
    | 58 :: p => respStrInteger p
    | 43 :: p | 45 :: p => respStrLine p
    | _ => .ok none

end Fedis

import Fedis.Framework.Lines
import Fedis.Impl.Commands

/-!
# The configuration file (`conf.c`)

The content of the file goes in, and for `update_config` the content it has afterwards comes out.
The files are taken to be there, and can be opened and renamed.
-/

namespace Fedis

open Framework

/-- `strim`. -/
def strim (s : Bytes) : Bytes := (cstr s).filter fun b => !isspace b

/-- The loop of `get_config`. Where `strtok` gives `NULL`, it is used all the same. -/
def getConfigLines (key : Bytes) : List Bytes → Except Fault (Option Bytes)
  | [] => .ok none
  | line :: lines =>
    let line := strim line
    if line.head? = some 35 ∨ line.head? = some 10 then getConfigLines key lines
    else match strtok line 61 with
      | [] => .error .undefined
      | k :: toks =>
        if strcaseeq k key then
          match toks with
          | [] => .error .undefined
          | v :: _ => .ok (some v)
        else getConfigLines key lines

/-- `get_config`. -/
def getConfig (file key : Bytes) : Except Fault (Option Bytes) := getConfigLines key (fgetsAll 63 file)

/-- The line that `update_config` writes. -/
def configLine (key value : Bytes) : Bytes := key ++ 61 :: value ++ [10]

/-- `update_config`. -/
def updateConfig (file key value : Bytes) : Bytes :=
  let lines := fgetsAll 511 file
  let found := lines.any fun line => strncaseeq line key key.length
  lines.flatMap (fun line => if strncaseeq line key key.length then configLine key value else cstr line) ++
    if found then [] else configLine key value

end Fedis

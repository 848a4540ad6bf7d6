import Fedis.Impl.Resp

/-!
# Values that are shown to the user

A value that is not nested, at the start of a text, and what is to be shown of it. The number in a
header may have a sign and zeros in front, but no blanks.
-/

namespace Fedis.RespText

open Framework

/-- A bulk string or its null form, and what is shown of it. -/
inductive Bulk : Bytes → Bytes → Prop
  | string (num s : Bytes) (h : IsNumber num s.length) : Bulk (36 :: num ++ crlf ++ (s ++ crlf)) s
  | null (num : Bytes) (h : IsNumber num (-1)) : Bulk (36 :: num ++ crlf) (bytes "NULL")

/-- The text of the elements of an array. -/
def texts (es : List (Bytes × Bytes)) : Bytes := es.flatMap (·.1)

/-- What is shown of them. -/
def showns (es : List (Bytes × Bytes)) : Bytes := es.flatMap fun e => e.2 ++ bytes ","

/-- The text begins with a value, of which this is shown. -/
inductive Begins : Bytes → Bytes → Prop
  | line (b : UInt8) (line rest : Bytes) (hb : b = 43 ∨ b = 45) (hcr : (13 : UInt8) ∉ line)
    (hlf : (10 : UInt8) ∉ line) : Begins (b :: line ++ crlf ++ rest) line
  | int (num : Bytes) (z : Int) (rest : Bytes) (h : IsNumber num z) :
    Begins (58 :: num ++ crlf ++ rest) (decimalInt z)
  | bulk (text shown rest : Bytes) (h : Bulk text shown) : Begins (text ++ rest) shown
  | nullArray (num rest : Bytes) (h : IsNumber num (-1)) :
    Begins (42 :: num ++ crlf ++ rest) (bytes "NULL")
  | array (num : Bytes) (es : List (Bytes × Bytes)) (rest : Bytes) (h : IsNumber num es.length)
    (he : ∀ e ∈ es, Bulk e.1 e.2) :
    Begins (42 :: num ++ crlf ++ (texts es ++ rest)) (bytes "[" ++ showns es ++ bytes "]")

end Fedis.RespText

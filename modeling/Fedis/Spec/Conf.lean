import Fedis.Framework.Libc

/-!
# Configuration files

A file is made of lines that give a key a value, comments and blank lines; its last line may have no
end.
-/

namespace Fedis

open Framework

/-- No NUL, no white space, no `=` and no `#`. -/
def Word (s : Bytes) : Prop := ∀ b ∈ s, b ≠ 0 ∧ isspace b = false ∧ b ≠ 61 ∧ b ≠ 35

instance (s : Bytes) : Decidable (Word s) :=
  inferInstanceAs (Decidable (∀ b ∈ s, b ≠ 0 ∧ isspace b = false ∧ b ≠ 61 ∧ b ≠ 35))

/-- Equal, ignoring case. -/
def SameKey (k k' : Bytes) : Prop := k.map tolower = k'.map tolower

instance (k k' : Bytes) : Decidable (SameKey k k') :=
  inferInstanceAs (Decidable (k.map tolower = k'.map tolower))

inductive ConfLine where
  | entry (key value : Bytes)
  | comment (blanks text : Bytes)
  | blank (blanks : Bytes)
deriving DecidableEq, Repr

namespace ConfLine

def text : ConfLine → Bytes
  | entry key value => key ++ 61 :: value
  | comment blanks text => blanks ++ 35 :: text
  | blank blanks => blanks

def key? : ConfLine → Option Bytes
  | entry key _ => some key
  | comment _ _ | blank _ => none

def isBlank : ConfLine → Bool
  | blank _ => true
  | entry _ _ | comment _ _ => false

/-- A value is more than white space and `=`. -/
def WellFormed : ConfLine → Prop
  | entry key value => (key ≠ [] ∧ Word key) ∧ ∃ b ∈ value, isspace b = false ∧ b ≠ 61
  | comment blanks _ | blank blanks => ∀ b ∈ blanks, isspace b = true

instance : DecidablePred WellFormed
  | entry key value =>
    inferInstanceAs (Decidable ((key ≠ [] ∧ Word key) ∧ ∃ b ∈ value, isspace b = false ∧ b ≠ 61))
  | comment blanks _ | blank blanks => inferInstanceAs (Decidable (∀ b ∈ blanks, isspace b = true))

/-- A line of less than 64 bytes. -/
structure Valid (l : ConfLine) : Prop where
  form : l.WellFormed
  bytes : ∀ b ∈ l.text, b ≠ 0 ∧ b ≠ 10
  length : l.text.length < 64

theorem valid_iff (l : ConfLine) :
    (l.WellFormed ∧ (∀ b ∈ l.text, b ≠ 0 ∧ b ≠ 10) ∧ l.text.length < 64) ↔ l.Valid := by
  constructor
  · rintro ⟨form, bytes, length⟩
    exact ⟨form, bytes, length⟩
  · intro h
    exact ⟨h.form, h.bytes, h.length⟩

instance : DecidablePred Valid := fun l =>
  have := List.decidableBAll (fun b : UInt8 => b ≠ 0 ∧ b ≠ 10) l.text
  decidable_of_iff _ (valid_iff l)

end ConfLine

/-- The lines with an end, and one without it. -/
structure ConfFile where
  lines : List ConfLine
  last : Option ConfLine
deriving DecidableEq, Repr

namespace ConfFile

def all (f : ConfFile) : List ConfLine := f.lines ++ f.last.toList

def text (f : ConfFile) : Bytes :=
  f.lines.flatMap (fun l => l.text ++ [10]) ++ f.last.toList.flatMap ConfLine.text

def keys (f : ConfFile) : List Bytes := f.all.filterMap ConfLine.key?

structure Valid (f : ConfFile) : Prop where
  lines : ∀ l ∈ f.all, l.Valid
  last : ∀ l ∈ f.last, l.text ≠ []

end ConfFile

end Fedis

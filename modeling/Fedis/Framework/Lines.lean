import Fedis.Framework.Libc

/-!
# Reading lines

`fgetsAll n` are the strings that calls of `fgets` give one after the other, up to the end of the
file; `n` is the number of bytes that fit, the NUL not counted.

* `fgets_line`, `fgets_last`: a line that fits comes in one piece;
* `fgets_full`: what fills the buffer comes without what follows it;
* `fgets_lines`: the pieces of several lines.
-/

namespace Fedis.Framework

/-- With `line` read so far. -/
def fgetsFrom (n : Nat) : Bytes → Bytes → List Bytes
  | line, [] => if line = [] then [] else [line]
  | line, b :: f =>
    if b = 10 ∨ n ≤ line.length + 1 then (line ++ [b]) :: fgetsFrom n [] f
    else fgetsFrom n (line ++ [b]) f

def fgetsAll (n : Nat) (f : Bytes) : List Bytes := fgetsFrom n [] f

variable {n : Nat} {l line : Bytes}

theorem fgetsFrom_line (hl : (10 : UInt8) ∉ l) (hfit : line.length + l.length < n) (f : Bytes) :
    fgetsFrom n line (l ++ 10 :: f) = (line ++ l ++ [10]) :: fgetsAll n f := by
  induction l generalizing line with
  | nil => simp [fgetsFrom, fgetsAll]
  | cons b l ih =>
    rw [List.mem_cons, not_or] at hl
    rw [List.length_cons] at hfit
    rw [List.cons_append, fgetsFrom, if_neg (by rintro (rfl | h) <;> [exact hl.1 rfl; omega]),
      ih hl.2 (by rw [List.length_append, List.length_singleton]; omega)]
    simp

/-- A line that fits, with its end. -/
theorem fgets_line (hl : (10 : UInt8) ∉ l) (hfit : l.length < n) (f : Bytes) :
    fgetsAll n (l ++ 10 :: f) = (l ++ [10]) :: fgetsAll n f :=
  fgetsFrom_line hl (by simpa using hfit) f

theorem fgetsFrom_full (hl : (10 : UInt8) ∉ l) (hne : l ≠ []) (hfull : line.length + l.length = n)
    (f : Bytes) : fgetsFrom n line (l ++ f) = (line ++ l) :: fgetsAll n f := by
  induction l generalizing line with
  | nil => exact absurd rfl hne
  | cons b l ih =>
    rw [List.mem_cons, not_or] at hl
    rw [List.length_cons] at hfull
    rw [List.cons_append, fgetsFrom]
    by_cases hnil : l = []
    · rw [hnil, List.length_nil] at hfull
      rw [hnil, if_pos (.inr (by omega))]
      rfl
    · have hpos := List.length_pos_of_ne_nil hnil
      rw [if_neg (by rintro (rfl | h) <;> [exact hl.1 rfl; omega]),
        ih hl.2 hnil (by rw [List.length_append, List.length_singleton]; omega)]
      simp

/-- A line that fills the buffer: its end, if it has one, is left. -/
theorem fgets_full (hl : (10 : UInt8) ∉ l) (hne : l ≠ []) (hfull : l.length = n) (f : Bytes) :
    fgetsAll n (l ++ f) = l :: fgetsAll n f :=
  fgetsFrom_full hl hne (by simpa using hfull) f

theorem fgetsFrom_last (hl : (10 : UInt8) ∉ l) (hne : line ++ l ≠ []) (hfit : line.length + l.length < n) :
    fgetsFrom n line l = [line ++ l] := by
  induction l generalizing line with
  | nil =>
    rw [List.append_nil] at hne ⊢
    rw [fgetsFrom, if_neg hne]
  | cons b l ih =>
    rw [List.mem_cons, not_or] at hl
    rw [List.length_cons] at hfit
    rw [fgetsFrom, if_neg (by rintro (rfl | h) <;> [exact hl.1 rfl; omega]),
      ih hl.2 (by simp) (by rw [List.length_append, List.length_singleton]; omega)]
    simp

/-- A last line without an end. -/
theorem fgets_last (hl : (10 : UInt8) ∉ l) (hne : l ≠ []) (hfit : l.length ≤ n) : fgetsAll n l = [l] := by
  rcases Nat.lt_or_eq_of_le hfit with hlt | heq
  · exact fgetsFrom_last hl hne (by simpa using hlt)
  · have := fgets_full hl hne heq []
    rwa [List.append_nil] at this

/-- What a line with its end comes in. -/
def pieces (n : Nat) (l : Bytes) : List Bytes := if l.length < n then [l ++ [10]] else [l, [10]]

theorem fgets_pieces (hn : 1 < n) (hl : (10 : UInt8) ∉ l) (hfit : l.length ≤ n) (f : Bytes) :
    fgetsAll n (l ++ 10 :: f) = pieces n l ++ fgetsAll n f := by
  rw [pieces]
  split
  · rename_i hlt
    exact fgets_line hl hlt f
  · rename_i hge
    have hne : l ≠ [] := List.length_pos_iff.mp (by omega)
    rw [fgets_full hl hne (by omega)]
    exact congrArg (l :: ·) (fgets_line (l := []) (by simp) (by simpa using by omega) f)

theorem fgets_lines {ls : List Bytes} (hn : 1 < n) (h : ∀ l ∈ ls, (10 : UInt8) ∉ l ∧ l.length ≤ n)
    (f : Bytes) :
    fgetsAll n (ls.flatMap (· ++ [10]) ++ f) = ls.flatMap (pieces n) ++ fgetsAll n f := by
  induction ls with
  | nil => rfl
  | cons l ls ih =>
    obtain ⟨hl, hls⟩ := List.forall_mem_cons.mp h
    rw [List.flatMap_cons, List.flatMap_cons, List.append_assoc, List.append_assoc, List.append_assoc,
      ← ih hls]
    exact fgets_pieces hn hl.1 hl.2 _

end Fedis.Framework

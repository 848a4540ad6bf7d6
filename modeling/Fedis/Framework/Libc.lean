import Fedis.Framework.Bytes

/-!
# The C library's strings and numbers

`strtol` gives the exact value (it is out of range, `ERANGE`, iff `inLong` is
false) and what follows the number; `scanInt` is `sscanf` with `%d`, `decimal`
and `decimalInt` are the output of `%lu` and `%ld`.

* `decimal_of_lt`, `decimal_of_ge`: the digits of a number, last digit last;
* `strtol_decimal`: reading back what was written.
-/

namespace Fedis.Framework

/-- How a call may fail to return: it does something undefined, or it stops the
program. -/
inductive Fault where
  | undefined
  | abort
deriving DecidableEq, Repr

/-! ## Strings -/

/-- `tolower` in the C locale. -/
def tolower (b : UInt8) : UInt8 := if 65 ≤ b ∧ b ≤ 90 then b + 32 else b

/-- `strcasecmp` finds the C strings equal. -/
def strcaseeq (a b : Bytes) : Bool := (cstr a).map tolower == (cstr b).map tolower

/-- `strncasecmp` finds the first `n` bytes of the C strings equal. -/
def strncaseeq (a b : Bytes) (n : Nat) : Bool :=
  ((cstr a).take n).map tolower == ((cstr b).take n).map tolower

/-- `strchr` finds the character in the C string, whose terminator is one of its characters. -/
def strchr (s : Bytes) (c : UInt8) : Bool := c == 0 || (cstr s).contains c

/-- `strcmp` on strings that end with the list. -/
def strcmpLoop : Bytes → Bytes → Int
  | [], [] => 0
  | a :: _, [] => a.toNat
  | [], b :: _ => -b.toNat
  | a :: as, b :: bs => if a = b then strcmpLoop as bs else (a.toNat : Int) - b.toNat

def strcmp (a b : Bytes) : Int := strcmpLoop (cstr a) (cstr b)

/-! ## Numbers -/

def isspace (b : UInt8) : Bool := b == 32 || (9 ≤ b && b ≤ 13)

/-- The value of a digit or letter, 36 if it is neither. -/
def digitVal (b : UInt8) : Nat :=
  if 48 ≤ b ∧ b ≤ 57 then b.toNat - 48
  else if 97 ≤ b ∧ b ≤ 122 then b.toNat - 87
  else if 65 ≤ b ∧ b ≤ 90 then b.toNat - 55
  else 36

def isDigitOf (base : Nat) (b : UInt8) : Bool := digitVal b < base

/-- The number that some digits spell. -/
def digitsVal (base : Nat) (ds : Bytes) : Nat := ds.foldl (fun n b => n * base + digitVal b) 0

/-- The sign of a number, and what follows it. -/
def splitSign : Bytes → Bool × Bytes
  | 45 :: s => (true, s)
  | 43 :: s => (false, s)
  | s => (false, s)

/-- A number of base 16 may start with `0x`. -/
def skipHexPrefix : Bytes → Bytes
  | 48 :: x :: d :: s => if (x == 120 || x == 88) && isDigitOf 16 d then d :: s else 48 :: x :: d :: s
  | s => s

/-- `strtol` and `strtoll`: the value and the rest of the string, or `none` where
there is no number. -/
def strtol (base : Nat) (s : Bytes) : Option (Int × Bytes) :=
  let r := splitSign (s.dropWhile isspace)
  let t := if base = 16 then skipHexPrefix r.2 else r.2
  let ds := t.takeWhile (isDigitOf base)
  if ds = [] then none
  else
    let n : Int := digitsVal base ds
    some (if r.1 then -n else n, t.dropWhile (isDigitOf base))

def LONG_MAX : Int := 2 ^ 63 - 1
def LONG_MIN : Int := -2 ^ 63

def inLong (v : Int) : Prop := LONG_MIN ≤ v ∧ v ≤ LONG_MAX

instance (v : Int) : Decidable (inLong v) := instDecidableAnd

/-- What `strtol` returns for this value. -/
def clampLong (v : Int) : Int := max LONG_MIN (min LONG_MAX v)

/-- A `long` cut to an `int`. -/
def toInt32 (v : Int) : Int := v.bmod (2 ^ 32)

/-- `sscanf` with `%d`; `none` leaves the variable unset. -/
def scanInt (s : Bytes) : Option Int := (strtol 10 s).map fun r => toInt32 (clampLong r.1)

def atoi (s : Bytes) : Int := ((strtol 10 s).map fun r => toInt32 (clampLong r.1)).getD 0

/-- A number in decimal digits. -/
def decimal (n : Nat) : Bytes := (Nat.toDigits 10 n).map fun c => c.val.toUInt8

def decimalInt (z : Int) : Bytes := if z < 0 then 45 :: decimal z.natAbs else decimal z.natAbs

/-- A number as `strtol` reads it in base 10: a sign or none, and digits. -/
inductive IsNumber : Bytes → Int → Prop
  | plain (ds : Bytes) (hd : ∀ b ∈ ds, isDigitOf 10 b = true) (hne : ds ≠ []) :
    IsNumber ds (digitsVal 10 ds)
  | plus (ds : Bytes) (hd : ∀ b ∈ ds, isDigitOf 10 b = true) (hne : ds ≠ []) :
    IsNumber (43 :: ds) (digitsVal 10 ds)
  | minus (ds : Bytes) (hd : ∀ b ∈ ds, isDigitOf 10 b = true) (hne : ds ≠ []) :
    IsNumber (45 :: ds) (-digitsVal 10 ds)

theorem strcmpLoop_eq_zero : ∀ {a b : Bytes}, (∀ c ∈ a, c ≠ 0) → (∀ c ∈ b, c ≠ 0) →
    (strcmpLoop a b = 0 ↔ a = b)
  | [], [], _, _ => by simp [strcmpLoop]
  | a :: as, [], ha, _ => by
    have := mt UInt8.toNat_inj.mp (ha a List.mem_cons_self)
    simpa [strcmpLoop] using this
  | [], b :: bs, _, hb => by
    have := mt UInt8.toNat_inj.mp (hb b List.mem_cons_self)
    simpa [strcmpLoop] using this
  | a :: as, b :: bs, ha, hb => by
    rw [strcmpLoop]
    split
    · rename_i hab
      rw [strcmpLoop_eq_zero (fun c hc => ha c (List.mem_cons_of_mem _ hc))
        fun c hc => hb c (List.mem_cons_of_mem _ hc), hab, List.cons.injEq, and_iff_right rfl]
    · rename_i hab
      have : a.toNat ≠ b.toNat := mt UInt8.toNat_inj.mp hab
      simp only [List.cons.injEq, hab, false_and, iff_false]
      omega

/-- `strcmp` is 0 on equal C strings only. -/
theorem strcmp_eq_zero {a b : Bytes} : strcmp a b = 0 ↔ cstr a = cstr b :=
  strcmpLoop_eq_zero cstr_ne_zero cstr_ne_zero

/-! ## Ranges -/

theorem clampLong_eq {z : Int} (h : inLong z) : clampLong z = z := by
  obtain ⟨h₁, h₂⟩ := h
  rw [clampLong, Int.min_eq_right h₂, Int.max_eq_right h₁]

theorem toInt32_eq_self {z : Int} (h₁ : -2 ^ 31 ≤ z) (h₂ : z < 2 ^ 31) : toInt32 z = z :=
  Int.bmod_eq_of_le (by omega) (by omega)

theorem toInt32_range (z : Int) : -2 ^ 31 ≤ toInt32 z ∧ toInt32 z < 2 ^ 31 := by
  have h₁ := Int.le_bmod (x := z) (m := 2 ^ 32) (by decide)
  have h₂ := Int.bmod_lt (x := z) (m := 2 ^ 32) (by decide)
  rw [toInt32]
  omega

theorem inLong_of_int {z : Int} (h₁ : -2 ^ 31 ≤ z) (h₂ : z < 2 ^ 31) : inLong z :=
  ⟨Int.le_trans (by decide) h₁, Int.le_trans (Int.le_of_lt h₂) (by decide)⟩

/-- What `sscanf` makes of an `int`. -/
theorem toInt32_clamp {z : Int} (h₁ : -2 ^ 31 ≤ z) (h₂ : z < 2 ^ 31) : toInt32 (clampLong z) = z := by
  rw [clampLong_eq (inLong_of_int h₁ h₂), toInt32_eq_self h₁ h₂]

/-! ## Writing and reading back -/

theorem digitChar_lt {d : Nat} (h : d < 10) : d.digitChar.val.toUInt8 = UInt8.ofNat (48 + d) := by
  have all : ∀ d < 10, d.digitChar.val.toUInt8 = UInt8.ofNat (48 + d) := by decide
  exact all d h

theorem digitVal_ofNat {d : Nat} (h : d < 10) : digitVal (UInt8.ofNat (48 + d)) = d := by
  have all : ∀ d < 10, digitVal (UInt8.ofNat (48 + d)) = d := by decide
  exact all d h

theorem decimal_of_lt {n : Nat} (h : n < 10) : decimal n = [UInt8.ofNat (48 + n)] := by
  rw [decimal, Nat.toDigits_of_lt_base h, List.map_singleton, digitChar_lt h]

theorem decimal_of_ge {n : Nat} (h : 10 ≤ n) :
    decimal n = decimal (n / 10) ++ [UInt8.ofNat (48 + n % 10)] := by
  rw [decimal, Nat.toDigits_of_base_le (by decide) h, List.map_append, List.map_singleton,
    digitChar_lt (Nat.mod_lt _ (by decide))]
  rfl

/-- The digits of a number are digits, and spell it. -/
theorem decimal_spec (n : Nat) :
    (∀ b ∈ decimal n, isDigitOf 10 b = true) ∧ digitsVal 10 (decimal n) = n ∧ decimal n ≠ [] := by
  induction n using Nat.strongRecOn with
  | ind n ih =>
    by_cases h : n < 10
    · rw [decimal_of_lt h]
      refine ⟨fun b hb => ?_, ?_, by simp⟩
      · rw [List.mem_singleton.mp hb, isDigitOf, digitVal_ofNat h, decide_eq_true h]
      · rw [digitsVal, List.foldl_cons, List.foldl_nil, digitVal_ofNat h]
        omega
    · obtain ⟨h₁, h₂, h₃⟩ := ih (n / 10) (by omega)
      have hd := Nat.mod_lt n (by decide : 10 > 0)
      rw [decimal_of_ge (by omega)]
      refine ⟨fun b hb => ?_, ?_, by simp⟩
      · rcases List.mem_append.mp hb with hb | hb
        · exact h₁ b hb
        · rw [List.mem_singleton.mp hb, isDigitOf, digitVal_ofNat hd, decide_eq_true hd]
      · rw [digitsVal] at h₂
        rw [digitsVal, List.foldl_append, h₂, List.foldl_cons, List.foldl_nil, digitVal_ofNat hd]
        omega

/-- A digit is no blank, no sign and no NUL. -/
theorem isDigitOf_ten {b : UInt8} (h : isDigitOf 10 b = true) :
    isspace b = false ∧ b ≠ 45 ∧ b ≠ 43 ∧ b ≠ 0 ∧ b ≠ 10 := by
  have all : ∀ b : Fin 256, isDigitOf 10 (UInt8.ofFin b) = true →
      isspace (UInt8.ofFin b) = false ∧ UInt8.ofFin b ≠ 45 ∧ UInt8.ofFin b ≠ 43 ∧
        UInt8.ofFin b ≠ 0 ∧ UInt8.ofFin b ≠ 10 := by decide +kernel
  exact all b.toFin h

theorem length_splitSign (s : Bytes) : (splitSign s).2.length ≤ s.length := by
  unfold splitSign
  split <;> simp

/-- A number has a digit at least. -/
theorem strtol_rest {s t : Bytes} {v : Int} (h : strtol 10 s = some (v, t)) : t.length < s.length := by
  unfold strtol at h
  simp only [if_neg (by decide : ¬ 10 = 16)] at h
  split at h
  · cases h
  · rename_i hds
    have hpos := List.length_pos_of_ne_nil hds
    have ht : t = (splitSign (s.dropWhile isspace)).2.dropWhile (isDigitOf 10) :=
      (Prod.mk.inj (Option.some.inj h)).2.symm
    have hsplit := congrArg List.length
      (List.takeWhile_append_dropWhile (p := isDigitOf 10) (l := (splitSign (s.dropWhile isspace)).2))
    rw [List.length_append] at hsplit
    have h₁ := length_splitSign (s.dropWhile isspace)
    have h₂ := (List.dropWhile_suffix isspace (l := s)).length_le
    rw [ht]
    omega

section Number

variable {s t num ws rest : Bytes} {z : Int}

/-- A number starts with no blank. -/
theorem IsNumber.head (h : IsNumber num z) : ∃ b num', num = b :: num' ∧ isspace b = false := by
  cases h with
  | plain ds hd hne =>
    obtain ⟨b, ds', hb⟩ := List.exists_cons_of_ne_nil hne
    exact ⟨b, ds', hb, (isDigitOf_ten (hd b (hb ▸ List.mem_cons_self))).1⟩
  | plus ds => exact ⟨43, ds, rfl, by decide⟩
  | minus ds => exact ⟨45, ds, rfl, by decide⟩

theorem digits_split {ds : Bytes} (hd : ∀ b ∈ ds, isDigitOf 10 b = true)
    (ht : ∀ b ∈ t.head?, isDigitOf 10 b = false) :
    (ds ++ t).takeWhile (isDigitOf 10) = ds ∧ (ds ++ t).dropWhile (isDigitOf 10) = t := by
  rw [List.takeWhile_append_of_pos hd, List.dropWhile_append_of_pos hd]
  cases t with
  | nil => simp
  | cons a t => simp [ht a rfl]

/-- `strtol` reads a number behind blanks, up to the first byte that is no digit. -/
theorem strtol_isNumber (hws : ∀ b ∈ ws, isspace b = true) (h : IsNumber num z)
    (ht : ∀ b ∈ t.head?, isDigitOf 10 b = false) : strtol 10 (ws ++ num ++ t) = some (z, t) := by
  obtain ⟨b, num', hb, hspace⟩ := h.head
  have hdrop : (ws ++ num ++ t).dropWhile isspace = num ++ t := by
    rw [List.append_assoc, List.dropWhile_append_of_pos hws, hb, List.cons_append, List.dropWhile_cons,
      if_neg (by rw [hspace]; decide)]
  have hsplit : ∃ ds : Bytes, (∀ b ∈ ds, isDigitOf 10 b = true) ∧ ds ≠ [] ∧
      (splitSign (num ++ t)).2 = ds ++ t ∧
      (if (splitSign (num ++ t)).1 = true then -(digitsVal 10 ds : Int) else digitsVal 10 ds) = z := by
    cases h with
    | plain ds hd hne =>
      have hsign : splitSign (num ++ t) = (false, num ++ t) := by
        have hb0 := isDigitOf_ten (hd b (hb ▸ List.mem_cons_self))
        rw [hb, List.cons_append]
        unfold splitSign
        split
        · rename_i h
          exact absurd (List.cons.inj h).1 hb0.2.1
        · rename_i h
          exact absurd (List.cons.inj h).1 hb0.2.2.1
        · rfl
      exact ⟨num, hd, hne, by rw [hsign], by rw [hsign]; rfl⟩
    | plus ds hd hne => exact ⟨ds, hd, hne, rfl, rfl⟩
    | minus ds hd hne => exact ⟨ds, hd, hne, rfl, rfl⟩
  obtain ⟨ds, hd, hne, hrest, hval⟩ := hsplit
  obtain ⟨htake, hdropd⟩ := digits_split hd ht
  simp only [strtol, hdrop, if_neg (by decide : ¬ 10 = 16), hrest, htake, hdropd, if_neg hne, hval]

theorem splitSign_cases (s : Bytes) :
    (s = 45 :: (splitSign s).2 ∧ splitSign s = (true, (splitSign s).2)) ∨
      (s = 43 :: (splitSign s).2 ∧ splitSign s = (false, (splitSign s).2)) ∨ splitSign s = (false, s) := by
  unfold splitSign
  split
  · exact .inl ⟨rfl, rfl⟩
  · exact .inr (.inl ⟨rfl, rfl⟩)
  · exact .inr (.inr rfl)

/-- What `strtol` has read: blanks and a number. -/
theorem strtol_split (h : strtol 10 s = some (z, rest)) :
    ∃ ws num, s = ws ++ num ++ rest ∧ (∀ b ∈ ws, isspace b = true) ∧ IsNumber num z ∧
      ∀ b ∈ rest.head?, isDigitOf 10 b = false := by
  obtain ⟨ws, hws, hs⟩ : ∃ ws, (∀ b ∈ ws, isspace b = true) ∧ s = ws ++ s.dropWhile isspace :=
    ⟨s.takeWhile isspace, fun b hb => List.mem_takeWhile_imp hb, List.takeWhile_append_dropWhile.symm⟩
  unfold strtol at h
  simp only [if_neg (by decide : ¬ 10 = 16)] at h
  split at h
  · cases h
  rename_i hne
  obtain ⟨hval, hrest⟩ := Prod.mk.inj (Option.some.inj h)
  have hd : ∀ b ∈ (splitSign (s.dropWhile isspace)).2.takeWhile (isDigitOf 10), isDigitOf 10 b = true :=
    fun b hb => List.mem_takeWhile_imp hb
  have hsplit := List.takeWhile_append_dropWhile (p := isDigitOf 10)
    (l := (splitSign (s.dropWhile isspace)).2)
  generalize (splitSign (s.dropWhile isspace)).2.takeWhile (isDigitOf 10) = ds at *
  have hlast : ∀ b ∈ rest.head?, isDigitOf 10 b = false := by
    intro b hb
    rw [← hrest] at hb
    have := List.head?_dropWhile_not (isDigitOf 10) (splitSign (s.dropWhile isspace)).2
    rw [Option.mem_def.mp hb] at this
    exact this
  rw [hrest] at hsplit
  refine ⟨ws, ?_⟩
  rcases splitSign_cases (s.dropWhile isspace) with ⟨hc, hsign⟩ | ⟨hc, hsign⟩ | hsign
  · rw [hsign] at hval hsplit
    exact ⟨45 :: ds, by rw [hs, hc, ← hsplit]; simp, hws, hval ▸ .minus ds hd hne, hlast⟩
  · rw [hsign] at hval hsplit
    exact ⟨43 :: ds, by rw [hs, hc, ← hsplit]; simp, hws, hval ▸ .plus ds hd hne, hlast⟩
  · rw [hsign] at hval hsplit
    have hsplit : ds ++ rest = s.dropWhile isspace := hsplit
    exact ⟨ds, by rw [hs, ← hsplit, List.append_assoc], hws, hval ▸ .plain ds hd hne, hlast⟩

/-- A number that was written in decimal. -/
theorem isNumber_decimalInt (z : Int) : IsNumber (decimalInt z) z := by
  obtain ⟨hd, hv, hne⟩ := decimal_spec z.natAbs
  unfold decimalInt
  split
  · have := IsNumber.minus _ hd hne
    rwa [hv, show -(z.natAbs : Int) = z by omega] at this
  · have := IsNumber.plain _ hd hne
    rwa [hv, show (z.natAbs : Int) = z by omega] at this

end Number

theorem strtol_number (h : IsNumber num z) (ht : ∀ b ∈ t.head?, isDigitOf 10 b = false) :
    strtol 10 (num ++ t) = some (z, t) := by
  have := strtol_isNumber (List.forall_mem_nil _) h ht
  rwa [List.nil_append] at this

/-- `strtol` reads digits, up to the first byte that is none. -/
theorem strtol_digits {ds t : Bytes} (hd : ∀ b ∈ ds, isDigitOf 10 b = true) (hne : ds ≠ [])
    (ht : ∀ b ∈ t.head?, isDigitOf 10 b = false) :
    strtol 10 (ds ++ t) = some ((digitsVal 10 ds : Int), t) :=
  strtol_number (.plain ds hd hne) ht

/-- `strtol` reads a number that was written in decimal, up to the first byte
that is no digit. -/
theorem strtol_decimal (n : Nat) {t : Bytes} (ht : ∀ b ∈ t.head?, isDigitOf 10 b = false) :
    strtol 10 (decimal n ++ t) = some ((n : Int), t) := by
  obtain ⟨hd, hv, hne⟩ := decimal_spec n
  rw [strtol_digits hd hne ht, hv]

/-- `sscanf` reads digits of a number that fits in an `int`. -/
theorem scanInt_digits {ds t : Bytes} (hd : ∀ b ∈ ds, isDigitOf 10 b = true) (hne : ds ≠ [])
    (hn : digitsVal 10 ds < 2 ^ 31) (ht : ∀ b ∈ t.head?, isDigitOf 10 b = false) :
    scanInt (ds ++ t) = some (digitsVal 10 ds : Int) := by
  rw [scanInt, strtol_digits hd hne ht, Option.map_some, toInt32_clamp (by omega) (by omega)]

/-- `sscanf` reads a number that fits in an `int`. -/
theorem scanInt_decimal {n : Nat} (hn : n < 2 ^ 31) {t : Bytes}
    (ht : ∀ b ∈ t.head?, isDigitOf 10 b = false) : scanInt (decimal n ++ t) = some (n : Int) := by
  obtain ⟨hd, hv, hne⟩ := decimal_spec n
  rw [scanInt_digits hd hne (by rwa [hv]) ht, hv]

theorem dropWhile_append_zero {f : UInt8 → Bool} (hf : f 0 = false) (s t : Bytes) :
    (s ++ 0 :: t).dropWhile f = s.dropWhile f ++ 0 :: t := by
  induction s with
  | nil => simp [hf]
  | cons b s ih =>
    rw [List.cons_append, List.dropWhile_cons, List.dropWhile_cons]
    split
    · exact ih
    · rfl

theorem takeWhile_append_zero {f : UInt8 → Bool} (hf : f 0 = false) (s t : Bytes) :
    (s ++ 0 :: t).takeWhile f = s.takeWhile f := by
  induction s with
  | nil => simp [hf]
  | cons b s ih =>
    rw [List.cons_append, List.takeWhile_cons, List.takeWhile_cons, ih]

theorem splitSign_append_zero (s t : Bytes) :
    splitSign (s ++ 0 :: t) = ((splitSign s).1, (splitSign s).2 ++ 0 :: t) := by
  cases s with
  | nil => rfl
  | cons b s =>
    rw [List.cons_append]
    unfold splitSign
    split
    · rename_i h
      obtain ⟨rfl, rfl⟩ := List.cons.inj h
      rfl
    · rename_i h
      obtain ⟨rfl, rfl⟩ := List.cons.inj h
      rfl
    · rename_i h₁ h₂
      split
      · rename_i h
        exact absurd (congrArg (· ++ 0 :: t) h) (h₁ _)
      · rename_i h
        exact absurd (congrArg (· ++ 0 :: t) h) (h₂ _)
      · rfl

/-- The NUL behind a string is no part of a number. -/
theorem scanInt_append_zero (s t : Bytes) : scanInt (s ++ 0 :: t) = scanInt s := by
  have hd : isDigitOf 10 0 = false := by decide
  rw [scanInt, scanInt, strtol, strtol]
  simp only [if_neg (by decide : ¬ 10 = 16), dropWhile_append_zero (by decide : isspace 0 = false),
    splitSign_append_zero, takeWhile_append_zero hd, dropWhile_append_zero hd]
  split <;> rfl

/-- A number ends before the memory's NUL, whatever stands behind. -/
theorem scanInt_append_of_mem {m : Bytes} (h : 0 ∈ m) (t : Bytes) : scanInt (m ++ t) = scanInt m := by
  obtain ⟨s, r, rfl⟩ := List.append_of_mem h
  rw [List.append_assoc, List.cons_append, scanInt_append_zero, scanInt_append_zero]

/-- A written number has no line end and no NUL. -/
theorem decimal_ne {n : Nat} {b : UInt8} (h : b ∈ decimal n) : b ≠ 0 ∧ b ≠ 10 :=
  (isDigitOf_ten ((decimal_spec n).1 b h)).2.2.2

end Fedis.Framework

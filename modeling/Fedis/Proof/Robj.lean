import Fedis.Impl.Robj
import Fedis.Impl.Resp

/-!
# What a string object gives back

`robjGetValStr` prints the number of an integer object and copies the string of
the others, so that a value comes back as `shown` says: in the printer's own
spelling if the parser takes it for a number, else as it was. The printer's
spelling of a number comes back as it was (`shown_decimalInt`).
-/

namespace Fedis.Proof.Value

open Framework

/-- The string that a stored value comes back as. -/
def shown (v : Bytes) : Bytes :=
  match string2l v with
  | some n => decimalInt n
  | none => v

theorem length_decimal (k : Nat) {n : Nat} (h : n < 10 ^ (k + 1)) : (decimal n).length ≤ k + 1 := by
  induction k generalizing n with
  | zero =>
    rw [decimal_of_lt (by simpa using h)]
    simp
  | succ k ih =>
    by_cases hn : n < 10
    · rw [decimal_of_lt hn]
      simp
    · have hd : n / 10 < 10 ^ (k + 1) := by
        rw [Nat.div_lt_iff_lt_mul (by decide), ← Nat.pow_succ]
        exact h
      rw [decimal_of_ge (by omega), List.length_append]
      exact Nat.succ_le_succ (ih hd)

/-- A `long` takes 20 characters at most. -/
theorem length_decimalInt {z : Int} (h : inLong z) : (decimalInt z).length ≤ 20 := by
  have hz : z.natAbs < 10 ^ (18 + 1) := by
    have := h.1
    have := h.2
    simp only [LONG_MIN, LONG_MAX] at *
    omega
  have := length_decimal 18 hz
  unfold decimalInt
  split
  · rw [List.length_cons]
    omega
  · omega

theorem length_bulkString_decimalInt {z : Int} (h : inLong z) :
    (bulkString (decimalInt z)).length < 32 := by
  have hz := length_decimalInt h
  have hd := length_decimal 1 (n := (decimalInt z).length) (by omega)
  simp only [bulkString, crlf, List.length_append, List.length_cons, List.length_nil]
  omega

theorem decimalInt_ne_zero (z : Int) : ∀ b ∈ decimalInt z, b ≠ 0 := by
  intro b hb
  unfold decimalInt at hb
  split at hb
  · rcases List.mem_cons.mp hb with rfl | hb
    · decide
    · exact (decimal_ne hb).1
  · exact (decimal_ne hb).1

theorem string2l_inLong {v : Bytes} {n : Int} (h : string2l v = some n) : inLong n := by
  unfold string2l at h
  dsimp only at h
  split at h
  · cases h
  · split at h
    · split at h
      · cases h
        assumption
      · cases h
    · cases h

theorem cstr_embedded {v : Bytes} (hz : ∀ b ∈ v, b ≠ 0) :
    cstr (sdscpy { buf := List.replicate (v.length + 1) 0, alloc := v.length + 1, len := 0
                   free := v.length } v).buf = v := by
  have fits : ∀ d : Sds, ¬ d.free < v.length → (sdscatlen d v).buf = writeAt d.buf d.len v := by
    intro d h
    unfold sdscatlen
    rw [if_neg h]
  rw [sdscpy, sdscat, cstr_eq_self hz, fits _ (by simp [sdsclear])]
  simp only [sdsclear, List.replicate_zero]
  have e : writeAt (writeAt (List.replicate (v.length + 1) 0) 0 []) 0 v = v ++ 0 :: [] := by
    simp [writeAt]
  rw [e, cstr_append_zero hz]

theorem cstr_raw {v : Bytes} (hz : ∀ b ∈ v, b ≠ 0) : cstr (sdsnew v).buf = v := by
  rw [sdsnew, cstr_eq_self hz, sdsnewWithLen]
  have hlt : v.length < sdsAllocSize v.length := by
    unfold sdsAllocSize
    split <;> omega
  obtain ⟨n, hn⟩ : ∃ n, sdsAllocSize v.length - v.length = n + 1 :=
    ⟨sdsAllocSize v.length - v.length - 1, by omega⟩
  have e : writeAt (List.replicate (sdsAllocSize v.length) 0) 0 v = v ++ 0 :: List.replicate n 0 := by
    simp [writeAt, hn, List.replicate_succ]
  rw [e, cstr_append_zero hz]

/-- **A string object gives its value back.** -/
theorem robjGetValStr_create {v : Bytes} (hz : ∀ b ∈ v, b ≠ 0) (hl : v.length ≤ 1023) :
    robjGetValStr (robjCreateStringObject v) = shown v := by
  unfold robjCreateStringObject shown
  cases string2l v with
  | some n => rfl
  | none =>
    dsimp only
    rw [cstr_eq_self hz]
    split
    · rw [createEmbeddedString, cstr_eq_self hz, robjGetValStr, cstr_embedded hz,
        List.take_of_length_le hl]
    · rw [createRawString, robjGetValStr, cstr_raw hz, List.take_of_length_le hl]

/-! ## Numbers -/

theorem strtol_decimalInt (z : Int) {t : Bytes} (ht : ∀ b ∈ t.head?, isDigitOf 10 b = false) :
    strtol 10 (decimalInt z ++ t) = some (z, t) :=
  strtol_number (isNumber_decimalInt z) ht

/-- Different numbers are written differently. -/
theorem decimalInt_inj {z z' : Int} (h : decimalInt z = decimalInt z') : z = z' := by
  have h₁ := strtol_decimalInt z (t := []) (by simp)
  have h₂ := strtol_decimalInt z' (t := []) (by simp)
  rw [h, h₂] at h₁
  exact (Prod.mk.inj (Option.some.inj h₁)).1.symm

theorem string2l_decimalInt (z : Int) :
    string2l (decimalInt z) = if inLong z then some z else none := by
  have hne : decimalInt z ≠ [] := by
    unfold decimalInt
    split
    · simp
    · exact (decimal_spec _).2.2
  have hbase : string2lBase (decimalInt z) = 10 := by
    unfold string2lBase
    split
    · rename_i x t e
      have hx : isDigitOf 10 x = true := by
        unfold decimalInt at e
        split at e
        · cases e
        · exact (decimal_spec z.natAbs).1 x (by rw [e]; simp)
      rw [if_neg]
      rintro (rfl | rfl) <;> exact absurd hx (by decide)
    · rfl
  have hs := strtol_decimalInt z (t := []) nofun
  rw [List.append_nil] at hs
  rw [string2l, cstr_eq_self (decimalInt_ne_zero z), if_neg hne, hbase, hs]

/-- A number in the printer's spelling comes back as it was. -/
theorem shown_decimalInt (z : Int) : shown (decimalInt z) = decimalInt z := by
  rw [shown, string2l_decimalInt]
  split
  · rename_i n h
    split at h
    · cases h
      rfl
    · cases h
  · rfl

end Fedis.Proof.Value

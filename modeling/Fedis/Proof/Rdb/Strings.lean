import Fedis.Proof.Robj
import Fedis.Proof.Rdb.Stream

/-!
# How values come back from an RDB file

The loader knows a number's width from its marker, which it also finds in front of
a string of 2^14 bytes or more. What stands behind the marker it takes for an
unsigned byte, or for a signed number of 2 or 4 bytes.

* `int_loads`: an integer object is read to its end, as `decodeInt` says;
* `string_loads`, `long_loads`: a string of less than 2^14 bytes is read as it was,
  and of a longer one only its length;
* `string_ok`: which values come back as they were.
-/

namespace Fedis.Proof.Rdb

open Framework Server Value

variable {s a t : Bytes} {v : Robj} {n k : Int}

/-- What the loader makes of the `int` in an integer object. -/
def decodeInt (val : Int) : Int :=
  if val ≤ 128 then val % 256 else if val ≤ 32768 then val.bmod 65536 else val

/-- The value is read to its end wherever it stands, and as one that prints alike. -/
def RoundTrips (v : Robj) : Prop :=
  ∀ a t, ∃ v', rdbLoadStringObject (fileAt a (rdbSaveStringObject v ++ t)) =
    .ok (v', fileAt (a ++ rdbSaveStringObject v) t) ∧ robjGetValStr v' = robjGetValStr v

/-- A natural `int`, but for 2^15, or a string of less than 2^14 bytes. -/
def Storable (s : Bytes) : Prop :=
  (∀ n ∈ string2l s, 0 ≤ n ∧ n < 2 ^ 31 ∧ n ≠ 32768) ∧ (string2l s = none → s.length < 2 ^ 14)

instance : DecidablePred Storable := fun _ => inferInstanceAs (Decidable (_ ∧ _))

/-! ## Numbers -/

theorem decodeInt_range (h : -2 ^ 31 ≤ n ∧ n < 2 ^ 31) :
    -32768 ≤ decodeInt n ∧ decodeInt n < 2 ^ 31 := by
  have h₁ := Int.le_bmod (x := n) (m := 65536) (by decide)
  have h₂ := Int.bmod_lt (x := n) (m := 65536) (by decide)
  unfold decodeInt
  split
  · omega
  · split <;> omega

/-- The loader's buffer holds all characters of what it prints. -/
theorem printInt_eq (h : -32768 ≤ n ∧ n < 2 ^ 31) : printInt n = decimalInt n := by
  rw [printInt, List.take_of_length_le]
  unfold decimalInt
  split
  · have := length_decimal 4 (n := n.natAbs) (by omega)
    rw [List.length_cons]
    omega
  · exact length_decimal 9 (by omega)

theorem robjCreate_printInt (h : -32768 ≤ n ∧ n < 2 ^ 31) :
    robjCreateStringObject (printInt n) = .int n := by
  have hlong : inLong n := by
    rw [inLong, LONG_MIN, LONG_MAX]
    omega
  rw [robjCreateStringObject, printInt_eq h, string2l_decimalInt, if_pos hlong]

/-- A marker, the width of the number behind it, and how its bytes are read. -/
inductive Marker : UInt8 → Nat → (Bytes → Int) → Prop
  | int8 : Marker RDB_ENC_INT8 1 fun bs => leVal bs
  | int16 : Marker RDB_ENC_INT16 2 signed
  | int32 : Marker RDB_ENC_INT32 4 signed

theorem marked_loads {b : UInt8} {w : Nat} {val : Bytes → Int} {bs : Bytes} (h : Marker b w val)
    (hlen : bs.length = w) (a t : Bytes) :
    rdbLoadStringObject (fileAt a (b :: bs ++ t)) =
      .ok (robjCreateStringObject (printInt (val bs)), fileAt (a ++ b :: bs) t) := by
  have hcat : a ++ b :: bs = a ++ [b] ++ bs := by rw [List.append_assoc]; rfl
  have hread := freadItem_fileAt (a ++ [b]) bs t hlen
  rw [List.cons_append, rdbLoadStringObject, freadItem_one, hcat]
  cases h with
  | int8 =>
    show (freadItem (fileAt (a ++ [RDB_ENC_INT8]) (bs ++ t)) 1 >>= _) = _
    rw [hread]
    rfl
  | int16 =>
    show (freadItem (fileAt (a ++ [RDB_ENC_INT16]) (bs ++ t)) 2 >>= _) = _
    rw [hread]
    rfl
  | int32 =>
    show (freadItem (fileAt (a ++ [RDB_ENC_INT32]) (bs ++ t)) 4 >>= _) = _
    rw [hread]
    rfl

theorem int_loads (n : Int) : LoadsAs stringCodec (.int n) (.int (decodeInt (toInt32 n))) := by
  have hr := toInt32_range n
  have hd := decodeInt_range hr
  intro a t
  show rdbLoadStringObject (fileAt a (rdbSaveStringObject (.int n) ++ t)) =
    .ok (_, fileAt (a ++ rdbSaveStringObject (.int n)) t)
  rw [rdbSaveStringObject]
  unfold decodeInt at hd ⊢
  split
  · rename_i h
    rw [if_pos h] at hd
    rw [marked_loads .int8 (length_leInt 1 _), leVal_leInt, Int.pow_one, robjCreate_printInt hd]
  · rename_i h
    rw [if_neg h] at hd
    split
    · rename_i h'
      rw [if_pos h'] at hd
      rw [marked_loads .int16 (length_leInt 2 _), signed_leInt, (by decide : 256 ^ 2 = 65536),
        robjCreate_printInt hd]
    · rename_i h'
      rw [if_neg h'] at hd
      have hb : (toInt32 n).bmod (256 ^ 4) = toInt32 n := Int.bmod_eq_of_le (by omega) (by omega)
      rw [marked_loads .int32 (length_leInt 4 _), signed_leInt, hb, robjCreate_printInt hd]

/-! ## Strings -/

/-- What is saved of a string object. -/
theorem saved_string (hz : ∀ b ∈ s, b ≠ 0) (h : string2l s = none) :
    rdbSaveStringObject (robjCreateStringObject s) = rdbSaveLen s.length ++ s := by
  have saved : ∀ ss : Sds, ss.content = s →
      rdbSaveLen ss.len ++ readAt ss.buf 0 ss.len = rdbSaveLen s.length ++ s := by
    intro ss hss
    rw [← length_content ss, hss]
    congr 1
    rw [← hss, length_content]
    rfl
  rw [robjCreateStringObject, h]
  dsimp only
  split
  · refine saved _ ?_
    rw [sdscpy, content_sdscat, content_sdsclear, List.nil_append, cstr_eq_self hz]
  · refine saved _ ?_
    rw [sdsnew, cstr_eq_self hz, sdsnewWithLen, Sds.content]
    have := readAt_writeAt_append (List.replicate (sdsAllocSize s.length) 0) 0 0 s
    simpa using this

/-- The header of a short string is none of the markers. -/
theorem rdbSaveLen_marker {n : Nat} (h : n < 2 ^ 14) :
    ∃ b bs, rdbSaveLen n = b :: bs ∧ b ≠ RDB_ENC_INT8 ∧ b ≠ RDB_ENC_INT16 ∧ b ≠ RDB_ENC_INT32 := by
  have marker : ∀ b : UInt8, b &&& 0xC0 = 0 ∨ b &&& 0xC0 = 0x80 →
      b ≠ RDB_ENC_INT8 ∧ b ≠ RDB_ENC_INT16 ∧ b ≠ RDB_ENC_INT32 := by
    rintro b (hb | hb) <;>
      refine ⟨?_, ?_, ?_⟩ <;> rintro rfl <;> exact absurd hb (by decide)
  unfold rdbSaveLen
  rw [Nat.mod_eq_of_lt (by omega)]
  dsimp only
  split
  · rename_i hn
    exact ⟨_, _, rfl, marker _ (.inl (marker_short hn).1)⟩
  · exact ⟨_, _, rfl, marker _ (.inr (marker_short (by omega)).2.2.1)⟩

theorem string_loads (hz : ∀ b ∈ s, b ≠ 0) (h : string2l s = none) (hlen : s.length < 2 ^ 14) :
    LoadsAs stringCodec (robjCreateStringObject s) (robjCreateStringObject s) := by
  intro a t
  change rdbLoadStringObject (fileAt a (rdbSaveStringObject (robjCreateStringObject s) ++ t)) =
    .ok (_, fileAt (a ++ rdbSaveStringObject (robjCreateStringObject s)) t)
  rw [saved_string hz h]
  obtain ⟨b, bs, hhead, hb⟩ := rdbSaveLen_marker hlen
  have hstring : rdbLoadStringObject (fileAt a (rdbSaveLen s.length ++ s ++ t)) =
      rdbLoadString (fileAt a (rdbSaveLen s.length ++ s ++ t)) := by
    rw [hhead, List.cons_append, List.cons_append, rdbLoadStringObject, freadItem_one]
    change (if [b] = [RDB_ENC_INT8] then _ else _) = _
    rw [if_neg (by simpa using hb.1)]
    change (if [b] = [RDB_ENC_INT16] then _ else _) = _
    rw [if_neg (by simpa using hb.2.1)]
    change (if [b] = [RDB_ENC_INT32] then _ else _) = _
    rw [if_neg (by simpa using hb.2.2)]
  rw [hstring, rdbLoadString, List.append_assoc, rdbLoadLen_save (by omega)]
  simp only [fread_fileAt]
  rw [if_neg (by omega), List.append_assoc]

/-- Of a long string the loader takes the header, for a number. -/
theorem long_loads (hlen : 2 ^ 14 ≤ s.length) (h32 : s.length < 2 ^ 31) (a t : Bytes) :
    ∃ v, rdbLoadStringObject (fileAt a (rdbSaveLen s.length ++ s ++ t)) =
      .ok (v, fileAt (a ++ rdbSaveLen s.length) (s ++ t)) := by
  have hhead : rdbSaveLen s.length = RDB_ENC_INT32 :: leBytes 4 s.length := by
    unfold rdbSaveLen
    rw [Nat.mod_eq_of_lt (by omega)]
    dsimp only
    rw [if_neg (by omega), if_neg (by omega)]
    rfl
  rw [hhead, List.append_assoc]
  exact ⟨_, marked_loads .int32 (length_leBytes 4 _) a (s ++ t)⟩

/-! ## Round trips -/

theorem decodeInt_eq (n : Int) : decodeInt (toInt32 n) = n ↔ 0 ≤ n ∧ n < 2 ^ 31 ∧ n ≠ 32768 := by
  rw [decodeInt]
  have h₁ := toInt32_range n
  have hval : ∃ k : Int, n = toInt32 n + k * 2 ^ 32 := by
    rw [toInt32]
    exact ⟨Int.bdiv n (2 ^ 32), by have := Int.bmod_add_bdiv n (2 ^ 32); omega⟩
  have h₂ := Int.le_bmod (x := toInt32 n) (m := 65536) (by decide)
  have h₃ := Int.bmod_lt (x := toInt32 n) (m := 65536) (by decide)
  have h₄ : ∃ k : Int, toInt32 n = (toInt32 n).bmod 65536 + k * 65536 :=
    ⟨Int.bdiv (toInt32 n) 65536, by have := Int.bmod_add_bdiv (toInt32 n) 65536; omega⟩
  obtain ⟨k, hk⟩ := hval
  obtain ⟨j, hj⟩ := h₄
  generalize toInt32 n = m at *
  generalize m.bmod 65536 = r at *
  split
  · omega
  · split <;> omega

theorem int_roundTrips (n : Int) : RoundTrips (.int n) ↔ 0 ≤ n ∧ n < 2 ^ 31 ∧ n ≠ 32768 := by
  have hload := int_loads n
  have hrange := decodeInt_range (toInt32_range n)
  rw [← decodeInt_eq]
  constructor
  · intro hrt
    obtain ⟨v', hv', hval⟩ := hrt [] []
    have := hv'.symm.trans (hload [] [])
    cases this
    exact decimalInt_inj hval
  · intro e a t
    refine ⟨_, hload a t, ?_⟩
    rw [e]

theorem string_roundTrips (hz : ∀ b ∈ s, b ≠ 0) (h : string2l s = none) (h32 : s.length < 2 ^ 31) :
    RoundTrips (robjCreateStringObject s) ↔ s.length < 2 ^ 14 := by
  constructor
  · intro hrt
    by_contra hlong
    obtain ⟨v', hv', -⟩ := hrt [] []
    obtain ⟨v, hv⟩ := long_loads (Nat.le_of_not_lt hlong) h32 [] []
    rw [saved_string hz h] at hv'
    have hpos := congrArg File.pos (Prod.mk.inj (Except.ok.inj (hv.symm.trans hv'))).2
    simp only [fileAt, List.nil_append, List.length_append] at hpos
    omega
  · exact fun hlen a t => ⟨_, string_loads hz h hlen a t, rfl⟩

/-- A value comes back from the file as it was iff it is a natural `int` other than
2^15, or a string of less than 2^14 bytes. -/
theorem string_ok (hz : ∀ b ∈ s, b ≠ 0) (hlen : s.length < 2 ^ 31) :
    RoundTrips (robjCreateStringObject s) ↔ Storable s := by
  unfold Storable
  cases h : string2l s with
  | some n =>
    have hv : robjCreateStringObject s = .int n := by rw [robjCreateStringObject, h]
    rw [hv]
    simpa using int_roundTrips n
  | none => simpa using string_roundTrips hz h hlen

theorem string_ok_ten : RoundTrips (robjCreateStringObject (bytes "10")) :=
  (string_ok (by decide +kernel) (by decide)).mpr (by decide)

/-- -1 comes back as 255. -/
theorem minus_one_changes : ¬ ∀ s : Bytes, (∀ b ∈ s, b ≠ 0) → s.length < 2 ^ 31 →
    RoundTrips (robjCreateStringObject s) := by
  intro h
  have hv : robjCreateStringObject (bytes "-1") = .int (-1) := by decide
  have hs := h (bytes "-1") (by decide +kernel) (by decide)
  rw [hv, int_roundTrips] at hs
  exact absurd hs.1 (by decide)

end Fedis.Proof.Rdb

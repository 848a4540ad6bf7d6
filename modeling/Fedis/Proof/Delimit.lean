import Fedis.Impl.Net
import Fedis.Proof.Parse

/-!
# The two functions that look for complete values

`getRespLength` on the first bytes of a value, and where `respParse` agrees with it:

* `findCrlf_line`, `findCrlf_short`: the loop finds the first line's end if it is there;
* `length_encode`, `length_encodeAll`: a value's length is found if it has no empty bulk string;
  one that ends with its only empty bulk string comes out two bytes short, and others do not come
  out;
* `lengths_iff`: where the two functions agree.
-/

namespace Fedis.Proof.Resp

open Framework RespValue

variable {m head line s t w rest : Bytes} {n len fuel : Nat} {b : UInt8}

/-! ## First lines -/

theorem findCrlf_none {i : Nat} (h : ∀ j, i ≤ j → j < i + n → m.getD j 0 ≠ 13) :
    findCrlf m n i = none := by
  induction n generalizing i with
  | zero => rfl
  | succ n ih =>
    rw [findCrlf, if_neg fun hc => h i (Nat.le_refl i) (by omega) hc.1]
    exact ih fun j h₁ h₂ => h j (by omega) (by omega)

theorem findCrlf_some {i k : Nat} (h : ∀ j, i ≤ j → j < k → m.getD j 0 ≠ 13) (hcr : m.getD k 0 = 13)
    (hlf : m.getD (k + 1) 0 = 10) (hi : i ≤ k) (hk : k < i + n) : findCrlf m n i = some k := by
  induction n generalizing i with
  | zero => omega
  | succ n ih =>
    rw [findCrlf]
    by_cases hik : i = k
    · rw [if_pos ⟨hik ▸ hcr, hik ▸ hlf⟩, hik]
    · rw [if_neg fun hc => h i (Nat.le_refl i) (by omega) hc.1]
      exact ih (fun j h₁ h₂ => h j (by omega) h₂) (by omega) (by omega)

theorem getD_line (hline : (13 : UInt8) ∉ line) (rest : Bytes) {j : Nat} (h₁ : 1 ≤ j)
    (h₂ : j < line.length + 1) : (b :: line ++ rest).getD j 0 ≠ 13 := by
  intro h
  obtain ⟨i, rfl⟩ : ∃ i, j = i + 1 := ⟨j - 1, by omega⟩
  rw [getD_append, if_pos (by rw [List.length_cons]; omega), List.getD_cons_succ,
    List.getD_eq_getElem _ _ (by omega)] at h
  exact hline (h ▸ List.getElem_mem _)

/-- A first line with its end. -/
theorem findCrlf_line (hline : (13 : UInt8) ∉ line) (m : Bytes) (k : Nat) :
    findCrlf (b :: line ++ crlf ++ m) (line.length + 3 + k - 2) 1 = some (line.length + 1) := by
  have hend : ∀ i, (b :: line ++ (crlf ++ m)).getD (line.length + 1 + i) 0 = (crlf ++ m).getD i 0 := by
    intro i
    rw [getD_append, List.length_cons, if_neg (by omega), Nat.add_sub_cancel_left]
  rw [List.append_assoc]
  exact findCrlf_some (fun j h₁ h₂ => getD_line hline _ h₁ h₂) (hend 0) (hend 1) (by omega) (by omega)

/-- A first line whose end has not come. -/
theorem findCrlf_short (hline : (13 : UInt8) ∉ line) (hw : w <+: b :: line ++ crlf ++ rest)
    (hlt : w.length < line.length + 3) (hm : w <+: m) : findCrlf m (w.length - 2) 1 = none := by
  refine findCrlf_none fun j h₁ h₂ => ?_
  obtain ⟨u, hu⟩ := hw
  obtain ⟨t, rfl⟩ := hm
  have hj : (w ++ t).getD j 0 = (w ++ u).getD j 0 := by
    rw [getD_append, getD_append, if_pos (by omega), if_pos (by omega)]
  rw [hj, hu, List.append_assoc]
  exact getD_line hline _ h₁ (by omega)

/-! ## Numbers -/

theorem atoi_decimalInt {z : Int} (h₁ : -2 ^ 31 ≤ z) (h₂ : z < 2 ^ 31) : atoi (decimalInt z) = z := by
  have hs := Value.strtol_decimalInt z (t := []) (by rintro b hb; cases hb)
  rw [List.append_nil] at hs
  rw [atoi, hs, Option.map_some, Option.getD_some, toInt32_clamp h₁ h₂]

theorem lenField_line (z : Int) (hz : (decimalInt z).length < 32) (m : Bytes) :
    lenField (b :: decimalInt z ++ crlf ++ m) ((decimalInt z).length + 1) =
      .ok (atoi (decimalInt z)) := by
  rw [lenField, Nat.add_sub_cancel, if_neg (by omega), List.append_assoc, List.cons_append,
    List.drop_one, List.tail_cons, List.take_left, cstr_eq_self (Value.decimalInt_ne_zero z)]

/-- The first line of a value that starts with a number. -/
theorem lenField_decimalInt {z : Int} (h₁ : -2 ^ 31 ≤ z) (h₂ : z < 2 ^ 31) (m : Bytes) :
    lenField (b :: decimalInt z ++ crlf ++ m) ((decimalInt z).length + 1) = .ok z := by
  have hlen := Value.length_decimalInt (inLong_of_int h₁ h₂)
  rw [lenField_line z (by omega), atoi_decimalInt h₁ h₂]

/-! ## What is measured -/

/-- The length that is found for `n` bytes with no empty bulk string in them, or only with one at
their end. -/
def measured (free ends : Bool) (n : Nat) : Option Nat :=
  if free then some n else if ends then some (n - 2) else none

theorem measured_add {free ends : Bool} (a : Nat) (h : ends = true → 2 ≤ n) :
    measured free ends (a + n) = (measured free ends n).map (a + ·) := by
  unfold measured
  split
  · rfl
  · split
    · rename_i he
      have := h he
      rw [Option.map_some, Nat.add_sub_assoc this]
    · rfl

theorem filter_of_le {k : Nat} (h : n ≤ k) : (some n).filter (· ≤ k) = some n :=
  Option.filter_some_pos (decide_eq_true h)

theorem filter_of_lt {k : Nat} (h : k < n) : (some n).filter (· ≤ k) = none :=
  Option.filter_some_neg (decide_eq_false (Nat.not_le.mpr h))

theorem filter_add (o : Option Nat) (a k : Nat) :
    (o.map (a + ·)).filter (· ≤ a + k) = (o.filter (· ≤ k)).map (a + ·) := by
  cases o with
  | none => rfl
  | some n =>
    rw [Option.map_some]
    by_cases h : n ≤ k
    · rw [filter_of_le h, filter_of_le (by omega), Option.map_some]
    · rw [filter_of_lt (by omega), filter_of_lt (by omega), Option.map_none]

theorem filter_none {o : Option Nat} {k : Nat} (h : ∀ n ∈ o, k < n) : o.filter (· ≤ k) = none := by
  rw [Option.filter_eq_none_iff]
  intro n hn
  have := h n hn
  simpa using this

/-! ## Values -/

theorem encode_length (v : RespValue) : 3 ≤ v.encode.length := by
  cases v <;> simp [encode, bulkString, crlf] <;> omega

mutual

theorem encode_crlf : ∀ v : RespValue, crlf <:+ v.encode
  | .simple _ | .error _ | .int _ | .nullBulk | .nullArray => List.suffix_append _ _
  | .bulk _ => List.suffix_append _ _
  | .array vs => by
    rw [encode]
    by_cases h : vs = []
    · rw [h, encodeAll, List.append_nil]
      exact List.suffix_append _ _
    · exact (encodeAll_crlf vs h).trans (List.suffix_append _ _)

theorem encodeAll_crlf : ∀ vs : List RespValue, vs ≠ [] → crlf <:+ encodeAll vs
  | [], h => absurd rfl h
  | v :: vs, _ => by
    rw [encodeAll]
    by_cases h : vs = []
    · rw [h, encodeAll, List.append_nil]
      exact encode_crlf v
    · exact (encodeAll_crlf vs h).trans (List.suffix_append _ _)

end

/-- What decides on a value whose first line is there. -/
theorem length_head (b : UInt8) (m : Bytes) (k depth : Nat) : (13 : UInt8) ∉ line →
    getRespLengthBounded (depth + 1) (b :: line ++ crlf ++ m) (line.length + 3 + k) =
      match b with
      | 43 | 45 | 58 => .ok (some (line.length + 3))
      | 36 => (lenField (b :: line ++ crlf ++ m) (line.length + 1)).map
          (bulkLength (b :: line ++ crlf ++ m) (line.length + 3 + k) (line.length + 3))
      | 42 => (lenField (b :: line ++ crlf ++ m) (line.length + 1)).bind fun numElements =>
          if numElements ≤ 0 then .ok (some (line.length + 3))
          else elementsLength (getRespLengthBounded depth) (b :: line ++ crlf ++ m)
            (line.length + 3 + k) numElements.toNat (line.length + 3)
      | _ => .ok none := by
  intro hline
  rw [getRespLengthBounded, if_neg (by omega), findCrlf_line hline]
  rfl

theorem length_short (hline : (13 : UInt8) ∉ line) (hw : w <+: b :: line ++ crlf ++ rest)
    (hlt : w.length < line.length + 3) (hm : w <+: m) (depth : Nat) :
    getRespLengthBounded (depth + 1) m w.length = .ok none := by
  rw [getRespLengthBounded, findCrlf_short hline hw hlt hm]
  split
  · rfl
  · split <;> rfl

/-- A line end where a value is to be. -/
theorem length_cr (hb : m.getD 0 0 = 13) (depth : Nat) :
    getRespLengthBounded (depth + 1) m len = .ok none := by
  rw [getRespLengthBounded, hb]
  split <;> rfl

/-- What is behind the first line of a bulk string. -/
theorem length_bulk (hw : w <+: s ++ crlf ++ t) (hm : w <+: m) :
    bulkLength (36 :: decimal s.length ++ crlf ++ m) ((decimal s.length).length + 3 + w.length)
        ((decimal s.length).length + 3) s.length =
      (measured (!s.isEmpty) s.isEmpty (bulkString s).length).filter
        (· ≤ (decimal s.length).length + 3 + w.length) := by
  have hl := length_bulkString s
  rw [bulkLength]
  by_cases hs : s = []
  · subst hs
    rw [List.length_nil] at hl ⊢
    rw [if_pos (by omega), List.isEmpty_nil, measured, if_neg (by decide), if_pos rfl, hl,
      filter_of_le (by omega)]
    rfl
  · have hpos := List.length_pos_of_ne_nil hs
    rw [if_neg (by omega), List.isEmpty_eq_false_iff.mpr hs, measured, Bool.not_false, if_pos rfl,
      Int.toNat_natCast]
    dsimp only
    by_cases h : s.length + 2 ≤ w.length
    · obtain ⟨v, rfl⟩ : s ++ crlf <+: w :=
        List.prefix_of_prefix_length_le (List.prefix_append _ _) hw (by simpa [crlf] using h)
      obtain ⟨u, rfl⟩ := hm
      have hend : ∀ i, (36 :: decimal s.length ++ crlf ++ (s ++ crlf ++ v ++ u)).getD
          ((decimal s.length).length + 3 + (s.length + i)) 0 = (crlf ++ (v ++ u)).getD i 0 := by
        intro i
        have hhead : (36 :: decimal s.length ++ crlf).length = (decimal s.length).length + 3 := by
          simp [crlf]
        rw [getD_append, if_neg (by omega), hhead, Nat.add_sub_cancel_left, List.append_assoc,
          List.append_assoc, getD_append, if_neg (by omega), Nat.add_sub_cancel_left]
      rw [if_neg (by omega), filter_of_le (by omega),
        if_pos ⟨hend 0, hend 1⟩, hl]
      congr 1
    · rw [if_pos (by omega), filter_of_lt (by omega)]

theorem encodeAll_length {vs : List RespValue} (h : lastEndsEmpty vs = true) :
    2 ≤ (encodeAll vs).length := by
  cases vs with
  | nil => cases h
  | cons v vs =>
    have := encode_length v
    rw [encodeAll, List.length_append]
    omega

theorem measured_le {free ends : Bool} {k : Nat} (h : k ∈ measured free ends n) : n ≤ k + 2 := by
  unfold measured at h
  split at h
  · cases h
    omega
  · split at h
    · cases h
      omega
    · cases h

theorem measured_cons {v : RespValue} {vs : List RespValue} (h : v.emptyFree = true) (n : Nat) :
    measured (true && allEmptyFree vs) (lastEndsEmpty (v :: vs)) n =
      measured (allEmptyFree vs) (lastEndsEmpty vs) n := by
  cases vs with
  | nil => rfl
  | cons x xs => rw [lastEndsEmpty, h, Bool.true_and, Bool.true_and]

/-- A second empty bulk string, or elements behind one. -/
theorem measured_cut {v : RespValue} {vs : List RespValue} (h : v.emptyFree = false)
    (hcut : v.endsEmpty = false ∨ vs ≠ []) (n : Nat) :
    measured (false && allEmptyFree vs) (lastEndsEmpty (v :: vs)) n = none := by
  cases vs with
  | nil =>
    rw [lastEndsEmpty, hcut.resolve_right fun h => h rfl]
    rfl
  | cons x xs =>
    rw [lastEndsEmpty, h]
    rfl

/-- Behind a value that was taken for two bytes shorter stands its line end. -/
theorem drop_endsEmpty {v : RespValue} {x : Bytes} (hw : w <+: v.encode ++ t)
    (hlt : v.encode.length - 2 < w.length) : ((w ++ x).drop (v.encode.length - 2)).getD 0 0 = 13 := by
  obtain ⟨y, hy⟩ := encode_crlf v
  obtain ⟨z, hz⟩ := hw
  have hl : v.encode.length - 2 = y.length := by rw [← hy, List.length_append]; rfl
  have hget : (w ++ z).getD y.length 0 = 13 := by
    rw [hz, ← hy, List.append_assoc, getD_append, if_neg (by omega), Nat.sub_self]
    rfl
  rw [getD_append, if_pos (by omega)] at hget
  rw [List.getD_eq_getElem?_getD, List.getElem?_drop, ← List.getD_eq_getElem?_getD, hl, Nat.add_zero,
    getD_append, if_pos (by omega), hget]

/-- What a call on the first bytes of a value gives. -/
def lengthFound (v : RespValue) (len : Nat) : Option Nat :=
  (measured v.emptyFree v.endsEmpty v.encode.length).filter (· ≤ len)

/-- A value that is a line, or a line with a number that is not positive. -/
theorem length_one {v : RespValue} (hfree : v.emptyFree = true)
    (henc : v.encode = b :: line ++ crlf) (hline : (13 : UInt8) ∉ line) (depth : Nat)
    (hw : w <+: v.encode ++ t) (hm : w <+: m)
    (hhead : ∀ m k, getRespLengthBounded (depth + 1) (b :: line ++ crlf ++ m) (line.length + 3 + k) =
      .ok (some (line.length + 3))) :
    getRespLengthBounded (depth + 1) m w.length = .ok (lengthFound v w.length) := by
  rw [lengthFound, hfree, measured, if_pos rfl]
  have hl : v.encode.length = line.length + 3 := by simp [henc, crlf]
  rw [henc] at hw
  rcases first_line hw hm with hlt | ⟨w', m', rfl, rfl, -, -⟩
  · rw [List.length_cons] at hlt
    rw [length_short hline hw hlt hm, filter_of_lt (by omega)]
  · rw [length_line, List.length_cons, show line.length + 1 + 2 + w'.length = line.length + 3 + w'.length from rfl,
      hhead, filter_of_le (by omega), hl]

mutual

/-- **The length of a value**, with any bytes behind what is there of it. -/
theorem length_encode : ∀ {v : RespValue} {w m t : Bytes} {fuel : Nat}, v.Within (2 ^ 31) →
    w <+: v.encode ++ t → w <+: m → w.length < fuel →
    getRespLengthBounded fuel m w.length = .ok (lengthFound v w.length)
  | _, _, _, _, 0, _, _, _, hf => absurd hf (Nat.not_lt_zero _)
  | .simple s, w, m, t, fuel + 1, hv, hw, hm, hf =>
    length_one rfl rfl hv.1 fuel hw hm fun m k => length_head 43 m k fuel hv.1
  | .error s, w, m, t, fuel + 1, hv, hw, hm, hf =>
    length_one rfl rfl hv.1 fuel hw hm fun m k => length_head 45 m k fuel hv.1
  | .int z, w, m, t, fuel + 1, hv, hw, hm, hf =>
    length_one rfl rfl decimalInt_ne_cr fuel hw hm fun m k => length_head 58 m k fuel decimalInt_ne_cr
  | .nullBulk, w, m, t, fuel + 1, hv, hw, hm, hf =>
    length_one rfl rfl decimalInt_ne_cr fuel hw hm fun m k => by
      rw [length_head 36 m k fuel decimalInt_ne_cr]
      show (lenField _ _).map _ = _
      rw [lenField_decimalInt (by omega) (by omega)]
      rfl
  | .nullArray, w, m, t, fuel + 1, hv, hw, hm, hf =>
    length_one rfl rfl decimalInt_ne_cr fuel hw hm fun m k => by
      rw [length_head 42 m k fuel decimalInt_ne_cr]
      show (lenField _ _).bind _ = _
      rw [lenField_decimalInt (by omega) (by omega)]
      rfl
  | .bulk s, w, m, t, fuel + 1, hv, hw, hm, hf => by
    have hs : s.length < 2 ^ 31 := hv
    have hl := length_bulkString s
    rw [encode, bulkString_append] at hw
    rw [lengthFound, emptyFree, endsEmpty, encode]
    rcases first_line hw hm with hlt | ⟨w', m', rfl, rfl, hw', hm'⟩
    · rw [List.length_cons] at hlt
      rw [length_short decimal_ne_cr hw hlt hm, filter_none]
      intro n hn
      have := measured_le hn
      omega
    · rw [length_line, List.length_cons]
      show getRespLengthBounded _ _ ((decimal s.length).length + 3 + w'.length) = _
      rw [length_head 36 m' w'.length fuel decimal_ne_cr]
      show (lenField _ _).map _ = _
      have hnum := lenField_decimalInt (b := 36) (z := s.length) (by omega) (by omega) m'
      rw [decimalInt_natCast] at hnum
      rw [hnum, ← length_bulk hw' hm']
      rfl
  | .array vs, w, m, t, fuel + 1, hv, hw, hm, hf => by
    have hargc := hv.1
    have hl : (array vs).encode.length = (decimal vs.length).length + 3 + (encodeAll vs).length := by
      simp only [encode, crlf, List.length_append, List.length_cons, List.length_nil]
    have hw : w <+: 42 :: decimal vs.length ++ crlf ++ (encodeAll vs ++ t) := by
      rw [← List.append_assoc]
      exact hw
    rw [lengthFound, emptyFree, endsEmpty, hl, measured_add _ encodeAll_length]
    rcases first_line hw hm with hlt | ⟨w', m', rfl, rfl, hw', hm'⟩
    · rw [List.length_cons] at hlt
      rw [length_short decimal_ne_cr hw hlt hm, filter_none]
      intro n hn
      obtain ⟨k, -, rfl⟩ := Option.map_eq_some_iff.mp hn
      omega
    · have hnum := lenField_decimalInt (b := 42) (z := vs.length) (by omega) (by omega) m'
      rw [decimalInt_natCast] at hnum
      rw [length_line, List.length_cons] at hf ⊢
      show getRespLengthBounded _ _ ((decimal vs.length).length + 3 + w'.length) =
        .ok (Option.filter (· ≤ (decimal vs.length).length + 3 + w'.length) _)
      rw [length_head 42 m' w'.length fuel decimal_ne_cr, filter_add]
      show (lenField _ _).bind _ = _
      rw [hnum]
      show (if (vs.length : Int) ≤ 0 then _ else _) = _
      cases vs with
      | nil => rfl
      | cons v vs =>
        have := length_encodeAll (u := 42 :: decimal (v :: vs).length ++ crlf) (n := fuel) hv.2 hw'
          ((List.prefix_append_right_inj _).mpr hm') (by omega)
        have hhead : (42 :: decimal (v :: vs).length ++ crlf).length =
            (decimal (v :: vs).length).length + 3 := by simp [crlf]
        rw [hhead] at this
        rw [if_neg (by rw [List.length_cons]; omega), Int.toNat_natCast, this]

theorem length_encodeAll : ∀ {vs : List RespValue} {u w m t : Bytes} {n : Nat},
    AllWithin (2 ^ 31) vs → w <+: encodeAll vs ++ t → u ++ w <+: m → w.length < n →
    elementsLength (getRespLengthBounded n) m (u.length + w.length) vs.length u.length =
      .ok (((measured (allEmptyFree vs) (lastEndsEmpty vs) (encodeAll vs).length).filter
        (· ≤ w.length)).map (u.length + ·))
  | [], u, w, m, t, fuel, _, _, _, _ => rfl
  | v :: vs, u, w, m, t, fuel, hv, hw, hm, hf => by
    obtain ⟨x, hx⟩ := hm
    have hdrop : m.drop u.length = w ++ x := by
      rw [← hx, List.append_assoc, List.drop_left]
    rw [encodeAll, List.append_assoc] at hw
    have hv3 := encode_length v
    have hmeas := length_encode hv.1 hw (List.prefix_append w x) hf
    rw [List.length_cons, elementsLength, Nat.add_sub_cancel_left, hdrop, hmeas, encodeAll,
      List.length_append, allEmptyFree]
    by_cases hnil : u.length + w.length ≤ u.length
    · rw [if_pos hnil, filter_none]
      · rfl
      · intro n hn
        have := measured_le hn
        omega
    rw [if_neg hnil, lengthFound]
    cases hfree : v.emptyFree with
    | true =>
      rw [measured_cons hfree, measured_add _ encodeAll_length, measured, if_pos rfl]
      by_cases hall : v.encode.length ≤ w.length
      · obtain ⟨w', rfl⟩ : v.encode <+: w :=
          List.prefix_of_prefix_length_le (List.prefix_append _ _) hw hall
        have hw' := (List.prefix_append_right_inj _).mp hw
        have ih := length_encodeAll (u := u ++ v.encode) (m := m) (n := fuel) hv.2 hw'
          ⟨x, by rw [← hx]; simp only [List.append_assoc]⟩
          (by rw [List.length_append] at hf; omega)
        rw [List.length_append, Nat.add_assoc] at ih
        rw [List.length_append, filter_of_le (by omega), filter_add, Option.map_map]
        show elementsLength _ m _ vs.length (u.length + v.encode.length) = _
        rw [ih]
        congr 2
        funext k
        exact Nat.add_assoc ..
      · rw [filter_of_lt (by omega), filter_none]
        · rfl
        · intro n hn
          obtain ⟨k, -, rfl⟩ := Option.map_eq_some_iff.mp hn
          omega
    | false =>
      cases hends : v.endsEmpty with
      | false => rw [measured_cut hfree (.inl hends)]; rfl
      | true =>
        rw [measured, if_neg (by decide), if_pos rfl]
        by_cases hall : v.encode.length - 2 ≤ w.length
        · rw [filter_of_le hall]
          show elementsLength _ m _ vs.length (u.length + (v.encode.length - 2)) = _
          cases vs with
          | nil =>
            rw [lastEndsEmpty, hends, encodeAll, List.length_nil, List.length_nil, Bool.false_and, measured,
              if_neg (by decide), if_pos rfl, Nat.add_zero, filter_of_le hall]
            rfl
          | cons y ys =>
            obtain ⟨depth, rfl⟩ : ∃ depth, fuel = depth + 1 := ⟨fuel - 1, by omega⟩
            rw [measured_cut hfree (.inr (List.cons_ne_nil y ys)), List.length_cons, elementsLength]
            split
            · rfl
            · rename_i hlt
              rw [← List.drop_drop, hdrop, length_cr (drop_endsEmpty hw (by omega))]
              rfl
        · rw [filter_of_lt (by omega), filter_none]
          · rfl
          · intro n hn
            have := measured_le hn
            omega

end

/-! ## Where the two agree -/

/-- Both functions find a value, with the same end, or neither does. -/
def Agree (m : Bytes) (len : Nat) : Prop :=
  ∃ r, respParse m len = .ok r ∧ getRespLength m len = .ok (r.map (· + 1))

/-- When they do, on `n` bytes. If the value is all there, nothing in it is refused and no bulk string
in it is empty, or it is refused and has an empty bulk string before its end. If it is not, more than
the line end of an empty bulk string is missing. -/
def Alike (v : RespValue) (n : Nat) : Prop :=
  if v.encode.length ≤ n then
    if v.refused then v.emptyFree = false ∧ v.endsEmpty = false else v.emptyFree = true
  else ¬ (v.endsEmpty = true ∧ v.encode.length ≤ n + 2)

instance (v : RespValue) (n : Nat) : Decidable (Alike v n) := by
  unfold Alike
  infer_instance

mutual

theorem endsEmpty_eq_false : ∀ {v : RespValue}, v.emptyFree = true → v.endsEmpty = false
  | .simple _, _ | .error _, _ | .int _, _ | .nullBulk, _ | .nullArray, _ => rfl
  | .bulk s, h => by
    rw [emptyFree, Bool.not_eq_true'] at h
    rw [endsEmpty, h]
  | .array _, h => lastEndsEmpty_eq_false h

theorem lastEndsEmpty_eq_false : ∀ {vs : List RespValue}, allEmptyFree vs = true →
    lastEndsEmpty vs = false
  | [], _ => rfl
  | v :: vs, h => by
    obtain ⟨hv, hvs⟩ := Bool.and_eq_true_iff.mp h
    cases vs with
    | nil => exact endsEmpty_eq_false hv
    | cons x xs =>
      rw [lastEndsEmpty, lastEndsEmpty_eq_false hvs, Bool.and_false]

end

/-- **Where the two agree**, on any bytes of a value and what follows it. -/
theorem lengths_iff {v : RespValue} (hv : v.Within (2 ^ 31)) (hw : w <+: v.encode ++ t) (hm : w <+: m) :
    Agree m w.length ↔ Alike v w.length := by
  have hparse := parse_encode (within_mono (by decide) hv) hw hm (Nat.lt_succ_self _)
  have hlength := length_encode hv hw hm (Nat.lt_succ_self _)
  have h3 := encode_length v
  have hagree : Agree m w.length ↔ lengthFound v w.length =
      (if v.encode.length ≤ w.length ∧ v.refused = false then some (v.encode.length - 1)
        else none).map (· + 1) := by
    rw [Agree, respParse, getRespLength, hparse, hlength]
    constructor
    · rintro ⟨r, hr, hg⟩
      cases hr
      exact Except.ok.inj hg
    · intro h
      exact ⟨_, rfl, congrArg Except.ok h⟩
  rw [hagree, lengthFound, Alike]
  cases hfree : v.emptyFree with
  | true =>
    rw [endsEmpty_eq_false hfree, measured, if_pos rfl]
    by_cases hall : v.encode.length ≤ w.length
    · rw [filter_of_le hall, if_pos hall]
      cases v.refused with
      | true => simp
      | false => simpa [hall] using (Nat.sub_add_cancel (by omega : 1 ≤ v.encode.length)).symm
    · rw [filter_of_lt (by omega), if_neg hall, if_neg fun h => hall h.1]
      simp
  | false =>
    cases hends : v.endsEmpty with
    | true =>
      rw [measured, if_neg (by decide), if_pos rfl]
      by_cases hall : v.encode.length ≤ w.length
      · rw [filter_of_le (by omega), if_pos hall]
        cases v.refused with
        | true => simp
        | false =>
          simp only [hall, and_self, if_true, Option.map_some, Option.some.injEq, Bool.false_eq_true,
            if_false, iff_false]
          omega
      · rw [if_neg hall, if_neg fun h => hall h.1]
        by_cases hcut : v.encode.length ≤ w.length + 2
        · rw [filter_of_le (by omega)]
          simp [hcut]
        · rw [filter_of_lt (by omega)]
          simp [hcut]
    | false =>
      rw [measured, if_neg (by decide), if_neg (by decide)]
      by_cases hall : v.encode.length ≤ w.length
      · rw [if_pos hall]
        cases v.refused with
        | true => simp
        | false => simp [hall]
      · rw [if_neg hall, if_neg fun h => hall h.1]
        simp

theorem lengths_iff_nested :
    let v := RespValue.array [simple (bytes "OK"), int 7, nullBulk, array [bulk [13, 10], nullArray]]
    Agree (v.encode ++ [36]) (v.encode ++ [36]).length :=
  (lengths_iff (v := array [simple (bytes "OK"), int 7, nullBulk, array [bulk [13, 10], nullArray]])
    ⟨by decide, ⟨by decide, by decide⟩, trivial, trivial,
      ⟨by decide, (by decide : ([13, 10] : Bytes).length < 2 ^ 31), trivial, trivial⟩, trivial⟩
    (List.prefix_refl _) (List.prefix_refl _)).mpr (by decide)

instance (m : Bytes) (len : Nat) : Decidable (Agree m len) :=
  match h : respParse m len with
  | .error _ => isFalse fun ⟨_, hr, _⟩ => by rw [h] at hr; cases hr
  | .ok r => decidable_of_iff (getRespLength m len = .ok (r.map (· + 1)))
      ⟨fun hg => ⟨r, h, hg⟩, fun ⟨_, hr, hg⟩ => by rw [h] at hr; cases hr; exact hg⟩

/-- An empty bulk string, an empty array and a negative number. -/
theorem apart_values :
    respParse (bytes "$0\r\n\r\n") 6 = .ok (some 5) ∧ getRespLength (bytes "$0\r\n\r\n") 6 = .ok (some 4) ∧
      respParse (bytes "*0\r\n") 4 = .ok none ∧ getRespLength (bytes "*0\r\n") 4 = .ok (some 4) ∧
      respParse (bytes ":-1\r\n") 5 = .ok none ∧ getRespLength (bytes ":-1\r\n") 5 = .ok (some 5) ∧
      ∀ v ∈ [bulk [], array [], int (-1)], ¬ Agree v.encode v.encode.length := by
  decide

theorem bulkLength_lt {p k : Nat} {d : Int} (hd : d < 2 ^ 31) (h : bulkLength m len p d = some k) :
    k < p + 2 ^ 31 + 2 := by
  unfold bulkLength at h
  split at h
  · cases h
    omega
  · dsimp only at h
    split at h
    · cases h
    · split at h
      · cases h
        omega
      · cases h

/-- A bulk string from 2³¹ bytes on: `atoi` gives less than its length. -/
theorem long_apart (hs : 2 ^ 31 ≤ s.length) : ¬ Agree (bulkString s ++ t) (bulkString s ++ t).length := by
  rintro ⟨r, hr, hg⟩
  have hl := length_bulkString s
  have hm := bulkString_append s t
  have hlen : (bulkString s ++ t).length = (decimal s.length).length + 3 + (s ++ crlf ++ t).length := by
    rw [hm, length_line, List.length_cons]
  rcases Nat.lt_or_ge s.length (2 ^ 63 - 2) with hlt | hge
  · rw [respParse_bulk hlt (List.prefix_refl _) (List.prefix_refl _),
      if_pos (by rw [List.length_append]; omega)] at hr
    have hr : some ((bulkString s).length - 1) = r := Except.ok.inj hr
    have hr : r.map (· + 1) = some (bulkString s).length := by
      rw [← hr, Option.map_some, Nat.sub_add_cancel (by omega)]
    rw [hr, getRespLength, hlen, hm, length_head 36 _ _ _ decimal_ne_cr] at hg
    have hg : (lenField _ _).map _ = _ := hg
    cases hd : lenField (36 :: decimal s.length ++ crlf ++ (s ++ crlf ++ t)) ((decimal s.length).length + 1) with
    | error e => rw [hd] at hg; cases hg
    | ok d =>
      rw [hd] at hg
      have hd31 : d < 2 ^ 31 := by
        unfold lenField at hd
        split at hd
        · cases hd
        · rw [← Except.ok.inj hd, atoi]
          cases strtol 10 _ with
          | none => decide
          | some x => exact (toInt32_range _).2
      have := bulkLength_lt hd31 (Except.ok.inj hg)
      omega
  · rw [respParse, hlen, hm, parse_overflow hge] at hr
    cases hr

end Fedis.Proof.Resp

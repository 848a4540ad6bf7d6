import Fedis.Proof.Framing
import Fedis.Proof.Robj
import Fedis.Spec.RespValue

/-!
# Finding complete values

`respParse` on the first bytes of a value, behind which anything may stand:

* `first_line`: either the first line is there or its end is not;
* `parse_encode`, `parse_encodeAll`: the value's last byte is found if the value is all there and
  nothing in it is refused, for a value and for the elements of an array;
* `respParse_bulk`, `respParse_request`: this for bulk strings and for requests;
* `delimits_iff`: which requests are delimited exactly, `parse_overflow` what goes wrong with others.
-/

namespace Fedis.Proof.Resp

open Framework RespValue

variable {m head line s t w rest : Bytes} {n len fuel : Nat}

/-! ## Lines -/

theorem idxOf_cr (h : (13 : UInt8) ∉ line) (t : Bytes) :
    (line ++ 13 :: t).idxOf? 13 = some line.length := by
  induction line with
  | nil => simp [List.idxOf?_cons]
  | cons b line ih =>
    rw [List.mem_cons, not_or] at h
    have hb : ¬ b = 13 := fun e => h.1 e.symm
    simp [List.idxOf?_cons, hb, ih h.2]

/-- A line with its end. -/
theorem findLineEnd_line (h : (13 : UInt8) ∉ line) (hlen : line.length + 2 ≤ len) (t : Bytes) :
    findLineEnd (line ++ crlf ++ t) len = some (line.length + 1) := by
  have htake : (line ++ crlf ++ t).take (len - 1) =
      line ++ 13 :: ((10 :: t).take (len - 1 - line.length - 1)) := by
    obtain ⟨k, hk⟩ : ∃ k, len - 1 = line.length + (k + 1) := ⟨len - 2 - line.length, by omega⟩
    rw [hk, List.append_assoc, List.take_length_add_append, Nat.add_sub_cancel_left, Nat.add_sub_cancel]
    rfl
  have hget : (line ++ crlf ++ t).getD (line.length + 1) 0 = 10 := by
    rw [List.append_assoc, getD_append, if_neg (by omega), Nat.add_sub_cancel_left]
    rfl
  rw [findLineEnd, if_neg (by omega), htake, idxOf_cr h]
  simp only [hget, if_true]

/-- A line without its end. -/
theorem findLineEnd_none (h : (13 : UInt8) ∉ m.take (len - 1)) : findLineEnd m len = none := by
  rw [findLineEnd]
  split
  · rfl
  · rw [List.idxOf?_eq_none_iff.mpr h]

theorem length_line (head rest : Bytes) : (head ++ crlf ++ rest).length = head.length + 2 + rest.length := by
  simp only [List.length_append, crlf, List.length_cons, List.length_nil]

/-- Either the end of the first line is not there, or the line is, and what follows it. -/
theorem first_line (hw : w <+: head ++ crlf ++ rest) (hm : w <+: m) :
    w.length < head.length + 2 ∨
      ∃ w' m', w = head ++ crlf ++ w' ∧ m = head ++ crlf ++ m' ∧ w' <+: rest ∧ w' <+: m' := by
  have hhead : (head ++ crlf).length = head.length + 2 := by simp [crlf]
  rcases Nat.lt_or_ge w.length (head.length + 2) with hlt | hge
  · exact .inl hlt
  · obtain ⟨w', rfl⟩ : head ++ crlf <+: w :=
      List.prefix_of_prefix_length_le (List.prefix_append _ _) hw (by rw [hhead]; exact hge)
    obtain ⟨t, rfl⟩ := hm
    exact .inr ⟨w', w' ++ t, rfl, List.append_assoc .., (List.prefix_append_right_inj _).mp hw,
      List.prefix_append _ _⟩

/-- A first line whose end has not come. -/
theorem findLineEnd_short (hhead : (13 : UInt8) ∉ head) (hw : w <+: head ++ crlf ++ rest)
    (hlt : w.length < head.length + 2) (hm : w <+: m) : findLineEnd m w.length = none := by
  have hsub : w.take (w.length - 1) <+: head := by
    have hline : head <+: head ++ crlf ++ rest := ⟨crlf ++ rest, by rw [List.append_assoc]⟩
    refine List.prefix_of_prefix_length_le ((List.take_prefix _ _).trans hw) hline ?_
    rw [List.length_take]
    omega
  have htake : m.take (w.length - 1) = w.take (w.length - 1) := by
    obtain ⟨t, rfl⟩ := hm
    exact List.take_append_of_le_length (by omega)
  refine findLineEnd_none fun h => ?_
  rw [htake] at h
  exact hhead (hsub.subset h)

theorem parse_short (hhead : (13 : UInt8) ∉ head) (hw : w <+: head ++ crlf ++ rest)
    (hlt : w.length < head.length + 2) (hm : w <+: m) (depth : Nat) :
    respParseBounded (depth + 1) m w.length = .ok none := by
  rw [respParseBounded, findLineEnd_short hhead hw hlt hm]
  split <;> rfl

theorem decimal_ne_cr {n : Nat} : (13 : UInt8) ∉ decimal n := by
  intro h
  have := (decimal_spec n).1 13 h
  exact absurd this (by decide)

theorem decimalInt_ne_cr {z : Int} : (13 : UInt8) ∉ decimalInt z := by
  unfold decimalInt
  split
  · rw [List.mem_cons, not_or]
    exact ⟨by decide, decimal_ne_cr⟩
  · exact decimal_ne_cr

theorem cons_ne_cr {b : UInt8} (hb : b ≠ 13) (h : (13 : UInt8) ∉ line) : (13 : UInt8) ∉ b :: line := by
  rw [List.mem_cons, not_or]
  exact ⟨fun e => hb e.symm, h⟩

/-! ## Numbers -/

theorem strtolVal_decimalInt {z : Int} (hz : inLong z) (t : Bytes) :
    strtolVal (decimalInt z ++ crlf ++ t) = z := by
  rw [strtolVal, List.append_assoc, Value.strtol_decimalInt z (by rintro b hb; cases hb; rfl), Option.map_some,
    Option.getD_some, clampLong_eq hz]

theorem decimalInt_natCast (n : Nat) : decimalInt n = decimal n := by
  rw [decimalInt, if_neg (by omega), Int.natAbs_natCast]

theorem strtolVal_decimal {n : Nat} (hn : n < 2 ^ 63) (t : Bytes) :
    strtolVal (decimal n ++ crlf ++ t) = n := by
  rw [← decimalInt_natCast]
  refine strtolVal_decimalInt ⟨?_, ?_⟩ t
  · rw [LONG_MIN]
    omega
  · rw [LONG_MAX]
    omega

/-- A number is all digits iff it is not negative. -/
theorem digits_decimalInt (z : Int) : (decimalInt z).all (isDigitOf 10) = decide (0 ≤ z) := by
  unfold decimalInt
  split
  · rename_i hz
    rw [List.all_cons, show isDigitOf 10 45 = false by decide, Bool.false_and, decide_eq_false (by omega)]
  · rename_i hz
    rw [List.all_eq_true.mpr (decimal_spec z.natAbs).1, decide_eq_true (by omega)]

/-! ## Values -/

theorem length_bulkString (s : Bytes) :
    (bulkString s).length = (decimal s.length).length + 3 + (s.length + 2) := by
  simp only [bulkString, crlf, List.length_append, List.length_cons, List.length_nil]
  omega

theorem bulkString_append (s t : Bytes) :
    bulkString s ++ t = (36 :: decimal s.length) ++ crlf ++ (s ++ crlf ++ t) := by
  simp [bulkString]

/-- What is behind the first line of a bulk string. -/
theorem parse_bulk (hs : s.length < 2 ^ 63 - 2) (hw : w <+: s ++ crlf ++ t) (hm : w <+: m) :
    respParseBulk (36 :: decimal s.length ++ crlf ++ m) ((decimal s.length).length + 3 + w.length)
        ((decimal s.length).length + 2) =
      .ok (if s.length + 2 ≤ w.length then some ((bulkString s).length - 1) else none) := by
  have hval : strtolVal ((36 :: decimal s.length ++ crlf ++ m).drop 1) = s.length :=
    strtolVal_decimal (by omega) m
  have hhead : (36 :: decimal s.length ++ crlf).length = (decimal s.length).length + 3 := by simp [crlf]
  have hget : ∀ i, (36 :: decimal s.length ++ crlf ++ m).getD
      ((decimal s.length).length + 2 + 1 + i) 0 = m.getD i 0 := by
    intro i
    rw [getD_append, if_neg (by omega), hhead]
    congr 1
    omega
  rw [respParseBulk, hval]
  dsimp only
  rw [if_neg (by omega), if_neg (by omega), if_neg (by rw [LONG_MAX]; omega), Int.toNat_natCast]
  by_cases h : s.length + 2 ≤ w.length
  · obtain ⟨v, rfl⟩ : s ++ crlf <+: w :=
      List.prefix_of_prefix_length_le (List.prefix_append _ _) hw (by simpa [crlf] using h)
    obtain ⟨u, rfl⟩ := hm
    have hend : ∀ i, (s ++ crlf ++ v ++ u).getD (s.length + i) 0 = (crlf ++ (v ++ u)).getD i 0 := by
      intro i
      rw [List.append_assoc, List.append_assoc, getD_append, if_neg (by omega), Nat.add_sub_cancel_left]
    have hcr : (36 :: decimal s.length ++ crlf ++ (s ++ crlf ++ v ++ u)).getD
        ((decimal s.length).length + 2 + 1 + s.length) 0 = 13 := by
      rw [hget]
      exact hend 0
    have hlf : (36 :: decimal s.length ++ crlf ++ (s ++ crlf ++ v ++ u)).getD
        ((decimal s.length).length + 2 + 1 + s.length + 1) 0 = 10 := by
      rw [Nat.add_assoc _ s.length 1, hget]
      exact hend 1
    rw [if_neg (by omega), if_pos ⟨hcr, hlf⟩, if_pos h, length_bulkString]
    congr 2
  · rw [if_pos (by omega), if_neg h]

/-- What decides on a value whose first line is there. -/
theorem parse_line (b : UInt8) (m : Bytes) (k depth : Nat) : b ≠ 13 → (13 : UInt8) ∉ line →
    respParseBounded (depth + 1) (b :: line ++ crlf ++ m) (line.length + 3 + k) =
      match b with
      | 43 | 45 => .ok (some (line.length + 2))
      | 58 => .ok (if line.all (isDigitOf 10) then some (line.length + 2) else none)
      | 36 => respParseBulk (b :: line ++ crlf ++ m) (line.length + 3 + k) (line.length + 2)
      | 42 =>
        if strtolVal (line ++ crlf ++ m) = 0 then .ok none
        else respParseElements (respParseBounded depth) (b :: line ++ crlf ++ m) (line.length + 3 + k)
          (strtolVal (line ++ crlf ++ m)).toNat (line.length + 3)
      | _ => .error .undefined := by
  intro hb hline
  have htake : ((b :: line ++ crlf ++ m).take (line.length + 2 - 1)).drop 1 = line := by
    rw [show line.length + 2 - 1 = (b :: line).length from rfl, List.append_assoc, List.take_left]
    rfl
  rw [respParseBounded, if_neg (by omega), findLineEnd_line (cons_ne_cr hb hline)
    (by rw [List.length_cons]; omega), List.length_cons]
  dsimp only
  rw [htake]
  rfl

/-- A value that is a line. -/
theorem parse_one {v : RespValue} {b : UInt8} (hb : b ≠ 13) (hline : (13 : UInt8) ∉ line)
    (henc : v.encode = b :: line ++ crlf) (depth : Nat) (hw : w <+: v.encode ++ t) (hm : w <+: m)
    (hhead : ∀ m k, respParseBounded (depth + 1) (b :: line ++ crlf ++ m) (line.length + 3 + k) =
      .ok (if v.refused = false then some (line.length + 2) else none)) :
    respParseBounded (depth + 1) m w.length =
      .ok (if v.encode.length ≤ w.length ∧ v.refused = false then some (v.encode.length - 1) else none) := by
  have hl : v.encode.length = line.length + 3 := by simp [henc, crlf]
  rw [henc] at hw
  rw [hl]
  rcases first_line hw hm with hlt | ⟨w', m', rfl, rfl, -, -⟩
  · rw [List.length_cons] at hlt
    rw [parse_short (cons_ne_cr hb hline) hw hlt hm, if_neg (by omega)]
  · rw [length_line, List.length_cons, show line.length + 1 + 2 + w'.length = line.length + 3 + w'.length from rfl,
      hhead]
    simp only [Nat.le_add_right, true_and]
    rfl

mutual

theorem within_mono {n n' : Nat} (h : n ≤ n') : ∀ {v : RespValue}, v.Within n → v.Within n'
  | .simple _, hv | .error _, hv => hv
  | .int _, _ | .nullBulk, _ | .nullArray, _ => trivial
  | .bulk _, hv => Nat.lt_of_lt_of_le hv h
  | .array _, hv => ⟨hv.1, allWithin_mono h hv.2⟩

theorem allWithin_mono {n n' : Nat} (h : n ≤ n') : ∀ {vs : List RespValue}, AllWithin n vs →
    AllWithin n' vs
  | [], _ => trivial
  | _ :: _, hv => ⟨within_mono h hv.1, allWithin_mono h hv.2⟩

end

theorem encode_pos (v : RespValue) : 0 < v.encode.length := by
  cases v <;> simp [encode, bulkString]

mutual

/-- **The end of a value is found** iff the value is all there and nothing in it is refused. -/
theorem parse_encode : ∀ {v : RespValue} {w m t : Bytes} {fuel : Nat}, v.Within (2 ^ 63 - 2) →
    w <+: v.encode ++ t → w <+: m → w.length < fuel →
    respParseBounded fuel m w.length =
      .ok (if v.encode.length ≤ w.length ∧ v.refused = false then some (v.encode.length - 1) else none)
  | _, _, _, _, 0, _, _, _, hf => absurd hf (Nat.not_lt_zero _)
  | .simple s, w, m, t, fuel + 1, hv, hw, hm, hf =>
    parse_one (by decide) hv.1 rfl fuel hw hm fun m k => parse_line 43 m k fuel (by decide) hv.1
  | .error s, w, m, t, fuel + 1, hv, hw, hm, hf =>
    parse_one (by decide) hv.1 rfl fuel hw hm fun m k => parse_line 45 m k fuel (by decide) hv.1
  | .int z, w, m, t, fuel + 1, hv, hw, hm, hf =>
    parse_one (by decide) decimalInt_ne_cr rfl fuel hw hm fun m k => by
      rw [parse_line 58 m k fuel (by decide) decimalInt_ne_cr]
      show Except.ok (if (decimalInt z).all (isDigitOf 10) then _ else _) = _
      rw [digits_decimalInt, refused]
      by_cases hz : 0 ≤ z
      · rw [if_pos (decide_eq_true hz), if_pos (decide_eq_false (by omega))]
      · rw [if_neg (by simpa using hz), if_neg (by simpa using hz)]
  | .bulk s, w, m, t, fuel + 1, hv, hw, hm, hf => by
    rw [encode] at hw ⊢
    rw [bulkString_append] at hw
    have hl := length_bulkString s
    rcases first_line hw hm with hlt | ⟨w', m', rfl, rfl, hw', hm'⟩
    · rw [List.length_cons] at hlt
      rw [parse_short (cons_ne_cr (by decide) decimal_ne_cr) hw hlt hm, if_neg (by omega)]
    · rw [length_line, List.length_cons, parse_line 36 _ _ _ (by decide) decimal_ne_cr]
      show respParseBulk _ _ _ = _
      rw [parse_bulk hv hw' hm', refused]
      by_cases h : s.length + 2 ≤ w'.length
      · rw [if_pos h, if_pos ⟨by omega, rfl⟩]
      · rw [if_neg h, if_neg fun hh => h (by omega)]
  | .nullBulk, w, m, t, fuel + 1, hv, hw, hm, hf =>
    parse_one (by decide) decimalInt_ne_cr rfl fuel hw hm fun m k => by
      have hval : strtolVal ((36 :: decimalInt (-1) ++ crlf ++ m).drop 1) = -1 :=
        strtolVal_decimalInt (by decide) m
      rw [parse_line 36 m k fuel (by decide) decimalInt_ne_cr]
      show respParseBulk _ _ _ = _
      rw [respParseBulk, hval, if_pos rfl]
      rfl
  | .array vs, w, m, t, fuel + 1, hv, hw, hm, hf => by
    have hl : (array vs).encode.length = (decimal vs.length).length + 3 + (encodeAll vs).length := by
      simp only [encode, crlf, List.length_append, List.length_cons, List.length_nil]
    rw [hl]
    have hw : w <+: 42 :: decimal vs.length ++ crlf ++ (encodeAll vs ++ t) := by
      rw [← List.append_assoc]
      exact hw
    rcases first_line hw hm with hlt | ⟨w', m', rfl, rfl, hw', hm'⟩
    · rw [List.length_cons] at hlt
      rw [parse_short (cons_ne_cr (by decide) decimal_ne_cr) hw hlt hm, if_neg (by omega)]
    · have hargc := hv.1
      rw [length_line, List.length_cons] at hf
      rw [length_line, List.length_cons, parse_line 42 _ _ _ (by decide) decimal_ne_cr]
      show (if strtolVal _ = 0 then _ else _) = _
      rw [strtolVal_decimal (by omega), refused, Int.toNat_natCast]
      cases vs with
      | nil =>
        rw [if_pos (show (([] : List RespValue).length : Int) = 0 from rfl), if_neg fun h => Bool.noConfusion h.2]
      | cons v vs =>
        have := parse_encodeAll (u := 42 :: decimal (v :: vs).length ++ crlf) (n := fuel) hv.2 hw'
          ((List.prefix_append_right_inj _).mpr hm') (by omega) (by simp)
        have hhead : (42 :: decimal (v :: vs).length ++ crlf).length =
            (decimal (v :: vs).length).length + 3 := by simp [crlf]
        rw [hhead] at this
        rw [if_neg (by rw [List.length_cons]; omega), this, List.isEmpty_cons, Bool.false_or]
        simp only [Nat.add_le_add_iff_left]
  | .nullArray, w, m, t, fuel + 1, hv, hw, hm, hf =>
    parse_one (by decide) decimalInt_ne_cr rfl fuel hw hm fun m k => by
      rw [parse_line 42 m k fuel (by decide) decimalInt_ne_cr]
      show (if strtolVal _ = 0 then _ else _) = _
      rw [strtolVal_decimalInt (by decide), if_neg (by decide)]
      rfl

theorem parse_encodeAll : ∀ {vs : List RespValue} {u w m t : Bytes} {n : Nat},
    AllWithin (2 ^ 63 - 2) vs → w <+: encodeAll vs ++ t → u ++ w <+: m → w.length < n → 0 < u.length →
    respParseElements (respParseBounded n) m (u.length + w.length) vs.length u.length =
      .ok (if (encodeAll vs).length ≤ w.length ∧ anyRefused vs = false then
        some (u.length + (encodeAll vs).length - 1) else none)
  | [], u, w, m, t, fuel, _, _, _, _, _ => by
    rw [if_pos ⟨Nat.zero_le _, rfl⟩]
    rfl
  | v :: vs, u, w, m, t, fuel, hv, hw, hm, hf, hu => by
    obtain ⟨x, hx⟩ := hm
    have hdrop : m.drop u.length = w ++ x := by
      rw [← hx, List.append_assoc, List.drop_left]
    rw [encodeAll, List.append_assoc] at hw
    rw [List.length_cons, respParseElements, Nat.add_sub_cancel_left, hdrop,
      parse_encode hv.1 hw (List.prefix_append _ _) hf, encodeAll, List.length_append, anyRefused]
    have hpos := encode_pos v
    by_cases h : v.encode.length ≤ w.length ∧ v.refused = false
    · obtain ⟨w', rfl⟩ : v.encode <+: w :=
        List.prefix_of_prefix_length_le (List.prefix_append _ _) hw h.1
      have hw' := (List.prefix_append_right_inj _).mp hw
      have ih := parse_encodeAll (u := u ++ v.encode) (m := m) (n := fuel) hv.2 hw'
        ⟨x, by rw [← hx]; simp only [List.append_assoc]⟩
        (by rw [List.length_append] at hf; omega) (by rw [List.length_append]; omega)
      rw [List.length_append] at ih
      rw [if_pos h, h.2, Bool.false_or, List.length_append, ← Nat.add_assoc]
      change respParseElements _ m _ vs.length (u.length + (v.encode.length - 1) + 1) = _
      rw [show u.length + (v.encode.length - 1) + 1 = u.length + v.encode.length by omega, ih]
      simp only [Nat.add_le_add_iff_left, Nat.add_assoc]
    · rw [if_neg h, if_neg fun hh => h ⟨by omega, (Bool.or_eq_false_iff.mp hh.2).1⟩]
      rfl

end

/-! ## Bulk strings and requests -/

/-- A bulk string is found iff it is all there. -/
theorem respParse_bulk (hs : s.length < 2 ^ 63 - 2) (hw : w <+: bulkString s ++ t) (hm : w <+: m) :
    respParse m w.length =
      .ok (if (bulkString s).length ≤ w.length then some ((bulkString s).length - 1) else none) := by
  rw [respParse, parse_encode (v := bulk s) hs hw hm (Nat.lt_succ_self _)]
  simp only [refused, and_true, encode]

/-- A request, as a value. -/
theorem encodeRequest_eq_encode (argv : List Bytes) :
    encodeRequest argv = (array (argv.map bulk)).encode := by
  have hall : ∀ args : List Bytes, args.flatMap bulkString = encodeAll (args.map bulk) := by
    intro args
    induction args with
    | nil => rfl
    | cons a args ih => rw [List.flatMap_cons, ih, List.map_cons, encodeAll, encode]
  rw [encodeRequest, encode, List.length_map, hall]

theorem within_bulks {argv : List Bytes} : AllWithin n (argv.map bulk) ↔ ∀ s ∈ argv, s.length < n := by
  induction argv with
  | nil => simp [AllWithin]
  | cons a argv ih => rw [List.map_cons, AllWithin, ih, List.forall_mem_cons, Within]

theorem anyRefused_bulks (argv : List Bytes) : anyRefused (argv.map bulk) = false := by
  induction argv with
  | nil => rfl
  | cons a argv ih => rw [List.map_cons, anyRefused, ih, refused, Bool.or_false]

theorem refused_request {argv : List Bytes} (hne : argv ≠ []) :
    (array (argv.map bulk)).refused = false := by
  rw [refused, anyRefused_bulks, Bool.or_false, List.isEmpty_eq_false_iff]
  exact fun h => hne (List.map_eq_nil_iff.mp h)

/-- **A request is found** iff it is all there. -/
theorem respParse_request {argv : List Bytes} (hne : argv ≠ []) (hargc : argv.length < 2 ^ 31)
    (hs : ∀ s ∈ argv, s.length < 2 ^ 63 - 2) (hw : w <+: encodeRequest argv ++ t) (hm : w <+: m) :
    respParse m w.length =
      .ok (if (encodeRequest argv).length ≤ w.length then some ((encodeRequest argv).length - 1)
        else none) := by
  have hv : (array (argv.map bulk)).Within (2 ^ 63 - 2) :=
    ⟨by rwa [List.length_map], within_bulks.mpr hs⟩
  rw [encodeRequest_eq_encode] at hw ⊢
  rw [respParse, parse_encode hv hw hm (Nat.lt_succ_self _)]
  simp only [refused_request hne, and_true]

/-! ## Which requests are delimited -/

/-- In any memory, the last byte is found with anything behind it, and nothing is found in less. -/
def Delimits (argv : List Bytes) : Prop :=
  (∀ t m, encodeRequest argv ++ t <+: m →
    respParse m (encodeRequest argv ++ t).length = .ok (some ((encodeRequest argv).length - 1))) ∧
  ∀ w m, w <+: encodeRequest argv → w ≠ encodeRequest argv → w <+: m → respParse m w.length = .ok none

/-- The length of an argument, and a line end, can be counted. -/
def Countable (arg : Bytes) : Prop := (arg.length : Int) + 2 ≤ LONG_MAX

instance (arg : Bytes) : Decidable (Countable arg) :=
  inferInstanceAs (Decidable ((arg.length : Int) + 2 ≤ LONG_MAX))

theorem countable_iff {arg : Bytes} : Countable arg ↔ arg.length < 2 ^ 63 - 2 := by
  rw [Countable, LONG_MAX]
  omega

/-- A bulk string that is too long: the sum overflows. -/
theorem parse_overflow (hn : 2 ^ 63 - 2 ≤ n) (m : Bytes) (k depth : Nat) :
    respParseBounded (depth + 1) (36 :: decimal n ++ crlf ++ m) ((decimal n).length + 3 + k) =
      .error .undefined := by
  have hval : strtolVal ((36 :: decimal n ++ crlf ++ m).drop 1) = min LONG_MAX n := by
    have hclamp : clampLong (n : Int) = min LONG_MAX n := by
      rw [clampLong, LONG_MIN, LONG_MAX]
      omega
    rw [strtolVal, List.append_assoc, List.cons_append, List.drop_one, List.tail_cons,
      strtol_decimal n (by rintro b hb; cases hb; rfl), Option.map_some, Option.getD_some, hclamp]
  rw [parse_line 36 m k depth (by decide) decimal_ne_cr]
  show respParseBulk _ _ _ = _
  rw [respParseBulk, hval]
  dsimp only
  rw [LONG_MAX, if_neg (by omega), if_neg (by omega), if_pos (by omega)]

theorem elements_overflow {args : List Bytes} (hs : ∀ s ∈ args, s.length < 2 ^ 63 - 2)
    (hn : 2 ^ 63 - 2 ≤ n) (hw : w = args.flatMap bulkString ++ (36 :: decimal n ++ crlf)) (u : Bytes)
    (k : Nat) {d : Nat} (hf : w.length < d) :
    respParseElements (respParseBounded d) (u ++ w) (u.length + w.length) (args.length + (k + 1))
      u.length = .error .undefined := by
  obtain ⟨depth, rfl⟩ : ∃ depth, d = depth + 1 := ⟨d - 1, by omega⟩
  induction args generalizing u w with
  | nil =>
    have hl : w.length = (decimal n).length + 3 := by simp [hw, crlf]
    have hover := parse_overflow hn [] 0 depth
    rw [List.append_nil] at hover
    rw [List.length_nil, Nat.zero_add, respParseElements, List.drop_left, Nat.add_sub_cancel_left, hl, hw,
      List.flatMap_nil, List.nil_append, hover]
    rfl
  | cons a args ih =>
    rw [List.flatMap_cons, List.append_assoc] at hw
    generalize hv : args.flatMap bulkString ++ (36 :: decimal n ++ crlf) = v at hw
    have ha := length_bulkString a
    have hl := congrArg List.length hw
    rw [List.length_append] at hl
    have hfound := parse_encode (v := bulk a) (t := v) (hs a List.mem_cons_self)
      (by rw [hw, encode]) (List.prefix_refl w) hf
    rw [encode, if_pos ⟨by omega, rfl⟩] at hfound
    have ih := ih (fun s h => hs s (List.mem_cons_of_mem _ h)) hv.symm (u ++ bulkString a) (by omega)
    rw [List.append_assoc, ← hw, List.length_append, Nat.add_assoc, ← hl] at ih
    rw [List.length_cons, Nat.add_right_comm args.length 1, respParseElements, List.drop_left,
      Nat.add_sub_cancel_left, hfound]
    show respParseElements _ _ _ _ (u.length + ((bulkString a).length - 1) + 1) = _
    rw [show u.length + ((bulkString a).length - 1) + 1 = u.length + (bulkString a).length by omega, ih]

/-- A request that is cut behind such a line. -/
theorem parse_cut {pre post : List Bytes} {a : Bytes} (hargc : (pre ++ a :: post).length < 2 ^ 31)
    (hs : ∀ s ∈ pre, s.length < 2 ^ 63 - 2) (ha : 2 ^ 63 - 2 ≤ a.length) :
    ∃ w, w <+: encodeRequest (pre ++ a :: post) ∧ w ≠ encodeRequest (pre ++ a :: post) ∧
      respParse w w.length = .error .undefined := by
  generalize hn : (pre ++ a :: post).length = argc at hargc
  have hpos : argc = pre.length + (post.length + 1) := by
    rw [← hn, List.length_append, List.length_cons]
  generalize hv : pre.flatMap bulkString ++ (36 :: decimal a.length ++ crlf) = v
  have hcut : encodeRequest (pre ++ a :: post) =
      42 :: decimal argc ++ crlf ++ v ++ (a ++ crlf ++ post.flatMap bulkString) := by
    rw [encodeRequest, hn, ← hv, List.flatMap_append, List.flatMap_cons, bulkString_append]
    simp only [List.append_assoc]
  refine ⟨42 :: decimal argc ++ crlf ++ v, ⟨_, hcut.symm⟩, fun h => ?_, ?_⟩
  · rw [hcut] at h
    have := congrArg List.length h
    rw [← List.append_assoc, List.length_append, ← List.append_assoc] at this
    simp only [List.length_append, crlf, List.length_cons] at this
    omega
  · have helts := elements_overflow hs ha hv.symm (42 :: decimal argc ++ crlf) post.length
      (d := (decimal argc).length + 3 + v.length) (by omega)
    have hhead : (42 :: decimal argc ++ crlf).length = (decimal argc).length + 3 := by simp [crlf]
    rw [hhead, ← hpos] at helts
    rw [respParse, List.length_append, hhead, parse_line 42 _ _ _ (by decide) decimal_ne_cr]
    show (if strtolVal _ = 0 then _ else _) = _
    rw [strtolVal_decimal (by omega), if_neg (by omega), Int.toNat_natCast, helts]

/-- **Requests are delimited exactly** iff the length of each argument is counted without overflow. -/
theorem delimits_iff {argv : List Bytes} (hne : argv ≠ []) (hargc : argv.length < 2 ^ 31) :
    Delimits argv ↔ ∀ arg ∈ argv, Countable arg := by
  constructor
  · intro h
    by_contra hlong
    simp only [countable_iff, not_forall, Nat.not_lt] at hlong
    obtain ⟨arg, harg, hlen⟩ := hlong
    obtain ⟨a, hfirst⟩ : ∃ a, argv.find? (fun s => decide (2 ^ 63 - 2 ≤ s.length)) = some a :=
      Option.isSome_iff_exists.mp (List.find?_isSome.mpr ⟨arg, harg, decide_eq_true hlen⟩)
    obtain ⟨ha, pre, post, rfl, hpre⟩ := List.find?_eq_some_iff_append.mp hfirst
    have ha := of_decide_eq_true ha
    have hpre : ∀ s ∈ pre, s.length < 2 ^ 63 - 2 := by
      intro s hs
      have := hpre s hs
      simpa using this
    obtain ⟨w, hw, hcut, hparse⟩ := parse_cut hargc hpre ha
    have := h.2 w w hw hcut (List.prefix_refl w)
    rw [hparse] at this
    cases this
  · intro h
    have hs : ∀ s ∈ argv, s.length < 2 ^ 63 - 2 := fun s hs => countable_iff.mp (h s hs)
    refine ⟨fun t m hm => ?_, fun w m hw hcut hm => ?_⟩
    · rw [respParse_request hne hargc hs (List.prefix_refl _) hm,
        if_pos (by rw [List.length_append]; omega)]
    · have hlt : w.length < (encodeRequest argv).length :=
        lt_of_le_of_ne hw.length_le fun h => hcut (hw.eq_of_length h)
      rw [respParse_request hne hargc hs (hw.trans (List.prefix_append _ [])) hm, if_neg (by omega)]

theorem delimits_iff_get : Delimits [bytes "GET", [13, 10, 0, 36], []] :=
  (delimits_iff (by decide) (by decide)).mpr (by decide)

/-- A first argument that is too long by one byte: nothing but its length has come. -/
theorem long_undelimited :
    [List.replicate (2 ^ 63 - 2) (0 : UInt8)].length < 2 ^ 31 ∧
      bytes "*1\r\n$9223372036854775806\r\n" <+: encodeRequest [List.replicate (2 ^ 63 - 2) 0] ∧
      respParse (bytes "*1\r\n$9223372036854775806\r\n") 26 = .error .undefined ∧
      ¬ Delimits [List.replicate (2 ^ 63 - 2) 0] := by
  generalize hrep : List.replicate (2 ^ 63 - 2) (0 : UInt8) = a
  have ha : a.length = 2 ^ 63 - 2 := by rw [← hrep, List.length_replicate]
  have hparse : respParse (bytes "*1\r\n$9223372036854775806\r\n") 26 = .error .undefined := by
    decide
  have hline : bytes "*1\r\n$9223372036854775806\r\n" =
      42 :: decimal 1 ++ crlf ++ (36 :: decimal (2 ^ 63 - 2) ++ crlf) := by decide
  have hl : (bytes "*1\r\n$9223372036854775806\r\n").length = 26 := by decide
  have hcut : bytes "*1\r\n$9223372036854775806\r\n" ++ (a ++ crlf) = encodeRequest [a] := by
    rw [hline, encodeRequest, List.flatMap_singleton, bulkString, ha]
    simp only [List.length_singleton, List.append_assoc]
  refine ⟨by rw [List.length_singleton]; decide, ⟨_, hcut⟩, hparse, fun h => ?_⟩
  have := h.2 _ _ ⟨_, hcut⟩ (fun e => ?_) (List.prefix_refl _)
  · rw [hl, hparse] at this
    cases this
  · have hnil := List.append_right_eq_self.mp (hcut.trans e.symm)
    exact absurd (List.append_eq_nil_iff.mp hnil).2 (by decide)

end Fedis.Proof.Resp

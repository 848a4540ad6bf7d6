import Fedis.Impl.Resp

/-!
# Decoding what was encoded

`resp_decode` gives back the arguments of an encoded request, whatever follows
it (`respDecode_encode`). It needs not even the request's last line end
(`respDecode_body`): the last argument is copied by its length, and what stands
behind it is not looked at.
-/

namespace Fedis.Proof.Resp

open Framework

/-- A request that a client may send: one argument or more, none with a NUL in
it, sizes that fit in an `int`. -/
structure Request (argv : List Bytes) : Prop where
  ne_nil : argv ≠ []
  argc : argv.length < 2 ^ 31
  cstr : ∀ arg ∈ argv, ∀ b ∈ arg, b ≠ 0
  len : ∀ arg ∈ argv, arg.length < 2 ^ 31

theorem afterNewline_append {s : Bytes} (hs : ∀ b ∈ s, b ≠ 0 ∧ b ≠ 10) (t : Bytes) :
    afterNewline (s ++ crlf ++ t) = some t := by
  induction s with
  | nil => rfl
  | cons b s ih =>
    have hb := hs b List.mem_cons_self
    rw [List.cons_append, List.cons_append, afterNewline, if_neg hb.1, if_neg hb.2]
    exact ih fun c hc => hs c (List.mem_cons_of_mem _ hc)

/-- A number and its line end. -/
theorem scan_line {n : Nat} (hn : n < 2 ^ 31) (t : Bytes) :
    scanInt (decimal n ++ crlf ++ t) = some (n : Int) ∧
      afterNewline (decimal n ++ crlf ++ t) = some t := by
  refine ⟨?_, afterNewline_append (fun b hb => decimal_ne hb) t⟩
  rw [List.append_assoc]
  exact scanInt_decimal hn fun b hb => by cases hb; rfl

theorem drop_crlf (t : Bytes) : (crlf ++ t).drop 2 = t := rfl

/-- One argument, then the rest of the loop behind its line end. -/
theorem respDecodeArgs_arg {arg : Bytes} (hz : ∀ b ∈ arg, b ≠ 0) (hn : arg.length < 2 ^ 31) (n : Nat)
    (t : Bytes) : respDecodeArgs (n + 1) (respEncodeArg arg ++ t) =
      match respDecodeArgs n (t.drop 2) with
      | .ok argv => .ok (arg :: argv)
      | r => r := by
  obtain ⟨h₁, h₂⟩ := scan_line hn (arg ++ t)
  have hcons : respEncodeArg arg ++ t = 36 :: (decimal arg.length ++ crlf ++ (arg ++ t)) := by
    simp only [respEncodeArg, cstr_eq_self hz, List.cons_append, List.append_assoc]
  rw [hcons, respDecodeArgs, if_neg (by decide), h₁, h₂]
  simp only [Int.toNat_natCast, List.length_append]
  have hdrop : (arg ++ t).drop (arg.length + 2) = t.drop 2 := by
    rw [← List.drop_drop, List.drop_left]
  rw [if_neg (by omega), List.take_left]
  cases hr : respDecodeArgs n (t.drop 2) <;> simp only [hdrop, hr]

theorem respDecodeArgs_encode : ∀ {argv : List Bytes}, (∀ arg ∈ argv, ∀ b ∈ arg, b ≠ 0) →
    (∀ arg ∈ argv, arg.length < 2 ^ 31) → ∀ {last : Bytes}, (∀ b ∈ last, b ≠ 0) →
    last.length < 2 ^ 31 → ∀ t : Bytes,
    respDecodeArgs (argv.length + 1)
      ((argv.flatMap fun arg => respEncodeArg arg ++ crlf) ++ (respEncodeArg last ++ t)) =
        .ok (argv ++ [last])
  | [], _, _, last, hz, hn, t => by
    rw [List.length_nil, List.flatMap_nil, List.nil_append, respDecodeArgs_arg hz hn]
    rfl
  | arg :: argv, hzs, hns, last, hz, hn, t => by
    have ih := respDecodeArgs_encode (fun a ha => hzs a (List.mem_cons_of_mem _ ha))
      (fun a ha => hns a (List.mem_cons_of_mem _ ha)) hz hn t
    rw [List.flatMap_cons, List.append_assoc, List.append_assoc, List.length_cons,
      respDecodeArgs_arg (hzs arg List.mem_cons_self) (hns arg List.mem_cons_self),
      drop_crlf, ih]
    rfl

/-- The encoding of a request without its last line end. -/
def encodeBody (argv : List Bytes) : Bytes :=
  42 :: decimal argv.length ++ crlf ++
    ((argv.dropLast.flatMap fun arg => respEncodeArg arg ++ crlf) ++
      respEncodeArg (argv.getLast?.getD []))

theorem encodeBody_append_crlf {argv : List Bytes} (h : argv ≠ []) :
    encodeBody argv ++ crlf = respEncodeArrayString argv := by
  obtain ⟨front, last, rfl⟩ := List.eq_nil_or_concat argv |>.resolve_left h
  simp [encodeBody, respEncodeArrayString]

/-- A request is decoded whatever stands in place of its last line end. -/
theorem respDecode_body {argv : List Bytes} (h : Request argv) (t : Bytes) :
    respDecode (encodeBody argv ++ t) = .ok argv := by
  obtain ⟨front, last, rfl⟩ := List.eq_nil_or_concat argv |>.resolve_left h.ne_nil
  have hargc := h.argc
  obtain ⟨h₁, h₂⟩ := scan_line hargc
    (((front.flatMap fun arg => respEncodeArg arg ++ crlf) ++ respEncodeArg last) ++ t)
  have hcons : encodeBody (front.concat last) ++ t = 42 :: (decimal (front.concat last).length ++
      crlf ++ (((front.flatMap fun arg => respEncodeArg arg ++ crlf) ++ respEncodeArg last) ++ t)) := by
    simp [encodeBody]
  rw [hcons, respDecode, if_neg (by decide), h₁, h₂]
  simp only [List.length_concat, Int.toNat_natCast]
  rw [if_neg (by omega), List.append_assoc, List.concat_eq_append]
  have hmem : ∀ arg ∈ front, arg ∈ front.concat last := fun arg ha => by simp [ha]
  exact respDecodeArgs_encode (fun arg ha => h.cstr arg (hmem arg ha))
    (fun arg ha => h.len arg (hmem arg ha)) (h.cstr last (by simp)) (h.len last (by simp)) t

/-- **Decoding inverts encoding**, whatever follows the request. -/
theorem respDecode_encode {argv : List Bytes} (h : Request argv) (t : Bytes) :
    respDecode (respEncodeArrayString argv ++ t) = .ok argv := by
  rw [← encodeBody_append_crlf h.ne_nil, List.append_assoc]
  exact respDecode_body h _

theorem line_ne_zero (n : Nat) : ∀ b ∈ decimal n ++ crlf, b ≠ 0 := by
  intro b hb
  rcases List.mem_append.mp hb with hb | hb
  · exact (decimal_ne hb).1
  · rcases List.mem_cons.mp hb with rfl | hb
    · decide
    · rw [List.mem_singleton.mp hb]
      decide

theorem encodeArg_ne_zero (arg : Bytes) : ∀ b ∈ respEncodeArg arg ++ crlf, b ≠ 0 := by
  intro b hb
  rw [respEncodeArg, List.cons_append, List.cons_append] at hb
  rcases List.mem_cons.mp hb with rfl | hb
  · decide
  · rcases List.mem_append.mp hb with hb | hb
    · rcases List.mem_append.mp hb with hb | hb
      · exact line_ne_zero _ b hb
      · exact cstr_ne_zero b hb
    · exact line_ne_zero 0 b (List.mem_append_right _ hb)

/-- An encoded request has no NUL in it. -/
theorem encode_ne_zero (argv : List Bytes) : ∀ b ∈ respEncodeArrayString argv, b ≠ 0 := by
  intro b hb
  rw [respEncodeArrayString, List.cons_append, List.cons_append] at hb
  rcases List.mem_cons.mp hb with rfl | hb
  · decide
  · rcases List.mem_append.mp hb with hb | hb
    · exact line_ne_zero _ b hb
    · obtain ⟨arg, -, ha⟩ := List.mem_flatMap.mp hb
      exact encodeArg_ne_zero arg b ha

/-- A request with an encoding that is not too long has sizes that fit in an `int`. -/
theorem request_of_fits {argv : List Bytes} (hne : argv ≠ []) (hz : ∀ arg ∈ argv, ∀ b ∈ arg, b ≠ 0)
    (hlen : (respEncodeArrayString argv).length < 2 ^ 31) : Request argv := by
  have harg : ∀ arg ∈ argv, arg.length < (respEncodeArg arg ++ crlf).length := by
    intro arg ha
    simp only [respEncodeArg, cstr_eq_self (hz arg ha), List.length_append, List.length_cons]
    omega
  have hsum : argv.length ≤ (argv.flatMap fun arg => respEncodeArg arg ++ crlf).length ∧
      ∀ arg ∈ argv, arg.length < (argv.flatMap fun arg => respEncodeArg arg ++ crlf).length := by
    clear hne hlen hz
    induction argv with
    | nil => exact ⟨Nat.zero_le _, fun arg ha => by cases ha⟩
    | cons a argv ih =>
      obtain ⟨h₁, h₂⟩ := ih fun arg ha => harg arg (List.mem_cons_of_mem _ ha)
      have ha := harg a List.mem_cons_self
      rw [List.flatMap_cons, List.length_append, List.length_cons]
      refine ⟨by omega, fun arg hm => ?_⟩
      rcases List.mem_cons.mp hm with rfl | hm
      · omega
      · have := h₂ arg hm
        omega
  have hle : (argv.flatMap fun arg => respEncodeArg arg ++ crlf).length <
      (respEncodeArrayString argv).length := by
    simp only [respEncodeArrayString, List.length_append, List.length_cons]
    omega
  refine ⟨hne, by omega, hz, fun arg ha => ?_⟩
  have := hsum.2 arg ha
  omega

end Fedis.Proof.Resp

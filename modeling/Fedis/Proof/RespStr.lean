import Fedis.Impl.RespStr
import Fedis.Proof.Parse
import Fedis.Spec.RespText

/-!
# What is shown of a text

`respStr` shows some texts that begin with no value, and others not as they should be (`Slips`):

* `plain`: the header's number stands right at its start, and fits in an `int`;
* `Elements`: what the loop over an array takes for its elements, where a header that is no number
  has the length and the width of the one before;
* `elements_cases`: this is what it shows, and nothing else;
* `sound_iff`: `respStr` shows the value that is there or nothing, except where it slips.
-/

namespace Fedis.Proof.RespStr

open Framework RespText

variable {p rest s shown : Bytes} {len l z : Int} {n n' k : Nat} {b : Bool}

/-! ## Headers -/

/-- A number that is an `int`, with no blank in front of it. -/
def plain (p : Bytes) : Bool :=
  match strtol 10 p with
  | none => false
  | some (z, _) => !p.head?.any isspace && decide (-2 ^ 31 ≤ z ∧ z < 2 ^ 31)

theorem crlf_head (rest : Bytes) : ∀ b ∈ (crlf ++ rest).head?, isDigitOf 10 b = false := by
  rintro b hb
  cases hb
  rfl

/-- What has been read. -/
theorem scanLen_some (h : scanLen p = some (l, n)) :
    ∃ z rest, strtol 10 p = some (z, rest) ∧ l = toInt32 (clampLong z) ∧ n = p.length - rest.length := by
  obtain ⟨⟨z, rest⟩, hz, he⟩ := Option.map_eq_some_iff.mp h
  obtain ⟨rfl, rfl⟩ := Prod.mk.inj he
  exact ⟨z, rest, hz, rfl, rfl⟩

theorem scanLen_pos (h : scanLen p = some (l, n)) : 1 ≤ n := by
  obtain ⟨z, rest, hz, -, rfl⟩ := scanLen_some h
  have := strtol_rest hz
  omega

/-- A header that starts with a number. -/
theorem scanLen_number {num : Bytes} (h : IsNumber num z) (rest : Bytes) :
    scanLen (num ++ crlf ++ rest) = some (toInt32 (clampLong z), num.length) ∧
      (num ++ crlf ++ rest).drop num.length = crlf ++ rest := by
  have hz := strtol_number h (crlf_head rest)
  rw [List.append_assoc, List.drop_left, scanLen, hz, Option.map_some]
  refine ⟨?_, rfl⟩
  rw [List.length_append, Nat.add_sub_cancel]

theorem plain_number {num : Bytes} (h : IsNumber num z) (h₁ : -2 ^ 31 ≤ z) (h₂ : z < 2 ^ 31)
    (rest : Bytes) : plain (num ++ crlf ++ rest) = true := by
  have hz := strtol_number h (crlf_head rest)
  obtain ⟨b, num', rfl, hb⟩ := h.head
  rw [plain, List.append_assoc, hz]
  dsimp only
  rw [List.cons_append, List.head?_cons, Option.any_some, hb, decide_eq_true ⟨h₁, h₂⟩]
  rfl

/-- A plain header is a number, and its value is what is read. -/
theorem plain_spec (hp : plain p = true) (h : scanLen p = some (l, n)) :
    ∃ num, IsNumber num l ∧ p = num ++ p.drop n := by
  obtain ⟨z, rest, hz, rfl, rfl⟩ := scanLen_some h
  obtain ⟨ws, num, hsplit, hws, hnum, -⟩ := strtol_split hz
  rw [plain, hz] at hp
  obtain ⟨hblank, hrange⟩ := Bool.and_eq_true_iff.mp hp
  obtain ⟨h₁, h₂⟩ := of_decide_eq_true hrange
  rw [toInt32_clamp h₁ h₂]
  have hnil : ws = [] := by
    cases ws with
    | nil => rfl
    | cons b ws =>
      rw [hsplit, List.append_assoc, List.cons_append, List.head?_cons, Option.any_some,
        hws b List.mem_cons_self] at hblank
      cases hblank
  rw [hnil, List.nil_append] at hsplit
  refine ⟨num, hnum, ?_⟩
  rw [hsplit, List.length_append, Nat.add_sub_cancel, List.drop_left]

/-- A plain header of an element has no use for the one before. -/
theorem plain_header (hp : plain p = true) (h : (scanLen p).getD (len, n) = (l, n')) :
    ∃ num, IsNumber num l ∧ p = num ++ p.drop n' := by
  cases hs : scanLen p with
  | none =>
    have hnone : strtol 10 p = none := Option.map_eq_none_iff.mp hs
    rw [plain, hnone] at hp
    cases hp
  | some r =>
    rw [hs] at h
    cases h
    exact plain_spec hp hs

/-- A number that comes out as -1 takes two bytes. -/
theorem scanLen_neg (h : scanLen p = some (-1, n)) : 2 ≤ n := by
  obtain ⟨z, rest, hz, hl, rfl⟩ := scanLen_some h
  obtain ⟨ws, num, rfl, -, hnum, -⟩ := strtol_split hz
  rw [List.length_append, List.length_append, Nat.add_sub_cancel]
  cases hnum with
  | plain ds hd hne =>
    obtain ⟨d, ds, rfl⟩ := List.exists_cons_of_ne_nil hne
    cases ds with
    | nil =>
      -- a single digit
      have hdigit : digitVal d < 10 := of_decide_eq_true (hd d List.mem_cons_self)
      have hval : digitsVal 10 [d] = digitVal d := by simp [digitsVal]
      rw [hval, toInt32_clamp (by omega) (by omega)] at hl
      omega
    | cons e ds =>
      rw [List.length_cons, List.length_cons]
      omega
  | plus ds hd hne =>
    have := List.length_pos_of_ne_nil hne
    rw [List.length_cons]
    omega
  | minus ds hd hne =>
    have := List.length_pos_of_ne_nil hne
    rw [List.length_cons]
    omega

/-! ## Line ends and contents -/

theorem skipCrlf_iff {q : Bytes} : skipCrlf p = some q ↔ p = crlf ++ q := by
  constructor
  · intro h
    unfold skipCrlf at h
    split at h
    · cases h
      rfl
    · cases h
  · rintro rfl
    rfl

/-- What is written of a bulk string, where the buffer is large enough. -/
theorem payload_cases (buf sep : Bytes) (len : Nat) (hfit : buf.length + p.length + sep.length ≤ 1026) :
    (∃ s rest, p = s ++ crlf ++ rest ∧ s.length = len ∧
        respStrPayload buf p len sep = .ok (some (buf ++ (s ++ sep), rest))) ∨
      ((∀ s rest, p = s ++ crlf ++ rest → s.length ≠ len) ∧ respStrPayload buf p len sep = .ok none) := by
  by_cases hlen : p.length < len + 2
  · refine .inr ⟨fun s rest hp hs => ?_, by rw [respStrPayload, if_pos hlen]⟩
    rw [hp, Resp.length_line] at hlen
    omega
  · have htake : (p.take len).length = len := by
      rw [List.length_take]
      omega
    have hemit : emit buf (p.take len ++ sep) = .ok (buf ++ (p.take len ++ sep)) := by
      rw [emit, List.length_append, htake, if_pos (by omega)]
    cases hskip : skipCrlf (p.drop len) with
    | none =>
      refine .inr ⟨fun s rest hp hs => ?_, ?_⟩
      · rw [hp, List.append_assoc, ← hs, List.drop_left, skipCrlf_iff.mpr rfl] at hskip
        cases hskip
      · rw [respStrPayload, if_neg hlen, hemit]
        dsimp only [bind, Except.bind]
        rw [hskip]
    | some rest =>
      refine .inl ⟨p.take len, rest, ?_, htake, ?_⟩
      · rw [List.append_assoc, ← skipCrlf_iff.mp hskip, List.take_append_drop]
      · rw [respStrPayload, if_neg hlen, hemit]
        dsimp only [bind, Except.bind]
        rw [hskip]

/-! ## Arrays -/

/-- What is taken for `k` elements, with `len` and `n` as they are before; whether all their headers
are plain; and what is shown of them. -/
inductive Elements : Int → Nat → Nat → Bytes → Bool → Bytes → Prop
  | nil (len : Int) (n : Nat) (p : Bytes) : Elements len n 0 p true []
  | null (len : Int) (n n' k : Nat) (p rest shown : Bytes) (b : Bool)
    (h : (scanLen p).getD (len, n) = (-1, n')) (hp : p.drop n' = crlf ++ rest)
    (he : Elements (-1) n' k rest b shown) :
    Elements len n (k + 1) (36 :: p) (plain p && b) (bytes "NULL," ++ shown)
  | string (len : Int) (n n' k : Nat) (p s rest shown : Bytes) (b : Bool)
    (h : (scanLen p).getD (len, n) = ((s.length : Int), n')) (hp : p.drop n' = crlf ++ (s ++ crlf ++ rest))
    (he : Elements s.length n' k rest b shown) :
    Elements len n (k + 1) (36 :: p) (plain p && b) (s ++ bytes "," ++ shown)

theorem crlf_inj {a a' : Bytes} (h : crlf ++ a = crlf ++ a') : a = a' := List.append_cancel_left h

theorem payload_inj {s s' rest rest' : Bytes} (hl : s.length = s'.length)
    (h : s ++ crlf ++ rest = s' ++ crlf ++ rest') : s = s' ∧ rest = rest' := by
  rw [List.append_assoc, List.append_assoc] at h
  obtain ⟨rfl, hrest⟩ := List.append_inj h hl
  exact ⟨rfl, List.append_cancel_left hrest⟩

/-- It is taken in one way. -/
theorem elements_unique {b b' : Bool} {shown shown' : Bytes} (h : Elements len n k p b shown)
    (h' : Elements len n k p b' shown') : b = b' ∧ shown = shown' := by
  induction h generalizing b' shown' with
  | nil len n p =>
    cases h'
    exact ⟨rfl, rfl⟩
  | null len n n' k p rest shown b h hp he ih =>
    cases h' with
    | null _ _ n'' _ _ rest' shown' b' h' hp' he' =>
      rw [h] at h'
      cases h'
      rw [hp] at hp'
      cases crlf_inj hp'
      obtain ⟨rfl, rfl⟩ := ih he'
      exact ⟨rfl, rfl⟩
    | string _ _ n'' _ _ s rest' shown' b' h' hp' he' =>
      rw [h] at h'
      have := (Prod.mk.inj h').1
      omega
  | string len n n' k p s rest shown b h hp he ih =>
    cases h' with
    | null _ _ n'' _ _ rest' shown' b' h' hp' he' =>
      rw [h] at h'
      have := (Prod.mk.inj h').1
      omega
    | string _ _ n'' _ _ s' rest' shown' b' h' hp' he' =>
      rw [h] at h'
      obtain ⟨hl, rfl⟩ := Prod.mk.inj h'
      rw [hp] at hp'
      obtain ⟨rfl, rfl⟩ := payload_inj (by omega) (crlf_inj hp')
      obtain ⟨rfl, rfl⟩ := ih he'
      exact ⟨rfl, rfl⟩

/-- The first element of several. -/
theorem elements_succ {q : Bytes} (h : Elements len n (k + 1) (36 :: q) b shown)
    (hhead : (scanLen q).getD (len, n) = (l, n')) :
    (l = -1 ∧ ∃ rest b' shown', q.drop n' = crlf ++ rest ∧ Elements (-1) n' k rest b' shown') ∨
      ∃ s rest b' shown', l = (s.length : Int) ∧ q.drop n' = crlf ++ (s ++ crlf ++ rest) ∧
        Elements l n' k rest b' shown' := by
  cases h with
  | null _ _ _ _ _ rest shown' b' h hp he =>
    rw [hhead] at h
    cases h
    exact .inl ⟨rfl, rest, b', shown', hp, he⟩
  | string _ _ _ _ _ s rest shown' b' h hp he =>
    rw [hhead] at h
    cases h
    exact .inr ⟨s, rest, b', shown', rfl, hp, he⟩

/-- One turn of the loop, with room in the buffer for what is left of the text. -/
theorem elements_step {q buf : Bytes} (hhead : (scanLen q).getD (len, n) = (l, n')) (hn' : 1 ≤ n')
    (hl : l = -1 → 2 ≤ n') (hfit : buf.length + (q.length + 1) + 3 ≤ 1024) :
    (∃ rest, l = -1 ∧ q.drop n' = crlf ++ rest ∧ (buf ++ bytes "NULL,").length + rest.length + 3 ≤ 1024 ∧
        respStrElements (k + 1) len n (36 :: q) buf =
          respStrElements k (-1) n' rest (buf ++ bytes "NULL,")) ∨
      (∃ s rest, l = (s.length : Int) ∧ q.drop n' = crlf ++ (s ++ crlf ++ rest) ∧
        (buf ++ (s ++ bytes ",")).length + rest.length + 3 ≤ 1024 ∧
        respStrElements (k + 1) len n (36 :: q) buf =
          respStrElements k l n' rest (buf ++ (s ++ bytes ","))) ∨
      ((∀ b shown, ¬ Elements len n (k + 1) (36 :: q) b shown) ∧
        respStrElements (k + 1) len n (36 :: q) buf = .ok none) := by
  rw [respStrElements, hhead]
  dsimp only
  rw [if_neg (by omega)]
  cases hskip : skipCrlf (q.drop n') with
  | none =>
    refine .inr (.inr ⟨fun b shown h => ?_, rfl⟩)
    rcases elements_succ h hhead with ⟨-, rest, -, -, hq, -⟩ | ⟨s, rest, -, -, -, hq, -⟩ <;>
    · rw [skipCrlf_iff.mpr hq] at hskip
      cases hskip
  | some p =>
    have hp := skipCrlf_iff.mp hskip
    have hlp : n' + 2 + p.length = q.length := by
      have := congrArg List.length hp
      simp only [List.length_drop, List.length_append, crlf, List.length_cons, List.length_nil] at this
      omega
    dsimp only
    by_cases hneg : l < -1
    · refine .inr (.inr ⟨fun b shown h => ?_, by rw [if_pos hneg]⟩)
      rcases elements_succ h hhead with ⟨hl, -⟩ | ⟨s, -, -, -, hl, -⟩ <;> omega
    rw [if_neg hneg]
    by_cases hnull : l = -1
    · have h5 : (bytes "NULL,").length = 5 := by decide
      have := hl hnull
      rw [if_pos hnull, emit, h5, if_pos (by omega)]
      refine .inl ⟨p, hnull, hp, ?_, by rw [← hnull]; rfl⟩
      rw [List.length_append, h5]
      omega
    · have h1 : (bytes ",").length = 1 := by decide
      rw [if_neg hnull]
      rcases payload_cases (p := p) buf (bytes ",") l.toNat
        (by rw [h1]; omega) with ⟨s, rest, hs, hlen, hpay⟩ | ⟨hno, hpay⟩ <;> rw [hpay]
      · have hls := congrArg List.length hs
        rw [Resp.length_line] at hls
        refine .inr (.inl ⟨s, rest, by omega, by rw [hp, hs], ?_, rfl⟩)
        rw [List.length_append, List.length_append, h1]
        omega
      · refine .inr (.inr ⟨fun b shown h => ?_, rfl⟩)
        rcases elements_succ h hhead with ⟨hl, -⟩ | ⟨s, rest, -, -, hl, hq, -⟩
        · exact hnull hl
        · rw [hp] at hq
          exact hno s rest (crlf_inj hq) (by omega)

/-- **What is shown of an array's elements** is what is taken for them. -/
theorem elements_cases (len : Int) (buf : Bytes) (hn : 1 ≤ n) (hlen : len = -1 → 2 ≤ n)
    (hfit : buf.length + p.length + 3 ≤ 1024) :
    (∃ b shown, Elements len n k p b shown ∧
        respStrElements k len n p buf = .ok (some (buf ++ shown ++ bytes "]"))) ∨
      ((∀ b shown, ¬ Elements len n k p b shown) ∧ respStrElements k len n p buf = .ok none) := by
  induction k generalizing len n p buf with
  | zero =>
    refine .inl ⟨true, [], .nil len n p, ?_⟩
    have hl : (bytes "]").length = 1 := by decide
    rw [respStrElements, emit, hl, if_pos (by omega)]
    show dupBuf _ = _
    rw [dupBuf, List.length_append, hl, if_pos (by omega), List.append_nil]
  | succ k ih =>
    by_cases hd : ∃ q, p = 36 :: q
    · obtain ⟨q, rfl⟩ := hd
      obtain ⟨⟨l, n'⟩, hhead⟩ : ∃ r, (scanLen q).getD (len, n) = r := ⟨_, rfl⟩
      have hn' : 1 ≤ n' ∧ (l = -1 → 2 ≤ n') := by
        cases hs : scanLen q with
        | none =>
          rw [hs] at hhead
          cases hhead
          exact ⟨hn, hlen⟩
        | some r =>
          rw [hs] at hhead
          cases hhead
          exact ⟨scanLen_pos hs, fun h => scanLen_neg (h ▸ hs)⟩
      rcases elements_step (k := k) hhead hn'.1 hn'.2 hfit with
        ⟨rest, rfl, hq, hfit', hrun⟩ | ⟨s, rest, rfl, hq, hfit', hrun⟩ | hno
      · rw [hrun]
        rcases ih _ _ hn'.1 hn'.2 hfit' with ⟨b, shown, he, hrun⟩ | ⟨hno, hrun⟩
        · refine .inl ⟨_, _, .null len n n' k q rest shown b hhead hq he, ?_⟩
          rw [hrun]
          simp only [List.append_assoc]
        · refine .inr ⟨fun b shown h => ?_, hrun⟩
          rcases elements_succ h hhead with ⟨-, rest', b', shown', hq', he⟩ | ⟨s, -, -, -, hl, -⟩
          · rw [hq] at hq'
            cases crlf_inj hq'
            exact hno b' shown' he
          · omega
      · rw [hrun]
        rcases ih _ _ hn'.1 hn'.2 hfit' with ⟨b, shown, he, hrun⟩ | ⟨hno, hrun⟩
        · refine .inl ⟨_, _, .string len n n' k q s rest shown b hhead hq he, ?_⟩
          rw [hrun]
          simp only [List.append_assoc]
        · refine .inr ⟨fun b shown h => ?_, hrun⟩
          rcases elements_succ h hhead with ⟨hl, -⟩ | ⟨s', rest', b', shown', hl, hq', he⟩
          · omega
          · rw [hq] at hq'
            obtain ⟨rfl, rfl⟩ := payload_inj (by omega) (crlf_inj hq')
            exact hno b' shown' he
      · exact .inr hno
    · refine .inr ⟨fun b shown h => ?_, ?_⟩
      · cases h <;> exact hd ⟨_, rfl⟩
      · rw [respStrElements]
        exact fun q hq => hd ⟨q, hq⟩

/-- Elements with plain headers are bulk strings. -/
theorem elements_plain (h : Elements len n k p b shown) (hb : b = true) :
    ∃ es rest, p = texts es ++ rest ∧ es.length = k ∧ (∀ e ∈ es, Bulk e.1 e.2) ∧ shown = showns es := by
  induction h with
  | nil len n p => exact ⟨[], p, rfl, rfl, by simp, rfl⟩
  | null len n n' k p rest shown b h hp he ih =>
    obtain ⟨hplain, hb⟩ := Bool.and_eq_true_iff.mp hb
    obtain ⟨es, rest', hrest, hl, hes, hshown⟩ := ih hb
    obtain ⟨num, hnum, hsplit⟩ := plain_header hplain h
    refine ⟨(36 :: num ++ crlf, bytes "NULL") :: es, rest', ?_, by rw [List.length_cons, hl], ?_, ?_⟩
    · rw [hsplit, hp, hrest]
      simp [texts]
    · exact List.forall_mem_cons.mpr ⟨.null num hnum, hes⟩
    · rw [hshown, showns, showns, List.flatMap_cons]
      rfl
  | string len n n' k p s rest shown b h hp he ih =>
    obtain ⟨hplain, hb⟩ := Bool.and_eq_true_iff.mp hb
    obtain ⟨es, rest', hrest, hl, hes, hshown⟩ := ih hb
    obtain ⟨num, hnum, hsplit⟩ := plain_header hplain h
    refine ⟨(36 :: num ++ crlf ++ (s ++ crlf), s) :: es, rest', ?_, by rw [List.length_cons, hl], ?_, ?_⟩
    · rw [hsplit, hp, hrest]
      simp [texts]
    · exact List.forall_mem_cons.mpr ⟨.string num s hnum, hes⟩
    · rw [hshown, showns, showns, List.flatMap_cons]

/-- Bulk strings are taken for what they are. -/
theorem elements_bulks (len : Int) {es : List (Bytes × Bytes)} (he : ∀ e ∈ es, Bulk e.1 e.2)
    (hfit : (texts es).length < 2 ^ 31) (rest : Bytes) :
    Elements len n es.length (texts es ++ rest) true (showns es) := by
  induction es generalizing len n with
  | nil => exact .nil len n rest
  | cons e es ih =>
    obtain ⟨text, shown⟩ := e
    obtain ⟨hbulk, hes⟩ := List.forall_mem_cons.mp he
    have hbulk : Bulk text shown := hbulk
    rw [texts, List.flatMap_cons, List.length_append] at hfit
    have hfit' : (texts es).length < 2 ^ 31 := by
      rw [texts]
      omega
    rw [texts, List.flatMap_cons, showns, List.flatMap_cons, List.length_cons]
    cases hbulk with
    | string num _ h =>
      have hs : shown.length < 2 ^ 31 := by
        simp only [List.length_append, List.length_cons] at hfit
        omega
      have hread := scanLen_number h (shown ++ crlf ++ (texts es ++ rest))
      have hplain := plain_number h (by omega) (by omega) (shown ++ crlf ++ (texts es ++ rest))
      rw [toInt32_clamp (by omega) (by omega)] at hread
      have := Elements.string len n num.length es.length _ shown _ _ true (by rw [hread.1]; rfl) hread.2
        (ih _ hes hfit')
      rw [hplain] at this
      simpa [texts, showns] using this
    | null num h =>
      have hread := scanLen_number h (texts es ++ rest)
      have hplain := plain_number h (by omega) (by omega) (texts es ++ rest)
      rw [toInt32_clamp (by omega) (by omega)] at hread
      have := Elements.null len n num.length es.length _ _ _ true (by rw [hread.1]; rfl) hread.2
        (ih _ hes hfit')
      rw [hplain, show bytes "NULL," = bytes "NULL" ++ bytes "," from rfl] at this
      simpa [texts, showns] using this

/-! ## The cases -/

/-- A line ends at its first carriage return. -/
theorem line_unique {line line' a a' : Bytes} (h : (13 : UInt8) ∉ line) (h' : (13 : UInt8) ∉ line')
    (he : line ++ 13 :: a = line' ++ 13 :: a') : line = line' ∧ a = a' := by
  have hl : line.length = line'.length := by
    have := Resp.idxOf_cr h a
    rw [he, Resp.idxOf_cr h' a'] at this
    exact (Option.some.inj this).symm
  obtain ⟨rfl, hrest⟩ := List.append_inj he hl
  exact ⟨rfl, (List.cons.inj hrest).2⟩

theorem line_cases (hfit : p.length < 1024) :
    (∃ line rest, p = line ++ crlf ++ rest ∧ (13 : UInt8) ∉ line ∧ line ≠ [] ∧
        respStrLine p = .ok (some line)) ∨
      ((∀ line rest, p = line ++ crlf ++ rest → (13 : UInt8) ∉ line → line = []) ∧
        respStrLine p = .ok none) := by
  by_cases hmem : (13 : UInt8) ∈ p
  · obtain ⟨line, a, rfl, hcr⟩ := List.eq_append_cons_of_mem hmem
    have hget : (line ++ 13 :: a).getD (line.length + 1) 0 = a.getD 0 0 := by
      rw [getD_append, if_neg (by omega), Nat.add_sub_cancel_left, List.getD_cons_succ]
    rw [respStrLine, Resp.idxOf_cr hcr]
    dsimp only
    rw [hget, List.take_left]
    by_cases hlf : a.getD 0 0 = 10
    · obtain ⟨rest, rfl⟩ : ∃ rest, a = 10 :: rest := by
        cases a with
        | nil => cases hlf
        | cons b rest => exact ⟨rest, by rw [show b = 10 from hlf]⟩
      rw [if_neg (not_not_intro hlf)]
      by_cases hnil : line = []
      · refine .inr ⟨fun line' rest' hp hcr' => ?_, by rw [hnil]; rfl⟩
        rw [List.append_assoc] at hp
        rw [← (line_unique hcr hcr' hp).1, hnil]
      · have hpos := List.length_pos_of_ne_nil hnil
        rw [List.length_append, List.length_cons] at hfit
        refine .inl ⟨line, rest, by simp [crlf], hcr, hnil, ?_⟩
        rw [if_neg (by omega), emit, List.length_nil, if_pos (by omega)]
        show dupBuf line = _
        rw [dupBuf, if_pos (by omega)]
    · refine .inr ⟨fun line' rest' hp hcr' => absurd ?_ hlf, by rw [if_pos hlf]⟩
      rw [List.append_assoc] at hp
      rw [(line_unique hcr hcr' hp).2]
      rfl
  · refine .inr ⟨fun line rest hp _ => absurd ?_ hmem, ?_⟩
    · rw [hp]
      simp [crlf]
    · rw [respStrLine, List.idxOf?_eq_none_iff.mpr hmem]

theorem integer_cases (h : scanLen p = some (l, n)) :
    (∃ rest, p.drop n = crlf ++ rest ∧ respStrInteger p = .ok (some (decimalInt l))) ∨
      ((∀ rest, p.drop n ≠ crlf ++ rest) ∧ respStrInteger p = .ok none) := by
  have hn := scanLen_pos h
  have hfit : (decimalInt l).length < 1024 := by
    obtain ⟨z, rest, -, rfl, -⟩ := scanLen_some h
    have hr := toInt32_range (clampLong z)
    have := Value.length_decimalInt (inLong_of_int hr.1 hr.2)
    omega
  rw [respStrInteger, h, Option.getD_some]
  dsimp only
  rw [if_neg (by omega)]
  cases hskip : skipCrlf (p.drop n) with
  | none =>
    refine .inr ⟨fun rest hp => ?_, rfl⟩
    rw [skipCrlf_iff.mpr hp] at hskip
    cases hskip
  | some rest =>
    refine .inl ⟨rest, skipCrlf_iff.mp hskip, ?_⟩
    dsimp only
    rw [dupBuf, if_pos hfit]

theorem bulk_cases (hfit : p.length < 1024) (h : scanLen p = some (l, n)) :
    (l = -1 ∧ respStrBulk p = .ok (some (bytes "NULL"))) ∨
      (∃ s rest, l = (s.length : Int) ∧ p.drop n = crlf ++ (s ++ crlf ++ rest) ∧
        respStrBulk p = .ok (some s)) ∨
      (l ≠ -1 ∧ (∀ s rest, l = (s.length : Int) → p.drop n ≠ crlf ++ (s ++ crlf ++ rest)) ∧
        respStrBulk p = .ok none) := by
  have hn := scanLen_pos h
  rw [respStrBulk, h]
  dsimp only
  rw [if_neg (by omega)]
  by_cases hneg : l < -1
  · exact .inr (.inr ⟨by omega, fun s _ hl => by omega, by rw [if_pos hneg]⟩)
  rw [if_neg hneg]
  by_cases hnull : l = -1
  · exact .inl ⟨hnull, by rw [if_pos hnull]; rfl⟩
  rw [if_neg hnull]
  cases hskip : skipCrlf (p.drop n) with
  | none =>
    refine .inr (.inr ⟨hnull, fun s rest _ hp => ?_, rfl⟩)
    rw [skipCrlf_iff.mpr hp] at hskip
    cases hskip
  | some q =>
    have hq := skipCrlf_iff.mp hskip
    have hlq := congrArg List.length hq
    simp only [List.length_drop, List.length_append, crlf, List.length_cons, List.length_nil] at hlq
    dsimp only
    rcases payload_cases (p := q) [] [] l.toNat
      (by simp only [List.length_nil]; omega) with ⟨s, rest, hs, hl, hpay⟩ | ⟨hno, hpay⟩ <;> rw [hpay]
    · have hls := congrArg List.length hs
      rw [Resp.length_line] at hls
      refine .inr (.inl ⟨s, rest, by omega, by rw [hq, hs], ?_⟩)
      rw [List.nil_append, List.append_nil]
      show dupBuf s = _
      rw [dupBuf, if_pos (by omega)]
    · refine .inr (.inr ⟨hnull, fun s rest hl hp => ?_, rfl⟩)
      rw [hq] at hp
      exact hno s rest (crlf_inj hp) (by omega)

theorem array_cases (hfit : p.length < 1024) (h : scanLen p = some (l, n)) :
    (l = -1 ∧ ∃ rest, p.drop n = crlf ++ rest ∧ respStrArray p = .ok (some (bytes "NULL"))) ∨
      (∃ (k : Nat) (rest : Bytes) (b : Bool) (shown : Bytes), l = (k : Int) ∧ p.drop n = crlf ++ rest ∧ Elements 0 n k rest b shown ∧
        respStrArray p = .ok (some (bytes "[" ++ shown ++ bytes "]"))) ∨
      ((∀ rest, p.drop n = crlf ++ rest → l ≠ -1 ∧ ∀ (k : Nat) b shown, l = (k : Int) →
          ¬ Elements 0 n k rest b shown) ∧
        respStrArray p = .ok none) := by
  have hn := scanLen_pos h
  rw [respStrArray, h, Option.getD_some]
  dsimp only
  rw [if_neg (by omega)]
  cases hskip : skipCrlf (p.drop n) with
  | none =>
    refine .inr (.inr ⟨fun rest hp => ?_, rfl⟩)
    rw [skipCrlf_iff.mpr hp] at hskip
    cases hskip
  | some q =>
    have hq := skipCrlf_iff.mp hskip
    have hlq := congrArg List.length hq
    simp only [List.length_drop, List.length_append, crlf, List.length_cons, List.length_nil] at hlq
    dsimp only
    by_cases hnull : l = -1
    · exact .inl ⟨hnull, q, hq, by rw [if_pos hnull]; rfl⟩
    rw [if_neg hnull]
    by_cases hneg : l < -1
    · exact .inr (.inr ⟨fun rest _ => ⟨hnull, fun k _ _ hl => by omega⟩, by rw [if_pos hneg]⟩)
    have hl1 : (bytes "[").length = 1 := by decide
    rw [if_neg hneg]
    rcases elements_cases (k := l.toNat) (p := q) 0 (bytes "[") hn (fun h => absurd h (by decide))
      (by rw [hl1]; omega) with ⟨b, shown, he, hrun⟩ | ⟨hno, hrun⟩
    · exact .inr (.inl ⟨l.toNat, q, b, shown, by omega, hq, he, hrun⟩)
    · refine .inr (.inr ⟨fun rest hp => ⟨hnull, fun k b shown hk he => ?_⟩, hrun⟩)
      rw [hq] at hp
      cases crlf_inj hp
      rw [hk, Int.toNat_natCast] at hno
      exact hno b shown he

/-! ## What begins a text -/

theorem begins_line {c : UInt8} (hc : c = 43 ∨ c = 45) (h : Begins (c :: p) shown) :
    (10 : UInt8) ∉ shown := by
  generalize ht : c :: p = text at h
  cases h with
  | line _ _ _ _ _ hlf => exact hlf
  | int => rcases hc with rfl | rfl <;> cases ht
  | bulk text shown rest h => cases h <;> rcases hc with rfl | rfl <;> cases ht
  | nullArray => rcases hc with rfl | rfl <;> cases ht
  | array => rcases hc with rfl | rfl <;> cases ht

theorem begins_int (h : Begins (58 :: p) shown) :
    ∃ num z rest, p = num ++ crlf ++ rest ∧ IsNumber num z ∧ shown = decimalInt z := by
  generalize ht : 58 :: p = text at h
  cases h with
  | int num z rest h => exact ⟨num, z, rest, (List.cons.inj ht).2, h, rfl⟩
  | line b _ _ hb => rcases hb with rfl | rfl <;> cases ht
  | bulk text shown rest h => cases h <;> cases ht
  | nullArray => cases ht
  | array => cases ht

theorem begins_bulk (h : Begins (36 :: p) shown) :
    ∃ num rest, (IsNumber num (-1) ∧ p = num ++ crlf ++ rest) ∨
      (IsNumber num shown.length ∧ p = num ++ crlf ++ (shown ++ crlf ++ rest)) := by
  generalize ht : 36 :: p = text at h
  cases h with
  | bulk text shown rest h =>
    cases h with
    | string num _ h =>
      refine ⟨num, rest, .inr ⟨h, ?_⟩⟩
      rw [(List.cons.inj ht).2]
      simp
    | null num h => exact ⟨num, rest, .inl ⟨h, (List.cons.inj ht).2⟩⟩
  | line b _ _ hb => rcases hb with rfl | rfl <;> cases ht
  | int => cases ht
  | nullArray => cases ht
  | array => cases ht

theorem begins_array (h : Begins (42 :: p) shown) :
    ∃ num rest, (IsNumber num (-1) ∧ p = num ++ crlf ++ rest) ∨
      ∃ es : List (Bytes × Bytes), IsNumber num es.length ∧ (∀ e ∈ es, Bulk e.1 e.2) ∧
        p = num ++ crlf ++ (texts es ++ rest) := by
  generalize ht : 42 :: p = text at h
  cases h with
  | nullArray num rest h => exact ⟨num, rest, .inl ⟨h, (List.cons.inj ht).2⟩⟩
  | array num es rest h he => exact ⟨num, rest, .inr ⟨es, h, he, (List.cons.inj ht).2⟩⟩
  | line b _ _ hb => rcases hb with rfl | rfl <;> cases ht
  | int => cases ht
  | bulk text shown rest h => cases h <;> cases ht

/-- The value at the start of a text is shown, or nothing is. -/
def Sound (s : Bytes) : Prop :=
  respStr s = .ok none ∨ ∃ shown, Begins s shown ∧ respStr s = .ok (some shown)

/-- The texts that are not treated so. -/
inductive Slips : Bytes → Prop
  /-- a simple string or an error with a line feed in it -/
  | line (c : UInt8) (line rest : Bytes) (hc : c = 43 ∨ c = 45) (hcr : (13 : UInt8) ∉ line)
    (hlf : (10 : UInt8) ∈ line) : Slips (c :: line ++ crlf ++ rest)
  /-- an integer behind blanks, or out of range -/
  | integer (p rest : Bytes) (l : Int) (n : Nat) (h : scanLen p = some (l, n))
    (hp : p.drop n = crlf ++ rest) (hbad : plain p = false) : Slips (58 :: p)
  /-- a bulk string with no number -/
  | unset (p : Bytes) (h : scanLen p = none) : Slips (36 :: p)
  /-- a null bulk string, or what is taken for one -/
  | null (p : Bytes) (n : Nat) (h : scanLen p = some (-1, n))
    (hbad : plain p = false ∨ ∀ rest, p.drop n ≠ crlf ++ rest) : Slips (36 :: p)
  /-- a bulk string whose length is behind blanks, or out of range -/
  | string (p s rest : Bytes) (n : Nat) (h : scanLen p = some ((s.length : Int), n))
    (hp : p.drop n = crlf ++ (s ++ crlf ++ rest)) (hbad : plain p = false) : Slips (36 :: p)
  /-- what is taken for a null array -/
  | nullArray (p rest : Bytes) (n : Nat) (h : scanLen p = some (-1, n)) (hp : p.drop n = crlf ++ rest)
    (hbad : plain p = false) : Slips (42 :: p)
  /-- an array with a header like these -/
  | array (p rest shown : Bytes) (n k : Nat) (b : Bool) (h : scanLen p = some ((k : Int), n))
    (hp : p.drop n = crlf ++ rest) (he : Elements 0 n k rest b shown)
    (hbad : (plain p && b) = false) : Slips (42 :: p)

theorem sound_line {c : UInt8} (hc : c = 43 ∨ c = 45) (hfit : (c :: p).length ≤ 1024) :
    Sound (c :: p) ↔ ¬ Slips (c :: p) := by
  have hrun : respStr (c :: p) = respStrLine p := by
    rcases hc with rfl | rfl <;> exact if_neg (Nat.not_lt.mpr hfit)
  rw [List.length_cons] at hfit
  rw [Sound, hrun]
  constructor
  · intro hs hslip
    generalize ht : c :: p = text at hslip
    cases hslip with
    | line c line rest _ hcr hlf =>
      obtain ⟨rfl, rfl⟩ := List.cons.inj ht
      have hne : line ≠ [] := List.ne_nil_of_mem hlf
      rcases line_cases hfit with ⟨line', rest', hp, hcr', -, hrun⟩ | ⟨hno, -⟩
      · rw [hrun] at hs
        obtain ⟨shown, hb, hs⟩ := hs.resolve_left (by simp)
        cases hs
        have hp : line ++ crlf ++ rest = line' ++ crlf ++ rest' := hp
        rw [List.append_assoc, List.append_assoc] at hp
        rw [← (line_unique hcr hcr' hp).1] at hb
        exact begins_line hc hb hlf
      · exact hne (hno line rest rfl hcr)
    | _ => rcases hc with rfl | rfl <;> cases ht
  · intro hno
    rcases line_cases hfit with ⟨line, rest, rfl, hcr, -, hrun⟩ | ⟨-, hrun⟩
    · have hlf : (10 : UInt8) ∉ line := fun hlf => hno (.line c line rest hc hcr hlf)
      exact .inr ⟨line, .line c line rest hc hcr hlf, hrun⟩
    · exact .inl hrun

theorem sound_integer (hfit : (58 :: p).length ≤ 1024) : Sound (58 :: p) ↔ ¬ Slips (58 :: p) := by
  have hrun : respStr (58 :: p) = respStrInteger p := if_neg (Nat.not_lt.mpr hfit)
  rw [Sound, hrun]
  constructor
  · intro hs hslip
    generalize ht : 58 :: p = text at hslip
    cases hslip with
    | integer q rest l n h hp hbad =>
      obtain rfl := (List.cons.inj ht).2
      rcases integer_cases h with ⟨-, -, hrun⟩ | ⟨hno, -⟩
      · rw [hrun] at hs
        obtain ⟨shown, hb, hs⟩ := hs.resolve_left (by simp)
        cases hs
        obtain ⟨num, z, rest', rfl, hnum, hz⟩ := begins_int hb
        have hread := (scanLen_number hnum rest').1
        rw [hread] at h
        cases h
        have hr := toInt32_range (clampLong z)
        rw [Value.decimalInt_inj hz] at hr
        rw [plain_number hnum hr.1 hr.2] at hbad
        cases hbad
      · exact hno rest hp
    | line _ _ _ hc => rcases hc with rfl | rfl <;> cases ht
    | _ => cases ht
  · intro hno
    cases hscan : scanLen p with
    | none =>
      left
      rw [respStrInteger, hscan]
      rfl
    | some r =>
      obtain ⟨l, n⟩ := r
      rcases integer_cases hscan with ⟨rest, hp, hrun⟩ | ⟨-, hrun⟩
      · have hplain : plain p = true := by
          by_contra hbad
          exact hno (.integer p rest l n hscan hp (Bool.not_eq_true _ ▸ hbad))
        obtain ⟨num, hnum, hsplit⟩ := plain_spec hplain hscan
        rw [hp, ← List.append_assoc] at hsplit
        refine .inr ⟨decimalInt l, ?_, hrun⟩
        rw [hsplit]
        exact .int num l rest hnum
      · exact .inl hrun

/-- A header at the start of a value that is there is plain, and read as it is. -/
theorem header_plain {num : Bytes} (hnum : IsNumber num z) (h₁ : -2 ^ 31 ≤ z) (h₂ : z < 2 ^ 31)
    (hp : p = num ++ crlf ++ rest) (h : scanLen p = some (l, n)) :
    plain p = true ∧ l = z ∧ p.drop n = crlf ++ rest := by
  obtain ⟨hread, hdrop⟩ := scanLen_number hnum rest
  rw [← hp, h, toInt32_clamp h₁ h₂] at hread
  cases hread
  rw [hp]
  exact ⟨plain_number hnum h₁ h₂ rest, rfl, hdrop⟩

/-- The header of a bulk string that the text begins with. -/
theorem begins_bulk_scan (hfit : p.length < 1024) (hb : Begins (36 :: p) shown)
    (h : scanLen p = some (l, n)) :
    plain p = true ∧ ((l = -1 ∧ ∃ rest, p.drop n = crlf ++ rest) ∨ l = shown.length) := by
  obtain ⟨num, rest, ⟨hnum, hp⟩ | ⟨hnum, hp⟩⟩ := begins_bulk hb
  · obtain ⟨hplain, hl, hdrop⟩ := header_plain hnum (by omega) (by omega) hp h
    exact ⟨hplain, .inl ⟨hl, rest, hdrop⟩⟩
  · have hlen := congrArg List.length hp
    rw [Resp.length_line, Resp.length_line] at hlen
    obtain ⟨hplain, hl, -⟩ := header_plain hnum (by omega) (by omega) hp h
    exact ⟨hplain, .inr hl⟩

theorem sound_bulk (hfit : (36 :: p).length ≤ 1024) : Sound (36 :: p) ↔ ¬ Slips (36 :: p) := by
  have hrun : respStr (36 :: p) = respStrBulk p := if_neg (Nat.not_lt.mpr hfit)
  rw [List.length_cons] at hfit
  rw [Sound, hrun]
  constructor
  · intro hs hslip
    generalize ht : 36 :: p = text at hslip
    cases hslip with
    | unset q h =>
      obtain rfl := (List.cons.inj ht).2
      rw [respStrBulk, h] at hs
      rcases hs with hs | ⟨shown, -, hs⟩ <;> cases hs
    | null q n h hbad =>
      obtain rfl := (List.cons.inj ht).2
      rcases bulk_cases hfit h with ⟨-, hrun⟩ | ⟨s, rest, hl, -⟩ | ⟨hl, -⟩
      · rw [hrun] at hs
        obtain ⟨shown, hb, -⟩ := hs.resolve_left (by simp)
        obtain ⟨hplain, ⟨-, rest, hdrop⟩ | hl⟩ := begins_bulk_scan hfit hb h
        · rcases hbad with hbad | hbad
          · exact absurd hplain (by rw [hbad]; decide)
          · exact hbad rest hdrop
        · omega
      · omega
      · exact hl rfl
    | string q s rest n h hp hbad =>
      obtain rfl := (List.cons.inj ht).2
      rcases bulk_cases hfit h with ⟨hl, -⟩ | ⟨s', rest', -, -, hrun⟩ | ⟨-, hno, -⟩
      · omega
      · rw [hrun] at hs
        obtain ⟨shown, hb, -⟩ := hs.resolve_left (by simp)
        exact absurd (begins_bulk_scan hfit hb h).1 (by rw [hbad]; decide)
      · exact hno s rest rfl hp
    | line _ _ _ hc => rcases hc with rfl | rfl <;> cases ht
    | _ => cases ht
  · intro hno
    cases hscan : scanLen p with
    | none => exact absurd (.unset p hscan) hno
    | some r =>
      obtain ⟨l, n⟩ := r
      rcases bulk_cases hfit hscan with ⟨rfl, hrun⟩ | ⟨s, rest, rfl, hp, hrun⟩ | ⟨-, -, hrun⟩
      · have hplain : plain p = true := by
          by_contra hbad
          exact hno (.null p n hscan (.inl (Bool.not_eq_true _ ▸ hbad)))
        obtain ⟨rest, hp⟩ : ∃ rest, p.drop n = crlf ++ rest := by
          by_contra hbad
          exact hno (.null p n hscan (.inr (not_exists.mp hbad)))
        obtain ⟨num, hnum, hsplit⟩ := plain_spec hplain hscan
        rw [hp] at hsplit
        refine .inr ⟨bytes "NULL", ?_, hrun⟩
        have := Begins.bulk _ _ rest (.null num hnum)
        rwa [List.cons_append, List.cons_append, List.append_assoc, ← hsplit] at this
      · have hplain : plain p = true := by
          by_contra hbad
          exact hno (.string p s rest n hscan hp (Bool.not_eq_true _ ▸ hbad))
        obtain ⟨num, hnum, hsplit⟩ := plain_spec hplain hscan
        rw [hp] at hsplit
        refine .inr ⟨s, ?_, hrun⟩
        have := Begins.bulk _ _ rest (.string num s hnum)
        rwa [List.cons_append, List.cons_append, List.cons_append, List.append_assoc, List.append_assoc,
          ← hsplit] at this
      · exact .inl hrun

theorem length_texts {es : List (Bytes × Bytes)} (he : ∀ e ∈ es, Bulk e.1 e.2) :
    es.length ≤ (texts es).length := by
  induction es with
  | nil => exact Nat.le_refl _
  | cons e es ih =>
    obtain ⟨hbulk, hes⟩ := List.forall_mem_cons.mp he
    have hpos : 1 ≤ e.1.length := by
      obtain ⟨text, shown⟩ := e
      have hbulk : Bulk text shown := hbulk
      cases hbulk <;> simp
    have := ih hes
    rw [texts, List.flatMap_cons, List.length_append, List.length_cons, ← texts]
    omega

/-- The header of an array that the text begins with. -/
theorem begins_array_scan (hfit : p.length < 1024) (hb : Begins (42 :: p) shown)
    (h : scanLen p = some (l, n)) :
    plain p = true ∧ (l = -1 ∨ ∃ es rest, l = es.length ∧ (∀ e ∈ es, Bulk e.1 e.2) ∧
      (texts es).length < p.length ∧ p.drop n = crlf ++ (texts es ++ rest)) := by
  obtain ⟨num, rest, ⟨hnum, hp⟩ | ⟨es, hnum, hes, hp⟩⟩ := begins_array hb
  · obtain ⟨hplain, hl, -⟩ := header_plain hnum (by omega) (by omega) hp h
    exact ⟨hplain, .inl hl⟩
  · have hlen := congrArg List.length hp
    have hle := length_texts hes
    rw [Resp.length_line, List.length_append] at hlen
    obtain ⟨hplain, hl, hdrop⟩ := header_plain hnum (by omega) (by omega) hp h
    exact ⟨hplain, .inr ⟨es, rest, hl, hes, by omega, hdrop⟩⟩

theorem sound_array (hfit : (42 :: p).length ≤ 1024) : Sound (42 :: p) ↔ ¬ Slips (42 :: p) := by
  have hrun : respStr (42 :: p) = respStrArray p := if_neg (Nat.not_lt.mpr hfit)
  rw [List.length_cons] at hfit
  rw [Sound, hrun]
  constructor
  · intro hs hslip
    generalize ht : 42 :: p = text at hslip
    cases hslip with
    | nullArray q rest n h hp hbad =>
      obtain rfl := (List.cons.inj ht).2
      rcases array_cases hfit h with ⟨-, -, -, hrun⟩ | ⟨k, -, -, -, hl, -⟩ | ⟨hno, -⟩
      · rw [hrun] at hs
        obtain ⟨shown, hb, -⟩ := hs.resolve_left (by simp)
        exact absurd (begins_array_scan hfit hb h).1 (by rw [hbad]; decide)
      · omega
      · exact (hno rest hp).1 rfl
    | array q rest shown n k b h hp he hbad =>
      obtain rfl := (List.cons.inj ht).2
      rcases array_cases hfit h with ⟨hl, -⟩ | ⟨k', rest', b', shown', hk, hp', he', hrun⟩ | ⟨hno, -⟩
      · omega
      · rw [hrun] at hs
        obtain ⟨shown, hb, -⟩ := hs.resolve_left (by simp)
        obtain ⟨hplain, hl | ⟨es, rest, hl, hes, hle, hdrop⟩⟩ := begins_array_scan hfit hb h
        · omega
        · rw [hp] at hdrop
          cases crlf_inj hdrop
          have hbulks := elements_bulks (n := n) 0 hes (by omega) rest
          obtain rfl : k = es.length := by omega
          rw [hplain, (elements_unique he hbulks).1] at hbad
          cases hbad
      · exact (hno rest hp).2 k b shown rfl he
    | line _ _ _ hc => rcases hc with rfl | rfl <;> cases ht
    | _ => cases ht
  · intro hno
    cases hscan : scanLen p with
    | none =>
      left
      rw [respStrArray, hscan]
      rfl
    | some r =>
      obtain ⟨l, n⟩ := r
      rcases array_cases hfit hscan with ⟨rfl, rest, hp, hrun⟩ | ⟨k, rest, b, shown, rfl, hp, he, hrun⟩ |
        ⟨-, hrun⟩
      · have hplain : plain p = true := by
          by_contra hbad
          exact hno (.nullArray p rest n hscan hp (Bool.not_eq_true _ ▸ hbad))
        obtain ⟨num, hnum, hsplit⟩ := plain_spec hplain hscan
        rw [hp, ← List.append_assoc] at hsplit
        refine .inr ⟨bytes "NULL", ?_, hrun⟩
        rw [hsplit]
        exact .nullArray num rest hnum
      · have hplain : (plain p && b) = true := by
          by_contra hbad
          exact hno (.array p rest shown n k b hscan hp he (Bool.not_eq_true _ ▸ hbad))
        obtain ⟨hplain, hb⟩ := Bool.and_eq_true_iff.mp hplain
        obtain ⟨num, hnum, hsplit⟩ := plain_spec hplain hscan
        obtain ⟨es, rest', rfl, rfl, hes, rfl⟩ := elements_plain he hb
        rw [hp, ← List.append_assoc] at hsplit
        refine .inr ⟨_, ?_, hrun⟩
        rw [hsplit]
        exact .array num es rest' hnum hes
      · exact .inl hrun

theorem respStr_other {c : UInt8} (h : c ≠ 36 ∧ c ≠ 42 ∧ c ≠ 58 ∧ c ≠ 43 ∧ c ≠ 45) (p : Bytes) :
    respStr (c :: p) = .ok none := by
  obtain ⟨h₁, h₂, h₃, h₄, h₅⟩ := h
  rw [respStr]
  · exact ite_self _
  · exact fun q hq => h₁ (List.cons.inj hq).1
  · exact fun q hq => h₂ (List.cons.inj hq).1
  · exact fun q hq => h₃ (List.cons.inj hq).1
  · exact fun q hq => h₄ (List.cons.inj hq).1
  · exact fun q hq => h₅ (List.cons.inj hq).1

theorem slips_head {c : UInt8} (h : Slips (c :: p)) : c = 36 ∨ c = 42 ∨ c = 58 ∨ c = 43 ∨ c = 45 := by
  generalize ht : c :: p = text at h
  cases h with
  | line _ _ _ hc =>
    rw [(List.cons.inj ht).1]
    tauto
  | _ =>
    rw [(List.cons.inj ht).1]
    tauto

/-- **What is shown is the value at the start of the text**, or nothing, for all texts that fit but
these. -/
theorem sound_iff (hfit : s.length ≤ 1024) : Sound s ↔ ¬ Slips s := by
  cases s with
  | nil => exact iff_of_true (.inl rfl) (by rintro ⟨⟩)
  | cons c p =>
    by_cases h₁ : c = 36
    · exact h₁ ▸ sound_bulk (h₁ ▸ hfit)
    by_cases h₂ : c = 42
    · exact h₂ ▸ sound_array (h₂ ▸ hfit)
    by_cases h₃ : c = 58
    · exact h₃ ▸ sound_integer (h₃ ▸ hfit)
    by_cases h₄ : c = 43 ∨ c = 45
    · exact sound_line h₄ hfit
    have h₄ := not_or.mp h₄
    refine iff_of_true (.inl (respStr_other ⟨h₁, h₂, h₃, h₄.1, h₄.2⟩ p)) fun h => ?_
    have := slips_head h
    tauto

theorem sound_iff_null : ¬ Slips (bytes "$-1\r\n+") := by
  have hnum : IsNumber (bytes "-1") (-1) := .minus [49] (List.forall_mem_singleton.mpr (by decide)) (by decide)
  have hbegins : Begins (bytes "$-1\r\n+") (bytes "NULL") := .bulk _ _ (bytes "+") (.null _ hnum)
  exact (sound_iff (by decide)).mp (.inr ⟨bytes "NULL", hbegins, by decide⟩)

/-- A header that is no number, lengths without their line end and out of range, and a number on
another line. -/
theorem slipped :
    respStr (bytes "*1\r\n$a\r\n\r\n") = .ok (some (bytes "[,]")) ∧
      respStr (bytes "$a\r\n") = .error .undefined ∧
      respStr (bytes "$-1") = .ok (some (bytes "NULL")) ∧
      respStr (bytes "$4294967299\r\nabc\r\n") = .ok (some (bytes "abc")) ∧
      respStr (bytes ":\r\n5\r\n") = .ok (some (bytes "5")) ∧
      ∀ s ∈ [bytes "*1\r\n$a\r\n\r\n", bytes "$a\r\n", bytes "$-1",
        bytes "$4294967299\r\nabc\r\n", bytes ":\r\n5\r\n"], ¬ Sound s := by
  refine ⟨by decide, by decide, by decide, by decide, by decide,
    ?_⟩
  simp only [List.forall_mem_cons]
  refine ⟨fun h => ?_, fun h => ?_, fun h => ?_, fun h => ?_, fun h => ?_, by simp⟩
  · have he : Elements 0 1 1 (bytes "$a\r\n\r\n") false (bytes ",") :=
      .string 0 1 1 0 (bytes "a\r\n\r\n") [] [] [] true (by decide) (by decide)
        (.nil 0 1 [])
    exact (sound_array (by decide)).mp h (.array _ _ _ 1 1 false (by decide) (by decide) he
      (by decide))
  · exact (sound_bulk (by decide)).mp h (.unset _ (by decide))
  · exact (sound_bulk (by decide)).mp h (.null _ 2 (by decide) (.inr fun rest hp => by cases hp))
  · exact (sound_bulk (by decide)).mp h (.string _ (bytes "abc") [] 10 (by decide)
      (by decide) (by decide))
  · exact (sound_integer (by decide)).mp h (.integer _ [] 5 3 (by decide) (by decide)
      (by decide))

end Fedis.Proof.RespStr

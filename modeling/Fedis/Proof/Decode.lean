import Fedis.Proof.Resp

/-!
# What `resp_decode` accepts

It runs on a C string: the bytes `s`, none of them a NUL, and a NUL.

* `Complete`: the string starts with an array of one bulk string or more;
* `Rejects`: a byte that the decoder looks at for a `*` or a `$` is another one;
* `respDecode_complete`, `respDecode_err`: it takes the first kind of strings and
  refuses the second kind;
* `decode_ok`: on every other string it reads past the NUL, reads a number that
  was never set, or returns 0 with something that is no array of bulk strings.
-/

namespace Fedis.Proof.Resp

open Framework

variable {argv : List Bytes} {ds p p' s : Bytes} {n : Nat}

/-- A count or a length, which the program keeps in an `int`. -/
structure Numeral (ds : Bytes) (n : Nat) : Prop where
  digits : ∀ b ∈ ds, isDigitOf 10 b = true
  ne_nil : ds ≠ []
  val : digitsVal 10 ds = n
  fits : n < 2 ^ 31

/-- The string starts with these bulk strings. -/
inductive BulkStrings : List Bytes → Bytes → Prop
  | nil (s : Bytes) : BulkStrings [] s
  | cons (a : Bytes) (argv : List Bytes) (ds s : Bytes) (hd : Numeral ds a.length)
      (h : BulkStrings argv s) : BulkStrings (a :: argv) (36 :: ds ++ crlf ++ (a ++ crlf ++ s))

/-- The string starts with an array of these bulk strings, and there is one at least. -/
def Complete (argv : List Bytes) (s : Bytes) : Prop :=
  argv ≠ [] ∧ ∃ ds s', s = 42 :: ds ++ crlf ++ s' ∧ Numeral ds argv.length ∧ BulkStrings argv s'

/-- Where one of the next `n` bulk strings should start stands something else. -/
inductive Refuses : Nat → Bytes → Prop
  | here (n : Nat) (s : Bytes) (h : s.head? ≠ some 36) : Refuses (n + 1) s
  | skip (n : Nat) (p p' : Bytes) (len : Int) (hlen : scanInt p = some len) (h0 : 0 ≤ len)
      (hp : afterNewline p = some p') (hle : len.toNat + 2 ≤ p'.length)
      (h : Refuses n (p'.drop (len.toNat + 2))) : Refuses (n + 1) (36 :: p)

/-- The string does not start as an array, or `Refuses`. -/
inductive Rejects : Bytes → Prop
  | array (s : Bytes) (h : s.head? ≠ some 42) : Rejects s
  | element (p p' : Bytes) (argc : Int) (hargc : scanInt p = some argc) (h0 : 0 < argc)
      (hp : afterNewline p = some p') (h : Refuses argc.toNat p') : Rejects (42 :: p)

/-- What is asked of `resp_decode`: it returns, with 0 and the arguments of a
complete request, or with -1 where there is none. -/
def Decodes (s : Bytes) : Prop :=
  match respDecode (s ++ [0]) with
  | .ok argv => Complete argv s
  | .err => ∀ argv, ¬ Complete argv s
  | .undef => False

/-! ## Lines -/

theorem numeral_line (hd : Numeral ds n) (t : Bytes) :
    scanInt (ds ++ crlf ++ t) = some (n : Int) ∧ afterNewline (ds ++ crlf ++ t) = some t := by
  refine ⟨?_, afterNewline_append (fun b hb => (isDigitOf_ten (hd.digits b hb)).2.2.2) t⟩
  rw [List.append_assoc, scanInt_digits hd.digits hd.ne_nil (by rw [hd.val]; exact hd.fits)
    fun b hb => by cases hb; rfl, hd.val]

theorem afterNewline_append_zero (hs : ∀ b ∈ s, b ≠ 0) :
    afterNewline (s ++ [0]) = (afterNewline s).map (· ++ [0]) := by
  induction s with
  | nil => rfl
  | cons b s ih =>
    have hb := hs b List.mem_cons_self
    rw [List.cons_append, afterNewline, afterNewline, if_neg hb, if_neg hb]
    split
    · rfl
    · exact ih fun c hc => hs c (List.mem_cons_of_mem _ hc)

/-- What follows a line is part of the string. -/
theorem afterNewline_mem (h : afterNewline p = some p') : ∀ b ∈ p', b ∈ p := by
  induction p with
  | nil => cases h
  | cons c p ih =>
    rw [afterNewline] at h
    split at h
    · cases h
    · split at h
      · cases h
        exact fun b hb => List.mem_cons_of_mem _ hb
      · exact fun b hb => List.mem_cons_of_mem _ (ih h b hb)

/-! ## Complete requests -/

theorem respDecodeArgs_bulkStrings (h : BulkStrings argv s) (t : Bytes) :
    respDecodeArgs argv.length (s ++ t) = .ok argv := by
  induction h with
  | nil => rfl
  | cons a argv ds s hd h ih =>
    obtain ⟨h₁, h₂⟩ := numeral_line hd (a ++ crlf ++ s ++ t)
    have hcons : 36 :: ds ++ crlf ++ (a ++ crlf ++ s) ++ t =
        36 :: (ds ++ crlf ++ (a ++ crlf ++ s ++ t)) := by simp
    rw [hcons, List.length_cons, respDecodeArgs, if_neg (by decide), h₁, h₂]
    simp only [Int.toNat_natCast, List.length_append]
    rw [if_neg (by omega), List.append_assoc, List.append_assoc, List.take_left, ← List.drop_drop,
      List.drop_left, drop_crlf, ih]

/-- A complete request is taken, whatever follows it. -/
theorem respDecode_complete (h : Complete argv s) (t : Bytes) : respDecode (s ++ t) = .ok argv := by
  obtain ⟨hne, ds, s', rfl, hd, hb⟩ := h
  obtain ⟨h₁, h₂⟩ := numeral_line hd (s' ++ t)
  have hcons : 42 :: ds ++ crlf ++ s' ++ t = 42 :: (ds ++ crlf ++ (s' ++ t)) := by simp
  have hpos := List.length_pos_of_ne_nil hne
  rw [hcons, respDecode, if_neg (by decide), h₁, h₂]
  simp only [Int.toNat_natCast]
  rw [if_neg (by omega)]
  exact respDecodeArgs_bulkStrings hb t

/-! ## Refused strings -/

theorem respDecodeArgs_refuses (h : Refuses n s) (hs : ∀ b ∈ s, b ≠ 0) :
    respDecodeArgs n (s ++ [0]) = .err := by
  induction h with
  | here n s h =>
    cases s with
    | nil => rfl
    | cons c p =>
      rw [List.cons_append, respDecodeArgs, if_pos (by simpa using h)]
  | skip n p p' len hlen h0 hp' hle h ih =>
    have hp : ∀ b ∈ p, b ≠ 0 := fun b hb => hs b (List.mem_cons_of_mem _ hb)
    have ih := ih fun b hb => hp b (afterNewline_mem hp' b (List.mem_of_mem_drop hb))
    rw [List.cons_append, respDecodeArgs, if_neg (by decide), scanInt_append_zero,
      afterNewline_append_zero hp, hlen, hp']
    simp only [Option.map_some, List.length_append, List.length_singleton]
    rw [if_neg (by omega), List.drop_append_of_le_length hle, ih]

theorem respDecodeArgs_nil : respDecodeArgs n [] ≠ .err := by
  cases n <;> nofun

theorem refuses_of_err (hs : ∀ b ∈ s, b ≠ 0) (h : respDecodeArgs n (s ++ [0]) = .err) :
    Refuses n s := by
  induction n generalizing s with
  | zero => cases h
  | succ n ih =>
    by_cases hc : s.head? = some 36
    · obtain ⟨p, rfl⟩ : ∃ p, s = 36 :: p := ⟨s.tail, List.eq_cons_of_mem_head? hc⟩
      have hp : ∀ b ∈ p, b ≠ 0 := fun b hb => hs b (List.mem_cons_of_mem _ hb)
      rw [List.cons_append, respDecodeArgs, if_neg (by decide), scanInt_append_zero,
        afterNewline_append_zero hp] at h
      split at h
      · rename_i len m hlen hm
        obtain ⟨p', hp', rfl⟩ := Option.map_eq_some_iff.mp hm
        split at h
        · cases h
        · rename_i hfit
          have herr : respDecodeArgs n ((p' ++ [0]).drop (len.toNat + 2)) = .err := by
            split at h
            · cases h
            · exact h
          -- the next byte that is looked at is not behind the NUL
          have hle : len.toNat + 2 ≤ p'.length := by
            by_contra hlt
            have hlen' : (p' ++ [0]).length ≤ len.toNat + 2 := by
              rw [List.length_append, List.length_singleton]
              omega
            rw [List.drop_eq_nil_of_le hlen'] at herr
            exact respDecodeArgs_nil herr
          rw [List.drop_append_of_le_length hle] at herr
          exact .skip n p p' len hlen (by omega) hp' hle <|
            ih (fun b hb => hp b (afterNewline_mem hp' b (List.mem_of_mem_drop hb))) herr
      · cases h
    · exact .here n s hc

/-- The decoder returns -1 on the strings that it rejects, and on no others. -/
theorem respDecode_err (hs : ∀ b ∈ s, b ≠ 0) : respDecode (s ++ [0]) = .err ↔ Rejects s := by
  constructor
  · intro h
    by_cases hc : s.head? = some 42
    · obtain ⟨p, rfl⟩ : ∃ p, s = 42 :: p := ⟨s.tail, List.eq_cons_of_mem_head? hc⟩
      have hp : ∀ b ∈ p, b ≠ 0 := fun b hb => hs b (List.mem_cons_of_mem _ hb)
      rw [List.cons_append, respDecode, if_neg (by decide), scanInt_append_zero,
        afterNewline_append_zero hp] at h
      split at h
      · cases h
      · rename_i argc hargc
        split at h
        · cases h
        · rename_i hpos
          split at h
          · cases h
          · rename_i m hm
            obtain ⟨p', hp', rfl⟩ := Option.map_eq_some_iff.mp hm
            exact .element p p' argc hargc (by omega) hp' <|
              refuses_of_err (fun b hb => hp b (afterNewline_mem hp' b hb)) h
    · exact .array s hc
  · intro h
    cases h with
    | array s h =>
      cases s with
      | nil => rfl
      | cons c p => rw [List.cons_append, respDecode, if_pos (by simpa using h)]
    | element p p' argc hargc h0 hp' h =>
      have hp : ∀ b ∈ p, b ≠ 0 := fun b hb => hs b (List.mem_cons_of_mem _ hb)
      rw [List.cons_append, respDecode, if_neg (by decide), scanInt_append_zero,
        afterNewline_append_zero hp, hargc, hp']
      simp only [Option.map_some]
      rw [if_neg (by omega)]
      exact respDecodeArgs_refuses h fun b hb => hp b (afterNewline_mem hp' b hb)

/-! ## What is asked -/

/-- `resp_decode` does what is asked on complete requests and on the strings that
it rejects, and on no others. -/
theorem decode_ok (hs : ∀ b ∈ s, b ≠ 0) : Decodes s ↔ (∃ argv, Complete argv s) ∨ Rejects s := by
  constructor
  · intro h
    rw [Decodes] at h
    split at h
    · exact .inl ⟨_, h⟩
    · rename_i herr
      exact .inr ((respDecode_err hs).mp herr)
    · exact h.elim
  · rintro (⟨argv, h⟩ | h)
    · rw [Decodes, respDecode_complete h]
      exact h
    · have herr := (respDecode_err hs).mpr h
      rw [Decodes, herr]
      intro argv hc
      rw [respDecode_complete hc] at herr
      cases herr

/-- A `GET` with a stray byte in place of its second `$`. -/
def strayByte : Bytes := bytes "*2\r\n$3\r\nGET\r\n+1\r\nk\r\n"

theorem decode_ok_stray : (∀ b ∈ strayByte, b ≠ 0) ∧ Decodes strayByte := by
  have hs : ∀ b ∈ strayByte, b ≠ 0 := by decide +kernel
  exact ⟨hs, (decode_ok hs).mpr (.inr ((respDecode_err hs).mp (by decide)))⟩

/-- A payload shorter than its length is read past the NUL, and an empty array is
taken. -/
theorem decode_reads_past :
    ¬ Decodes (bytes "*1\r\n$5\r\nab") ∧ ¬ Decodes (bytes "*0\r\n") := by
  have hcut : respDecode (bytes "*1\r\n$5\r\nab" ++ [0]) = .undef := by decide
  have hempty : respDecode (bytes "*0\r\n" ++ [0]) = .ok [] := by decide
  rw [Decodes, Decodes, hcut, hempty]
  exact ⟨id, fun h => h.1 rfl⟩

end Fedis.Proof.Resp

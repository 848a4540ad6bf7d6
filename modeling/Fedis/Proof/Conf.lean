import Fedis.Impl.Conf
import Fedis.Spec.Conf

/-!
# Reading and updating the configuration

`get_config` compares the first token of a line, `update_config` the start of a line:

* `read_lines`: on lines that all fit and are not blank, `get_config` finds the first one with the key;
* `match_line`: the lines that `update_config` writes anew are those whose keys start with its key;
* `update_chunks`: the file after it, line by line.
-/

namespace Fedis.Proof.Conf

open Framework

variable {f : ConfFile} {l : ConfLine} {ls : List ConfLine} {c key value k s t w : Bytes} {cs : List Bytes}

/-! ## Tokens -/

theorem strim_append (hs : ∀ b ∈ s, b ≠ 0) (t : Bytes) : strim (s ++ t) = strim s ++ strim t := by
  rw [strim, strim, strim, cstr_append hs, List.filter_append, cstr_eq_self hs]

theorem strim_eq_self (hs : ∀ b ∈ s, b ≠ 0 ∧ isspace b = false) : strim s = s := by
  rw [strim, cstr_eq_self fun b hb => (hs b hb).1, List.filter_eq_self]
  intro b hb
  rw [(hs b hb).2]
  rfl

theorem strim_blank (hs : ∀ b ∈ s, isspace b = true) : strim s = [] := by
  have h0 : ∀ b ∈ s, b ≠ 0 := by
    rintro b hb rfl
    exact absurd (hs 0 hb) (by decide)
  rw [strim, cstr_eq_self h0, List.filter_eq_nil_iff]
  intro b hb
  rw [hs b hb]
  decide

/-- The end of a line. -/
theorem blank_end : ∀ b ∈ [10], isspace b = true := List.forall_mem_singleton.mpr (by decide)

theorem strim_ne_zero (s : Bytes) : ∀ b ∈ strim s, b ≠ 0 :=
  fun b hb => cstr_ne_zero b (List.mem_of_mem_filter hb)

theorem strim_word (h : Word s) : strim s = s := strim_eq_self fun b hb => ⟨(h b hb).1, (h b hb).2.1⟩

/-- The first token, up to the first `=`. -/
theorem strtok_cons (hs : ∀ b ∈ s, b ≠ 0 ∧ b ≠ 61) (hne : s ≠ []) (t : Bytes) :
    strtok (s ++ 61 :: t) 61 = s :: strtok t 61 := by
  have hcstr : cstr (s ++ 61 :: t) = s ++ 61 :: cstr t := by
    rw [cstr_append fun b hb => (hs b hb).1]
    rfl
  rw [strtok, hcstr, List.splitOn_append_cons_self_of_not_mem fun h => (hs 61 h).2 rfl,
    List.filter_cons_of_pos (by simpa using hne)]
  rfl

theorem strtok_single (hs : ∀ b ∈ s, b ≠ 0 ∧ b ≠ 61) (hne : s ≠ []) : strtok s 61 = [s] := by
  rw [strtok, cstr_eq_self fun b hb => (hs b hb).1,
    List.splitOn_eq_singleton fun h => (hs 61 h).2 rfl, List.filter_cons_of_pos (by simpa using hne)]
  rfl

/-- The tokens of a string are those of what it is before its first `=`, and of what is behind. -/
theorem tokens_cases (s : Bytes) :
    (∃ a t, s = a ++ 61 :: t ∧ (s.splitOn 61).filter (· ≠ []) =
        (if a = [] then [] else [a]) ++ (t.splitOn 61).filter (· ≠ [])) ∨
      (s.splitOn 61).filter (· ≠ []) = if s = [] then [] else [s] := by
  by_cases h : (61 : UInt8) ∈ s
  · obtain ⟨a, t, rfl, ha⟩ := List.eq_append_cons_of_mem h
    refine .inl ⟨a, t, rfl, ?_⟩
    rw [List.splitOn_append_cons_self_of_not_mem ha, List.filter_cons]
    by_cases hnil : a = [] <;> simp [hnil]
  · refine .inr ?_
    rw [List.splitOn_eq_singleton h]
    by_cases hnil : s = [] <;> simp [hnil]

/-- Tokens, and a byte between two of them, are no longer than the string. -/
theorem tokens_length (n : Nat) : ∀ s : Bytes, s.length ≤ n →
    (∀ v ts, (s.splitOn 61).filter (· ≠ []) = v :: ts → v.Sublist s ∧ v ≠ []) ∧
      ∀ k v ts, (s.splitOn 61).filter (· ≠ []) = k :: v :: ts →
        k.length + 1 + v.length ≤ s.length ∧ v ≠ [] := by
  induction n with
  | zero =>
    intro s hs
    obtain rfl := List.length_eq_zero_iff.mp (Nat.le_zero.mp hs)
    simp
  | succ n ih =>
    intro s hs
    rcases tokens_cases s with ⟨a, t, rfl, htok⟩ | htok <;> rw [htok]
    · rw [List.length_append, List.length_cons] at hs ⊢
      obtain ⟨h₁, h₂⟩ := ih t (by omega)
      split
      · refine ⟨fun v ts h => ?_, fun k v ts h => ?_⟩
        · obtain ⟨hsub, hne⟩ := h₁ v ts h
          exact ⟨(hsub.cons 61).trans (List.sublist_append_right a _), hne⟩
        · obtain ⟨hlen, hne⟩ := h₂ k v ts h
          exact ⟨by omega, hne⟩
      · rename_i hne
        refine ⟨fun v ts h => ?_, fun k v ts h => ?_⟩
        · rw [← (List.cons.inj h).1]
          exact ⟨List.sublist_append_left a _, hne⟩
        · obtain ⟨hsub, hne⟩ := h₁ v ts (List.cons.inj h).2
          have hlen := hsub.length_le
          rw [← (List.cons.inj h).1]
          exact ⟨by omega, hne⟩
    · split
      · exact ⟨fun v ts h => (by cases h), fun k v ts h => (by cases h)⟩
      · rename_i hne
        refine ⟨fun v ts h => ?_, fun k v ts h => by cases h⟩
        rw [← (List.cons.inj h).1]
        exact ⟨List.Sublist.refl s, hne⟩

theorem tokens_nil (n : Nat) : ∀ s : Bytes, s.length ≤ n →
    (s.splitOn 61).filter (· ≠ []) = [] → ∀ b ∈ s, b = 61 := by
  induction n with
  | zero =>
    intro s hs _
    obtain rfl := List.length_eq_zero_iff.mp (Nat.le_zero.mp hs)
    simp
  | succ n ih =>
    intro s hs h b hb
    rcases tokens_cases s with ⟨a, t, rfl, htok⟩ | htok
    · rw [htok] at h
      obtain ⟨ha, ht⟩ := List.append_eq_nil_iff.mp h
      rw [List.length_append, List.length_cons] at hs
      have ha : a = [] := by
        by_contra hne
        rw [if_neg hne] at ha
        cases ha
      rw [ha, List.nil_append] at hb
      rcases List.mem_cons.mp hb with rfl | hb
      · rfl
      · exact ih t (by omega) ht b hb
    · rw [htok] at h
      have hnil : s = [] := by
        by_contra hne
        rw [if_neg hne] at h
        cases h
      rw [hnil] at hb
      cases hb

/-- There is a token where there is more than `=`. -/
theorem strtok_cons_of_mem {b : UInt8} (h0 : ∀ b ∈ s, b ≠ 0) (hb : b ∈ s) (hne : b ≠ 61) :
    ∃ v ts, strtok s 61 = v :: ts := by
  refine List.exists_cons_of_ne_nil fun h => hne ?_
  rw [strtok, cstr_eq_self h0] at h
  exact tokens_nil s.length s (Nat.le_refl _) h b hb

theorem length_cstr_le (s : Bytes) : (cstr s).length ≤ s.length := (List.takeWhile_prefix _).length_le

theorem strtok_length {v : Bytes} {ts : List Bytes} (h : strtok s 61 = k :: v :: ts) :
    k.length + 1 + v.length ≤ s.length ∧ v ≠ [] := by
  obtain ⟨hl, hne⟩ := (tokens_length _ (cstr s) (Nat.le_refl _)).2 k v ts h
  have := length_cstr_le s
  exact ⟨by omega, hne⟩

theorem strtok_head {v : Bytes} {ts : List Bytes} (h : strtok s 61 = v :: ts) :
    (∀ b ∈ v, b ≠ 0) ∧ v ≠ [] := by
  obtain ⟨hsub, hne⟩ := (tokens_length _ (cstr s) (Nat.le_refl _)).1 v ts h
  exact ⟨fun b hb => cstr_ne_zero b (hsub.subset hb), hne⟩

/-! ## Keys -/

theorem word_ne_zero (h : Word k) : ∀ b ∈ k, b ≠ 0 := fun b hb => (h b hb).1

theorem strcaseeq_iff (hk : Word k) (hkey : Word key) : strcaseeq k key = true ↔ SameKey k key := by
  rw [strcaseeq, cstr_eq_self (word_ne_zero hk), cstr_eq_self (word_ne_zero hkey), beq_iff_eq, SameKey]

theorem SameKey.length (h : SameKey k key) : k.length = key.length := by
  have := congrArg List.length h
  simpa using this

/-! ## Reading lines -/

theorem strim_entry (hk : Word k) (hne : k ≠ []) (t : Bytes) :
    strtok (strim (k ++ 61 :: t)) 61 = k :: strtok (strim t) 61 := by
  rw [strim_append (word_ne_zero hk), strim_word hk]
  exact strtok_cons (fun b hb => ⟨(hk b hb).1, (hk b hb).2.2.1⟩) hne (strim t)

theorem strim_comment (hs : ∀ b ∈ s, isspace b = true) (t : Bytes) :
    (strim (s ++ 35 :: t)).head? = some 35 := by
  have h0 : ∀ b ∈ s, b ≠ 0 := by
    rintro b hb rfl
    exact absurd (hs 0 hb) (by decide)
  rw [strim_append h0, strim_blank hs]
  rfl

/-- A line that begins with a key. -/
theorem read_entry (hk : Word k) (hne : k ≠ []) (hkey : Word key) (t : Bytes) :
    getConfigLines key ((k ++ 61 :: t) :: cs) =
      if SameKey k key then
        match strtok (strim t) 61 with
        | [] => .error .undefined
        | v :: _ => .ok (some v)
      else getConfigLines key cs := by
  obtain ⟨b, k', hb⟩ := List.exists_cons_of_ne_nil hne
  have hbk := hk b (hb ▸ List.mem_cons_self)
  have hhead : (strim (k ++ 61 :: t)).head? = some b := by
    rw [strim_append (word_ne_zero hk), strim_word hk, hb]
    rfl
  rw [getConfigLines, hhead, if_neg, strim_entry hk hne]
  · exact if_congr (strcaseeq_iff hk hkey) rfl rfl
  · rintro (h | h) <;> rw [Option.some.inj h] at hbk
    · exact hbk.2.2.2 rfl
    · exact absurd hbk.2.1 (by decide)

/-- A comment. -/
theorem read_comment (hs : ∀ b ∈ s, isspace b = true) (t : Bytes) :
    getConfigLines key ((s ++ 35 :: t) :: cs) = getConfigLines key cs := by
  rw [getConfigLines, if_pos (.inl (strim_comment hs t))]

/-- Nothing but white space. -/
theorem read_blank (hs : ∀ b ∈ s, isspace b = true) :
    getConfigLines key (s :: cs) = .error .undefined := by
  rw [getConfigLines, strim_blank hs, if_neg (by simp)]
  rfl

/-- What `get_config` is to give for a line with the key. -/
def shownValue (value : Bytes) : Option Bytes := (strtok (strim value) 61).head?

def value? (key : Bytes) : ConfLine → Option Bytes
  | .entry k v => if SameKey k key then shownValue v else none
  | .comment _ _ | .blank _ => none

/-- The line, with its end or without. -/
def IsChunk (l : ConfLine) (c : Bytes) : Prop := c = l.text ∨ c = l.text ++ [10]

theorem strim_chunk (hs : ∀ b ∈ s, b ≠ 0) : strim (s ++ [10]) = strim s := by
  rw [strim_append hs, strim_blank blank_end, List.append_nil]

theorem shownValue_some {v : Bytes} (h0 : ∀ b ∈ v, b ≠ 0) (hv : ∃ b ∈ v, isspace b = false ∧ b ≠ 61) :
    ∃ x ts, strtok (strim v) 61 = x :: ts := by
  obtain ⟨b, hb, hspace, hne⟩ := hv
  refine strtok_cons_of_mem (strim_ne_zero v) (b := b) ?_ hne
  rw [strim, cstr_eq_self h0]
  exact List.mem_filter.mpr ⟨hb, by rw [hspace]; rfl⟩

/-- **Reading lines that fit.** -/
theorem read_lines (hkey : Word key) (h : List.Forall₂ IsChunk ls cs)
    (hls : ∀ l ∈ ls, l.Valid ∧ l.isBlank = false) :
    getConfigLines key cs = .ok (ls.findSome? (value? key)) := by
  induction h with
  | nil => rfl
  | @cons l c ls cs hc _ ih =>
    obtain ⟨⟨hl, hblank⟩, htail⟩ := List.forall_mem_cons.mp hls
    obtain ⟨t, ht, hct⟩ : ∃ t, (t = [] ∨ t = [10]) ∧ c = l.text ++ t := hc.elim
      (fun h => ⟨[], .inl rfl, by rw [h, List.append_nil]⟩) fun h => ⟨[10], .inr rfl, h⟩
    rw [hct, List.findSome?_cons]
    cases l with
    | entry k v =>
      obtain ⟨⟨hne, hk⟩, hv⟩ := hl.form
      have h0 : ∀ b ∈ v, b ≠ 0 := fun b hb =>
        (hl.bytes b (List.mem_append_right _ (List.mem_cons_of_mem _ hb))).1
      rw [ConfLine.text, List.append_assoc, List.cons_append, value?]
      rw [read_entry hk hne hkey]
      by_cases hsame : SameKey k key
      · obtain ⟨x, ts, hx⟩ := shownValue_some h0 hv
        have hxt : strtok (strim (v ++ t)) 61 = x :: ts := by
          rcases ht with rfl | rfl
          · rwa [List.append_nil]
          · rwa [strim_chunk h0]
        rw [if_pos hsame, if_pos hsame, hxt, shownValue, hx]
        rfl
      · rw [if_neg hsame, if_neg hsame]
        exact ih htail
    | comment s t =>
      rw [ConfLine.text, List.append_assoc, List.cons_append, read_comment hl.form]
      exact ih htail
    | blank s => cases hblank

/-! ## Writing lines -/

theorem tolower_word {b : UInt8} (h : b ≠ 0 ∧ isspace b = false ∧ b ≠ 61 ∧ b ≠ 35) :
    isspace (tolower b) = false ∧ tolower b ≠ 61 ∧ tolower b ≠ 35 := by
  have all : ∀ b : Fin 256, UInt8.ofFin b ≠ 0 ∧ isspace (UInt8.ofFin b) = false ∧ UInt8.ofFin b ≠ 61 ∧
      UInt8.ofFin b ≠ 35 → isspace (tolower (UInt8.ofFin b)) = false ∧ tolower (UInt8.ofFin b) ≠ 61 ∧
        tolower (UInt8.ofFin b) ≠ 35 := by decide +kernel
  exact all b.toFin h

/-- A byte that is in no key. -/
def Stop (d : UInt8) : Prop := isspace d = true ∨ d = 61 ∨ d = 35

theorem tolower_stop {d : UInt8} (h : Stop d) : tolower d = d ∧ d ≠ 0 := by
  have all : ∀ d : Fin 256, isspace (UInt8.ofFin d) = true ∨ UInt8.ofFin d = 61 ∨ UInt8.ofFin d = 35 →
      tolower (UInt8.ofFin d) = UInt8.ofFin d ∧ UInt8.ofFin d ≠ 0 := by decide +kernel
  exact all d.toFin h

theorem stop_notMem {d : UInt8} (hd : Stop d) (hk : Word k) : tolower d ∉ k.map tolower := by
  intro h
  obtain ⟨b, hb, he⟩ := List.mem_map.mp h
  obtain ⟨h₁, h₂, h₃⟩ := tolower_word (hk b hb)
  rw [he, (tolower_stop hd).1] at h₁ h₂ h₃
  rcases hd with hd | hd | hd
  · rw [h₁] at hd
    cases hd
  · exact h₂ hd
  · exact h₃ hd

/-- The key is the start of another one, ignoring case. -/
def Starts (key k : Bytes) : Prop := key.map tolower <+: k.map tolower

instance (key k : Bytes) : Decidable (Starts key k) :=
  inferInstanceAs (Decidable (key.map tolower <+: k.map tolower))

/-- What `strncasecmp` says of a line that starts with a word. -/
theorem strncaseeq_word {d : UInt8} (hw : Word w) (hd : Stop d) (hkey : Word key) (t : Bytes) :
    strncaseeq (w ++ d :: t) key key.length = true ↔ Starts key w := by
  have hcstr : cstr (w ++ d :: t) = w ++ d :: cstr t := by
    rw [cstr_append (word_ne_zero hw), cstr, List.takeWhile_cons_of_pos (by simpa using (tolower_stop hd).2)]
    rfl
  have hprefix : Starts key w ↔ key.map tolower <+: (w ++ d :: cstr t).map tolower := by
    rw [Starts, List.map_append, List.map_cons]
    refine ⟨fun h => h.trans (List.prefix_append _ _), fun h => ?_⟩
    rcases Nat.lt_or_ge w.length key.length with hlt | hge
    · exfalso
      have hword : w.map tolower ++ [tolower d] <+: w.map tolower ++ (d :: cstr t).map tolower :=
        ⟨(cstr t).map tolower, by simp⟩
      obtain ⟨u, hu⟩ := List.prefix_of_prefix_length_le hword h (by simpa using Nat.succ_le_of_lt hlt)
      exact stop_notMem hd hkey (hu ▸ by simp)
    · exact List.prefix_of_prefix_length_le h (List.prefix_append _ _) (by simpa using hge)
  rw [strncaseeq, hcstr, cstr_eq_self (word_ne_zero hkey), List.take_length, beq_iff_eq, hprefix,
    List.prefix_iff_eq_take, List.length_map, List.map_take]
  exact eq_comm

/-- The line is one that is written anew. -/
def rewritten (key : Bytes) : ConfLine → Bool
  | .entry k _ => decide (Starts key k)
  | .comment _ _ | .blank _ => false

/-- **The lines that match** are those whose keys start with the key. -/
theorem match_line (hl : l.Valid) (hkey : Word key) (hne : key ≠ []) (hc : IsChunk l c) (hcne : c ≠ []) :
    strncaseeq c key key.length = rewritten key l := by
  have hnil : ¬ Starts key [] := by
    intro h
    have := h.length_le
    rw [List.length_map, List.map_nil, List.length_nil] at this
    exact hne (List.length_eq_zero_iff.mp (Nat.le_zero.mp this))
  obtain ⟨t, ht, rfl⟩ : ∃ t, (t = [] ∨ t = [10]) ∧ c = l.text ++ t := hc.elim
    (fun h => ⟨[], .inl rfl, by rw [h, List.append_nil]⟩) fun h => ⟨[10], .inr rfl, h⟩
  have hother : ∀ {d : UInt8} {u : Bytes}, Stop d → strncaseeq (d :: u) key key.length = false := by
    intro d u hd
    have := strncaseeq_word (w := []) (by intro b hb; cases hb) hd hkey u
    exact Bool.not_eq_true _ ▸ mt this.mp hnil
  cases l with
  | entry k v =>
    obtain ⟨⟨-, hk⟩, -⟩ := hl.form
    rw [ConfLine.text, List.append_assoc, List.cons_append, rewritten, Bool.eq_iff_iff,
      strncaseeq_word hk (.inr (.inl rfl)) hkey, decide_eq_true_eq]
  | comment s u =>
    rw [ConfLine.text, rewritten]
    cases s with
    | nil => exact hother (.inr (.inr rfl))
    | cons b s => exact hother (.inl (hl.form b List.mem_cons_self))
  | blank s =>
    rw [ConfLine.text] at hcne ⊢
    rw [rewritten]
    cases s with
    | nil =>
      rcases ht with rfl | rfl
      · exact absurd rfl hcne
      · exact hother (.inl (by decide))
    | cons b s => exact hother (.inl (hl.form b List.mem_cons_self))

/-! ## The file line by line -/

theorem text_eq (f : ConfFile) :
    f.text = (f.lines.map ConfLine.text).flatMap (· ++ [10]) ++ f.last.toList.flatMap ConfLine.text := by
  rw [ConfFile.text, List.flatMap_map]

theorem mem_all {f : ConfFile} : l ∈ f.all ↔ l ∈ f.lines ∨ l ∈ f.last := by
  rw [ConfFile.all, List.mem_append, Option.mem_toList, Option.mem_def]

theorem ConfLine.Valid.notMem (h : l.Valid) : (10 : UInt8) ∉ l.text := fun h10 => (h.bytes 10 h10).2 rfl

theorem last_chunks (hf : f.Valid) {n : Nat} (hn : 63 ≤ n) :
    fgetsAll n (f.last.toList.flatMap ConfLine.text) = f.last.toList.map ConfLine.text := by
  cases hlast : f.last with
  | none => rfl
  | some l =>
    have hl := hf.lines l (mem_all.mpr (.inr hlast))
    have := hl.length
    rw [Option.toList_some, List.flatMap_singleton]
    exact fgets_last (ConfLine.Valid.notMem hl) (hf.last l hlast) (by omega)

theorem flatMap_pieces {n : Nat} {ls : List Bytes} (h : ∀ l ∈ ls, l.length < n) :
    ls.flatMap (pieces n) = ls.map (· ++ [10]) := by
  induction ls with
  | nil => rfl
  | cons l ls ih =>
    obtain ⟨hl, hls⟩ := List.forall_mem_cons.mp h
    rw [List.flatMap_cons, pieces, if_pos hl, ih hls, List.map_cons]
    rfl

/-- What `get_config` reads. -/
theorem get_chunks (hf : f.Valid) :
    fgetsAll 63 f.text =
      (f.lines.map ConfLine.text).flatMap (pieces 63) ++ f.last.toList.map ConfLine.text := by
  rw [text_eq, fgets_lines (by decide), last_chunks hf (Nat.le_refl _)]
  intro t ht
  obtain ⟨l, hl, rfl⟩ := List.mem_map.mp ht
  have hl := hf.lines l (mem_all.mpr (.inl hl))
  have := hl.length
  exact ⟨ConfLine.Valid.notMem hl, by omega⟩

/-- What `update_config` reads. -/
theorem update_reads (hf : f.Valid) :
    fgetsAll 511 f.text =
      f.lines.map (fun l => l.text ++ [10]) ++ f.last.toList.map ConfLine.text := by
  have hl : ∀ t ∈ f.lines.map ConfLine.text, (10 : UInt8) ∉ t ∧ t.length < 64 := by
    intro t ht
    obtain ⟨l, hl, rfl⟩ := List.mem_map.mp ht
    have hl := hf.lines l (mem_all.mpr (.inl hl))
    exact ⟨ConfLine.Valid.notMem hl, hl.length⟩
  rw [text_eq, fgets_lines (by decide) (fun t ht => ⟨(hl t ht).1, by have := (hl t ht).2; omega⟩),
    last_chunks hf (by decide), flatMap_pieces (fun t ht => by have := (hl t ht).2; omega), List.map_map]
  rfl

/-- The line after the update. -/
def newLine (key value : Bytes) (l : ConfLine) : ConfLine := if rewritten key l then .entry key value else l

def found (f : ConfFile) (key : Bytes) : Bool := f.all.any (rewritten key)

/-- What comes behind the lines with an end. -/
def newTail (f : ConfFile) (key value : Bytes) : Bytes :=
  f.last.toList.flatMap (fun l => if rewritten key l then configLine key value else l.text) ++
    if found f key then [] else configLine key value

theorem configLine_eq (key value : Bytes) : configLine key value = (ConfLine.entry key value).text ++ [10] :=
  rfl

theorem any_congr_mem {α : Type} {as : List α} {p q : α → Bool} (h : ∀ a ∈ as, p a = q a) :
    as.any p = as.any q := by
  rw [Bool.eq_iff_iff, List.any_eq_true, List.any_eq_true]
  exact exists_congr fun a => and_congr_right fun ha => by rw [h a ha]

theorem update_text (hf : f.Valid) (hkey : Word key) (hne : key ≠ []) (value : Bytes) :
    updateConfig f.text key value =
      ((f.lines.map (newLine key value)).map ConfLine.text).flatMap (· ++ [10]) ++ newTail f key value := by
  have hmatch : ∀ l ∈ f.lines, strncaseeq (l.text ++ [10]) key key.length = rewritten key l := fun l hl =>
    match_line (hf.lines l (mem_all.mpr (.inl hl))) hkey hne (.inr rfl) (by simp)
  have hlast : ∀ l ∈ f.last, strncaseeq l.text key key.length = rewritten key l := fun l hl =>
    match_line (hf.lines l (mem_all.mpr (.inr hl))) hkey hne (.inl rfl) (hf.last l hl)
  have hfound : (fgetsAll 511 f.text).any (fun line => strncaseeq line key key.length) = found f key := by
    rw [update_reads hf, found, ConfFile.all, List.any_append, List.any_append, List.any_map, List.any_map]
    congr 1
    · exact any_congr_mem hmatch
    · exact any_congr_mem fun l hl => hlast l (Option.mem_toList.mp hl)
  rw [updateConfig, hfound, update_reads hf, newTail, List.flatMap_append, List.append_assoc,
    List.map_map, List.flatMap_map, List.flatMap_map, List.flatMap_map]
  congr 1
  · refine List.flatMap_congr fun l hl => ?_
    have hl' := hf.lines l (mem_all.mpr (.inl hl))
    rw [hmatch l hl, Function.comp_apply, newLine]
    split
    · rfl
    · refine cstr_eq_self fun b hb => ?_
      rcases List.mem_append.mp hb with hb | hb
      · exact (hl'.bytes b hb).1
      · rw [List.mem_singleton.mp hb]
        decide
  · congr 1
    refine List.flatMap_congr fun l hl => ?_
    have hl := Option.mem_toList.mp hl
    rw [hlast l hl, cstr_eq_self fun b hb => ((hf.lines l (mem_all.mpr (.inr hl))).bytes b hb).1]

/-- A word or two. -/
theorem entry_valid {value : Bytes} (hkey : Word key) (hne : key ≠ []) (hv : Word value) (hvne : value ≠ [])
    (hlen : key.length + 1 + value.length < 64) : (ConfLine.entry key value).Valid where
  form := by
    obtain ⟨b, v, hb⟩ := List.exists_cons_of_ne_nil hvne
    have hmem : b ∈ value := hb ▸ List.mem_cons_self
    exact ⟨⟨hne, hkey⟩, b, hmem, (hv b hmem).2.1, (hv b hmem).2.2.1⟩
  bytes := by
    have h10 : isspace 10 = true := by decide
    intro b hb
    rw [ConfLine.text, List.mem_append, List.mem_cons] at hb
    rcases hb with hb | rfl | hb
    · exact ⟨(hkey b hb).1, fun h => by rw [h] at hb; exact absurd (hkey 10 hb).2.1 (by rw [h10]; decide)⟩
    · decide
    · exact ⟨(hv b hb).1, fun h => by rw [h] at hb; exact absurd (hv 10 hb).2.1 (by rw [h10]; decide)⟩
  length := by
    rw [ConfLine.text, List.length_append, List.length_cons]
    omega

theorem newLine_valid {value : Bytes} (hnew : (ConfLine.entry key value).Valid) (hl : l.Valid) :
    (newLine key value l).Valid := by
  unfold newLine
  split
  · exact hnew
  · exact hl

/-- The chunks of the last part: a line that was there, or lines with the new value. -/
theorem tail_chunks {value : Bytes} (hf : f.Valid) (hnew : (ConfLine.entry key value).Valid)
    (happ : found f key = true ∨ ∀ l ∈ f.last, l.text.length = 63) :
    fgetsAll 63 (newTail f key value) =
      f.last.toList.flatMap (fun l => if rewritten key l then pieces 63 (ConfLine.entry key value).text
        else [l.text]) ++
        if found f key then [] else pieces 63 (ConfLine.entry key value).text := by
  have hnl := ConfLine.Valid.notMem hnew
  have hlen := hnew.length
  have hpieces : ∀ t, fgetsAll 63 (configLine key value ++ t) =
      pieces 63 (ConfLine.entry key value).text ++ fgetsAll 63 t := by
    intro t
    rw [configLine_eq, List.append_assoc]
    exact fgets_pieces (by decide) hnl (by omega) t
  have hrest : fgetsAll 63 (if found f key then [] else configLine key value) =
      if found f key then [] else pieces 63 (ConfLine.entry key value).text := by
    split
    · rfl
    · have := hpieces []
      rwa [List.append_nil, show fgetsAll 63 [] = [] from rfl, List.append_nil] at this
  rw [newTail]
  cases hlast : f.last with
  | none => rwa [Option.toList_none, List.flatMap_nil, List.flatMap_nil, List.nil_append, List.nil_append]
  | some l =>
    have hmem : l ∈ f.last := hlast
    have hl := hf.lines l (mem_all.mpr (.inr hmem))
    rw [Option.toList_some, List.flatMap_singleton, List.flatMap_singleton]
    split
    · rw [hpieces, hrest]
    · have hlen := hl.length
      rcases happ with hfound | hfull
      · rw [if_pos hfound, if_pos hfound, List.append_nil, List.append_nil]
        exact fgets_last (ConfLine.Valid.notMem hl) (hf.last l hmem) (by omega)
      · rw [fgets_full (ConfLine.Valid.notMem hl) (hf.last l hmem) (hfull l hmem), hrest]
        rfl

/-- What `get_config` reads after the update. -/
theorem update_pieces {value : Bytes} (hf : f.Valid) (hkey : Word key) (hne : key ≠ [])
    (hnew : (ConfLine.entry key value).Valid)
    (happ : found f key = true ∨ ∀ l ∈ f.last, l.text.length = 63) :
    fgetsAll 63 (updateConfig f.text key value) =
      ((f.lines.map (newLine key value)).map ConfLine.text).flatMap (pieces 63) ++
        (f.last.toList.flatMap (fun l => if rewritten key l then pieces 63 (ConfLine.entry key value).text
          else [l.text]) ++
          if found f key then [] else pieces 63 (ConfLine.entry key value).text) := by
  rw [update_text hf hkey hne, fgets_lines (by decide), tail_chunks hf hnew happ]
  intro t ht
  obtain ⟨l', hl', rfl⟩ := List.mem_map.mp ht
  obtain ⟨l, hl, rfl⟩ := List.mem_map.mp hl'
  have hl := newLine_valid hnew (hf.lines l (mem_all.mpr (.inl hl)))
  have := hl.length
  exact ⟨ConfLine.Valid.notMem hl, by omega⟩

/-- The lines after the update. -/
def newLines (f : ConfFile) (key value : Bytes) : List ConfLine :=
  f.all.map (newLine key value) ++ if found f key then [] else [.entry key value]

theorem pieces_chunk (h : l.text.length < 63) : List.Forall₂ IsChunk [l] (pieces 63 l.text) := by
  rw [pieces, if_pos h]
  exact .cons (.inr rfl) .nil

theorem forall₂_flatMap {α β γ : Type} {R : β → γ → Prop} {as : List α} {p : α → β} {q : α → List γ}
    (h : ∀ a ∈ as, List.Forall₂ R [p a] (q a)) : List.Forall₂ R (as.map p) (as.flatMap q) := by
  induction as with
  | nil => exact .nil
  | cons a as ih =>
    obtain ⟨ha, has⟩ := List.forall_mem_cons.mp h
    exact List.rel_append ha (ih has)

/-- **The file after the update, line by line.** -/
theorem update_chunks {value : Bytes} (hf : f.Valid) (hkey : Word key) (hne : key ≠ [])
    (hnew : (ConfLine.entry key value).Valid) (hfit : (ConfLine.entry key value).text.length < 63)
    (hlines : ∀ l ∈ f.lines, l.text.length < 63)
    (happ : found f key = true ∨ ∀ l ∈ f.last, l.text.length = 63) :
    List.Forall₂ IsChunk (newLines f key value) (fgetsAll 63 (updateConfig f.text key value)) := by
  have hone : List.Forall₂ IsChunk [.entry key value] (pieces 63 (ConfLine.entry key value).text) :=
    pieces_chunk hfit
  have hline : ∀ l ∈ f.lines, (newLine key value l).text.length < 63 := by
    intro l hl
    unfold newLine
    split
    · exact hfit
    · exact hlines l hl
  rw [update_pieces hf hkey hne hnew happ, newLines, ConfFile.all, List.map_append, List.append_assoc,
    List.map_map, List.flatMap_map]
  refine List.rel_append ?_ (List.rel_append ?_ ?_)
  · exact forall₂_flatMap fun l hl => pieces_chunk (hline l hl)
  · refine forall₂_flatMap fun l hl => ?_
    unfold newLine
    split
    · exact hone
    · exact .cons (.inl rfl) .nil
  · split
    · exact .nil
    · exact hone

theorem get_all (hf : f.Valid) (hlines : ∀ l ∈ f.lines, l.text.length < 63) :
    List.Forall₂ IsChunk f.all (fgetsAll 63 f.text) := by
  rw [get_chunks hf, ConfFile.all, List.flatMap_map]
  refine List.rel_append ?_ ?_
  · have := forall₂_flatMap (R := IsChunk) (p := id) fun l hl => pieces_chunk (hlines l hl)
    rwa [List.map_id] at this
  · rw [List.forall₂_map_right_iff, List.forall₂_same]
    exact fun l _ => .inl rfl

end Fedis.Proof.Conf

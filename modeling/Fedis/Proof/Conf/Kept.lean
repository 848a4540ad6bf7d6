import Fedis.Proof.Conf

/-!
# What an update of the configuration keeps

* `lookup_self`, `lookup_other`: what the lines after the update give;
* `some_line`, `none_lines`: what a value that was found, and one that was not, say of the lines;
* `merged`: no value behind a last line that had no end;
* `kept_iff`: when the new value comes back, and all else is as before.
-/

namespace Fedis.Proof.Conf

open Framework

variable {f : ConfFile} {l : ConfLine} {ls : List ConfLine} {c key value k s t : Bytes} {cs : List Bytes}

/-- The new value comes back, what other keys give is as before, and a key that is not in the file
gives nothing. -/
def Kept (f : ConfFile) (key value : Bytes) : Prop :=
  getConfig (updateConfig f.text key value) key = .ok (some value) ∧
    (∀ k, Word k → ¬ SameKey k key → getConfig (updateConfig f.text key value) k = getConfig f.text k) ∧
    ∀ k, Word k → (∀ k' ∈ f.keys, ¬ SameKey k' k) → getConfig f.text k = .ok none

/-- The key and the value are there and short enough; no line is blank, and none with an end is of 63
bytes; no other key starts with the key; and the key is in the file, or its last line has an end or
fills the buffer. -/
structure Updatable (f : ConfFile) (key value : Bytes) : Prop where
  key_ne : key ≠ []
  value_ne : value ≠ []
  short : key.length + 1 + value.length < 63
  blank : ∀ l ∈ f.all, l.isBlank = false
  lines : ∀ l ∈ f.lines, l.text.length < 63
  starts : ∀ k ∈ f.keys, Starts key k → SameKey k key
  append : (∃ k ∈ f.keys, SameKey k key) ∨ ∀ l ∈ f.last, l.text.length = 63

theorem mem_keys : k ∈ f.keys ↔ ∃ v, .entry k v ∈ f.all := by
  rw [ConfFile.keys, List.mem_filterMap]
  constructor
  · rintro ⟨l, hl, hk⟩
    cases l with
    | entry k' v =>
      cases hk
      exact ⟨v, hl⟩
    | comment => cases hk
    | blank => cases hk
  · rintro ⟨v, hl⟩
    exact ⟨_, hl, rfl⟩

theorem starts_of_same (h : SameKey k key) : Starts key k := by
  rw [Starts, SameKey.eq_1] at *
  rw [h]

theorem found_iff : found f key = true ↔ ∃ k ∈ f.keys, Starts key k := by
  rw [found, List.any_eq_true]
  constructor
  · rintro ⟨l, hl, h⟩
    cases l with
    | entry k v => exact ⟨k, mem_keys.mpr ⟨v, hl⟩, of_decide_eq_true h⟩
    | comment => cases h
    | blank => cases h
  · rintro ⟨k, hk, h⟩
    obtain ⟨v, hl⟩ := mem_keys.mp hk
    exact ⟨_, hl, decide_eq_true h⟩

theorem findSome_absent {ls : List ConfLine} (h : ∀ k v, ConfLine.entry k v ∈ ls → ¬ SameKey k key) :
    ls.findSome? (value? key) = none := by
  rw [List.findSome?_eq_none_iff]
  intro l hl
  cases l with
  | entry k v => exact if_neg (h k v hl)
  | comment => rfl
  | blank => rfl

theorem findSome_congr {α β : Type} {g g' : α → Option β} {as : List α} (h : ∀ a ∈ as, g a = g' a) :
    as.findSome? g = as.findSome? g' := by
  induction as with
  | nil => rfl
  | cons a as ih =>
    obtain ⟨ha, has⟩ := List.forall_mem_cons.mp h
    rw [List.findSome?_cons, List.findSome?_cons, ha, ih has]

theorem findSome_const {α β : Type} {g : α → Option β} {as : List α} {b : β}
    (h : ∀ a ∈ as, g a = none ∨ g a = some b) (hex : ∃ a ∈ as, g a = some b) : as.findSome? g = some b := by
  cases hres : as.findSome? g with
  | none =>
    obtain ⟨a, ha, hb⟩ := hex
    rw [List.findSome?_eq_none_iff.mp hres a ha] at hb
    cases hb
  | some c =>
    obtain ⟨a, ha, hc⟩ := List.exists_of_findSome?_eq_some hres
    rcases h a ha with hn | hb
    · rw [hn] at hc
      cases hc
    · exact hc.symm.trans hb

theorem shownValue_word (hv : Word value) (hne : value ≠ []) :
    shownValue value = some value := by
  rw [shownValue, strim_word hv, strtok_single (fun b hb => ⟨(hv b hb).1, (hv b hb).2.2.1⟩) hne]
  rfl

theorem value_new (hv : Word value) (hne : value ≠ []) :
    value? key (.entry key value) = some value := (if_pos rfl).trans (shownValue_word hv hne)

/-! ## After an update -/

theorem newLines_mem (h : l ∈ newLines f key value) :
    l = .entry key value ∨ (l ∈ f.all ∧ rewritten key l = false) := by
  rcases List.mem_append.mp h with h | h
  · obtain ⟨l', hl', rfl⟩ := List.mem_map.mp h
    unfold newLine
    split
    · exact .inl rfl
    · rename_i hrew
      exact .inr ⟨hl', Bool.eq_false_iff.mpr hrew⟩
  · split at h
    · cases h
    · exact .inl (List.mem_singleton.mp h)

theorem mem_newLines (f : ConfFile) (key value : Bytes) : .entry key value ∈ newLines f key value := by
  cases hfound : found f key with
  | true =>
    obtain ⟨l, hl, hrew⟩ := List.any_eq_true.mp hfound
    exact List.mem_append_left _ (List.mem_map.mpr ⟨l, hl, if_pos hrew⟩)
  | false =>
    refine List.mem_append_right _ ?_
    rw [hfound]
    exact List.mem_singleton.mpr rfl

/-- A line that is left as it is does not have the key. -/
theorem value_left (h : rewritten key l = false) (hk : SameKey k key) : value? k l = none := by
  cases l with
  | entry k' v =>
    refine if_neg fun hsame => ?_
    exact of_decide_eq_false h (starts_of_same (hsame.trans hk))
  | comment => rfl
  | blank => rfl

theorem lookup_self (hv : Word value) (hne : value ≠ []) :
    (newLines f key value).findSome? (value? key) = some value := by
  refine findSome_const (fun l hl => ?_) ⟨_, mem_newLines f key value, value_new hv hne⟩
  rcases newLines_mem hl with rfl | ⟨-, hleft⟩
  · exact .inr (value_new hv hne)
  · exact .inl (value_left hleft rfl)

theorem lookup_other (hstarts : ∀ k' ∈ f.keys, Starts key k' → SameKey k' key) (hk : ¬ SameKey k key) :
    (newLines f key value).findSome? (value? k) = f.all.findSome? (value? k) := by
  have hnew : value? k (.entry key value) = none := if_neg fun h => hk (Eq.symm h)
  have hrest : (if found f key then [] else [ConfLine.entry key value]).findSome? (value? k) = none := by
    split
    · rfl
    · rw [List.findSome?_cons, hnew]
      rfl
  rw [newLines, List.findSome?_append, hrest, Option.or_none, List.findSome?_map]
  refine findSome_congr fun l hl => ?_
  rw [Function.comp_apply, newLine]
  split
  · rename_i hrew
    rw [hnew]
    cases l with
    | entry k' v =>
      have hsame := hstarts k' (mem_keys.mpr ⟨v, hl⟩) (of_decide_eq_true hrew)
      exact (if_neg fun h => hk (Eq.trans (Eq.symm h) hsame)).symm
    | comment => rfl
    | blank => rfl
  · rfl

theorem newLines_valid (hf : f.Valid) (hnew : (ConfLine.entry key value).Valid)
    (hblank : ∀ l ∈ f.all, l.isBlank = false) :
    ∀ l ∈ newLines f key value, l.Valid ∧ l.isBlank = false := by
  intro l hl
  rcases newLines_mem hl with rfl | ⟨hl, -⟩
  · exact ⟨hnew, rfl⟩
  · exact ⟨hf.lines l hl, hblank l hl⟩

theorem get_lines (hf : f.Valid) (hblank : ∀ l ∈ f.all, l.isBlank = false)
    (hlines : ∀ l ∈ f.lines, l.text.length < 63) (hk : Word k) :
    getConfig f.text k = .ok (f.all.findSome? (value? k)) :=
  read_lines hk (get_all hf hlines) fun l hl => ⟨hf.lines l hl, hblank l hl⟩

theorem get_updated (hf : f.Valid) (hkey : Word key) (hne : key ≠ []) (hnew : (ConfLine.entry key value).Valid)
    (hfit : (ConfLine.entry key value).text.length < 63) (hblank : ∀ l ∈ f.all, l.isBlank = false)
    (hlines : ∀ l ∈ f.lines, l.text.length < 63)
    (happ : found f key = true ∨ ∀ l ∈ f.last, l.text.length = 63) (hk : Word k) :
    getConfig (updateConfig f.text key value) k = .ok ((newLines f key value).findSome? (value? k)) :=
  read_lines hk (update_chunks hf hkey hne hnew hfit hlines happ) (newLines_valid hf hnew hblank)

theorem Updatable.kept (hf : f.Valid) (hkey : Word key) (hv : Word value) (h : Updatable f key value) :
    Kept f key value := by
  have hshort := h.short
  have hnew := entry_valid hkey h.key_ne hv h.value_ne (by omega)
  have hfit : (ConfLine.entry key value).text.length < 63 := by
    rw [ConfLine.text, List.length_append, List.length_cons]
    omega
  have happ : found f key = true ∨ ∀ l ∈ f.last, l.text.length = 63 := by
    rcases h.append with ⟨k, hk, hsame⟩ | hfull
    · exact .inl (found_iff.mpr ⟨k, hk, starts_of_same hsame⟩)
    · exact .inr hfull
  have hget : ∀ k, Word k →
      getConfig (updateConfig f.text key value) k = .ok ((newLines f key value).findSome? (value? k)) :=
    fun k => get_updated hf hkey h.key_ne hnew hfit h.blank h.lines happ
  refine ⟨?_, fun k hk hother => ?_, fun k hk habsent => ?_⟩
  · rw [hget key hkey, lookup_self hv h.value_ne]
  · rw [hget k hk, lookup_other h.starts hother, get_lines hf h.blank h.lines hk]
  · rw [get_lines hf h.blank h.lines hk,
      findSome_absent fun k' v hl => habsent k' (mem_keys.mpr ⟨v, hl⟩)]

/-! ## What a result says of the lines -/

/-- The line that gave a value. -/
def Gives (key value c : Bytes) : Prop :=
  (strim c).head? ≠ some 35 ∧
    ∃ k ts, strtok (strim c) 61 = k :: value :: ts ∧ strcaseeq k key = true

theorem some_line (h : getConfigLines key cs = .ok (some value)) : ∃ c ∈ cs, Gives key value c := by
  induction cs with
  | nil => cases h
  | cons c cs ih =>
    have hrest : getConfigLines key cs = .ok (some value) → ∃ c' ∈ c :: cs, Gives key value c' := fun h =>
      let ⟨c', hc', hg⟩ := ih h
      ⟨c', List.mem_cons_of_mem c hc', hg⟩
    rw [getConfigLines] at h
    split at h
    · exact hrest h
    · rename_i hhead
      rw [not_or] at hhead
      split at h
      · cases h
      · rename_i k toks htok
        split at h
        · rename_i hsame
          split at h
          · cases h
          · rename_i v ts
            obtain rfl := Option.some.inj (Except.ok.inj h)
            exact ⟨c, List.mem_cons_self, hhead.1, k, ts, htok, hsame⟩
        · exact hrest h

theorem none_lines (h : getConfigLines key cs = .ok none) : ∀ c ∈ cs, ¬ ∀ b ∈ c, isspace b = true := by
  induction cs with
  | nil =>
    intro c hc
    cases hc
  | cons c cs ih =>
    have hrest : getConfigLines key cs = .ok none := by
      rw [getConfigLines] at h
      split at h
      · exact h
      · split at h
        · cases h
        · split at h
          · split at h <;> cases h
          · exact h
    refine List.forall_mem_cons.mpr ⟨fun hblank => ?_, ih hrest⟩
    rw [read_blank hblank] at h
    cases h

theorem Gives.lengths (h : Gives key value c) (hkey : Word key) :
    key.length + 1 + value.length ≤ (strim c).length ∧ value ≠ [] ∧ key ≠ [] := by
  obtain ⟨-, k, ts, htok, hsame⟩ := h
  obtain ⟨hlen, hne⟩ := strtok_length htok
  obtain ⟨h0, hkne⟩ := strtok_head htok
  rw [strcaseeq, cstr_eq_self h0, cstr_eq_self (word_ne_zero hkey), beq_iff_eq] at hsame
  have heq := SameKey.length hsame
  refine ⟨by omega, hne, ?_⟩
  rintro rfl
  exact hkne (List.length_eq_zero_iff.mp heq)

/-- A line that is left as it is gives nothing, whatever is behind it. -/
theorem not_gives (hl : l.Valid) (hblank : l.isBlank = false) (hkey : Word key)
    (hleft : rewritten key l = false) (t : Bytes) : ¬ Gives key value (l.text ++ t) := by
  rintro ⟨hhead, k, ts, htok, hsame⟩
  cases l with
  | entry k' v =>
    obtain ⟨⟨hne, hk'⟩, -⟩ := hl.form
    rw [ConfLine.text, List.append_assoc, List.cons_append, strim_entry hk' hne] at htok
    rw [← (List.cons.inj htok).1, strcaseeq_iff hk' hkey] at hsame
    exact of_decide_eq_false hleft (starts_of_same hsame)
  | comment s u =>
    rw [ConfLine.text, List.append_assoc, List.cons_append] at hhead
    exact hhead (strim_comment hl.form (u ++ t))
  | blank s => cases hblank

/-- A line written behind one that had no end comes with it, or its rest does. -/
theorem merged (hl : l.Valid) (hlen : l.text.length < 63) (hnew : (ConfLine.entry key value).Valid)
    (hc : c ∈ fgetsAll 63 (l.text ++ configLine key value)) :
    (∃ t, c = l.text ++ t) ∨ ∃ r, (∀ b ∈ r, b ≠ 0) ∧ c = r ++ [10] ∧
      r.length < (ConfLine.entry key value).text.length := by
  have hkv := hnew.length
  rw [configLine_eq] at hc
  generalize hm : (ConfLine.entry key value).text = m at *
  have hl0 := ConfLine.Valid.notMem hl
  have hm0 : (10 : UInt8) ∉ m := hm ▸ ConfLine.Valid.notMem hnew
  have hone : ∀ s : Bytes, (10 : UInt8) ∉ s → s.length < 63 → fgetsAll 63 (s ++ [10]) = [s ++ [10]] :=
    fun s hs hlt => fgets_line hs hlt []
  by_cases hfit : (l.text ++ m).length < 63
  · rw [← List.append_assoc, hone _ (fun h => (List.mem_append.mp h).elim hl0 hm0) hfit,
      List.mem_singleton] at hc
    exact .inl ⟨m ++ [10], by rw [hc, List.append_assoc]⟩
  · -- the first part fills the buffer
    rw [List.length_append] at hfit
    have hfull : (l.text ++ m.take (63 - l.text.length)).length = 63 := by
      rw [List.length_append, List.length_take]
      omega
    have hsplit : l.text ++ (m ++ [10]) =
        (l.text ++ m.take (63 - l.text.length)) ++ (m.drop (63 - l.text.length) ++ [10]) := by
      rw [List.append_assoc, ← List.append_assoc (m.take _), List.take_append_drop]
    have hrest : (m.drop (63 - l.text.length)).length < m.length := by
      rw [List.length_drop]
      omega
    rw [hsplit, fgets_full (fun h => (List.mem_append.mp h).elim hl0 fun h => hm0 (List.mem_of_mem_take h))
      (List.length_pos_iff.mp (by omega)) hfull, hone _ (fun h => hm0 (List.mem_of_mem_drop h)) (by omega),
      List.mem_cons, List.mem_singleton] at hc
    rcases hc with rfl | rfl
    · exact .inl ⟨_, rfl⟩
    · refine .inr ⟨_, fun b hb => ?_, rfl, hrest⟩
      exact (hnew.bytes b (hm ▸ List.mem_of_mem_drop hb)).1

theorem pieces_cases {n : Nat} {s c : Bytes} (h : c ∈ pieces n s) : (∃ t, c = s ++ t) ∨ c = [10] := by
  rw [pieces] at h
  split at h
  · exact .inl ⟨[10], List.mem_singleton.mp h⟩
  · rcases List.mem_cons.mp h with rfl | h
    · exact .inl ⟨[], (List.append_nil c).symm⟩
    · exact .inr (List.mem_singleton.mp h)

theorem length_strim_le (s : Bytes) : (strim s).length ≤ s.length :=
  (List.length_filter_le _ _).trans (length_cstr_le s)

/-- **No value behind a line without an end**, when no line was written anew. -/
theorem Gives.append (hf : f.Valid) (hkey : Word key) (hv : Word value)
    (hlen : key.length + 1 + value.length < 64) (hblank : ∀ l ∈ f.all, l.isBlank = false)
    (h : getConfig (updateConfig f.text key value) key = .ok (some value)) (hfound : found f key = false) :
    ∀ l ∈ f.last, l.text.length = 63 := by
  obtain ⟨c, hc, hg⟩ := some_line h
  obtain ⟨hglen, hvne, hne⟩ := hg.lengths hkey
  have hnew := entry_valid hkey hne hv hvne hlen
  have hleft : ∀ l ∈ f.all, rewritten key l = false := by
    simpa [found, List.any_eq_false] using hfound
  intro l hlast
  have hmem := mem_all.mpr (.inr hlast)
  have hl := hf.lines l hmem
  have hbound := hl.length
  by_contra hne63
  have htail : newTail f key value = l.text ++ configLine key value := by
    rw [newTail, Option.mem_def.mp hlast, hfound, Option.toList_some, List.flatMap_singleton, hleft l hmem]
    rfl
  have hlines : f.lines.map (newLine key value) = f.lines := by
    refine (List.map_congr_left fun l hl => ?_).trans (List.map_id _)
    rw [newLine, hleft l (mem_all.mpr (.inl hl))]
    rfl
  rw [update_text hf hkey hne, hlines, htail, fgets_lines (by decide), List.mem_append] at hc
  · rcases hc with hc | hc
    · obtain ⟨t, ht, hc⟩ := List.mem_flatMap.mp hc
      obtain ⟨l', hl', rfl⟩ := List.mem_map.mp ht
      have hl' := mem_all.mpr (.inl hl')
      rcases pieces_cases hc with ⟨u, rfl⟩ | rfl
      · exact not_gives (hf.lines l' hl') (hblank l' hl') hkey (hleft l' hl') u hg
      · rw [strim_blank blank_end, List.length_nil] at hglen
        omega
    · rcases merged hl (by omega) hnew hc with ⟨u, rfl⟩ | ⟨r, hr, rfl, hrlen⟩
      · exact not_gives hl (hblank l hmem) hkey (hleft l hmem) u hg
      · rw [strim_chunk hr] at hglen
        have := length_strim_le r
        rw [ConfLine.text, List.length_append, List.length_cons] at hrlen
        omega
  · intro t ht
    obtain ⟨l, hl, rfl⟩ := List.mem_map.mp ht
    have hl := hf.lines l (mem_all.mpr (.inl hl))
    have := hl.length
    exact ⟨ConfLine.Valid.notMem hl, by omega⟩

/-- A key that is too long to be in the file. -/
def absent : Bytes := List.replicate 64 97

theorem word_absent : Word absent := by
  intro b hb
  rw [List.eq_of_mem_replicate hb]
  decide

theorem length_key (hf : f.Valid) (hk : k ∈ f.keys) : k.length < 64 := by
  obtain ⟨v, hl⟩ := mem_keys.mp hk
  have := (hf.lines _ hl).length
  rw [ConfLine.text, List.length_append] at this
  omega

theorem absent_ne (h : k.length < 64) : ¬ SameKey k absent := by
  intro hsame
  have := SameKey.length hsame
  rw [absent, List.length_replicate] at this
  omega

theorem Kept.absent (hf : f.Valid) (h : Kept f key value) : getConfig f.text absent = .ok none :=
  h.2.2 _ word_absent fun _ hk => absent_ne (length_key hf hk)

theorem Kept.blank (hf : f.Valid) (h : Kept f key value) : ∀ l ∈ f.all, l.isBlank = false := by
  have hnone := none_lines (h.absent hf)
  rw [get_chunks hf] at hnone
  intro l hl
  cases l with
  | entry => rfl
  | comment => rfl
  | blank s =>
    exfalso
    have hs : ∀ b ∈ s, isspace b = true := (hf.lines _ hl).form
    rcases mem_all.mp hl with hl | hl
    · obtain ⟨c, hc, hcs⟩ : ∃ c ∈ pieces 63 s, c = s ∨ c = s ++ [10] := by
        rw [pieces]
        split
        · exact ⟨_, List.mem_singleton.mpr rfl, .inr rfl⟩
        · exact ⟨_, List.mem_cons_self, .inl rfl⟩
      refine hnone c (List.mem_append_left _ (List.mem_flatMap.mpr ⟨s, List.mem_map.mpr ⟨_, hl, rfl⟩, hc⟩)) ?_
      rcases hcs with rfl | rfl
      · exact hs
      · intro b hb
        rcases List.mem_append.mp hb with hb | hb
        · exact hs b hb
        · rw [List.mem_singleton.mp hb]
          decide
    · exact hnone s (List.mem_append_right _ (List.mem_map.mpr ⟨_, Option.mem_toList.mpr hl, rfl⟩)) hs

theorem end_piece {s : Bytes} (h : 63 ≤ s.length) : [10] ∈ pieces 63 s := by
  rw [pieces, if_neg (by omega)]
  exact List.mem_cons_of_mem _ (List.mem_singleton.mpr rfl)

/-- No end of a line is read alone. -/
theorem no_end (h : getConfigLines key cs = .ok none) : [10] ∉ cs := fun hmem =>
  none_lines h _ hmem blank_end

theorem Kept.lines (hf : f.Valid) (h : Kept f key value) : ∀ l ∈ f.lines, l.text.length < 63 := by
  intro l hl
  by_contra hlt
  refine no_end (h.absent hf) ?_
  rw [get_chunks hf]
  exact List.mem_append_left _
    (List.mem_flatMap.mpr ⟨_, List.mem_map.mpr ⟨l, hl, rfl⟩, end_piece (by omega)⟩)

/-- A new line that fills the buffer leaves its end. -/
theorem end_updated (hf : f.Valid) (hkey : Word key) (hne : key ≠ []) (hnew : (ConfLine.entry key value).Valid)
    (happ : found f key = true ∨ ∀ l ∈ f.last, l.text.length = 63)
    (hlen : 63 ≤ (ConfLine.entry key value).text.length) :
    [10] ∈ fgetsAll 63 (updateConfig f.text key value) := by
  have hend := end_piece hlen
  rw [update_pieces hf hkey hne hnew happ]
  cases hfound : found f key with
  | true =>
    obtain ⟨l, hl, hrew⟩ := List.any_eq_true.mp hfound
    rcases mem_all.mp hl with hl | hl
    · refine List.mem_append_left _ (List.mem_flatMap.mpr ⟨_, ?_, hend⟩)
      exact List.mem_map.mpr ⟨_, List.mem_map.mpr ⟨l, hl, if_pos hrew⟩, rfl⟩
    · refine List.mem_append_right _ (List.mem_append_left _ ?_)
      refine List.mem_flatMap.mpr ⟨l, Option.mem_toList.mpr hl, ?_⟩
      rwa [if_pos hrew]
  | false =>
    refine List.mem_append_right _ (List.mem_append_right _ ?_)
    exact hend

theorem value_some (hl : (ConfLine.entry k s).Valid) : value? k (.entry k s) ≠ none := by
  obtain ⟨-, hv⟩ := hl.form
  have h0 : ∀ b ∈ s, b ≠ 0 := fun b hb =>
    (hl.bytes b (List.mem_append_right _ (List.mem_cons_of_mem _ hb))).1
  obtain ⟨x, ts, hx⟩ := shownValue_some h0 hv
  have hsame : SameKey k k := rfl
  rw [value?, if_pos hsame, shownValue, hx]
  exact Option.some_ne_none x

/-- The value of a key that starts with the key is lost. -/
theorem lookup_lost (hstarts : Starts key k) (hk : ¬ SameKey k key) :
    (newLines f key value).findSome? (value? k) = none := by
  rw [List.findSome?_eq_none_iff]
  intro l hl
  rcases newLines_mem hl with rfl | ⟨-, hleft⟩
  · exact if_neg fun h => hk (Eq.symm h)
  · cases l with
    | entry k' v =>
      refine if_neg fun hsame => of_decide_eq_false hleft ?_
      rw [Starts, SameKey.eq_1] at *
      rwa [hsame]
    | comment => rfl
    | blank => rfl

theorem Kept.updatable (hf : f.Valid) (hkey : Word key) (hv : Word value)
    (hlen : key.length + 1 + value.length < 64) (h : Kept f key value) : Updatable f key value := by
  obtain ⟨c, -, hg⟩ := some_line h.1
  obtain ⟨-, hvne, hne⟩ := hg.lengths hkey
  have hblank := h.blank hf
  have hlines := h.lines hf
  have hnew := entry_valid hkey hne hv hvne hlen
  have htext : (ConfLine.entry key value).text.length = key.length + 1 + value.length := by
    rw [ConfLine.text, List.length_append, List.length_cons]
    omega
  have happ : found f key = true ∨ ∀ l ∈ f.last, l.text.length = 63 := by
    cases hfound : found f key with
    | true => exact .inl rfl
    | false => exact .inr (Gives.append hf hkey hv hlen hblank h.1 hfound)
  have hshort : key.length + 1 + value.length < 63 := by
    by_contra hlt
    have hnone := (h.2.1 _ word_absent fun hs => absent_ne (by omega) (Eq.symm hs)).trans (h.absent hf)
    exact no_end hnone (end_updated hf hkey hne hnew happ (by omega))
  have hstarts : ∀ k ∈ f.keys, Starts key k → SameKey k key := by
    intro k hk hst
    by_contra hother
    obtain ⟨v, hl⟩ := mem_keys.mp hk
    have hwk : Word k := (hf.lines _ hl).form.1.2
    have hget := h.2.1 k hwk hother
    rw [get_updated hf hkey hne hnew (by omega) hblank hlines happ hwk, lookup_lost hst hother,
      get_lines hf hblank hlines hwk] at hget
    exact value_some (hf.lines _ hl) (List.findSome?_eq_none_iff.mp (Except.ok.inj hget).symm _ hl)
  refine ⟨hne, hvne, hshort, hblank, hlines, hstarts, happ.imp_left fun hfound => ?_⟩
  obtain ⟨k, hk, hst⟩ := found_iff.mp hfound
  exact ⟨k, hk, hstarts k hk hst⟩

/-- **When an update changes its key only.** -/
theorem kept_iff (hf : f.Valid) (hkey : Word key) (hv : Word value)
    (hlen : key.length + 1 + value.length < 64) : Kept f key value ↔ Updatable f key value :=
  ⟨Kept.updatable hf hkey hv hlen, Updatable.kept hf hkey hv⟩

theorem kept_iff_role :
    Kept ⟨[.entry (bytes "role") (bytes "master"), .comment [] (bytes " slave use")],
      some (.entry (bytes "offset") (bytes "62"))⟩ (bytes "role") (bytes "slave") := by
  refine (kept_iff ⟨by decide +kernel, by decide⟩ (by decide +kernel) (by decide +kernel)
    (by decide)).mpr ?_
  exact {
    key_ne := by decide
    value_ne := by decide
    short := by decide
    blank := by decide
    lines := by decide
    starts := by decide
    append := .inl (by decide) }

/-- Another key that starts with the key, a blank line, and a last line without an end. -/
theorem not_kept :
    ¬ (∀ (f : ConfFile) (key value : Bytes), f.Valid → Word key → Word value →
      key.length + 1 + value.length < 64 → Kept f key value) ∧
    getConfig (updateConfig (bytes "role=master\nrole_since=7\n") (bytes "role") (bytes "slave"))
      (bytes "role_since") = .ok none ∧
    getConfig (bytes "role=master\n\nport=6666\n") (bytes "port") = .error .undefined ∧
    updateConfig (bytes "role=master") (bytes "port") (bytes "6667") = bytes "role=masterport=6667\n" := by
  have hlost : getConfig (updateConfig (bytes "role=master\nrole_since=7\n") (bytes "role") (bytes "slave"))
      (bytes "role_since") = .ok none := by decide
  refine ⟨fun h => ?_, hlost, by decide, by decide⟩
  have hkept := h ⟨[.entry (bytes "role") (bytes "master"), .entry (bytes "role_since") (bytes "7")], none⟩
    (bytes "role") (bytes "slave") ⟨by decide +kernel, by decide⟩ (by decide +kernel)
    (by decide +kernel) (by decide)
  have hget := hkept.2.1 (bytes "role_since") (by decide +kernel) (by decide)
  revert hget
  decide

end Fedis.Proof.Conf

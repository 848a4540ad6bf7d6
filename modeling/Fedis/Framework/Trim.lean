import Mathlib.Data.List.DropRight

/-!
# Trimming a list

`trimmed p l` is `l` without the longest prefix and the longest suffix of elements in `p`.

* `trimmed_split`: what stands between elements in `p`, and neither starts nor ends with one;
* `trimmed_eq`: the same by index, for a search from both ends.
-/

namespace Fedis.Framework

variable {α : Type*} {p : α → Bool} {l pre mid post : List α}

def trimmed (p : α → Bool) (l : List α) : List α := (l.dropWhile p).rdropWhile p

/-- If all elements are in `p`, nothing is left. -/
theorem trimmed_nil (h : ∀ a ∈ l, p a) : trimmed p l = [] := by
  rw [trimmed, List.dropWhile_eq_nil_iff.mpr h]
  rfl

theorem rdropWhile_append (h : ∀ a ∈ post, p a) :
    (mid ++ post).rdropWhile p = mid.rdropWhile p := by
  induction post using List.reverseRecOn with
  | nil => rw [List.append_nil]
  | append_singleton post a ih =>
    have ha : p a := h a (List.mem_append_right post (List.mem_singleton_self a))
    rw [← List.append_assoc, List.rdropWhile_concat_pos p (mid ++ post) a ha]
    exact ih fun b hb => h b (List.mem_append_left [a] hb)

theorem trimmed_split (hpre : ∀ a ∈ pre, p a) (hpost : ∀ a ∈ post, p a)
    (hfirst : ∀ a ∈ mid.head?, ¬ p a) (hlast : ∀ a ∈ mid.getLast?, ¬ p a) :
    trimmed p (pre ++ (mid ++ post)) = mid := by
  cases mid with
  | nil =>
    rw [List.nil_append]
    exact trimmed_nil fun a ha => (List.mem_append.mp ha).elim (hpre a) (hpost a)
  | cons a mid =>
    have ha : ¬ p a := hfirst a rfl
    rw [trimmed, List.dropWhile_append_of_pos hpre, List.cons_append, List.dropWhile_cons_of_neg ha,
      ← List.cons_append, rdropWhile_append hpost, List.rdropWhile_eq_self_iff]
    exact fun hne => hlast _ (List.getLast?_eq_some_getLast hne)

/-- A search from both ends has passed elements in `p` only, up to the index `i` and from the
index `j` on, and has stopped at elements that are not. -/
theorem trimmed_eq {i j : Nat} (hij : i < j) (hj : j ≤ l.length)
    (hpre : ∀ k < i, ∀ a ∈ l[k]?, p a) (hpost : ∀ k, j ≤ k → ∀ a ∈ l[k]?, p a)
    (hfirst : ∀ a ∈ l[i]?, ¬ p a) (hlast : ∀ a ∈ l[j - 1]?, ¬ p a) :
    trimmed p l = (l.drop i).take (j - i) := by
  have hsplit : l = l.take i ++ ((l.drop i).take (j - i) ++ l.drop j) := by
    have hdrop : l.drop j = (l.drop i).drop (j - i) := by
      rw [List.drop_drop, Nat.add_sub_cancel' (Nat.le_of_lt hij)]
    rw [hdrop, List.take_append_drop, List.take_append_drop]
  have hlen : ((l.drop i).take (j - i)).length = j - i := by
    rw [List.length_take, List.length_drop]
    omega
  conv_lhs => rw [hsplit]
  refine trimmed_split (fun a ha => ?_) (fun a ha => ?_) (fun a ha => ?_) fun a ha => ?_
  · obtain ⟨k, hk⟩ := List.mem_iff_getElem?.mp ha
    rw [List.getElem?_take] at hk
    split at hk
    · exact hpre k ‹_› a hk
    · cases hk
  · obtain ⟨k, hk⟩ := List.mem_iff_getElem?.mp ha
    rw [List.getElem?_drop] at hk
    exact hpost (j + k) (Nat.le_add_right j k) a hk
  · rw [List.head?_eq_getElem?, List.getElem?_take_of_lt (by omega), List.getElem?_drop] at ha
    exact hfirst a ha
  · rw [List.getLast?_eq_getElem?, hlen, List.getElem?_take_of_lt (by omega), List.getElem?_drop,
      show i + (j - i - 1) = j - 1 by omega] at ha
    exact hlast a ha

end Fedis.Framework

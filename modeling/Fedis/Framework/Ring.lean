import Mathlib.Data.List.Chain
import Mathlib.Data.List.Infix
import Mathlib.Data.List.Nodup

/-!
# Rings of linked nodes

A doubly linked list with two ends is a ring: its nodes in their order, and a `base` that stands
for the list itself, whose `next` is the head and whose `prev` is the tail.

* `Ring.next_base`, `Ring.prev_base`, `Ring.next_mem`, `Ring.prev_mem`: the links of a ring;
* `Ring.insert`, `Ring.remove`: a node is linked in between two neighbours, or unlinked;
* `Ring.flip`: the ring the other way round;
* `Ring.leads`: from the head the `next` links lead through the nodes to the base.
-/

namespace Fedis.Framework

variable {α : Type*}

/-- The links of the nodes in a memory. -/
@[ext]
structure Links (α : Type*) where
  next : α → Option α
  prev : α → Option α

/-- `y` is behind `x`. -/
def Links.Joins (m : Links α) (x y : α) : Prop := m.next x = some y ∧ m.prev y = some x

def Links.flip (m : Links α) : Links α := ⟨m.prev, m.next⟩

section Edits

variable [DecidableEq α]

def Links.setNext (m : Links α) (p q : α) : Links α :=
  { m with next := Function.update m.next p (some q) }

def Links.setPrev (m : Links α) (p q : α) : Links α :=
  { m with prev := Function.update m.prev p (some q) }

variable (m : Links α) (p q a : α)

@[simp] theorem Links.next_setNext :
    (m.setNext p q).next a = if a = p then some q else m.next a := Function.update_apply _ _ _ _

@[simp] theorem Links.prev_setNext : (m.setNext p q).prev = m.prev := rfl

@[simp] theorem Links.prev_setPrev :
    (m.setPrev p q).prev a = if a = p then some q else m.prev a := Function.update_apply _ _ _ _

@[simp] theorem Links.next_setPrev : (m.setPrev p q).next = m.next := rfl

/-- `p` is linked in between `x` and `z`. -/
structure Links.Inserts (m m' : Links α) (x p z : α) : Prop where
  next : ∀ q, m'.next q = if q = x then some p else if q = p then some z else m.next q
  prev : ∀ q, m'.prev q = if q = z then some p else if q = p then some x else m.prev q

/-- `p` is unlinked from between `x` and `z`. -/
structure Links.Removes (m m' : Links α) (x p z : α) : Prop where
  next : ∀ q ≠ p, m'.next q = if q = x then some z else m.next q
  prev : ∀ q ≠ p, m'.prev q = if q = z then some x else m.prev q

end Edits

/-- The ring of `base` and the nodes `xs`. -/
structure Ring (m : Links α) (base : α) (xs : List α) : Prop where
  nodup : (base :: xs).Nodup
  joined : (base :: xs ++ [base]).IsChain m.Joins

/-- From `p`, the links lead through `xs` to `base`. -/
def Leads (link : α → Option α) (base : α) : α → List α → Prop
  | p, [] => p = base
  | p, x :: xs => p = x ∧ x ≠ base ∧ ∃ q, link x = some q ∧ Leads link base q xs

variable {m m' : Links α} {base p : α} {xs s t : List α}

/-- The nodes before a place in the list and those behind it. -/
theorem joined_split : (base :: (s ++ t) ++ [base]).IsChain m.Joins ↔
    (base :: s).IsChain m.Joins ∧ (t ++ [base]).IsChain m.Joins ∧
      m.Joins (s.getLastD base) (t.headD base) := by
  rw [show base :: (s ++ t) ++ [base] = (base :: s) ++ (t ++ [base]) by simp, List.isChain_append]
  have hlast : (base :: s).getLast? = some (s.getLastD base) := by
    rw [List.getLast?_cons, List.getLastD_eq_getLast?]
  have hhead : (t ++ [base]).head? = some (t.headD base) := by
    cases t <;> rfl
  simp only [hlast, hhead, Option.mem_some_iff, forall_eq']

/-- The links around a node. -/
theorem joined_mem : (base :: (s ++ p :: t) ++ [base]).IsChain m.Joins ↔
    (base :: s).IsChain m.Joins ∧ (t ++ [base]).IsChain m.Joins ∧
      m.Joins (s.getLastD base) p ∧ m.Joins p (t.headD base) := by
  have hhead : (t ++ [base]).head? = some (t.headD base) := by
    cases t <;> rfl
  rw [joined_split, List.cons_append (a := p), List.isChain_cons (x := p), hhead]
  simp only [Option.mem_some_iff, forall_eq', List.headD_cons]
  exact ⟨fun ⟨hs, ⟨hp, ht⟩, hx⟩ => ⟨hs, ht, hx, hp⟩, fun ⟨hs, ht, hx, hp⟩ => ⟨hs, ⟨hp, ht⟩, hx⟩⟩

theorem getLastD_mem (base : α) (s t : List α) : s.getLastD base ∈ base :: (s ++ t) := by
  rw [← List.cons_append]
  exact List.mem_append_left t List.getLastD_mem_cons

theorem headD_mem (base : α) (s t : List α) : t.headD base ∈ base :: (s ++ t) := by
  cases t with
  | nil => exact List.mem_cons_self
  | cons z t => exact List.mem_cons_of_mem base (List.mem_append_right s List.mem_cons_self)

theorem perm_mem (base p : α) (s t : List α) :
    (base :: (s ++ p :: t)).Perm (p :: base :: (s ++ t)) :=
  (List.Perm.cons base List.perm_middle).trans (List.Perm.swap p base _)

/-- A chain reads the `next` of all nodes but the last, and the `prev` of all but the first. -/
theorem isChain_congr : ∀ {l : List α}, l.IsChain m.Joins → (∀ a ∈ l.dropLast, m'.next a = m.next a) →
    (∀ a ∈ l.tail, m'.prev a = m.prev a) → l.IsChain m'.Joins
  | [], _, _, _ => List.isChain_nil
  | [_], _, _, _ => List.isChain_singleton _
  | a :: c :: l, h, hnext, hprev => by
    rw [List.isChain_cons_cons] at h ⊢
    obtain ⟨⟨hac, hca⟩, hrest⟩ := h
    refine ⟨⟨?_, ?_⟩, isChain_congr hrest ?_ ?_⟩
    · rw [hnext a List.mem_cons_self, hac]
    · rw [hprev c List.mem_cons_self, hca]
    · intro x hx
      apply hnext x
      rw [List.dropLast_cons_cons]
      exact List.mem_cons_of_mem a hx
    · exact fun x hx => hprev x (List.mem_cons_of_mem c hx)

/-- Links that change only between the two parts of a ring keep both. -/
theorem isChain_parts (hnodup : (base :: (s ++ t)).Nodup)
    (hnext : ∀ a ∈ base :: (s ++ t), a ≠ s.getLastD base → m'.next a = m.next a)
    (hprev : ∀ a ∈ base :: (s ++ t), a ≠ t.headD base → m'.prev a = m.prev a)
    (hs : (base :: s).IsChain m.Joins) (ht : (t ++ [base]).IsChain m.Joins) :
    (base :: s).IsChain m'.Joins ∧ (t ++ [base]).IsChain m'.Joins := by
  obtain ⟨hbs, ht', hdisj⟩ := List.nodup_append'.mp (show ((base :: s) ++ t).Nodup from hnodup)
  obtain ⟨hb, -⟩ := List.nodup_cons.mp hnodup
  have hlast : s.getLastD base ∈ base :: s := List.getLastD_mem_cons
  constructor
  · refine isChain_congr hs (fun a ha => hnext a ?_ ?_) fun a ha => hprev a ?_ ?_
    · have := List.mem_of_mem_dropLast ha
      simp only [List.mem_cons, List.mem_append] at this ⊢
      tauto
    · rintro rfl
      rw [← List.dropLast_append_getLast (List.cons_ne_nil base s),
        List.getLast_eq_getLastD] at hbs
      exact List.disjoint_of_nodup_append hbs ha (List.mem_singleton_self _)
    · exact List.mem_cons_of_mem base (List.mem_append_left t ha)
    · rintro rfl
      cases t with
      | nil => exact hb (List.mem_append_left _ ha)
      | cons z t => exact hdisj (List.mem_cons_of_mem base ha) List.mem_cons_self
  · refine isChain_congr ht (fun a ha => hnext a ?_ ?_) fun a ha => hprev a ?_ ?_
    · rw [List.dropLast_concat] at ha
      exact List.mem_cons_of_mem base (List.mem_append_right s ha)
    · rintro rfl
      rw [List.dropLast_concat] at ha
      exact hdisj hlast ha
    · have := List.mem_of_mem_tail ha
      simp only [List.mem_cons, List.mem_append, List.not_mem_nil, or_false] at this ⊢
      tauto
    · rintro rfl
      cases t with
      | nil => exact absurd ha List.not_mem_nil
      | cons z t =>
        rcases List.mem_append.mp ha with ha | ha
        · exact (List.nodup_cons.mp ht').1 ha
        · rw [List.mem_singleton] at ha
          exact hb (List.mem_append_right s (ha ▸ List.mem_cons_self))

/-- Only the links of nodes count. -/
theorem Leads.congr {link link' : α → Option α} (h : ∀ x, x ≠ base → link' x = link x) :
    ∀ {xs : List α} {p : α}, Leads link base p xs → Leads link' base p xs
  | [], _, hp => hp
  | x :: _, _, ⟨hp, hx, q, hq, hrest⟩ => ⟨hp, hx, q, (h x hx).trans hq, hrest.congr h⟩

namespace Ring

theorem next_base (h : Ring m base xs) : m.next base = some (xs.headD base) :=
  (joined_split (s := []).mp h.joined).2.2.1

theorem prev_base (h : Ring m base xs) : m.prev base = some (xs.getLastD base) := by
  have hj := h.joined
  rw [← List.append_nil xs] at hj
  exact (joined_split.mp hj).2.2.2

theorem next_mem (h : Ring m base (s ++ p :: t)) : m.next p = some (t.headD base) :=
  (joined_mem.mp h.joined).2.2.2.1

theorem prev_mem (h : Ring m base (s ++ p :: t)) : m.prev p = some (s.getLastD base) :=
  (joined_mem.mp h.joined).2.2.1.2

/-- Only the links in the ring count. -/
theorem congr (h : Ring m base xs) (hnext : ∀ a ∈ base :: xs, m'.next a = m.next a)
    (hprev : ∀ a ∈ base :: xs, m'.prev a = m.prev a) : Ring m' base xs := by
  refine ⟨h.nodup, isChain_congr h.joined (fun a ha => hnext a ?_) fun a ha => hprev a ?_⟩
  · rw [List.dropLast_concat] at ha
    exact ha
  · exact (List.perm_append_singleton base xs).mem_iff.mp ha

/-- A node is linked in between the two parts. -/
theorem insert [DecidableEq α] (h : Ring m base (s ++ t)) (hp : p ∉ base :: (s ++ t))
    (hi : m.Inserts m' (s.getLastD base) p (t.headD base)) : Ring m' base (s ++ p :: t) := by
  obtain ⟨hs, ht, -⟩ := joined_split.mp h.joined
  have hne : ∀ {a}, a ∈ base :: (s ++ t) → a ≠ p := fun ha e => hp (e ▸ ha)
  have hx := hne (getLastD_mem base s t)
  have hz := hne (headD_mem base s t)
  obtain ⟨hs', ht'⟩ := isChain_parts h.nodup
    (fun a ha hax => by rw [hi.next, if_neg hax, if_neg (hne ha)])
    (fun a ha haz => by rw [hi.prev, if_neg haz, if_neg (hne ha)]) hs ht
  refine ⟨?_, joined_mem.mpr ⟨hs', ht', ⟨?_, ?_⟩, ?_, ?_⟩⟩
  · rw [(perm_mem base p s t).nodup_iff]
    exact List.nodup_cons.mpr ⟨hp, h.nodup⟩
  · rw [hi.next, if_pos rfl]
  · rw [hi.prev, if_neg hz.symm, if_pos rfl]
  · rw [hi.next, if_neg hx.symm, if_pos rfl]
  · rw [hi.prev, if_pos rfl]

/-- A node is unlinked. -/
theorem remove [DecidableEq α] (h : Ring m base (s ++ p :: t))
    (hr : m.Removes m' (s.getLastD base) p (t.headD base)) : Ring m' base (s ++ t) := by
  obtain ⟨hs, ht, -, -⟩ := joined_mem.mp h.joined
  obtain ⟨hp, hnodup⟩ := List.nodup_cons.mp ((perm_mem base p s t).nodup_iff.mp h.nodup)
  have hne : ∀ {a}, a ∈ base :: (s ++ t) → a ≠ p := fun ha e => hp (e ▸ ha)
  obtain ⟨hs', ht'⟩ := isChain_parts hnodup
    (fun a ha hax => by rw [hr.next a (hne ha), if_neg hax])
    (fun a ha haz => by rw [hr.prev a (hne ha), if_neg haz]) hs ht
  refine ⟨hnodup, joined_split.mpr ⟨hs', ht', ?_, ?_⟩⟩
  · rw [hr.next _ (hne (getLastD_mem base s t)), if_pos rfl]
  · rw [hr.prev _ (hne (headD_mem base s t)), if_pos rfl]

theorem flip (h : Ring m base xs) : Ring m.flip base xs.reverse := by
  refine ⟨?_, ?_⟩
  · rw [List.nodup_cons, List.mem_reverse, List.nodup_reverse, ← List.nodup_cons]
    exact h.nodup
  · have hrev : (base :: xs ++ [base]).reverse = base :: xs.reverse ++ [base] := by simp
    rw [← hrev, List.isChain_reverse]
    exact h.joined.imp fun a b hab => ⟨hab.2, hab.1⟩

theorem leads_suffix (h : Ring m base (s ++ t)) : Leads m.next base (t.headD base) t := by
  induction t generalizing s with
  | nil => exact rfl
  | cons x t ih =>
    have hx : x ≠ base := by
      rintro rfl
      exact (List.nodup_cons.mp h.nodup).1 (List.mem_append_right s List.mem_cons_self)
    refine ⟨rfl, hx, t.headD base, h.next_mem, ih (s := s ++ [x]) ?_⟩
    rw [List.append_assoc]
    exact h

/-- **From the head, the `next` links lead through the nodes.** -/
theorem leads (h : Ring m base xs) : Leads m.next base (xs.headD base) xs := h.leads_suffix (s := [])

end Ring

end Fedis.Framework

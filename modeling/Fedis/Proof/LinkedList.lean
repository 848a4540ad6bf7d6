import Fedis.Framework.Run
import Fedis.Spec.ListSeq
import Mathlib.Data.List.Perm.Subperm

/-!
# The linked list is a sequence of nodes

A list is the ring of its nodes and of `NULL`, whose `next` and `prev` are `head` and `tail`
(`links`). So the first and the last node, and the only one, are like every other: an addition links
a node in between two neighbours, a deletion links the neighbours of a node to each other.
-/

namespace Fedis.Proof.LinkedList

open Framework

variable {V : Type}

/-! ## The links of a list -/

/-- The links of the nodes, and those of the list as the links of `NULL`. -/
def links (l : LinkedList V) : Links NodePtr where
  next p := p.elim (some l.head) fun a => (l.nodes a).map ListNode.next
  prev p := p.elim (some l.tail) fun a => (l.nodes a).map ListNode.prev

/-- The links change by `f`, and nothing else. -/
structure Edit (f : Links NodePtr → Links NodePtr) (l l' : LinkedList V) : Prop where
  links_eq : links l' = f (links l)
  len : l'.len = l.len
  free : l'.free = l.free
  value : ∀ a, (l'.nodes a).map ListNode.value = (l.nodes a).map ListNode.value

section Edits

variable {f g : Links NodePtr → Links NodePtr} {l l' : LinkedList V} {p q : NodePtr} {a : Addr}

theorem Edit.trans {l'' : LinkedList V} (h : Edit f l l') (h' : Edit g l' l'') :
    Edit (fun k => g (f k)) l l'' where
  links_eq := by rw [h'.links_eq, h.links_eq]
  len := h'.len.trans h.len
  free := h'.free.trans h.free
  value a := (h'.value a).trans (h.value a)

theorem Edit.loaded (h : Edit f l l') (ha : (l.nodes a).isSome) : (l'.nodes a).isSome := by
  rw [← Option.isSome_map (f := ListNode.value), h.value, Option.isSome_map]
  exact ha

/-- An edit that is made under a condition. -/
theorem Edit.ite {c d : Prop} [Decidable c] [Decidable d] (h : Edit f l l') (hcd : c ↔ d) :
    Edit (fun k => if d then f k else k) l (if c then l' else l) := by
  by_cases hc : c
  · simp only [if_pos hc, if_pos (hcd.mp hc)]
    exact h
  · simp only [if_neg hc, if_neg (mt hcd.mpr hc)]
    exact ⟨rfl, rfl, rfl, fun _ => rfl⟩

theorem Edit.congr (h : Edit f l l') (hnext : ∀ q, (f (links l)).next q = (g (links l)).next q)
    (hprev : ∀ q, (f (links l)).prev q = (g (links l)).prev q) : Edit g l l' :=
  ⟨h.links_eq.trans (Links.ext (funext hnext) (funext hprev)), h.len, h.free, h.value⟩

theorem edit_setHead (l : LinkedList V) (q : NodePtr) :
    Edit (·.setNext none q) l { l with head := q } := by
  refine ⟨?_, rfl, rfl, fun _ => rfl⟩
  simp only [links, Links.setNext, Links.mk.injEq, and_true]
  funext p
  cases p <;> rfl

theorem edit_setTail (l : LinkedList V) (q : NodePtr) :
    Edit (·.setPrev none q) l { l with tail := q } := by
  refine ⟨?_, rfl, rfl, fun _ => rfl⟩
  simp only [links, Links.setPrev, Links.mk.injEq, true_and]
  funext p
  cases p <;> rfl

/-- A link field of a memory after a node has been written. -/
theorem elim_update (f : ListNode V → NodePtr) (e : Option NodePtr) (n : ListNode V) :
    (fun p : NodePtr => p.elim e fun b => (Function.update l.nodes a (some n) b).map f) =
      Function.update (fun p : NodePtr => p.elim e fun b => (l.nodes b).map f) (some a)
        (some (f n)) := by
  funext p
  cases p with
  | none => rfl
  | some b =>
    by_cases hb : b = a
    · subst hb
      simp
    · simp [Function.update_of_ne hb, Function.update_of_ne ((Option.some_injective _).ne hb)]

/-- A node is written and keeps its value. -/
theorem edit_node {n : ListNode V} (n' : ListNode V) (hn : l.nodes a = some n) (hv : n'.value = n.value) :
    Edit (fun k => ⟨Function.update k.next (some a) (some n'.next),
      Function.update k.prev (some a) (some n'.prev)⟩)
      l { l with nodes := Function.update l.nodes a (some n') } := by
  refine ⟨?_, rfl, rfl, fun b => ?_⟩
  · simp only [links, elim_update]
  · by_cases hb : b = a
    · subst hb
      simp [hn, hv]
    · simp [Function.update_of_ne hb]

theorem setNext_ok (q : NodePtr) (ha : (l.nodes a).isSome) :
    ∃ l', l.setNext (some a) q = some l' ∧ Edit (·.setNext (some a) q) l l' := by
  obtain ⟨n, hn⟩ := Option.isSome_iff_exists.mp ha
  have e := edit_node { n with next := q } hn rfl
  refine ⟨{ l with nodes := Function.update l.nodes a (some { n with next := q }) }, ?_, ?_⟩
  · simp only [LinkedList.setNext, Option.bind_some, hn, Option.map_some]
  · have hprev : (links l).prev (some a) = some n.prev := by
      simp only [links, Option.elim_some, hn, Option.map_some]
    refine ⟨?_, rfl, rfl, e.value⟩
    rw [e.links_eq, ← hprev, Function.update_eq_self]
    rfl

theorem setPrev_ok (q : NodePtr) (ha : (l.nodes a).isSome) :
    ∃ l', l.setPrev (some a) q = some l' ∧ Edit (·.setPrev (some a) q) l l' := by
  obtain ⟨n, hn⟩ := Option.isSome_iff_exists.mp ha
  have e := edit_node { n with prev := q } hn rfl
  refine ⟨{ l with nodes := Function.update l.nodes a (some { n with prev := q }) }, ?_, ?_⟩
  · simp only [LinkedList.setPrev, Option.bind_some, hn, Option.map_some]
  · have hnext : (links l).next (some a) = some n.next := by
      simp only [links, Option.elim_some, hn, Option.map_some]
    refine ⟨?_, rfl, rfl, e.value⟩
    rw [e.links_eq, ← hnext, Function.update_eq_self]
    rfl

/-- The ends of a list are the links of `NULL`. -/
theorem Edit.head (h : Edit f l l') (hf : (f (links l)).next none = some q) : l'.head = q := by
  rw [← h.links_eq] at hf
  exact Option.some.inj hf

theorem Edit.tail (h : Edit f l l') (hf : (f (links l)).prev none = some q) : l'.tail = q := by
  rw [← h.links_eq] at hf
  exact Option.some.inj hf

/-- What a pointer to a node with a known link leads to. -/
theorem load_next (h : (links l).next (some a) = some q) :
    ∃ n, l.load (some a) = some n ∧ n.next = q := Option.map_eq_some_iff.mp h

theorem load_prev (h : (links l).prev (some a) = some q) :
    ∃ n, l.load (some a) = some n ∧ n.prev = q := Option.map_eq_some_iff.mp h

end Edits

/-! ## The sequence of a list -/

/-- The list has these nodes, and the memory these values. -/
structure Represents (l : LinkedList V) (m : ListSeq V) : Prop where
  ring : Ring (links l) none (m.nodes.map some)
  len : l.len.toNat = m.nodes.length
  value : ∀ a, (l.nodes a).map ListNode.value = m.value a

theorem getLastD_map_some (as : List Addr) : (as.map some).getLastD none = as.getLast? := by
  rw [List.getLastD_eq_getLast?, List.getLast?_map]
  cases as.getLast? <;> rfl

theorem headD_map_some (as : List Addr) : (as.map some).headD none = as.head? := by
  cases as <;> rfl

/-- There are fewer nodes than addresses. -/
theorem length_lt {as : List Addr} (h : as.Nodup) : as.length < 2 ^ 64 := by
  have hnodup : (0 :: as.map Subtype.val).Nodup := by
    refine List.nodup_cons.mpr ⟨fun hmem => ?_, h.map Subtype.val_injective⟩
    obtain ⟨a, -, ha⟩ := List.mem_map.mp hmem
    exact a.2 ha
  have hnat := hnodup.map fun _ _ e => UInt64.toNat_inj.mp e
  have hsub : (0 :: as.map Subtype.val).map UInt64.toNat ⊆ List.range (2 ^ 64) := by
    intro n hn
    obtain ⟨a, -, rfl⟩ := List.mem_map.mp hn
    exact List.mem_range.mpr a.toNat_lt
  have hle := (List.subperm_of_subset hnat hsub).length_le
  rw [List.length_map, List.length_cons, List.length_map, List.length_range] at hle
  exact hle

namespace Represents

variable {l l' : LinkedList V} {m : ListSeq V} {a : Addr} {s t : List Addr}

theorem nodup (h : Represents l m) : m.nodes.Nodup :=
  (List.nodup_cons.mp h.ring.nodup).2.of_map some

theorem next_none (h : Represents l m) : (links l).next none = some m.nodes.head? := by
  rw [h.ring.next_base, headD_map_some]

theorem prev_none (h : Represents l m) : (links l).prev none = some m.nodes.getLast? := by
  rw [h.ring.prev_base, getLastD_map_some]

theorem head (h : Represents l m) : l.head = m.nodes.head? := Option.some.inj h.next_none

theorem tail (h : Represents l m) : l.tail = m.nodes.getLast? := Option.some.inj h.prev_none

section Member

variable (h : Represents l m) (hm : m.nodes = s ++ a :: t)

include h hm

theorem next : (links l).next (some a) = some t.head? := by
  have hr := h.ring
  rw [hm, List.map_append, List.map_cons] at hr
  rw [hr.next_mem, headD_map_some]

theorem prev : (links l).prev (some a) = some s.getLast? := by
  have hr := h.ring
  rw [hm, List.map_append, List.map_cons] at hr
  rw [hr.prev_mem, getLastD_map_some]

end Member

/-- A node of the list is allocated. -/
theorem loaded (h : Represents l m) (ha : a ∈ m.nodes) : (l.nodes a).isSome := by
  obtain ⟨s, t, hm⟩ := List.mem_iff_append.mp ha
  obtain ⟨n, hn, -⟩ := load_next (h.next hm)
  exact Option.isSome_iff_exists.mpr ⟨n, hn⟩

theorem fresh_loaded (h : Represents l m) (ha : m.Fresh a) : (l.nodes a).isSome := by
  rw [← Option.isSome_map (f := ListNode.value), h.value]
  exact ha.1

/-- A node has been linked in, and counted. -/
theorem insert (h : Represents l m) (hm : m.nodes = s ++ t) (ha : a ∉ m.nodes)
    (hi : (links l).Inserts (links l') s.getLast? (some a) t.head?) (hlen : l'.len = l.len + 1)
    (hval : ∀ b, (l'.nodes b).map ListNode.value = (l.nodes b).map ListNode.value) :
    Represents l' { m with nodes := s ++ a :: t } := by
  have hr := h.ring
  rw [hm, List.map_append] at hr
  rw [← getLastD_map_some, ← headD_map_some] at hi
  have hring : Ring (links l') none ((s ++ a :: t).map some) := by
    rw [List.map_append, List.map_cons]
    refine hr.insert ?_ hi
    rw [← List.map_append, ← hm]
    simpa using ha
  have hlt := length_lt ((List.nodup_cons.mp hring.nodup).2.of_map some)
  have hlen' := h.len
  refine ⟨hring, ?_, fun b => (hval b).trans (h.value b)⟩
  rw [hm, List.length_append] at hlen'
  rw [List.length_append, List.length_cons] at hlt
  simp only [hlen, UInt64.toNat_add, UInt64.toNat_one, List.length_append, List.length_cons]
  omega

/-- A node has been unlinked, counted and freed. -/
theorem remove (h : Represents l m) (hm : m.nodes = s ++ a :: t)
    (hr : (links l).Removes (links l') s.getLast? (some a) t.head?) (hlen : l'.len = l.len - 1)
    (hval : ∀ b, (l'.nodes b).map ListNode.value = Function.update m.value a none b) :
    Represents l' ⟨s ++ t, Function.update m.value a none⟩ := by
  have hring := h.ring
  rw [hm, List.map_append, List.map_cons] at hring
  rw [← getLastD_map_some, ← headD_map_some] at hr
  refine ⟨?_, ?_, hval⟩
  · rw [List.map_append]
    exact hring.remove hr
  · have hlen' := h.len
    rw [hm, List.length_append, List.length_cons] at hlen'
    have hone : (1 : UInt64) ≤ l.len := by
      rw [UInt64.le_iff_toNat_le, UInt64.toNat_one]
      omega
    rw [hlen, UInt64.toNat_sub_of_le _ _ hone, UInt64.toNat_one, List.length_append]
    omega

theorem len_eq_zero (h : Represents l m) : l.len = 0 ↔ m.nodes = [] := by
  rw [← UInt64.toNat_inj, h.len]
  exact List.length_eq_zero_iff

end Represents

/-! ## Adding a node -/

/-- The last node of a list without repetitions has none behind it. -/
theorem getLast_iff {s t : List Addr} {a : Addr} (h : (s ++ a :: t).Nodup) :
    (s ++ a :: t).getLast? = some a ↔ t.head? = none := by
  rw [List.getLast?_append_cons]
  cases t with
  | nil => simp
  | cons b t =>
    rw [List.getLast?_cons_cons]
    simp only [List.head?_cons, reduceCtorEq, iff_false]
    intro e
    exact (List.nodup_cons.mp (List.nodup_append'.mp h).2.1).1 (List.mem_of_getLast? e)

/-- The first node has none before it. -/
theorem head_iff {s t : List Addr} {a : Addr} (h : (s ++ a :: t).Nodup) :
    (s ++ a :: t).head? = some a ↔ s.getLast? = none := by
  have hrev : (s ++ a :: t).reverse = t.reverse ++ a :: s.reverse := by simp
  rw [← List.nodup_reverse, hrev] at h
  have := getLast_iff h
  rw [← hrev, List.getLast?_reverse, List.head?_reverse] at this
  exact this

section Add

variable {l : LinkedList V} {m : ListSeq V} {a : Addr}

/-- Into the empty list. -/
theorem addFirst_ok (h : Represents l m) (ha : m.Fresh a) (hnil : m.nodes = []) :
    ∃ l₁ l₂, LinkedList.setNext { l with head := some a, tail := some a } (some a) NULL = some l₁ ∧
      l₁.setPrev (some a) NULL = some l₂ ∧
      Represents { l₂ with len := l₂.len + 1 } { m with nodes := [a] } := by
  have e₀ := (edit_setHead l (some a)).trans (edit_setTail { l with head := some a } (some a))
  obtain ⟨l₁, h₁, e₁⟩ := setNext_ok NULL (e₀.loaded (h.fresh_loaded ha))
  obtain ⟨l₂, h₂, e₂⟩ := setPrev_ok NULL ((e₀.trans e₁).loaded (h.fresh_loaded ha))
  have e := (e₀.trans e₁).trans e₂
  refine ⟨l₁, l₂, h₁, h₂, h.insert (s := []) hnil ha.2 ⟨fun q => ?_, fun q => ?_⟩ ?_ e.value⟩
  · show (links l₂).next q = _
    rw [e.links_eq]
    cases q <;> simp [NULL]
  · show (links l₂).prev q = _
    rw [e.links_eq]
    cases q <;> simp [NULL]
  · show l₂.len + 1 = l.len + 1
    rw [e.len]

/-- Before the head `b`. -/
theorem linkHead_ok {b : Addr} (ha : (l.nodes a).isSome) (hb : (l.nodes b).isSome)
    (hhead : l.head = some b) :
    ∃ l₁ l₂ l₃, l.setPrev (some a) NULL = some l₁ ∧ l₁.setNext (some a) l₁.head = some l₂ ∧
      l₂.setPrev l₂.head (some a) = some l₃ ∧ l₃.len = l.len ∧
      (links l).Inserts (links { l₃ with head := some a }) none (some a) (some b) ∧
      ∀ c, (l₃.nodes c).map ListNode.value = (l.nodes c).map ListNode.value := by
  have hnext : (links l).next none = some (some b) := congrArg some hhead
  obtain ⟨l₁, h₁, e₁⟩ := setPrev_ok NULL ha
  have hb₁ := e₁.head (q := some b) (by simpa using hnext)
  obtain ⟨l₂, h₂, e₂⟩ := setNext_ok l₁.head (e₁.loaded ha)
  have e₁₂ := e₁.trans e₂
  have hb₂ := e₁₂.head (q := some b) (by simpa using hnext)
  obtain ⟨l₃, h₃, e₃⟩ := setPrev_ok (some a) (e₁₂.loaded hb)
  rw [← hb₂] at h₃
  have e := (e₁₂.trans e₃).trans (edit_setHead l₃ (some a))
  refine ⟨l₁, l₂, l₃, h₁, h₂, h₃, e.len, ⟨fun q => ?_, fun q => ?_⟩, e.value⟩
  · rw [e.links_eq]
    simp [hb₁]
  · rw [e.links_eq]
    simp [NULL]

theorem addNodeHead_ok (h : Represents l m) (ha : m.Fresh a) :
    ∃ l', listAddNodeHead l (some a) = some l' ∧
      Represents l' { m with nodes := a :: m.nodes } := by
  by_cases hnil : m.nodes = []
  · obtain ⟨l₁, l₂, h₁, h₂, hr⟩ := addFirst_ok h ha hnil
    refine ⟨_, ?_, by rw [hnil]; exact hr⟩
    simp only [listAddNodeHead, if_pos (h.len_eq_zero.mpr hnil), Option.bind_eq_bind, h₁, h₂,
      Option.bind_some, Option.pure_def]
  · obtain ⟨b, t, hm⟩ := List.exists_cons_of_ne_nil hnil
    have hb : b ∈ m.nodes := hm ▸ List.mem_cons_self
    have hhead : l.head = some b := by rw [h.head, hm, List.head?_cons]
    obtain ⟨l₁, l₂, l₃, h₁, h₂, h₃, hlen, hi, hval⟩ :=
      linkHead_ok (h.fresh_loaded ha) (h.loaded hb) hhead
    rw [← List.head?_cons (a := b) (l := t), ← hm] at hi
    refine ⟨{ l₃ with head := some a, len := l₃.len + 1 }, ?_,
      h.insert (s := []) rfl ha.2 hi (congrArg (· + 1) hlen) hval⟩
    simp only [listAddNodeHead, if_neg (mt h.len_eq_zero.mp hnil), Option.bind_eq_bind, h₁, h₂, h₃,
      Option.bind_some, Option.pure_def]

theorem addNodeTail_ok (h : Represents l m) (ha : m.Fresh a) :
    ∃ l', listAddNodeTail l (some a) = some l' ∧
      Represents l' { m with nodes := m.nodes ++ [a] } := by
  by_cases hnil : m.nodes = []
  · obtain ⟨l₁, l₂, h₁, h₂, hr⟩ := addFirst_ok h ha hnil
    refine ⟨_, ?_, by rw [hnil]; exact hr⟩
    simp only [listAddNodeTail, if_pos (h.len_eq_zero.mpr hnil), Option.bind_eq_bind, h₁, h₂,
      Option.bind_some, Option.pure_def]
  · obtain ⟨s, b, hm⟩ := (List.eq_nil_or_concat' m.nodes).resolve_left hnil
    have hb : b ∈ m.nodes := hm ▸ List.mem_append_right s (List.mem_singleton_self b)
    have hb₀ : (links l).prev none = some (some b) := by
      show some l.tail = _
      rw [h.tail, hm, List.getLast?_concat]
    obtain ⟨l₁, h₁, e₁⟩ := setPrev_ok l.tail (h.fresh_loaded ha)
    obtain ⟨l₂, h₂, e₂⟩ := setNext_ok NULL (e₁.loaded (h.fresh_loaded ha))
    have e₁₂ := e₁.trans e₂
    have hb₂ := e₁₂.tail (q := some b) (by simpa using hb₀)
    obtain ⟨l₃, h₃, e₃⟩ := setNext_ok (some a) (e₁₂.loaded (h.loaded hb))
    have e := (e₁₂.trans e₃).trans (edit_setTail l₃ (some a))
    refine ⟨{ l₃ with tail := some a, len := l₃.len + 1 }, ?_,
      h.insert (t := []) (List.append_nil _).symm ha.2 ⟨fun q => ?_, fun q => ?_⟩
        (congrArg (· + 1) e.len) e.value⟩
    · simp only [listAddNodeTail, if_neg (mt h.len_eq_zero.mp hnil), Option.bind_eq_bind, h₁, h₂,
        hb₂, h₃, Option.bind_some, Option.pure_def]
    · show (links { l₃ with tail := some a }).next q = _
      rw [e.links_eq]
      simp [hm, NULL]
    · show (links { l₃ with tail := some a }).prev q = _
      rw [e.links_eq]
      simp [h.tail, hm, NULL]

/-! `listInsertNode` first links the new node to its neighbours (`placed`), then these to it. -/

/-- The node `a` knows its neighbours `x` and `z`, and so does the list. -/
def placed (x z : NodePtr) (a : Addr) (k : Links NodePtr) : Links NodePtr where
  next q := if q = none ∧ x = none then some (some a) else if q = some a then some z else k.next q
  prev q := if q = none ∧ z = none then some (some a) else if q = some a then some x else k.prev q

variable {s t : List Addr} {old : Addr} {after : Int}

theorem insertLinks_behind (h : Represents l m) (ha : m.Fresh a) (hm : m.nodes = s ++ old :: t)
    (hafter : after ≠ 0) :
    ∃ l', listInsertLinks l (some old) (some a) after = some l' ∧
      Edit (placed (some old) t.head? a) l l' := by
  have hold : old ∈ m.nodes := hm ▸ List.mem_append_right s List.mem_cons_self
  have hne : old ≠ a := fun e => ha.2 (e ▸ hold)
  obtain ⟨l₁, h₁, e₁⟩ := setPrev_ok (some old) (h.fresh_loaded ha)
  have hnext : (links l₁).next (some old) = some t.head? := by
    rw [e₁.links_eq]
    exact h.next hm
  obtain ⟨n, hn, hz⟩ := load_next hnext
  obtain ⟨l₂, h₂, e₂⟩ := setNext_ok t.head? (e₁.loaded (h.fresh_loaded ha))
  have e₁₂ := e₁.trans e₂
  have htail : l₂.tail = m.nodes.getLast? := e₁₂.tail (by simpa using h.prev_none)
  -- the tail moves if `old` was the last node
  have hlast : l₂.tail = some old ↔ t.head? = none := by
    rw [htail, hm]
    exact getLast_iff (hm ▸ h.nodup)
  refine ⟨_, ?_, (e₁₂.trans ((edit_setTail l₂ (some a)).ite hlast)).congr ?_ ?_⟩
  · simp only [listInsertLinks, if_pos hafter, Option.bind_eq_bind, h₁, Option.bind_some, hn, hz,
      h₂, Option.pure_def]
  · intro q
    simp only [placed]
    split <;> simp
  · intro q
    by_cases hend : t.head? = none <;> simp [placed, hend]

theorem insertLinks_before (h : Represents l m) (ha : m.Fresh a) (hm : m.nodes = s ++ old :: t) :
    ∃ l', listInsertLinks l (some old) (some a) 0 = some l' ∧
      Edit (placed s.getLast? (some old) a) l l' := by
  have hold : old ∈ m.nodes := hm ▸ List.mem_append_right s List.mem_cons_self
  have hne : old ≠ a := fun e => ha.2 (e ▸ hold)
  obtain ⟨l₁, h₁, e₁⟩ := setNext_ok (some old) (h.fresh_loaded ha)
  have hprev : (links l₁).prev (some old) = some s.getLast? := by
    rw [e₁.links_eq]
    exact h.prev hm
  obtain ⟨n, hn, hx⟩ := load_prev hprev
  obtain ⟨l₂, h₂, e₂⟩ := setPrev_ok s.getLast? (e₁.loaded (h.fresh_loaded ha))
  have e₁₂ := e₁.trans e₂
  have hhead : l₂.head = m.nodes.head? := e₁₂.head (by simpa using h.next_none)
  -- the head moves if `old` was the first node
  have hfirst : l₂.head = some old ↔ s.getLast? = none := by
    rw [hhead, hm]
    exact head_iff (hm ▸ h.nodup)
  refine ⟨_, ?_, (e₁₂.trans ((edit_setHead l₂ (some a)).ite hfirst)).congr ?_ ?_⟩
  · simp only [listInsertLinks, Option.bind_eq_bind, h₁, Option.bind_some, hn, hx, h₂,
      Option.pure_def]
    rfl
  · intro q
    by_cases hend : s.getLast? = none <;> simp [placed, hend]
  · intro q
    simp only [placed]
    split <;> simp

/-- The neighbours that are nodes are linked to the new node. -/
theorem setNext_or {l : LinkedList V} {x : NodePtr} (q : NodePtr)
    (hx : ∀ b ∈ x, (l.nodes b).isSome) :
    ∃ l', (if x ≠ NULL then l.setNext x q else some l) = some l' ∧
      Edit (fun k => if x = none then k else k.setNext x q) l l' := by
  cases x with
  | none => exact ⟨l, rfl, rfl, rfl, rfl, fun _ => rfl⟩
  | some b => exact setNext_ok q (hx b rfl)

theorem setPrev_or {l : LinkedList V} {x : NodePtr} (q : NodePtr)
    (hx : ∀ b ∈ x, (l.nodes b).isSome) :
    ∃ l', (if x ≠ NULL then l.setPrev x q else some l) = some l' ∧
      Edit (fun k => if x = none then k else k.setPrev x q) l l' := by
  cases x with
  | none => exact ⟨l, rfl, rfl, rfl, rfl, fun _ => rfl⟩
  | some b => exact setPrev_ok q (hx b rfl)

theorem insertNode_ok {l₁ : LinkedList V} (h : Represents l m) (ha : m.Fresh a)
    (hm : m.nodes = s ++ t) (h₁ : listInsertLinks l (some old) (some a) after = some l₁)
    (e₁ : Edit (placed s.getLast? t.head? a) l l₁) :
    ∃ l', listInsertNode l (some old) (some a) after = some l' ∧
      Represents l' { m with nodes := s ++ a :: t } := by
  have hs : ∀ b ∈ s.getLast?, b ∈ m.nodes := fun b hb =>
    hm ▸ List.mem_append_left t (List.mem_of_getLast? hb)
  have ht : ∀ b ∈ t.head?, b ∈ m.nodes := fun b hb =>
    hm ▸ List.mem_append_right s (List.mem_of_head? hb)
  have hsa : s.getLast? ≠ some a := fun e => ha.2 (hs a e)
  have hta : t.head? ≠ some a := fun e => ha.2 (ht a e)
  have hprev : (links l₁).prev (some a) = some s.getLast? := by
    rw [e₁.links_eq]
    simp [placed]
  obtain ⟨n, hn, hx⟩ := load_prev hprev
  obtain ⟨l₂, h₂, e₂⟩ := setNext_or (some a) fun b hb => e₁.loaded (h.loaded (hs b hb))
  have e₁₂ := e₁.trans e₂
  have hnext : (links l₂).next (some a) = some t.head? := by
    rw [e₁₂.links_eq]
    simp only [placed]
    split <;> simp [hsa.symm]
  obtain ⟨n', hn', hz⟩ := load_next hnext
  obtain ⟨l₃, h₃, e₃⟩ := setPrev_or (some a) fun b hb => e₁₂.loaded (h.loaded (ht b hb))
  have e := e₁₂.trans e₃
  refine ⟨{ l₃ with len := l₃.len + 1 }, ?_,
    h.insert hm ha.2 ⟨fun q => ?_, fun q => ?_⟩ (congrArg (· + 1) e.len) e.value⟩
  · simp only [listInsertNode, h₁, Option.bind_eq_bind, Option.bind_some, hn, hx, h₂, hn', hz, h₃,
      Option.pure_def]
  · show (links l₃).next q = _
    rw [e.links_eq]
    cases hx : s.getLast? <;> cases hz : t.head? <;> simp [placed]
  · show (links l₃).prev q = _
    rw [e.links_eq]
    cases hx : s.getLast? <;> cases hz : t.head? <;> simp [placed]

theorem insertBehind_split (hs : old ∉ s) :
    insertBehind old a (s ++ old :: t) = s ++ old :: a :: t := by
  induction s with
  | nil => exact if_pos rfl
  | cons b s ih =>
    obtain ⟨hb, hs⟩ := not_or.mp (mt List.mem_cons.mpr hs)
    rw [List.cons_append, insertBehind, if_neg (Ne.symm hb), ih hs, List.cons_append]

theorem insertBefore_split (hs : old ∉ s) :
    insertBefore old a (s ++ old :: t) = s ++ a :: old :: t := by
  induction s with
  | nil => exact if_pos rfl
  | cons b s ih =>
    obtain ⟨hb, hs⟩ := not_or.mp (mt List.mem_cons.mpr hs)
    rw [List.cons_append, insertBefore, if_neg (Ne.symm hb), ih hs, List.cons_append]

/-- A node of the list, with the nodes before it and behind it. -/
theorem Represents.split (h : Represents l m) (hold : old ∈ m.nodes) :
    ∃ s t, m.nodes = s ++ old :: t ∧ old ∉ s := by
  obtain ⟨s, t, hm⟩ := List.mem_iff_append.mp hold
  have hnodup := h.nodup
  rw [hm] at hnodup
  exact ⟨s, t, hm, fun hs => (List.nodup_append'.mp hnodup).2.2 hs List.mem_cons_self⟩

theorem insertNode_behind (h : Represents l m) (ha : m.Fresh a) (hold : old ∈ m.nodes)
    (hafter : after ≠ 0) :
    ∃ l', listInsertNode l (some old) (some a) after = some l' ∧
      Represents l' { m with nodes := insertBehind old a m.nodes } := by
  obtain ⟨s, t, hm, hs⟩ := h.split hold
  obtain ⟨l₁, h₁, e₁⟩ := insertLinks_behind h ha hm hafter
  rw [← List.getLast?_concat (l := s)] at e₁
  rw [List.append_cons] at hm
  obtain ⟨l', hl', hr⟩ := insertNode_ok h ha hm h₁ e₁
  refine ⟨l', hl', ?_⟩
  rw [hm, ← List.append_cons, insertBehind_split hs, List.append_cons]
  exact hr

theorem insertNode_before (h : Represents l m) (ha : m.Fresh a) (hold : old ∈ m.nodes) :
    ∃ l', listInsertNode l (some old) (some a) 0 = some l' ∧
      Represents l' { m with nodes := insertBefore old a m.nodes } := by
  obtain ⟨s, t, hm, hs⟩ := h.split hold
  obtain ⟨l₁, h₁, e₁⟩ := insertLinks_before h ha hm
  obtain ⟨l', hl', hr⟩ := insertNode_ok (t := old :: t) h ha hm h₁ e₁
  refine ⟨l', hl', ?_⟩
  rw [hm, insertBefore_split hs]
  exact hr

end Add

/-! ## Deleting a node -/

section Delete

variable {l : LinkedList V} {m : ListSeq V} {a : Addr} {s t : List Addr}

/-- The link of a neighbour, or of the list. -/
theorem setNext_orHead {l : LinkedList V} {x : NodePtr} (q : NodePtr)
    (hx : ∀ b ∈ x, (l.nodes b).isSome) :
    ∃ l', (if x ≠ NULL then l.setNext x q else some { l with head := q }) = some l' ∧
      Edit (·.setNext x q) l l' := by
  cases x with
  | none => exact ⟨_, rfl, edit_setHead l q⟩
  | some b => exact setNext_ok q (hx b rfl)

theorem setPrev_orTail {l : LinkedList V} {x : NodePtr} (q : NodePtr)
    (hx : ∀ b ∈ x, (l.nodes b).isSome) :
    ∃ l', (if x ≠ NULL then l.setPrev x q else some { l with tail := q }) = some l' ∧
      Edit (·.setPrev x q) l l' := by
  cases x with
  | none => exact ⟨_, rfl, edit_setTail l q⟩
  | some b => exact setPrev_ok q (hx b rfl)

theorem unlinkNode_ok (h : Represents l m) (hm : m.nodes = s ++ a :: t) :
    ∃ l', listUnlinkNode l (some a) = some l' ∧
      Edit (fun k => (k.setNext s.getLast? t.head?).setPrev t.head? s.getLast?) l l' := by
  have hs : ∀ b ∈ s.getLast?, b ∈ m.nodes := fun b hb =>
    hm ▸ List.mem_append_left _ (List.mem_of_getLast? hb)
  have ht : ∀ b ∈ t.head?, b ∈ m.nodes := fun b hb =>
    hm ▸ List.mem_append_right s (List.mem_cons_of_mem a (List.mem_of_head? hb))
  have hnodup := h.nodup
  rw [hm] at hnodup
  have hsa : s.getLast? ≠ some a := fun e =>
    (List.nodup_append'.mp hnodup).2.2 (List.mem_of_getLast? e) List.mem_cons_self
  obtain ⟨n, hn, hz⟩ := load_next (h.next hm)
  obtain ⟨n₀, hn₀, hx⟩ := load_prev (h.prev hm)
  cases hn.symm.trans hn₀
  obtain ⟨l₁, h₁, e₁⟩ := setNext_orHead t.head? fun b hb => h.loaded (hs b hb)
  have hnext : (links l₁).next (some a) = some t.head? := by
    rw [e₁.links_eq, Links.next_setNext, if_neg hsa.symm]
    exact h.next hm
  have hprev : (links l₁).prev (some a) = some s.getLast? := by
    rw [e₁.links_eq]
    exact h.prev hm
  obtain ⟨n', hn', hz'⟩ := load_next hnext
  obtain ⟨n₁, hn₁, hx'⟩ := load_prev hprev
  cases hn'.symm.trans hn₁
  obtain ⟨l₂, h₂, e₂⟩ := setPrev_orTail s.getLast? fun b hb => e₁.loaded (h.loaded (ht b hb))
  refine ⟨l₂, ?_, e₁.trans e₂⟩
  simp only [listUnlinkNode, hn, Option.bind_eq_bind, Option.bind_some, hx, hz, h₁, hn', hz', hx', h₂]

/-- The links of the other nodes, after `a` is freed. -/
theorem links_free (l : LinkedList V) {q : NodePtr} (hq : q ≠ some a) {n : UInt64} {freed : List V} :
    (links { l with nodes := Function.update l.nodes a none, len := n, freed := freed }).next q =
        (links l).next q ∧
      (links { l with nodes := Function.update l.nodes a none, len := n, freed := freed }).prev q =
        (links l).prev q := by
  cases q with
  | none => exact ⟨rfl, rfl⟩
  | some b =>
    have hb : b ≠ a := fun e => hq (congrArg some e)
    simp [links, Function.update_of_ne hb]

theorem delNode_ok (h : Represents l m) (ha : a ∈ m.nodes) :
    ∃ l', listDelNode l (some a) = some l' ∧
      Represents l' ⟨m.nodes.erase a, Function.update m.value a none⟩ := by
  obtain ⟨s, t, hm, hs⟩ := h.split ha
  obtain ⟨l₁, h₁, e₁⟩ := unlinkNode_ok h hm
  obtain ⟨n, hn⟩ := Option.isSome_iff_exists.mp (e₁.loaded (h.loaded ha))
  have herase : m.nodes.erase a = s ++ t := by
    rw [hm, List.erase_append_right _ hs, List.erase_cons_head]
  refine ⟨{ l₁ with
    freed := if l₁.free then l₁.freed ++ [n.value] else l₁.freed
    nodes := Function.update l₁.nodes a none
    len := l₁.len - 1 }, ?_, ?_⟩
  · simp only [listDelNode, h₁, Option.bind_eq_bind, Option.bind_some, hn, Option.pure_def]
  · rw [herase]
    refine h.remove hm ⟨fun q hq => ?_, fun q hq => ?_⟩ (congrArg (· - 1) e₁.len) fun b => ?_
    · rw [(links_free l₁ hq).1, e₁.links_eq]
      simp
    · rw [(links_free l₁ hq).2, e₁.links_eq]
      simp
    · by_cases hb : b = a
      · subst hb
        simp
      · simp only [Function.update_of_ne hb]
        exact (e₁.value b).trans (h.value b)

end Delete

/-! ## Rotating -/

section Rotate

variable {l : LinkedList V} {m : ListSeq V} {a : Addr} {s : List Addr}

theorem rotated_short : ∀ {as : List Addr}, as.length ≤ 1 → rotated as = as
  | [], _ => rfl
  | [_], _ => rfl
  | _ :: _ :: _, h => by simp at h

/-- The tail is unlinked from the end of the ring. -/
theorem unlinkTail_ok {y : Addr} (h : Represents l m) (hm : m.nodes = s ++ [a])
    (hlast : s.getLast? = some y) :
    ∃ l₁, LinkedList.setNext { l with tail := some y } (some y) NULL = some l₁ ∧
      Edit (fun k => (k.setPrev none (some y)).setNext (some y) none) l l₁ ∧
      Ring (links l₁) none (s.map some) := by
  have hy : y ∈ m.nodes := hm ▸ List.mem_append_left [a] (List.mem_of_getLast? hlast)
  have e₀ := edit_setTail l (some y)
  obtain ⟨l₁, h₁, e₁⟩ := setNext_ok NULL (e₀.loaded (h.loaded hy))
  have e := e₀.trans e₁
  have hring := h.ring
  rw [hm, List.map_append, List.map_singleton] at hring
  refine ⟨l₁, h₁, e, ?_⟩
  rw [← List.append_nil (List.map some s)]
  refine hring.remove ⟨fun q hq => ?_, fun q hq => ?_⟩
  · rw [e.links_eq, getLastD_map_some, hlast]
    simp [NULL]
  · rw [e.links_eq, getLastD_map_some, hlast]
    simp

/-- The tail is unlinked, and then linked in before the head. -/
theorem rotate_long {b : Addr} {t : List Addr} (h : Represents l m)
    (hm : m.nodes = b :: t ++ [a]) :
    ∃ l', listRotate l = some l' ∧ Represents l' { m with nodes := a :: b :: t } := by
  have hlen := h.len
  rw [hm, List.length_append, List.length_singleton] at hlen
  have hgt : ¬ l.len ≤ 1 := by
    rw [UInt64.le_iff_toNat_le, hlen, UInt64.toNat_one, List.length_cons]
    omega
  have ha : a ∈ m.nodes := hm ▸ List.mem_append_right _ (List.mem_singleton_self a)
  have hb : b ∈ m.nodes := hm ▸ List.mem_append_left _ List.mem_cons_self
  have hnew : a ∉ b :: t := by
    have hnodup := h.nodup
    rw [hm] at hnodup
    exact fun hmem => (List.nodup_append'.mp hnodup).2.2 hmem (List.mem_singleton_self a)
  obtain ⟨y, hlast⟩ : ∃ y, (b :: t).getLast? = some y :=
    ⟨_, List.getLast?_eq_some_getLast (List.cons_ne_nil b t)⟩
  have htail : l.tail = some a := by rw [h.tail, hm, List.getLast?_concat]
  obtain ⟨n, hn, hx⟩ := load_prev (h.prev (t := []) hm)
  rw [hlast] at hx
  obtain ⟨l₁, h₁, e₁, hring₁⟩ := unlinkTail_ok h hm hlast
  have hhead₁ : l₁.head = some b := by
    have hnext := hring₁.next_base
    rw [headD_map_some, List.head?_cons] at hnext
    exact Option.some.inj hnext
  obtain ⟨l₂, l₃, l₄, h₂, h₃, h₄, hlen₄, hi, hval⟩ :=
    linkHead_ok (e₁.loaded (h.loaded ha)) (e₁.loaded (h.loaded hb)) hhead₁
  refine ⟨{ l₄ with head := some a }, ?_, ?_, ?_, ?_⟩
  · simp only [listRotate, if_neg hgt, Option.bind_eq_bind, htail, hn, Option.bind_some, hx, h₁, h₂,
      h₃, h₄, Option.pure_def]
  · exact hring₁.insert (s := []) (by simpa using hnew) hi
  · show l₄.len.toNat = _
    rw [hlen₄, e₁.len, hlen]
    rfl
  · exact fun c => ((hval c).trans (e₁.value c)).trans (h.value c)

theorem rotate_ok (h : Represents l m) :
    ∃ l', listRotate l = some l' ∧ Represents l' { m with nodes := rotated m.nodes } := by
  by_cases hlen : m.nodes.length ≤ 1
  · have hle : l.len ≤ 1 := by
      rw [UInt64.le_iff_toNat_le, h.len]
      exact hlen
    refine ⟨l, by simp only [listRotate, if_pos hle, Option.pure_def], ?_⟩
    rw [rotated_short hlen]
    exact h
  · have hnil : m.nodes ≠ [] := fun hnil => hlen (by rw [hnil]; exact Nat.zero_le 1)
    obtain ⟨s, a, hm⟩ := (List.eq_nil_or_concat' m.nodes).resolve_left hnil
    obtain ⟨b, t, rfl⟩ : ∃ b t, s = b :: t := List.exists_cons_of_ne_nil fun hs => by
      rw [hm, hs] at hlen
      exact hlen (Nat.le_refl 1)
    rw [show rotated m.nodes = a :: b :: t by
      rw [hm, rotated, List.getLast?_concat, List.dropLast_concat]
      rfl]
    exact rotate_long h hm

end Rotate

/-! ## Indexing -/

section Index

variable {l : LinkedList V} {m : ListSeq V}

/-- The loop stops at the node with that index, or at `NULL`. -/
theorem walk_ok (link : ListNode V → NodePtr) :
    ∀ {as : List Addr} {p : NodePtr}, Leads (fun p => (l.load p).map link) none p (as.map some) →
      ∀ n, l.walk link n p = some as[n]?
  | [], _, hp, n => by
    cases hp
    cases n <;> rfl
  | a :: as, _, ⟨hp, _, q, hq, hrest⟩, n => by
    subst hp
    cases n with
    | zero => rfl
    | succ n =>
      obtain ⟨node, hnode, rfl⟩ := Option.map_eq_some_iff.mp hq
      rw [LinkedList.walk, if_neg (show ¬ some a = NULL from Option.some_ne_none a), hnode, Option.bind_some,
        walk_ok link hrest n, List.getElem?_cons_succ]

theorem leads_next (h : Represents l m) :
    Leads (fun p => (l.load p).map ListNode.next) none l.head (m.nodes.map some) := by
  have hl := h.ring.leads
  rw [headD_map_some, ← h.head] at hl
  refine hl.congr fun p hp => ?_
  cases p with
  | none => exact absurd rfl hp
  | some a => rfl

theorem leads_prev (h : Represents l m) :
    Leads (fun p => (l.load p).map ListNode.prev) none l.tail (m.nodes.reverse.map some) := by
  have hl := h.ring.flip.leads
  rw [← List.map_reverse, headD_map_some, List.head?_reverse, ← h.tail] at hl
  refine hl.congr fun p hp => ?_
  cases p with
  | none => exact absurd rfl hp
  | some a => rfl

/-- The element at position `i` from the front, or at `-i - 1` from the back. -/
theorem index_ok (h : Represents l m) {i : Int} (hi : -2 ^ 31 < i) :
    listIndex l i =
      some (if 0 ≤ i then m.nodes[i.toNat]? else m.nodes.reverse[(-i - 1).toNat]?) := by
  unfold listIndex
  by_cases hneg : i < 0
  · rw [if_pos hneg, if_neg (by omega), if_neg (by omega)]
    exact walk_ok _ (leads_prev h) _
  · rw [if_neg hneg, if_pos (by omega)]
    exact walk_ok _ (leads_next h) _

end Index

/-! ## Runs -/

/-- The empty list, in any memory. -/
theorem represents_listCreate (nodes : Addr → Option (ListNode V)) (free : Bool) :
    Represents (listSetFreeMethod (listCreate nodes) free)
      ⟨[], fun a => (nodes a).map ListNode.value⟩ := by
  refine ⟨⟨List.nodup_singleton _, ?_⟩, rfl, fun _ => rfl⟩
  exact List.isChain_pair.mpr ⟨rfl, rfl⟩

theorem createNode_ok {l : LinkedList V} {m : ListSeq V} {a : Addr} {val : V} (h : Represents l m)
    (ha : m.value a = none) :
    Represents (listCreateNode l a val) { m with value := Function.update m.value a (some val) } := by
  have hnew : a ∉ m.nodes := fun hmem => by
    have := h.loaded hmem
    rw [← Option.isSome_map (f := ListNode.value), h.value, ha] at this
    cases this
  have hlinks : ∀ p ∈ none :: m.nodes.map some,
      (links (listCreateNode l a val)).next p = (links l).next p ∧
        (links (listCreateNode l a val)).prev p = (links l).prev p := by
    intro p hp
    cases p with
    | none => exact ⟨rfl, rfl⟩
    | some b =>
      have hb : b ≠ a := by
        rintro rfl
        exact hnew (by simpa using hp)
      simp [links, listCreateNode, Function.update_of_ne hb]
  refine ⟨h.ring.congr (fun p hp => (hlinks p hp).1) fun p hp => (hlinks p hp).2, h.len, fun b => ?_⟩
  by_cases hb : b = a
  · subst hb
    simp [listCreateNode]
  · simp only [listCreateNode, Function.update_of_ne hb]
    exact h.value b

/-- A call on the list is that on the sequence. -/
theorem call_refines (l : LinkedList V) (m : ListSeq V) (c : ListCall V) (r : Unit) (m' : ListSeq V)
    (h : Represents l m) (hc : seqCall m c = some (r, m')) :
    ∃ l', listCall l c = some (r, l') ∧ Represents l' m' := by
  have done : ∀ {o : Option (LinkedList V)} {m₁ : ListSeq V},
      (∃ l', o = some l' ∧ Represents l' m₁) → ∃ l', o.map ((), ·) = some (r, l') ∧ Represents l' m₁ := by
    rintro _ m₁ ⟨l', rfl, h'⟩
    exact ⟨l', rfl, h'⟩
  cases c with
  | createNode a val =>
    simp only [seqCall, Option.ite_none_right_eq_some, Option.some.injEq] at hc
    obtain ⟨ha, rfl, rfl⟩ := hc
    exact ⟨_, rfl, createNode_ok h (Option.isNone_iff_eq_none.mp ha)⟩
  | addNodeHead a =>
    simp only [seqCall, Option.ite_none_right_eq_some] at hc
    obtain ⟨ha, hc⟩ := hc
    cases hc
    exact done (addNodeHead_ok h ha)
  | addNodeTail a =>
    simp only [seqCall, Option.ite_none_right_eq_some] at hc
    obtain ⟨ha, hc⟩ := hc
    cases hc
    exact done (addNodeTail_ok h ha)
  | insertNode old a after =>
    simp only [seqCall, Option.ite_none_right_eq_some] at hc
    obtain ⟨⟨ha, hold⟩, hc⟩ := hc
    cases hc
    by_cases hafter : after = 0
    · subst hafter
      exact done (insertNode_before h ha hold)
    · rw [if_pos hafter]
      exact done (insertNode_behind h ha hold hafter)
  | delNode a =>
    simp only [seqCall, Option.ite_none_right_eq_some] at hc
    obtain ⟨ha, hc⟩ := hc
    cases hc
    exact done (delNode_ok h ha)
  | rotate =>
    cases hc
    exact done (rotate_ok h)

/-- What the list shows of its nodes. -/
structure Shows (l : LinkedList V) (m : ListSeq V) : Prop where
  forward : Leads (fun p => (l.load p).map ListNode.next) NULL l.head (m.nodes.map some)
  backward : Leads (fun p => (l.load p).map ListNode.prev) NULL l.tail (m.nodes.reverse.map some)
  len : l.len.toNat = m.nodes.length
  first : ∀ a ∈ m.nodes.head?, ∃ n, l.nodes a = some n ∧ n.prev = NULL
  last : ∀ a ∈ m.nodes.getLast?, ∃ n, l.nodes a = some n ∧ n.next = NULL
  value : ∀ a, (l.nodes a).map ListNode.value = m.value a
  index : ∀ i : Int, -2 ^ 31 < i → listIndex l i =
    some (if 0 ≤ i then m.nodes[i.toNat]? else m.nodes.reverse[(-i - 1).toNat]?)

theorem Represents.shows {l : LinkedList V} {m : ListSeq V} (h : Represents l m) : Shows l m where
  forward := leads_next h
  backward := leads_prev h
  len := h.len
  first a ha := by
    obtain ⟨t, hm⟩ := List.head?_eq_some_iff.mp ha
    exact load_prev (h.prev (s := []) hm)
  last a ha := by
    obtain ⟨s, hm⟩ := List.getLast?_eq_some_iff.mp ha
    exact load_next (h.next (t := []) hm)
  value := h.value
  index _ hi := index_ok h hi

/-- **The linked list is a sequence of nodes.** A run of calls on a new list that keep the rules is
defined, and the list it leaves shows the nodes of the sequence. -/
theorem list_sequence (nodes : Addr → Option (ListNode V)) (free : Bool) (calls : List (ListCall V))
    {rs : List Unit} {m : ListSeq V}
    (h : run seqCall ⟨[], fun a => (nodes a).map ListNode.value⟩ calls = some (rs, m)) :
    ∃ l, run listCall (listSetFreeMethod (listCreate nodes) free) calls = some (rs, l) ∧
      Shows l m := by
  obtain ⟨l, hl, hr⟩ := run_refines call_refines calls (represents_listCreate nodes free) h
  exact ⟨l, hl, hr.shows⟩

/-- Nodes are added at both ends and in between, the tail comes to the front, and a node goes. -/
theorem list_sequence_four : ∃ rs l m,
    run listCall (listSetFreeMethod (listCreate fun _ => none) true)
      [.createNode ⟨16, by decide⟩ 1, .createNode ⟨32, by decide⟩ 2, .addNodeTail ⟨32, by decide⟩,
        .addNodeHead ⟨16, by decide⟩, .createNode ⟨48, by decide⟩ 3,
        .insertNode ⟨32, by decide⟩ ⟨48, by decide⟩ 0, .createNode ⟨64, by decide⟩ 4,
        .insertNode ⟨32, by decide⟩ ⟨64, by decide⟩ 1, .rotate, .delNode ⟨16, by decide⟩] =
      some (rs, l) ∧ m.nodes.map Subtype.val = [64, 48, 32] ∧ Shows (V := Nat) l m := by
  obtain ⟨l, hl, hs⟩ := list_sequence (V := Nat) (fun _ => none) true
    [.createNode ⟨16, by decide⟩ 1, .createNode ⟨32, by decide⟩ 2, .addNodeTail ⟨32, by decide⟩,
      .addNodeHead ⟨16, by decide⟩, .createNode ⟨48, by decide⟩ 3,
      .insertNode ⟨32, by decide⟩ ⟨48, by decide⟩ 0, .createNode ⟨64, by decide⟩ 4,
      .insertNode ⟨32, by decide⟩ ⟨64, by decide⟩ 1, .rotate, .delNode ⟨16, by decide⟩] rfl
  exact ⟨_, l, _, hl, rfl, hs⟩

end Fedis.Proof.LinkedList

import Fedis.Framework.Ring
import Mathlib.Data.UInt

/-!
# Linked lists (`list.c`)

The nodes live in a memory that `malloc` and `free` change; `NULL` is `none`. A read or write
through `NULL` or through the address of no node is undefined.
-/

namespace Fedis

open Framework

/-- An address that `malloc` can return. -/
abbrev Addr := { p : UInt64 // p ≠ 0 }

/-- A `listNode *`. -/
abbrev NodePtr := Option Addr

def NULL : NodePtr := none

structure ListNode (V : Type) where
  prev : NodePtr
  next : NodePtr
  value : V
deriving DecidableEq, Repr

/-- A `list`, with the memory of the nodes. `free` says whether the list has a free method, `freed`
is the history of the values it was called on. -/
structure LinkedList (V : Type) where
  head : NodePtr
  tail : NodePtr
  len : UInt64
  free : Bool
  nodes : Addr → Option (ListNode V)
  freed : List V

section LinkedList

variable {V : Type}

namespace LinkedList

variable (l : LinkedList V)

/-- The node behind a pointer. -/
def load (p : NodePtr) : Option (ListNode V) := p.bind l.nodes

/-- `p->prev = q`. -/
def setPrev (p q : NodePtr) : Option (LinkedList V) :=
  p.bind fun a => (l.nodes a).map fun node =>
    { l with nodes := Function.update l.nodes a (some { node with prev := q }) }

/-- `p->next = q`. -/
def setNext (p q : NodePtr) : Option (LinkedList V) :=
  p.bind fun a => (l.nodes a).map fun node =>
    { l with nodes := Function.update l.nodes a (some { node with next := q }) }

end LinkedList

/-- `listCreate`, in a memory that may hold the nodes of other lists. -/
def listCreate (nodes : Addr → Option (ListNode V)) : LinkedList V where
  head := NULL
  tail := NULL
  len := 0
  free := false
  nodes := nodes
  freed := []

def listSetFreeMethod (l : LinkedList V) (free : Bool) : LinkedList V := { l with free := free }

/-- `listCreateNode`, if `malloc` returns the address `a`. -/
def listCreateNode (l : LinkedList V) (a : Addr) (val : V) : LinkedList V :=
  { l with nodes := Function.update l.nodes a (some ⟨NULL, NULL, val⟩) }

def listAddNodeHead (l : LinkedList V) (node : NodePtr) : Option (LinkedList V) := do
  if l.len = 0 then
    let l := { l with head := node, tail := node }
    let l ← l.setNext node NULL
    let l ← l.setPrev node NULL
    return { l with len := l.len + 1 }
  else
    let l ← l.setPrev node NULL
    let l ← l.setNext node l.head
    let l ← l.setPrev l.head node
    let l := { l with head := node }
    return { l with len := l.len + 1 }

def listAddNodeTail (l : LinkedList V) (node : NodePtr) : Option (LinkedList V) := do
  if l.len = 0 then
    let l := { l with head := node, tail := node }
    let l ← l.setNext node NULL
    let l ← l.setPrev node NULL
    return { l with len := l.len + 1 }
  else
    let l ← l.setPrev node l.tail
    let l ← l.setNext node NULL
    let l ← l.setNext l.tail node
    let l := { l with tail := node }
    return { l with len := l.len + 1 }

/-- The links that `listInsertNode` gives the new node, and the end of the list that moves to it. -/
def listInsertLinks (l : LinkedList V) (old_node new_node : NodePtr) (after : Int) :
    Option (LinkedList V) := do
  if after ≠ 0 then
    let l ← l.setPrev new_node old_node
    let l ← l.setNext new_node (← l.load old_node).next
    return if l.tail = old_node then { l with tail := new_node } else l
  else
    let l ← l.setNext new_node old_node
    let l ← l.setPrev new_node (← l.load old_node).prev
    return if l.head = old_node then { l with head := new_node } else l

def listInsertNode (l : LinkedList V) (old_node new_node : NodePtr) (after : Int) :
    Option (LinkedList V) := do
  let l ← listInsertLinks l old_node new_node after
  let prev := (← l.load new_node).prev
  let l ← (if prev ≠ NULL then l.setNext prev new_node else some l)
  let next := (← l.load new_node).next
  let l ← (if next ≠ NULL then l.setPrev next new_node else some l)
  return { l with len := l.len + 1 }

/-- The loop of `listIndex`, with `index` rounds to go. -/
def LinkedList.walk (l : LinkedList V) (link : ListNode V → NodePtr) : Nat → NodePtr → Option NodePtr
  | 0, node => some node
  | index + 1, node =>
    if node = NULL then some NULL else (l.load node).bind fun n => l.walk link index (link n)

/-- `listIndex`. The least `int` has no negation. -/
def listIndex (l : LinkedList V) (index : Int) : Option NodePtr :=
  if index < 0 then
    if index = -2 ^ 31 then none else l.walk ListNode.prev (-index - 1).toNat l.tail
  else l.walk ListNode.next index.toNat l.head

/-- The neighbours that `listDelNode` links to each other. -/
def listUnlinkNode (l : LinkedList V) (node : NodePtr) : Option (LinkedList V) := do
  let n ← l.load node
  let l ← (if n.prev ≠ NULL then l.setNext n.prev n.next else some { l with head := n.next })
  let n ← l.load node
  if n.next ≠ NULL then l.setPrev n.next n.prev else some { l with tail := n.prev }

def listDelNode (l : LinkedList V) (node : NodePtr) : Option (LinkedList V) := do
  let l ← listUnlinkNode l node
  let a ← node
  let n ← l.nodes a
  return { l with
    freed := if l.free then l.freed ++ [n.value] else l.freed
    nodes := Function.update l.nodes a none
    len := l.len - 1 }

def listRotate (l : LinkedList V) : Option (LinkedList V) := do
  let tail := l.tail
  if l.len ≤ 1 then return l
  let l := { l with tail := (← l.load tail).prev }
  let l ← l.setNext l.tail NULL
  let l ← l.setPrev tail NULL
  let l ← l.setNext tail l.head
  let l ← l.setPrev l.head tail
  return { l with head := tail }

/-! ## Calls -/

/-- A call on a list. -/
inductive ListCall (V : Type) where
  | createNode (a : Addr) (val : V)
  | addNodeHead (node : Addr)
  | addNodeTail (node : Addr)
  | insertNode (old_node new_node : Addr) (after : Int)
  | delNode (node : Addr)
  | rotate
deriving DecidableEq, Repr

def listCall (l : LinkedList V) : ListCall V → Option (Unit × LinkedList V)
  | .createNode a val => some ((), listCreateNode l a val)
  | .addNodeHead node => (listAddNodeHead l (some node)).map ((), ·)
  | .addNodeTail node => (listAddNodeTail l (some node)).map ((), ·)
  | .insertNode old_node new_node after =>
    (listInsertNode l (some old_node) (some new_node) after).map ((), ·)
  | .delNode node => (listDelNode l (some node)).map ((), ·)
  | .rotate => (listRotate l).map ((), ·)

end LinkedList

end Fedis

import Fedis.Impl.LinkedList

/-!
# What a linked list is for: a sequence of nodes

`seqCall` is a call on the sequence. It has no result where a caller breaks the rules: a new node
has a fresh address, a node that is added is allocated and not in the list, and a node that is named
is in it.
-/

namespace Fedis

/-- The sequence of a list's nodes, and the values of the nodes in memory. -/
structure ListSeq (V : Type) where
  nodes : List Addr
  value : Addr → Option V

section ListSeq

variable {V : Type}

/-- `x` behind the node `y` of the sequence. -/
def insertBehind (y x : Addr) : List Addr → List Addr
  | [] => []
  | a :: as => if a = y then a :: x :: as else a :: insertBehind y x as

/-- `x` before the node `y` of the sequence. -/
def insertBefore (y x : Addr) : List Addr → List Addr
  | [] => []
  | a :: as => if a = y then x :: a :: as else a :: insertBefore y x as

/-- The last node becomes the first. -/
def rotated (as : List Addr) : List Addr := as.getLast?.toList ++ as.dropLast

/-- A node that can be added. -/
def ListSeq.Fresh (m : ListSeq V) (a : Addr) : Prop := (m.value a).isSome ∧ a ∉ m.nodes

instance (m : ListSeq V) (a : Addr) : Decidable (m.Fresh a) := instDecidableAnd

def seqCall (m : ListSeq V) : ListCall V → Option (Unit × ListSeq V)
  | .createNode a val =>
    if (m.value a).isNone then some ((), { m with value := Function.update m.value a (some val) })
    else none
  | .addNodeHead node =>
    if m.Fresh node then some ((), { m with nodes := node :: m.nodes }) else none
  | .addNodeTail node =>
    if m.Fresh node then some ((), { m with nodes := m.nodes ++ [node] }) else none
  | .insertNode old_node new_node after =>
    if m.Fresh new_node ∧ old_node ∈ m.nodes then
      some ((), { m with
        nodes := if after ≠ 0 then insertBehind old_node new_node m.nodes
          else insertBefore old_node new_node m.nodes })
    else none
  | .delNode node =>
    if node ∈ m.nodes then
      some ((), ⟨m.nodes.erase node, Function.update m.value node none⟩)
    else none
  | .rotate => some ((), { m with nodes := rotated m.nodes })

end ListSeq

end Fedis

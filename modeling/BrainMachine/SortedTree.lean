import BrainMachine.RunQueue

set_option autoImplicit false

namespace BrainMachine.SortedTree
open RunQueue

abbrev ListTree := List Node

def insertNode (cmp : Node → Node → ℤ) (z : Node) : List Node → List Node
  | [] => [z]
  | x :: t => if cmp x z = 1 then z :: x :: t else x :: insertNode cmp z t

instance : RedBlackTree ListTree where
  create := []
  nodes := id
  insert cmp t z := insertNode cmp z t
  delete t z := t.erase z

theorem insertNode_split (cmp : Node → Node → ℤ) (z : Node) (t : List Node) :
    ∃ l r, t = l ++ r ∧ insertNode cmp z t = l ++ z :: r := by
  induction t with
  | nil => exact ⟨[], [], rfl, rfl⟩
  | cons x t ih =>
    rw [insertNode]
    split
    · exact ⟨[], x :: t, rfl, rfl⟩
    · obtain ⟨l, r, ht, hz⟩ := ih
      exact ⟨x :: l, r, by rw [ht]; rfl, by rw [hz]; rfl⟩

theorem mem_insertNode (cmp : Node → Node → ℤ) (z y : Node) (t : List Node) :
    y ∈ insertNode cmp z t ↔ y = z ∨ y ∈ t := by
  obtain ⟨l, r, rfl, h⟩ := insertNode_split cmp z t
  rw [h]
  simp only [List.mem_append, List.mem_cons]
  tauto

theorem insertNode_ordered (cmp : Node → Node → ℤ) (z : Node) (t : List Node)
    (hc : Comparison cmp) (ht : Ordered cmp t) : Ordered cmp (insertNode cmp z t) := by
  induction t with
  | nil => exact List.pairwise_singleton _ _
  | cons x t ih =>
    obtain ⟨hx, htail⟩ := List.pairwise_cons.1 ht
    rw [insertNode]
    split
    · rename_i hgt
      have hzx : cmp z x ≠ 1 := (hc.total z x).resolve_right fun h => h hgt
      refine List.pairwise_cons.2 ⟨fun y hy => ?_, ht⟩
      rcases List.mem_cons.1 hy with rfl | hy
      · exact hzx
      · exact hc.trans z x y hzx (hx y hy)
    · rename_i hle
      refine List.pairwise_cons.2 ⟨fun y hy => ?_, ih htail⟩
      rcases (mem_insertNode cmp z y t).1 hy with rfl | hy
      · exact hle
      · exact hx y hy

instance : LawfulTree ListTree where
  create_nodes := rfl
  insert_nodes cmp t z := insertNode_split cmp z t
  insert_ordered cmp t z hc ht := insertNode_ordered cmp z t hc ht
  delete_nodes _ _ _ := rfl

end BrainMachine.SortedTree

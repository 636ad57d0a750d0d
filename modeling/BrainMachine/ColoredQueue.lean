import BrainMachine.RunQueue
import BrainMachine.TreeMaps

set_option autoImplicit false

namespace BrainMachine.ColoredQueue
open ColoredTrees ColorTree TreeRepairs TreeMaps RunQueue

structure NodeTree where
  tree : ColorTree (ℕ × Node)
  serial : ℕ
  fresh : ∀ b ∈ tree.toList, b.1 < serial
  nodup : (tree.toList.map Prod.fst).Nodup
  balanced : ∃ n, Balanced tree false n

theorem NodeTree.values_nodup (t : NodeTree) : t.tree.toList.Nodup := t.nodup.of_map Prod.fst

def NodeTree.insert (cmp : Node → Node → ℤ) (t : NodeTree) (z : Node) : NodeTree where
  tree := TreeRepairs.insert (fun b => cmp b.2 z = 1) (t.serial, z) t.tree
  serial := t.serial + 1
  fresh := by
    intro b hb
    rcases insert_mem.1 hb with rfl | hb
    · exact Nat.lt_succ_self _
    · exact Nat.lt_succ_of_lt (t.fresh b hb)
  nodup := by
    obtain ⟨front, back⟩ := insert_toList (fun b => cmp b.2 z = 1) (t.serial, z) t.tree
    have nodup := t.nodup
    have fresh := t.fresh
    rw [back, List.map_append, List.map_cons, List.nodup_middle, List.nodup_cons,
      ← List.map_append, ← front]
    refine ⟨fun mem => ?_, nodup⟩
    obtain ⟨b, hb, eq⟩ := List.mem_map.1 mem
    exact absurd eq (fresh b hb).ne
  balanced := by
    obtain ⟨n, h⟩ := t.balanced
    exact insert_balanced _ _ h

def NodeTree.delete (t : NodeTree) (z : Node) : NodeTree where
  tree := erase (fun b => b.2 = z) t.tree
  serial := t.serial
  fresh := by
    intro b hb
    rw [erase_toList t.values_nodup] at hb
    exact t.fresh b (List.mem_of_mem_eraseP hb)
  nodup := by
    rw [erase_toList t.values_nodup]
    exact t.nodup.sublist (List.eraseP_sublist.map Prod.fst)
  balanced := by
    obtain ⟨n, h⟩ := t.balanced
    exact erase_balanced h

instance : RedBlackTree NodeTree where
  create := ⟨leaf, 0, fun _ hb => absurd hb List.not_mem_nil, List.nodup_nil, ⟨0, .leaf⟩⟩
  nodes t := t.tree.toList.map Prod.snd
  insert := NodeTree.insert
  delete := NodeTree.delete

theorem map_eraseP {L : List (ℕ × Node)} (z : Node) :
    (L.eraseP fun b => b.2 = z).map Prod.snd = (L.map Prod.snd).erase z := by
  induction L with
  | nil => rfl
  | cons a L ih =>
    by_cases eq : a.2 = z
    · rw [List.eraseP_cons_of_pos (by simpa using eq), List.map_cons, eq, List.erase_cons_head]
    · rw [List.eraseP_cons_of_neg (by simpa using eq), List.map_cons, List.map_cons, ih,
        List.erase_cons_tail (by simpa using eq)]

instance : LawfulTree NodeTree where
  create_nodes := rfl
  insert_nodes cmp t z := by
    obtain ⟨front, back⟩ := insert_toList (fun b => cmp b.2 z = 1) (t.serial, z) t.tree
    exact ⟨_, _, (congrArg (List.map Prod.snd) front).trans List.map_append,
      (congrArg (List.map Prod.snd) back).trans List.map_append⟩
  insert_ordered cmp t z comparison ordered := by
    refine List.pairwise_map.2 (insert_ordered (fun a b c => comparison.trans a.2 b.2 c.2)
      (fun b low => ?_) (fun b high => ?_) (List.pairwise_map.1 ordered))
    · simpa using low
    · exact (comparison.total b.2 z).resolve_left (not_not.2 (by simpa using high))
  delete_nodes t z _ := by
    change (erase _ _).toList.map Prod.snd = _
    rw [erase_toList t.values_nodup, map_eraseP]
    rfl

end BrainMachine.ColoredQueue

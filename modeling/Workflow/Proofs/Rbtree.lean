/-
Module: Workflow.Proofs.Rbtree
Layer: Proofs
Purpose: The red-black tree as its users see it. Any run of insertions and deletions works like one on
  a sorted list, and `rb_first`, `rb_next`, `rb_last` and `rb_prev` walk along that list. Where other
  modules take the balancing as a lawful `TreeOps`, rbtree.c does the same up to the shape of the tree:
  `RbTree.Represents` is kept by every operation.
Trusted boundary: none
Main exports: rbFirst_spec, rbLast_spec, rbNext_spec, rbPrev_spec, HoldsSorted, exec_holdsSorted,
  rbtree_refines, rbtree_visits, RbTree.Represents
-/
import Workflow.Proofs.RbtreeErase

namespace Workflow.Kernel

open Workflow.Lib SearchTree

universe u

variable {α : Type u} [DecidableEq α]

/-! ### Traversal -/

section Traverse

variable {t : RbTree α} {m : TreeLinks α} {path inner : List (Frame α)}
  {tree sub a b c : SearchTree α} {s : Side} {x y : α} {fuel : Nat}

/-- The node at the end of one side. -/
def outermost (s : Side) (tree : SearchTree α) : Option α :=
  match s with
  | .left => tree.inorder.head?
  | .right => tree.inorder.getLast?

/-- The first node behind a place, on one side. -/
def beyond (s : Side) (path : List (Frame α)) : Option α :=
  match s with
  | .left => (pathBefore path).getLast?
  | .right => (pathAfter path).head?

omit [DecidableEq α] in
/-- The outermost node of a tree is the one at the end of its edge. -/
theorem outermost_plug (hsides : ∀ f ∈ inner, f.side = s) :
    outermost s (plug inner (fork s leaf y c)) = some y := by
  cases s with
  | left =>
      rw [outermost, inorder_plug, pathBefore_left hsides]
      rfl
  | right =>
      rw [outermost, inorder_plug, pathAfter_right hsides, List.append_nil, fork, inorder, inorder,
        ← List.append_assoc, List.getLast?_concat]

omit [DecidableEq α] in
/-- Walking to one side ends at the outermost node. -/
theorem walk_outermost (hholds : HoldsTree m (plug path sub)) (hx : sub.root? = some x)
    (hfuel : depth sub ≤ fuel) :
    (loop (walkStep s m) fuel x).map some = some (outermost s sub) := by
  obtain ⟨y, inner, c, hloop, rfl, hsides⟩ := walk_spec s hholds hx hfuel
  rw [hloop, outermost_plug hsides, Option.map_some]

/-- Climbing ends at the next node beyond the tree. -/
theorem climb_spec (hholds : HoldsTree m (plug path sub)) (hx : sub.root? = some x)
    (hfuel : path.length + 1 ≤ fuel) : loop (climbStep s m) fuel x = some (beyond s path) := by
  induction path generalizing sub x fuel with
  | nil =>
      obtain ⟨more, rfl⟩ : ∃ more, fuel = more + 1 := ⟨fuel - 1, by omega⟩
      have hparent := hholds.parent_eq hx
      rw [loop_done (r := none)]
      · cases s <;> rfl
      · simp only [climbStep, hparent, above_nil]
  | cons f path ih =>
      obtain ⟨more, rfl⟩ : ∃ more, fuel = more + 1 := ⟨fuel - 1, by omega⟩
      have hparent : m.parent x = some f.node := hholds.parent_eq hx
      have hup : HoldsTree m (plug path (fork f.side sub f.node f.sibling)) := hholds
      rw [List.length_cons] at hfuel
      rcases s.eq_or_eq_other f.side with hside | hside
      · have hstep : climbStep s m x = .next f.node := by
          have hchild : m.child s f.node = some x := by
            rw [← hside, hup.child_eq.1, hx]
          simp only [climbStep, hparent, hchild, if_pos]
        rw [loop_next hstep, ih hup (root?_fork ..) (by omega)]
        cases s with
        | left => rw [beyond, beyond, pathBefore, hside]
        | right => rw [beyond, beyond, pathAfter, hside]
      · have hstep : climbStep s m x = .done (some f.node) := by
          have hchild : m.child s f.node ≠ some x := by
            have hother := hup.child_eq.2
            rw [hside, Side.other_other] at hother
            rw [hother]
            have hnodup := hup.nodup
            rw [nodup_plug, nodup_fork] at hnodup
            exact fun heq => hnodup.1.2.2.2.2 x (mem_of_root? hx) (mem_of_root? heq)
          simp only [climbStep, hparent, if_neg hchild]
        rw [loop_done hstep]
        cases s with
        | left => rw [beyond, pathBefore, hside, Side.other, ← List.append_assoc, List.getLast?_concat]
        | right => rw [beyond, pathAfter, hside]; rfl

omit [DecidableEq α] in
/-- The outermost node on a side. -/
theorem rbOutermost_spec (hholds : HoldsTree t.links tree) (hfuel : depth tree ≤ fuel) (s : Side) :
    rbOutermost s fuel t = some (outermost s tree) := by
  cases hroot : tree.root? with
  | none =>
      have hlinks : t.links.root = none := hholds.root.trans hroot
      simp only [rbOutermost, hlinks]
      rw [root?_eq_none.mp hroot]
      cases s <;> rfl
  | some x =>
      have hlinks : t.links.root = some x := hholds.root.trans hroot
      have hplug : HoldsTree t.links (plug [] tree) := hholds
      simp only [rbOutermost, hlinks]
      exact walk_outermost hplug hroot hfuel

omit [DecidableEq α] in
/-- `rb_first` is the first node in order. -/
theorem rbFirst_spec (hholds : HoldsTree t.links tree) (hfuel : depth tree ≤ fuel) :
    rbFirst fuel t = some tree.inorder.head? :=
  rbOutermost_spec hholds hfuel .left

omit [DecidableEq α] in
/-- `rb_last` is the last. -/
theorem rbLast_spec (hholds : HoldsTree t.links tree) (hfuel : depth tree ≤ fuel) :
    rbLast fuel t = some tree.inorder.getLast? :=
  rbOutermost_spec hholds hfuel .right

/-- The neighbour lies in the subtree beside the node, or above it. -/
theorem rbNeighbour_spec (hholds : HoldsTree t.links (plug path (fork s.other a x b)))
    (hfuel : depth (plug path (fork s.other a x b)) + 1 ≤ fuel) :
    rbNeighbour s fuel x t =
      some (if b.root? = none then beyond s path else outermost s.other b) := by
  have hchild : t.links.child s x = b.root? := by
    have hother := hholds.child_eq.2
    rwa [Side.other_other] at hother
  have hlength := length_path_le path (fork s.other a x b)
  have hdepth : depth b + 1 ≤ depth (fork s.other a x b) := by
    cases s <;> simp only [Side.other, fork, depth] <;> omega
  have hclimb : path.length + 1 ≤ fuel := by omega
  have hwalk : depth b ≤ fuel := by omega
  cases hb : b.root? with
  | none =>
      rw [hb] at hchild
      simp only [rbNeighbour, hchild, if_pos]
      exact climb_spec hholds (root?_fork ..) hclimb
  | some y =>
      rw [hb] at hchild
      rw [plug_sibling, Side.other_other] at hholds
      simp only [rbNeighbour, hchild]
      rw [if_neg (Option.some_ne_none y)]
      exact walk_outermost hholds hb hwalk

/-- What comes after a node in a list. -/
theorem successor_middle {xs ys : List α} (hx : x ∉ xs) :
    successor x (xs ++ x :: ys) = ys.head? := by
  induction xs with
  | nil => rw [List.nil_append, successor, if_pos rfl]
  | cons z xs ih =>
      rw [List.mem_cons, not_or] at hx
      rw [List.cons_append, successor, if_neg (Ne.symm hx.1), ih hx.2]

omit [DecidableEq α] in
theorem inorder_eq_nil : b.inorder = [] ↔ b.root? = none := by
  cases b <;> simp [inorder, root?]

omit [DecidableEq α] in
theorem not_mem_before {xs ys : List α} (hnodup : (xs ++ x :: ys).Nodup) : x ∉ xs :=
  fun hmem => (List.nodup_append.mp hnodup).2.2 x hmem x List.mem_cons_self rfl

/-- `rb_next` is the next node in the order. -/
theorem rbNext_spec (hholds : HoldsTree t.links tree) (hmem : x ∈ tree.inorder)
    (hfuel : depth tree + 1 ≤ fuel) : rbNext fuel x t = some (successor x tree.inorder) := by
  obtain ⟨path, l, r, rfl⟩ := exists_plug hmem
  have hinorder : (plug path (.node l x r)).inorder =
      (pathBefore path ++ l.inorder) ++ x :: (r.inorder ++ pathAfter path) := by
    rw [inorder_plug, inorder]
    simp only [List.append_assoc, List.cons_append]
  have hnodup := hholds.nodup
  have hholds' : HoldsTree t.links (plug path (fork (Side.other .right) l x r)) := hholds
  rw [hinorder] at hnodup ⊢
  rw [rbNext, rbNeighbour_spec hholds' hfuel, successor_middle (not_mem_before hnodup),
    List.head?_append]
  cases hr : r.root? with
  | none => rw [if_pos rfl, inorder_eq_nil.mpr hr]; rfl
  | some y =>
      rw [if_neg (Option.some_ne_none y)]
      cases hlist : r.inorder with
      | nil => rw [inorder_eq_nil.mp hlist] at hr; cases hr
      | cons z zs => rw [Side.other, outermost, hlist]; rfl

/-- `rb_prev` is the next node in the reverse order. -/
theorem rbPrev_spec (hholds : HoldsTree t.links tree) (hmem : x ∈ tree.inorder)
    (hfuel : depth tree + 1 ≤ fuel) :
    rbPrev fuel x t = some (successor x tree.inorder.reverse) := by
  obtain ⟨path, l, r, rfl⟩ := exists_plug hmem
  have hinorder : (plug path (.node l x r)).inorder.reverse =
      ((pathAfter path).reverse ++ r.inorder.reverse) ++ x ::
        (l.inorder.reverse ++ (pathBefore path).reverse) := by
    rw [inorder_plug, inorder]
    simp
  have hnodup := List.nodup_reverse.mpr hholds.nodup
  have hholds' : HoldsTree t.links (plug path (fork (Side.other .left) r x l)) := hholds
  rw [hinorder] at hnodup ⊢
  rw [rbPrev, rbNeighbour_spec hholds' hfuel, successor_middle (not_mem_before hnodup),
    List.head?_append, List.head?_reverse, List.head?_reverse]
  cases hl : l.root? with
  | none => rw [if_pos rfl, inorder_eq_nil.mpr hl]; rfl
  | some y =>
      rw [if_neg (Option.some_ne_none y), Side.other, outermost]
      cases hlast : l.inorder.getLast? with
      | none => rw [inorder_eq_nil.mp (List.getLast?_eq_none_iff.mp hlast)] at hl; cases hl
      | some z => rfl

end Traverse

/-! ### Runs -/

section Order

universe v

variable {K : Type v} [LinearOrder K] {key : α → K} {l xs ys : List α} {node y : α}
  {tree : SearchTree α}

omit [DecidableEq α] in
/-- In front of a larger element nothing behind it is looked at. -/
theorem orderedInsert_before (hlt : key node < key y) :
    (xs ++ y :: ys).orderedInsert (fun a b => key a < key b) node =
      xs.orderedInsert (fun a b => key a < key b) node ++ y :: ys := by
  induction xs with
  | nil => simp [hlt]
  | cons x xs ih =>
      by_cases hx : key node < key x
      · simp [hx]
      · simp [hx, ih]

omit [DecidableEq α] in
/-- Elements that are not larger are passed. -/
theorem orderedInsert_behind (hle : ∀ x ∈ xs, key x ≤ key node) :
    (xs ++ ys).orderedInsert (fun a b => key a < key b) node =
      xs ++ ys.orderedInsert (fun a b => key a < key b) node := by
  induction xs with
  | nil => rfl
  | cons x xs ih =>
      have hx : ¬ key node < key x := not_lt.mpr (hle x List.mem_cons_self)
      simp [hx, ih fun z hz => hle z (List.mem_cons_of_mem x hz)]

omit [DecidableEq α] in
/-- In a sorted tree the new node is hung where a sorted list has it. -/
theorem link_ordered (hsorted : tree.inorder.Pairwise fun a b => key a ≤ key b) (node : α) :
    (tree.link (fun entry => decide (key node < key entry)) node).1.inorder =
      tree.inorder.orderedInsert (fun a b => key a < key b) node := by
  induction tree with
  | leaf => rfl
  | node l y r ihLeft ihRight =>
      simp only [inorder, List.pairwise_append, List.pairwise_cons, List.mem_cons] at hsorted
      obtain ⟨hl, ⟨hyr, hr⟩, hcross⟩ := hsorted
      by_cases hlt : key node < key y
      · simp only [link, hlt, decide_true, if_true, inorder]
        rw [ihLeft hl, orderedInsert_before hlt]
      · have hle : ∀ x ∈ l.inorder ++ [y], key x ≤ key node := by
          intro x hx
          rcases List.mem_append.mp hx with hx | hx
          · exact (hcross x hx y (.inl rfl)).trans (not_lt.mp hlt)
          · obtain rfl := List.mem_singleton.mp hx
            exact not_lt.mp hlt
        have hpass : (l.inorder ++ [y] ++ r.inorder).orderedInsert (fun a b => key a < key b) node =
            l.inorder ++ [y] ++ r.inorder.orderedInsert (fun a b => key a < key b) node :=
          orderedInsert_behind hle
        simp only [List.append_assoc, List.singleton_append] at hpass
        simp only [link, hlt, decide_false, Bool.false_eq_true, if_false, inorder]
        rw [ihRight hr, hpass]

omit [DecidableEq α] in
/-- A node is put into a sorted list by its key. -/
theorem pairwise_orderedInsert (hsorted : l.Pairwise fun a b => key a ≤ key b) (node : α) :
    (l.orderedInsert (fun a b => key a < key b) node).Pairwise fun a b => key a ≤ key b := by
  induction l with
  | nil => exact List.pairwise_singleton _ _
  | cons x l ih =>
      obtain ⟨hx, hl⟩ := List.pairwise_cons.mp hsorted
      by_cases hlt : key node < key x
      · rw [List.orderedInsert_cons, if_pos hlt]
        refine List.pairwise_cons.mpr ⟨fun z hz => ?_, hsorted⟩
        rcases List.mem_cons.mp hz with rfl | hz
        · exact hlt.le
        · exact hlt.le.trans (hx z hz)
      · rw [List.orderedInsert_cons, if_neg hlt]
        refine List.pairwise_cons.mpr ⟨fun z hz => ?_, ih hl⟩
        rcases (List.mem_orderedInsert _).mp hz with rfl | hz
        · exact not_lt.mp hlt
        · exact hx z hz

end Order

section Runs

universe v

variable {K : Type v} [LinearOrder K] {l l' : List (α × K)} {t : KeyedTree α K}
  {tree : SearchTree α} {fuel n : Nat}

omit [DecidableEq α] in
theorem RbHolds.depth_le {t : RbTree α} (h : RbHolds t tree) (hlength : tree.inorder.length ≤ n) :
    depth tree ≤ 2 * Nat.log 2 (n + 1) := by
  have hdepth := h.redBlack.depth_le
  have hlog : Nat.log 2 (tree.inorder.length + 1) ≤ Nat.log 2 (n + 1) :=
    Nat.log_mono_right (by omega)
  omega

/-- Memory holds a red-black tree whose nodes, with their keys, are the sorted list `l`. -/
structure HoldsSorted (t : KeyedTree α K) (tree : SearchTree α) (l : List (α × K)) : Prop where
  holds : RbHolds t.tree tree
  inorder : tree.inorder = l.map Prod.fst
  keys : ∀ entry ∈ l, t.key entry.1 = entry.2
  sorted : l.Pairwise fun a b => a.2 ≤ b.2

omit [DecidableEq α] in
/-- The depth is logarithmic in the length of the list. -/
theorem HoldsSorted.depth_le (h : HoldsSorted t tree l) (hlength : l.length ≤ n) :
    depth tree ≤ 2 * Nat.log 2 (n + 1) :=
  h.holds.depth_le (by rw [h.inorder, List.length_map]; exact hlength)

/-- An insertion gives the new node its key and leaves the keys of the others. -/
theorem HoldsSorted.insert {node : α} (h : HoldsSorted t tree l) (hnew : node ∉ l.map Prod.fst)
    (hfuel : depth tree + 1 ≤ fuel) (key : K) :
    ∃ t' tree', t.exec fuel (.insert node key) = some t' ∧
      HoldsSorted t' tree' (l.orderedInsert (fun a b => a.2 < b.2) (node, key)) := by
  obtain ⟨hholds, hinorder, hkeys, hsorted⟩ := h
  generalize hkeys' : Function.update t.key node key = keys
  have hself : keys node = key := by rw [← hkeys', Function.update_self]
  have hothers : ∀ entry ∈ l, keys entry.1 = entry.2 := by
    intro entry hentry
    have hne : entry.1 ≠ node := fun heq => hnew (heq ▸ List.mem_map_of_mem hentry)
    rw [← hkeys', Function.update_of_ne hne, hkeys entry hentry]
  have hordered : tree.inorder.Pairwise fun a b => keys a ≤ keys b := by
    rw [hinorder, List.pairwise_map]
    refine hsorted.imp_of_mem fun ha hb hle => ?_
    rw [hothers _ ha, hothers _ hb]
    exact hle
  obtain ⟨tree₁, tree', hinsert, ht', hin⟩ := rbInsert_spec hholds (hinorder ▸ hnew) hfuel
    fun entry => decide (keys node < keys entry)
  have hexec : t.exec fuel (.insert node key) = some { key := keys, tree := tree₁ } := by
    simp only [KeyedTree.exec, hkeys', hinsert, Option.map_some]
  refine ⟨_, tree', hexec, ht', ?_, fun entry hentry => ?_, pairwise_orderedInsert hsorted _⟩
  · rw [hin, link_ordered hordered, hinorder]
    refine (List.map_orderedInsert _ _ Prod.fst l (node, key) (fun entry hentry => ?_)
      (fun entry hentry => ?_)).symm
    · rw [hself, hothers entry hentry]
    · rw [hself, hothers entry hentry]
  · rcases (List.mem_orderedInsert _).mp hentry with rfl | hentry
    · exact hself
    · exact hothers entry hentry

/-- An operation on the tree is the operation on the list. -/
theorem exec_holdsSorted {op : RbOp α K} (h : HoldsSorted t tree l) (hlength : l.length ≤ n)
    (hfuel : 2 * Nat.log 2 (n + 1) + 2 ≤ fuel) (hop : sortedExec l op = some l') :
    ∃ t' tree', t.exec fuel op = some t' ∧ HoldsSorted t' tree' l' := by
  have hdepth := h.depth_le hlength
  cases op with
  | insert node key =>
      have hnew : node ∉ l.map Prod.fst := by
        intro hmem
        simp [sortedExec, hmem] at hop
      rw [sortedExec, if_neg hnew, Option.some.injEq] at hop
      exact hop ▸ h.insert hnew (by omega) key
  | erase node =>
      have hmem : node ∈ l.map Prod.fst := by
        by_contra hnot
        simp [sortedExec, hnot] at hop
      rw [sortedExec, if_pos hmem, Option.some.injEq] at hop
      have hsub := List.eraseP_sublist (p := fun entry : α × K => decide (entry.1 = node)) (l := l)
      rw [hop] at hsub
      obtain ⟨tree₁, tree', herase, ht', hin⟩ := rbErase_spec h.holds (h.inorder ▸ hmem)
        (by omega : depth tree + 2 ≤ fuel)
      refine ⟨{ t with tree := tree₁ }, tree', by rw [KeyedTree.exec, herase, Option.map_some], ht',
        ?_, fun entry hentry => h.keys entry (hsub.subset hentry), h.sorted.sublist hsub⟩
      have hsame : (fun x => node == x) ∘ Prod.fst =
          fun entry : α × K => decide (entry.1 = node) := by
        funext entry
        rw [Bool.eq_iff_iff, Function.comp_apply, beq_iff_eq, decide_eq_true_iff]
        exact eq_comm
      rw [hin, h.inorder, ← hop, List.erase_eq_eraseP, List.eraseP_map, hsame]

/-- An operation adds one node at most. -/
theorem length_sortedExec {op : RbOp α K} (hop : sortedExec l op = some l') :
    l'.length ≤ l.length + 1 := by
  cases op with
  | insert node key =>
      rw [sortedExec] at hop
      split at hop
      · cases hop
      · obtain rfl := Option.some.inj hop
        rw [List.orderedInsert_length]
  | erase node =>
      rw [sortedExec] at hop
      split at hop
      · obtain rfl := Option.some.inj hop
        exact List.length_eraseP_le.trans (Nat.le_succ _)
      · cases hop

/-- A run adds one node for each operation at most. -/
theorem length_sortedRun {ops : List (RbOp α K)} (hrun : sortedRun ops l = some l') :
    l'.length ≤ l.length + ops.length := by
  induction ops generalizing l with
  | nil =>
      obtain rfl := Option.some.inj hrun
      exact Nat.le_add_right _ _
  | cons op ops ih =>
      obtain ⟨l₁, hop, hrest⟩ := Option.bind_eq_some_iff.mp hrun
      have hfirst := length_sortedExec hop
      have hothers := ih hrest
      rw [List.length_cons]
      omega

/-- What each operation keeps, a run keeps. -/
theorem run_holdsSorted {ops : List (RbOp α K)} (h : HoldsSorted t tree l)
    (hlength : l.length + ops.length ≤ n) (hfuel : 2 * Nat.log 2 (n + 1) + 2 ≤ fuel)
    (hrun : sortedRun ops l = some l') :
    ∃ t' tree', t.run fuel ops = some t' ∧ HoldsSorted t' tree' l' := by
  induction ops generalizing t tree l with
  | nil =>
      obtain rfl := Option.some.inj hrun
      exact ⟨t, tree, rfl, h⟩
  | cons op ops ih =>
      rw [List.length_cons] at hlength
      obtain ⟨l₁, hop, hrest⟩ := Option.bind_eq_some_iff.mp hrun
      obtain ⟨t₁, tree₁, hexec, h₁⟩ := exec_holdsSorted h (by omega) hfuel hop
      have hlength₁ := length_sortedExec hop
      obtain ⟨t', tree', hrun', h'⟩ := ih h₁ (by omega) hrest
      exact ⟨t', tree', by rw [KeyedTree.run, hexec, Option.bind_some, hrun'], h'⟩

omit [DecidableEq α] in
theorem empty_holds : RbHolds (RbTree.empty : RbTree α) leaf :=
  ⟨⟨rfl, trivial, List.nodup_nil⟩, blackRoot_leaf, 0, rfl⟩

omit [DecidableEq α] in
theorem empty_holdsSorted (key : α → K) : HoldsSorted ⟨key, RbTree.empty⟩ leaf [] where
  holds := empty_holds
  inorder := rfl
  keys := fun _ hentry => absurd hentry List.not_mem_nil
  sorted := .nil

/-- In every run from an empty root the memory holds a red-black tree whose nodes, with the keys that
they were inserted with last, are those of a sorted list. No NULL pointer is followed, and no loop
needs more passes than twice the logarithm of the number of operations, and two. -/
theorem rbtree_refines (key : α → K) {ops : List (RbOp α K)} (hrun : sortedRun ops [] = some l)
    (hfuel : 2 * Nat.log 2 (ops.length + 1) + 2 ≤ fuel) :
    ∃ t tree, KeyedTree.run fuel ops ⟨key, RbTree.empty⟩ = some t ∧ RbHolds t.tree tree ∧
      tree.inorder = l.map Prod.fst ∧ (∀ entry ∈ l, t.key entry.1 = entry.2) ∧
      (l.Pairwise fun a b => a.2 ≤ b.2) ∧ depth tree ≤ 2 * Nat.log 2 (l.length + 1) := by
  obtain ⟨t, tree, hmemory, h⟩ := run_holdsSorted (empty_holdsSorted key) (by simp) hfuel hrun
  exact ⟨t, tree, hmemory, h.holds, h.inorder, h.keys, h.sorted, h.depth_le (Nat.le_refl _)⟩

/-- Node 5 is taken out and comes back with another key. -/
theorem rbtree_refines_five :
    ∃ t tree, KeyedTree.run 8
        [.insert 12 2, .insert 5 5, .insert 2 2, .insert 8 8, .erase 5, .insert 5 1]
        ⟨fun _ => 0, RbTree.empty⟩ = some t ∧
      RbHolds t.tree tree ∧ tree.inorder = [5, 12, 2, 8] ∧
      (∀ entry ∈ ([(5, 1), (12, 2), (2, 2), (8, 8)] : List (Nat × Nat)), t.key entry.1 = entry.2) ∧
      (([(5, 1), (12, 2), (2, 2), (8, 8)] : List (Nat × Nat)).Pairwise fun a b => a.2 ≤ b.2) ∧
      depth tree ≤ 2 * Nat.log 2 (4 + 1) :=
  rbtree_refines (fun _ => 0) (l := [(5, 1), (12, 2), (2, 2), (8, 8)]) (by decide) (by decide)

/-! ### Visiting all nodes -/

/-- A walk along neighbours comes to all nodes of a list, if each leads to the next one. -/
theorem visit_all {t : RbTree α} {l : List α} {s : Side} {passes : Nat} (hnodup : l.Nodup)
    (hneighbour : ∀ x ∈ l, rbNeighbour s fuel x t = some (successor x l)) (xs ys : List α)
    (hl : l = xs ++ ys) (hpasses : ys.length + 1 ≤ passes) :
    loop (visitStep s fuel t) passes (ys.head?, xs) = some (some l) := by
  induction ys generalizing xs passes with
  | nil =>
      obtain ⟨more, rfl⟩ : ∃ more, passes = more + 1 := ⟨passes - 1, by omega⟩
      rw [List.append_nil] at hl
      rw [loop_done (r := some l)]
      simp only [visitStep, List.head?_nil, hl]
  | cons x ys ih =>
      obtain ⟨more, rfl⟩ : ∃ more, passes = more + 1 := ⟨passes - 1, by omega⟩
      rw [List.length_cons] at hpasses
      have hx := hneighbour x (hl ▸ List.mem_append_right xs List.mem_cons_self)
      rw [hl] at hnodup hx
      rw [successor_middle (not_mem_before hnodup)] at hx
      have hstep : visitStep s fuel t ((x :: ys).head?, xs) = .next (ys.head?, xs ++ [x]) := by
        simp only [visitStep, List.head?_cons, hx]
      rw [loop_next hstep, ih (xs ++ [x]) (by rw [hl, List.append_assoc]; rfl) (by omega)]

/-- In every run, going from `rb_first` on with `rb_next` comes to all nodes in their order, and going
from `rb_last` on with `rb_prev` in the reverse order. -/
theorem rbtree_visits (key : α → K) {ops : List (RbOp α K)} {passes : Nat}
    (hrun : sortedRun ops [] = some l) (hfuel : 2 * Nat.log 2 (ops.length + 1) + 2 ≤ fuel)
    (hpasses : l.length + 1 ≤ passes) :
    ∃ t, KeyedTree.run fuel ops ⟨key, RbTree.empty⟩ = some t ∧
      rbVisit .right fuel passes t.tree = some (l.map Prod.fst) ∧
      rbVisit .left fuel passes t.tree = some (l.map Prod.fst).reverse := by
  have hlength := length_sortedRun hrun
  rw [List.length_nil, Nat.zero_add] at hlength
  obtain ⟨t, tree, hmemory, h⟩ := run_holdsSorted (empty_holdsSorted key) (by simp) hfuel hrun
  have hdepth := h.depth_le hlength
  have hholds := h.holds.holds
  have hwalk : depth tree ≤ fuel := by omega
  have hstep : depth tree + 1 ≤ fuel := by omega
  have hpasses : tree.inorder.length + 1 ≤ passes := by rwa [h.inorder, List.length_map]
  rw [← h.inorder]
  refine ⟨t, hmemory, ?_, ?_⟩
  · have hnext : ∀ x ∈ tree.inorder,
        rbNeighbour .right fuel x t.tree = some (successor x tree.inorder) :=
      fun x hx => rbNext_spec hholds hx hstep
    have hfirst : rbOutermost (Side.other .right) fuel t.tree = some tree.inorder.head? :=
      rbFirst_spec hholds hwalk
    rw [rbVisit, hfirst]
    simp only [Option.bind_eq_bind, Option.bind_some]
    rw [visit_all hholds.nodup hnext [] tree.inorder rfl hpasses, Option.join_some]
  · have hprev : ∀ x ∈ tree.inorder.reverse,
        rbNeighbour .left fuel x t.tree = some (successor x tree.inorder.reverse) :=
      fun x hx => rbPrev_spec hholds (List.mem_reverse.mp hx) hstep
    have hlast : rbOutermost (Side.other .left) fuel t.tree = some tree.inorder.getLast? :=
      rbLast_spec hholds hwalk
    rw [rbVisit, hlast]
    simp only [Option.bind_eq_bind, Option.bind_some]
    have hpasses' : tree.inorder.reverse.length + 1 ≤ passes := by rwa [List.length_reverse]
    rw [← List.head?_reverse, visit_all (List.nodup_reverse.mpr hholds.nodup) hprev []
      tree.inorder.reverse rfl hpasses', Option.join_some]

theorem rbtree_visits_five :
    ∃ t, KeyedTree.run 8
        [.insert 12 2, .insert 5 5, .insert 2 2, .insert 8 8, .erase 5, .insert 5 1]
        ⟨fun _ => 0, RbTree.empty⟩ = some t ∧
      rbVisit .right 8 5 t.tree = some [5, 12, 2, 8] ∧
      rbVisit .left 8 5 t.tree = some [8, 2, 12, 5] :=
  rbtree_visits (fun _ => 0) (l := [(5, 1), (12, 2), (2, 2), (8, 8)]) (by decide) (by decide)
    (by decide)

end Runs

/-! ### The operations that are left open -/

section Represents

variable {t : RbTree α} {tree : SearchTree α} {ops : TreeOps α} {before : α → Bool} {node : α}
  {fuel n : Nat}

/-- Memory holds a red-black tree with the elements of `tree` in their order; which shape and colours
it has is left open. -/
def RbTree.Represents (t : RbTree α) (tree : SearchTree α) : Prop :=
  ∃ held, RbHolds t held ∧ held.inorder = tree.inorder

omit [DecidableEq α] in
/-- The empty tree. -/
theorem empty_represents : (RbTree.empty : RbTree α).Represents leaf :=
  ⟨leaf, empty_holds, rfl⟩

/-- Whatever a lawful `TreeOps` does after a node was linked, rbtree.c does up to the shape. -/
theorem RbTree.Represents.insert (h : t.Represents tree) (hops : ops.Lawful)
    (hnew : node ∉ tree.inorder)
    (hmono : tree.inorder.Pairwise fun a b => before a = true → before b = true)
    (hlength : tree.inorder.length ≤ n) (hfuel : 2 * Nat.log 2 (n + 1) + 2 ≤ fuel) :
    ∃ t', rbInsert fuel before node t = some t' ∧
      t'.Represents (ops.insertColor (tree.link before node).1 node) := by
  obtain ⟨held, hholds, hsame⟩ := h
  have hdepth := hholds.depth_le (hsame ▸ hlength)
  obtain ⟨t', held', hinsert, hholds', hin⟩ := rbInsert_spec hholds (hsame ▸ hnew)
    (by omega : depth held + 1 ≤ fuel) before
  obtain ⟨xs, ys, hsplit, hxs, hys⟩ := exists_split_of_mono hmono
  refine ⟨t', hinsert, held', hholds', ?_⟩
  rw [hin, hops.insertColor, held.link_inorder (hsame.trans hsplit) hxs hys node,
    tree.link_inorder hsplit hxs hys node]

/-- `rb_erase` takes the node out of the search tree. -/
theorem RbTree.Represents.erase (h : t.Represents tree) (hops : ops.Lawful)
    (hmem : node ∈ tree.inorder) (hlength : tree.inorder.length ≤ n)
    (hfuel : 2 * Nat.log 2 (n + 1) + 2 ≤ fuel) :
    ∃ t', rbErase fuel node t = some t' ∧ t'.Represents (ops.erase tree node) := by
  obtain ⟨held, hholds, hsame⟩ := h
  have hdepth := hholds.depth_le (hsame ▸ hlength)
  obtain ⟨t', held', herase, hholds', hin⟩ := rbErase_spec hholds (hsame ▸ hmem)
    (by omega : depth held + 2 ≤ fuel)
  exact ⟨t', herase, held', hholds', by rw [hin, hops.erase, hsame]⟩

/-- `rb_next` is the next node of the search tree. -/
theorem RbTree.Represents.next (h : t.Represents tree) (hops : ops.Lawful)
    (hmem : node ∈ tree.inorder) (hlength : tree.inorder.length ≤ n)
    (hfuel : 2 * Nat.log 2 (n + 1) + 2 ≤ fuel) :
    rbNext fuel node t = some (ops.next tree node) := by
  obtain ⟨held, hholds, hsame⟩ := h
  have hdepth := hholds.depth_le (hsame ▸ hlength)
  rw [rbNext_spec hholds.holds (hsame ▸ hmem) (by omega), hops.next, hsame]

omit [DecidableEq α] in
/-- `rb_first` is its first. -/
theorem RbTree.Represents.first (h : t.Represents tree) (hlength : tree.inorder.length ≤ n)
    (hfuel : 2 * Nat.log 2 (n + 1) + 2 ≤ fuel) : rbFirst fuel t = some tree.inorder.head? := by
  obtain ⟨held, hholds, hsame⟩ := h
  have hdepth := hholds.depth_le (hsame ▸ hlength)
  rw [rbFirst_spec hholds.holds (by omega), hsame]

end Represents

end Workflow.Kernel

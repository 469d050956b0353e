/-
Module: Workflow.Lib.RedBlack
Layer: Lib
Purpose: Red-black trees, whose colors are given by a function of the nodes. `Balanced` is the usual
  invariant with the black height; `PathBalanced` is the same for what is around a place that a tree of
  a given black height has to fill, and a balanced tree splits at every place into the two
  (`redBlack_plug`). Its depth is at most twice its black height, which is logarithmic in its size.
Trusted boundary: none
Main exports: Color, BlackRoot, Balanced, PathBalanced, Fits, redBlack_plug, RedBlack, depth,
  RedBlack.depth_le, length_path_le
-/
import Workflow.Lib.LinkedTree
import Mathlib.Algebra.Ring.Nat
import Mathlib.Data.Nat.Log

namespace Workflow.Lib

open SearchTree

universe u

variable {α : Type u}

inductive Color where
  | red
  | black
deriving DecidableEq, Repr

variable {color color' : α → Color} {s : Side} {a b t : SearchTree α} {x y : α} {h : Nat}
  {path : List (Frame α)}

/-- A missing node counts as black. -/
def BlackRoot (color : α → Color) (t : SearchTree α) : Prop :=
  ∀ x, t.root? = some x → color x = .black

/-- No red node has a red child, and every way down has `h` black nodes. -/
def Balanced (color : α → Color) : SearchTree α → Nat → Prop
  | .leaf, h => h = 0
  | .node l x r, h =>
      match color x with
      | .red => (BlackRoot color l ∧ BlackRoot color r) ∧ Balanced color l h ∧ Balanced color r h
      | .black => ∃ k, h = k + 1 ∧ Balanced color l k ∧ Balanced color r k

/-- What is around a place is in order if a tree of black height `h` comes to the place, with a black
root where the node above is red. -/
def PathBalanced (color : α → Color) : List (Frame α) → Nat → Prop
  | [], _ => True
  | f :: path, h =>
      Balanced color f.sibling h ∧
      match color f.node with
      | .red => BlackRoot color f.sibling ∧ (∃ y, above path = some y ∧ color y = .black) ∧
          PathBalanced color path h
      | .black => PathBalanced color path (h + 1)

/-- The whole tree. -/
structure RedBlack (color : α → Color) (t : SearchTree α) : Prop where
  root : BlackRoot color t
  balanced : ∃ h, Balanced color t h

/-! ### Trees -/

@[simp]
theorem blackRoot_leaf : BlackRoot color leaf := by
  intro x hx
  simp [root?] at hx

@[simp]
theorem blackRoot_fork : BlackRoot color (fork s a x b) ↔ color x = .black := by
  simp [BlackRoot]

/-- A red node has black children and adds nothing to the height. -/
theorem balanced_red (hx : color x = .red) : Balanced color (fork s a x b) h ↔
    BlackRoot color a ∧ BlackRoot color b ∧ Balanced color a h ∧ Balanced color b h := by
  cases s <;> simp only [fork, Balanced, hx] <;> tauto

/-- A black node adds one to the height. -/
theorem balanced_black (hx : color x = .black) : Balanced color (fork s a x b) h ↔
    ∃ k, h = k + 1 ∧ Balanced color a k ∧ Balanced color b k := by
  cases s with
  | left => simp only [fork, Balanced, hx]
  | right => simp only [fork, Balanced, hx, and_comm (a := Balanced color a _)]

theorem balanced_black_succ (hx : color x = .black) : Balanced color (fork s a x b) (h + 1) ↔
    Balanced color a h ∧ Balanced color b h := by
  rw [balanced_black hx]
  constructor
  · rintro ⟨k, hk, ha, hb⟩
    obtain rfl : h = k := Nat.succ.inj hk
    exact ⟨ha, hb⟩
  · rintro ⟨ha, hb⟩
    exact ⟨h, rfl, ha, hb⟩

/-- The colour of the root is a matter of the nodes of the tree. -/
theorem BlackRoot.congr (hroot : BlackRoot color t)
    (hcolor : ∀ y ∈ t.inorder, color' y = color y) : BlackRoot color' t := by
  intro y hy
  rw [hcolor y (mem_of_root? hy)]
  exact hroot y hy

/-- Balance is a matter of the colours of the nodes of the tree. -/
theorem Balanced.congr (hbalanced : Balanced color t h)
    (hcolor : ∀ y ∈ t.inorder, color' y = color y) : Balanced color' t h := by
  induction t generalizing h with
  | leaf => exact hbalanced
  | node l x r ihLeft ihRight =>
      simp only [inorder, List.mem_append, List.mem_cons] at hcolor
      have hl : ∀ y ∈ l.inorder, color' y = color y := fun y hy => hcolor y (.inl hy)
      have hr : ∀ y ∈ r.inorder, color' y = color y := fun y hy => hcolor y (.inr (.inr hy))
      have hx := hcolor x (.inr (.inl rfl))
      cases hc : color x with
      | red =>
          rw [hc] at hx
          obtain ⟨hlroot, hrroot, hbl, hbr⟩ := (balanced_red (s := .left) hc).mp hbalanced
          exact (balanced_red (s := .left) hx).mpr
            ⟨hlroot.congr hl, hrroot.congr hr, ihLeft hbl hl, ihRight hbr hr⟩
      | black =>
          rw [hc] at hx
          obtain ⟨k, rfl, hbl, hbr⟩ := (balanced_black (s := .left) hc).mp hbalanced
          exact (balanced_black (s := .left) hx).mpr ⟨k, rfl, ihLeft hbl hl, ihRight hbr hr⟩

/-- A tree of positive black height is a node. -/
theorem Balanced.exists_fork (hbalanced : Balanced color t (h + 1)) (s : Side) :
    ∃ a y b, t = fork s a y b := by
  cases ht : t.root? with
  | none =>
      rw [root?_eq_none.mp ht, Balanced] at hbalanced
      omega
  | some y =>
      obtain ⟨a, b, rfl⟩ := SearchTree.exists_fork s ht
      exact ⟨a, y, b, rfl⟩

/-! ### Places -/

section Places

variable {f : Frame α}

theorem pathBalanced_red (hf : color f.node = .red) : PathBalanced color (f :: path) h ↔
    Balanced color f.sibling h ∧ BlackRoot color f.sibling ∧
      (∃ y, above path = some y ∧ color y = .black) ∧ PathBalanced color path h := by
  rw [PathBalanced, hf]

theorem pathBalanced_black (hf : color f.node = .black) : PathBalanced color (f :: path) h ↔
    Balanced color f.sibling h ∧ PathBalanced color path (h + 1) := by
  rw [PathBalanced, hf]

/-- Around a hole, it is a matter of the colours of the nodes on the way and beside it. -/
theorem PathBalanced.congr (hpath : PathBalanced color path h)
    (hcolor : ∀ y ∈ pathNodes path, color' y = color y) : PathBalanced color' path h := by
  induction path generalizing h with
  | nil => trivial
  | cons f path ih =>
      have hf := hcolor f.node List.mem_cons_self
      have hsibling : ∀ y ∈ f.sibling.inorder, color' y = color y := fun y hy =>
        hcolor y (List.mem_cons_of_mem _ (List.mem_append_left _ hy))
      have hrest : ∀ y ∈ pathNodes path, color' y = color y := fun y hy =>
        hcolor y (List.mem_cons_of_mem _ (List.mem_append_right _ hy))
      cases hc : color f.node with
      | red =>
          rw [hc] at hf
          obtain ⟨hb, hroot, ⟨y, hy, hyblack⟩, hpath⟩ := (pathBalanced_red hc).mp hpath
          exact (pathBalanced_red hf).mpr ⟨hb.congr hsibling, hroot.congr hsibling,
            ⟨y, hy, (hrest y (mem_pathNodes_of_above hy)).trans hyblack⟩, ih hpath hrest⟩
      | black =>
          rw [hc] at hf
          obtain ⟨hb, hpath⟩ := (pathBalanced_black hc).mp hpath
          exact (pathBalanced_black hf).mpr ⟨hb.congr hsibling, ih hpath hrest⟩

/-- Another node with the same color on the way up. -/
theorem PathBalanced.rename {inner outer : List (Frame α)} {l : SearchTree α}
    (haround : PathBalanced color (inner ++ ⟨s, x, l⟩ :: outer) h) (hy : color' y = color x)
    (hinner : ∀ z ∈ pathNodes inner, color' z = color z)
    (hl : ∀ z ∈ l.inorder, color' z = color z)
    (houter : ∀ z ∈ pathNodes outer, color' z = color z) :
    PathBalanced color' (inner ++ ⟨s, y, l⟩ :: outer) h := by
  induction inner generalizing h with
  | nil =>
      rw [List.nil_append] at haround ⊢
      cases hx : color x with
      | red =>
          rw [hx] at hy
          obtain ⟨hb, hroot, ⟨z, hz, hblack⟩, hrest⟩ := (pathBalanced_red hx).mp haround
          exact (pathBalanced_red hy).mpr ⟨hb.congr hl, hroot.congr hl,
            ⟨z, hz, (houter z (mem_pathNodes_of_above hz)).trans hblack⟩, hrest.congr houter⟩
      | black =>
          rw [hx] at hy
          obtain ⟨hb, hrest⟩ := (pathBalanced_black hx).mp haround
          exact (pathBalanced_black hy).mpr ⟨hb.congr hl, hrest.congr houter⟩
  | cons f inner ih =>
      rw [List.cons_append] at haround ⊢
      have hf := hinner f.node List.mem_cons_self
      have hsibling : ∀ z ∈ f.sibling.inorder, color' z = color z := fun z hz =>
        hinner z (List.mem_cons_of_mem _ (List.mem_append_left _ hz))
      have hrest : ∀ z ∈ pathNodes inner, color' z = color z := fun z hz =>
        hinner z (List.mem_cons_of_mem _ (List.mem_append_right _ hz))
      cases hc : color f.node with
      | red =>
          rw [hc] at hf
          obtain ⟨hb, hroot, ⟨z, hz, hblack⟩, haround⟩ := (pathBalanced_red hc).mp haround
          refine (pathBalanced_red hf).mpr ⟨hb.congr hsibling, hroot.congr hsibling, ?_,
            ih haround hrest⟩
          cases inner with
          | nil =>
              obtain rfl : x = z := by simpa using hz
              exact ⟨y, rfl, hy.trans hblack⟩
          | cons g inner =>
              have hmem : z ∈ pathNodes (g :: inner) := mem_pathNodes_of_above hz
              exact ⟨z, hz, (hrest z hmem).trans hblack⟩
      | black =>
          rw [hc] at hf
          obtain ⟨hb, haround⟩ := (pathBalanced_black hc).mp haround
          exact (pathBalanced_black hf).mpr ⟨hb.congr hsibling, ih haround hrest⟩

/-- The place has to be filled with a black root. -/
def WantsBlack (color : α → Color) (path : List (Frame α)) : Prop :=
  ∀ y, above path = some y → color y = .red

/-- A balanced tree at a place. -/
structure Fits (color : α → Color) (path : List (Frame α)) (t : SearchTree α) (h : Nat) : Prop where
  balanced : Balanced color t h
  around : PathBalanced color path h
  root : WantsBlack color path → BlackRoot color t

/-- A red tree may hang below a black node only. -/
theorem not_wantsBlack : ¬ WantsBlack color path ↔ ∃ y, above path = some y ∧ color y = .black := by
  simp only [WantsBlack, not_forall, exists_prop]
  refine exists_congr fun y => and_congr_right fun _ => ?_
  cases color y <;> decide

/-- The hole moves up past one node. -/
theorem Fits.up (hfits : Fits color (f :: path) t h) :
    ∃ k, Fits color path (fork f.side t f.node f.sibling) k := by
  obtain ⟨hbalanced, haround, hroot⟩ := hfits
  cases hf : color f.node with
  | red =>
      obtain ⟨hsibling, hblack, habove, hrest⟩ := (pathBalanced_red hf).mp haround
      have ht : BlackRoot color t := hroot fun z hz => by
        obtain rfl : f.node = z := by simpa using hz
        exact hf
      exact ⟨h, (balanced_red hf).mpr ⟨ht, hblack, hbalanced, hsibling⟩, hrest,
        fun hwants => absurd hwants (not_wantsBlack.mpr habove)⟩
  | black =>
      obtain ⟨hsibling, hrest⟩ := (pathBalanced_black hf).mp haround
      exact ⟨h + 1, (balanced_black_succ hf).mpr ⟨hbalanced, hsibling⟩, hrest,
        fun _ => blackRoot_fork.mpr hf⟩

/-- The hole moves down past one node. -/
theorem Fits.down (hfits : Fits color path (fork f.side t f.node f.sibling) h) :
    ∃ k, Fits color (f :: path) t k := by
  obtain ⟨hbalanced, haround, hroot⟩ := hfits
  cases hf : color f.node with
  | red =>
      obtain ⟨ht, hblack, hbt, hsibling⟩ := (balanced_red hf).mp hbalanced
      have habove : ¬ WantsBlack color path := fun hwants => by
        have hnode := blackRoot_fork.mp (hroot hwants)
        rw [hf] at hnode
        exact Color.noConfusion hnode
      exact ⟨h, hbt, (pathBalanced_red hf).mpr ⟨hsibling, hblack, not_wantsBlack.mp habove, haround⟩,
        fun _ => ht⟩
  | black =>
      obtain ⟨k, rfl, hbt, hsibling⟩ := (balanced_black hf).mp hbalanced
      refine ⟨k, hbt, (pathBalanced_black hf).mpr ⟨hsibling, haround⟩, fun hwants => ?_⟩
      have hnode := hwants f.node rfl
      rw [hf] at hnode
      exact Color.noConfusion hnode

/-- What is around a node of the color `c` whose children have the black height `h`. -/
def Accepts (color : α → Color) (path : List (Frame α)) (c : Color) (h : Nat) : Prop :=
  match c with
  | .red => (∃ y, above path = some y ∧ color y = .black) ∧ PathBalanced color path h
  | .black => PathBalanced color path (h + 1)

/-- A hole takes any tree with a root of the colour that the node above it allows. -/
theorem PathBalanced.accepts (haround : PathBalanced color (f :: path) h) :
    Accepts color path (color f.node) h := by
  cases hf : color f.node with
  | red =>
      obtain ⟨-, -, habove, hpath⟩ := (pathBalanced_red hf).mp haround
      exact ⟨habove, hpath⟩
  | black => exact ((pathBalanced_black hf).mp haround).2

theorem Accepts.congr {c : Color} (haccepts : Accepts color path c h)
    (hcolor : ∀ y ∈ pathNodes path, color' y = color y) : Accepts color' path c h := by
  cases c with
  | red =>
      obtain ⟨⟨y, hy, hblack⟩, hpath⟩ := haccepts
      exact ⟨⟨y, hy, (hcolor y (mem_pathNodes_of_above hy)).trans hblack⟩, hpath.congr hcolor⟩
  | black => exact PathBalanced.congr haccepts hcolor

/-- A tree is a red-black tree if and only if its parts at any place are in order. -/
theorem redBlack_plug : RedBlack color (plug path t) ↔ ∃ h, Fits color path t h := by
  induction path generalizing t with
  | nil =>
      constructor
      · rintro ⟨hroot, h, hbalanced⟩
        exact ⟨h, hbalanced, trivial, fun _ => hroot⟩
      · rintro ⟨h, hbalanced, -, hroot⟩
        exact ⟨hroot fun y hy => by simp at hy, h, hbalanced⟩
  | cons f path ih =>
      rw [plug, ih]
      constructor
      · rintro ⟨_, hfits⟩
        exact hfits.down
      · rintro ⟨_, hfits⟩
        exact hfits.up

/-- A node with black children that comes to a place. -/
theorem Accepts.redBlack (haccepts : Accepts color path (color x) h) (ha : Balanced color a h)
    (hb : Balanced color b h) (haroot : BlackRoot color a) (hbroot : BlackRoot color b) :
    RedBlack color (plug path (fork s a x b)) := by
  rw [redBlack_plug]
  cases hx : color x with
  | red =>
      rw [hx] at haccepts
      exact ⟨h, (balanced_red hx).mpr ⟨haroot, hbroot, ha, hb⟩, haccepts.2,
        fun hwants => absurd hwants (not_wantsBlack.mpr haccepts.1)⟩
  | black =>
      rw [hx] at haccepts
      exact ⟨h + 1, (balanced_black_succ hx).mpr ⟨ha, hb⟩, haccepts, fun _ => blackRoot_fork.mpr hx⟩

end Places

/-! ### Painting a node -/

section Paint

variable [DecidableEq α] {c : Color}

theorem BlackRoot.paint (hroot : BlackRoot color t) (hx : x ∉ t.inorder) :
    BlackRoot (Function.update color x c) t :=
  hroot.congr fun _ hy => Function.update_of_ne (ne_of_mem_of_not_mem hy hx) ..

/-- Painting a node that is not in the tree. -/
theorem Balanced.paint (hbalanced : Balanced color t h) (hx : x ∉ t.inorder) :
    Balanced (Function.update color x c) t h :=
  hbalanced.congr fun _ hy => Function.update_of_ne (ne_of_mem_of_not_mem hy hx) ..

/-- Painting a node that is in the tree of the hole. -/
theorem PathBalanced.paint (haround : PathBalanced color path h) (hx : x ∉ pathNodes path) :
    PathBalanced (Function.update color x c) path h :=
  haround.congr fun _ hy => Function.update_of_ne (ne_of_mem_of_not_mem hy hx) ..

theorem Accepts.paint {c' : Color} (haccepts : Accepts color path c' h) (hx : x ∉ pathNodes path) :
    Accepts (Function.update color x c) path c' h :=
  haccepts.congr fun _ hy => Function.update_of_ne (ne_of_mem_of_not_mem hy hx) ..

/-- A red root that is made black adds one to the black height. -/
theorem Balanced.blacken (hbalanced : Balanced color (fork s a x b) h) (hx : color x = .red)
    (hxa : x ∉ a.inorder) (hxb : x ∉ b.inorder) :
    Balanced (Function.update color x .black) (fork s a x b) (h + 1) := by
  obtain ⟨-, -, ha, hb⟩ := (balanced_red hx).mp hbalanced
  exact (balanced_black_succ (Function.update_self ..)).mpr ⟨ha.paint hxa, hb.paint hxb⟩

end Paint

/-! ### Depth -/

/-- The number of nodes on the longest way down. -/
def depth : SearchTree α → Nat
  | .leaf => 0
  | .node l _ r => max (depth l) (depth r) + 1

/-- On every way at least every second node is black. -/
theorem Balanced.depth_le (hbalanced : Balanced color t h) :
    depth t ≤ 2 * h + 1 ∧ (BlackRoot color t → depth t ≤ 2 * h) := by
  induction t generalizing h with
  | leaf => exact ⟨Nat.zero_le _, fun _ => Nat.zero_le _⟩
  | node l x r ihLeft ihRight =>
      cases hx : color x with
      | red =>
          obtain ⟨hl, hr, hbl, hbr⟩ := (balanced_red (s := .left) hx).mp hbalanced
          have hleft := (ihLeft hbl).2 hl
          have hright := (ihRight hbr).2 hr
          refine ⟨by simp only [depth]; omega, fun hroot => ?_⟩
          have hblack := (blackRoot_fork (s := .left)).mp hroot
          rw [hx] at hblack
          exact Color.noConfusion hblack
      | black =>
          obtain ⟨k, rfl, hbl, hbr⟩ := (balanced_black (s := .left) hx).mp hbalanced
          have hleft := (ihLeft hbl).1
          have hright := (ihRight hbr).1
          have hdepth : depth (.node l x r) ≤ 2 * (k + 1) := by
            simp only [depth]
            omega
          exact ⟨hdepth.trans (Nat.le_succ _), fun _ => hdepth⟩

/-- A tree of black height `h` has at least `2 ^ h - 1` nodes. -/
theorem Balanced.two_pow_le (hbalanced : Balanced color t h) : 2 ^ h ≤ t.inorder.length + 1 := by
  induction t generalizing h with
  | leaf =>
      obtain rfl : h = 0 := hbalanced
      exact Nat.le_refl 1
  | node l x r ihLeft ihRight =>
      rw [inorder, List.length_append, List.length_cons]
      cases hx : color x with
      | red =>
          obtain ⟨-, -, hbl, hbr⟩ := (balanced_red (s := .left) hx).mp hbalanced
          have := ihLeft hbl
          omega
      | black =>
          obtain ⟨k, rfl, hbl, hbr⟩ := (balanced_black (s := .left) hx).mp hbalanced
          have hleft := ihLeft hbl
          have hright := ihRight hbr
          rw [Nat.pow_succ]
          omega

/-- A way down passes at most twice as many nodes as the logarithm of the size says. -/
theorem RedBlack.depth_le (htree : RedBlack color t) :
    depth t ≤ 2 * Nat.log 2 (t.inorder.length + 1) := by
  obtain ⟨hroot, h, hbalanced⟩ := htree
  have hdepth := hbalanced.depth_le.2 hroot
  have hlog : h ≤ Nat.log 2 (t.inorder.length + 1) :=
    Nat.le_log_of_pow_le Nat.one_lt_two hbalanced.two_pow_le
  omega

/-- The way to a hole and the tree in it fit into the depth of the whole. -/
theorem length_path_le (path : List (Frame α)) (t : SearchTree α) :
    path.length + depth t ≤ depth (plug path t) := by
  induction path generalizing t with
  | nil => simp [plug]
  | cons f path ih =>
      have hfork : depth t + 1 ≤ depth (fork f.side t f.node f.sibling) := by
        cases f.side <;> simp only [fork, depth] <;> omega
      have := ih (fork f.side t f.node f.sibling)
      rw [plug, List.length_cons]
      omega

end Workflow.Lib

/-
Module: Workflow.Proofs.RbtreeInsert
Layer: Proofs
Purpose: A rotation of the red-black tree turns the tree that memory holds and keeps its order
  (`rotate_holds`). Before each pass of `rb_insert_color` only the node at hand may be a red child of a
  red node (`InsertAt`); a pass moves this two nodes up or is the last but one. With the way down of
  the users in front of it, a new node comes to stand where `SearchTree.link` hangs it.
Trusted boundary: none
Main exports: rotate_holds, InsertAt, insertStep_spec, RbHolds, rbInsertColor_spec, rbLinkNode_holds,
  descend_spec, rbInsert_spec
-/
import Workflow.Kernel.Rbtree

namespace Workflow.Kernel

open Workflow.Lib SearchTree

universe u

variable {α : Type u} [DecidableEq α]

/-! ### Rotations -/

section Rotate

variable {m : TreeLinks α} {t : RbTree α} {path : List (Frame α)} {s : Side} {a b c : SearchTree α}
  {x y : α}

theorem rotate_holds (h : HoldsTree t.links (plug path (fork s a x (fork s b y c)))) :
    ∃ m, rotate s x t = some { t with links := m } ∧
      HoldsTree m (plug path (fork s (fork s a x b) y c)) := by
  obtain ⟨hhangs, haround, hnodup⟩ := holds_plug.mp h
  simp only [nodup_plug, nodup_fork, mem_fork] at hnodup
  obtain ⟨⟨hxa, hxyb, ha, ⟨hyb, hyc, hb, hc, hbc⟩, habc⟩, hpath, hout⟩ := hnodup
  rw [hangs_fork, hangs_fork, root?_fork] at hhangs
  obtain ⟨hparentx, hchilda, hchildy, hhangsa, hparenty, hchildb, hchildc, hhangsb, hhangsc⟩ := hhangs
  rw [root?_fork] at haround
  have hxy : x ≠ y := fun heq => hxyb (.inl heq)
  have hxpath : x ∉ pathNodes path := hout x (.inl rfl)
  have hypath : y ∉ pathNodes path := hout y (.inr (.inr (.inl rfl)))
  -- the writes in front of the link from above
  let m := (((t.links.setChild s.other x b.root?).setParentAt b.root? (some x)).setChild s y
    (some x)).setParent y (above path)
  have hparent : ∀ z, m.parent z = if z = y then above path
      else if b.root? = some z then some x else t.links.parent z := by
    intro z
    simp only [m, TreeLinks.parent_setParent, TreeLinks.parent_setChild,
      TreeLinks.parent_setParentAt]
  have hchild : ∀ u z, m.child u z = if u = s ∧ z = y then some x
      else if u = s.other ∧ z = x then b.root? else t.links.child u z := by
    intro u z
    simp only [m, TreeLinks.child_setParent, TreeLinks.child_setChild, TreeLinks.child_setParentAt]
  have hbx : b.root? ≠ some x := fun heq => hxyb (.inr (.inl (mem_of_root? heq)))
  have hparentx' : m.parent x = above path := by
    rw [hparent, if_neg hxy, if_neg hbx, hparentx]
  have hpathne : ∀ z ∈ pathNodes path, z ≠ x ∧ z ≠ y ∧ b.root? ≠ some z := fun z hz =>
    ⟨fun heq => hxpath (heq ▸ hz), fun heq => hypath (heq ▸ hz),
      fun heq => hout z (.inr (.inr (.inr (.inl (mem_of_root? heq))))) hz⟩
  have haround' : Around m path (some x) := by
    refine haround.congr (by simp [m]) (fun z hz => ?_) fun z hz u => ?_
    · rw [hparent, if_neg (hpathne z hz).2.1, if_neg (hpathne z hz).2.2]
    · rw [hchild, if_neg (fun heq => (hpathne z hz).2.1 heq.2),
        if_neg (fun heq => (hpathne z hz).1 heq.2)]
  have hstep : rotate s x t =
      some { t with links := (m.setHole path (some y)).setParent x (some y) } := by
    have hinner : (t.links.setChild s.other x (t.links.child s y)).child s y = b.root? := by
      rw [TreeLinks.child_setChild, if_neg (fun heq => s.ne_other heq.1), hchildb]
    have hup : (((t.links.setChild s.other x b.root?).setParentAt b.root? (some x)).setChild s y
        (some x)).parent x = above path := by
      rw [TreeLinks.parent_setChild, TreeLinks.parent_setParentAt, if_neg hbx,
        TreeLinks.parent_setChild, hparentx]
    rw [← relink_eq haround' hxpath s (some y)]
    rw [hchildb] at hinner
    simp only [rotate, hchildy, hchildb, hinner, hup]
    rw [show TreeLinks.setParent y (above path) _ = m from rfl, hparentx']
  have hparentEnd : ∀ z, ((m.setHole path (some y)).setParent x (some y)).parent z =
      if z = x then some y else m.parent z := by
    intro z
    rw [TreeLinks.parent_setParent, TreeLinks.parent_setHole]
  have hchildEnd : ∀ u, ∀ z ∉ pathNodes path,
      ((m.setHole path (some y)).setParent x (some y)).child u z = m.child u z := by
    intro u z hz
    rw [TreeLinks.child_setParent, TreeLinks.child_setHole hz]
  refine ⟨_, hstep, holds_plug.mpr ⟨?_, ?_, ?_⟩⟩
  · rw [hangs_fork, hangs_fork, root?_fork]
    refine ⟨?_, ?_, ?_, ⟨?_, ?_, ?_, ?_, ?_⟩, ?_⟩
    · rw [hparentEnd, if_neg (Ne.symm hxy), hparent, if_pos rfl]
    · rw [hchildEnd _ y hypath, hchild, if_pos ⟨rfl, rfl⟩]
    · rw [hchildEnd _ y hypath, hchild, if_neg (fun heq => s.other_ne heq.1),
        if_neg (fun heq => hxy heq.2.symm), hchildc]
    · rw [hparentEnd, if_pos rfl]
    · rw [hchildEnd _ x hxpath, hchild, if_neg (fun heq => hxy heq.2),
        if_neg (fun heq => s.ne_other heq.1), hchilda]
    · rw [hchildEnd _ x hxpath, hchild, if_neg (fun heq => hxy heq.2), if_pos ⟨rfl, rfl⟩]
    · have hne : ∀ z ∈ a.inorder, z ≠ x ∧ z ≠ y ∧ b.root? ≠ some z := fun z hz =>
        ⟨fun heq => hxa (heq ▸ hz), fun heq => habc z hz (.inl heq),
          fun heq => habc z hz (.inr (.inl (mem_of_root? heq)))⟩
      refine hhangsa.congr (fun z hz => ?_) fun z hz u => ?_
      · rw [hparentEnd, if_neg (hne z hz).1, hparent, if_neg (hne z hz).2.1, if_neg (hne z hz).2.2]
      · rw [hchildEnd _ z (hout z (.inr (.inl hz))), hchild, if_neg (fun heq => (hne z hz).2.1 heq.2),
          if_neg (fun heq => (hne z hz).1 heq.2)]
    · have hne : ∀ z ∈ b.inorder, z ≠ x ∧ z ≠ y := fun z hz =>
        ⟨fun heq => hxyb (.inr (.inl (heq ▸ hz))), fun heq => hyb (heq ▸ hz)⟩
      refine hhangsb.move hb (fun z hz => ?_) (fun z hz hroot => ?_) fun z hz u => ?_
      · have hmem := mem_of_root? hz
        rw [hparentEnd, if_neg (hne z hmem).1, hparent, if_neg (hne z hmem).2, if_pos hz]
      · rw [hparentEnd, if_neg (hne z hz).1, hparent, if_neg (hne z hz).2, if_neg hroot]
      · rw [hchildEnd _ z (hout z (.inr (.inr (.inr (.inl hz))))), hchild,
          if_neg (fun heq => (hne z hz).2 heq.2), if_neg (fun heq => (hne z hz).1 heq.2)]
    · have hne : ∀ z ∈ c.inorder, z ≠ x ∧ z ≠ y ∧ b.root? ≠ some z := fun z hz =>
        ⟨fun heq => hxyb (.inr (.inr (heq ▸ hz))), fun heq => hyc (heq ▸ hz),
          fun heq => hbc z (mem_of_root? heq) hz⟩
      refine hhangsc.congr (fun z hz => ?_) fun z hz u => ?_
      · rw [hparentEnd, if_neg (hne z hz).1, hparent, if_neg (hne z hz).2.1, if_neg (hne z hz).2.2]
      · rw [hchildEnd _ z (hout z (.inr (.inr (.inr (.inr hz))))), hchild,
          if_neg (fun heq => (hne z hz).2.1 heq.2), if_neg (fun heq => (hne z hz).1 heq.2)]
  · rw [root?_fork]
    refine (haround'.setHole hpath (some y)).congr rfl (fun z hz => ?_) fun _ _ _ => rfl
    rw [hparentEnd, if_neg (hpathne z hz).1, TreeLinks.parent_setHole]
  · rw [inorder_plug, inorder_rotate, ← inorder_plug]
    exact h.nodup

end Rotate

/-! ### Insertion -/

section Insert

variable {t : RbTree α} {path rest : List (Frame α)} {sub c u : SearchTree α} {s : Side}
  {node p g : α} {h : Nat}

/-- Before a pass of `rb_insert_color`: the node is red, and all is in order but for the node above
it. -/
structure InsertAt (t : RbTree α) (node : α) (path : List (Frame α)) (sub : SearchTree α) (h : Nat) :
    Prop where
  holds : HoldsTree t.links (plug path sub)
  top : sub.root? = some node
  red : t.color node = .red
  balanced : Balanced t.color sub h
  around : PathBalanced t.color path h

/-- The last rotation of `rb_insert_color`. -/
theorem insert_turn (hholds : HoldsTree t.links (plug rest (fork s (fork s sub p c) g u))) :
    ∃ m, rotate s.other g t = some { t with links := m } ∧
      HoldsTree m (plug (⟨s, p, fork s c g u⟩ :: rest) sub) := by
  have hshape : fork s (fork s sub p c) g u = fork s.other u g (fork s.other c p sub) := by
    rw [fork_other, fork_other]
  rw [hshape] at hholds
  obtain ⟨m, hrotate, hm⟩ := rotate_holds hholds
  refine ⟨m, hrotate, ?_⟩
  rwa [fork_other, fork_other] at hm

/-- What is painted in front of that rotation. -/
theorem insert_paint (hholds : HoldsTree t.links (plug rest (fork s (fork s sub p c) g u)))
    (hc : BlackRoot t.color c) (hu : BlackRoot t.color u) (hcb : Balanced t.color c h)
    (hub : Balanced t.color u h) (hsub : Balanced t.color sub h)
    (hrest : PathBalanced t.color rest (h + 1)) :
    Balanced ((t.paint p .black).paint g .red).color sub h ∧
      PathBalanced ((t.paint p .black).paint g .red).color (⟨s, p, fork s c g u⟩ :: rest) h := by
  have hnodup := hholds.nodup
  simp only [nodup_plug, nodup_fork, mem_fork] at hnodup
  obtain ⟨⟨hgsub, hgu, ⟨hpsub, hpc, -⟩, -, hout⟩, -, hpath⟩ := hnodup
  have hgp : p ≠ g := fun heq => hgsub (.inl heq.symm)
  have hpu : p ∉ u.inorder := hout p (.inl rfl)
  have hprest : p ∉ pathNodes rest := hpath p (.inr (.inl (.inl rfl)))
  have hgrest : g ∉ pathNodes rest := hpath g (.inl rfl)
  have hgc : g ∉ c.inorder := fun hg => hgsub (.inr (.inr hg))
  refine ⟨(hsub.paint hpsub).paint fun hg => hgsub (.inr (.inl hg)), ?_⟩
  have hblack : ((t.paint p .black).paint g .red).color p = .black := by
    simp only [RbTree.paint, Function.update_of_ne hgp, Function.update_self]
  have hred : ((t.paint p .black).paint g .red).color g = .red := by
    simp only [RbTree.paint, Function.update_self]
  refine (pathBalanced_black hblack).mpr ⟨(balanced_red hred).mpr ⟨?_, ?_, ?_, ?_⟩, ?_⟩
  · exact (hc.paint hpc).paint hgc
  · exact (hu.paint hpu).paint hgu
  · exact (hcb.paint hpc).paint hgc
  · exact (hub.paint hpu).paint hgu
  · exact (hrest.paint hprest).paint hgrest

omit [DecidableEq α] in
theorem isRed_iff {q : Option α} : t.isRed q = true ↔ ∃ x, q = some x ∧ t.color x = .red := by
  cases q <;> simp [RbTree.isRed]

omit [DecidableEq α] in
theorem not_isRed {tree : SearchTree α} : t.isRed tree.root? = false ↔ BlackRoot t.color tree := by
  rw [Bool.eq_false_iff, Ne, isRed_iff]
  constructor
  · intro h x hx
    cases hc : t.color x with
    | red => exact absurd ⟨x, hx, hc⟩ h
    | black => rfl
  · rintro h ⟨x, hx, hred⟩
    rw [h x hx] at hred
    exact Color.noConfusion hred

/-- No red node is above the place. -/
def AboveBlack (color : α → Color) (path : List (Frame α)) : Prop :=
  ∀ y, above path = some y → color y = .black

/-- The uncle is red: the three nodes are painted, and the grandparent is next. -/
theorem insertAt_up {f e : Frame α} (hat : InsertAt t node (f :: e :: rest) sub h)
    (hf : t.color f.node = .red) (hred : t.isRed e.sibling.root? = true) :
    InsertAt (((t.paintAt e.sibling.root? .black).paint f.node .black).paint e.node .red) e.node rest
      (fork e.side (fork f.side sub f.node f.sibling) e.node e.sibling) (h + 1) := by
  obtain ⟨hholds, -, -, hbalanced, haround⟩ := hat
  obtain ⟨v, hv, hvred⟩ := isRed_iff.mp hred
  obtain ⟨hfb, hfblack, ⟨y, hy, hyblack⟩, haround⟩ := (pathBalanced_red hf).mp haround
  obtain rfl : e.node = y := by simpa using hy
  obtain ⟨heb, hrest⟩ := (pathBalanced_black hyblack).mp haround
  obtain ⟨a, b, hsibling⟩ := exists_fork .left hv
  have hnodup := hholds.nodup
  rw [plug, plug, hsibling] at hnodup
  rw [hsibling] at heb
  simp only [nodup_plug, nodup_fork, mem_fork] at hnodup
  obtain ⟨⟨hesub, hesib, ⟨hfsub, hfsib, -⟩, ⟨hva, hvb, -⟩, hout⟩, -, hpath⟩ := hnodup
  have hvsub : v ∉ sub.inorder := fun hmem => hout v (.inr (.inl hmem)) (.inl rfl)
  have hvfsib : v ∉ f.sibling.inorder := fun hmem => hout v (.inr (.inr hmem)) (.inl rfl)
  have hfesib : f.node ∉ (fork .left a v b).inorder := fun hmem => hout f.node (.inl rfl) (mem_fork.mp hmem)
  have heesib : e.node ∉ (fork .left a v b).inorder := fun hmem => hesib (mem_fork.mp hmem)
  have hef : f.node ≠ e.node := fun heq => hesub (.inl heq.symm)
  rw [hv, hsibling]
  have hfblack' : (((t.paint v .black).paint f.node .black).paint e.node .red).color f.node = .black := by
    simp only [RbTree.paint, Function.update_of_ne hef, Function.update_self]
  have hered : (((t.paint v .black).paint f.node .black).paint e.node .red).color e.node = .red := by
    simp only [RbTree.paint, Function.update_self]
  have hsubEnd : Balanced (((t.paint v .black).paint f.node .black).paint e.node .red).color sub h :=
    ((hbalanced.paint hvsub).paint hfsub).paint fun hmem => hesub (.inr (.inl hmem))
  have hfsibEnd : Balanced (((t.paint v .black).paint f.node .black).paint e.node .red).color
      f.sibling h := ((hfb.paint hvfsib).paint hfsib).paint fun hmem => hesub (.inr (.inr hmem))
  have hesibEnd : Balanced (((t.paint v .black).paint f.node .black).paint e.node .red).color
      (fork .left a v b) (h + 1) := ((heb.blacken hvred hva hvb).paint hfesib).paint heesib
  have hroot : BlackRoot (((t.paint v .black).paint f.node .black).paint e.node .red).color
      (fork .left a v b) := by
    refine BlackRoot.paint (BlackRoot.paint ?_ hfesib) heesib
    rw [blackRoot_fork]
    exact Function.update_self ..
  refine ⟨?_, root?_fork .., hered, (balanced_red hered).mpr
    ⟨blackRoot_fork.mpr hfblack', hroot, (balanced_black_succ hfblack').mpr ⟨hsubEnd, hfsibEnd⟩,
      hesibEnd⟩, ?_⟩
  · rw [plug, plug, hsibling] at hholds
    exact hholds
  · exact ((hrest.paint (hpath v (.inr (.inr (.inl rfl))))).paint
      (hpath f.node (.inr (.inl (.inl rfl))))).paint (hpath e.node (.inl rfl))

/-- The uncle is black, and the node is on the same side as its parent. -/
theorem insertAt_outer {f e : Frame α} (hat : InsertAt t node (f :: e :: rest) sub h)
    (hf : t.color f.node = .red) (hblack : t.isRed e.sibling.root? = false)
    (hside : f.side = e.side) :
    ∃ m, rotate e.side.other e.node ((t.paint f.node .black).paint e.node .red) =
        some { (t.paint f.node .black).paint e.node .red with links := m } ∧
      InsertAt { (t.paint f.node .black).paint e.node .red with links := m } node
        (⟨e.side, f.node, fork e.side f.sibling e.node e.sibling⟩ :: rest) sub h ∧
      ((t.paint f.node .black).paint e.node .red).color f.node = .black := by
  obtain ⟨hholds, htop, hred, hbalanced, haround⟩ := hat
  obtain ⟨hfb, hfblack, ⟨y, hy, hyblack⟩, haround⟩ := (pathBalanced_red hf).mp haround
  obtain rfl : e.node = y := by simpa using hy
  obtain ⟨heb, hrest⟩ := (pathBalanced_black hyblack).mp haround
  rw [plug, plug, hside] at hholds
  obtain ⟨hsubEnd, haroundEnd⟩ := insert_paint hholds hfblack (not_isRed.mp hblack) hfb heb
    hbalanced hrest
  have hholds' : HoldsTree ((t.paint f.node .black).paint e.node .red).links
      (plug rest (fork e.side (fork e.side sub f.node f.sibling) e.node e.sibling)) := hholds
  obtain ⟨m, hrotate, hm⟩ := insert_turn hholds'
  have hnodup := hholds.nodup
  simp only [nodup_plug, nodup_fork, mem_fork] at hnodup
  obtain ⟨⟨hesub, -, ⟨hfsub, -⟩, -⟩, -⟩ := hnodup
  have hmem := mem_of_root? htop
  have hnf : node ≠ f.node := ne_of_mem_of_not_mem hmem hfsub
  have hne : node ≠ e.node := fun heq => hesub (.inr (.inl (heq ▸ hmem)))
  have hfe : f.node ≠ e.node := fun heq => hesub (.inl heq.symm)
  refine ⟨m, hrotate, ⟨hm, htop, ?_, hsubEnd, haroundEnd⟩, ?_⟩
  · simp only [RbTree.paint, Function.update_of_ne hne, Function.update_of_ne hnf, hred]
  · simp only [RbTree.paint, Function.update_of_ne hfe, Function.update_self]

/-- The uncle is black, and the node is on the other side: the parent is turned first and is the next
node. -/
theorem insertAt_inner {f e : Frame α} (hat : InsertAt t node (f :: e :: rest) sub h)
    (hf : t.color f.node = .red) (hside : f.side = e.side.other) :
    ∃ m sub' f', rotate e.side f.node t = some { t with links := m } ∧
      InsertAt { t with links := m } f.node (f' :: e :: rest) sub' h ∧
      t.color f'.node = .red ∧ f'.node = node ∧ f'.side = e.side ∧
      (plug (f' :: e :: rest) sub').inorder = (plug (f :: e :: rest) sub).inorder := by
  obtain ⟨hholds, htop, hred, hbalanced, haround⟩ := hat
  obtain ⟨hfb, hfblack, ⟨y, hy, hyblack⟩, haround⟩ := (pathBalanced_red hf).mp haround
  obtain ⟨a, b, rfl⟩ := exists_fork e.side htop
  obtain ⟨hablack, hbblack, hab, hbb⟩ := (balanced_red hred).mp hbalanced
  have hshape : plug (f :: e :: rest) (fork e.side a node b) =
      plug (e :: rest) (fork e.side f.sibling f.node (fork e.side a node b)) := by
    rw [plug, hside, fork_other]
  rw [hshape] at hholds
  obtain ⟨m, hrotate, hm⟩ := rotate_holds hholds
  refine ⟨m, fork e.side f.sibling f.node a, ⟨e.side, node, b⟩, hrotate,
    ⟨hm, root?_fork .., hf, ?_, ?_⟩, hred, rfl, rfl, ?_⟩
  · exact (balanced_red hf).mpr ⟨hfblack, hablack, hfb, hab⟩
  · exact (pathBalanced_red hred).mpr ⟨hbb, hbblack, ⟨y, hy, hyblack⟩, haround⟩
  · rw [hshape, plug, inorder_plug, inorder_plug, inorder_rotate]

omit [DecidableEq α] in
theorem inorder_outer {f e : Frame α} (hside : f.side = e.side) :
    (plug (⟨e.side, f.node, fork e.side f.sibling e.node e.sibling⟩ :: rest) sub).inorder =
      (plug (f :: e :: rest) sub).inorder := by
  rw [plug, plug, plug, hside, inorder_plug, inorder_plug rest, inorder_rotate]

/-- The loop ends when no red node is above. -/
theorem insertStep_done (hat : InsertAt t node path sub h) (habove : AboveBlack t.color path) :
    insertStep (node, t) = .done (some t) := by
  have hparent := hat.holds.parent_eq hat.top
  cases path with
  | nil => simp only [insertStep, hparent, above_nil]
  | cons f path => simp only [insertStep, hparent, above_cons, habove f.node rfl, if_pos]

/-- One pass of the loop. -/
theorem insertStep_spec (hat : InsertAt t node path sub h) :
    AboveBlack t.color path ∨
    ∃ node' t' path' sub' h', insertStep (node, t) = .next (node', t') ∧
      InsertAt t' node' path' sub' h' ∧ (plug path' sub').inorder = (plug path sub).inorder ∧
      2 ≤ path.length ∧ (path'.length + 2 ≤ path.length ∨ AboveBlack t'.color path') := by
  have hparent := hat.holds.parent_eq hat.top
  cases path with
  | nil => exact .inl fun y hy => by simp at hy
  | cons f path =>
      rw [above_cons] at hparent
      cases hf : t.color f.node with
      | black =>
          refine .inl fun y hy => ?_
          obtain rfl : f.node = y := by simpa using hy
          exact hf
      | red =>
          obtain ⟨-, -, ⟨y, hy, -⟩, -⟩ := (pathBalanced_red hf).mp hat.around
          cases path with
          | nil => simp at hy
          | cons e rest =>
              have hup : HoldsTree t.links (plug (e :: rest) (fork f.side sub f.node f.sibling)) :=
                hat.holds
              have hgparent : t.links.parent f.node = some e.node := hup.parent_eq (root?_fork ..)
              have hnodup := hat.holds.nodup
              rw [plug, plug] at hnodup
              simp only [nodup_plug, nodup_fork, mem_fork] at hnodup
              obtain ⟨⟨-, -, ⟨-, -, -, -, hapart⟩, -, hout⟩, -⟩ := hnodup
              have hside := hup.side_eq (by
                rw [root?_fork]
                exact fun heq => hout f.node (.inl rfl) (mem_of_root? heq))
              rw [root?_fork] at hside
              have huncle : t.links.child e.side.other e.node = e.sibling.root? :=
                (HoldsTree.child_eq (show HoldsTree t.links (plug rest _) from hup)).2
              have hchildren : t.links.child f.side f.node = sub.root? ∧
                  t.links.child f.side.other f.node = f.sibling.root? := hup.child_eq
              have hstep : ∀ v, insertFix e.side node f.node e.node t = some v →
                  insertStep (node, t) = .next v := by
                intro v hfix
                simp only [insertStep, hparent, hf, hgparent, hside, hfix]
                rfl
              refine .inr ?_
              cases hred : t.isRed e.sibling.root? with
              | true =>
                  refine ⟨_, _, rest, _, h + 1, hstep _ ?_, insertAt_up hat hf hred, ?_, ?_⟩
                  · rw [insertFix, huncle, if_pos hred]
                  · rfl
                  · simp
              | false =>
                  rcases e.side.eq_or_eq_other f.side with hsame | hother
                  · obtain ⟨m, hrotate, hat', hfblack⟩ := insertAt_outer hat hf hred hsame
                    have hnot : t.links.child e.side.other f.node ≠ some node := by
                      rw [← hsame, hchildren.2]
                      exact fun heq => hapart node (mem_of_root? hat.top) (mem_of_root? heq)
                    refine ⟨_, _, _, sub, h, hstep _ ?_, hat', ?_, ?_, .inr fun y hy => ?_⟩
                    · rw [insertFix, huncle, hred, if_neg Bool.false_ne_true, if_neg hnot, hrotate]
                      rfl
                    · exact inorder_outer hsame
                    · simp
                    · obtain rfl : f.node = y := by simpa using hy
                      exact hfblack
                  · obtain ⟨m, sub', f', hturn, hturned, hf', rfl, hsame, hinorder⟩ :=
                      insertAt_inner hat hf hother
                    obtain ⟨m', hrotate, hat', hfblack⟩ := insertAt_outer hturned hf' hred hsame
                    have hinner : t.links.child e.side.other f.node = some f'.node := by
                      rw [← hother, hchildren.1, hat.top]
                    refine ⟨_, _, _, sub', h, hstep _ ?_, hat', ?_, ?_, .inr fun y hy => ?_⟩
                    · rw [insertFix, huncle, hred, if_neg Bool.false_ne_true, if_pos hinner, hturn,
                        Option.bind_eq_bind, Option.bind_some, hrotate]
                      rfl
                    · exact (inorder_outer hsame).trans hinorder
                    · simp
                    · obtain rfl : f'.node = y := by simpa using hy
                      exact hfblack

/-- Enough passes for the nodes above lead to a node without a red one above it. -/
theorem insertLoop_spec {fuel : Nat} (hat : InsertAt t node path sub h)
    (hfuel : path.length + 1 ≤ fuel) :
    ∃ node' t' path' sub' h', loop insertStep fuel (node, t) = some (some t') ∧
      InsertAt t' node' path' sub' h' ∧ AboveBlack t'.color path' ∧
      (plug path' sub').inorder = (plug path sub).inorder := by
  induction fuel generalizing t node path sub h with
  | zero => exact absurd hfuel (Nat.not_succ_le_zero _)
  | succ fuel ih =>
      rcases insertStep_spec hat with habove |
        ⟨node', t', path', sub', h', hnext, hat', hinorder, hlength, hshort⟩
      · exact ⟨node, t, path, sub, h, loop_done (insertStep_done hat habove) fuel, hat, habove, rfl⟩
      · rcases hshort with hshort | habove
        · obtain ⟨node'', t'', path'', sub'', h'', hloop, hat'', habove, hinorder'⟩ :=
            ih hat' (by omega)
          exact ⟨node'', t'', path'', sub'', h'', by rw [loop_next hnext, hloop], hat'', habove,
            hinorder'.trans hinorder⟩
        · obtain ⟨more, rfl⟩ : ∃ more, fuel = more + 1 := ⟨fuel - 1, by omega⟩
          exact ⟨node', t', path', sub', h', by
            rw [loop_next hnext, loop_done (insertStep_done hat' habove)], hat', habove, hinorder⟩

/-- The tree is held in memory and is a red-black tree. -/
structure RbHolds (t : RbTree α) (tree : SearchTree α) : Prop where
  holds : HoldsTree t.links tree
  redBlack : RedBlack t.color tree

/-- `rb_insert_color` makes a red-black tree again, with the nodes in the same order. -/
theorem rbInsertColor_spec {fuel : Nat} (hat : InsertAt t node path sub h)
    (hfuel : path.length + 1 ≤ fuel) :
    ∃ t' tree, rbInsertColor fuel node t = some t' ∧ RbHolds t' tree ∧
      tree.inorder = (plug path sub).inorder := by
  obtain ⟨top, t', path', sub', h', hloop, ⟨hholds, htop, hred, hbalanced, haround⟩, habove,
    hinorder⟩ := insertLoop_spec hat hfuel
  cases path' with
  | nil =>
      obtain ⟨a, b, rfl⟩ := exists_fork .left htop
      obtain ⟨hta, htb, -⟩ := nodup_fork.mp hholds.nodup
      refine ⟨t'.paint top .black, fork .left a top b, ?_, ⟨hholds, ?_, _,
        hbalanced.blacken hred hta htb⟩, hinorder⟩
      · have hroot : t'.links.root = some top := hholds.root.trans htop
        rw [rbInsertColor, hloop, Option.join_some, Option.bind_eq_bind, Option.bind_some, hroot]
        rfl
      · exact blackRoot_fork.mpr (Function.update_self ..)
  | cons f rest =>
      obtain ⟨r, -, hr⟩ := exists_root?_plug f rest sub'
      have hredBlack : RedBlack t'.color (plug (f :: rest) sub') := by
        refine redBlack_plug.mpr ⟨h', hbalanced, haround, fun hwants => ?_⟩
        have hf := habove f.node rfl
        rw [hwants f.node rfl] at hf
        exact Color.noConfusion hf
      have hsame : t'.paint r .black = t' := by
        have hblack : t'.color r = .black := hredBlack.root r hr
        rw [RbTree.paint, ← hblack, Function.update_eq_self]
      refine ⟨t', plug (f :: rest) sub', ?_, ⟨hholds, hredBlack⟩, hinorder⟩
      have hroot : t'.links.root = some r := hholds.root.trans hr
      rw [rbInsertColor, hloop, Option.join_some, Option.bind_eq_bind, Option.bind_some, hroot,
        Option.bind_eq_bind, Option.bind_some, hsame]

end Insert

/-! ### A new node -/

section Link

variable {t : RbTree α} {m : TreeLinks α} {path : List (Frame α)} {tree sub : SearchTree α}
  {node : α}

/-- The pointer to a place. -/
def linkPlace (path : List (Frame α)) : Option (α × Side) :=
  path.head?.map fun f => (f.node, f.side)

omit [DecidableEq α] in
theorem pointerAt_eq (hholds : HoldsTree m (plug path sub)) :
    pointerAt m (linkPlace path) = sub.root? := by
  have haround := (holds_plug.mp hholds).2.1
  cases path with
  | nil => exact haround
  | cons f path => exact haround.1

/-- `rb_link_node` hangs the node at the place. -/
theorem rbLinkNode_holds (hholds : HoldsTree t.links (plug path leaf))
    (hnew : node ∉ (plug path leaf).inorder) :
    HoldsTree (rbLinkNode node (linkPlace path) t).links (plug path (fork .left leaf node leaf)) := by
  obtain ⟨-, haround, hnodup⟩ := holds_plug.mp hholds
  rw [nodup_plug] at hnodup
  have hout : node ∉ pathNodes path := fun hmem => hnew (mem_plug.mpr (.inr hmem))
  let m := ((t.links.setParent node (above path)).setChild .left node none).setChild .right node none
  have hlinks : (rbLinkNode node (linkPlace path) t).links = m.setHole path (some node) := by
    cases path <;> rfl
  have hparent : ∀ z, m.parent z = if z = node then above path else t.links.parent z := by
    intro z
    simp only [m, TreeLinks.parent_setChild, TreeLinks.parent_setParent]
  have hchild : ∀ u z, m.child u z = if z = node then none else t.links.child u z := by
    intro u z
    simp only [m, TreeLinks.child_setChild, TreeLinks.child_setParent]
    cases u <;> by_cases hz : z = node <;> simp [hz]
  have haround' : Around m path none := by
    refine haround.congr rfl (fun z hz => ?_) fun z hz u => ?_
    · rw [hparent, if_neg (ne_of_mem_of_not_mem hz hout)]
    · rw [hchild, if_neg (ne_of_mem_of_not_mem hz hout)]
  rw [hlinks]
  refine holds_plug.mpr ⟨hangs_fork.mpr ⟨?_, ?_, ?_, trivial, trivial⟩, ?_, ?_⟩
  · rw [TreeLinks.parent_setHole, hparent, if_pos rfl]
  · rw [TreeLinks.child_setHole hout, hchild, if_pos rfl]
    rfl
  · rw [TreeLinks.child_setHole hout, hchild, if_pos rfl]
    rfl
  · rw [root?_fork]
    exact haround'.setHole hnodup.2.1 (some node)
  · refine nodup_plug.mpr ⟨by simp [fork, inorder], hnodup.2.1, fun z hz => ?_⟩
    obtain rfl : z = node := by simpa [fork, inorder] using hz
    exact hout

theorem rbLinkNode_at (ht : RbHolds t (plug path leaf)) (hnew : node ∉ (plug path leaf).inorder) :
    InsertAt (rbLinkNode node (linkPlace path) t) node path (fork .left leaf node leaf) 0 := by
  obtain ⟨h, hbalanced, haround, -⟩ := redBlack_plug.mp ht.redBlack
  obtain rfl : h = 0 := hbalanced
  have hred : (rbLinkNode node (linkPlace path) t).color node = .red := Function.update_self ..
  refine ⟨rbLinkNode_holds ht.holds hnew, root?_fork .., hred, ?_, ?_⟩
  · exact (balanced_red hred).mpr ⟨blackRoot_leaf, blackRoot_leaf, rfl, rfl⟩
  · exact haround.paint fun hmem => hnew (mem_plug.mpr (.inr hmem))

omit [DecidableEq α] in
/-- The way down leads to the place where `SearchTree.link` hangs the node. -/
theorem descend_spec (before : α → Bool) (node : α) (path : List (Frame α)) {fuel : Nat}
    (hholds : HoldsTree m (plug path sub)) (hfuel : depth sub + 1 ≤ fuel) :
    ∃ path', loop (descendStep before m) fuel (linkPlace path) = some (linkPlace path') ∧
      plug path' leaf = plug path sub ∧
      plug path' (fork .left leaf node leaf) = plug path (sub.link before node).1 := by
  have hpointer := pointerAt_eq hholds
  induction sub generalizing path fuel with
  | leaf =>
      obtain ⟨more, rfl⟩ : ∃ more, fuel = more + 1 := ⟨fuel - 1, by omega⟩
      refine ⟨path, loop_done ?_ more, rfl, rfl⟩
      rw [descendStep, hpointer]
      rfl
  | node l y r ihLeft ihRight =>
      obtain ⟨more, rfl⟩ : ∃ more, fuel = more + 1 := ⟨fuel - 1, by omega⟩
      simp only [depth] at hfuel
      have hfuelLeft : depth l + 1 ≤ more := by omega
      have hfuelRight : depth r + 1 ≤ more := by omega
      cases hy : before y with
      | true =>
          have hstep : descendStep before m (linkPlace path) =
              .next (linkPlace (⟨.left, y, r⟩ :: path)) := by
            rw [descendStep, hpointer]
            simp only [root?, hy, if_true]
            rfl
          have hholds' : HoldsTree m (plug (⟨.left, y, r⟩ :: path) l) := hholds
          obtain ⟨path', hloop, hplug, hlink⟩ := ihLeft _ hholds' hfuelLeft (pointerAt_eq hholds')
          refine ⟨path', by rw [loop_next hstep, hloop], hplug, ?_⟩
          rw [hlink, SearchTree.link, hy]
          rfl
      | false =>
          have hstep : descendStep before m (linkPlace path) =
              .next (linkPlace (⟨.right, y, l⟩ :: path)) := by
            rw [descendStep, hpointer]
            simp only [root?, hy, Bool.false_eq_true, if_false]
            rfl
          have hholds' : HoldsTree m (plug (⟨.right, y, l⟩ :: path) r) := hholds
          obtain ⟨path', hloop, hplug, hlink⟩ := ihRight _ hholds' hfuelRight (pointerAt_eq hholds')
          refine ⟨path', by rw [loop_next hstep, hloop], hplug, ?_⟩
          rw [hlink, SearchTree.link, hy]
          rfl

/-- A node that is not in the tree is inserted where the order says, within as many passes as the tree
is deep. -/
theorem rbInsert_spec {fuel : Nat} (ht : RbHolds t tree) (hnew : node ∉ tree.inorder)
    (hfuel : depth tree + 1 ≤ fuel) (before : α → Bool) :
    ∃ t' tree', rbInsert fuel before node t = some t' ∧ RbHolds t' tree' ∧
      tree'.inorder = (tree.link before node).1.inorder := by
  obtain ⟨path, hloop, hplug, hlink⟩ := descend_spec before node [] ht.holds hfuel
  rw [plug] at hplug hlink
  rw [← hplug] at ht hnew
  have hlength := length_path_le path (leaf : SearchTree α)
  rw [hplug] at hlength
  have hfuel' : path.length + 1 ≤ fuel := by omega
  obtain ⟨t', tree', hcolor, ht', hinorder⟩ := rbInsertColor_spec (rbLinkNode_at ht hnew) hfuel'
  refine ⟨t', tree', ?_, ht', by rw [hinorder, hlink]⟩
  have hstart : loop (descendStep before t.links) fuel none = some (linkPlace path) := hloop
  rw [rbInsert, hstart, Option.bind_eq_bind, Option.bind_some, hcolor]

end Link

end Workflow.Kernel

/-
Module: Workflow.Lib.LinkedTree
Layer: Lib
Purpose: Binary trees in memory, where every node knows its parent and its two children. A place in a
  tree is the path of frames from it up to the root; `plug` fills the place again. `HoldsTree` says
  which tree the links form. It splits at every place into what hangs there and what is around it
  (`holds_plug`), and each part only depends on the links of its own nodes, so an operation that works
  at one place is an operation on the tree. Left and right are mirror images throughout.
Trusted boundary: none
Main exports: Side, SearchTree.root?, SearchTree.fork, Frame, plug, inorder_plug, nodup_plug,
  exists_plug, TreeLinks, Hangs, Around, HoldsTree, holds_plug, HoldsTree.side_eq, Hangs.congr,
  Hangs.move, Around.congr, Around.setHole, relink_eq
-/
import Workflow.Lib.SearchTree
import Mathlib.Data.List.Nodup
import Mathlib.Logic.Function.Basic

namespace Workflow.Lib

universe u

variable {α : Type u}

inductive Side where
  | left
  | right
deriving DecidableEq, Repr

namespace Side

def other : Side → Side
  | left => right
  | right => left

@[simp]
theorem other_other (s : Side) : s.other.other = s := by
  cases s <;> rfl

@[simp]
theorem other_ne (s : Side) : s.other ≠ s := by
  cases s <;> decide

@[simp]
theorem ne_other (s : Side) : s ≠ s.other :=
  s.other_ne.symm

theorem eq_or_eq_other (s t : Side) : t = s ∨ t = s.other := by
  cases s <;> cases t <;> decide

end Side

namespace SearchTree

/-- The node at the top. -/
def root? : SearchTree α → Option α
  | leaf => none
  | node _ x _ => some x

/-- A node with `a` on the side `s` and `b` on the other one. -/
def fork (s : Side) (a : SearchTree α) (x : α) (b : SearchTree α) : SearchTree α :=
  match s with
  | .left => node a x b
  | .right => node b x a

variable {s : Side} {a b t : SearchTree α} {x y : α}

/-- Seen from the other side. -/
theorem fork_other (s : Side) (a : SearchTree α) (x : α) (b : SearchTree α) :
    fork s.other a x b = fork s b x a := by
  cases s <;> rfl

@[simp]
theorem root?_fork (s : Side) (a : SearchTree α) (x : α) (b : SearchTree α) :
    (fork s a x b).root? = some x := by
  cases s <;> rfl

theorem root?_eq_none : t.root? = none ↔ t = leaf := by
  cases t <;> simp [root?]

/-- The root is a node. -/
theorem mem_of_root? (h : t.root? = some x) : x ∈ t.inorder := by
  cases t with
  | leaf => simp [root?] at h
  | node l y r =>
      obtain rfl : y = x := by simpa [root?] using h
      simp [inorder]

/-- A tree with a node at the top. -/
theorem exists_fork (s : Side) (h : t.root? = some x) : ∃ a b, t = fork s a x b := by
  cases t with
  | leaf => simp [root?] at h
  | node l y r =>
      obtain rfl : y = x := by simpa [root?] using h
      cases s with
      | left => exact ⟨l, r, rfl⟩
      | right => exact ⟨r, l, rfl⟩

/-- The nodes of a tree are the root and those of the two sides. -/
theorem inorder_fork_perm (s : Side) (a : SearchTree α) (x : α) (b : SearchTree α) :
    (fork s a x b).inorder.Perm (x :: (a.inorder ++ b.inorder)) := by
  cases s with
  | left => exact List.perm_middle
  | right => exact List.perm_middle.trans (List.perm_append_comm.cons x)

theorem mem_fork : y ∈ (fork s a x b).inorder ↔ y = x ∨ y ∈ a.inorder ∨ y ∈ b.inorder := by
  rw [(inorder_fork_perm s a x b).mem_iff, List.mem_cons, List.mem_append]

/-- No node is twice in a tree. -/
theorem nodup_fork : (fork s a x b).inorder.Nodup ↔
    x ∉ a.inorder ∧ x ∉ b.inorder ∧ a.inorder.Nodup ∧ b.inorder.Nodup ∧
      ∀ y ∈ a.inorder, y ∉ b.inorder := by
  rw [(inorder_fork_perm s a x b).nodup_iff, List.nodup_cons, List.mem_append, List.nodup_append]
  constructor
  · rintro ⟨hx, ha, hb, hab⟩
    exact ⟨fun h => hx (.inl h), fun h => hx (.inr h), ha, hb, fun y hy hy' => hab y hy y hy' rfl⟩
  · rintro ⟨hxa, hxb, ha, hb, hab⟩
    exact ⟨fun h => h.elim hxa hxb, ha, hb, fun y hy z hz heq => hab y hy (heq ▸ hz)⟩

/-- A rotation keeps the order. -/
theorem inorder_rotate (s : Side) (a b c : SearchTree α) (x y : α) :
    (fork s (fork s a x b) y c).inorder = (fork s a x (fork s b y c)).inorder := by
  cases s <;> simp [fork, inorder]

end SearchTree

open SearchTree

/-! ### Places -/

/-- One step towards the root: the place is on this side of a node, with a tree on the other side. -/
structure Frame (α : Type u) where
  side : Side
  node : α
  sibling : SearchTree α

/-- The tree around a place, with `t` in it. -/
def plug : List (Frame α) → SearchTree α → SearchTree α
  | [], t => t
  | f :: path, t => plug path (fork f.side t f.node f.sibling)

/-- The node above a place. -/
def above (path : List (Frame α)) : Option α :=
  path.head?.map Frame.node

/-- All nodes around a place. -/
def pathNodes : List (Frame α) → List α
  | [] => []
  | f :: path => f.node :: (f.sibling.inorder ++ pathNodes path)

def pathBefore : List (Frame α) → List α
  | [] => []
  | f :: path =>
      match f.side with
      | .left => pathBefore path
      | .right => pathBefore path ++ (f.sibling.inorder ++ [f.node])

def pathAfter : List (Frame α) → List α
  | [] => []
  | f :: path =>
      match f.side with
      | .left => (f.node :: f.sibling.inorder) ++ pathAfter path
      | .right => pathAfter path

section Places

variable {path : List (Frame α)} {f : Frame α} {t : SearchTree α} {x : α}

@[simp]
theorem above_nil : above ([] : List (Frame α)) = none :=
  rfl

@[simp]
theorem above_cons : above (f :: path) = some f.node :=
  rfl

/-- A hole in a hole. -/
theorem plug_append (inner outer : List (Frame α)) (t : SearchTree α) :
    plug (inner ++ outer) t = plug outer (plug inner t) := by
  induction inner generalizing t with
  | nil => rfl
  | cons f inner ih => exact ih _

/-- Nothing is before a place at the left end. -/
theorem pathBefore_left {path : List (Frame α)} (h : ∀ f ∈ path, f.side = .left) :
    pathBefore path = [] := by
  induction path with
  | nil => rfl
  | cons f path ih =>
      simp only [pathBefore, h f List.mem_cons_self]
      exact ih fun g hg => h g (List.mem_cons_of_mem f hg)

/-- Nothing is behind a place at the right end. -/
theorem pathAfter_right {path : List (Frame α)} (h : ∀ f ∈ path, f.side = .right) :
    pathAfter path = [] := by
  induction path with
  | nil => rfl
  | cons f path ih =>
      simp only [pathAfter, h f List.mem_cons_self]
      exact ih fun g hg => h g (List.mem_cons_of_mem f hg)

/-- The order of a tree, seen from a place. -/
theorem inorder_plug (path : List (Frame α)) (t : SearchTree α) :
    (plug path t).inorder = pathBefore path ++ t.inorder ++ pathAfter path := by
  induction path generalizing t with
  | nil => rw [plug, pathBefore, pathAfter, List.nil_append, List.append_nil]
  | cons f path ih =>
      obtain ⟨side, y, sibling⟩ := f
      rw [plug, ih]
      cases side <;> simp [fork, inorder, pathBefore, pathAfter]

/-- The nodes of the whole are those in the hole and those around it. -/
theorem plug_perm (path : List (Frame α)) (t : SearchTree α) :
    (plug path t).inorder.Perm (t.inorder ++ pathNodes path) := by
  induction path generalizing t with
  | nil => rw [plug, pathNodes, List.append_nil]
  | cons f path ih =>
      have hfork := (inorder_fork_perm f.side t f.node f.sibling).append_right (pathNodes path)
      rw [List.cons_append, List.append_assoc] at hfork
      exact ((ih _).trans hfork).trans List.perm_middle.symm

/-- A node of the whole lies in the hole or around it. -/
theorem mem_plug : x ∈ (plug path t).inorder ↔ x ∈ t.inorder ∨ x ∈ pathNodes path := by
  rw [(plug_perm path t).mem_iff, List.mem_append]

/-- No node lies both in the hole and around it. -/
theorem nodup_plug : (plug path t).inorder.Nodup ↔
    t.inorder.Nodup ∧ (pathNodes path).Nodup ∧ ∀ y ∈ t.inorder, y ∉ pathNodes path := by
  rw [(plug_perm path t).nodup_iff, List.nodup_append]
  exact and_congr_right fun _ => and_congr_right fun _ =>
    ⟨fun h y hy hy' => h y hy y hy' rfl, fun h y hy z hz heq => h y hy (heq ▸ hz)⟩

/-- The node above a hole lies around it. -/
theorem mem_pathNodes_of_above (h : above path = some x) : x ∈ pathNodes path := by
  cases path with
  | nil => simp at h
  | cons f path =>
      obtain rfl : f.node = x := by simpa using h
      exact List.mem_cons_self

/-- The top of a tree is not below the top. -/
theorem exists_root?_plug (f : Frame α) (path : List (Frame α)) (t : SearchTree α) :
    ∃ r ∈ pathNodes (f :: path), (plug (f :: path) t).root? = some r := by
  induction path generalizing f t with
  | nil => exact ⟨f.node, List.mem_cons_self, root?_fork ..⟩
  | cons g path ih =>
      obtain ⟨r, hmem, hroot⟩ := ih g (fork f.side t f.node f.sibling)
      exact ⟨r, List.mem_cons_of_mem _ (List.mem_append_right _ hmem), hroot⟩

/-- Every node of a tree has its place. -/
theorem exists_plug (h : x ∈ t.inorder) : ∃ path l r, t = plug path (node l x r) := by
  induction t with
  | leaf => exact absurd h List.not_mem_nil
  | node l y r ihLeft ihRight =>
      rcases List.mem_append.mp h with h | h
      · obtain ⟨path, a, b, rfl⟩ := ihLeft h
        exact ⟨path ++ [⟨.left, y, r⟩], a, b, by rw [plug_append]; rfl⟩
      · rcases List.mem_cons.mp h with rfl | h
        · exact ⟨[], l, r, rfl⟩
        · obtain ⟨path, a, b, rfl⟩ := ihRight h
          exact ⟨path ++ [⟨.right, y, l⟩], a, b, by rw [plug_append]; rfl⟩

end Places

/-! ### Links -/

structure TreeLinks (α : Type u) where
  root : Option α
  parent : α → Option α
  child : Side → α → Option α

/-- The tree `t` hangs below `up`. -/
def Hangs (m : TreeLinks α) : Option α → SearchTree α → Prop
  | _, .leaf => True
  | up, .node l x r =>
      m.parent x = up ∧ m.child .left x = l.root? ∧ m.child .right x = r.root? ∧
        Hangs m (some x) l ∧ Hangs m (some x) r

/-- What is around a place; the link to the place is `hole`. -/
def Around (m : TreeLinks α) : List (Frame α) → Option α → Prop
  | [], hole => m.root = hole
  | f :: path, hole =>
      m.child f.side f.node = hole ∧ m.child f.side.other f.node = f.sibling.root? ∧
        m.parent f.node = above path ∧ Hangs m (some f.node) f.sibling ∧
        Around m path (some f.node)

/-- The links form the tree `t`, whose nodes are distinct. -/
structure HoldsTree (m : TreeLinks α) (t : SearchTree α) : Prop where
  root : m.root = t.root?
  hangs : Hangs m none t
  nodup : t.inorder.Nodup

section Links

variable {m m' : TreeLinks α} {path : List (Frame α)} {t : SearchTree α} {up : Option α}
  {hole v : Option α} {s : Side} {a b : SearchTree α} {x : α}

/-- A tree hangs where its root is linked both ways to the two sides. -/
theorem hangs_fork : Hangs m up (fork s a x b) ↔ m.parent x = up ∧ m.child s x = a.root? ∧
    m.child s.other x = b.root? ∧ Hangs m (some x) a ∧ Hangs m (some x) b := by
  cases s with
  | left => rfl
  | right =>
      constructor
      · rintro ⟨hparent, hleft, hright, hl, hr⟩
        exact ⟨hparent, hright, hleft, hr, hl⟩
      · rintro ⟨hparent, hright, hleft, hr, hl⟩
        exact ⟨hparent, hleft, hright, hl, hr⟩

/-- The whole is linked exactly if what lies in the hole and what lies around it are. -/
theorem hangs_plug_iff : Hangs m none (plug path t) ∧ m.root = (plug path t).root? ↔
    Hangs m (above path) t ∧ Around m path t.root? := by
  induction path generalizing t with
  | nil => rfl
  | cons f path ih =>
      rw [plug, ih, hangs_fork, root?_fork, Around, above_cons]
      tauto

/-- A tree is what hangs at a place and what is around it. -/
theorem holds_plug : HoldsTree m (plug path t) ↔
    Hangs m (above path) t ∧ Around m path t.root? ∧ (plug path t).inorder.Nodup := by
  rw [← and_assoc, ← hangs_plug_iff]
  exact ⟨fun h => ⟨⟨h.hangs, h.root⟩, h.nodup⟩, fun h => ⟨h.1.2, h.1.1, h.2⟩⟩

section Places

variable {f : Frame α} {sub : SearchTree α}

/-- The parent of a node in the tree. -/
theorem HoldsTree.parent_eq (h : HoldsTree m (plug path sub)) (hx : sub.root? = some x) :
    m.parent x = above path := by
  obtain ⟨a, b, rfl⟩ := exists_fork .left hx
  exact (hangs_fork.mp (holds_plug.mp h).1).1

/-- The children of a node in the tree. -/
theorem HoldsTree.child_eq (h : HoldsTree m (plug path (fork s a x b))) :
    m.child s x = a.root? ∧ m.child s.other x = b.root? := by
  obtain ⟨-, ha, hb, -⟩ := hangs_fork.mp (holds_plug.mp h).1
  exact ⟨ha, hb⟩

/-- On which side of the node above a place is, by a look at the left child. -/
theorem HoldsTree.side_eq [DecidableEq α] (h : HoldsTree m (plug (f :: path) sub))
    (hne : f.sibling.root? ≠ sub.root?) :
    (if m.child .left f.node = sub.root? then Side.left else .right) = f.side := by
  obtain ⟨hhole, hother, -⟩ := (holds_plug.mp h).2.1
  cases hside : f.side with
  | left =>
      rw [hside] at hhole
      rw [if_pos hhole]
  | right =>
      have hleft : m.child .left f.node = f.sibling.root? := by
        rw [hside] at hother
        exact hother
      rw [hleft, if_neg hne]

end Places

/-- The links of other nodes do not matter. -/
theorem Hangs.congr (h : Hangs m up t)
    (hparent : ∀ y ∈ t.inorder, m'.parent y = m.parent y)
    (hchild : ∀ y ∈ t.inorder, ∀ s, m'.child s y = m.child s y) : Hangs m' up t := by
  induction t generalizing up with
  | leaf => trivial
  | node l y r ihLeft ihRight =>
      simp only [inorder, List.mem_append, List.mem_cons] at hparent hchild
      obtain ⟨hup, hleft, hright, hl, hr⟩ := h
      refine ⟨?_, ?_, ?_, ?_, ?_⟩
      · rw [hparent y (.inr (.inl rfl)), hup]
      · rw [hchild y (.inr (.inl rfl)), hleft]
      · rw [hchild y (.inr (.inl rfl)), hright]
      · exact ihLeft hl (fun z hz => hparent z (.inl hz)) fun z hz => hchild z (.inl hz)
      · exact ihRight hr (fun z hz => hparent z (.inr (.inr hz)))
          fun z hz => hchild z (.inr (.inr hz))

/-- A tree that gets another parent. -/
theorem Hangs.move {up' : Option α} (h : Hangs m up t) (hnodup : t.inorder.Nodup)
    (hroot : ∀ y, t.root? = some y → m'.parent y = up')
    (hparent : ∀ y ∈ t.inorder, t.root? ≠ some y → m'.parent y = m.parent y)
    (hchild : ∀ y ∈ t.inorder, ∀ s, m'.child s y = m.child s y) : Hangs m' up' t := by
  cases t with
  | leaf => trivial
  | node l y r =>
      obtain ⟨hyl, hyr, -⟩ := (nodup_fork (s := .left)).mp hnodup
      simp only [inorder, List.mem_append, List.mem_cons] at hparent hchild
      obtain ⟨-, hleft, hright, hl, hr⟩ := h
      refine ⟨hroot y rfl, ?_, ?_, ?_, ?_⟩
      · rw [hchild y (.inr (.inl rfl)), hleft]
      · rw [hchild y (.inr (.inl rfl)), hright]
      · refine hl.congr (fun z hz => hparent z (.inl hz) fun heq => ?_) fun z hz => hchild z (.inl hz)
        obtain rfl : y = z := by simpa [root?] using heq
        exact hyl hz
      · refine hr.congr (fun z hz => hparent z (.inr (.inr hz)) fun heq => ?_)
          fun z hz => hchild z (.inr (.inr hz))
        obtain rfl : y = z := by simpa [root?] using heq
        exact hyr hz

/-- Nor do they around a hole. -/
theorem Around.congr (h : Around m path hole) (hroot : m'.root = m.root)
    (hparent : ∀ y ∈ pathNodes path, m'.parent y = m.parent y)
    (hchild : ∀ y ∈ pathNodes path, ∀ s, m'.child s y = m.child s y) : Around m' path hole := by
  induction path generalizing hole with
  | nil => exact hroot.trans h
  | cons f path ih =>
      simp only [pathNodes, List.mem_cons, List.mem_append] at hparent hchild
      obtain ⟨hhole, hother, hup, hsibling, hrest⟩ := h
      refine ⟨?_, ?_, ?_, ?_, ?_⟩
      · rw [hchild _ (.inl rfl), hhole]
      · rw [hchild _ (.inl rfl), hother]
      · rw [hparent _ (.inl rfl), hup]
      · exact hsibling.congr (fun z hz => hparent z (.inr (.inl hz)))
          fun z hz => hchild z (.inr (.inl hz))
      · exact ih hrest (fun z hz => hparent z (.inr (.inr hz))) fun z hz => hchild z (.inr (.inr hz))

end Links

/-! ### Writing links -/

section Write

variable [DecidableEq α]

namespace TreeLinks

def setRoot (v : Option α) (m : TreeLinks α) : TreeLinks α :=
  { m with root := v }

def setParent (x : α) (v : Option α) (m : TreeLinks α) : TreeLinks α :=
  { m with parent := Function.update m.parent x v }

/-- The same through a link that may be missing. -/
def setParentAt (p : Option α) (v : Option α) (m : TreeLinks α) : TreeLinks α :=
  match p with
  | none => m
  | some x => m.setParent x v

def setChild (s : Side) (x : α) (v : Option α) (m : TreeLinks α) : TreeLinks α :=
  { m with child := fun t y => if t = s ∧ y = x then v else m.child t y }

/-- Write the link to a place. -/
def setHole (path : List (Frame α)) (v : Option α) (m : TreeLinks α) : TreeLinks α :=
  match path with
  | [] => m.setRoot v
  | f :: _ => m.setChild f.side f.node v

/-- Write the link to `x` in the node `up` above it, or in the root. The node is asked whether `x` is
its child on the side `s`. -/
def relink (s : Side) (up : Option α) (x : α) (v : Option α) (m : TreeLinks α) : TreeLinks α :=
  match up with
  | none => m.setRoot v
  | some p => if m.child s p = some x then m.setChild s p v else m.setChild s.other p v

variable {m : TreeLinks α} {path : List (Frame α)} {x y : α} {v : Option α} {s t : Side}

@[simp]
theorem root_setParent : (m.setParent x v).root = m.root :=
  rfl

@[simp]
theorem child_setParent : (m.setParent x v).child = m.child :=
  rfl

theorem parent_setParent : (m.setParent x v).parent y = if y = x then v else m.parent y :=
  Function.update_apply ..

@[simp]
theorem root_setParentAt {p : Option α} : (m.setParentAt p v).root = m.root := by
  cases p <;> rfl

@[simp]
theorem child_setParentAt {p : Option α} : (m.setParentAt p v).child = m.child := by
  cases p <;> rfl

theorem parent_setParentAt {p : Option α} :
    (m.setParentAt p v).parent y = if p = some y then v else m.parent y := by
  cases p with
  | none => rfl
  | some x => simp only [setParentAt, parent_setParent, Option.some.injEq, eq_comm]

@[simp]
theorem root_setChild : (m.setChild s x v).root = m.root :=
  rfl

@[simp]
theorem parent_setChild : (m.setChild s x v).parent = m.parent :=
  rfl

theorem child_setChild :
    (m.setChild s x v).child t y = if t = s ∧ y = x then v else m.child t y :=
  rfl

@[simp]
theorem parent_relink {up : Option α} : (m.relink s up x v).parent = m.parent := by
  cases up with
  | none => rfl
  | some p =>
      rw [relink]
      split <;> rfl

@[simp]
theorem parent_setHole : (m.setHole path v).parent = m.parent := by
  cases path <;> rfl

/-- Only the node above the place is written. -/
theorem child_setHole (h : y ∉ pathNodes path) : (m.setHole path v).child t y = m.child t y := by
  cases path with
  | nil => rfl
  | cons f path =>
      have hne : y ≠ f.node := fun heq => h (heq ▸ List.mem_cons_self)
      rw [setHole, child_setChild, if_neg fun hc => hne hc.2]

end TreeLinks

open TreeLinks

variable {m : TreeLinks α} {path : List (Frame α)} {hole v : Option α} {x : α}

/-- Another tree is hung into the hole. -/
theorem Around.setHole (h : Around m path hole) (hnodup : (pathNodes path).Nodup) (v : Option α) :
    Around (m.setHole path v) path v := by
  cases path with
  | nil => rfl
  | cons f path =>
      obtain ⟨-, hother, hup, hsibling, hrest⟩ := h
      rw [pathNodes, List.nodup_cons, List.mem_append] at hnodup
      have hout : ∀ y, y ∈ f.sibling.inorder ∨ y ∈ pathNodes path → ∀ t,
          (m.setHole (f :: path) v).child t y = m.child t y := by
        intro y hy t
        have hne : y ≠ f.node := by
          rintro rfl
          exact hnodup.1 hy
        rw [TreeLinks.setHole, child_setChild, if_neg fun hc => hne hc.2]
      refine ⟨?_, ?_, hup, ?_, ?_⟩
      · rw [TreeLinks.setHole, child_setChild, if_pos ⟨rfl, rfl⟩]
      · rw [TreeLinks.setHole, child_setChild, if_neg fun hc => f.side.other_ne hc.1, hother]
      · exact hsibling.congr (fun _ _ => rfl) fun y hy => hout y (.inl hy)
      · exact hrest.congr rfl (fun _ _ => rfl) fun y hy => hout y (.inr hy)

/-- The link to a node at a place is the link to the place, whichever side is asked for first. -/
theorem relink_eq (h : Around m path (some x)) (hx : x ∉ pathNodes path) (s : Side)
    (v : Option α) : m.relink s (above path) x v = m.setHole path v := by
  cases path with
  | nil => rfl
  | cons f path =>
      obtain ⟨hhole, hother, -⟩ := h
      rw [above_cons, relink, TreeLinks.setHole]
      rcases s.eq_or_eq_other f.side with hside | hside
      · rw [← hside, if_pos hhole]
      · have hne : m.child s f.node ≠ some x := by
          rw [← s.other_other, ← hside, hother]
          exact fun heq => hx (List.mem_cons_of_mem _
            (List.mem_append_left _ (mem_of_root? heq)))
        rw [if_neg hne, ← hside]

end Write

end Workflow.Lib

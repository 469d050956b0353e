/-
Module: Workflow.Proofs.RbtreeErase
Layer: Proofs
Purpose: `rb_erase`. When a black node is gone, every way down through one place has a black node too
  few (`EraseAt`); a pass of `__rb_erase_color` mends this or moves it up. A node with two children is
  replaced by the next one, which takes its links and its color (`takePlace_holds`).
Trusted boundary: none
Main exports: erase_turn, eraseSibling_spec, EraseAt, eraseFix_spec, rbEraseColor_spec, unlink_holds,
  takePlace_holds, rbErase_spec
-/
import Workflow.Proofs.RbtreeInsert

namespace Workflow.Kernel

open Workflow.Lib SearchTree

universe u

variable {α : Type u} [DecidableEq α]

/-! ### Deletion -/

section EraseColor

variable {t : RbTree α} {path rest : List (Frame α)} {sub c d e k : SearchTree α} {s : Side}
  {p z w other : α} {h : Nat}

/-- The last rotation of `__rb_erase_color`, and what is painted before it. The far child of `z` is
red. -/
theorem erase_turn (hholds : HoldsTree t.links
      (plug rest (fork s sub p (fork s e z (fork s k w d)))))
    (hsub : Balanced t.color sub h) (he : Balanced t.color e h)
    (hk : Balanced t.color k h) (hd : Balanced t.color d h)
    (haccepts : Accepts t.color rest (t.color p) (h + 1)) :
    ∃ t' tree, rotate s p (((t.paint z (t.color p)).paint p .black).paint w .black) = some t' ∧
      RbHolds t' tree ∧
      tree.inorder = (plug rest (fork s sub p (fork s e z (fork s k w d)))).inorder := by
  have hnodup := hholds.nodup
  simp only [nodup_plug, nodup_fork, mem_fork] at hnodup
  obtain ⟨⟨hpsub, hpz, -, ⟨hze, hzw, -, ⟨hwk, hwd, -⟩, hew⟩, hsubz⟩, -, hrest⟩ := hnodup
  have hholds' : HoldsTree (((t.paint z (t.color p)).paint p .black).paint w .black).links
      (plug rest (fork s sub p (fork s e z (fork s k w d)))) := hholds
  obtain ⟨m, hrotate, hm⟩ := rotate_holds hholds'
  have hpzne : z ≠ p := fun heq => hpz (.inl heq.symm)
  have hzwne : z ≠ w := fun heq => hzw (.inl heq)
  have hpwne : p ≠ w := fun heq => hpz (.inr (.inr (.inl heq)))
  let color := (((t.paint z (t.color p)).paint p .black).paint w .black).color
  have hcolorz : color z = t.color p := by
    simp only [color, RbTree.paint, Function.update_of_ne hzwne, Function.update_of_ne hpzne,
      Function.update_self]
  have hcolorp : color p = .black := by
    simp only [color, RbTree.paint, Function.update_of_ne hpwne, Function.update_self]
  have hcolorw : color w = .black := Function.update_self ..
  have hkeep : ∀ {tree : SearchTree α}, z ∉ tree.inorder → p ∉ tree.inorder → w ∉ tree.inorder →
      Balanced t.color tree h → Balanced color tree h :=
    fun hz hp hw hb => ((hb.paint hz).paint hp).paint hw
  have hleft : Balanced color (fork s sub p e) (h + 1) := by
    refine (balanced_black_succ hcolorp).mpr ⟨hkeep ?_ hpsub ?_ hsub, hkeep hze ?_ ?_ he⟩
    · exact fun hmem => hsubz z hmem (.inl rfl)
    · exact fun hmem => hsubz w hmem (.inr (.inr (.inl rfl)))
    · exact fun hmem => hpz (.inr (.inl hmem))
    · exact fun hmem => hew w hmem (.inl rfl)
  have hright : Balanced color (fork s k w d) (h + 1) := by
    refine (balanced_black_succ hcolorw).mpr ⟨hkeep ?_ ?_ hwk hk, hkeep ?_ ?_ hwd hd⟩
    · exact fun hmem => hzw (.inr (.inl hmem))
    · exact fun hmem => hpz (.inr (.inr (.inr (.inl hmem))))
    · exact fun hmem => hzw (.inr (.inr hmem))
    · exact fun hmem => hpz (.inr (.inr (.inr (.inr hmem))))
  have haccepts' : Accepts color rest (color z) (h + 1) := by
    rw [hcolorz]
    exact ((haccepts.paint (hrest z (.inr (.inr (.inl rfl))))).paint (hrest p (.inl rfl))).paint
      (hrest w (.inr (.inr (.inr (.inr (.inl rfl))))))
  refine ⟨_, _, hrotate, ⟨hm, haccepts'.redBlack hleft hright (blackRoot_fork.mpr hcolorp)
    (blackRoot_fork.mpr hcolorw)⟩, ?_⟩
  rw [inorder_plug, inorder_rotate, ← inorder_plug]

omit [DecidableEq α] in
/-- A node with two children, seen from the place of the second one. -/
theorem plug_sibling (rest : List (Frame α)) (s : Side) (a : SearchTree α) (x : α)
    (b : SearchTree α) : plug rest (fork s a x b) = plug (⟨s.other, x, a⟩ :: rest) b := by
  rw [plug, fork_other]

/-- A red child of the sibling: `__rb_erase_color` repairs the tree. -/
theorem eraseTurn_spec (hholds : HoldsTree t.links (plug rest (fork s sub p (fork s c other d))))
    (hsub : Balanced t.color sub h) (hc : Balanced t.color c h) (hd : Balanced t.color d h)
    (haccepts : Accepts t.color rest (t.color p) (h + 1))
    (hred : t.isRed c.root? = true ∨ t.isRed d.root? = true) :
    ∃ t' tree, eraseTurn s p other t = some t' ∧ RbHolds t' tree ∧
      tree.inorder = (plug rest (fork s sub p (fork s c other d))).inorder := by
  have hchildren : t.links.child s other = c.root? ∧ t.links.child s.other other = d.root? := by
    rw [plug_sibling] at hholds
    exact hholds.child_eq
  cases hfar : t.isRed d.root? with
  | true =>
      obtain ⟨w, hw, hwred⟩ := isRed_iff.mp hfar
      obtain ⟨k, d', rfl⟩ := exists_fork s hw
      obtain ⟨-, -, hk, hd'⟩ := (balanced_red hwred).mp hd
      obtain ⟨t', tree, hrotate, ht', hinorder⟩ := erase_turn hholds hsub hc hk hd' haccepts
      refine ⟨t', tree, ?_, ht', hinorder⟩
      have hnear : eraseNear s p other t = some (other, t) := by
        rw [eraseNear, hchildren.2, if_pos hfar]
      have hlink : ((t.paint other (t.color p)).paint p .black).links.child s.other other = some w :=
        hchildren.2.trans hw
      simp only [eraseTurn, hnear, hlink]
      exact hrotate
  | false =>
      have hnear := hred.resolve_right (by rw [hfar]; exact Bool.false_ne_true)
      obtain ⟨z, hz, hzred⟩ := isRed_iff.mp hnear
      obtain ⟨e, k, rfl⟩ := exists_fork s hz
      obtain ⟨heb, hkb, he, hk⟩ := (balanced_red hzred).mp hc
      have hnodup := hholds.nodup
      simp only [nodup_plug, nodup_fork, mem_fork] at hnodup
      obtain ⟨⟨hpsub, hpother, -, ⟨hoz, hod, ⟨hze, hzk, -⟩, -, hzd⟩, hsubo⟩, -, hrest⟩ := hnodup
      -- the near child is turned up first
      let t₁ := (t.paint z .black).paint other .red
      have hholds₁ : HoldsTree t₁.links (plug (⟨s.other, p, sub⟩ :: rest)
          (fork s.other d other (fork s.other k z e))) := by
        rw [plug_sibling] at hholds
        rw [fork_other, fork_other]
        exact hholds
      obtain ⟨m, hrotate₁, hm⟩ := rotate_holds hholds₁
      have hm' : HoldsTree m (plug rest (fork s sub p (fork s e z (fork s k other d)))) := by
        rw [fork_other, fork_other, plug, fork_other] at hm
        exact hm
      have hzo : z ≠ other := fun heq => hoz (.inl heq.symm)
      have hpz : p ≠ z := fun heq => hpother (.inr (.inl (.inl heq)))
      have hpo : p ≠ other := fun heq => hpother (.inl heq)
      have hcolorp : t₁.color p = t.color p := by
        simp only [t₁, RbTree.paint, Function.update_of_ne hpo, Function.update_of_ne hpz]
      have hkeep : ∀ {tree : SearchTree α}, z ∉ tree.inorder → other ∉ tree.inorder →
          Balanced t.color tree h → Balanced t₁.color tree h :=
        fun hz ho hb => (hb.paint hz).paint ho
      have hsub₁ : Balanced t₁.color sub h := hkeep (fun hmem => hsubo z hmem (.inr (.inl (.inl rfl))))
        (fun hmem => hsubo other hmem (.inl rfl)) hsub
      have he₁ : Balanced t₁.color e h := hkeep hze (fun hmem => hoz (.inr (.inl hmem))) he
      have hk₁ : Balanced t₁.color k h := hkeep hzk (fun hmem => hoz (.inr (.inr hmem))) hk
      have hd₁ : Balanced t₁.color d h := hkeep (hzd z (.inl rfl)) hod hd
      have haccepts₁ : Accepts t₁.color rest (t₁.color p) (h + 1) := by
        rw [hcolorp]
        exact (haccepts.paint (hrest z (.inr (.inr (.inr (.inl (.inl rfl))))))).paint
          (hrest other (.inr (.inr (.inl rfl))))
      have hm₂ : HoldsTree ({ t₁ with links := m } : RbTree α).links
          (plug rest (fork s sub p (fork s e z (fork s k other d)))) := hm'
      obtain ⟨t', tree, hrotate, ht', hinorder⟩ :=
        erase_turn hm₂ hsub₁ he₁ hk₁ hd₁ haccepts₁
      refine ⟨t', tree, ?_, ht', ?_⟩
      · have hsibling : m.child s.other p = some z := by
          rw [(HoldsTree.child_eq hm').2, root?_fork]
        have hfarchild : m.child s.other z = some other := by
          have hfocus' : HoldsTree m (plug (⟨s.other, p, sub⟩ :: rest)
              (fork s e z (fork s k other d))) := by
            rwa [plug_sibling] at hm'
          rw [hfocus'.child_eq.2, root?_fork]
        have hnear : eraseNear s p other t = some (z, { t₁ with links := m }) := by
          have hturn : rotate s.other other ((t.paintAt (some z) .black).paint other .red) =
              some { t₁ with links := m } := hrotate₁
          have hlink : ({ t₁ with links := m } : RbTree α).links.child s.other p = some z := hsibling
          rw [eraseNear, hchildren.2, hfar, hchildren.1, hz, if_neg Bool.false_ne_true, hturn,
            Option.bind_eq_bind, Option.bind_some, hlink]
          rfl
        have hlink : ((({ t₁ with links := m } : RbTree α).paint z (t₁.color p)).paint p
            .black).links.child s.other z = some other := hfarchild
        simp only [eraseTurn, hnear, hlink]
        exact hrotate
      · rw [hinorder, plug_sibling rest s sub p, inorder_plug, ← inorder_rotate, ← inorder_plug,
          ← plug_sibling]

/-- Before a pass of `__rb_erase_color`: the tree at the place has one black node too few on every way
down, or has a red root that can be made black. -/
structure EraseAt (t : RbTree α) (path : List (Frame α)) (sub : SearchTree α) (h : Nat) : Prop where
  holds : HoldsTree t.links (plug path sub)
  around : PathBalanced t.color path (h + 1)
  short : BlackRoot t.color sub ∧ Balanced t.color sub h ∨
    ∃ a x b, sub = fork .left a x b ∧ t.color x = .red ∧ Balanced t.color a h ∧ Balanced t.color b h

/-- The sibling is black when the loop goes on. -/
structure BlackSibling (t : RbTree α) (rest : List (Frame α)) (s : Side) (sub : SearchTree α) (p : α)
    (c : SearchTree α) (other : α) (d : SearchTree α) (h : Nat) : Prop where
  holds : HoldsTree t.links (plug rest (fork s sub p (fork s c other d)))
  other : t.color other = .black
  root : BlackRoot t.color sub
  sub : Balanced t.color sub h
  near : Balanced t.color c h
  far : Balanced t.color d h
  accepts : Accepts t.color rest (t.color p) (h + 1)

/-- A red sibling is turned away, and the node above becomes red. -/
theorem eraseSibling_spec (hholds : HoldsTree t.links (plug rest (fork s sub p (fork s c other d))))
    (haround : PathBalanced t.color (⟨s, p, fork s c other d⟩ :: rest) (h + 1))
    (hroot : BlackRoot t.color sub) (hsub : Balanced t.color sub h) :
    ∃ other' t' rest' c' d', eraseSibling s p other t = some (other', t') ∧
      BlackSibling t' rest' s sub p c' other' d' h ∧
      (plug rest' (fork s sub p (fork s c' other' d'))).inorder =
        (plug rest (fork s sub p (fork s c other d))).inorder ∧
      (rest' = rest ∨ rest'.length = rest.length + 1 ∧ t'.color p = .red) := by
  cases hother : t.color other with
  | black =>
      refine ⟨other, t, rest, c, d, ?_, ?_, rfl, .inl rfl⟩
      · rw [eraseSibling, hother]
        rfl
      · obtain ⟨hc, hd⟩ := (balanced_black_succ hother).mp haround.1
        exact ⟨hholds, hother, hroot, hsub, hc, hd, haround.accepts⟩
  | red =>
      obtain ⟨hcroot, hdroot, hc, hd⟩ := (balanced_red hother).mp haround.1
      have hp : t.color p = .black := by
        cases hp : t.color p with
        | red =>
            have hblack := blackRoot_fork.mp ((pathBalanced_red hp).mp haround).2.1
            rw [hother] at hblack
            exact Color.noConfusion hblack
        | black => rfl
      have hrest := ((pathBalanced_black hp).mp haround).2
      have hnodup := hholds.nodup
      simp only [nodup_plug, nodup_fork, mem_fork] at hnodup
      obtain ⟨⟨hpsub, hpo, -, ⟨hoc, hod, -⟩, hsubo⟩, -, hout⟩ := hnodup
      have hpone : other ≠ p := fun heq => hpo (.inl heq.symm)
      let t₁ := (t.paint other .black).paint p .red
      have hholds₁ : HoldsTree t₁.links (plug rest (fork s sub p (fork s c other d))) := hholds
      obtain ⟨m, hrotate, hm⟩ := rotate_holds hholds₁
      have hcolorp : t₁.color p = .red := Function.update_self ..
      have hcoloro : t₁.color other = .black := by
        simp only [t₁, RbTree.paint, Function.update_of_ne hpone, Function.update_self]
      have hpc : p ∉ c.inorder := fun hmem => hpo (.inr (.inl hmem))
      have hpd : p ∉ d.inorder := fun hmem => hpo (.inr (.inr hmem))
      have hsub₁ : Balanced t₁.color sub h :=
        (hsub.paint fun hmem => hsubo other hmem (.inl rfl)).paint hpsub
      have hroot₁ : BlackRoot t₁.color sub :=
        (hroot.paint fun hmem => hsubo other hmem (.inl rfl)).paint hpsub
      have hc₁ : Balanced t₁.color c (h + 1) := (hc.paint hoc).paint hpc
      have hcroot₁ : BlackRoot t₁.color c := (hcroot.paint hoc).paint hpc
      have hd₁ : Balanced t₁.color d (h + 1) := (hd.paint hod).paint hpd
      have hrest₁ : PathBalanced t₁.color rest (h + 1 + 1) :=
        (hrest.paint (hout other (.inr (.inr (.inl rfl))))).paint (hout p (.inl rfl))
      obtain ⟨c', other', d', rfl⟩ := hc₁.exists_fork s
      have hother' : t₁.color other' = .black := blackRoot_fork.mp hcroot₁
      obtain ⟨hc', hd'⟩ := (balanced_black_succ hother').mp hc₁
      have hm' : HoldsTree m (plug (⟨s, other, d⟩ :: rest) (fork s sub p (fork s c' other' d'))) := hm
      refine ⟨other', { t₁ with links := m }, ⟨s, other, d⟩ :: rest, c', d', ?_,
        ⟨hm', hother', hroot₁, hsub₁, hc', hd', ?_⟩, ?_, .inr ⟨rfl, hcolorp⟩⟩
      · have hlink : ({ t₁ with links := m } : RbTree α).links.child s.other p = some other' := by
          have hchild : m.child s.other p = some other' := by
            rw [hm'.child_eq.2, root?_fork]
          exact hchild
        rw [eraseSibling, if_pos hother, hrotate, Option.bind_eq_bind, Option.bind_some, hlink]
        rfl
      · have haccepts : Accepts t₁.color (⟨s, other, d⟩ :: rest) .red (h + 1) :=
          ⟨⟨other, rfl, hcoloro⟩, (pathBalanced_black hcoloro).mpr ⟨hd₁, hrest₁⟩⟩
        rwa [← hcolorp] at haccepts
      · rw [plug, inorder_plug, inorder_rotate, ← inorder_plug]

/-- The loop goes on above, with the sibling red. -/
theorem eraseAt_up {p : α} (hat : BlackSibling t rest s sub p c other d h)
    (hc : t.isRed c.root? = false) (hd : t.isRed d.root? = false) :
    ∃ h', EraseAt (t.paint other .red) rest (fork s sub p (fork s c other d)) h' := by
  have hnodup := hat.holds.nodup
  simp only [nodup_plug, nodup_fork, mem_fork] at hnodup
  obtain ⟨⟨hpsub, hpo, -, ⟨hoc, hod, -⟩, hsubo⟩, -, hout⟩ := hnodup
  have hpone : p ≠ other := fun heq => hpo (.inl heq)
  have hother : (t.paint other .red).color other = .red := Function.update_self ..
  have hsub : Balanced (t.paint other .red).color sub h :=
    hat.sub.paint fun hmem => hsubo other hmem (.inl rfl)
  have hsibling : Balanced (t.paint other .red).color (fork s c other d) h :=
    (balanced_red hother).mpr ⟨(not_isRed.mp hc).paint hoc, (not_isRed.mp hd).paint hod,
      hat.near.paint hoc, hat.far.paint hod⟩
  have hcolorp : (t.paint other .red).color p = t.color p := Function.update_of_ne hpone ..
  have haccepts : Accepts (t.paint other .red).color rest (t.color p) (h + 1) :=
    hat.accepts.paint (hout other (.inr (.inr (.inl rfl))))
  cases hp : t.color p with
  | red =>
      rw [hp] at hcolorp haccepts
      refine ⟨h, hat.holds, haccepts.2, .inr ?_⟩
      cases s with
      | left => exact ⟨sub, p, _, rfl, hcolorp, hsub, hsibling⟩
      | right => exact ⟨_, p, sub, rfl, hcolorp, hsibling, hsub⟩
  | black =>
      rw [hp] at hcolorp haccepts
      exact ⟨h + 1, hat.holds, haccepts, .inl ⟨blackRoot_fork.mpr hcolorp,
        (balanced_black_succ hcolorp).mpr ⟨hsub, hsibling⟩⟩⟩

/-- A pass of the loop with a black node that is not the root. -/
theorem eraseFix_spec {f : Frame α} (hat : EraseAt t (f :: rest) sub h)
    (hroot : BlackRoot t.color sub) (hsub : Balanced t.color sub h) :
    (∃ t' tree, eraseFix f.side f.node t = .done (some (t'.links.root, t')) ∧ RbHolds t' tree ∧
      tree.inorder = (plug (f :: rest) sub).inorder) ∨
    ∃ t' path' sub' h', eraseFix f.side f.node t =
        .next { node := sub'.root?, parent := above path', tree := t' } ∧
      EraseAt t' path' sub' h' ∧ (plug path' sub').inorder = (plug (f :: rest) sub).inorder ∧
      (path' = rest ∨ path'.length = rest.length + 1 ∧ t'.isRed sub'.root? = true) := by
  obtain ⟨s, p, sibling⟩ := f
  obtain ⟨c, other, d, rfl⟩ := hat.around.1.exists_fork s
  obtain ⟨other', t', rest', c', d', hsibling, hblack, hinorder, hrest⟩ :=
    eraseSibling_spec hat.holds hat.around hroot hsub
  have hchild : t.links.child s.other p = some other := by
    have hholds : HoldsTree t.links (plug rest (fork s sub p (fork s c other d))) := hat.holds
    rw [hholds.child_eq.2, root?_fork]
  have hbind : ((t.links.child s.other p).bind fun other => eraseSibling s p other t) =
      some (other', t') := by
    rw [hchild, Option.bind_some, hsibling]
  have hnephews : t'.links.child s other' = c'.root? ∧ t'.links.child s.other other' = d'.root? := by
    have hholds := hblack.holds
    rw [plug_sibling] at hholds
    exact hholds.child_eq
  have htest : (!t'.isRed (t'.links.child .left other') && !t'.isRed (t'.links.child .right other')) =
      (!t'.isRed c'.root? && !t'.isRed d'.root?) := by
    cases s with
    | left => rw [← hnephews.1, ← hnephews.2]; rfl
    | right => rw [← hnephews.1, ← hnephews.2, Bool.and_comm]; rfl
  cases hred : (!t'.isRed c'.root? && !t'.isRed d'.root?) with
  | true =>
      have hnext : eraseFix s p t = .next
          { node := some p, parent := t'.links.parent p, tree := t'.paint other' .red } := by
        simp only [eraseFix, hbind, htest, hred, if_true]
      rw [Bool.and_eq_true, Bool.not_eq_true', Bool.not_eq_true'] at hred
      obtain ⟨h', hup⟩ := eraseAt_up hblack hred.1 hred.2
      refine .inr ⟨_, rest', _, h', ?_, hup, hinorder, ?_⟩
      · rw [hnext, root?_fork, hblack.holds.parent_eq (root?_fork ..)]
      · refine hrest.imp_right fun ⟨hlength, hpred⟩ => ⟨hlength, ?_⟩
        have hnodup := hblack.holds.nodup
        simp only [nodup_plug, nodup_fork, mem_fork] at hnodup
        have hpo : p ≠ other' := fun heq => hnodup.1.2.1 (.inl heq)
        rw [root?_fork, isRed_iff]
        exact ⟨p, rfl, (Function.update_of_ne hpo ..).trans hpred⟩
  | false =>
      have hnephew : t'.isRed c'.root? = true ∨ t'.isRed d'.root? = true := by
        rw [Bool.and_eq_false_iff, Bool.not_eq_false', Bool.not_eq_false'] at hred
        exact hred
      obtain ⟨t'', tree, hturn, ht'', hinorder'⟩ := eraseTurn_spec hblack.holds hblack.sub
        hblack.near hblack.far hblack.accepts hnephew
      refine .inl ⟨t'', tree, ?_, ht'', hinorder'.trans hinorder⟩
      simp only [eraseFix, hbind, htest, hred, Bool.false_eq_true, if_false, hturn, Option.map_some]

theorem paintAt_black {tree : SearchTree α} (hroot : BlackRoot t.color tree) :
    t.paintAt tree.root? .black = t := by
  cases htree : tree.root? with
  | none => rfl
  | some x => rw [RbTree.paintAt, RbTree.paint, ← hroot x htree, Function.update_eq_self]

/-- A pass of the loop that ends it, with the last statement of `__rb_erase_color`. -/
theorem eraseAt_done (hat : EraseAt t path sub h)
    (hend : t.isRed sub.root? = true ∨ path = []) :
    eraseStep { node := sub.root?, parent := above path, tree := t } =
        .done (some (sub.root?, t)) ∧
      ∃ tree, RbHolds (t.paintAt sub.root? .black) tree ∧ tree.inorder = (plug path sub).inorder := by
  constructor
  · have hroot : path = [] → sub.root? = t.links.root := by
      rintro rfl
      exact hat.holds.root.symm
    have htest : (t.isRed sub.root? || sub.root? = t.links.root) = true := by
      rcases hend with hred | hnil
      · rw [hred, Bool.true_or]
      · rw [decide_eq_true (hroot hnil), Bool.or_true]
    rw [eraseStep, if_pos htest]
  · refine ⟨plug path sub, ⟨?_, ?_⟩, rfl⟩
    · cases sub.root? <;> exact hat.holds
    · rcases hat.short with ⟨hroot, hsub⟩ | ⟨a, x, b, rfl, hx, ha, hb⟩
      · have hnil : path = [] := hend.resolve_left (by rw [not_isRed.mpr hroot]; exact Bool.false_ne_true)
        subst hnil
        rw [paintAt_black hroot]
        exact ⟨hroot, h, hsub⟩
      · have hnodup := hat.holds.nodup
        simp only [nodup_plug, nodup_fork, mem_fork] at hnodup
        obtain ⟨⟨hxa, hxb, -⟩, -, hout⟩ := hnodup
        have hblack : (t.paint x .black).color x = .black := Function.update_self ..
        refine redBlack_plug.mpr ⟨h + 1, ?_, hat.around.paint (hout x (.inl rfl)), fun _ => ?_⟩
        · exact (balanced_black_succ hblack).mpr ⟨ha.paint hxa, hb.paint hxb⟩
        · exact blackRoot_fork.mpr hblack

theorem eraseStep_fix {f : Frame α} (hat : EraseAt t (f :: rest) sub h)
    (hblack : t.isRed sub.root? = false) :
    eraseStep { node := sub.root?, parent := above (f :: rest), tree := t } =
      eraseFix f.side f.node t := by
  obtain ⟨r, hr, hroot⟩ := exists_root?_plug f rest sub
  have hnodup := nodup_plug.mp hat.holds.nodup
  have hnot : sub.root? ≠ t.links.root := by
    rw [hat.holds.root, hroot]
    exact fun heq => hnodup.2.2 r (mem_of_root? heq) hr
  have htest : ¬ (t.isRed sub.root? || sub.root? = t.links.root) = true := by
    rw [hblack, Bool.false_or, decide_eq_true_eq]
    exact hnot
  have hsibling : f.sibling.root? ≠ sub.root? := by
    obtain ⟨c, other, d, hfork⟩ := hat.around.1.exists_fork .left
    have hmem : other ∈ pathNodes (f :: rest) := by
      rw [pathNodes, hfork]
      exact List.mem_cons_of_mem _ (List.mem_append_left _ (mem_fork.mpr (.inl rfl)))
    rw [hfork, root?_fork]
    exact fun heq => hnodup.2.2 other (mem_of_root? heq.symm) hmem
  rw [eraseStep, if_neg htest]
  simp only [above_cons, hat.holds.side_eq hsibling]

theorem eraseLoop_spec {fuel : Nat} (hat : EraseAt t path sub h) (hfuel : path.length + 2 ≤ fuel) :
    ∃ r t' tree, loop eraseStep fuel { node := sub.root?, parent := above path, tree := t } =
        some (some (r, t')) ∧
      RbHolds (t'.paintAt r .black) tree ∧ tree.inorder = (plug path sub).inorder := by
  induction fuel generalizing t path sub h with
  | zero => exact absurd hfuel (by omega)
  | succ fuel ih =>
      by_cases hend : t.isRed sub.root? = true ∨ path = []
      · obtain ⟨hdone, tree, htree, hinorder⟩ := eraseAt_done hat hend
        exact ⟨_, _, tree, loop_done hdone fuel, htree, hinorder⟩
      · rw [not_or, Bool.not_eq_true] at hend
        obtain ⟨hblack, hne⟩ := hend
        obtain ⟨f, rest, rfl⟩ := List.exists_cons_of_ne_nil hne
        have hshort : BlackRoot t.color sub ∧ Balanced t.color sub h := by
          refine hat.short.resolve_right ?_
          rintro ⟨a, x, b, rfl, hx, -⟩
          have hroot := not_isRed.mp hblack x (root?_fork ..)
          rw [hx] at hroot
          exact Color.noConfusion hroot
        have hstep := eraseStep_fix hat hblack
        rcases eraseFix_spec hat hshort.1 hshort.2 with ⟨t', tree, hdone, ht', hinorder⟩ |
          ⟨t', path', sub', h', hnext, hat', hinorder, hrest⟩
        · refine ⟨_, t', tree, loop_done (hstep.trans hdone) fuel, ?_, hinorder⟩
          rwa [ht'.holds.root, paintAt_black ht'.redBlack.root]
        · rw [List.length_cons] at hfuel
          rcases hrest with rfl | ⟨hlength, hred⟩
          · obtain ⟨r, t'', tree, hloop, htree, hinorder'⟩ := ih hat' (by omega)
            exact ⟨r, t'', tree, by rw [loop_next (hstep.trans hnext), hloop], htree,
              hinorder'.trans hinorder⟩
          · obtain ⟨more, rfl⟩ : ∃ more, fuel = more + 1 := ⟨fuel - 1, by omega⟩
            obtain ⟨hdone, tree, htree, hinorder'⟩ := eraseAt_done hat' (.inl hred)
            exact ⟨_, _, tree, by rw [loop_next (hstep.trans hnext), loop_done hdone more], htree,
              hinorder'.trans hinorder⟩

/-- Enough passes for the nodes above make a red-black tree, with the nodes in the same order. -/
theorem rbEraseColor_spec {fuel : Nat} (hat : EraseAt t path sub h)
    (hfuel : path.length + 2 ≤ fuel) :
    ∃ t' tree, rbEraseColor fuel sub.root? (above path) t = some t' ∧ RbHolds t' tree ∧
      tree.inorder = (plug path sub).inorder := by
  obtain ⟨r, t', tree, hloop, htree, hinorder⟩ := eraseLoop_spec hat hfuel
  refine ⟨t'.paintAt r .black, tree, ?_, htree, hinorder⟩
  rw [rbEraseColor, hloop]
  rfl

end EraseColor

section Erase

variable {t : RbTree α} {path inner : List (Frame α)} {tree sub child l r c : SearchTree α} {s : Side}
  {node old y left : α} {h : Nat} {fuel : Nat} {color : Color}

/-- The child takes the place of its parent, which had no other child. -/
theorem unlink_holds (hholds : HoldsTree t.links (plug path (fork s leaf node child))) :
    HoldsTree (unlink node child.root? t).links (plug path child) := by
  obtain ⟨hhangs, haround, hnodup⟩ := holds_plug.mp hholds
  simp only [nodup_plug, nodup_fork, mem_fork] at hnodup
  obtain ⟨⟨-, hnc, -, hc, -⟩, hpath, hout⟩ := hnodup
  obtain ⟨hparent, -, -, -, hhangsc⟩ := hangs_fork.mp hhangs
  rw [root?_fork] at haround
  have hnpath : node ∉ pathNodes path := hout node (.inl rfl)
  have haround' : Around (t.links.setParentAt child.root? (above path)) path (some node) := by
    refine haround.congr (by simp) (fun z hz => ?_) fun z hz u => by simp
    rw [TreeLinks.parent_setParentAt, if_neg fun heq =>
      hout z (.inr (.inr (mem_of_root? heq))) hz]
  have hlinks : (unlink node child.root? t).links =
      (t.links.setParentAt child.root? (above path)).setHole path child.root? := by
    simp only [unlink, hparent]
    exact relink_eq haround' hnpath .left child.root?
  rw [hlinks]
  refine holds_plug.mpr ⟨hhangsc.move hc (fun z hz => ?_) (fun z hz hne => ?_) fun z hz u => ?_,
    haround'.setHole hpath child.root?, nodup_plug.mpr ⟨hc, hpath, fun z hz => ?_⟩⟩
  · rw [TreeLinks.parent_setHole, TreeLinks.parent_setParentAt, if_pos hz]
  · rw [TreeLinks.parent_setHole, TreeLinks.parent_setParentAt, if_neg hne]
  · rw [TreeLinks.child_setHole (hout z (.inr (.inr hz))), TreeLinks.child_setParentAt]
  · exact hout z (.inr (.inr hz))

omit [DecidableEq α] in
theorem inorder_only (s : Side) (path : List (Frame α)) (node : α) (child : SearchTree α) :
    ∃ xs ys, (plug path (fork s leaf node child)).inorder = xs ++ node :: ys ∧
      (plug path child).inorder = xs ++ ys := by
  rw [inorder_plug, inorder_plug]
  cases s with
  | left => exact ⟨pathBefore path, child.inorder ++ pathAfter path, by simp [fork, inorder], by simp⟩
  | right => exact ⟨pathBefore path ++ child.inorder, pathAfter path, by simp [fork, inorder], by simp⟩

theorem erase_middle {xs ys : List α} (hnodup : (xs ++ node :: ys).Nodup) :
    (xs ++ node :: ys).erase node = xs ++ ys := by
  have hxs : node ∉ xs := fun hmem =>
    (List.nodup_append.mp hnodup).2.2 node hmem node List.mem_cons_self rfl
  rw [List.erase_append_right _ hxs, List.erase_cons_head]

theorem inorder_unlink (hnodup : (plug path (fork s leaf node child)).inorder.Nodup) :
    (plug path child).inorder = (plug path (fork s leaf node child)).inorder.erase node := by
  obtain ⟨xs, ys, hwith, hwithout⟩ := inorder_only s path node child
  rw [hwith] at hnodup ⊢
  rw [hwithout, erase_middle hnodup]

/-- The end of `rb_erase`, when a node of the color `color` is gone and `child` is in its place. -/
theorem eraseEnd_spec (hholds : HoldsTree t.links (plug path child))
    (hchild : Balanced t.color child h)
    (hblack : color = .black → PathBalanced t.color path (h + 1))
    (hred : color = .red → PathBalanced t.color path h ∧ BlackRoot t.color child)
    (hfuel : path.length + 2 ≤ fuel) :
    ∃ t' tree, eraseEnd fuel child.root? (above path) color t = some t' ∧ RbHolds t' tree ∧
      tree.inorder = (plug path child).inorder := by
  cases color with
  | red =>
      obtain ⟨haround, hroot⟩ := hred rfl
      exact ⟨t, _, rfl, ⟨hholds, redBlack_plug.mpr ⟨h, hchild, haround, fun _ => hroot⟩⟩, rfl⟩
  | black =>
      have hshort : BlackRoot t.color child ∧ Balanced t.color child h ∨
          ∃ a x b, child = fork .left a x b ∧ t.color x = .red ∧ Balanced t.color a h ∧
            Balanced t.color b h := by
        cases hroot : t.isRed child.root? with
        | false => exact .inl ⟨not_isRed.mp hroot, hchild⟩
        | true =>
            obtain ⟨x, hx, hxred⟩ := isRed_iff.mp hroot
            obtain ⟨a, b, rfl⟩ := exists_fork .left hx
            obtain ⟨-, -, ha, hb⟩ := (balanced_red hxred).mp hchild
            exact .inr ⟨a, x, b, rfl, hxred, ha, hb⟩
      exact rbEraseColor_spec ⟨hholds, hblack rfl, hshort⟩ hfuel

/-- A node with at most one child is taken out. -/
theorem eraseOnly_spec (ht : RbHolds t (plug path (fork s leaf node child)))
    (hfuel : path.length + 2 ≤ fuel) :
    ∃ t' tree, eraseEnd fuel child.root? (above path) (t.color node)
        (unlink node child.root? t) = some t' ∧ RbHolds t' tree ∧
      tree.inorder = (plug path (fork s leaf node child)).inorder.erase node := by
  have hholds := unlink_holds ht.holds
  obtain ⟨k, hbalanced, haround, -⟩ := redBlack_plug.mp ht.redBlack
  rw [← inorder_unlink ht.holds.nodup]
  cases hnode : t.color node with
  | red =>
      obtain ⟨-, hroot, -, hchild⟩ := (balanced_red hnode).mp hbalanced
      exact eraseEnd_spec hholds hchild (fun hc => Color.noConfusion hc) (fun _ => ⟨haround, hroot⟩)
        hfuel
  | black =>
      obtain ⟨h, rfl, -, hchild⟩ := (balanced_black hnode).mp hbalanced
      exact eraseEnd_spec hholds hchild (fun _ => haround) (fun hc => Color.noConfusion hc) hfuel

omit [DecidableEq α] in
/-- The way to the end of one side. -/
theorem walk_spec (s : Side) {m : TreeLinks α} {x : α} (hholds : HoldsTree m (plug path sub))
    (hx : sub.root? = some x) (hfuel : depth sub ≤ fuel) :
    ∃ y inner c, loop (walkStep s m) fuel x = some y ∧ sub = plug inner (fork s leaf y c) ∧
      ∀ f ∈ inner, f.side = s := by
  induction fuel generalizing path sub x with
  | zero =>
      obtain ⟨a, b, rfl⟩ := exists_fork .left hx
      simp [fork, depth] at hfuel
  | succ fuel ih =>
      obtain ⟨a, b, rfl⟩ := exists_fork s hx
      have hchild := hholds.child_eq.1
      cases ha : a.root? with
      | none =>
          rw [ha] at hchild
          refine ⟨x, [], b, loop_done ?_ fuel, ?_, fun f hf => absurd hf List.not_mem_nil⟩
          · simp only [walkStep, hchild]
          · rw [root?_eq_none.mp ha, plug]
      | some x' =>
          rw [ha] at hchild
          have hstep : walkStep s m x = .next x' := by
            simp only [walkStep, hchild]
          have hdepth : depth a ≤ fuel := by
            cases s <;> simp only [fork, depth] at hfuel <;> omega
          have hholds' : HoldsTree m (plug (⟨s, x, b⟩ :: path) a) := hholds
          obtain ⟨y, inner, c, hloop, hplug, hsides⟩ := ih hholds' ha hdepth
          refine ⟨y, inner ++ [⟨s, x, b⟩], c, by rw [loop_next hstep, hloop], ?_, fun f hf => ?_⟩
          · rw [plug_append, ← hplug]
            rfl
          · rcases List.mem_append.mp hf with hf | hf
            · exact hsides f hf
            · obtain rfl := List.mem_singleton.mp hf
              rfl

/-- `node` takes the place of `old`, with its children. -/
theorem takePlace_holds (hholds : HoldsTree t.links (plug path (fork .left l old r)))
    (hleft : l.root? = some left) (hy : y ∉ (plug path (fork .left l old r)).inorder) :
    ∃ m, takePlace old y t = some { links := m, color := Function.update t.color y (t.color old) } ∧
      HoldsTree m (plug path (fork .left l y r)) := by
  obtain ⟨hhangs, haround, hnodup⟩ := holds_plug.mp hholds
  simp only [nodup_plug, nodup_fork, mem_fork] at hnodup
  obtain ⟨⟨hol, hor, hl, hr, hlr⟩, hpath, hout⟩ := hnodup
  simp only [mem_plug, mem_fork, not_or] at hy
  obtain ⟨⟨hyold, hyl, hyr⟩, hypath⟩ := hy
  obtain ⟨hparent, hchildl, hchildr, hhangsl, hhangsr⟩ := hangs_fork.mp hhangs
  rw [root?_fork] at haround
  have hopath : old ∉ pathNodes path := hout old (.inl rfl)
  obtain ⟨m, hm⟩ : ∃ m, ((t.links.setParent y (above path)).setChild .right y r.root?).setChild .left y
    l.root? = m := ⟨_, rfl⟩
  have hchild : ∀ u z, m.child u z = if u = .left ∧ z = y then l.root?
      else if u = .right ∧ z = y then r.root? else t.links.child u z := by
    intro u z
    simp only [← hm, TreeLinks.child_setChild, TreeLinks.child_setParent]
  have hparentm : ∀ z, m.parent z = if z = y then above path else t.links.parent z := by
    intro z
    simp only [← hm, TreeLinks.parent_setChild, TreeLinks.parent_setParent]
  have hparentold : m.parent old = above path := by
    rw [hparentm, if_neg (Ne.symm hyold), hparent]
  have haround' : Around m path (some old) := by
    refine haround.congr (by rw [← hm]; rfl) (fun z hz => ?_) fun z hz u => ?_
    · rw [hparentm, if_neg (ne_of_mem_of_not_mem hz hypath)]
    · have hzy := ne_of_mem_of_not_mem hz hypath
      rw [hchild, if_neg fun heq => hzy heq.2, if_neg fun heq => hzy heq.2]
  let m' := ((m.setHole path (some y)).setParent left (some y)).setParentAt r.root? (some y)
  have hstep : takePlace old y t =
      some { links := m', color := Function.update t.color y (t.color old) } := by
    have hright : t.links.child .right old = r.root? := hchildr
    have hl₁ : ((t.links.setParent y (above path)).setChild .right y r.root?).child .left old =
        l.root? := by
      rw [TreeLinks.child_setChild, if_neg fun heq => hyold heq.2.symm, TreeLinks.child_setParent,
        hchildl]
    have hl₂ : (m.setHole path (some y)).child .left old = some left := by
      rw [TreeLinks.child_setHole hopath, hchild, if_neg fun heq => hyold heq.2.symm,
        if_neg fun heq => hyold heq.2.symm, hchildl, hleft]
    have hr₂ : ((m.setHole path (some y)).setParent left (some y)).child .right old = r.root? := by
      rw [TreeLinks.child_setParent, TreeLinks.child_setHole hopath, hchild,
        if_neg fun heq => hyold heq.2.symm, if_neg fun heq => hyold heq.2.symm, hright]
    have hrelink := relink_eq haround' hopath .left (some y)
    rw [← hparentold] at hrelink
    simp only [takePlace, hparent, TreeLinks.child_setParent, hright, hl₁, hm, hrelink, hl₂]
    rw [TreeLinks.child_setParent] at hr₂
    rw [hr₂]
  have hparent' : ∀ z, m'.parent z = if r.root? = some z then some y
      else if z = left then some y else if z = y then above path else t.links.parent z := by
    intro z
    rw [TreeLinks.parent_setParentAt, TreeLinks.parent_setParent, TreeLinks.parent_setHole, hparentm]
  have hchild' : ∀ u, ∀ z ∉ pathNodes path, m'.child u z = m.child u z := by
    intro u z hz
    rw [TreeLinks.child_setParentAt, TreeLinks.child_setParent, TreeLinks.child_setHole hz]
  have hleftmem := mem_of_root? hleft
  have hrne : ∀ {z}, z ∉ r.inorder → r.root? ≠ some z := fun hz heq => hz (mem_of_root? heq)
  have hyleft : y ≠ left := fun heq => hyl (heq ▸ hleftmem)
  refine ⟨m', hstep, holds_plug.mpr ⟨hangs_fork.mpr ⟨?_, ?_, ?_, ?_, ?_⟩, ?_, ?_⟩⟩
  · rw [hparent', if_neg (hrne hyr), if_neg hyleft, if_pos rfl]
  · rw [hchild' _ y hypath, hchild, if_pos ⟨rfl, rfl⟩]
  · rw [hchild' _ y hypath, hchild, if_neg fun heq => Side.noConfusion heq.1, if_pos ⟨rfl, rfl⟩]
  · refine hhangsl.move hl (fun z hz => ?_) (fun z hz hne => ?_) fun z hz u => ?_
    · obtain rfl : left = z := Option.some.inj (hleft.symm.trans hz)
      rw [hparent', if_neg (hrne (hlr left hleftmem)), if_pos rfl]
    · have hzleft : z ≠ left := fun heq => hne (heq ▸ hleft)
      rw [hparent', if_neg (hrne (hlr z hz)), if_neg hzleft, if_neg (ne_of_mem_of_not_mem hz hyl)]
    · have hzy := ne_of_mem_of_not_mem hz hyl
      rw [hchild' _ z (hout z (.inr (.inl hz))), hchild, if_neg fun heq => hzy heq.2,
        if_neg fun heq => hzy heq.2]
  · have hleftr : left ∉ r.inorder := hlr left hleftmem
    refine hhangsr.move hr (fun z hz => ?_) (fun z hz hne => ?_) fun z hz u => ?_
    · rw [hparent', if_pos hz]
    · rw [hparent', if_neg hne, if_neg (ne_of_mem_of_not_mem hz hleftr),
        if_neg (ne_of_mem_of_not_mem hz hyr)]
    · have hzy := ne_of_mem_of_not_mem hz hyr
      rw [hchild' _ z (hout z (.inr (.inr hz))), hchild, if_neg fun heq => hzy heq.2,
        if_neg fun heq => hzy heq.2]
  · rw [root?_fork]
    refine (haround'.setHole hpath (some y)).congr (by simp [m']) (fun z hz => ?_) fun z hz u => ?_
    · have hzl : z ≠ left := fun heq => hout left (.inr (.inl hleftmem)) (heq ▸ hz)
      rw [TreeLinks.parent_setParentAt, if_neg (hrne fun hmem => hout z (.inr (.inr hmem)) hz),
        TreeLinks.parent_setParent, if_neg hzl]
    · rw [TreeLinks.child_setParentAt, TreeLinks.child_setParent]
  · simp only [nodup_plug, nodup_fork, mem_fork]
    refine ⟨⟨hyl, hyr, hl, hr, hlr⟩, hpath, fun z hz => ?_⟩
    rcases hz with rfl | hz
    · exact hypath
    · exact hout z (.inr hz)

/-- A node with two children is taken out: the next node takes its place. -/
theorem eraseTwo_spec {right : α} (ht : RbHolds t (plug path (fork .left l old r)))
    (hleft : l.root? = some left) (hright : r.root? = some right)
    (hfuel : depth (plug path (fork .left l old r)) + 2 ≤ fuel) :
    ∃ t' tree, rbErase fuel old t = some t' ∧ RbHolds t' tree ∧
      tree.inorder = (plug path (fork .left l old r)).inorder.erase old := by
  have hholdsr : HoldsTree t.links (plug (⟨.right, old, l⟩ :: path) r) := ht.holds
  have hdepth := length_path_le (⟨.right, old, l⟩ :: path) r
  rw [List.length_cons] at hdepth
  have hdepth' : path.length + 1 + depth r ≤ depth (plug path (fork .left l old r)) := hdepth
  have hwalkfuel : depth r ≤ fuel := by omega
  obtain ⟨y, inner, c, hwalk, rfl, hsides⟩ := walk_spec .left hholdsr hright hwalkfuel
  have hfull : plug path (fork .left l old (plug inner (fork .left leaf y c))) =
      plug (inner ++ ⟨.right, old, l⟩ :: path) (fork .left leaf y c) := by
    rw [plug_append]
    rfl
  have hnodup := ht.holds.nodup
  simp only [nodup_plug, nodup_fork, mem_plug, mem_fork] at hnodup
  obtain ⟨⟨hol, hor, -, ⟨⟨-, hyc, -⟩, -, hinner⟩, hlr⟩, -, hout⟩ := hnodup
  have hyinner : y ∉ pathNodes inner := hinner y (.inl rfl)
  have hyl : y ∉ l.inorder := fun hmem => hlr y hmem (.inl (.inl rfl))
  have hypath : y ∉ pathNodes path := hout y (.inr (.inr (.inl (.inl rfl))))
  have hyold : y ≠ old := fun heq => hor (.inl (.inl heq.symm))
  rw [hfull] at ht
  -- what the code reads of the next node
  have hchild : t.links.child .right y = c.root? := ht.holds.child_eq.2
  have hparent : t.links.parent y = above (inner ++ ⟨.right, old, l⟩ :: path) :=
    ht.holds.parent_eq (root?_fork ..)
  have hunlinked := unlink_holds ht.holds
  have hparent' : (unlink y c.root? t).links.parent y = t.links.parent y := by
    simp only [unlink, TreeLinks.parent_relink, TreeLinks.parent_setParentAt]
    rw [if_neg fun heq => hyc (mem_of_root? heq)]
  have hplug : plug (inner ++ ⟨.right, old, l⟩ :: path) c =
      plug path (fork .left l old (plug inner c)) := by
    rw [plug_append]
    rfl
  rw [hplug] at hunlinked
  have hynew : y ∉ (plug path (fork .left l old (plug inner c))).inorder := by
    simp only [mem_plug, mem_fork, not_or]
    exact ⟨⟨hyold, hyl, hyc, hyinner⟩, hypath⟩
  obtain ⟨m, htake, hm⟩ := takePlace_holds hunlinked hleft hynew
  have hplug' : plug path (fork .left l y (plug inner c)) =
      plug (inner ++ ⟨.right, y, l⟩ :: path) c := by
    rw [plug_append]
    rfl
  rw [hplug'] at hm
  have habove : (if (unlink y c.root? t).links.parent y = some old then some y
      else t.links.parent y) = above (inner ++ ⟨.right, y, l⟩ :: path) := by
    rw [hparent', hparent]
    cases inner with
    | nil => rw [List.nil_append, above_cons, if_pos rfl]; rfl
    | cons f inner =>
        have hne : f.node ≠ old := fun heq => hor (.inr (heq ▸ List.mem_cons_self))
        rw [List.cons_append, above_cons, if_neg (by simpa using hne)]
        rfl
  have hkeep : ∀ z, z ≠ y → Function.update t.color y (t.color old) z = t.color z :=
    fun z hz => Function.update_of_ne hz ..
  have hrename : ∀ n, PathBalanced t.color (inner ++ ⟨.right, old, l⟩ :: path) n →
      PathBalanced (Function.update t.color y (t.color old)) (inner ++ ⟨.right, y, l⟩ :: path) n :=
    fun n haround => haround.rename (Function.update_self ..)
      (fun z hz => hkeep z (ne_of_mem_of_not_mem hz hyinner))
      (fun z hz => hkeep z (ne_of_mem_of_not_mem hz hyl))
      fun z hz => hkeep z (ne_of_mem_of_not_mem hz hypath)
  have hlength : (inner ++ ⟨.right, y, l⟩ :: path).length + 2 ≤ fuel := by
    have hinnerDepth := length_path_le inner (fork .left leaf y c)
    rw [List.length_append, List.length_cons]
    omega
  have hend : ∃ t' tree, eraseEnd fuel c.root? (above (inner ++ ⟨.right, y, l⟩ :: path)) (t.color y)
      { links := m, color := Function.update t.color y (t.color old) } = some t' ∧
      RbHolds t' tree ∧ tree.inorder = (plug (inner ++ ⟨.right, y, l⟩ :: path) c).inorder := by
    obtain ⟨k, hbalanced, haround, -⟩ := redBlack_plug.mp ht.redBlack
    cases hy : t.color y with
    | red =>
        obtain ⟨-, hroot, -, hc⟩ := (balanced_red hy).mp hbalanced
        exact eraseEnd_spec hm (hc.paint hyc) (fun heq => Color.noConfusion heq)
          (fun _ => ⟨hrename k haround, hroot.paint hyc⟩) hlength
    | black =>
        obtain ⟨h, rfl, -, hc⟩ := (balanced_black hy).mp hbalanced
        exact eraseEnd_spec hm (hc.paint hyc) (fun _ => hrename (h + 1) haround)
          (fun heq => Color.noConfusion heq) hlength
  obtain ⟨t', tree, heraseEnd, htree, hinorder⟩ := hend
  refine ⟨t', tree, ?_, htree, ?_⟩
  · have hl : t.links.child .left old = some left := by
      have hholds : HoldsTree t.links
          (plug path (fork .left l old (plug inner (fork .left leaf y c)))) := hfull ▸ ht.holds
      rw [hholds.child_eq.1, hleft]
    have hr : t.links.child .right old = some right := by
      have hholds : HoldsTree t.links
          (plug path (fork .left l old (plug inner (fork .left leaf y c)))) := hfull ▸ ht.holds
      exact hholds.child_eq.2.trans hright
    simp only [rbErase, hl, hr, hwalk, hchild, habove, htake, Option.bind_eq_bind, Option.bind_some]
    exact heraseEnd
  · have hnext : (plug inner (fork .left leaf y c)).inorder = y :: (plug inner c).inorder := by
      rw [inorder_plug, inorder_plug, pathBefore_left hsides]
      rfl
    have hwith : (plug path (fork .left l old (plug inner (fork .left leaf y c)))).inorder =
        (pathBefore path ++ l.inorder) ++ old :: (y :: (plug inner c).inorder ++ pathAfter path) := by
      rw [inorder_plug, fork, inorder, hnext]
      simp only [List.append_assoc, List.cons_append]
    have hnodup := ht.holds.nodup
    rw [← hfull, hwith] at hnodup
    rw [hinorder, ← hplug', hwith, erase_middle hnodup, inorder_plug, fork, inorder]
    simp only [List.append_assoc, List.cons_append]

/-- `rb_erase` takes a node out of a red-black tree, in a number of passes that the depth bounds. -/
theorem rbErase_spec (ht : RbHolds t tree) (hmem : node ∈ tree.inorder)
    (hfuel : depth tree + 2 ≤ fuel) :
    ∃ t' tree', rbErase fuel node t = some t' ∧ RbHolds t' tree' ∧
      tree'.inorder = tree.inorder.erase node := by
  obtain ⟨path, l, r, rfl⟩ := exists_plug hmem
  have hlength := length_path_le path (.node l node r)
  have hfuel' : path.length + 2 ≤ fuel := by omega
  have hholds : HoldsTree t.links (plug path (fork .left l node r)) := ht.holds
  obtain ⟨hl, hr⟩ := hholds.child_eq
  have hparent : t.links.parent node = above path := hholds.parent_eq (root?_fork ..)
  cases hleft : l.root? with
  | none =>
      obtain rfl := root?_eq_none.mp hleft
      have ht' : RbHolds t (plug path (fork .left leaf node r)) := ht
      obtain ⟨t', tree', hend, htree, hinorder⟩ := eraseOnly_spec ht' hfuel'
      refine ⟨t', tree', ?_, htree, hinorder⟩
      have hright : t.links.child .right node = r.root? := hr
      have hleft : t.links.child .left node = none := hl
      simp only [rbErase, hleft, hright, hparent]
      exact hend
  | some left =>
      cases hright : r.root? with
      | none =>
          obtain rfl := root?_eq_none.mp hright
          have ht' : RbHolds t (plug path (fork .right leaf node l)) := ht
          obtain ⟨t', tree', hend, htree, hinorder⟩ := eraseOnly_spec ht' hfuel'
          refine ⟨t', tree', ?_, htree, hinorder⟩
          have hright' : t.links.child .right node = none := hr
          rw [hleft] at hl hend
          simp only [rbErase, hl, hright', hparent]
          exact hend
      | some right => exact eraseTwo_spec ht hleft hright hfuel

end Erase

end Workflow.Kernel

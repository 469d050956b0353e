/-
Module: Workflow.Proofs.ResourcePool
Layer: Proofs
Purpose: The resource pool in every run. A conditional is sound by itself: its flag and its number
  of `subtask_done` calls follow from how far its dispatch and its signal are. The pool counts: `value`
  is what is free minus who waits, and no resource is lost or given twice.
Trusted boundary: none
Main exports: Sound, PoolInv, PoolInv.dispatch, PoolInv.post, resourcePool_invariant
-/
import Workflow.Factory.ResourcePool
import Mathlib.Data.List.Nodup
import Mathlib.Data.List.Perm.Basic

namespace Workflow.Factory

open Workflow.Lib

/-! ### One conditional -/

section Conditionals

variable {ρ : Type} {c : Conditional ρ}

/-- A conditional whose parts agree. -/
structure Sound (c : Conditional ρ) : Prop where
  flag : c.flag = true ↔ c.dispatchPc = .finished ∨ c.signalPc = .finished
  done : c.done = if c.dispatchPc = .finished ∧ c.signalPc = .finished then 1 else 0
  grant : c.grant = none ↔ c.signalPc = .waiting
  written : c.signalPc = .written ∨ c.signalPc = .finished → c.msgbuf = c.grant
  started : c.dispatchPc = .ready → c.signalPc = .waiting

/-- A new conditional. -/
theorem sound_create : Sound (Conditional.create : Conditional ρ) := by
  constructor <;> simp [Conditional.create]

/-- The dispatching thread goes on without touching the flag. -/
theorem Sound.move {pc : DispatchPc} (h : Sound c) (hready : pc ≠ .ready) (hpc : pc ≠ .finished)
    (hold : c.dispatchPc ≠ .finished) : Sound { c with dispatchPc := pc } where
  flag := by simpa [hpc, hold] using h.flag
  done := by simpa [hpc, hold] using h.done
  grant := h.grant
  written := h.written
  started := fun heq => absurd heq hready

/-- A resource is granted to one that waits. -/
theorem Sound.granted (h : Sound c) (hwait : c.signalPc = .waiting) (hgo : c.dispatchPc ≠ .ready)
    (res : ρ) : Sound (c.granted res) where
  flag := by simpa [Conditional.granted, hwait] using h.flag
  done := by simpa [Conditional.granted, hwait] using h.done
  grant := by simp [Conditional.granted]
  written := by simp [Conditional.granted]
  started := fun heq => absurd heq hgo

/-- The resource is written down. -/
theorem Sound.write (h : Sound c) (hgrant : c.signalPc = .granted) : Sound c.write where
  flag := by simpa [Conditional.write, hgrant] using h.flag
  done := by simpa [Conditional.write, hgrant] using h.done
  grant := by simpa [Conditional.write, hgrant] using h.grant
  written := fun _ => rfl
  started := by
    intro heq
    cases hgrant.symm.trans (h.started heq)

/-- The flag is set by `signal`. -/
theorem Sound.signalFlag (h : Sound c) (hwritten : c.signalPc = .written) :
    Sound c.signalFlag where
  flag := by simp [Conditional.signalFlag, Conditional.exchange]
  done := by
    have hflag := h.flag
    have hdone := h.done
    simp only [hwritten, reduceCtorEq, or_false, and_false, if_false] at hflag hdone
    simp only [Conditional.signalFlag, Conditional.exchange, hdone, hflag, and_true, Nat.zero_add]
  grant := by simpa [Conditional.signalFlag, Conditional.exchange, hwritten] using h.grant
  written := fun _ => h.written (.inl hwritten)
  started := by
    intro heq
    cases hwritten.symm.trans (h.started heq)

/-- The flag is set by `dispatch`. -/
theorem Sound.dispatchFlag (h : Sound c) (hpushed : c.dispatchPc = .pushed) :
    Sound c.dispatchFlag where
  flag := by simp [Conditional.dispatchFlag, Conditional.exchange]
  done := by
    have hflag := h.flag
    have hdone := h.done
    simp only [hpushed, reduceCtorEq, false_or, false_and, if_false] at hflag hdone
    simp only [Conditional.dispatchFlag, Conditional.exchange, hdone, hflag, true_and, Nat.zero_add]
  grant := h.grant
  written := h.written
  started := fun heq => by cases heq

end Conditionals

/-! ### The pool -/

variable {ι ρ : Type} {p p' : ResourcePool ι ρ} {init : List ρ} {c : ι} {res : ρ}

/-- The resources in the array that are free. -/
def ResourcePool.free (p : ResourcePool ι ρ) : List ρ :=
  p.res.drop p.index

/-- The pool that began with the resources `init`. -/
structure PoolInv (init : List ρ) (p : ResourcePool ι ρ) : Prop where
  sound : ∀ c, Sound (p.cond c)
  wait : ∀ c, c ∈ p.waitList ↔
    (p.cond c).dispatchPc ≠ .ready ∧ (p.cond c).signalPc = .waiting
  once : p.waitList.Nodup
  length : p.res.length = init.length
  index : p.index ≤ p.res.length
  value : p.value = (p.free.length : Int) - p.waitList.length
  empty : p.waitList ≠ [] → p.free = []
  perm : (p.free ++ p.held.map Prod.snd).Perm init
  holder : ∀ c res, (c, res) ∈ p.held → (p.cond c).grant = some res
  holders : (p.held.map Prod.fst).Nodup
  order : p.waited = p.served ++ p.waitList

/-- A new pool. -/
theorem poolInv_create (init : List ρ) : PoolInv init (ResourcePool.create ι init) where
  sound := fun _ => sound_create
  wait := by simp [ResourcePool.create, Conditional.create]
  once := List.nodup_nil
  length := rfl
  index := Nat.zero_le _
  value := by simp [ResourcePool.create, ResourcePool.free]
  empty := fun h => absurd rfl h
  perm := by simp [ResourcePool.create, ResourcePool.free]
  holder := by simp [ResourcePool.create]
  holders := List.nodup_nil
  order := rfl

/-- Nobody holds anything who was not granted anything. -/
theorem PoolInv.notMem_holders (h : PoolInv init p) (hwait : (p.cond c).signalPc = .waiting) :
    c ∉ p.held.map Prod.fst := by
  intro hmem
  obtain ⟨⟨c', res⟩, hheld, rfl⟩ := List.mem_map.mp hmem
  have hgrant := h.holder _ _ hheld
  rw [((h.sound _).grant).mpr hwait] at hgrant
  cases hgrant

variable [DecidableEq ι]

/-- One conditional changes and the pool does not. -/
theorem PoolInv.setCond {cond : Conditional ρ} (h : PoolInv init p) (hsound : Sound cond)
    (hgrant : cond.grant = (p.cond c).grant)
    (hready : cond.dispatchPc = .ready ↔ (p.cond c).dispatchPc = .ready)
    (hwait : cond.signalPc = .waiting ↔ (p.cond c).signalPc = .waiting) :
    PoolInv init (p.setCond c cond) where
  sound := by
    intro c'
    rcases eq_or_ne c' c with rfl | hne
    · simpa [ResourcePool.setCond] using hsound
    · simpa [ResourcePool.setCond, hne] using h.sound c'
  wait := by
    intro c'
    rcases eq_or_ne c' c with rfl | hne
    · simpa [ResourcePool.setCond, hready, hwait] using h.wait c'
    · simpa [ResourcePool.setCond, hne] using h.wait c'
  once := h.once
  length := h.length
  index := h.index
  value := h.value
  empty := h.empty
  perm := h.perm
  holder := by
    intro c' res hheld
    rcases eq_or_ne c' c with rfl | hne
    · simpa [ResourcePool.setCond, hgrant] using h.holder c' res hheld
    · simpa [ResourcePool.setCond, hne] using h.holder c' res hheld
  holders := h.holders
  order := h.order

/-- A conditional is dispatched. -/
theorem PoolInv.dispatch (h : PoolInv init p) (hready : (p.cond c).dispatchPc = .ready) :
    ∃ p', p.dispatch c = some p' ∧ PoolInv init p' := by
  have hwaiting : (p.cond c).signalPc = .waiting := (h.sound c).started hready
  have hlocked : Sound { p.cond c with dispatchPc := .locked } :=
    (h.sound c).move (by decide) (by decide) (by simp [hready])
  have hnotWait : c ∉ p.waitList := fun hmem => ((h.wait c).mp hmem).1 hready
  have hvalue := h.value
  unfold ResourcePool.dispatch
  dsimp only
  by_cases hpos : 0 ≤ p.value - 1
  · -- a free resource: nobody waits
    have hnobody : p.waitList = [] := by
      by_contra hne
      rw [h.empty hne] at hvalue
      have := List.length_pos_of_ne_nil hne
      simp only [List.length_nil] at hvalue
      omega
    rw [hnobody] at hvalue
    have hlt : p.index < p.res.length := by
      simp only [ResourcePool.free, List.length_drop, List.length_nil] at hvalue
      omega
    have hdrop : p.free = p.res[p.index] :: p.res.drop (p.index + 1) :=
      List.drop_eq_getElem_cons hlt
    have hpop : p.res[p.index]? = some p.res[p.index] := List.getElem?_eq_getElem hlt
    rw [if_pos hpos, ResourcePool.pop]
    dsimp only
    rw [hpop]
    refine ⟨_, rfl, ?_⟩
    have hperm := h.perm
    rw [hdrop] at hperm
    refine ⟨fun c' => ?_, fun c' => ?_, h.once, h.length, hlt, ?_,
      fun hne => absurd hnobody hne, ?_, fun c' res' hheld => ?_, ?_, h.order⟩
    · rcases eq_or_ne c' c with rfl | hne
      · simp only [ResourcePool.setCond, Function.update_self]
        exact (((hlocked.granted hwaiting (by simp) _).write rfl).signalFlag rfl)
      · simpa [ResourcePool.setCond, hne] using h.sound c'
    · rcases eq_or_ne c' c with rfl | hne
      · simp [ResourcePool.setCond, hnotWait, Conditional.signalFlag]
      · simpa [ResourcePool.setCond, hne] using h.wait c'
    · show p.value - 1 = ((p.res.drop (p.index + 1)).length : Int) - p.waitList.length
      rw [hdrop, List.length_cons] at hvalue
      rw [hnobody]
      omega
    · exact List.perm_middle.trans hperm
    · rcases List.mem_cons.mp hheld with heq | hheld
      · obtain ⟨rfl, rfl⟩ := Prod.mk.inj heq
        simp [ResourcePool.setCond, Conditional.signalFlag, Conditional.exchange, Conditional.write,
          Conditional.granted]
      · have hold : (c', res') ∈ p.held := hheld
        have hne : c' ≠ c := by
          rintro rfl
          exact h.notMem_holders hwaiting (List.mem_map_of_mem hold)
        simpa [ResourcePool.setCond, hne] using h.holder c' res' hheld
    · exact List.nodup_cons.mpr ⟨h.notMem_holders hwaiting, h.holders⟩
  · rw [if_neg hpos]
    have hnone : p.free = [] := by
      by_contra hne
      have hnobody : p.waitList = [] := by
        by_contra hwait
        exact hne (h.empty hwait)
      have := List.length_pos_of_ne_nil hne
      rw [hnobody, List.length_nil] at hvalue
      omega
    refine ⟨_, rfl, ⟨fun c' => ?_, fun c' => ?_, ?_, h.length, h.index, ?_, fun _ => hnone, h.perm,
      fun c' res' hheld => ?_, h.holders, ?_⟩⟩
    · rcases eq_or_ne c' c with rfl | hne
      · simpa [ResourcePool.setCond] using hlocked
      · simpa [ResourcePool.setCond, hne] using h.sound c'
    · rcases eq_or_ne c' c with rfl | hne
      · simp [ResourcePool.setCond, hwaiting]
      · simpa [ResourcePool.setCond, hne] using h.wait c'
    · refine List.Nodup.append h.once (List.nodup_singleton c) fun c' hc' hc => ?_
      exact hnotWait (List.mem_singleton.mp hc ▸ hc')
    · show p.value - 1 = (p.free.length : Int) - (p.waitList ++ [c]).length
      rw [List.length_append, List.length_singleton]
      omega
    · rcases eq_or_ne c' c with rfl | hne
      · simpa [ResourcePool.setCond] using h.holder c' res' hheld
      · simpa [ResourcePool.setCond, hne] using h.holder c' res' hheld
    · show p.waited ++ [c] = p.served ++ (p.waitList ++ [c])
      rw [h.order, List.append_assoc]

variable [DecidableEq ρ]

/-- What the others hold when `c` gives its resource back. -/
theorem PoolInv.held_perm (h : PoolInv init p) (hheld : (c, res) ∈ p.held) :
    (res :: (p.free ++ (p.held.erase (c, res)).map Prod.snd)).Perm init := by
  have herase : p.held.Perm ((c, res) :: p.held.erase (c, res)) := List.perm_cons_erase hheld
  have hsnd : (p.held.map Prod.snd).Perm (res :: (p.held.erase (c, res)).map Prod.snd) :=
    herase.map Prod.snd
  exact List.perm_middle.symm.trans ((hsnd.symm.append_left p.free).trans h.perm)

/-- The resource goes to the one that waits longest, or back into the array. -/
theorem PoolInv.post (h : PoolInv init p) (hheld : (c, res) ∈ p.held) :
    ∃ p', p.post c res = some p' ∧ PoolInv init p' := by
  have hvalue := h.value
  have hperm := h.held_perm hheld
  have hsub : (p.held.erase (c, res)).Sublist p.held := List.erase_sublist
  have hholders : ((p.held.erase (c, res)).map Prod.fst).Nodup :=
    h.holders.sublist (hsub.map Prod.fst)
  unfold ResourcePool.post
  dsimp only
  by_cases hneg : p.value + 1 ≤ 0
  · rw [if_pos hneg]
    cases hlist : p.waitList with
    | nil =>
        rw [hlist, List.length_nil] at hvalue
        omega
    | cons w rest =>
        have hfree : p.free = [] := h.empty (by simp [hlist])
        have hw : w ∈ p.waitList := by simp [hlist]
        obtain ⟨hgo, hwaiting⟩ := (h.wait w).mp hw
        have honce := h.once
        rw [hlist] at honce
        obtain ⟨hnotRest, hrest⟩ := List.nodup_cons.mp honce
        have hnotHeld : w ∉ (p.held.erase (c, res)).map Prod.fst := fun hmem =>
          h.notMem_holders hwaiting ((hsub.map Prod.fst).subset hmem)
        refine ⟨_, rfl, ⟨fun c' => ?_, fun c' => ?_, hrest, h.length, h.index, ?_, fun _ => hfree,
          ?_, fun c' res' hmem => ?_, List.nodup_cons.mpr ⟨hnotHeld, hholders⟩, ?_⟩⟩
        · rcases eq_or_ne c' w with rfl | hne
          · simpa [ResourcePool.setCond] using (h.sound c').granted hwaiting hgo res
          · simpa [ResourcePool.setCond, hne] using h.sound c'
        · rcases eq_or_ne c' w with rfl | hne
          · simp [ResourcePool.setCond, hnotRest, Conditional.granted]
          · have hmem := h.wait c'
            rw [hlist, List.mem_cons, or_iff_right hne] at hmem
            simpa [ResourcePool.setCond, hne] using hmem
        · show p.value + 1 = (p.free.length : Int) - rest.length
          rw [hlist, List.length_cons] at hvalue
          omega
        · exact List.perm_middle.trans hperm
        · rcases List.mem_cons.mp hmem with heq | hmem
          · obtain ⟨rfl, rfl⟩ := Prod.mk.inj heq
            simp [ResourcePool.setCond, Conditional.granted]
          · have hold : (c', res') ∈ p.held.erase (c, res) := hmem
            have hne : c' ≠ w := by
              rintro rfl
              exact hnotHeld (List.mem_map_of_mem hold)
            simpa [ResourcePool.setCond, hne] using h.holder c' res' (hsub.subset hold)
        · show p.waited = (p.served ++ [w]) ++ rest
          rw [h.order, hlist, List.append_assoc, List.singleton_append]
  · -- the array has room: as many are taken out of it as are held
    rw [if_neg hneg]
    have hnobody : p.waitList = [] := by
      by_contra hne
      rw [h.empty hne, List.length_nil] at hvalue
      have := List.length_pos_of_ne_nil hne
      omega
    have hlength := hperm.length_eq
    have hle := h.index
    have hsame := h.length
    simp only [List.length_cons, List.length_append, ResourcePool.free, List.length_drop,
      List.length_map] at hlength
    have hindex : p.index ≠ 0 := by omega
    have hlt : p.index - 1 < p.res.length := by omega
    have hset : (p.res.set (p.index - 1) res).drop (p.index - 1) = res :: p.free := by
      rw [List.drop_eq_getElem_cons (by simpa using hlt), List.getElem_set_self,
        List.drop_set_of_lt (by omega), Nat.sub_add_cancel (by omega)]
      rfl
    rw [ResourcePool.push, if_neg hindex]
    refine ⟨_, rfl, ⟨h.sound, h.wait, h.once, ?_, ?_, ?_, fun hne => absurd hnobody hne, ?_,
      fun c' res' hmem => h.holder c' res' (hsub.subset hmem), hholders, h.order⟩⟩
    · simpa using h.length
    · simpa using Nat.le_of_lt hlt
    · show p.value + 1 =
        (((p.res.set (p.index - 1) res).drop (p.index - 1)).length : Int) - p.waitList.length
      rw [hset, List.length_cons]
      omega
    · show (((p.res.set (p.index - 1) res).drop (p.index - 1)) ++
        (p.held.erase (c, res)).map Prod.snd).Perm init
      rw [hset]
      exact hperm

/-! ### Every run -/

/-- What each step keeps. -/
theorem PoolInv.exec {fuel : Nat} {op : PoolOp ι ρ} (h : PoolInv init p)
    (hstep : p.exec fuel op = some p') : PoolInv init p' := by
  cases op with
  | dispatch c =>
      obtain ⟨hready, hstep⟩ := Option.ite_none_right_eq_some.mp hstep
      obtain ⟨q, hq, hinv⟩ := h.dispatch hready
      rw [hq] at hstep
      exact Option.some.inj hstep ▸ hinv
  | pushFront c =>
      obtain ⟨hlocked, hstep⟩ := Option.ite_none_right_eq_some.mp hstep
      have hsound := (h.sound c).move (show DispatchPc.pushed ≠ .ready by decide) (by decide)
        (by simp [hlocked])
      exact Option.some.inj hstep ▸ h.setCond hsound rfl (by simp [hlocked]) Iff.rfl
  | dispatchFlag c =>
      obtain ⟨hpushed, hstep⟩ := Option.ite_none_right_eq_some.mp hstep
      have hready :
          (p.cond c).dispatchFlag.dispatchPc = .ready ↔ (p.cond c).dispatchPc = .ready := by
        simp [Conditional.dispatchFlag, hpushed]
      exact Option.some.inj hstep ▸ h.setCond ((h.sound c).dispatchFlag hpushed) rfl hready Iff.rfl
  | post c res =>
      obtain ⟨hheld, hstep⟩ := Option.ite_none_right_eq_some.mp hstep
      obtain ⟨q, hq, hinv⟩ := h.post hheld
      rw [hq] at hstep
      exact Option.some.inj hstep ▸ hinv
  | signalWrite c =>
      obtain ⟨hgranted, hstep⟩ := Option.ite_none_right_eq_some.mp hstep
      have hwait : (p.cond c).write.signalPc = .waiting ↔ (p.cond c).signalPc = .waiting := by
        simp [Conditional.write, hgranted]
      exact Option.some.inj hstep ▸ h.setCond ((h.sound c).write hgranted) rfl Iff.rfl hwait
  | signalFlag c =>
      obtain ⟨hwritten, hstep⟩ := Option.ite_none_right_eq_some.mp hstep
      have hwait : (p.cond c).signalFlag.signalPc = .waiting ↔ (p.cond c).signalPc = .waiting := by
        simp [Conditional.signalFlag, hwritten]
      exact Option.some.inj hstep ▸ h.setCond ((h.sound c).signalFlag hwritten) rfl Iff.rfl hwait

/-- Hence it holds in every state that is reached. -/
theorem poolInv_reachable
    (h : Reachable (ResourcePool.machine ι init) (fun _ _ => True) p) : PoolInv init p := by
  refine h.invariant ?_ ?_
  · rintro _ rfl
    exact poolInv_create init
  · rintro s op t hinv - ⟨fuel, hstep⟩
    exact hinv.exec hstep

/-- What the flag of a conditional decides: one `subtask_done`, behind the grant and the dispatch,
and by then the granted resource is in the message buffer. -/
theorem Sound.done_once {cond : Conditional ρ} (h : Sound cond) :
    cond.done ≤ 1 ∧
      (cond.done = 1 ↔ cond.dispatchPc = .finished ∧ cond.signalPc = .finished) ∧
      (cond.done = 1 → ∃ res, cond.grant = some res ∧ cond.msgbuf = some res) := by
  have hdone := h.done
  by_cases hboth : cond.dispatchPc = .finished ∧ cond.signalPc = .finished
  · rw [if_pos hboth] at hdone
    have hgrant : cond.grant ≠ none := by
      rw [Ne, h.grant, hboth.2]
      decide
    obtain ⟨res, hres⟩ := Option.ne_none_iff_exists'.mp hgrant
    refine ⟨Nat.le_of_eq hdone, ⟨fun _ => hboth, fun _ => hdone⟩, fun _ => ⟨res, hres, ?_⟩⟩
    rw [h.written (.inr hboth.2), hres]
  · rw [if_neg hboth] at hdone
    refine ⟨by omega, ⟨fun hone => ?_, fun hb => absurd hb hboth⟩, fun hone => ?_⟩
    · omega
    · omega

/-- The pool in every state of every run. -/
theorem resourcePool_invariant {ι ρ : Type} [DecidableEq ι] [DecidableEq ρ] (init : List ρ)
    (p : ResourcePool ι ρ)
    (h : Reachable (ResourcePool.machine ι init) (fun _ _ => True) p) :
    p.value = (p.free.length : Int) - p.waitList.length ∧
    (p.free = [] ∨ p.waitList = []) ∧
    p.res.length = init.length ∧ p.index ≤ init.length ∧
    (p.free ++ p.held.map Prod.snd).Perm init ∧
    (p.held.map Prod.fst).Nodup ∧
    (∀ c res, (c, res) ∈ p.held → (p.cond c).grant = some res) ∧
    (∀ c, c ∈ p.waitList ↔ (p.cond c).dispatchPc ≠ .ready ∧ (p.cond c).grant = none) ∧
    p.waited = p.served ++ p.waitList ∧
    (∀ c, (p.cond c).done ≤ 1 ∧
      ((p.cond c).done = 1 ↔
        (p.cond c).dispatchPc = .finished ∧ (p.cond c).signalPc = .finished) ∧
      ((p.cond c).done = 1 →
        ∃ res, (p.cond c).grant = some res ∧ (p.cond c).msgbuf = some res)) ∧
    (∀ c, (p.cond c).dispatchPc = .ready → ∃ p', p.dispatch c = some p') ∧
    (∀ c res, (c, res) ∈ p.held → ∃ p', p.post c res = some p') := by
  have hinv := poolInv_reachable h
  have hone : p.free = [] ∨ p.waitList = [] := by
    by_cases hwait : p.waitList = []
    · exact .inr hwait
    · exact .inl (hinv.empty hwait)
  refine ⟨hinv.value, hone, hinv.length, hinv.length ▸ hinv.index, hinv.perm, hinv.holders,
    hinv.holder, fun c => ?_, hinv.order, fun c => (hinv.sound c).done_once, fun c hready => ?_,
    fun c res hheld => ?_⟩
  · rw [hinv.wait, (hinv.sound c).grant]
  · obtain ⟨p', hp', -⟩ := hinv.dispatch hready
    exact ⟨p', hp'⟩
  · obtain ⟨p', hp', -⟩ := hinv.post hheld
    exact ⟨p', hp'⟩

/-- One resource and two conditionals: the second waits, and gets the resource when the first gives
it back, before its own dispatch is at its end. -/
def handOver : List (PoolOp Nat Nat) :=
  [.dispatch 0, .pushFront 0, .dispatch 1, .dispatchFlag 0, .post 0 7, .pushFront 1, .signalWrite 1,
    .signalFlag 1, .dispatchFlag 1]

theorem resourcePool_invariant_handOver :
    ∃ p : ResourcePool Nat Nat, Reachable (ResourcePool.machine Nat [7]) (fun _ _ => True) p ∧
      p.served = [1] ∧ p.held = [(1, 7)] ∧ (p.cond 1).done = 1 ∧
      (p.cond 1).msgbuf = some 7 ∧ p.value = 0 := by
  obtain ⟨p, hp⟩ : ∃ p, runChecked ResourcePool.exec (fun _ _ => True) 0
      (ResourcePool.create Nat [7]) handOver = some p := ⟨_, rfl⟩
  have hreach := runChecked_reachable (.init rfl) hp
  obtain rfl := Option.some.inj hp
  have hvalue := (resourcePool_invariant [7] _ hreach).1
  exact ⟨_, hreach, rfl, rfl, rfl, rfl, hvalue⟩

end Workflow.Factory

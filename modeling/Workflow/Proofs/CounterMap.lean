/-
Module: Workflow.Proofs.CounterMap
Layer: Proofs
Purpose: Named counters in the runs in which no task is dismissed that was counted to the end and the
  map is destroyed when nothing is left in it. In all of them a list holds exactly the tasks of its
  name that are still to be counted, and lists and nodes go away once. Both conditions are needed:
  the destructor of a task looks at the wrong counter.
Trusted boundary: none
Main exports: CounterInv, CounterInv.retire, CounterMap.Gentle, CounterOk, counterMap_lifecycle,
  counterMap_dismissed
-/
import Workflow.Factory.CounterMap
import Mathlib.Data.List.Nodup

namespace Workflow.Factory

open Workflow.Lib

variable {ν : Type} [DecidableEq ν]

/-! ### The invariant -/

/-- What holds between the steps. -/
structure CounterInv (m : CounterMap ν) : Prop where
  keyed : ∀ name id, m.countersMap.lookup name = some id → ∃ l, m.lists id = some l ∧ l.name = name
  mapped : ∀ id l, m.lists id = some l →
    m.countersMap.lookup l.name = some id ∧ l.head ≠ [] ∧ l.head.Nodup
  nodes : ∀ id l t, m.lists id = some l →
    (t ∈ l.head ↔ ∃ task, m.task t = some task ∧ task.counters = id ∧ 0 < task.targetValue)
  linked : ∀ t task, m.task t = some task → 0 < task.targetValue →
    ∃ l, m.lists task.counters = some l ∧ l.name = task.name
  listFresh : ∀ id, m.listCnt ≤ id → m.lists id = none
  deleted : ∀ id, id ∈ m.deleted ↔ id < m.listCnt ∧ m.lists id = none
  deletedOnce : m.deleted.Nodup
  taskFresh : ∀ t, m.taskCnt ≤ t → m.task t = none
  unlinked : ∀ t, t ∈ m.unlinked ↔
    t < m.taskCnt ∧ ∀ task, m.task t = some task → task.targetValue = 0
  unlinkedOnce : m.unlinked.Nodup
  ripe : ∀ t ∈ m.ripe, ∃ task, m.task t = some task ∧ task.targetValue = 0
  ripeOnce : m.ripe.Nodup
  value : ∀ t task, m.task t = some task → task.value =
    (if task.dispatched then 0 else 1) + if 0 < task.targetValue ∨ t ∈ m.ripe then 1 else 0
  positive : ∀ t task, m.task t = some task → 0 < task.value
  fault : m.fault = false

theorem counterInv_empty : CounterInv (CounterMap.empty ν) where
  keyed := by simp [CounterMap.empty]
  mapped := by simp [CounterMap.empty]
  nodes := by simp [CounterMap.empty]
  linked := by simp [CounterMap.empty]
  listFresh := by simp [CounterMap.empty]
  deleted := by simp [CounterMap.empty]
  deletedOnce := List.nodup_nil
  taskFresh := by simp [CounterMap.empty]
  unlinked := by simp [CounterMap.empty]
  unlinkedOnce := List.nodup_nil
  ripe := by simp [CounterMap.empty]
  ripeOnce := List.nodup_nil
  value := by simp [CounterMap.empty]
  positive := by simp [CounterMap.empty]
  fault := rfl

variable {m m' : CounterMap ν} {id t : Nat} {l : CounterList ν} {task : CounterTask ν}

omit [DecidableEq ν] in
@[simp]
theorem setTask_task_self {x : Option (CounterTask ν)} : (m.setTask t x).task t = x :=
  Function.update_self _ _ _

omit [DecidableEq ν] in
theorem setTask_task_of_ne {x : Option (CounterTask ν)} {s : Nat} (h : s ≠ t) :
    (m.setTask t x).task s = m.task s :=
  Function.update_of_ne h _ _

omit [DecidableEq ν] in
/-- A task is one that was there, or the one that was put in. -/
theorem setTask_cases {x : Option (CounterTask ν)} {s : Nat} {task' : CounterTask ν}
    (hs : (m.setTask t x).task s = some task') :
    s ≠ t ∧ m.task s = some task' ∨ s = t ∧ x = some task' := by
  rcases eq_or_ne s t with rfl | hne
  · rw [setTask_task_self] at hs
    exact .inr ⟨rfl, hs⟩
  · rw [setTask_task_of_ne hne] at hs
    exact .inl ⟨hne, hs⟩

/-! ### A node leaves its list -/

/-- `remove` on a list that is there. -/
def CounterMap.unlinkFrom (m : CounterMap ν) (id : Nat) (l : CounterList ν) (t : Nat) :
    CounterMap ν :=
  if l.head.erase t = [] then
    { m with
      lists := Function.update m.lists id none
      countersMap := m.countersMap.erase l.name
      deleted := id :: m.deleted
      unlinked := t :: m.unlinked }
  else
    { m with
      lists := Function.update m.lists id (some ⟨l.name, l.head.erase t⟩)
      unlinked := t :: m.unlinked }

omit [DecidableEq ν] in
theorem del_eq (h : m.lists id = some l) :
    m.del id t = { m with
      lists := Function.update m.lists id (some ⟨l.name, l.head.erase t⟩)
      unlinked := t :: m.unlinked } := by
  unfold CounterMap.del
  rw [h]
  rfl

theorem remove_eq (h : m.lists id = some l) (hfault : m.fault = false) :
    m.remove id t = m.unlinkFrom id l t := by
  rw [CounterMap.remove, del_eq h]
  unfold CounterMap.unlinkFrom CounterMap.dropEmpty
  simp only [Function.update_self, List.isEmpty_iff]
  split
  · simp [CounterMap.deleteList, CounterMap.setList, hfault]
  · rfl

section Unlink

variable (m : CounterMap ν) (id : Nat) (l : CounterList ν) (t : Nat)

theorem unlinkFrom_lists_self : (m.unlinkFrom id l t).lists id =
    if l.head.erase t = [] then none else some ⟨l.name, l.head.erase t⟩ := by
  unfold CounterMap.unlinkFrom
  split <;> exact Function.update_self _ _ _

variable {id} in
theorem unlinkFrom_lists_of_ne {i : Nat} (h : i ≠ id) :
    (m.unlinkFrom id l t).lists i = m.lists i := by
  unfold CounterMap.unlinkFrom
  split <;> exact Function.update_of_ne h _ _

theorem unlinkFrom_lookup_self (h : l.head.erase t ≠ []) :
    (m.unlinkFrom id l t).countersMap = m.countersMap := by
  rw [CounterMap.unlinkFrom, if_neg h]

variable {l} in
theorem unlinkFrom_lookup_of_ne {name : ν} (h : name ≠ l.name) :
    (m.unlinkFrom id l t).countersMap.lookup name = m.countersMap.lookup name := by
  unfold CounterMap.unlinkFrom
  split
  · exact AList.lookup_erase_ne h
  · rfl

variable {l t} in
theorem unlinkFrom_lookup_none (h : l.head.erase t = []) :
    (m.unlinkFrom id l t).countersMap.lookup l.name = none := by
  rw [CounterMap.unlinkFrom, if_pos h]
  exact AList.lookup_erase _ _

theorem unlinkFrom_deleted : (m.unlinkFrom id l t).deleted =
    if l.head.erase t = [] then id :: m.deleted else m.deleted := by
  unfold CounterMap.unlinkFrom
  split <;> rfl

/-- All else is as before. -/
theorem unlinkFrom_rest : (m.unlinkFrom id l t).task = m.task ∧
    (m.unlinkFrom id l t).taskCnt = m.taskCnt ∧ (m.unlinkFrom id l t).listCnt = m.listCnt ∧
    (m.unlinkFrom id l t).ripe = m.ripe ∧ (m.unlinkFrom id l t).unlinked = t :: m.unlinked ∧
    (m.unlinkFrom id l t).fault = m.fault ∧
    (m.unlinkFrom id l t).destroyed = m.destroyed := by
  unfold CounterMap.unlinkFrom
  split <;> simp

end Unlink

/-- The node that leaves can be taken out before or after its task changes. -/
theorem unlinkFrom_setTask {x : Option (CounterTask ν)} :
    (m.unlinkFrom id l t).setTask t x = (m.setTask t x).unlinkFrom id l t := by
  unfold CounterMap.unlinkFrom
  split <;> rfl

theorem unlinkFrom_ripe {ripe : List Nat} :
    { m.unlinkFrom id l t with ripe := ripe } = { m with ripe := ripe }.unlinkFrom id l t := by
  unfold CounterMap.unlinkFrom
  split <;> rfl

/-! The lists, when a node has left one of them. -/

/-- A name still leads to a list of that name. -/
theorem CounterInv.unlinkFrom_keyed {name : ν} {i : Nat} (h : CounterInv m)
    (hl : m.lists id = some l)
    (hi : (m.unlinkFrom id l t).countersMap.lookup name = some i) :
    ∃ l', (m.unlinkFrom id l t).lists i = some l' ∧ l'.name = name := by
  have hlookup := (h.mapped id l hl).1
  rcases eq_or_ne name l.name with rfl | hname
  · by_cases hempty : l.head.erase t = []
    · rw [unlinkFrom_lookup_none _ _ hempty] at hi
      cases hi
    · rw [unlinkFrom_lookup_self _ _ _ _ hempty] at hi
      obtain rfl : i = id := Option.some.inj (hi.symm.trans hlookup)
      refine ⟨⟨l.name, l.head.erase t⟩, ?_, rfl⟩
      rw [unlinkFrom_lists_self, if_neg hempty]
  · rw [unlinkFrom_lookup_of_ne _ _ _ hname] at hi
    obtain ⟨l', hl', hname'⟩ := h.keyed name i hi
    have hne : i ≠ id := by
      rintro rfl
      rw [hl] at hl'
      exact hname (hname'.symm.trans (congrArg _ (Option.some.inj hl').symm))
    exact ⟨l', by rwa [unlinkFrom_lists_of_ne _ _ _ hne], hname'⟩

/-- A list that is left is found under its name and holds a node. -/
theorem CounterInv.unlinkFrom_mapped {i : Nat} {l' : CounterList ν} (h : CounterInv m)
    (hl : m.lists id = some l) (hi : (m.unlinkFrom id l t).lists i = some l') :
    (m.unlinkFrom id l t).countersMap.lookup l'.name = some i ∧ l'.head ≠ [] ∧ l'.head.Nodup := by
  obtain ⟨hlookup, -, hnodup⟩ := h.mapped id l hl
  rcases eq_or_ne i id with rfl | hne
  · rw [unlinkFrom_lists_self] at hi
    by_cases hempty : l.head.erase t = []
    · rw [if_pos hempty] at hi
      cases hi
    · rw [if_neg hempty] at hi
      obtain rfl := Option.some.inj hi
      rw [unlinkFrom_lookup_self _ _ _ _ hempty]
      exact ⟨hlookup, hempty, hnodup.erase t⟩
  · rw [unlinkFrom_lists_of_ne _ _ _ hne] at hi
    obtain ⟨hlookup', hhead, hnodup'⟩ := h.mapped i l' hi
    have hname : l'.name ≠ l.name := by
      intro heq
      rw [heq, hlookup] at hlookup'
      exact hne (Option.some.inj hlookup').symm
    rw [unlinkFrom_lookup_of_ne _ _ _ hname]
    exact ⟨hlookup', hhead, hnodup'⟩

/-- A list of a later number is not there yet. -/
theorem CounterInv.unlinkFrom_listFresh {i : Nat} (h : CounterInv m) (hl : m.lists id = some l)
    (hi : m.listCnt ≤ i) : (m.unlinkFrom id l t).lists i = none := by
  have hne : i ≠ id := by
    rintro rfl
    cases hl.symm.trans (h.listFresh i hi)
  rw [unlinkFrom_lists_of_ne _ _ _ hne]
  exact h.listFresh i hi

/-- A list that is there has not been deleted. -/
theorem CounterInv.not_deleted (h : CounterInv m) (hl : m.lists id = some l) : id ∉ m.deleted :=
  fun hmem => by cases hl.symm.trans ((h.deleted id).mp hmem).2

/-- The deleted lists are those that were there once and are gone. -/
theorem CounterInv.unlinkFrom_mem_deleted (h : CounterInv m) (hl : m.lists id = some l) (i : Nat) :
    i ∈ (m.unlinkFrom id l t).deleted ↔
      i < m.listCnt ∧ (m.unlinkFrom id l t).lists i = none := by
  have hlt : id < m.listCnt := by
    by_contra hge
    cases hl.symm.trans (h.listFresh id (by omega))
  rw [unlinkFrom_deleted]
  rcases eq_or_ne i id with rfl | hne
  · rw [unlinkFrom_lists_self]
    split
    · exact ⟨fun _ => ⟨hlt, rfl⟩, fun _ => List.mem_cons_self⟩
    · exact ⟨fun hmem => absurd hmem (h.not_deleted hl), fun hnone => by cases hnone.2⟩
  · rw [unlinkFrom_lists_of_ne _ _ _ hne]
    have hold := h.deleted i
    split
    · rw [List.mem_cons, or_iff_right hne]
      exact hold
    · exact hold

theorem CounterInv.unlinkFrom_deletedOnce (h : CounterInv m) (hl : m.lists id = some l) :
    (m.unlinkFrom id l t).deleted.Nodup := by
  rw [unlinkFrom_deleted]
  split
  · exact List.nodup_cons.mpr ⟨h.not_deleted hl, h.deletedOnce⟩
  · exact h.deletedOnce

/-! ### A task that is not to be counted any more -/

/-- What becomes of such a task: it is deleted, or it is counted to the end and
`WFCounterTask::count` is still to come. -/
def Retires (m : CounterMap ν) (t : Nat) (task : CounterTask ν) (x : Option (CounterTask ν))
    (ripe : List Nat) : Prop :=
  x = none ∧ ripe = m.ripe ∨ x = some { task with targetValue := 0 } ∧ ripe = t :: m.ripe

section Retire

variable {x : Option (CounterTask ν)} {ripe : List Nat} {s i : Nat} {l' : CounterList ν}
  {task' : CounterTask ν}

omit [DecidableEq ν] in
/-- Nothing is left to be counted. -/
theorem Retires.idle (hx : Retires m t task x ripe) (htask' : x = some task') :
    task'.targetValue = 0 := by
  subst htask'
  rcases hx with ⟨hx, -⟩ | ⟨hx, -⟩
  · cases hx
  · obtain rfl := Option.some.inj hx
    rfl

omit [DecidableEq ν] in
/-- The other tasks are as ripe as before. -/
theorem Retires.mem_ripe (hx : Retires m t task x ripe) (hne : s ≠ t) :
    s ∈ ripe ↔ s ∈ m.ripe := by
  rcases hx with ⟨-, rfl⟩ | ⟨-, rfl⟩
  · rfl
  · rw [List.mem_cons, or_iff_right hne]

/-- A task that is still to be counted is not ripe. -/
theorem CounterInv.notRipe (h : CounterInv m) (htask : m.task t = some task)
    (htarget : 0 < task.targetValue) : t ∉ m.ripe := by
  intro hmem
  obtain ⟨task', htask', hzero⟩ := h.ripe t hmem
  obtain rfl := Option.some.inj (htask.symm.trans htask')
  omega

/-- The tasks that are still to be counted for a list are those of its other nodes. -/
theorem CounterInv.retire_active (h : CounterInv m) (hl : m.lists id = some l)
    (hx : Retires m t task x ripe) :
    (∃ task', (m.setTask t x).task s = some task' ∧ task'.counters = id ∧
      0 < task'.targetValue) ↔ s ∈ l.head.erase t := by
  rw [(h.mapped id l hl).2.2.mem_erase_iff, h.nodes id l s hl]
  constructor
  · rintro ⟨task', hs, hcounters, hpos⟩
    rcases setTask_cases hs with ⟨hne, hs⟩ | ⟨-, hs⟩
    · exact ⟨hne, task', hs, hcounters, hpos⟩
    · exact absurd (hx.idle hs) (by omega)
  · rintro ⟨hne, task', hs, hcounters, hpos⟩
    exact ⟨task', by rwa [setTask_task_of_ne hne], hcounters, hpos⟩

/-- Each list holds exactly the tasks that are still to be counted for it. -/
theorem CounterInv.retire_nodes (h : CounterInv m) (htask : m.task t = some task)
    (hl : m.lists task.counters = some l) (hx : Retires m t task x ripe)
    (hi : (m.unlinkFrom task.counters l t).lists i = some l') :
    s ∈ l'.head ↔ ∃ task', (m.setTask t x).task s = some task' ∧ task'.counters = i ∧
      0 < task'.targetValue := by
  rcases eq_or_ne i task.counters with rfl | hne
  · rw [unlinkFrom_lists_self] at hi
    by_cases hempty : l.head.erase t = []
    · rw [if_pos hempty] at hi
      cases hi
    · rw [if_neg hempty] at hi
      obtain rfl := Option.some.inj hi
      exact (h.retire_active hl hx).symm
  · rw [unlinkFrom_lists_of_ne _ _ _ hne] at hi
    rw [h.nodes i l' s hi]
    constructor
    · rintro ⟨task', hs, hcounters, hpos⟩
      have hst : s ≠ t := by
        rintro rfl
        obtain rfl := Option.some.inj (htask.symm.trans hs)
        exact hne hcounters.symm
      exact ⟨task', (setTask_task_of_ne hst).trans hs, hcounters, hpos⟩
    · rintro ⟨task', hs, hcounters, hpos⟩
      rcases setTask_cases hs with ⟨-, hs⟩ | ⟨-, hs⟩
      · exact ⟨task', hs, hcounters, hpos⟩
      · exact absurd (hx.idle hs) (by omega)

/-- A task that is still to be counted has the list of its name. -/
theorem CounterInv.retire_linked (h : CounterInv m) (hl : m.lists id = some l)
    (hx : Retires m t task x ripe) (hs : (m.setTask t x).task s = some task')
    (hpos : 0 < task'.targetValue) :
    ∃ l', (m.unlinkFrom id l t).lists task'.counters = some l' ∧ l'.name = task'.name := by
  rcases setTask_cases hs with ⟨-, hs'⟩ | ⟨-, hs'⟩
  · obtain ⟨l', hl', hname⟩ := h.linked s task' hs' hpos
    rcases eq_or_ne task'.counters id with heq | hne
    · have hrest := (h.retire_active hl hx).mp ⟨task', hs, heq, hpos⟩
      rw [heq, hl] at hl'
      obtain rfl := Option.some.inj hl'
      rw [heq, unlinkFrom_lists_self, if_neg (List.ne_nil_of_mem hrest)]
      exact ⟨_, rfl, hname⟩
    · exact ⟨l', by rwa [unlinkFrom_lists_of_ne _ _ _ hne], hname⟩
  · exact absurd (hx.idle hs') (by omega)

/-- The nodes out of their lists are those of the tasks that are not to be counted any more. -/
theorem CounterInv.retire_unlinked (h : CounterInv m) (htask : m.task t = some task)
    (hx : Retires m t task x ripe) :
    s ∈ t :: m.unlinked ↔
      s < m.taskCnt ∧ ∀ task', (m.setTask t x).task s = some task' → task'.targetValue = 0 := by
  have hlt : t < m.taskCnt := by
    by_contra hge
    cases htask.symm.trans (h.taskFresh t (by omega))
  rcases eq_or_ne s t with rfl | hne
  · rw [setTask_task_self]
    exact ⟨fun _ => ⟨hlt, fun _ => hx.idle⟩, fun _ => List.mem_cons_self⟩
  · rw [List.mem_cons, or_iff_right hne, setTask_task_of_ne hne]
    exact h.unlinked s

/-- A ripe task is there and counted to the end. -/
theorem CounterInv.retire_ripe (h : CounterInv m) (htask : m.task t = some task)
    (htarget : 0 < task.targetValue) (hx : Retires m t task x ripe) (hs : s ∈ ripe) :
    ∃ task', (m.setTask t x).task s = some task' ∧ task'.targetValue = 0 := by
  rcases eq_or_ne s t with rfl | hne
  · rcases hx with ⟨-, rfl⟩ | ⟨rfl, -⟩
    · exact absurd hs (h.notRipe htask htarget)
    · exact ⟨_, setTask_task_self, rfl⟩
  · obtain ⟨task', hs', hzero⟩ := h.ripe s ((hx.mem_ripe hne).mp hs)
    exact ⟨task', (setTask_task_of_ne hne).trans hs', hzero⟩

theorem CounterInv.retire_ripeOnce (h : CounterInv m) (htask : m.task t = some task)
    (htarget : 0 < task.targetValue) (hx : Retires m t task x ripe) : ripe.Nodup := by
  rcases hx with ⟨-, rfl⟩ | ⟨-, rfl⟩
  · exact h.ripeOnce
  · exact List.nodup_cons.mpr ⟨h.notRipe htask htarget, h.ripeOnce⟩

/-- The counter of a task still stands for what it waits for. -/
theorem CounterInv.retire_value (h : CounterInv m) (htask : m.task t = some task)
    (htarget : 0 < task.targetValue) (hx : Retires m t task x ripe)
    (hs : (m.setTask t x).task s = some task') :
    0 < task'.value ∧ task'.value =
      (if task'.dispatched then 0 else 1) + if 0 < task'.targetValue ∨ s ∈ ripe then 1 else 0 := by
  rcases setTask_cases hs with ⟨hne, hs'⟩ | ⟨rfl, hs'⟩
  · simp only [hx.mem_ripe hne]
    exact ⟨h.positive s task' hs', h.value s task' hs'⟩
  · rcases hx with ⟨rfl, -⟩ | ⟨rfl, rfl⟩
    · cases hs'
    · obtain rfl := Option.some.inj hs'
      have hold := h.value s task htask
      rw [if_pos (show 0 < task.targetValue ∨ s ∈ m.ripe from .inl htarget)] at hold
      rw [if_pos (show 0 < 0 ∨ s ∈ s :: m.ripe from .inr List.mem_cons_self)]
      exact ⟨h.positive s task htask, hold⟩

/-- The node of such a task leaves its list, which goes away when it is empty. -/
theorem CounterInv.retire (h : CounterInv m) (htask : m.task t = some task)
    (htarget : 0 < task.targetValue) (hl : m.lists task.counters = some l)
    (hx : Retires m t task x ripe) :
    CounterInv ({ m.setTask t x with ripe := ripe }.unlinkFrom task.counters l t) := by
  obtain ⟨htasks, htaskCnt, hlistCnt, -, hunlinked, hfault, -⟩ :=
    unlinkFrom_rest m task.counters l t
  have hset : (m.unlinkFrom task.counters l t).setTask t x =
      { m.unlinkFrom task.counters l t with task := (m.setTask t x).task } := by
    unfold CounterMap.setTask
    rw [htasks]
  rw [← unlinkFrom_ripe, ← unlinkFrom_setTask, hset]
  exact
    { keyed := fun _ _ hi => h.unlinkFrom_keyed hl hi
      mapped := fun _ _ hi => h.unlinkFrom_mapped hl hi
      nodes := fun _ _ _ hi => h.retire_nodes htask hl hx hi
      linked := fun _ _ hs hpos => h.retire_linked hl hx hs hpos
      listFresh := fun _ hi => h.unlinkFrom_listFresh hl (Nat.le_trans (Nat.le_of_eq hlistCnt.symm) hi)
      deleted := fun i => by
        rw [hlistCnt]
        exact h.unlinkFrom_mem_deleted hl i
      deletedOnce := h.unlinkFrom_deletedOnce hl
      taskFresh := fun s hs => by
        rw [htaskCnt] at hs
        have hne : s ≠ t := by
          rintro rfl
          cases htask.symm.trans (h.taskFresh s hs)
        exact (setTask_task_of_ne hne).trans (h.taskFresh s hs)
      unlinked := fun s => by
        rw [hunlinked, htaskCnt]
        exact h.retire_unlinked htask hx
      unlinkedOnce := by
        rw [hunlinked]
        refine List.nodup_cons.mpr ⟨fun hmem => ?_, h.unlinkedOnce⟩
        have hzero := ((h.unlinked t).mp hmem).2 task htask
        omega
      ripe := fun _ hs => h.retire_ripe htask htarget hx hs
      ripeOnce := h.retire_ripeOnce htask htarget hx
      value := fun _ _ hs => (h.retire_value htask htarget hx hs).2
      positive := fun _ _ hs => (h.retire_value htask htarget hx hs).1
      fault := hfault.trans h.fault }

end Retire

/-- A task changes and its node stays where it is, in its list or out of it. -/
theorem CounterInv.update {x : Option (CounterTask ν)} {ripe : List Nat} (h : CounterInv m)
    (htask : m.task t = some task)
    (hin : 0 < task.targetValue → ∃ task', x = some task' ∧ 0 < task'.targetValue ∧
      task'.counters = task.counters ∧ task'.name = task.name)
    (hout : task.targetValue = 0 → ∀ task', x = some task' → task'.targetValue = 0)
    (hripe : ∀ s ≠ t, s ∈ ripe ↔ s ∈ m.ripe) (honce : ripe.Nodup)
    (hself : t ∈ ripe → ∃ task', x = some task' ∧ task'.targetValue = 0)
    (hvalue : ∀ task', x = some task' → 0 < task'.value ∧ task'.value =
      (if task'.dispatched then 0 else 1) + if 0 < task'.targetValue ∨ t ∈ ripe then 1 else 0) :
    CounterInv { m.setTask t x with ripe := ripe } := by
  have hpositive : ∀ task', x = some task' → 0 < task'.targetValue → 0 < task.targetValue ∧
      task'.counters = task.counters ∧ task'.name = task.name := by
    intro task' hx hpos
    have htarget : 0 < task.targetValue := by
      by_contra hzero
      have := hout (by omega) task' hx
      omega
    obtain ⟨task'', hx', -, hcounters, hname⟩ := hin htarget
    obtain rfl := Option.some.inj (hx.symm.trans hx')
    exact ⟨htarget, hcounters, hname⟩
  refine { h with
    nodes := fun id l s hl => ?_
    linked := fun s task' hs hpos => ?_
    taskFresh := fun s hs => ?_
    unlinked := fun s => ?_
    ripe := fun s hs => ?_
    ripeOnce := honce
    value := fun s task' hs => ?_
    positive := fun s task' hs => ?_ }
  · show s ∈ l.head ↔ ∃ task', (m.setTask t x).task s = some task' ∧ _
    rw [h.nodes id l s hl]
    constructor
    · rintro ⟨task', hs, hcounters, hpos⟩
      rcases eq_or_ne s t with rfl | hne
      · obtain rfl := Option.some.inj (htask.symm.trans hs)
        obtain ⟨task', rfl, hpos', hcounters', -⟩ := hin hpos
        exact ⟨task', setTask_task_self, hcounters'.trans hcounters, hpos'⟩
      · exact ⟨task', (setTask_task_of_ne hne).trans hs, hcounters, hpos⟩
    · rintro ⟨task', hs, hcounters, hpos⟩
      rcases setTask_cases hs with ⟨-, hs'⟩ | ⟨rfl, hs'⟩
      · exact ⟨task', hs', hcounters, hpos⟩
      · obtain ⟨htarget, hcounters', -⟩ := hpositive task' hs' hpos
        exact ⟨task, htask, hcounters'.symm.trans hcounters, htarget⟩
  · rcases setTask_cases hs with ⟨-, hs'⟩ | ⟨rfl, hs'⟩
    · exact h.linked s task' hs' hpos
    · obtain ⟨htarget, hcounters, hname⟩ := hpositive task' hs' hpos
      rw [hcounters, hname]
      exact h.linked s task htask htarget
  · have hne : s ≠ t := by
      rintro rfl
      cases htask.symm.trans (h.taskFresh s hs)
    exact (setTask_task_of_ne hne).trans (h.taskFresh s hs)
  · show s ∈ m.unlinked ↔ s < m.taskCnt ∧ ∀ task', (m.setTask t x).task s = some task' → _
    rw [h.unlinked s]
    rcases eq_or_ne s t with rfl | hne
    · rw [setTask_task_self]
      refine and_congr_right fun _ => ⟨fun hold => hout (hold task htask), fun hnew => ?_⟩
      intro task' hs
      obtain rfl := Option.some.inj (htask.symm.trans hs)
      by_contra hne
      obtain ⟨task', hx, hpos, -⟩ := hin (Nat.pos_of_ne_zero hne)
      have := hnew task' hx
      omega
    · rw [setTask_task_of_ne hne]
  · rcases eq_or_ne s t with rfl | hne
    · obtain ⟨task', hx, hzero⟩ := hself hs
      exact ⟨task', setTask_task_self.trans hx, hzero⟩
    · obtain ⟨task', hs', hzero⟩ := h.ripe s ((hripe s hne).mp hs)
      exact ⟨task', (setTask_task_of_ne hne).trans hs', hzero⟩
  · rcases setTask_cases hs with ⟨hne, hs'⟩ | ⟨rfl, hs'⟩
    · show task'.value = _ + if 0 < task'.targetValue ∨ s ∈ ripe then 1 else 0
      simp only [h.value s task' hs', hripe s hne]
    · exact (hvalue task' hs').2
  · rcases setTask_cases hs with ⟨-, hs'⟩ | ⟨rfl, hs'⟩
    · exact h.positive s task' hs'
    · exact (hvalue task' hs').1

/-! ### Counting -/

theorem CounterInv.retarget {k : Nat} (h : CounterInv m) (htask : m.task t = some task)
    (htarget : 0 < task.targetValue) (hk : 0 < k) :
    CounterInv (m.setTask t (some { task with targetValue := k })) := by
  have hvalue := h.value t task htask
  rw [if_pos (show 0 < task.targetValue ∨ t ∈ m.ripe from .inl htarget)] at hvalue
  refine h.update htask (fun _ => ⟨_, rfl, hk, rfl, rfl⟩) (fun hzero => by omega)
    (fun _ _ => Iff.rfl) h.ripeOnce (fun hmem => ?_) (fun task' hx => ?_)
  · exact absurd hmem (h.notRipe htask htarget)
  · obtain rfl := Option.some.inj hx
    rw [if_pos (show 0 < k ∨ t ∈ m.ripe from .inl hk)]
    exact ⟨h.positive t task htask, hvalue⟩

theorem CounterInv.count (h : CounterInv m) (htask : m.task t = some task)
    (htarget : 0 < task.targetValue) : CounterInv (m.count t task) := by
  unfold CounterMap.count
  dsimp only
  by_cases hlast : task.targetValue - 1 = 0
  · rw [if_pos hlast, hlast]
    obtain ⟨l, hl, -⟩ := h.linked t task htask htarget
    have hremove := remove_eq (m := m.setTask t (some { task with targetValue := 0 })) (t := t)
      (show _ = some l from hl) h.fault
    unfold CounterMap.remove at hremove
    rw [hremove, unlinkFrom_ripe]
    have hripe : (CounterMap.unlinkFrom (m.setTask t (some { task with targetValue := 0 }))
        task.counters l t).ripe = m.ripe := (unlinkFrom_rest _ _ _ _).2.2.2.1
    rw [hripe]
    exact h.retire htask htarget hl (.inr ⟨rfl, rfl⟩)
  · rw [if_neg hlast]
    exact h.retarget htask htarget (Nat.pos_of_ne_zero hlast)

/-- The loop of `count_n_locked`, over nodes that are in the list. -/
theorem CounterInv.countNodes (h : CounterInv m) (hl : m.lists id = some l) (rest : List Nat)
    (hrest : ∀ s ∈ rest, s ∈ l.head) (honce : rest.Nodup) (n : Nat) :
    CounterInv (m.countNodes id rest n) := by
  induction rest generalizing m l n with
  | nil => exact h
  | cons t rest ih =>
      obtain ⟨hnot, honce⟩ := List.nodup_cons.mp honce
      rw [CounterMap.countNodes]
      split
      · exact h
      · rename_i hn
        obtain ⟨task, htask, rfl, htarget⟩ := (h.nodes id l t hl).mp (hrest t List.mem_cons_self)
        rw [htask]
        dsimp only
        split
        · have hinv := h.retire htask htarget hl (.inr ⟨rfl, rfl⟩)
          have hnodup := (h.mapped _ l hl).2.2
          have hdel := del_eq (m := m.setTask t (some { task with targetValue := 0 })) (t := t)
            (show _ = some l from hl)
          rw [hdel]
          simp only [Function.update_self, Option.any_some, List.isEmpty_iff]
          by_cases hempty : l.head.erase t = []
          · rw [if_pos hempty]
            rw [CounterMap.unlinkFrom, if_pos hempty] at hinv
            simpa [CounterMap.dropEmpty, CounterMap.deleteList, CounterMap.setList,
              CounterMap.setTask, hempty, h.fault] using hinv
          · rw [if_neg hempty]
            rw [CounterMap.unlinkFrom, if_neg hempty] at hinv
            refine ih hinv (Function.update_self _ _ _) (fun s hs => ?_) honce _
            have hne : s ≠ t := by
              rintro rfl
              exact hnot hs
            exact (hnodup.mem_erase_iff).mpr ⟨hne, hrest s (List.mem_cons_of_mem t hs)⟩
        · rename_i hlt
          have hinv := h.retarget (k := task.targetValue - n) htask htarget (by omega)
          exact ih hinv hl (fun s hs => hrest s (List.mem_cons_of_mem t hs)) honce 0

theorem CounterInv.countN (h : CounterInv m) (name : ν) (n : Nat) :
    CounterInv (m.countN name n) := by
  unfold CounterMap.countN
  split
  · rename_i id hlookup
    obtain ⟨l, hl, -⟩ := h.keyed name id hlookup
    rw [hl]
    exact h.countNodes hl l.head (fun _ hs => hs) (h.mapped id l hl).2.2 n
  · exact h

/-! ### The task itself -/

/-- A task that waits for nothing any more is deleted. -/
theorem CounterInv.release {ripe : List Nat} (h : CounterInv m) (htask : m.task t = some task)
    (hzero : task.targetValue = 0) (hripe : ∀ s, s ∈ ripe ↔ s ≠ t ∧ s ∈ m.ripe)
    (honce : ripe.Nodup) : CounterInv { m.setTask t none with ripe := ripe } := by
  refine h.update htask (fun hpos => by omega) (fun _ _ hx => by cases hx) (fun s hne => ?_) honce
    (fun hmem => absurd rfl ((hripe t).mp hmem).1) (fun _ hx => by cases hx)
  rw [hripe, and_iff_right hne]

omit [DecidableEq ν] in
theorem setTask_setTask {x y : Option (CounterTask ν)} :
    (m.setTask t x).setTask t y = m.setTask t y := by
  unfold CounterMap.setTask
  simp

/-- `WFCounterTask::count` on a task: one of the two that it waits for is there. -/
theorem countTask_eq (htask : m.task t = some task) : m.countTask t =
    if task.value - 1 = 0 then m.setTask t none
    else m.setTask t (some { task with value := task.value - 1 }) := by
  unfold CounterMap.countTask
  rw [htask]
  dsimp only
  split
  · rename_i hzero
    unfold CounterMap.deleteTask
    rw [setTask_task_self]
    dsimp only
    rw [if_neg (by simp [hzero]), setTask_setTask]
  · rfl

theorem CounterInv.fire (h : CounterInv m) (hmem : t ∈ m.ripe) :
    CounterInv ({ m with ripe := m.ripe.erase t }.countTask t) := by
  obtain ⟨task, htask, hzero⟩ := h.ripe t hmem
  have hvalue := h.value t task htask
  have hripe : ∀ s, s ∈ m.ripe.erase t ↔ s ≠ t ∧ s ∈ m.ripe := fun s => h.ripeOnce.mem_erase_iff
  have hnot : ¬ (0 < task.targetValue ∨ t ∈ m.ripe.erase t) := by
    rw [hripe]
    simp [hzero]
  rw [if_pos (show 0 < task.targetValue ∨ t ∈ m.ripe from .inr hmem)] at hvalue
  rw [countTask_eq (m := { m with ripe := m.ripe.erase t }) htask]
  split
  · exact h.release htask hzero hripe (h.ripeOnce.erase t)
  · rename_i hne
    refine h.update htask (fun hpos => by omega) (fun _ task' hx => ?_) (fun s hst => ?_)
      (h.ripeOnce.erase t) (fun hself => absurd hself fun hs => ((hripe t).mp hs).1 rfl)
      (fun task' hx => ?_)
    · obtain rfl := Option.some.inj hx
      exact hzero
    · rw [hripe, and_iff_right hst]
    · obtain rfl := Option.some.inj hx
      dsimp only
      rw [if_neg hnot, hvalue]
      rw [hvalue] at hne
      exact ⟨Nat.pos_of_ne_zero hne, rfl⟩

theorem CounterInv.dispatch (h : CounterInv m) (htask : m.task t = some task)
    (hfirst : task.dispatched = false) :
    CounterInv ((m.setTask t (some { task with dispatched := true })).countTask t) := by
  have hvalue := h.value t task htask
  rw [hfirst, if_neg (by decide)] at hvalue
  rw [countTask_eq setTask_task_self, setTask_setTask, setTask_setTask]
  dsimp only
  by_cases hactive : 0 < task.targetValue ∨ t ∈ m.ripe
  · rw [if_pos hactive] at hvalue
    rw [if_neg (by omega), hvalue]
    refine h.update htask (fun hpos => ⟨_, rfl, hpos, rfl, rfl⟩) (fun hzero task' hx => ?_)
      (fun _ _ => Iff.rfl) h.ripeOnce (fun hmem => ?_) (fun task' hx => ?_)
    · obtain rfl := Option.some.inj hx
      exact hzero
    · obtain ⟨task', htask', hzero⟩ := h.ripe t hmem
      obtain rfl := Option.some.inj (htask.symm.trans htask')
      exact ⟨_, rfl, hzero⟩
    · obtain rfl := Option.some.inj hx
      dsimp only
      rw [if_pos hactive]
      exact ⟨by decide, rfl⟩
  · rw [if_neg hactive] at hvalue
    rw [if_pos (by omega)]
    rw [not_or] at hactive
    refine h.release htask (by omega) (fun s => ⟨fun hs => ⟨?_, hs⟩, And.right⟩) h.ripeOnce
    rintro rfl
    exact hactive.2 hs

/-- A task that is still to be counted goes away with its node. -/
theorem CounterInv.dismiss (h : CounterInv m) (htask : m.task t = some task)
    (htarget : 0 < task.targetValue) : CounterInv (m.deleteTask t) := by
  obtain ⟨l, hl, -⟩ := h.linked t task htask htarget
  have hpos := h.positive t task htask
  unfold CounterMap.deleteTask
  rw [htask]
  dsimp only
  rw [if_pos (by omega), remove_eq hl h.fault, unlinkFrom_setTask]
  exact h.retire htask htarget hl (.inl ⟨rfl, rfl⟩)

/-! ### A new task -/

/-- The node of a new task is put behind the others of its name, in the list `id` that is there or in
a new one. -/
structure Joins (m m' : CounterMap ν) (name : ν) (k id : Nat) (front : List Nat) : Prop where
  target : 0 < k
  list : m'.lists id = some ⟨name, front ++ [m.taskCnt]⟩
  lists : ∀ i ≠ id, m'.lists i = m.lists i
  task : m'.task m.taskCnt = some ⟨name, k, 2, id, false⟩
  tasks : ∀ s ≠ m.taskCnt, m'.task s = m.task s
  nodes : ∀ s, s ∈ front ↔ ∃ task, m.task s = some task ∧ task.counters = id ∧ 0 < task.targetValue
  once : front.Nodup
  other : ∀ i ≠ id, ∀ l, m.lists i = some l → l.name ≠ name
  named : ∀ l, m.lists id = some l → l.name = name
  lookup : ∀ n, m'.countersMap.lookup n = if n = name then some id else m.countersMap.lookup n
  listCnt : ∀ i, i < m'.listCnt ↔ i < m.listCnt ∨ i = id
  notDeleted : id ∉ m.deleted
  taskCnt : m'.taskCnt = m.taskCnt + 1
  rest : m'.deleted = m.deleted ∧ m'.unlinked = m.unlinked ∧ m'.ripe = m.ripe ∧ m'.fault = m.fault

section Joins

variable {name : ν} {k s i : Nat} {front : List Nat} {task' : CounterTask ν}

/-- A task that was there is not the new one. -/
theorem CounterInv.ne_taskCnt (h : CounterInv m) (hs : m.task s = some task') : s ≠ m.taskCnt := by
  rintro rfl
  cases (h.taskFresh _ (Nat.le_refl _)).symm.trans hs

/-- A task is the new one, or was there. -/
theorem Joins.cases (hj : Joins m m' name k id front) (hs : m'.task s = some task') :
    s ≠ m.taskCnt ∧ m.task s = some task' ∨
      s = m.taskCnt ∧ task' = ⟨name, k, 2, id, false⟩ := by
  rcases eq_or_ne s m.taskCnt with rfl | hne
  · exact .inr ⟨rfl, (Option.some.inj (hj.task.symm.trans hs)).symm⟩
  · exact .inl ⟨hne, (hj.tasks s hne).symm.trans hs⟩

/-- A name leads to a list of that name. -/
theorem CounterInv.joins_keyed (h : CounterInv m) (hj : Joins m m' name k id front) {n : ν}
    (hi : m'.countersMap.lookup n = some i) : ∃ l, m'.lists i = some l ∧ l.name = n := by
  have hi' := (hj.lookup n).symm.trans hi
  by_cases hn : n = name
  · rw [if_pos hn] at hi'
    obtain rfl := Option.some.inj hi'
    exact ⟨_, hj.list, hn.symm⟩
  · rw [if_neg hn] at hi'
    obtain ⟨l, hl, hln⟩ := h.keyed n i hi'
    have hne : i ≠ id := by
      rintro rfl
      exact hn (hln.symm.trans (hj.named l hl))
    exact ⟨l, (hj.lists _ hne).trans hl, hln⟩

/-- A list is found under its name and holds a node. -/
theorem CounterInv.joins_mapped (h : CounterInv m) (hj : Joins m m' name k id front)
    (hi : m'.lists i = some l) :
    m'.countersMap.lookup l.name = some i ∧ l.head ≠ [] ∧ l.head.Nodup := by
  rcases eq_or_ne i id with rfl | hne
  · obtain rfl := Option.some.inj (hj.list.symm.trans hi)
    refine ⟨(hj.lookup name).trans (if_pos rfl), by simp, ?_⟩
    refine List.Nodup.append hj.once (List.nodup_singleton _) fun s hs hs' => ?_
    obtain ⟨task', htask', -⟩ := (hj.nodes s).mp hs
    exact h.ne_taskCnt htask' (List.mem_singleton.mp hs')
  · have hl := (hj.lists i hne).symm.trans hi
    obtain ⟨hkey, hhead, hnodup⟩ := h.mapped i l hl
    exact ⟨(hj.lookup l.name).trans ((if_neg (hj.other i hne l hl)).trans hkey), hhead, hnodup⟩

/-- Each list holds exactly the tasks that are still to be counted for it. -/
theorem CounterInv.joins_nodes (h : CounterInv m) (hj : Joins m m' name k id front)
    (hi : m'.lists i = some l) :
    s ∈ l.head ↔ ∃ task, m'.task s = some task ∧ task.counters = i ∧ 0 < task.targetValue := by
  rcases eq_or_ne i id with rfl | hne
  · obtain rfl := Option.some.inj (hj.list.symm.trans hi)
    rw [List.mem_append, List.mem_singleton, hj.nodes s]
    rcases eq_or_ne s m.taskCnt with rfl | hs
    · exact ⟨fun _ => ⟨_, hj.task, rfl, hj.target⟩, fun _ => .inr rfl⟩
    · rw [or_iff_left hs, ← hj.tasks s hs]
  · rw [h.nodes i l s ((hj.lists i hne).symm.trans hi)]
    rcases eq_or_ne s m.taskCnt with rfl | hs
    · constructor
      · rintro ⟨task', hs, -⟩
        exact absurd rfl (h.ne_taskCnt hs)
      · rintro ⟨task', hs, hcounters, -⟩
        obtain rfl := Option.some.inj (hj.task.symm.trans hs)
        exact absurd hcounters.symm hne
    · rw [← hj.tasks s hs]

/-- A task that is still to be counted has the list of its name. -/
theorem CounterInv.joins_linked (h : CounterInv m) (hj : Joins m m' name k id front)
    (hs : m'.task s = some task') (hpos : 0 < task'.targetValue) :
    ∃ l, m'.lists task'.counters = some l ∧ l.name = task'.name := by
  rcases hj.cases hs with ⟨-, hs'⟩ | ⟨-, rfl⟩
  · obtain ⟨l, hl, hln⟩ := h.linked s task' hs' hpos
    rcases eq_or_ne task'.counters id with heq | hne
    · rw [heq] at hl ⊢
      exact ⟨_, hj.list, (hj.named l hl).symm.trans hln⟩
    · exact ⟨l, (hj.lists _ hne).trans hl, hln⟩
  · exact ⟨_, hj.list, rfl⟩

/-- The nodes out of their lists are those of the tasks that are not to be counted any more. -/
theorem CounterInv.joins_unlinked (h : CounterInv m) (hj : Joins m m' name k id front) :
    s ∈ m.unlinked ↔
      s < m.taskCnt + 1 ∧ ∀ task', m'.task s = some task' → task'.targetValue = 0 := by
  rw [h.unlinked s]
  rcases eq_or_ne s m.taskCnt with rfl | hne
  · refine ⟨fun hlt => absurd hlt.1 (Nat.lt_irrefl _), fun hzero => ?_⟩
    exact absurd (hzero.2 _ hj.task) (Nat.ne_of_gt hj.target)
  · rw [hj.tasks s hne]
    refine and_congr_left fun _ => ?_
    omega

/-- The counter of a new task stands for the counting and for its dispatch. -/
theorem CounterInv.joins_value (h : CounterInv m) (hj : Joins m m' name k id front)
    (hs : m'.task s = some task') :
    0 < task'.value ∧ task'.value = (if task'.dispatched then 0 else 1) +
      if 0 < task'.targetValue ∨ s ∈ m.ripe then 1 else 0 := by
  rcases hj.cases hs with ⟨-, hs'⟩ | ⟨rfl, rfl⟩
  · exact ⟨h.positive s task' hs', h.value s task' hs'⟩
  · rw [if_pos (show 0 < k ∨ m.taskCnt ∈ m.ripe from .inl hj.target)]
    exact ⟨Nat.two_pos, rfl⟩

theorem CounterInv.link (h : CounterInv m) (hj : Joins m m' name k id front) : CounterInv m' := by
  obtain ⟨hdeleted, hunlinked, hripe, hfault⟩ := hj.rest
  exact
    { keyed := fun _ _ hi => h.joins_keyed hj hi
      mapped := fun _ _ hi => h.joins_mapped hj hi
      nodes := fun _ _ _ hi => h.joins_nodes hj hi
      linked := fun _ _ hs hpos => h.joins_linked hj hs hpos
      listFresh := fun i hi => by
        have hi' : ¬ i < m'.listCnt := Nat.not_lt.mpr hi
        rw [hj.listCnt, not_or] at hi'
        exact (hj.lists i hi'.2).trans (h.listFresh i (Nat.not_lt.mp hi'.1))
      deleted := fun i => by
        rw [hdeleted, hj.listCnt]
        rcases eq_or_ne i id with rfl | hne
        · simp [hj.notDeleted, hj.list]
        · rw [or_iff_left hne, hj.lists i hne]
          exact h.deleted i
      deletedOnce := hdeleted ▸ h.deletedOnce
      taskFresh := fun s hs => by
        rw [hj.taskCnt] at hs
        exact (hj.tasks s (by omega)).trans (h.taskFresh s (Nat.le_of_succ_le hs))
      unlinked := fun s => by
        rw [hunlinked, hj.taskCnt]
        exact h.joins_unlinked hj
      unlinkedOnce := hunlinked ▸ h.unlinkedOnce
      ripe := fun s hs => by
        obtain ⟨task', hs', hzero⟩ := h.ripe s (hripe ▸ hs)
        exact ⟨task', (hj.tasks s (h.ne_taskCnt hs')).trans hs', hzero⟩
      ripeOnce := hripe ▸ h.ripeOnce
      value := fun _ _ hs => hripe ▸ (h.joins_value hj hs).2
      positive := fun _ _ hs => (h.joins_value hj hs).1
      fault := hfault.trans h.fault }

end Joins

/-- `create_counter_task` with a name, for a target above 0. -/
theorem CounterInv.create (h : CounterInv m) (name : ν) (k : Nat) :
    CounterInv (m.create name k) := by
  unfold CounterMap.create
  split
  · exact h
  · rename_i hk
    dsimp only
    split
    · -- the list of the name is there
      rename_i id hlookup
      obtain ⟨l, hl, rfl⟩ := h.keyed name id hlookup
      simp only [CounterMap.setTask, hl]
      suffices hj : Joins m _ l.name k id l.head from h.link hj
      exact
        { target := Nat.pos_of_ne_zero hk
          list := Function.update_self _ _ _
          lists := fun i hne => Function.update_of_ne hne _ _
          task := Function.update_self _ _ _
          tasks := fun s hne => Function.update_of_ne hne _ _
          nodes := fun s => h.nodes id l s hl
          once := (h.mapped id l hl).2.2
          other := fun i hne l' hl' heq => by
            have hkey := (h.mapped i l' hl').1
            rw [heq, hlookup] at hkey
            exact hne (Option.some.inj hkey).symm
          named := fun l' hl' => by rw [Option.some.inj (hl.symm.trans hl')]
          lookup := fun n => by
            show m.countersMap.lookup n = _
            split
            · rename_i hn
              rw [hn, hlookup]
            · rfl
          listCnt := fun i => by
            have hlt : id < m.listCnt := by
              by_contra hge
              cases hl.symm.trans (h.listFresh id (Nat.not_lt.mp hge))
            refine ⟨.inl, ?_⟩
            rintro (hi | rfl)
            · exact hi
            · exact hlt
          notDeleted := h.not_deleted hl
          taskCnt := rfl
          rest := ⟨rfl, rfl, rfl, rfl⟩ }
    · -- a new list
      rename_i hlookup
      have hnone : m.lists m.listCnt = none := h.listFresh _ (Nat.le_refl _)
      suffices hj : Joins m _ name k m.listCnt [] from h.link hj
      exact
        { target := Nat.pos_of_ne_zero hk
          list := Function.update_self _ _ _
          lists := fun i hne => Function.update_of_ne hne _ _
          task := Function.update_self _ _ _
          tasks := fun s hne => Function.update_of_ne hne _ _
          nodes := fun s => by
            refine ⟨fun hmem => absurd hmem List.not_mem_nil, ?_⟩
            rintro ⟨task', hs, hcounters, hpos⟩
            obtain ⟨l, hl, -⟩ := h.linked s task' hs hpos
            rw [hcounters, hnone] at hl
            cases hl
          once := List.nodup_nil
          other := fun i hne l' hl' heq => by
            have hkey := (h.mapped i l' hl').1
            rw [heq, hlookup] at hkey
            cases hkey
          named := fun l' hl' => by cases hnone.symm.trans hl'
          lookup := fun n => by
            split
            · rename_i hn
              rw [hn]
              exact AList.lookup_insert _
            · rename_i hn
              exact AList.lookup_insert_ne hn
          listCnt := fun i => by
            show i < m.listCnt + 1 ↔ _
            omega
          notDeleted := fun hmem => absurd ((h.deleted _).mp hmem).1 (Nat.lt_irrefl _)
          taskCnt := rfl
          rest := ⟨rfl, rfl, rfl, rfl⟩ }

/-! ### Every run -/

/-- The steps after which all is as it should be: a task is dismissed only while it is still to be
counted, and the map is destroyed only when no list is in it. -/
def CounterMap.Gentle (m : CounterMap ν) : CounterOp ν → Prop
  | .dismiss t => ∀ task, m.task t = some task → 0 < task.targetValue
  | .destroyMap => m.countersMap.entries = []
  | .create _ _ | .countByName _ _ | .count _ | .fire _ | .dispatch _ => True

theorem CounterInv.exec {fuel : Nat} {op : CounterOp ν} (h : CounterInv m) (hok : m.Gentle op)
    (hstep : m.exec fuel op = some m') : CounterInv m' := by
  unfold CounterMap.exec at hstep
  split at hstep
  · cases hstep
  · cases op with
    | create name k => exact Option.some.inj hstep ▸ h.create name k
    | countByName name n => exact Option.some.inj hstep ▸ h.countN name n
    | count t =>
        dsimp only at hstep
        split at hstep
        · rename_i task htask
          obtain ⟨htarget, hstep⟩ := Option.ite_none_right_eq_some.mp hstep
          exact Option.some.inj hstep ▸ h.count htask htarget
        · cases hstep
    | fire t =>
        obtain ⟨hmem, hstep⟩ := Option.ite_none_right_eq_some.mp hstep
        exact Option.some.inj hstep ▸ h.fire hmem
    | dispatch t =>
        dsimp only at hstep
        split at hstep
        · rename_i task htask
          obtain ⟨hfirst, hstep⟩ := Option.ite_none_left_eq_some.mp hstep
          exact Option.some.inj hstep ▸ h.dispatch htask (Bool.not_eq_true _ ▸ hfirst)
        · cases hstep
    | dismiss t =>
        dsimp only at hstep
        split at hstep
        · rename_i task htask
          obtain ⟨-, hstep⟩ := Option.ite_none_left_eq_some.mp hstep
          exact Option.some.inj hstep ▸ h.dismiss htask (hok task htask)
        · cases hstep
    | destroyMap =>
        obtain rfl := Option.some.inj hstep
        rw [show m.countersMap.entries.length = 0 by rw [show m.countersMap.entries = [] from hok]; rfl]
        exact ⟨h.keyed, h.mapped, h.nodes, h.linked, h.listFresh, h.deleted, h.deletedOnce,
          h.taskFresh, h.unlinked, h.unlinkedOnce, h.ripe, h.ripeOnce, h.value, h.positive, h.fault⟩

/-- The list of a name. -/
def CounterMap.listOf (m : CounterMap ν) (name : ν) : List Nat :=
  match m.countersMap.lookup name with
  | some id => ((m.lists id).map CounterList.head).getD []
  | none => []

/-- The lists hold exactly the tasks that are still to be counted; nodes are unlinked once and then
only; a list is in the map exactly as long as it is not empty, and deleted once; nothing uses what is
deleted. -/
structure CounterOk (m : CounterMap ν) : Prop where
  listed : ∀ name t, t ∈ m.listOf name ↔
    ∃ task, m.task t = some task ∧ task.name = name ∧ 0 < task.targetValue
  unlinked : m.unlinked.Nodup ∧ ∀ t, t ∈ m.unlinked ↔
    t < m.taskCnt ∧ ∀ name, t ∉ m.listOf name
  kept : ∀ name id, m.countersMap.lookup name = some id ↔ ∃ l, m.lists id = some l ∧ l.name = name
  filled : ∀ id l, m.lists id = some l → l.head ≠ []
  deleted : m.deleted.Nodup ∧ ∀ id, id ∈ m.deleted ↔ id < m.listCnt ∧ m.lists id = none
  fault : m.fault = false

theorem CounterInv.ok (h : CounterInv m) : CounterOk m := by
  have hlisted : ∀ name t, t ∈ m.listOf name ↔
      ∃ task, m.task t = some task ∧ task.name = name ∧ 0 < task.targetValue := by
    intro name t
    unfold CounterMap.listOf
    split
    · rename_i id hlookup
      obtain ⟨l, hl, hname⟩ := h.keyed name id hlookup
      rw [hl, Option.map_some, Option.getD_some, h.nodes id l t hl]
      constructor
      · rintro ⟨task, htask, rfl, hpos⟩
        obtain ⟨l', hl', hname'⟩ := h.linked t task htask hpos
        obtain rfl := Option.some.inj (hl.symm.trans hl')
        exact ⟨task, htask, hname'.symm.trans hname, hpos⟩
      · rintro ⟨task, htask, hname', hpos⟩
        obtain ⟨l', hl', hname''⟩ := h.linked t task htask hpos
        have hkey := (h.mapped _ l' hl').1
        rw [hname'', hname', hlookup] at hkey
        exact ⟨task, htask, (Option.some.inj hkey).symm, hpos⟩
    · rename_i hlookup
      constructor
      · exact fun hmem => absurd hmem List.not_mem_nil
      · rintro ⟨task, htask, rfl, hpos⟩
        obtain ⟨l', hl', hname'⟩ := h.linked t task htask hpos
        have hkey := (h.mapped _ l' hl').1
        rw [hname', hlookup] at hkey
        cases hkey
  refine ⟨hlisted, ⟨h.unlinkedOnce, fun t => ?_⟩, fun name id => ⟨h.keyed name id, ?_⟩,
    fun id l hl => (h.mapped id l hl).2.1, ⟨h.deletedOnce, h.deleted⟩, h.fault⟩
  · rw [h.unlinked t]
    refine and_congr_right fun _ => ⟨fun hzero name hmem => ?_, fun hnot task htask => ?_⟩
    · obtain ⟨task, htask, -, hpos⟩ := (hlisted name t).mp hmem
      have := hzero task htask
      omega
    · by_contra hne
      exact hnot task.name ((hlisted task.name t).mpr ⟨task, htask, rfl, Nat.pos_of_ne_zero hne⟩)
  · rintro ⟨l, hl, rfl⟩
    exact (h.mapped id l hl).1

/-- In every run whose steps are gentle, every state is as it should be. -/
theorem counterMap_lifecycle {ν : Type} [DecidableEq ν] (m : CounterMap ν)
    (h : Reachable (CounterMap.machine ν) CounterMap.Gentle m) : CounterOk m := by
  refine CounterInv.ok (h.invariant ?_ ?_)
  · rintro _ rfl
    exact counterInv_empty
  · rintro s op t hinv hok ⟨fuel, hstep⟩
    exact hinv.exec hok hstep

instance (m : CounterMap ν) (op : CounterOp ν) : Decidable (m.Gentle op) :=
  match op with
  | .dismiss t => inferInstanceAs (Decidable (∀ task ∈ m.task t, 0 < task.targetValue))
  | .destroyMap => inferInstanceAs (Decidable (m.countersMap.entries = []))
  | .create _ _ | .countByName _ _ | .count _ | .fire _ | .dispatch _ =>
      inferInstanceAs (Decidable True)

/-- Two counters of one name: the first is counted to the end by name and dispatched afterwards, the
second is dismissed. -/
def gentleRun : List (CounterOp Nat) :=
  [.create 5 2, .create 5 3, .count 0, .countByName 5 2, .fire 0, .dispatch 0, .dismiss 1,
    .destroyMap]

theorem counterMap_lifecycle_gentle :
    ∃ m : CounterMap Nat, Reachable (CounterMap.machine Nat) CounterMap.Gentle m ∧
      m.unlinked = [1, 0] ∧ m.deleted = [0] ∧ CounterOk m := by
  obtain ⟨m, hm, hunlinked, hdeleted⟩ : ∃ m, runChecked CounterMap.exec CounterMap.Gentle 0
      (CounterMap.empty Nat) gentleRun = some m ∧ m.unlinked = [1, 0] ∧ m.deleted = [0] :=
    ⟨_, rfl, rfl, rfl⟩
  have hreach := runChecked_reachable (.init rfl) hm
  exact ⟨m, hreach, hunlinked, hdeleted, counterMap_lifecycle m hreach⟩

/-- A counter that is counted to the end and then dismissed: its node is unlinked again, from a list
that is deleted. And a counter that is still there when the map is destroyed: its node is unlinked
twice and its list deleted twice. -/
theorem counterMap_dismissed :
    (∃ m : CounterMap Nat, Reachable (CounterMap.machine Nat) (fun _ _ => True) m ∧
      m.unlinked = [0, 0] ∧ m.fault = true ∧ ¬ CounterOk m) ∧
    ∃ m : CounterMap Nat, Reachable (CounterMap.machine Nat) (fun _ _ => True) m ∧
      m.unlinked = [0, 0] ∧ m.deleted = [0, 0] ∧ ¬ CounterOk m := by
  constructor
  · obtain ⟨m, hm, hunlinked, hfault⟩ : ∃ m, runChecked CounterMap.exec (fun _ _ => True) 0
        (CounterMap.empty Nat) [.create 5 1, .countByName 5 1, .fire 0, .dismiss 0] = some m ∧
          m.unlinked = [0, 0] ∧ m.fault = true := ⟨_, rfl, rfl, rfl⟩
    refine ⟨m, runChecked_reachable (.init rfl) hm, hunlinked, hfault, fun hok => ?_⟩
    cases hfault.symm.trans hok.fault
  · obtain ⟨m, hm, hunlinked, hdeleted⟩ : ∃ m, runChecked CounterMap.exec (fun _ _ => True) 0
        (CounterMap.empty Nat) [.create 5 1, .destroyMap] = some m ∧
          m.unlinked = [0, 0] ∧ m.deleted = [0, 0] := ⟨_, rfl, rfl, rfl⟩
    refine ⟨m, runChecked_reachable (.init rfl) hm, hunlinked, hdeleted, fun hok => ?_⟩
    have honce := hok.deleted.1
    rw [hdeleted] at honce
    exact absurd honce (by decide)

end Workflow.Factory

/-
Module: Workflow.Proofs.CounterQueue
Layer: Proofs
Purpose: Named counters as queues of numbers. `CounterLedger` says what they are for: for each name a
  queue of the live counters with what is left of their targets, and for each counter whether it is
  counted, dispatched and done. The lists and tasks of `CounterMap` follow it step by step, as long as
  nothing is dismissed.
Trusted boundary: none
Main exports: CounterMap.queue, CounterLedger, CounterLedger.step, Follows, Follows.exec, CounterLedger.Ok,
  namedCounting_fifo
-/
import Workflow.Lib.NumberQueue
import Workflow.Proofs.CounterMap

namespace Workflow.Factory

open Workflow.Lib

variable {ν : Type} [DecidableEq ν] {m m' : CounterMap ν} {id t : Nat} {l : CounterList ν}
  {task : CounterTask ν} {name : ν}

/-! ### The queue of a name -/

omit [DecidableEq ν] in
/-- What is left of the target of a task. -/
def CounterMap.targetOf (m : CounterMap ν) (t : Nat) : Nat :=
  ((m.task t).map CounterTask.targetValue).getD 0

/-- The live counters of a name, with what is left of their targets. -/
def CounterMap.queue (m : CounterMap ν) (name : ν) : List (Nat × Nat) :=
  (m.listOf name).map fun t => (t, m.targetOf t)

omit [DecidableEq ν] in
/-- What a task that is there is waiting for. -/
theorem targetOf_eq (htask : m.task t = some task) : m.targetOf t = task.targetValue := by
  rw [CounterMap.targetOf, htask]
  rfl

omit [DecidableEq ν] in
theorem setList_lists_self (m : CounterMap ν) (id : Nat) (x : Option (CounterList ν)) :
    (m.setList id x).lists id = x :=
  Function.update_self _ _ _

/-- The list that a name leads to. -/
theorem listOf_some (h : m.countersMap.lookup name = some id) :
    m.listOf name = ((m.lists id).map CounterList.head).getD [] := by
  rw [CounterMap.listOf, h]

/-- A name without a list. -/
theorem listOf_none (h : m.countersMap.lookup name = none) : m.listOf name = [] := by
  rw [CounterMap.listOf, h]

/-- The list of a name depends on that list only. -/
theorem listOf_congr {m' : CounterMap ν}
    (hlookup : m'.countersMap.lookup name = m.countersMap.lookup name)
    (hlists : ∀ i, m.countersMap.lookup name = some i → m'.lists i = m.lists i) :
    m'.listOf name = m.listOf name := by
  cases hi : m.countersMap.lookup name with
  | none => rw [listOf_none (hlookup.trans hi), listOf_none hi]
  | some i => rw [listOf_some (hlookup.trans hi), listOf_some hi, hlists i hi]

/-- A list is the list of its name. -/
theorem CounterInv.listOf_eq (h : CounterInv m) (hl : m.lists id = some l) :
    m.listOf l.name = l.head := by
  rw [listOf_some (h.mapped id l hl).1, hl]
  rfl

/-- A task is in no list but that of its name. -/
theorem CounterInv.notMem_listOf (h : CounterInv m) (htask : m.task t = some task)
    (hname : name ≠ task.name) : t ∉ m.listOf name := by
  intro hmem
  obtain ⟨task', htask', hname', -⟩ := (h.ok.listed name t).mp hmem
  obtain rfl := Option.some.inj (htask.symm.trans htask')
  exact hname hname'.symm

/-- A task is in no queue but that of its name. -/
theorem CounterInv.ne_of_mem_queue (h : CounterInv m) (htask : m.task t = some task)
    (hname : name ≠ task.name) {p : Nat × Nat} (hp : p ∈ m.queue name) : p.1 ≠ t := by
  obtain ⟨s, hs, rfl⟩ := List.mem_map.mp hp
  rintro rfl
  exact h.notMem_listOf htask hname hs

/-- A task leaves its list: it leaves the queue of its name, and no other queue has it. -/
theorem queue_retire {x : Option (CounterTask ν)} {ripe : List Nat} (h : CounterInv m)
    (htask : m.task t = some task) (hl : m.lists task.counters = some l)
    (hlname : l.name = task.name) (name : ν) :
    CounterMap.queue ({ m.setTask t x with ripe := ripe }.unlinkFrom task.counters l t) name =
      (m.queue name).filter fun p => p.1 != t := by
  have hlist : ∀ name, CounterMap.listOf
      ({ m.setTask t x with ripe := ripe }.unlinkFrom task.counters l t) name =
        (m.listOf name).filter fun s => s != t := by
    intro name
    obtain ⟨hlookup, -, hnodup⟩ := h.mapped _ l hl
    by_cases hname : name = l.name
    · rw [hname, h.listOf_eq hl, ← hnodup.erase_eq_filter t]
      by_cases hempty : l.head.erase t = []
      · rw [listOf_none (unlinkFrom_lookup_none _ _ hempty), hempty]
      · have hmap := congrArg (AList.lookup l.name) (unlinkFrom_lookup_self
          { m.setTask t x with ripe := ripe } task.counters l t hempty)
        rw [listOf_some (hmap.trans hlookup), unlinkFrom_lists_self, if_neg hempty]
        rfl
    · have hother : ∀ i, m.countersMap.lookup name = some i → i ≠ task.counters := by
        rintro i hi rfl
        obtain ⟨l', hl', hname'⟩ := h.keyed name _ hi
        rw [hl] at hl'
        exact hname (hname'.symm.trans (congrArg _ (Option.some.inj hl').symm))
      have hnot : t ∉ m.listOf name := h.notMem_listOf htask (hlname ▸ hname)
      have hself : (m.listOf name).filter (fun s => s != t) = m.listOf name := by
        refine List.filter_eq_self.mpr fun s hs => bne_iff_ne.mpr ?_
        rintro rfl
        exact hnot hs
      rw [hself]
      exact listOf_congr (unlinkFrom_lookup_of_ne _ _ _ hname) fun i hi =>
        unlinkFrom_lists_of_ne _ _ _ (hother i hi)
  have htasks := (unlinkFrom_rest { m.setTask t x with ripe := ripe } task.counters l t).1
  rw [CounterMap.queue, CounterMap.queue, hlist, List.filter_map]
  refine List.map_congr_left fun s hs => ?_
  have hne : s ≠ t := by simpa using (List.mem_filter.mp hs).2
  rw [CounterMap.targetOf, CounterMap.targetOf, htasks]
  show (s, (((m.setTask t x).task s).map _).getD 0) = _
  rw [setTask_task_of_ne hne]

/-- The target of a task changes: its number changes in the queue. -/
theorem queue_setTask {task' : CounterTask ν} (name : ν) :
    CounterMap.queue (m.setTask t (some task')) name =
      (m.queue name).map fun p => if p.1 = t then (t, task'.targetValue) else p := by
  rw [CounterMap.queue, CounterMap.queue, List.map_map]
  refine List.map_congr_left fun s _ => ?_
  dsimp only [Function.comp_apply]
  split
  · rename_i hs
    rw [hs, targetOf_eq setTask_task_self]
  · rename_i hs
    rw [CounterMap.targetOf, setTask_task_of_ne hs]
    rfl

/-! ### What a section makes of the tasks -/

/-- Targets are lowered, and the tasks of `finished` are counted to the end. -/
structure Tallied (m m' : CounterMap ν) (finished : List Nat) : Prop where
  ripe : m'.ripe = finished.reverse ++ m.ripe
  taskCnt : m'.taskCnt = m.taskCnt
  gone : ∀ t, m.task t = none → m'.task t = none
  kept : ∀ t task, m.task t = some task → ∃ k, m'.task t = some { task with targetValue := k } ∧
    (k = 0 ∧ t ∉ m'.ripe ↔ task.targetValue = 0 ∧ t ∉ m.ripe)

omit [DecidableEq ν] in
theorem Tallied.refl (m : CounterMap ν) : Tallied m m [] :=
  ⟨rfl, rfl, fun _ hnone => hnone, fun _ _ htask => ⟨_, htask, Iff.rfl⟩⟩

omit [DecidableEq ν] in
/-- What is finished by two steps is finished in their order. -/
theorem Tallied.trans {m'' : CounterMap ν} {first second : List Nat} (h : Tallied m m' first)
    (h' : Tallied m' m'' second) : Tallied m m'' (first ++ second) := by
  refine ⟨?_, h'.taskCnt.trans h.taskCnt, fun t hnone => h'.gone t (h.gone t hnone), ?_⟩
  · rw [h'.ripe, h.ripe, List.reverse_append, List.append_assoc]
  · intro t task htask
    obtain ⟨k, htask', hk⟩ := h.kept t task htask
    obtain ⟨k', htask'', hk'⟩ := h'.kept t _ htask'
    exact ⟨k', htask'', hk'.trans hk⟩

/-- The task with the number `t` is counted to the end. -/
def CounterMap.finish (m : CounterMap ν) (t : Nat) (task : CounterTask ν) (l : CounterList ν) :
    CounterMap ν :=
  { m.setTask t (some { task with targetValue := 0 }) with ripe := t :: m.ripe }.unlinkFrom
    task.counters l t

/-- A task is counted to the end. -/
theorem tallied_finish (htask : m.task t = some task) (htarget : 0 < task.targetValue) :
    Tallied m (m.finish t task l) [t] := by
  obtain ⟨htasks, htaskCnt, -, hripe, -⟩ := unlinkFrom_rest
    { m.setTask t (some { task with targetValue := 0 }) with ripe := t :: m.ripe } task.counters l t
  refine ⟨hripe, htaskCnt, fun s hnone => ?_, fun s task' hs => ?_⟩
  · have hne : s ≠ t := by
      rintro rfl
      cases htask.symm.trans hnone
    rw [CounterMap.finish, htasks]
    exact (setTask_task_of_ne hne).trans hnone
  · rw [CounterMap.finish, htasks, hripe]
    rcases eq_or_ne s t with rfl | hne
    · obtain rfl := Option.some.inj (htask.symm.trans hs)
      refine ⟨0, setTask_task_self, ?_⟩
      constructor
      · exact fun hout => absurd List.mem_cons_self hout.2
      · intro hzero
        omega
    · refine ⟨task'.targetValue, (setTask_task_of_ne hne).trans hs, and_congr_right fun _ => ?_⟩
      show s ∉ t :: m.ripe ↔ s ∉ m.ripe
      rw [List.mem_cons, or_iff_right hne]

omit [DecidableEq ν] in
/-- A task is counted, but not to the end. -/
theorem tallied_setTask {k : Nat} (htask : m.task t = some task) (htarget : 0 < task.targetValue)
    (hk : 0 < k) : Tallied m (m.setTask t (some { task with targetValue := k })) [] := by
  refine ⟨rfl, rfl, fun s hnone => ?_, fun s task' hs => ?_⟩
  · have hne : s ≠ t := by
      rintro rfl
      cases htask.symm.trans hnone
    exact (setTask_task_of_ne hne).trans hnone
  · rcases eq_or_ne s t with rfl | hne
    · obtain rfl := Option.some.inj (htask.symm.trans hs)
      refine ⟨k, setTask_task_self, ?_⟩
      constructor <;> intro hzero <;> omega
    · exact ⟨task'.targetValue, (setTask_task_of_ne hne).trans hs, Iff.rfl⟩

/-! ### Counting by name -/

/-- The loop of `count_n_locked` at a node that is counted to the end. -/
theorem countNodes_finish {n : Nat} {rest : List Nat} (hl : m.lists task.counters = some l)
    (hfault : m.fault = false) (htask : m.task t = some task) (hhead : l.head = t :: rest)
    (hn : n ≠ 0) (hle : task.targetValue ≤ n) :
    m.countNodes task.counters (t :: rest) n =
      (m.finish t task l).countNodes task.counters rest (n - task.targetValue) := by
  have herase : l.head.erase t = rest := by rw [hhead, List.erase_cons_head]
  have hdel := del_eq (m := m.setTask t (some { task with targetValue := 0 })) (t := t)
    (show _ = some l from hl)
  rw [CounterMap.countNodes, if_neg hn, htask]
  dsimp only
  rw [if_pos hle, hdel]
  simp only [Function.update_self, Option.any_some, List.isEmpty_iff, herase]
  by_cases hempty : rest = []
  · rw [if_pos hempty, hempty, CounterMap.finish, CounterMap.unlinkFrom, herase, if_pos hempty]
    simp [CounterMap.countNodes, CounterMap.dropEmpty, CounterMap.deleteList, CounterMap.setList,
      CounterMap.setTask, hfault]
  · rw [if_neg hempty, CounterMap.finish, CounterMap.unlinkFrom, herase, if_neg hempty]
    rfl

/-- `count_n_locked` takes the amount from the queue of the name. -/
theorem countNodes_queue {nodes : List Nat} {n : Nat} (h : CounterInv m) (hl : m.lists id = some l)
    (hnodes : l.head = nodes) :
    Tallied m (m.countNodes id nodes n) (drained n (m.queue l.name)) ∧
      (m.countNodes id nodes n).queue l.name = drain n (m.queue l.name) ∧
      ∀ name ≠ l.name, (m.countNodes id nodes n).queue name = m.queue name := by
  induction nodes generalizing m l n with
  | nil => exact absurd hnodes (h.mapped id l hl).2.1
  | cons t rest ih =>
      by_cases hn : n = 0
      · have hsame : m.countNodes id (t :: rest) n = m := by
          rw [CounterMap.countNodes, if_pos hn]
        rw [hsame, hn, drained_zero, drain_zero]
        exact ⟨Tallied.refl m, rfl, fun _ _ => rfl⟩
      · obtain ⟨task, htask, rfl, htarget⟩ :=
          (h.nodes id l t hl).mp (hnodes ▸ List.mem_cons_self)
        have hqueue : m.queue l.name =
            (t, task.targetValue) :: rest.map fun t => (t, m.targetOf t) := by
          rw [CounterMap.queue, h.listOf_eq hl, hnodes, List.map_cons, targetOf_eq htask]
        have hlname : l.name = task.name := by
          obtain ⟨l', hl', hname⟩ := h.linked t task htask htarget
          rwa [Option.some.inj (hl.symm.trans hl')]
        have hnot : ∀ p ∈ rest.map fun t => (t, m.targetOf t), p.1 ≠ t := by
          intro p hp
          obtain ⟨s, hs, rfl⟩ := List.mem_map.mp hp
          rintro rfl
          exact (List.nodup_cons.mp (hnodes ▸ (h.mapped _ l hl).2.2)).1 hs
        by_cases hle : task.targetValue ≤ n
        · -- the first node goes, and the loop goes on with the others
          obtain ⟨hdrain, hdrained⟩ := drain_cons_of_le (i := t)
            (q := rest.map fun t => (t, m.targetOf t)) hn hle
          have hinv : CounterInv (m.finish t task l) := h.retire htask htarget hl (.inr ⟨rfl, rfl⟩)
          have hretire : ∀ name, (m.finish t task l).queue name =
              (m.queue name).filter fun p => p.1 != t := queue_retire h htask hl hlname
          have hrest : (m.finish t task l).queue l.name = rest.map fun t => (t, m.targetOf t) := by
            rw [hretire, hqueue, List.filter_cons_of_neg (by simp)]
            exact List.filter_eq_self.mpr fun p hp => bne_iff_ne.mpr (hnot p hp)
          have hother : ∀ name ≠ l.name, (m.finish t task l).queue name = m.queue name := by
            intro name hname
            rw [hretire]
            exact List.filter_eq_self.mpr fun p hp =>
              bne_iff_ne.mpr (h.ne_of_mem_queue htask (hlname ▸ hname) hp)
          have htally := tallied_finish (l := l) htask htarget
          rw [countNodes_finish hl h.fault htask hnodes hn hle, hqueue, hdrain, hdrained]
          by_cases hempty : rest = []
          · subst hempty
            exact ⟨htally, hrest, hother⟩
          · have hlist : (m.finish t task l).lists task.counters = some ⟨l.name, rest⟩ := by
              rw [CounterMap.finish, unlinkFrom_lists_self, hnodes, List.erase_cons_head, if_neg hempty]
            obtain ⟨htally', hself, hothers⟩ := ih (n := n - task.targetValue) hinv hlist rfl
            rw [hrest] at htally' hself
            exact ⟨htally.trans htally', hself, fun name hname =>
              (hothers name hname).trans (hother name hname)⟩
        · -- the first node is the last one that is touched
          obtain ⟨hdrain, hdrained⟩ := drain_cons_of_lt (i := t)
            (q := rest.map fun t => (t, m.targetOf t)) hn (Nat.not_le.mp hle)
          have hstop : m.countNodes task.counters (t :: rest) n =
              m.setTask t (some { task with targetValue := task.targetValue - n }) := by
            rw [CounterMap.countNodes, if_neg hn, htask]
            dsimp only
            rw [if_neg hle]
            cases rest <;> simp [CounterMap.countNodes]
          rw [hstop, hqueue, hdrain, hdrained]
          refine ⟨tallied_setTask htask htarget (by omega), ?_, fun name hname => ?_⟩
          · rw [queue_setTask, hqueue, List.map_cons, if_pos rfl]
            congr 1
            exact (List.map_congr_left fun p hp => if_neg (hnot p hp)).trans (List.map_id _)
          · rw [queue_setTask]
            exact (List.map_congr_left fun p hp =>
              if_neg (h.ne_of_mem_queue htask (hlname ▸ hname) hp)).trans (List.map_id _)

/-- `count_by_name`. -/
theorem countN_queue (h : CounterInv m) (name : ν) (n : Nat) :
    Tallied m (m.countN name n) (drained n (m.queue name)) ∧
      (m.countN name n).queue name = drain n (m.queue name) ∧
      ∀ name' ≠ name, (m.countN name n).queue name' = m.queue name' := by
  unfold CounterMap.countN
  split
  · rename_i id hlookup
    obtain ⟨l, hl, rfl⟩ := h.keyed name id hlookup
    rw [hl]
    exact countNodes_queue h hl rfl
  · rename_i hlookup
    have hnil : m.queue name = [] := by rw [CounterMap.queue, listOf_none hlookup]; rfl
    rw [hnil]
    exact ⟨Tallied.refl m, rfl, fun _ _ => rfl⟩

/-! ### One count -/

/-- A task that is still to be counted is in the queue of its name. -/
theorem CounterInv.mem_queue (h : CounterInv m) (htask : m.task t = some task)
    (htarget : 0 < task.targetValue) : (t, task.targetValue) ∈ m.queue task.name := by
  refine List.mem_map.mpr ⟨t, (h.ok.listed task.name t).mpr ⟨task, htask, rfl, htarget⟩, ?_⟩
  rw [targetOf_eq htask]

omit [DecidableEq ν] in
/-- The queue holds what each task is waiting for. -/
theorem targetOf_of_mem_queue [DecidableEq ν] {p : Nat × Nat} (hp : p ∈ m.queue name) :
    p.2 = m.targetOf p.1 := by
  obtain ⟨s, -, rfl⟩ := List.mem_map.mp hp
  rfl

/-- `count` on a task takes one from its number. -/
theorem count_queue (h : CounterInv m) (htask : m.task t = some task)
    (htarget : 0 < task.targetValue) :
    Tallied m (m.count t task) (if (t, 1) ∈ m.queue task.name then [t] else []) ∧
      (m.count t task).queue task.name = takeOne t (m.queue task.name) ∧
      ∀ name ≠ task.name, (m.count t task).queue name = m.queue name := by
  obtain ⟨l, hl, hlname⟩ := h.linked t task htask htarget
  have hnumber : ∀ p ∈ m.queue task.name, p.1 = t → p.2 = task.targetValue := by
    rintro p hp rfl
    rw [targetOf_of_mem_queue hp, targetOf_eq htask]
  have hone : (t, 1) ∈ m.queue task.name ↔ task.targetValue = 1 := by
    constructor
    · exact fun hmem => (hnumber _ hmem rfl).symm
    · exact fun htarget' => htarget' ▸ h.mem_queue htask htarget
  unfold CounterMap.count
  dsimp only
  by_cases hlast : task.targetValue = 1
  · have hremove := remove_eq (m := m.setTask t (some { task with targetValue := 0 })) (t := t)
      (show _ = some l from hl) h.fault
    unfold CounterMap.remove at hremove
    have hripe : (CounterMap.unlinkFrom (m.setTask t (some { task with targetValue := 0 }))
        task.counters l t).ripe = m.ripe := (unlinkFrom_rest _ _ _ _).2.2.2.1
    rw [if_pos (hone.mpr hlast), if_pos (by omega), hlast, hremove, unlinkFrom_ripe, hripe]
    refine ⟨tallied_finish htask htarget, ?_, fun name hname => ?_⟩
    · rw [takeOne_last fun p hp hpt => (hnumber p hp hpt).trans hlast]
      exact queue_retire h htask hl hlname task.name
    · refine (queue_retire h htask hl hlname name).trans ?_
      exact List.filter_eq_self.mpr fun p hp => bne_iff_ne.mpr (h.ne_of_mem_queue htask hname hp)
  · rw [if_neg (fun hmem => hlast (hone.mp hmem)), if_neg (by omega)]
    refine ⟨tallied_setTask htask htarget (by omega), ?_, fun name hname => ?_⟩
    · rw [queue_setTask, takeOne_more hlast htarget hnumber]
    · rw [queue_setTask]
      exact (List.map_congr_left fun p hp => if_neg (h.ne_of_mem_queue htask hname hp)).trans
        (List.map_id _)

/-! ### A new counter -/

/-- `create` puts a new counter behind the others of its name. -/
theorem create_queue (name : ν) {k : Nat} (h : CounterInv m) (hk : k ≠ 0) :
    (m.create name k).taskCnt = m.taskCnt + 1 ∧ (m.create name k).ripe = m.ripe ∧
      (∃ id, (m.create name k).task =
        Function.update m.task m.taskCnt (some ⟨name, k, 2, id, false⟩)) ∧
      ∀ name', (m.create name k).listOf name' =
        if name' = name then m.listOf name ++ [m.taskCnt] else m.listOf name' := by
  unfold CounterMap.create
  rw [if_neg hk]
  dsimp only
  split
  · rename_i id hlookup
    obtain ⟨l, hl, rfl⟩ := h.keyed name id hlookup
    simp only [CounterMap.setTask, hl]
    refine ⟨rfl, rfl, ⟨id, rfl⟩, fun name' => ?_⟩
    by_cases hname : name' = l.name
    · rw [if_pos hname, hname, h.listOf_eq hl]
      refine Eq.trans (listOf_some hlookup) ?_
      rw [setList_lists_self]
      rfl
    · rw [if_neg hname]
      refine listOf_congr rfl fun i hi => Function.update_of_ne ?_ _ _
      rintro rfl
      obtain ⟨l', hl', hname'⟩ := h.keyed name' i hi
      exact hname (hname'.symm.trans (congrArg _ (Option.some.inj (hl'.symm.trans hl))))
  · rename_i hlookup
    refine ⟨rfl, rfl, ⟨m.listCnt, rfl⟩, fun name' => ?_⟩
    by_cases hname : name' = name
    · rw [if_pos hname, hname, listOf_none hlookup]
      refine Eq.trans (listOf_some (AList.lookup_insert _)) ?_
      rw [setList_lists_self]
      rfl
    · rw [if_neg hname]
      refine listOf_congr (AList.lookup_insert_ne hname) fun i hi => Function.update_of_ne ?_ _ _
      rintro rfl
      obtain ⟨l', hl', -⟩ := h.keyed name' _ hi
      cases hl'.symm.trans (h.listFresh _ (Nat.le_refl _))

/-! ### The ledger -/

/-- What named counters are for. `names` are the names of all counters in the order of their creation;
`due` are those that are counted to the end and still to be told so, `counted` those that were told. -/
structure CounterLedger (ν : Type) where
  names : List ν
  queue : ν → List (Nat × Nat)
  due : List Nat
  counted : List Nat
  dispatched : List Nat
  done : List Nat

namespace CounterLedger

omit [DecidableEq ν] in
def empty (ν : Type) : CounterLedger ν where
  names := []
  queue := fun _ => []
  due := []
  counted := []
  dispatched := []
  done := []

/-- One step. A counter is done when it is both counted and dispatched. -/
def step (a : CounterLedger ν) : CounterOp ν → CounterLedger ν
  | .create name k =>
      if k = 0 then a
      else
        { a with
          names := a.names ++ [name]
          queue := Function.update a.queue name (a.queue name ++ [(a.names.length, k)]) }
  | .countByName name n =>
      { a with
        queue := Function.update a.queue name (drain n (a.queue name))
        due := (drained n (a.queue name)).reverse ++ a.due }
  | .count t =>
      match a.names[t]? with
      | some name =>
          { a with
            queue := Function.update a.queue name (takeOne t (a.queue name))
            due := if (t, 1) ∈ a.queue name then t :: a.due else a.due }
      | none => a
  | .fire t =>
      { a with
        due := a.due.erase t
        counted := t :: a.counted
        done := if t ∈ a.dispatched then a.done ++ [t] else a.done }
  | .dispatch t =>
      { a with
        dispatched := t :: a.dispatched
        done := if t ∈ a.counted then a.done ++ [t] else a.done }
  | .dismiss _ => a
  | .destroyMap => a

end CounterLedger

/-- The steps without dismissals. -/
def CounterOp.Counting : CounterOp ν → Prop
  | .dismiss _ | .destroyMap => False
  | .create _ _ | .countByName _ _ | .count _ | .fire _ | .dispatch _ => True

/-- The code's state stands for a ledger. -/
structure Follows (m : CounterMap ν) (a : CounterLedger ν) : Prop where
  inv : CounterInv m
  cnt : m.taskCnt = a.names.length
  names : ∀ t task, m.task t = some task → a.names[t]? = some task.name
  queue : ∀ name, m.queue name = a.queue name
  due : m.ripe = a.due
  alive : ∀ t < m.taskCnt, m.task t = none ↔ t ∈ a.done
  counted : ∀ t task, m.task t = some task →
    (t ∈ a.counted ↔ task.targetValue = 0 ∧ t ∉ m.ripe)
  dispatched : ∀ t task, m.task t = some task → (t ∈ a.dispatched ↔ task.dispatched = true)
  known : ∀ t, t ∈ a.counted ∨ t ∈ a.dispatched → t < m.taskCnt
  done : ∀ t, t ∈ a.done ↔ t ∈ a.counted ∧ t ∈ a.dispatched
  doneOnce : a.done.Nodup
  order : ∀ name, (m.listOf name).Pairwise (· < ·)

variable {a : CounterLedger ν}

/-- Nothing is there at first. -/
theorem follows_empty : Follows (CounterMap.empty ν) (CounterLedger.empty ν) where
  inv := counterInv_empty
  cnt := rfl
  names := by simp [CounterMap.empty]
  queue := fun _ => rfl
  due := rfl
  alive := by simp [CounterMap.empty]
  counted := by simp [CounterMap.empty]
  dispatched := by simp [CounterMap.empty]
  known := by simp [CounterLedger.empty]
  done := by simp [CounterLedger.empty]
  doneOnce := List.nodup_nil
  order := fun _ => List.Pairwise.nil

omit [DecidableEq ν] in
theorem listOf_eq_map [DecidableEq ν] (m : CounterMap ν) (name : ν) :
    m.listOf name = (m.queue name).map Prod.fst := by
  rw [CounterMap.queue, List.map_map]
  exact (List.map_id _).symm

/-- A task that is there has been created. -/
theorem CounterInv.lt_taskCnt (h : CounterInv m) (htask : m.task t = some task) : t < m.taskCnt := by
  by_contra hge
  cases htask.symm.trans (h.taskFresh t (Nat.not_lt.mp hge))

theorem CounterInv.lt_of_mem_listOf (h : CounterInv m) (hmem : t ∈ m.listOf name) : t < m.taskCnt := by
  obtain ⟨task, htask, -⟩ := (h.ok.listed name t).mp hmem
  exact h.lt_taskCnt htask

/-- A section that lowers targets: only the queues and what is due change. -/
theorem Follows.tally {finished : List Nat} {queue : ν → List (Nat × Nat)} (h : Follows m a)
    (hinv : CounterInv m') (htally : Tallied m m' finished) (hqueue : ∀ name, m'.queue name = queue name)
    (horder : ∀ name, (m'.listOf name).Sublist (m.listOf name)) :
    Follows m' { a with queue := queue, due := finished.reverse ++ a.due } where
  inv := hinv
  cnt := htally.taskCnt.trans h.cnt
  names := by
    intro t task' htask'
    cases htask : m.task t with
    | none => cases htask'.symm.trans (htally.gone t htask)
    | some task =>
        obtain ⟨k, hk, -⟩ := htally.kept t task htask
        obtain rfl := Option.some.inj (hk.symm.trans htask')
        exact h.names t task htask
  queue := hqueue
  due := htally.ripe.trans (congrArg _ h.due)
  alive := by
    intro t ht
    rw [htally.taskCnt] at ht
    refine Iff.trans ⟨fun hnone => ?_, htally.gone t⟩ (h.alive t ht)
    cases htask : m.task t with
    | none => rfl
    | some task =>
        obtain ⟨k, hk, -⟩ := htally.kept t task htask
        cases hk.symm.trans hnone
  counted := by
    intro t task' htask'
    cases htask : m.task t with
    | none => cases htask'.symm.trans (htally.gone t htask)
    | some task =>
        obtain ⟨k, hk, hiff⟩ := htally.kept t task htask
        obtain rfl := Option.some.inj (hk.symm.trans htask')
        exact (h.counted t task htask).trans hiff.symm
  dispatched := by
    intro t task' htask'
    cases htask : m.task t with
    | none => cases htask'.symm.trans (htally.gone t htask)
    | some task =>
        obtain ⟨k, hk, -⟩ := htally.kept t task htask
        obtain rfl := Option.some.inj (hk.symm.trans htask')
        exact h.dispatched t task htask
  known := fun t ht => htally.taskCnt ▸ h.known t ht
  done := h.done
  doneOnce := h.doneOnce
  order := fun name => (h.order name).sublist (horder name)

/-- Counting a name. -/
theorem Follows.countN {name : ν} {n : Nat} (h : Follows m a) :
    Follows (m.countN name n) (a.step (.countByName name n)) := by
  obtain ⟨htally, hself, hother⟩ := countN_queue h.inv name n
  have hqueue : ∀ name', (m.countN name n).queue name' =
      Function.update a.queue name (drain n (a.queue name)) name' := by
    intro name'
    rcases eq_or_ne name' name with rfl | hname
    · rw [Function.update_self, hself, h.queue]
    · rw [Function.update_of_ne hname, hother name' hname, h.queue]
  rw [h.queue] at htally
  refine h.tally (h.inv.countN name n) htally hqueue fun name' => ?_
  rw [listOf_eq_map, listOf_eq_map m]
  rcases eq_or_ne name' name with rfl | hname
  · rw [hself, ← drained_append n (m.queue name')]
    exact List.sublist_append_right _ _
  · rw [hother name' hname]

/-- Counting a task. -/
theorem Follows.count (h : Follows m a) (htask : m.task t = some task)
    (htarget : 0 < task.targetValue) : Follows (m.count t task) (a.step (.count t)) := by
  obtain ⟨htally, hself, hother⟩ := count_queue h.inv htask htarget
  have hqueue : ∀ name, (m.count t task).queue name =
      Function.update a.queue task.name (takeOne t (a.queue task.name)) name := by
    intro name
    rcases eq_or_ne name task.name with rfl | hname
    · rw [Function.update_self, hself, h.queue]
    · rw [Function.update_of_ne hname, hother name hname, h.queue]
  rw [h.queue] at htally
  have hfollows := h.tally (h.inv.count htask htarget) htally hqueue fun name => by
    rw [listOf_eq_map, listOf_eq_map m]
    rcases eq_or_ne name task.name with rfl | hname
    · rw [hself]
      exact takeOne_sublist
    · rw [hother name hname]
  rw [CounterLedger.step, h.names t task htask]
  dsimp only
  split <;> rename_i hlast <;> simpa [hlast] using hfollows

/-- A new task. -/
theorem Follows.create {name : ν} {k : Nat} (h : Follows m a) :
    Follows (m.create name k) (a.step (.create name k)) := by
  rw [CounterLedger.step]
  split
  · rename_i hk
    rwa [CounterMap.create, if_pos hk]
  · rename_i hk
    obtain ⟨hcnt, hripe, ⟨id, htasks⟩, hlist⟩ := create_queue name h.inv hk
    have hold : ∀ s ≠ m.taskCnt, (m.create name k).task s = m.task s := fun s hs => by
      rw [htasks, Function.update_of_ne hs]
    have hnew : (m.create name k).task m.taskCnt = some ⟨name, k, 2, id, false⟩ := by
      rw [htasks, Function.update_self]
    have hfresh : m.taskCnt ∉ a.counted ∧ m.taskCnt ∉ a.dispatched :=
      ⟨fun hmem => Nat.lt_irrefl _ (h.known _ (.inl hmem)),
        fun hmem => Nat.lt_irrefl _ (h.known _ (.inr hmem))⟩
    have hqueue : ∀ name', ∀ s ∈ m.listOf name',
        (s, (m.create name k).targetOf s) = (s, m.targetOf s) := by
      intro name' s hs
      rw [CounterMap.targetOf, hold s (Nat.ne_of_lt (h.inv.lt_of_mem_listOf hs))]
      rfl
    refine ⟨h.inv.create name k, ?_, fun t task htask => ?_, fun name' => ?_, hripe.trans h.due,
      fun t ht => ?_, fun t task htask => ?_, fun t task htask => ?_, fun t ht => ?_, h.done,
      h.doneOnce, fun name' => ?_⟩
    · rw [hcnt, h.cnt, List.length_append, List.length_singleton]
    · show (a.names ++ [name])[t]? = _
      rcases eq_or_ne t m.taskCnt with rfl | hne
      · obtain rfl := Option.some.inj (hnew.symm.trans htask)
        rw [h.cnt, List.getElem?_concat_length]
      · rw [hold t hne] at htask
        have hlt := h.cnt ▸ h.inv.lt_taskCnt htask
        rw [List.getElem?_append_left hlt]
        exact h.names t task htask
    · show _ = Function.update a.queue name (a.queue name ++ [(a.names.length, k)]) name'
      rw [CounterMap.queue, hlist]
      rcases eq_or_ne name' name with rfl | hname
      · rw [if_pos rfl, Function.update_self, List.map_append, ← h.queue, ← h.cnt]
        refine congrArg₂ _ (List.map_congr_left (hqueue name')) ?_
        rw [List.map_singleton, targetOf_eq hnew]
      · rw [if_neg hname, Function.update_of_ne hname, ← h.queue]
        exact List.map_congr_left (hqueue name')
    · rcases eq_or_ne t m.taskCnt with rfl | hne
      · rw [hnew]
        exact ⟨fun hnone => (by cases hnone), fun hmem => absurd ((h.done _).mp hmem).1 hfresh.1⟩
      · rw [hold t hne]
        exact h.alive t (by omega)
    · rcases eq_or_ne t m.taskCnt with rfl | hne
      · obtain rfl := Option.some.inj (hnew.symm.trans htask)
        exact ⟨fun hmem => absurd hmem hfresh.1, fun hzero => absurd hzero.1 hk⟩
      · rw [hripe]
        exact h.counted t task ((hold t hne).symm.trans htask)
    · rcases eq_or_ne t m.taskCnt with rfl | hne
      · obtain rfl := Option.some.inj (hnew.symm.trans htask)
        exact ⟨fun hmem => absurd hmem hfresh.2, fun hfalse => (by cases hfalse)⟩
      · exact h.dispatched t task ((hold t hne).symm.trans htask)
    · have := h.known t ht
      omega
    · rw [hlist]
      split
      · refine List.pairwise_append.mpr ⟨h.order name, List.pairwise_singleton _ _, ?_⟩
        intro s hs s' hs'
        rw [List.mem_singleton.mp hs']
        exact h.inv.lt_of_mem_listOf hs
      · exact h.order name'

/-! ### Counted and dispatched -/

/-- One of the two that a task waits for is there. If it was the last one, `subtask_done` is called. -/
theorem Follows.settle {x : Option (CounterTask ν)} {ripe counted dispatched done : List Nat}
    (h : Follows m a) (hinv : CounterInv { m.setTask t x with ripe := ripe })
    (htask : m.task t = some task) (hripe : ∀ s ≠ t, s ∈ ripe ↔ s ∈ m.ripe)
    (hcounted : ∀ s ≠ t, s ∈ counted ↔ s ∈ a.counted)
    (hdispatched : ∀ s ≠ t, s ∈ dispatched ↔ s ∈ a.dispatched)
    (hx : (x = none ∧ (t ∈ counted ∧ t ∈ dispatched) ∧ done = a.done ++ [t]) ∨
      ∃ task', x = some task' ∧ ¬ (t ∈ counted ∧ t ∈ dispatched) ∧ done = a.done ∧
        task'.name = task.name ∧ task'.targetValue = task.targetValue ∧
        (t ∈ counted ↔ task.targetValue = 0 ∧ t ∉ ripe) ∧ (t ∈ dispatched ↔ task'.dispatched = true)) :
    Follows { m.setTask t x with ripe := ripe }
      { a with due := ripe, counted := counted, dispatched := dispatched, done := done } := by
  have hlt := h.inv.lt_taskCnt htask
  have hlist : ∀ name, CounterMap.listOf { m.setTask t x with ripe := ripe } name = m.listOf name :=
    fun _ => rfl
  have hcases : ∀ s task', (m.setTask t x).task s = some task' →
      s ≠ t ∧ m.task s = some task' ∨ s = t ∧ x = some task' := by
    intro s task' hs
    rcases eq_or_ne s t with rfl | hne
    · exact .inr ⟨rfl, setTask_task_self.symm.trans hs⟩
    · exact .inl ⟨hne, (setTask_task_of_ne hne).symm.trans hs⟩
  have hnotDone : t ∉ a.done := fun hmem => by cases htask.symm.trans ((h.alive t hlt).mpr hmem)
  have hdone : ∀ s, s ∈ done ↔ s ∈ counted ∧ s ∈ dispatched := by
    intro s
    rcases eq_or_ne s t with rfl | hne
    · rcases hx with ⟨-, hboth, rfl⟩ | ⟨-, -, hnot, rfl, -⟩
      · exact ⟨fun _ => hboth, fun _ => List.mem_append_right _ List.mem_cons_self⟩
      · exact ⟨fun hmem => absurd hmem hnotDone, fun hboth => absurd hboth hnot⟩
    · rw [hcounted s hne, hdispatched s hne, ← h.done]
      rcases hx with ⟨-, -, rfl⟩ | ⟨-, -, -, rfl, -⟩
      · rw [List.mem_append, List.mem_singleton, or_iff_left hne]
      · exact Iff.rfl
  refine ⟨hinv, h.cnt, fun s task' hs => ?_, fun name => ?_, rfl, fun s hs => ?_, fun s task' hs => ?_,
    fun s task' hs => ?_, fun s hs => ?_, hdone, ?_, h.order⟩
  · rcases hcases s task' hs with ⟨-, hs'⟩ | ⟨rfl, rfl⟩
    · exact h.names s task' hs'
    · rcases hx with ⟨hnone, -⟩ | ⟨task'', hsome, -, -, hname, -⟩
      · cases hnone
      · rw [Option.some.inj hsome, hname]
        exact h.names s task htask
  · rw [CounterMap.queue, hlist]
    refine Eq.trans (List.map_congr_left fun s hs => ?_) (h.queue name)
    rcases eq_or_ne s t with rfl | hne
    · -- a task that is in a list is still there
      obtain ⟨task', htask', -⟩ := (hinv.ok.listed name s).mp hs
      have hself : x = some task' := setTask_task_self.symm.trans htask'
      rcases hx with ⟨hnone, -⟩ | ⟨task'', hsome, -, -, -, htarget, -⟩
      · cases hnone.symm.trans hself
      · rw [targetOf_eq htask, targetOf_eq (htask'.trans (hself.symm.trans hsome)), htarget]
    · rw [CounterMap.targetOf]
      show (s, (((m.setTask t x).task s).map _).getD 0) = _
      rw [setTask_task_of_ne hne]
      rfl
  · show (m.setTask t x).task s = none ↔ s ∈ done
    rcases eq_or_ne s t with rfl | hne
    · rw [setTask_task_self, hdone]
      rcases hx with ⟨hnone, hboth, -⟩ | ⟨task', hsome, hnot, -⟩
      · exact ⟨fun _ => hboth, fun _ => hnone⟩
      · exact ⟨fun hnone => (by cases hsome.symm.trans hnone), fun hboth => absurd hboth hnot⟩
    · rw [setTask_task_of_ne hne, hdone, hcounted s hne, hdispatched s hne, ← h.done]
      exact h.alive s hs
  · show s ∈ counted ↔ task'.targetValue = 0 ∧ s ∉ ripe
    rcases hcases s task' hs with ⟨hne, hs'⟩ | ⟨rfl, rfl⟩
    · rw [hcounted s hne, hripe s hne]
      exact h.counted s task' hs'
    · rcases hx with ⟨hnone, -⟩ | ⟨task'', hsome, -, -, -, htarget, hiff, -⟩
      · cases hnone
      · rw [Option.some.inj hsome, htarget]
        exact hiff
  · rcases hcases s task' hs with ⟨hne, hs'⟩ | ⟨rfl, rfl⟩
    · exact (hdispatched s hne).trans (h.dispatched s task' hs')
    · rcases hx with ⟨hnone, -⟩ | ⟨task'', hsome, -, -, -, -, -, hiff⟩
      · cases hnone
      · rw [Option.some.inj hsome]
        exact hiff
  · rcases eq_or_ne s t with rfl | hne
    · exact hlt
    · exact h.known s (hs.imp (hcounted s hne).mp (hdispatched s hne).mp)
  · rcases hx with ⟨-, -, rfl⟩ | ⟨-, -, -, rfl, -⟩
    · refine List.Nodup.append h.doneOnce (List.nodup_singleton t) fun s hs hs' => ?_
      exact hnotDone (List.mem_singleton.mp hs' ▸ hs)
    · exact h.doneOnce

/-- A task that is counted to the end is told so. -/
theorem Follows.fire (h : Follows m a) (hmem : t ∈ m.ripe) :
    Follows ({ m with ripe := m.ripe.erase t }.countTask t) (a.step (.fire t)) ∧
      (a.step (.fire t)).done = a.done ++ m.doneBy (.fire t) := by
  obtain ⟨task, htask, hzero⟩ := h.inv.ripe t hmem
  have hvalue := h.inv.value t task htask
  rw [if_pos (show 0 < task.targetValue ∨ t ∈ m.ripe from .inr hmem)] at hvalue
  have hinv := h.inv.fire hmem
  have hmemErase : ∀ s, s ∈ m.ripe.erase t ↔ s ≠ t ∧ s ∈ m.ripe := fun s =>
    h.inv.ripeOnce.mem_erase_iff
  have hripe : ∀ s ≠ t, s ∈ m.ripe.erase t ↔ s ∈ m.ripe := fun s hne => by
    rw [hmemErase, and_iff_right hne]
  have hcounted : ∀ s ≠ t, s ∈ t :: a.counted ↔ s ∈ a.counted := fun s hne => by
    rw [List.mem_cons, or_iff_right hne]
  rw [countTask_eq (m := { m with ripe := m.ripe.erase t }) htask] at hinv ⊢
  rw [CounterMap.doneBy, htask, CounterLedger.step, ← h.due]
  dsimp only [Option.any_some]
  by_cases hdisp : task.dispatched = true
  · rw [if_pos hdisp] at hvalue
    have hlast : task.value - 1 = 0 := by omega
    have hin := (h.dispatched t task htask).mpr hdisp
    rw [if_pos hlast] at hinv ⊢
    rw [if_pos hin, if_pos (decide_eq_true hlast)]
    exact ⟨h.settle hinv htask hripe hcounted (fun _ _ => Iff.rfl)
      (.inl ⟨rfl, ⟨List.mem_cons_self, hin⟩, rfl⟩), rfl⟩
  · rw [if_neg hdisp] at hvalue
    have hmore : ¬ task.value - 1 = 0 := by omega
    have hout := fun hin => hdisp ((h.dispatched t task htask).mp hin)
    rw [if_neg hmore] at hinv ⊢
    rw [if_neg hout, if_neg (by simpa using hmore), List.append_nil]
    refine ⟨h.settle hinv htask hripe hcounted (fun _ _ => Iff.rfl)
      (.inr ⟨_, rfl, fun hboth => hout hboth.2, rfl, rfl, rfl, ?_, h.dispatched t task htask⟩), rfl⟩
    exact ⟨fun _ => ⟨hzero, fun hself => ((hmemErase t).mp hself).1 rfl⟩, fun _ => List.mem_cons_self⟩

/-- A task is dispatched. -/
theorem Follows.dispatch (h : Follows m a) (htask : m.task t = some task)
    (hfirst : task.dispatched = false) :
    Follows ((m.setTask t (some { task with dispatched := true })).countTask t)
        (a.step (.dispatch t)) ∧
      (a.step (.dispatch t)).done = a.done ++ m.doneBy (.dispatch t) := by
  have hvalue := h.inv.value t task htask
  rw [hfirst, if_neg (by decide)] at hvalue
  have hinv := h.inv.dispatch htask hfirst
  have hdispatched : ∀ s ≠ t, s ∈ t :: a.dispatched ↔ s ∈ a.dispatched := fun s hne => by
    rw [List.mem_cons, or_iff_right hne]
  have hcounted := h.counted t task htask
  rw [countTask_eq setTask_task_self, setTask_setTask, setTask_setTask] at hinv ⊢
  rw [CounterMap.doneBy, htask, CounterLedger.step, ← h.due]
  dsimp only [Option.any_some] at hinv ⊢
  by_cases hactive : 0 < task.targetValue ∨ t ∈ m.ripe
  · rw [if_pos hactive] at hvalue
    have hmore : ¬ task.value - 1 = 0 := by omega
    have hout : t ∉ a.counted := by
      rw [hcounted]
      rintro ⟨hzero, hripe⟩
      exact hactive.elim (fun hpos => by omega) hripe
    rw [if_neg hmore] at hinv ⊢
    rw [if_neg hout, if_neg (by simpa using hmore), List.append_nil]
    exact ⟨h.settle hinv htask (fun _ _ => Iff.rfl) (fun _ _ => Iff.rfl) hdispatched
      (.inr ⟨_, rfl, fun hboth => hout hboth.1, rfl, rfl, rfl, hcounted,
        fun _ => rfl, fun _ => List.mem_cons_self⟩), rfl⟩
  · rw [if_neg hactive] at hvalue
    have hlast : task.value - 1 = 0 := by omega
    rw [not_or] at hactive
    have hin : t ∈ a.counted := hcounted.mpr ⟨by omega, hactive.2⟩
    rw [if_pos hlast] at hinv ⊢
    rw [if_pos hin, if_pos (decide_eq_true hlast)]
    exact ⟨h.settle hinv htask (fun _ _ => Iff.rfl) (fun _ _ => Iff.rfl) hdispatched
      (.inl ⟨rfl, ⟨hin, List.mem_cons_self⟩, rfl⟩), rfl⟩

/-! ### Every run -/

/-- Every step of the code is one of the ledger, with the same calls of `subtask_done`. -/
theorem Follows.exec {fuel : Nat} {op : CounterOp ν} (h : Follows m a) (hop : op.Counting)
    (hstep : m.exec fuel op = some m') :
    Follows m' (a.step op) ∧ (a.step op).done = a.done ++ m.doneBy op := by
  unfold CounterMap.exec at hstep
  split at hstep
  · cases hstep
  · cases op with
    | create name k =>
        obtain rfl := Option.some.inj hstep
        refine ⟨h.create, ?_⟩
        rw [CounterLedger.step]
        split <;> exact (List.append_nil _).symm
    | countByName name n =>
        obtain rfl := Option.some.inj hstep
        exact ⟨h.countN, (List.append_nil _).symm⟩
    | count t =>
        dsimp only at hstep
        split at hstep
        · rename_i task htask
          obtain ⟨htarget, hstep⟩ := Option.ite_none_right_eq_some.mp hstep
          obtain rfl := Option.some.inj hstep
          refine ⟨h.count htask htarget, ?_⟩
          rw [CounterLedger.step, h.names t task htask]
          exact (List.append_nil _).symm
        · cases hstep
    | fire t =>
        obtain ⟨hmem, hstep⟩ := Option.ite_none_right_eq_some.mp hstep
        exact Option.some.inj hstep ▸ h.fire hmem
    | dispatch t =>
        dsimp only at hstep
        split at hstep
        · rename_i task htask
          obtain ⟨hfirst, hstep⟩ := Option.ite_none_left_eq_some.mp hstep
          exact Option.some.inj hstep ▸ h.dispatch htask (Bool.not_eq_true _ ▸ hfirst)
        · cases hstep
    | dismiss t => cases hop
    | destroyMap => cases hop

/-- Step by step, the map does what the ledger does. -/
theorem Follows.run {ops : List (CounterOp ν)} {done : List Nat} (h : Follows m a)
    (hops : ∀ op ∈ ops, op.Counting) (hrun : m.runDone ops = some (m', done)) :
    Follows m' (ops.foldl CounterLedger.step a) ∧
      (ops.foldl CounterLedger.step a).done = a.done ++ done := by
  induction ops generalizing m a done with
  | nil =>
      cases hrun
      exact ⟨h, (List.append_nil _).symm⟩
  | cons op ops ih =>
      obtain ⟨s, hstep, hrun⟩ := Option.bind_eq_some_iff.mp hrun
      obtain ⟨⟨s', rest⟩, hrest, heq⟩ := Option.map_eq_some_iff.mp hrun
      cases heq
      obtain ⟨hfollows, hdone⟩ := h.exec (hops op List.mem_cons_self) hstep
      obtain ⟨hfollows', hdone'⟩ :=
        ih hfollows (fun op' hop' => hops op' (List.mem_cons_of_mem op hop')) hrest
      refine ⟨hfollows', ?_⟩
      rw [List.foldl_cons, hdone', hdone, List.append_assoc]

/-- What the ledger says. The counters of a name stand in the order of their creation; those that are in
no queue and not due are counted; and `subtask_done` is called once, for a counter that is both counted
and dispatched. -/
structure CounterLedger.Ok (a : CounterLedger ν) : Prop where
  order : ∀ name, ((a.queue name).map Prod.fst).Pairwise (· < ·)
  live : ∀ name t k, (t, k) ∈ a.queue name → 0 < k ∧ a.names[t]? = some name
  counted : ∀ t, t ∈ a.counted ↔
    t < a.names.length ∧ t ∉ a.due ∧ ∀ name k, (t, k) ∉ a.queue name
  done : ∀ t, t ∈ a.done ↔ t ∈ a.counted ∧ t ∈ a.dispatched
  once : a.done.Nodup

/-- What the ledger holds in a queue is a task of the map. -/
theorem Follows.mem_queue (h : Follows m a) {k : Nat} (hmem : (t, k) ∈ a.queue name) :
    ∃ task, m.task t = some task ∧ task.name = name ∧ task.targetValue = k ∧ 0 < k := by
  rw [← h.queue] at hmem
  obtain ⟨s, hs, heq⟩ := List.mem_map.mp hmem
  cases heq
  obtain ⟨task, htask, hname, hpos⟩ := (h.inv.ok.listed name t).mp hs
  rw [targetOf_eq htask]
  exact ⟨task, htask, hname, rfl, hpos⟩

/-- The ledger is consistent. -/
theorem Follows.ok (h : Follows m a) : a.Ok where
  order := by
    intro name
    rw [← h.queue, ← listOf_eq_map]
    exact h.order name
  live := by
    intro name t k hmem
    obtain ⟨task, htask, rfl, -, hpos⟩ := h.mem_queue hmem
    exact ⟨hpos, h.names t task htask⟩
  counted := by
    intro t
    rw [← h.cnt, ← h.due]
    cases htask : m.task t with
    | some task =>
        rw [h.counted t task htask]
        constructor
        · rintro ⟨hzero, hripe⟩
          refine ⟨h.inv.lt_taskCnt htask, hripe, fun name k hmem => ?_⟩
          obtain ⟨task', htask', -, rfl, hpos⟩ := h.mem_queue hmem
          rw [Option.some.inj (htask'.symm.trans htask), hzero] at hpos
          exact absurd hpos (Nat.lt_irrefl 0)
        · rintro ⟨-, hripe, hnone⟩
          refine ⟨Nat.eq_zero_of_not_pos fun hpos => ?_, hripe⟩
          exact hnone task.name _ (h.queue task.name ▸ h.inv.mem_queue htask hpos)
    | none =>
        constructor
        · refine fun hcounted => ⟨h.known t (.inl hcounted), fun hripe => ?_, fun name k hmem => ?_⟩
          · obtain ⟨task, htask', -⟩ := h.inv.ripe t hripe
            cases htask.symm.trans htask'
          · obtain ⟨task, htask', -⟩ := h.mem_queue hmem
            cases htask.symm.trans htask'
        · exact fun hlt => ((h.done t).mp ((h.alive t hlt.1).mp htask)).1
  done := h.done
  once := h.doneOnce

/-- In every run without dismissals, whatever the order of its steps: the live counters of each name are
those of the ledger, and so are the calls of `subtask_done`; a count by name takes its amount from the
front of the queue of that name and from nothing else. -/
theorem namedCounting_fifo {ν : Type} [DecidableEq ν] {ops : List (CounterOp ν)} {m : CounterMap ν}
    {done : List Nat} (hops : ∀ op ∈ ops, op.Counting)
    (hrun : (CounterMap.empty ν).runDone ops = some (m, done)) :
    (∀ name, m.queue name = (ops.foldl CounterLedger.step (.empty ν)).queue name) ∧
      done = (ops.foldl CounterLedger.step (.empty ν)).done ∧
      (ops.foldl CounterLedger.step (.empty ν)).Ok ∧
      ∀ name n m', m.exec 0 (.countByName name n) = some m' →
        m'.queue name = drain n (m.queue name) ∧
        queueTotal (m'.queue name) =
          queueTotal (m.queue name) - min n (queueTotal (m.queue name)) ∧
        ∀ name' ≠ name, m'.queue name' = m.queue name' := by
  obtain ⟨hfollows, hdone⟩ := follows_empty.run hops hrun
  refine ⟨hfollows.queue, hdone.symm, hfollows.ok, fun name n m' hstep => ?_⟩
  unfold CounterMap.exec at hstep
  split at hstep
  · cases hstep
  · obtain rfl := Option.some.inj hstep
    obtain ⟨-, hself, hother⟩ := countN_queue hfollows.inv name n
    exact ⟨hself, by rw [hself, queueTotal_drain], hother⟩

/-- Two counters of one name: 3 counts by name finish the first and leave 2 of the second. -/
theorem namedCounting_fifo_two : ∃ (m : CounterMap Nat) (done : List Nat),
    (CounterMap.empty Nat).runDone
      [.create 5 2, .create 5 3, .dispatch 0, .countByName 5 3, .fire 0] = some (m, done) ∧
    m.queue 5 = [(1, 2)] ∧ done = [0] ∧
    done = (List.foldl CounterLedger.step (.empty Nat)
      [.create 5 2, .create 5 3, .dispatch 0, .countByName 5 3, .fire 0]).done := by
  obtain ⟨m, done, hrun, hqueue, hdone⟩ : ∃ m done, (CounterMap.empty Nat).runDone
      [.create 5 2, .create 5 3, .dispatch 0, .countByName 5 3, .fire 0] = some (m, done) ∧
        m.queue 5 = [(1, 2)] ∧ done = [0] := ⟨_, _, rfl, rfl, rfl⟩
  exact ⟨m, done, hrun, hqueue, hdone, (namedCounting_fifo (by simp [CounterOp.Counting]) hrun).2.1⟩

end Workflow.Factory

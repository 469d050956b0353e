/-
Module: Workflow.Proofs.Thrdpool
Layer: Proofs
Purpose: The thread pool in every run. The threads that are out of their loops form a chain through
  the ids that they found in the pool, the last one first: those in front are still to join the next
  one, those behind are at their end and all but the first of them joined. `nthreads` counts the
  others, and only with none of them left can the pool be freed.
Trusted boundary: none
Main exports: ThrdInv, ThrdInv.exec, thrdInv_reachable
-/
import Workflow.Kernel.Thrdpool
import Mathlib.Data.Fintype.List
import Mathlib.Data.List.Nodup

namespace Workflow.Kernel

open Workflow.Lib

variable {ω τ : Type}

/-- In the loop. -/
def ThreadPc.inLoop : ThreadPc ω τ → Bool
  | .ready | .waiting | .running _ => true
  | .destroying | .returned | .unlocking _ | .leaving _ | .ended | .released => false

/-- Out of the loop that waits for the threads. -/
def DestroyPc.late : DestroyPc → Bool
  | .unlocked | .joining | .draining | .returned => true
  | .notCalled | .asleep | .woken => false

/-- Behind the last join. -/
def DestroyPc.afterJoin : DestroyPc → Bool
  | .draining | .returned => true
  | .notCalled | .asleep | .woken | .unlocked | .joining => false

/-- The pool is freed by `thrdpool_destroy`, or by the thread whose task called it. -/
def Thrdpool.gone [DecidableEq τ] [DecidableEq ω] (p : Thrdpool ω τ) : Bool :=
  decide (p.destroy = .returned) &&
    match p.caller with
    | none => true
    | some w => decide (p.worker w = .released)

variable [DecidableEq ω] [DecidableEq τ] [Fintype ω]

/-- The pool with the threads `act` between their loops and their ends and the threads `done` at
their ends. -/
structure ThrdInv (p : Thrdpool ω τ) (act done : List ω) : Prop where
  tid : p.tid = (act ++ done).head?
  nodup : (act ++ done).Nodup
  chained : ∀ front v rest, act ++ done = front ++ v :: rest → v ∈ act →
    p.worker v = .unlocking rest.head? ∨ p.worker v = .leaving rest.head?
  left : ∀ v tid, p.worker v = .unlocking tid ∨ p.worker v = .leaving tid → v ∈ act
  ended : ∀ v, p.worker v = .ended ↔ v ∈ done
  count : p.nthreads + (act ++ done).length + p.detached.length = Fintype.card ω
  detached : p.detached = p.caller.toList
  caller : ∀ w, p.caller = some w → p.destroy ≠ .returned ∧ p.worker w = .destroying ∨
    p.destroy = .returned ∧ (p.worker w = .returned ∨ p.worker w = .released)
  called : ∀ w, p.worker w = .destroying ∨ p.worker w = .returned ∨ p.worker w = .released →
    p.caller = some w
  terminate : p.terminate = true ↔ p.destroy ≠ .notCalled
  waiting : p.terminate = true → ∀ v, p.worker v ≠ .waiting
  early : p.destroy = .notCalled → act = [] ∧ done = [] ∧ p.caller = none
  asleep : p.destroy = .asleep → 0 < p.nthreads
  late : p.destroy.late = true → p.nthreads = 0
  joined : p.destroy.afterJoin = false → p.joined = done.tail
  all : p.destroy.afterJoin = true → act = [] ∧ p.joined = done
  fifo : p.scheduled = p.started ++ p.pended ++ p.taskQueue
  pended : p.destroy.afterJoin = false → p.pended = []
  empty : p.destroy = .returned → p.taskQueue = []
  freed : p.freed = if p.gone then 1 else 0
  fault : p.fault = false
  awake : p.terminate = false → p.taskQueue ≠ [] → Nonempty ω → ∃ v, p.worker v ≠ .waiting

theorem thrdInv_create : ThrdInv (Thrdpool.create ω τ) [] [] where
  tid := rfl
  nodup := List.nodup_nil
  chained := by simp
  left := by simp [Thrdpool.create]
  ended := by simp [Thrdpool.create]
  count := by simp [Thrdpool.create]
  detached := rfl
  caller := by simp [Thrdpool.create]
  called := by simp [Thrdpool.create]
  terminate := by simp [Thrdpool.create]
  waiting := by simp [Thrdpool.create]
  early := fun _ => ⟨rfl, rfl, rfl⟩
  asleep := fun h => by cases h
  late := fun h => by cases h
  joined := fun _ => rfl
  all := fun h => by cases h
  fifo := rfl
  pended := fun _ => rfl
  empty := fun _ => rfl
  freed := rfl
  fault := rfl
  awake := fun _ h => absurd rfl h

/-! ### When the pool is there -/

variable {p p' : Thrdpool ω τ} {act done : List ω} {w v : ω} {pc : ThreadPc ω τ} {task : τ}

omit [DecidableEq ω] [DecidableEq τ] [Fintype ω] in
theorem touch_eq (h : p.freed = 0) : p.touch = p := by
  cases p
  subst h
  simp [Thrdpool.touch]

/-- A thread in its loop is not in the chain. -/
theorem ThrdInv.notMem_chain (h : ThrdInv p act done) (hw : (p.worker w).inLoop = true) :
    w ∉ act ∧ w ∉ done := by
  refine ⟨fun hmem => ?_, fun hmem => ?_⟩
  · obtain ⟨front, rest, hsplit⟩ := List.append_of_mem hmem
    rcases h.chained front w (rest ++ done) (by simp [hsplit]) hmem with hpc | hpc <;>
      simp [hpc, ThreadPc.inLoop] at hw
  · simp [(h.ended w).mpr hmem, ThreadPc.inLoop] at hw

/-- A thread in its loop is one of those that are counted. -/
theorem ThrdInv.nthreads_pos (h : ThrdInv p act done) (hw : (p.worker w).inLoop = true) :
    0 < p.nthreads := by
  obtain ⟨hact, hdone⟩ := h.notMem_chain hw
  have hcaller : ∀ d, p.caller = some d → d ≠ w ∧ d ∉ act ++ done := by
    intro d hd
    have hpc := h.caller d hd
    refine ⟨?_, fun hmem => ?_⟩
    · rintro rfl
      rcases hpc with ⟨-, hpc⟩ | ⟨-, hpc | hpc⟩ <;> simp [hpc, ThreadPc.inLoop] at hw
    · rcases List.mem_append.mp hmem with hmem | hmem
      · obtain ⟨front, rest, hsplit⟩ := List.append_of_mem hmem
        rcases h.chained front d (rest ++ done) (by simp [hsplit]) hmem with hold | hold <;>
          rw [hold] at hpc <;> simp at hpc
      · rw [(h.ended d).mpr hmem] at hpc
        simp at hpc
  have hnodup : (w :: (p.detached ++ (act ++ done))).Nodup := by
    rw [List.nodup_cons, List.mem_append, List.mem_append, not_or, not_or, h.detached]
    refine ⟨⟨?_, hact, hdone⟩, ?_⟩
    · intro hmem
      exact (hcaller w (Option.mem_toList.mp hmem)).1 rfl
    · refine List.Nodup.append ?_ h.nodup fun d hd => (hcaller d (Option.mem_toList.mp hd)).2
      cases p.caller with
      | none => exact List.nodup_nil
      | some d => exact List.nodup_singleton d
  have hle := hnodup.length_le_card
  have hcount := h.count
  simp only [List.length_cons, List.length_append] at hle hcount
  omega

theorem ThrdInv.not_late (h : ThrdInv p act done) (hpos : 0 < p.nthreads) :
    p.destroy.late = false := by
  by_contra hlate
  rw [Bool.not_eq_false] at hlate
  have := h.late hlate
  omega

omit [Fintype ω] in
theorem not_gone (hdestroy : p.destroy ≠ .returned) : p.gone = false := by
  simp [Thrdpool.gone, hdestroy]

omit [Fintype ω] in
theorem freed_of_ne_returned (hfreed : p.freed = 0) (hdestroy : p.destroy ≠ .returned) :
    p.freed = if p.gone then 1 else 0 := by
  rw [not_gone hdestroy, hfreed]
  rfl

theorem ThrdInv.freed_eq_zero (h : ThrdInv p act done) (hdestroy : p.destroy ≠ .returned) :
    p.freed = 0 := by
  rw [h.freed, not_gone hdestroy]
  rfl

omit [DecidableEq ω] [DecidableEq τ] [Fintype ω] in
theorem ne_returned (hlate : p.destroy.late = false) : p.destroy ≠ .returned := by
  intro heq
  rw [heq] at hlate
  cases hlate

omit [DecidableEq τ] [Fintype ω] in
@[simp]
theorem setWorker_worker_self : (p.setWorker w pc).worker w = pc :=
  Function.update_self _ _ _

omit [DecidableEq τ] [Fintype ω] in
theorem setWorker_worker_of_ne (h : v ≠ w) : (p.setWorker w pc).worker v = p.worker v :=
  Function.update_of_ne h _ _

omit [DecidableEq τ] [Fintype ω] in
/-- Who is at a place that the thread neither leaves nor reaches. -/
theorem setWorker_worker_iff {y : ThreadPc ω τ} (hold : p.worker w ≠ y) (hpc : pc ≠ y) :
    (p.setWorker w pc).worker v = y ↔ p.worker v = y := by
  rcases eq_or_ne v w with rfl | hne
  · rw [setWorker_worker_self]
    exact ⟨fun heq => absurd heq hpc, fun heq => absurd heq hold⟩
  · rw [setWorker_worker_of_ne hne]

/-! ### In the loop -/

/-- A thread goes from one place in the loop to another. -/
theorem ThrdInv.move (h : ThrdInv p act done) (hold : (p.worker w).inLoop = true)
    (hpc : pc.inLoop = true) (hwaiting : pc = .waiting → p.terminate = false ∧ p.taskQueue = []) :
    ThrdInv (p.setWorker w pc) act done := by
  have hsame : ∀ x y, y.inLoop = false → ((p.setWorker w pc).worker x = y ↔ p.worker x = y) := by
    intro x y hy
    refine setWorker_worker_iff ?_ ?_
    · rintro rfl
      cases hold.symm.trans hy
    · rintro rfl
      cases hpc.symm.trans hy
  exact
    { h with
      chained := fun front x rest hsplit hmem => by
        rcases h.chained front x rest hsplit hmem with hx | hx
        · exact .inl ((hsame x _ rfl).mpr hx)
        · exact .inr ((hsame x _ rfl).mpr hx)
      left := fun x tid hx => h.left x tid (hx.imp (hsame x _ rfl).mp (hsame x _ rfl).mp)
      ended := fun x => (hsame x _ rfl).trans (h.ended x)
      caller := fun x hx => (h.caller x hx).imp (And.imp_right (hsame x _ rfl).mpr)
        (And.imp_right (Or.imp (hsame x _ rfl).mpr (hsame x _ rfl).mpr))
      called := fun x hx => h.called x
        (hx.imp (hsame x _ rfl).mp (Or.imp (hsame x _ rfl).mp (hsame x _ rfl).mp))
      waiting := fun hterm x hx => by
        rcases eq_or_ne x w with rfl | hne
        · rw [setWorker_worker_self] at hx
          cases hterm.symm.trans (hwaiting hx).1
        · rw [setWorker_worker_of_ne hne] at hx
          exact h.waiting hterm x hx
      freed := by
        have hgone : (p.setWorker w pc).gone = p.gone := by
          unfold Thrdpool.gone
          simp only [Thrdpool.setWorker]
          split
          · rfl
          · rename_i x _
            exact congrArg _ (decide_eq_decide.mpr (hsame x _ rfl))
        rw [hgone]
        exact h.freed
      awake := fun hterm hqueue _ => by
        refine ⟨w, fun hw => ?_⟩
        rw [setWorker_worker_self] at hw
        exact hqueue (hwaiting hw).2 }

theorem ThrdInv.wake (h : ThrdInv p act done) (hw : p.worker w = .waiting) :
    ThrdInv (p.setWorker w .ready) act done :=
  h.move (by rw [hw]; rfl) rfl (fun heq => by cases heq)

/-- A task is added, and somebody is there to take it. -/
theorem ThrdInv.enqueue (h : ThrdInv p act done) (hret : p.destroy ≠ .returned)
    (hawake : Nonempty ω → ∃ v, p.worker v ≠ .waiting) :
    ThrdInv { p with taskQueue := p.taskQueue ++ [task], scheduled := p.scheduled ++ [task] } act
      done :=
  { h with
    fifo := by rw [h.fifo, List.append_assoc]
    empty := fun heq => absurd heq hret
    awake := fun _ _ hne => hawake hne }

theorem ThrdInv.schedule {woken : Option ω} (h : ThrdInv p act done)
    (hlate : p.destroy.late = false) (hstep : p.schedule task woken = some p') :
    ThrdInv p' act done := by
  have hret := ne_returned hlate
  unfold Thrdpool.schedule at hstep
  rw [touch_eq (h.freed_eq_zero hret)] at hstep
  cases woken with
  | none =>
      obtain ⟨hnobody, hstep⟩ := Option.ite_none_right_eq_some.mp hstep
      exact Option.some.inj hstep ▸ h.enqueue hret fun ⟨v⟩ => ⟨v, hnobody v⟩
  | some v =>
      obtain ⟨hv, hstep⟩ := Option.ite_none_right_eq_some.mp hstep
      have hawake : ∃ x, (p.setWorker v .ready).worker x ≠ .waiting := ⟨v, by simp⟩
      exact Option.some.inj hstep ▸ (h.wake hv).enqueue hret fun _ => hawake

/-- A thread finds the queue empty, or takes the first task. -/
theorem ThrdInv.take (h : ThrdInv p act done) (hw : p.worker w = .ready)
    (hterm : p.terminate = false) : ThrdInv (p.routineSection w) act done := by
  have hnot : p.destroy = .notCalled := by
    by_contra hne
    cases hterm.symm.trans (h.terminate.mpr hne)
  have hret : p.destroy ≠ .returned := by simp [hnot]
  have hloop : (p.worker w).inLoop = true := by
    rw [hw]
    rfl
  unfold Thrdpool.routineSection
  rw [touch_eq (h.freed_eq_zero hret)]
  dsimp only
  rw [if_neg (by simp [hterm])]
  split
  · rename_i hqueue
    exact h.move hloop rfl fun _ => ⟨hterm, hqueue⟩
  · rename_i task rest hqueue
    have hmoved := h.move hloop (show (ThreadPc.running task : ThreadPc ω τ).inLoop = true from rfl)
      (fun heq => by cases heq)
    refine
      { hmoved with
        fifo := ?_
        empty := fun heq => absurd heq hret
        awake := fun _ _ _ => ⟨w, by simp⟩ }
    have hfifo := h.fifo
    have hpended : p.pended = [] := h.pended (by rw [hnot]; rfl)
    rw [hpended, hqueue, List.append_nil] at hfifo
    show p.scheduled = p.started ++ [task] ++ p.pended ++ rest
    rw [hpended, hfifo, List.append_nil, List.append_assoc, List.singleton_append]

/-- A thread leaves the loop: it finds the id of the one before it and puts its own in. -/
theorem ThrdInv.leaveLoop {d : DestroyPc} (h : ThrdInv p act done) (hw : p.worker w = .ready)
    (hcalled : d ≠ .notCalled) (hlate : d.late = false)
    (hasleep : d = .asleep → 0 < p.nthreads - 1) (hterm : p.terminate = true) :
    ThrdInv { { p with tid := some w, nthreads := p.nthreads - 1 }.setWorker w
      (.unlocking p.tid) with destroy := d } (w :: act) done := by
  have hloop : (p.worker w).inLoop = true := by
    rw [hw]
    rfl
  have hpos := h.nthreads_pos hloop
  have hold := h.not_late hpos
  obtain ⟨hact, hdone⟩ := h.notMem_chain hloop
  have hbefore : p.destroy.afterJoin = false := by
    cases hdestroy : p.destroy <;> simp [hdestroy, DestroyPc.late, DestroyPc.afterJoin] at hold ⊢
  have hafter : d.afterJoin = false := by
    cases d <;> simp [DestroyPc.late, DestroyPc.afterJoin] at hlate ⊢
  have hret : d ≠ .returned := by
    rintro rfl
    cases hlate
  have hcaller : p.caller ≠ some w := by
    intro heq
    rcases h.caller w heq with ⟨-, hpc⟩ | ⟨-, hpc | hpc⟩ <;> cases hw.symm.trans hpc
  have hother : ∀ x, x ≠ w → (p.setWorker w (.unlocking p.tid)).worker x = p.worker x :=
    fun x hne => setWorker_worker_of_ne hne
  refine
    { tid := rfl
      nodup := ?_
      chained := fun front x rest hsplit hmem => ?_
      left := fun x tid hx => ?_
      ended := fun x => ?_
      count := ?_
      detached := h.detached
      caller := fun x hx => ?_
      called := fun x hx => ?_
      terminate := ⟨fun _ => hcalled, fun _ => hterm⟩
      waiting := fun _ x hx => ?_
      early := fun heq => absurd heq hcalled
      asleep := hasleep
      late := fun heq => by cases hlate.symm.trans heq
      joined := fun _ => h.joined hbefore
      all := fun heq => by cases hafter.symm.trans heq
      fifo := h.fifo
      pended := fun _ => h.pended hbefore
      empty := fun heq => absurd heq hret
      freed := ?_
      fault := h.fault
      awake := fun heq => by cases hterm.symm.trans heq }
  · rw [List.cons_append, List.nodup_cons, List.mem_append, not_or]
    exact ⟨⟨hact, hdone⟩, h.nodup⟩
  · show (p.setWorker w (.unlocking p.tid)).worker x = _ ∨ _
    cases front with
    | nil =>
        rw [List.cons_append, List.nil_append] at hsplit
        obtain ⟨hxw, hrest⟩ := List.cons.inj hsplit
        exact .inl (by rw [← hxw, setWorker_worker_self, h.tid, hrest])
    | cons y front =>
        have htail : act ++ done = front ++ x :: rest := (List.cons.inj hsplit).2
        have hx : x ∈ act ++ done := by
          rw [htail]
          simp
        have hne : x ≠ w := by
          rintro rfl
          exact (List.mem_append.mp hx).elim hact hdone
        have hold := h.chained front x rest htail (List.mem_of_ne_of_mem hne hmem)
        rwa [← hother x hne] at hold
  · rcases eq_or_ne x w with rfl | hne
    · exact List.mem_cons_self
    · have hold : (p.setWorker w (.unlocking p.tid)).worker x = .unlocking tid ∨
          (p.setWorker w (.unlocking p.tid)).worker x = .leaving tid := hx
      rw [setWorker_worker_of_ne hne] at hold
      exact List.mem_cons_of_mem w (h.left x tid hold)
  · show (p.setWorker w (.unlocking p.tid)).worker x = .ended ↔ _
    rcases eq_or_ne x w with rfl | hne
    · simp [hdone]
    · rw [setWorker_worker_of_ne hne]
      exact h.ended x
  · have hcount := h.count
    show p.nthreads - 1 + (w :: act ++ done).length + p.detached.length = _
    rw [List.cons_append, List.length_cons]
    omega
  · have hne : x ≠ w := by
      rintro rfl
      exact hcaller hx
    rcases h.caller x hx with ⟨-, hpc⟩ | ⟨heq, -⟩
    · exact .inl ⟨hret, (hother x hne).trans hpc⟩
    · rw [heq] at hold
      cases hold
  · have hx' : (p.setWorker w (.unlocking p.tid)).worker x = .destroying ∨
        (p.setWorker w (.unlocking p.tid)).worker x = .returned ∨
        (p.setWorker w (.unlocking p.tid)).worker x = .released := hx
    rcases eq_or_ne x w with rfl | hne
    · simp at hx'
    · rw [setWorker_worker_of_ne hne] at hx'
      exact h.called x hx'
  · have hx' : (p.setWorker w (.unlocking p.tid)).worker x = .waiting := hx
    rcases eq_or_ne x w with rfl | hne
    · simp at hx'
    · rw [setWorker_worker_of_ne hne] at hx'
      exact h.waiting hterm x hx'
  · exact freed_of_ne_returned (h.freed_eq_zero (ne_returned hold)) hret

theorem ThrdInv.leave (h : ThrdInv p act done) (hw : p.worker w = .ready)
    (hterm : p.terminate = true) : ThrdInv (p.routineSection w) (w :: act) done := by
  have hpos := h.nthreads_pos (w := w) (by rw [hw]; rfl)
  have hlate := h.not_late hpos
  have hcalled : p.destroy ≠ .notCalled := h.terminate.mp hterm
  unfold Thrdpool.routineSection
  rw [touch_eq (h.freed_eq_zero (ne_returned hlate))]
  dsimp only
  rw [if_pos hterm]
  split
  · -- the last one wakes the one that destroys the pool
    show ThrdInv { { p with tid := some w, nthreads := p.nthreads - 1 }.setWorker w
      (.unlocking p.tid) with destroy := if p.destroy = .asleep then .woken else p.destroy } _ _
    refine h.leaveLoop hw ?_ ?_ ?_ hterm
    · split
      · simp
      · exact hcalled
    · split
      · rfl
      · exact hlate
    · split
      · intro heq
        cases heq
      · rename_i hnot
        exact fun heq => absurd heq hnot
  · rename_i hnot
    exact h.leaveLoop hw hcalled hlate (fun _ => Nat.pos_of_ne_zero hnot) hterm

/-! ### Out of the loop -/

theorem ThrdInv.unlock {tid : Option ω} (h : ThrdInv p act done)
    (hw : p.worker w = .unlocking tid) : ThrdInv (p.touch.setWorker w (.leaving tid)) act done := by
  have hmem := h.left w tid (.inl hw)
  have hbefore : p.destroy.afterJoin = false := by
    by_contra hafter
    rw [Bool.not_eq_false] at hafter
    rw [(h.all hafter).1] at hmem
    cases hmem
  have hret : p.destroy ≠ .returned := by
    intro heq
    rw [heq] at hbefore
    cases hbefore
  rw [touch_eq (h.freed_eq_zero hret)]
  have hsame : ∀ x y, y ≠ .unlocking tid → y ≠ .leaving tid →
      ((p.setWorker w (.leaving tid)).worker x = y ↔ p.worker x = y) := fun x y hy hy' =>
    setWorker_worker_iff (fun heq => hy (heq.symm.trans hw)) hy'.symm
  refine
    { h with
      chained := fun front x rest hsplit hx => ?_
      left := fun x tid' hx => ?_
      ended := fun x => (hsame x _ (by simp) (by simp)).trans (h.ended x)
      caller := fun x hx => ?_
      called := fun x hx => ?_
      waiting := fun hterm x hx =>
        h.waiting hterm x ((hsame x _ (by simp) (by simp)).mp hx)
      freed := freed_of_ne_returned (h.freed_eq_zero hret) hret
      awake := fun _ _ _ => ⟨w, by simp⟩ }
  · have hold := h.chained front x rest hsplit hx
    rcases eq_or_ne x w with rfl | hne
    · rw [setWorker_worker_self]
      rw [hw] at hold
      simpa using hold
    · rwa [setWorker_worker_of_ne hne]
  · rcases eq_or_ne x w with rfl | hne
    · exact hmem
    · rw [setWorker_worker_of_ne hne] at hx
      exact h.left x tid' hx
  · rcases h.caller x hx with ⟨-, hpc⟩ | ⟨heq, -⟩
    · exact .inl ⟨hret, (hsame x _ (by simp) (by simp)).mpr hpc⟩
    · exact absurd heq hret
  · refine h.called x ?_
    rwa [hsame x _ (by simp) (by simp), hsame x _ (by simp) (by simp),
      hsame x _ (by simp) (by simp)] at hx

/-- A thread comes to its end when the next one in the chain is at its end: it is the last one that
was not. -/
theorem ThrdInv.end_of_chain {tid : Option ω} (h : ThrdInv p act done)
    (hw : p.worker w = .leaving tid) (hnext : ∀ v, tid = some v → p.worker v = .ended) :
    ∃ front, act = front ++ [w] ∧ tid = done.head? := by
  have hmem := h.left w tid (.inr hw)
  obtain ⟨front, rest, rfl⟩ := List.append_of_mem hmem
  have hhead := h.chained front w (rest ++ done) (by simp) hmem
  rw [hw] at hhead
  have htid : tid = (rest ++ done).head? := by simpa using hhead
  cases rest with
  | nil => exact ⟨front, rfl, htid⟩
  | cons u rest =>
      have hu := (h.ended u).mp (hnext u htid)
      have hnodup := h.nodup
      have hdisjoint := (List.nodup_append.mp hnodup).2.2
      exact absurd rfl (hdisjoint u (by simp) u hu)

theorem ThrdInv.join {tid : Option ω} (h : ThrdInv p act done) (hw : p.worker w = .leaving tid)
    (hnext : ∀ v, tid = some v → p.worker v = .ended) :
    ∃ act' done', ThrdInv ({ p with joined := tid.toList ++ p.joined }.setWorker w .ended) act'
      done' := by
  obtain ⟨front, rfl, htid⟩ := h.end_of_chain hw hnext
  have hmem : w ∈ front ++ [w] := by simp
  have hbefore : p.destroy.afterJoin = false := by
    by_contra hafter
    rw [Bool.not_eq_false] at hafter
    rw [(h.all hafter).1] at hmem
    cases hmem
  have hret : p.destroy ≠ .returned := by
    intro heq
    rw [heq] at hbefore
    cases hbefore
  have hsame : ∀ x y, y ≠ .leaving tid → y ≠ .ended →
      ((p.setWorker w .ended).worker x = y ↔ p.worker x = y) := fun x y hy hy' =>
    setWorker_worker_iff (fun heq => hy (heq.symm.trans hw)) hy'.symm
  have hchain : (front ++ [w]) ++ done = front ++ (w :: done) := by simp
  have hnodup := h.nodup
  rw [hchain] at hnodup
  have hfront : w ∉ front := fun hx =>
    absurd rfl ((List.nodup_append.mp hnodup).2.2 w hx w List.mem_cons_self)
  refine ⟨front, w :: done,
    { h with
      tid := by rw [← hchain]; exact h.tid
      nodup := hnodup
      chained := fun pre x rest hsplit hx => ?_
      left := fun x tid' hx => ?_
      ended := fun x => ?_
      count := by rw [← hchain]; exact h.count
      caller := fun x hx => ?_
      called := fun x hx => ?_
      waiting := fun hterm x hx =>
        h.waiting hterm x ((hsame x _ (by simp) (by simp)).mp hx)
      early := fun heq => by simp [(h.early heq).1] at hmem
      joined := fun _ => ?_
      all := fun heq => by cases hbefore.symm.trans heq
      freed := freed_of_ne_returned (h.freed_eq_zero hret) hret
      awake := fun _ _ _ => ⟨w, by simp⟩ }⟩
  · show (p.setWorker w .ended).worker x = _ ∨ (p.setWorker w .ended).worker x = _
    have hne : x ≠ w := fun heq => hfront (heq ▸ hx)
    rw [setWorker_worker_of_ne hne]
    exact h.chained pre x rest (by rw [hchain, hsplit]) (List.mem_append_left [w] hx)
  · have hx' : (p.setWorker w .ended).worker x = .unlocking tid' ∨
        (p.setWorker w .ended).worker x = .leaving tid' := hx
    rcases eq_or_ne x w with rfl | hne
    · simp at hx'
    · rw [setWorker_worker_of_ne hne] at hx'
      have hold := h.left x tid' hx'
      simpa [hne] using hold
  · show (p.setWorker w .ended).worker x = .ended ↔ _
    rcases eq_or_ne x w with rfl | hne
    · simp
    · rw [setWorker_worker_of_ne hne, h.ended x, List.mem_cons, or_iff_right hne]
  · rcases h.caller x hx with ⟨-, hpc⟩ | ⟨heq, -⟩
    · exact .inl ⟨hret, (hsame x _ (by simp) (by simp)).mpr hpc⟩
    · exact absurd heq hret
  · refine h.called x ?_
    have hx' : (p.setWorker w .ended).worker x = .destroying ∨
        (p.setWorker w .ended).worker x = .returned ∨
        (p.setWorker w .ended).worker x = .released := hx
    rwa [hsame x _ (by simp) (by simp), hsame x _ (by simp) (by simp),
      hsame x _ (by simp) (by simp)] at hx'
  · show tid.toList ++ p.joined = done
    rw [h.joined hbefore, htid]
    cases done <;> rfl

/-! ### Destroying -/

/-- A task returns to the loop: the pool still counts this thread. -/
theorem ThrdInv.finish (h : ThrdInv p act done) (hw : p.worker w = .running task) :
    ThrdInv (p.finish w) act done := by
  have hloop : (p.worker w).inLoop = true := by
    rw [hw]
    rfl
  have hpos := h.nthreads_pos hloop
  unfold Thrdpool.finish
  rw [touch_eq (h.freed_eq_zero (ne_returned (h.not_late hpos)))]
  dsimp only
  rw [if_neg (Nat.pos_iff_ne_zero.mp hpos)]
  exact h.move hloop rfl (fun heq => by cases heq)

/-- The thread whose task destroyed the pool goes on, outside of the chain. -/
theorem ThrdInv.moveCaller {freed : Nat} (h : ThrdInv p act done) (hcaller : p.caller = some w)
    (hpc : pc = .returned ∨ pc = .released)
    (hafter : p.destroy.afterJoin = true) (hempty : p.taskQueue = [])
    (hfreed : freed = if pc = .released then 1 else 0) :
    ThrdInv { p.setWorker w pc with destroy := .returned, freed := freed } act done := by
  have hold := h.caller w hcaller
  have hsame : ∀ x y, y ≠ .destroying → y ≠ .returned → y ≠ .released →
      ((p.setWorker w pc).worker x = y ↔ p.worker x = y) := by
    intro x y hy hy' hy''
    refine setWorker_worker_iff ?_ ?_
    · rintro rfl
      rcases hold with ⟨-, heq⟩ | ⟨-, heq | heq⟩
      · exact hy heq
      · exact hy' heq
      · exact hy'' heq
    · rintro rfl
      rcases hpc with heq | heq
      · exact hy' heq
      · exact hy'' heq
  have hcalled : p.destroy ≠ .notCalled := by
    intro heq
    rw [heq] at hafter
    cases hafter
  have hterm : p.terminate = true := h.terminate.mpr hcalled
  refine
    { h with
      chained := fun front x rest hsplit hx => ?_
      left := fun x tid hx => h.left x tid (hx.imp (hsame x _ (by simp) (by simp) (by simp)).mp
        (hsame x _ (by simp) (by simp) (by simp)).mp)
      ended := fun x => (hsame x _ (by simp) (by simp) (by simp)).trans (h.ended x)
      caller := fun x hx => ?_
      called := fun x hx => ?_
      terminate := ⟨fun _ => by simp, fun _ => hterm⟩
      waiting := fun _ x hx =>
        h.waiting hterm x ((hsame x _ (by simp) (by simp) (by simp)).mp hx)
      early := fun heq => by cases heq
      asleep := fun heq => by cases heq
      late := fun _ => h.late ?_
      joined := fun heq => by cases heq
      all := fun _ => h.all hafter
      pended := fun heq => by cases heq
      empty := fun _ => hempty
      freed := ?_
      awake := fun heq => by cases hterm.symm.trans heq }
  · exact (h.chained front x rest hsplit hx).imp (hsame x _ (by simp) (by simp) (by simp)).mpr
      (hsame x _ (by simp) (by simp) (by simp)).mpr
  · obtain rfl : w = x := Option.some.inj (hcaller.symm.trans hx)
    refine .inr ⟨rfl, ?_⟩
    show (p.setWorker w pc).worker w = _ ∨ (p.setWorker w pc).worker w = _
    rwa [setWorker_worker_self]
  · rcases eq_or_ne x w with rfl | hne
    · exact hcaller
    · refine h.called x ?_
      have hx' : (p.setWorker w pc).worker x = .destroying ∨
        (p.setWorker w pc).worker x = .returned ∨ (p.setWorker w pc).worker x = .released := hx
      rwa [setWorker_worker_of_ne hne] at hx'
  · cases hdestroy : p.destroy <;> simp [hdestroy, DestroyPc.late, DestroyPc.afterJoin] at hafter ⊢
  · refine hfreed.trans ?_
    simp [Thrdpool.gone, Thrdpool.setWorker, hcaller]

/-- The thread whose task destroyed the pool frees it. -/
theorem ThrdInv.release (h : ThrdInv p act done) (hw : p.worker w = .returned) :
    ThrdInv (p.finish w) act done := by
  have hcaller := h.called w (.inr (.inl hw))
  have hret : p.destroy = .returned := by
    rcases h.caller w hcaller with ⟨-, hpc⟩ | ⟨heq, -⟩
    · cases hw.symm.trans hpc
    · exact heq
  have hfreed : p.freed = 0 := by
    rw [h.freed]
    simp [Thrdpool.gone, hcaller, hw]
  have hzero : p.nthreads = 0 := h.late (by rw [hret]; rfl)
  unfold Thrdpool.finish
  rw [touch_eq hfreed]
  dsimp only
  rw [if_pos hzero]
  exact hret ▸ h.moveCaller hcaller (.inr rfl) (by rw [hret]; rfl) (h.empty hret)
    (show p.freed + 1 = _ by simp [hfreed])

/-- Before the pool is destroyed all threads are in their loops. -/
theorem ThrdInv.inLoop_of_notCalled (h : ThrdInv p act done) (hnot : p.destroy = .notCalled)
    (v : ω) : (p.worker v).inLoop = true := by
  obtain ⟨rfl, rfl, hcaller⟩ := h.early hnot
  have hcalled := h.called v
  rw [hcaller] at hcalled
  cases hpc : p.worker v with
  | ready | waiting | running _ => rfl
  | destroying | returned | released => simp [hpc] at hcalled
  | unlocking tid => exact absurd (h.left v tid (.inl hpc)) List.not_mem_nil
  | leaving tid => exact absurd (h.left v tid (.inr hpc)) List.not_mem_nil
  | ended => exact absurd ((h.ended v).mp hpc) List.not_mem_nil

/-- The section of `__thrdpool_terminate`: nobody sleeps any more, and the caller is not counted. -/
theorem ThrdInv.begin (h : ThrdInv p act done) (hnot : p.destroy = .notCalled)
    (caller : Option ω) {detached : List ω} (hdetached : detached = caller.toList)
    (worker : ω → ThreadPc ω τ) (n : Nat)
    (hcaller : ∀ v, caller = some v → worker v = .destroying)
    (hothers : ∀ v, caller ≠ some v → (worker v).inLoop = true ∧ worker v ≠ .waiting)
    (hcount : n + detached.length = Fintype.card ω) :
    ThrdInv { p with
      terminate := true, caller := caller, detached := detached, nthreads := n,
      worker := worker, destroy := if 0 < n then .asleep else .unlocked } [] [] := by
  obtain ⟨rfl, rfl, -⟩ := h.early hnot
  have hbefore : p.destroy.afterJoin = false := by
    rw [hnot]
    rfl
  have hret : p.destroy ≠ .returned := by simp [hnot]
  have hplace : ∀ v, worker v = .destroying ∧ caller = some v ∨
      (worker v).inLoop = true ∧ worker v ≠ .waiting := by
    intro v
    by_cases hv : caller = some v
    · exact .inl ⟨hcaller v hv, hv⟩
    · exact .inr (hothers v hv)
  have hd : ∀ d, (if 0 < n then DestroyPc.asleep else .unlocked) = d → d ≠ .notCalled ∧
      d.afterJoin = false ∧ d ≠ .returned := by
    rintro d rfl
    split <;> simp [DestroyPc.afterJoin]
  refine
    { h with
      tid := h.tid
      left := fun v tid hv => ?_
      ended := fun v => ?_
      count := by simpa using hcount
      detached := hdetached
      caller := fun v hv => .inl ⟨(hd _ rfl).2.2, hcaller v hv⟩
      called := fun v hv => ?_
      chained := by simp
      terminate := ⟨fun _ => (hd _ rfl).1, fun _ => rfl⟩
      waiting := fun _ v hv => ?_
      early := fun heq => absurd rfl (hd _ heq).1
      asleep := fun heq => ?_
      late := fun heq => ?_
      joined := fun _ => h.joined hbefore
      all := fun heq => by cases (hd _ rfl).2.1.symm.trans heq
      pended := fun _ => h.pended hbefore
      empty := fun heq => absurd rfl (hd _ heq).2.2
      freed := freed_of_ne_returned (h.freed_eq_zero hret) (hd _ rfl).2.2
      awake := fun heq => by cases heq }
  · rcases hplace v with ⟨hpc, -⟩ | ⟨hpc, -⟩
    · rcases hv with hv | hv <;> cases hpc.symm.trans hv
    · rcases hv with hv | hv <;> simp [show worker v = _ from hv, ThreadPc.inLoop] at hpc
  · refine ⟨fun hv => ?_, fun hv => absurd hv List.not_mem_nil⟩
    rcases hplace v with ⟨hpc, -⟩ | ⟨hpc, -⟩
    · cases hpc.symm.trans hv
    · simp [show worker v = _ from hv, ThreadPc.inLoop] at hpc
  · rcases hplace v with ⟨-, hv'⟩ | ⟨hpc, -⟩
    · exact hv'
    · rcases hv with hv | hv | hv <;> simp [show worker v = _ from hv, ThreadPc.inLoop] at hpc
  · rcases hplace v with ⟨hpc, -⟩ | ⟨-, hpc⟩
    · cases hpc.symm.trans hv
    · exact hpc hv
  · by_contra hnot'
    rw [if_neg hnot'] at heq
    cases heq
  · by_contra hne
    rw [if_pos (Nat.pos_of_ne_zero hne)] at heq
    cases heq

theorem ThrdInv.destroy (h : ThrdInv p act done) (hnot : p.destroy = .notCalled)
    {caller : Option ω} (hcaller : ∀ w, caller = some w → ∃ task, p.worker w = .running task) :
    ThrdInv (p.terminateSection caller).termLoop [] [] := by
  have hloop := h.inLoop_of_notCalled hnot
  obtain ⟨rfl, rfl, hnone⟩ := h.early hnot
  have hdetached : p.detached = [] := by
    rw [h.detached, hnone]
    rfl
  have hcount := h.count
  rw [hdetached] at hcount
  have hbroadcast : ∀ v, (p.broadcast.worker v).inLoop = true ∧ p.broadcast.worker v ≠ .waiting := by
    intro v
    simp only [Thrdpool.broadcast]
    split
    · simp [ThreadPc.inLoop]
    · rename_i hv
      exact ⟨hloop v, hv⟩
  unfold Thrdpool.terminateSection
  rw [touch_eq (h.freed_eq_zero (by simp [hnot]))]
  cases caller with
  | none =>
      exact h.begin hnot none hdetached p.broadcast.worker p.nthreads (fun v hv => by cases hv)
        (fun v _ => hbroadcast v) (by simpa [hdetached] using hcount)
  | some w =>
      obtain ⟨task, hw⟩ := hcaller w rfl
      have hpos := h.nthreads_pos (hloop w)
      refine h.begin hnot (some w) (show w :: p.detached = [w] by rw [hdetached])
        (Function.update p.broadcast.worker w .destroying) (p.nthreads - 1) (fun v hv => ?_)
        (fun v hv => ?_) ?_
      · obtain rfl := Option.some.inj hv
        exact Function.update_self _ _ _
      · have hne : v ≠ w := by
          rintro rfl
          exact hv rfl
        rw [Function.update_of_ne hne]
        exact hbroadcast v
      · simp only [hdetached, List.append_nil, List.length_nil, List.length_singleton] at hcount ⊢
        omega

/-- `thrdpool_destroy` goes on before its join. -/
theorem ThrdInv.setDestroy {d : DestroyPc} (h : ThrdInv p act done)
    (hold : p.destroy ≠ .notCalled) (hbefore : p.destroy.afterJoin = false)
    (hcalled : d ≠ .notCalled) (hafter : d.afterJoin = false)
    (hasleep : d = .asleep → 0 < p.nthreads) (hlate : d.late = true → p.nthreads = 0) :
    ThrdInv { p with destroy := d } act done := by
  have hret : p.destroy ≠ .returned := by
    intro heq
    rw [heq] at hbefore
    cases hbefore
  have hret' : d ≠ .returned := by
    rintro rfl
    cases hafter
  exact
    { h with
      caller := fun w hw =>
        .inl ⟨hret', ((h.caller w hw).resolve_right fun hnot => hret hnot.1).2⟩
      terminate := ⟨fun _ => hcalled, fun _ => h.terminate.mpr hold⟩
      early := fun heq => absurd heq hcalled
      asleep := hasleep
      late := hlate
      joined := fun _ => h.joined hbefore
      all := fun heq => by cases hafter.symm.trans heq
      pended := fun _ => h.pended hbefore
      empty := fun heq => absurd heq hret'
      freed := freed_of_ne_returned (h.freed_eq_zero hret) hret' }

theorem ThrdInv.termLoop (h : ThrdInv p act done) (hwoken : p.destroy = .woken) :
    ThrdInv p.touch.termLoop act done := by
  rw [touch_eq (h.freed_eq_zero (by simp [hwoken]))]
  unfold Thrdpool.termLoop
  refine h.setDestroy (by simp [hwoken]) (by rw [hwoken]; rfl) ?_ ?_ ?_ ?_
  · split <;> simp
  · split <;> rfl
  · split
    · exact fun _ => ‹_›
    · exact fun heq => by cases heq
  · split
    · exact fun heq => by cases heq
    · rename_i hzero
      exact fun _ => Nat.eq_zero_of_not_pos hzero

/-- The last join: the thread whose id is in the pool is at its end, and so are all others. -/
theorem ThrdInv.termJoin (h : ThrdInv p act done) (hjoining : p.destroy = .joining)
    (hnext : ∀ v, p.tid = some v → p.worker v = .ended) {joined : List ω}
    (hjoined : joined = p.tid.toList ++ p.joined) :
    ThrdInv { p with destroy := .draining, joined := joined } act done := by
  have hbefore : p.destroy.afterJoin = false := by
    rw [hjoining]
    rfl
  have hret : p.destroy ≠ .returned := by simp [hjoining]
  have hall : act = [] ∧ joined = done := by
    have htid := h.tid
    rw [hjoined]
    cases act with
    | nil =>
        refine ⟨rfl, ?_⟩
        rw [htid, h.joined hbefore, List.nil_append]
        cases done <;> rfl
    | cons u act =>
        have hu := (h.ended u).mp (hnext u htid)
        exact absurd rfl ((List.nodup_append.mp h.nodup).2.2 u List.mem_cons_self u hu)
  exact
    { h with
      caller := fun w hw =>
        .inl ⟨by simp, ((h.caller w hw).resolve_right fun hnot => hret hnot.1).2⟩
      terminate := ⟨fun _ => by simp, fun _ => h.terminate.mpr (by simp [hjoining])⟩
      early := fun heq => by cases heq
      asleep := fun heq => by cases heq
      late := fun _ => h.late (by rw [hjoining]; rfl)
      joined := fun heq => by cases heq
      all := fun _ => hall
      pended := fun heq => by cases heq
      empty := fun heq => by cases heq
      freed := freed_of_ne_returned (h.freed_eq_zero hret) (by simp) }

theorem ThrdInv.pending {rest : List τ} (h : ThrdInv p act done) (hdraining : p.destroy = .draining)
    (hqueue : p.taskQueue = task :: rest) :
    ThrdInv { p.touch with taskQueue := rest, pended := p.pended ++ [task] } act done := by
  have hret : p.destroy ≠ .returned := by simp [hdraining]
  rw [touch_eq (h.freed_eq_zero hret)]
  have hfifo := h.fifo
  have hterm : p.terminate = true := h.terminate.mpr (by simp [hdraining])
  rw [hqueue] at hfifo
  exact
    { h with
      fifo := by
        show p.scheduled = p.started ++ (p.pended ++ [task]) ++ rest
        rw [hfifo]
        simp
      pended := fun heq => by rw [hdraining] at heq; cases heq
      empty := fun heq => absurd heq hret
      awake := fun heq => by cases hterm.symm.trans heq }

theorem ThrdInv.destroyEnd (h : ThrdInv p act done) (hdraining : p.destroy = .draining)
    (hqueue : p.taskQueue = []) : ThrdInv p.destroyEnd act done := by
  have hret : p.destroy ≠ .returned := by simp [hdraining]
  have hafter : p.destroy.afterJoin = true := by
    rw [hdraining]
    rfl
  have hfreed := h.freed_eq_zero hret
  unfold Thrdpool.destroyEnd
  rw [touch_eq hfreed]
  dsimp only
  split
  · rename_i w hcaller
    exact h.moveCaller hcaller (.inl rfl) hafter hqueue (show p.freed = _ by simp [hfreed])
  · rename_i hcaller
    refine
      { h with
        caller := fun w hw => ?_
        terminate := ⟨fun _ => by simp, fun _ => h.terminate.mpr (by simp [hdraining])⟩
        early := fun heq => by cases heq
        asleep := fun heq => by cases heq
        late := fun _ => h.late (by rw [hdraining]; rfl)
        joined := fun heq => by cases heq
        all := fun _ => h.all hafter
        pended := fun heq => by cases heq
        empty := fun _ => hqueue
        freed := ?_ }
    · cases (show p.caller = none from hcaller).symm.trans hw
    · show p.freed + 1 = _
      simp [Thrdpool.gone, show p.caller = none from hcaller, hfreed]

/-! ### Every run -/

theorem ThrdInv.exec {fuel : Nat} {op : ThrdpoolOp ω τ} (h : ThrdInv p act done)
    (hstep : p.exec fuel op = some p') : ∃ act' done', ThrdInv p' act' done' := by
  cases op with
  | schedule task woken =>
      obtain ⟨hnot, hstep⟩ := Option.ite_none_right_eq_some.mp hstep
      exact ⟨act, done, h.schedule (by rw [hnot]; rfl) hstep⟩
  | scheduleFrom w task woken =>
      simp only [Thrdpool.exec] at hstep
      split at hstep
      · rename_i hw
        have hpos := h.nthreads_pos (w := w) (by rw [hw]; rfl)
        exact ⟨act, done, h.schedule (h.not_late hpos) hstep⟩
      · cases hstep
  | loopSection w =>
      obtain ⟨hw, hstep⟩ := Option.ite_none_right_eq_some.mp hstep
      obtain rfl := Option.some.inj hstep
      cases hterm : p.terminate with
      | true => exact ⟨w :: act, done, h.leave hw hterm⟩
      | false => exact ⟨act, done, h.take hw hterm⟩
  | wake w =>
      obtain ⟨hw, hstep⟩ := Option.ite_none_right_eq_some.mp hstep
      exact ⟨act, done, Option.some.inj hstep ▸ h.wake hw⟩
  | finish w =>
      simp only [Thrdpool.exec] at hstep
      split at hstep
      · rename_i hw
        exact ⟨act, done, Option.some.inj hstep ▸ h.finish hw⟩
      · rename_i hw
        exact ⟨act, done, Option.some.inj hstep ▸ h.release hw⟩
      · cases hstep
  | unlock w =>
      simp only [Thrdpool.exec] at hstep
      split at hstep
      · rename_i hw
        exact ⟨act, done, Option.some.inj hstep ▸ h.unlock hw⟩
      · cases hstep
  | join w =>
      simp only [Thrdpool.exec] at hstep
      split at hstep
      · rename_i hw
        obtain rfl := Option.some.inj hstep
        exact h.join hw (fun v hv => by cases hv)
      · rename_i v hw
        obtain ⟨hv, hstep⟩ := Option.ite_none_right_eq_some.mp hstep
        obtain rfl := Option.some.inj hstep
        exact h.join hw (fun u hu => Option.some.inj hu ▸ hv)
      · cases hstep
  | destroy caller =>
      obtain ⟨hnot, hstep⟩ := Option.ite_none_right_eq_some.mp hstep
      split at hstep
      · obtain rfl := Option.some.inj hstep
        exact ⟨[], [], h.destroy hnot (fun w hw => by cases hw)⟩
      · rename_i w
        split at hstep
        · rename_i task hw
          obtain rfl := Option.some.inj hstep
          exact ⟨[], [], h.destroy hnot (fun v hv => ⟨task, Option.some.inj hv ▸ hw⟩)⟩
        · cases hstep
  | termWake =>
      obtain ⟨hasleep, hstep⟩ := Option.ite_none_right_eq_some.mp hstep
      obtain rfl := Option.some.inj hstep
      exact ⟨act, done, h.setDestroy (by simp [hasleep]) (by rw [hasleep]; rfl) (by simp) rfl
        (fun heq => by cases heq) (fun heq => by cases heq)⟩
  | termSection =>
      obtain ⟨hwoken, hstep⟩ := Option.ite_none_right_eq_some.mp hstep
      exact ⟨act, done, Option.some.inj hstep ▸ h.termLoop hwoken⟩
  | termTid =>
      obtain ⟨hunlocked, hstep⟩ := Option.ite_none_right_eq_some.mp hstep
      obtain rfl := Option.some.inj hstep
      rw [touch_eq (h.freed_eq_zero (by simp [hunlocked]))]
      exact ⟨act, done, h.setDestroy (by simp [hunlocked]) (by rw [hunlocked]; rfl) (by simp) rfl
        (fun heq => by cases heq) (fun _ => h.late (by rw [hunlocked]; rfl))⟩
  | termJoin =>
      obtain ⟨hjoining, hstep⟩ := Option.ite_none_right_eq_some.mp hstep
      rw [touch_eq (h.freed_eq_zero (by simp [hjoining]))] at hstep
      split at hstep
      · rename_i htid
        obtain rfl := Option.some.inj hstep
        exact ⟨act, done, h.termJoin hjoining (fun v hv => by cases htid.symm.trans hv)
          (by rw [htid]; rfl)⟩
      · rename_i v htid
        obtain ⟨hv, hstep⟩ := Option.ite_none_right_eq_some.mp hstep
        obtain rfl := Option.some.inj hstep
        exact ⟨act, done, h.termJoin hjoining
          (fun u hu => Option.some.inj (htid.symm.trans hu) ▸ hv) (by rw [htid]; rfl)⟩
  | pending =>
      simp only [Thrdpool.exec] at hstep
      split at hstep
      · rename_i task rest hdraining hqueue
        exact ⟨act, done, Option.some.inj hstep ▸ h.pending hdraining hqueue⟩
      · cases hstep
  | destroyed =>
      simp only [Thrdpool.exec] at hstep
      split at hstep
      · rename_i hdraining hqueue
        exact ⟨act, done, Option.some.inj hstep ▸ h.destroyEnd hdraining hqueue⟩
      · cases hstep

theorem thrdInv_reachable (h : Reachable (Thrdpool.machine ω τ) (fun _ _ => True) p) :
    ∃ act done, ThrdInv p act done := by
  refine h.invariant (P := fun q => ∃ act done, ThrdInv q act done) ?_ ?_
  · rintro _ rfl
    exact ⟨[], [], thrdInv_create⟩
  · rintro s op t ⟨act, done, hinv⟩ - ⟨fuel, hstep⟩
    exact hinv.exec hstep

end Workflow.Kernel

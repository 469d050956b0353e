/-
Module: Workflow.Proofs.PollerRuns
Layer: Proofs
Purpose: The poller in whole runs: every operation keeps the containers, the table of files and the
  armed timer right, a thread that waits has a timer that will go off, and `__poller_handle_timeout`
  passes on exactly what has timed out.
Trusted boundary: none
Main exports: treeInsert_represents, treeErase_represents, Table, Inv, StepOk, exec_inv, Calm,
  exec_watched, handleTimeout_spec, poller_timers
-/
import Workflow.Proofs.PollerTimers
import Workflow.Proofs.Rbtree

namespace Workflow.Kernel

open Workflow.Lib

open Timespec

namespace Poller

variable {s : Poller} {n : Nat} {loose : List Nat} {ops : TreeOps Nat}

/-! ### The red-black tree -/

section Memory

variable {t : RbTree Nat} {fuel k : Nat}

/-- What `__poller_tree_insert` does with the nodes in memory is what `treeInsert` says. -/
theorem treeInsert_represents (hops : ops.Lawful) (h : Timers s (n :: loose)) (hready : Ready s n)
    (ht : t.Represents s.timeoTree) (hlength : s.timeoTree.inorder.length ≤ k)
    (hfuel : 2 * Nat.log 2 (k + 1) + 2 ≤ fuel) :
    ∃ t', rbInsert fuel (fun entry => decide (timeoutCmp (s.timeout n) (s.timeout entry) < 0)) n t =
        some t' ∧
      t'.Represents (s.treeInsert n ops).timeoTree := by
  have hcmp : ∀ m ∈ s.timeoTree.inorder,
      (timeoutCmp (s.timeout n) (s.timeout m) < 0 ↔ ¬ s.timeout m ≤ s.timeout n) := fun m hm =>
    have hm' := mem_pending.mpr (.inr hm)
    timeoutCmp_lt_zero hready.valid (h.valid m hm') (hready.near m hm')
  refine ht.insert hops h.loose_free.2.1 (h.sortedTree.imp_of_mem fun ha hb hle hlt => ?_) hlength
    hfuel
  rw [decide_eq_true_iff] at hlt ⊢
  exact (hcmp _ hb).mpr fun hback => (hcmp _ ha).mp hlt (le_trans hle hback)

/-- And so is what `__poller_tree_erase` does, with the successor that becomes the first node. -/
theorem treeErase_represents (hops : ops.Lawful) (ht : t.Represents s.timeoTree)
    (hn : n ∈ s.timeoTree.inorder) (hlength : s.timeoTree.inorder.length ≤ k)
    (hfuel : 2 * Nat.log 2 (k + 1) + 2 ≤ fuel) :
    rbNext fuel n t = some (ops.next s.timeoTree n) ∧
      ∃ t', rbErase fuel n t = some t' ∧ t'.Represents (s.treeErase n ops).timeoTree :=
  ⟨ht.next hops hn hlength hfuel, ht.erase hops hn hlength hfuel⟩

end Memory

/-! ### Handing nodes over -/

/-- A node in hand is given to the callback. -/
theorem callback_timers (h : Timers s (n :: loose)) (state : ResultState) :
    Timers (s.callback n state) loose := by
  refine h.of_heap (s.callback n state) ⟨rfl, rfl, rfl, rfl⟩ ⟨rfl, rfl⟩ (fun _ _ => rfl)
    (fun m => ?_)
  change _ = if m < s.next then 1 else 0
  rw [← h.held m]
  simp only [callback, Poller.held, List.map_append, List.map_cons, List.map_nil,
    List.count_append, List.count_cons, List.count_nil]
  omega

/-- A node in hand is given to the callback, at once or through the pipe. -/
theorem handOver_timers (h : Timers s (n :: loose)) (state : ResultState) :
    Timers (s.handOver n state) loose ∧ (s.handOver n state).contained = s.contained ∧
      (s.handOver n state).pending = s.pending ∧ (s.handOver n state).nodes = s.nodes ∧
      (∀ m, m ≠ n → (s.handOver n state).heap m = s.heap m) ∧
      ∀ m, ((s.handOver n state).heap m).data = (s.heap m).data := by
  unfold handOver
  split
  · exact ⟨callback_timers h state, rfl, rfl, rfl, fun _ _ => rfl, fun _ => rfl⟩
  · have h₁ := h.setNode { s.heap n with removed := true }
    refine ⟨⟨⟨fun m => ?_, h₁.sortedList, h₁.sortedTree, h₁.first, h₁.listFlags, h₁.treeFlags,
      h₁.noTimeoFlags, fun m hm => ?_, h₁.valid, h₁.near⟩, h₁.armed⟩, rfl, rfl, rfl,
      fun m hne => setNode_heap_of_ne hne _, fun m => ?_⟩
    · change _ = if m < s.next then 1 else 0
      rw [← h.held m]
      simp only [setNode, Poller.held, List.map_append, List.map_cons, List.map_nil,
        List.count_append, List.count_cons, List.count_nil]
      omega
    · rw [List.map_append, List.mem_append] at hm
      rcases hm with hm | hm
      · exact h₁.pipeFlags m hm
      · rw [List.map_singleton, List.mem_singleton] at hm
        rw [hm]
        exact congrArg PollerNode.removed (setNode_heap_self _)
    · rcases eq_or_ne m n with rfl | hne
      · change ((s.setNode m _).heap m).data = _
        rw [setNode_heap_self]
      · exact congrArg PollerNode.data (setNode_heap_of_ne hne _)

/-- The nodes in the pipe are given to the callback. -/
theorem handlePipe_timers (h : Timers s loose) (count : Nat) :
    Timers (s.handlePipe count) loose := by
  refine ⟨⟨fun m => ?_, h.sortedList, h.sortedTree, h.first, h.listFlags, h.treeFlags,
    h.noTimeoFlags, fun m hm => ?_, h.valid, h.near⟩, h.armed⟩
  · have hsplit : (s.pipe.map Prod.fst).count m =
        ((s.pipe.take count).map Prod.fst).count m + ((s.pipe.drop count).map Prod.fst).count m := by
      rw [← List.count_append, ← List.map_append, List.take_append_drop]
    change _ = if m < s.next then 1 else 0
    rw [← h.held m]
    simp only [handlePipe, Poller.held, List.map_append, List.count_append]
    omega
  · refine h.pipeFlags m ?_
    obtain ⟨entry, hentry, rfl⟩ := List.mem_map.mp hm
    exact List.mem_map_of_mem (List.mem_of_mem_drop hentry)

/-- `__poller_set_timer` sets the timer to the first timeout, and disarms it if there is none. -/
theorem setTimer_spec (h : Timers s loose) :
    (s.pending = [] ∧ s.setTimer = { s with armed := none, fired := false }) ∨
      ∃ k ∈ s.pending, (∀ m ∈ s.pending, s.timeout k ≤ s.timeout m) ∧
        s.setTimer = { s with armed := some (s.timeout k), fired := false } := by
  have hset : ∀ k, k ∈ s.pending → s.setTimer = s.setTimerfd (s.timeout k) →
      (∀ m, s.timeoList.head? = some m → s.timeout k ≤ s.timeout m) →
      (∀ m, s.treeFirst = some m → s.timeout k ≤ s.timeout m) →
      ∃ k ∈ s.pending, (∀ m ∈ s.pending, s.timeout k ≤ s.timeout m) ∧
        s.setTimer = { s with armed := some (s.timeout k), fired := false } :=
    fun k hk heq hlist htree => ⟨k, hk, h.le_of_heads hlist htree,
      by rw [heq, setTimerfd_of_valid (h.valid k hk)]⟩
  have hhead : ∀ m, s.timeoList.head? = some m → m ∈ s.pending := fun m hm =>
    mem_pending.mpr (.inl (List.mem_of_mem_head? hm))
  have hfirst : ∀ m, s.treeFirst = some m → m ∈ s.pending := fun m hm =>
    mem_pending.mpr (.inr (List.mem_of_mem_head? (h.first ▸ hm)))
  rcases Option.eq_none_or_eq_some s.treeFirst with htree | ⟨f, htree⟩ <;>
    rcases Option.eq_none_or_eq_some s.timeoList.head? with hlist | ⟨k, hlist⟩
  · have hzero : s.setTimer = s.setTimerfd { sec := 0, nsec := 0 } := by
      simp only [setTimer, htree, hlist]
    refine .inl ⟨?_, hzero.trans rfl⟩
    rw [h.first, List.head?_eq_none_iff] at htree
    rw [pending, htree, List.head?_eq_none_iff.mp hlist]
    rfl
  · refine .inr (hset k (hhead k hlist) (by simp only [setTimer, htree, hlist])
      (fun m hm => ?_) (fun m hm => ?_))
    · rw [Option.some.inj (hlist.symm.trans hm)]
      exact le_refl _
    · rw [htree] at hm
      cases hm
  · refine .inr (hset f (hfirst f htree) (by simp only [setTimer, htree, hlist])
      (fun m hm => ?_) (fun m hm => ?_))
    · rw [hlist] at hm
      cases hm
    · rw [Option.some.inj (htree.symm.trans hm)]
      exact le_refl _
  · have hcmp := timeoutCmp_lt_zero (h.valid f (hfirst f htree)) (h.valid k (hhead k hlist))
      (h.near f (hfirst f htree) k (hhead k hlist))
    by_cases hlt : timeoutCmp (s.timeout f) (s.timeout k) < 0
    · refine .inr (hset f (hfirst f htree)
        (by simp only [setTimer, htree, hlist, if_pos hlt]) (fun m hm => ?_) (fun m hm => ?_))
      · rw [← Option.some.inj (hlist.symm.trans hm)]
        exact le_of_not_le (hcmp.mp hlt)
      · rw [Option.some.inj (htree.symm.trans hm)]
        exact le_refl _
    · refine .inr (hset k (hhead k hlist)
        (by simp only [setTimer, htree, hlist, if_neg hlt]) (fun m hm => ?_) (fun m hm => ?_))
      · rw [Option.some.inj (hlist.symm.trans hm)]
        exact le_refl _
      · rw [← Option.some.inj (htree.symm.trans hm)]
        by_contra hnot
        exact hlt (hcmp.mpr hnot)

/-- The poller thread goes to wait, or comes back. -/
theorem Timers.setWaiting (h : Timers s loose) (fired waiting : Bool) :
    Timers { s with fired := fired, waiting := waiting } loose :=
  ⟨h.toSound.setArmed s.armed fired waiting, h.armed⟩

/-- Arming the timer touches no node. -/
theorem setTimer_timers (h : Timers s loose) : Timers s.setTimer loose := by
  rcases setTimer_spec h with ⟨hempty, heq⟩ | ⟨k, -, hle, heq⟩
  · rw [heq]
    refine ⟨h.setArmed none _ _, fun m hm => ?_⟩
    change m ∈ s.pending at hm
    rw [hempty] at hm
    cases hm
  · rw [heq]
    exact ⟨h.setArmed _ _ _, fun m hm => ⟨_, rfl, hle m hm⟩⟩

/-! ### The table of files -/

/-- `nodes[fd]` is the node that waits with the file `fd`. -/
def Table (nodes : Nat → NodeSlot) (contained : Nat → Prop) (fd : Nat → Int) : Prop :=
  ∀ i n, nodes i = .node n ↔ contained n ∧ fd n = i

section Table

variable {nodes : Nat → NodeSlot} {contained contained' : Nat → Prop} {fd : Nat → Int}

/-- The table is about which nodes are held and with which descriptor. -/
theorem Table.congr {fd' : Nat → Int} (h : Table nodes contained fd)
    (hcont : ∀ m, contained' m ↔ contained m)
    (hfd : ∀ m, contained m → fd' m = fd m) : Table nodes contained' fd' := by
  intro i m
  rw [h i m, hcont m]
  exact and_congr_right fun hm => by rw [hfd m hm]

/-- A node leaves, and with it the entry of its file. -/
theorem Table.remove (h : Table nodes contained fd) (hn : contained n) (hpos : 0 ≤ fd n) :
    Table (Function.update nodes (fd n).toNat .empty) (fun m => contained m ∧ m ≠ n) fd := by
  have hslot : nodes (fd n).toNat = .node n := (h _ n).mpr ⟨hn, by omega⟩
  intro i m
  rcases eq_or_ne i (fd n).toNat with rfl | hi
  · rw [Function.update_self]
    refine ⟨fun hm => (NodeSlot.noConfusion hm), fun ⟨⟨hm, hne⟩, hfd⟩ => ?_⟩
    have hmslot := (h _ m).mpr ⟨hm, hfd⟩
    rw [hslot] at hmslot
    exact absurd (NodeSlot.node.inj hmslot).symm hne
  · rw [Function.update_of_ne hi, h i m]
    refine ⟨fun ⟨hm, hfd⟩ => ⟨⟨hm, ?_⟩, hfd⟩, fun ⟨⟨hm, _⟩, hfd⟩ => ⟨hm, hfd⟩⟩
    rintro rfl
    omega

/-- A timer has no file. -/
theorem Table.remove_timer (h : Table nodes contained fd) (hneg : fd n < 0) :
    Table nodes (fun m => contained m ∧ m ≠ n) fd := by
  intro i m
  rw [h i m]
  refine ⟨fun ⟨hm, hfd⟩ => ⟨⟨hm, ?_⟩, hfd⟩, fun ⟨⟨hm, _⟩, hfd⟩ => ⟨hm, hfd⟩⟩
  rintro rfl
  omega

/-- A node comes to a file that had none. -/
theorem Table.insert (h : Table nodes contained fd) (n : Nat) (fd' : Nat → Int)
    (hnot : ¬ contained n) (hpos : 0 ≤ fd' n)
    (hempty : ∀ m, nodes (fd' n).toNat ≠ .node m) (hfd : ∀ m, contained m → fd' m = fd m) :
    Table (Function.update nodes (fd' n).toNat (.node n)) (fun m => m = n ∨ contained m) fd' := by
  intro i m
  rcases eq_or_ne i (fd' n).toNat with rfl | hi
  · rw [Function.update_self]
    constructor
    · intro heq
      obtain rfl := NodeSlot.node.inj heq
      exact ⟨.inl rfl, by omega⟩
    · rintro ⟨rfl | hm, hi⟩
      · rfl
      · exact absurd ((h _ m).mpr ⟨hm, by rw [← hfd m hm]; exact hi⟩) (hempty m)
  · rw [Function.update_of_ne hi, h i m]
    constructor
    · rintro ⟨hm, hfdm⟩
      exact ⟨.inr hm, by rw [hfd m hm]; exact hfdm⟩
    · rintro ⟨rfl | hm, hfdm⟩
      · omega
      · exact ⟨hm, by rw [← hfd m hm]; exact hfdm⟩

/-- A node of a timer has no descriptor. -/
theorem Table.insert_timer {fd' : Nat → Int} (h : Table nodes contained fd) (hneg : fd' n < 0)
    (hfd : ∀ m, contained m → fd' m = fd m) :
    Table nodes (fun m => m = n ∨ contained m) fd' := by
  intro i m
  rw [h i m]
  constructor
  · rintro ⟨hm, hfdm⟩
    exact ⟨.inr hm, by rw [hfd m hm]; exact hfdm⟩
  · rintro ⟨rfl | hm, hfdm⟩
    · omega
    · exact ⟨hm, by rw [← hfd m hm]; exact hfdm⟩

end Table

/-- What holds between two operations. -/
structure Inv (s : Poller) : Prop where
  timers : Timers s []
  table : Table s.nodes (· ∈ s.contained) fun n => (s.heap n).data.fd

/-- Whether the thread waits is no matter of the containers. -/
theorem Inv.setWaiting (h : Inv s) (fired waiting : Bool) :
    Inv { s with fired := fired, waiting := waiting } :=
  ⟨h.timers.setWaiting fired waiting, h.table⟩

/-! ### Deadlines -/

/-- A time that is added is a valid deadline. -/
theorem add_valid (now : ClockTime) {sec nsec : Int} (hsec : 0 ≤ sec ∧ sec < 2 ^ 63)
    (hnsec : 0 ≤ nsec ∧ nsec < 1000000000)
    (hnear : Near (now.toTimespec.add sec nsec) now.toTimespec) :
    (now.toTimespec.add sec nsec).Valid := by
  obtain ⟨hsec₀, hsec₁, hnsec₀, hnsec₁, hpos⟩ := now.valid
  unfold Near at hnear
  unfold Timespec.Valid
  unfold Timespec.add wrapLong Int.bmod at *
  dsimp only at *
  by_cases hcarry : 1000000000 ≤ now.nsec + nsec
  · simp only [if_pos hcarry] at hnear ⊢
    split at hnear <;> split at hnear <;> simp only [*, if_true, if_false] <;> omega
  · simp only [if_neg hcarry] at hnear ⊢
    split at hnear <;> simp only [*, if_true, if_false] <;> omega

/-- A deadline that is near is valid. -/
theorem deadline_valid {timeout : Int32} {now : ClockTime} {t : Timespec}
    (ht : deadline timeout now = some t) (hnear : Near t now.toTimespec) : t.Valid := by
  have hlt := timeout.toInt_lt
  unfold deadline at ht
  split at ht
  · obtain rfl := Option.some.inj ht
    exact add_valid now (by omega) (by omega) hnear
  · cases ht

/-- The times that an operation reads from the clock or computes. -/
def opTimes : PollerOp → List Timespec
  | .add _ timeout now _ => now.toTimespec :: (deadline timeout now).toList
  | .mod _ timeout now _ => now.toTimespec :: (deadline timeout now).toList
  | .setTimeout _ timeout now => now.toTimespec :: (deadline timeout now).toList
  | .addTimer value now _ => [now.toTimespec, now.toTimespec.add value.sec value.nsec]
  | .handleTimeout now => [now.toTimespec]
  | _ => []

/-- All times are within `2 ^ 31` seconds of each other. -/
def StepOk (s : Poller) (op : PollerOp) : Prop :=
  ∀ t ∈ opTimes op, ∀ u ∈ opTimes op ++ s.pending.map s.timeout, Near t u

instance (s : Poller) (op : PollerOp) : Decidable (s.StepOk op) :=
  inferInstanceAs (Decidable (∀ t ∈ _, ∀ u ∈ _, Near t u))

/-- A new deadline can be placed. -/
theorem deadline_ok {timeout : Int32} {now : ClockTime}
    (hok : ∀ t ∈ now.toTimespec :: (deadline timeout now).toList,
      ∀ u ∈ (now.toTimespec :: (deadline timeout now).toList) ++ s.pending.map s.timeout, Near t u)
    (t : Timespec) (ht : deadline timeout now = some t) :
    t.Valid ∧ ∀ m ∈ s.pending, Near t (s.timeout m) := by
  have hin : t ∈ now.toTimespec :: (deadline timeout now).toList := by simp [ht]
  refine ⟨deadline_valid ht (hok t hin _ (by simp)), fun m hm => hok t hin _ ?_⟩
  exact List.mem_append_right _ (List.mem_map_of_mem hm)

/-! ### The operations -/

/-- What a node is made of. -/
theorem newNode_ok {data : PollerData} {env : PollerEnv} {node : PollerNode}
    (h : s.newNode data env = .ok node) :
    0 ≤ data.fd ∧ node.data = data ∧ node.inRbtree = false ∧ node.removed = false := by
  unfold newNode checkFd at h
  split at h
  · cases h
  · rename_i hfd
    split at hfd
    · cases hfd
    · rename_i hpos
      split at h
      · cases h
      · split at h
        · cases h
        · split at h
          · cases h
          · cases h
            exact ⟨by omega, rfl, rfl, rfl⟩

/-- The nodes that are held stay as they are. -/
theorem alloc_heap_of_held {node : PollerNode} (h : Timers s []) {m : Nat} (hm : m ∈ s.contained) :
    (s.alloc node).heap m = s.heap m := by
  refine Function.update_of_ne (h.next_free ?_) ..
  rw [mem_contained] at hm
  simp only [← List.count_pos_iff] at hm
  rw [Poller.held]
  omega

/-- The next node is not held yet. -/
theorem next_notMem (h : Timers s []) : s.next ∉ s.contained := by
  intro hin
  have hheld := h.held s.next
  rw [if_neg (Nat.lt_irrefl _), Poller.held] at hheld
  rw [mem_contained] at hin
  simp only [← List.count_pos_iff] at hin
  omega

/-- The new node of `poller_add`, `poller_mod` and `poller_add_timer` is ready to be placed. -/
theorem alloc_ok {node : PollerNode} {t : Timespec} (h : Timers s [])
    (hnear : ∀ m ∈ s.pending, Near t (s.timeout m)) :
    ∀ m ∈ (s.alloc node).pending, Near t ((s.alloc node).timeout m) := by
  intro m hm
  have hin : m ∈ s.contained := List.mem_append.mpr (.inl hm)
  rw [Poller.timeout, alloc_heap_of_held h hin]
  exact hnear m hm

/-- `poller_add`. -/
theorem pollerAdd_inv (hops : ops.Lawful) (h : Inv s) {data : PollerData} {timeout : Int32}
    {now : ClockTime} {env : PollerEnv}
    (hok : ∀ t, deadline timeout now = some t → t.Valid ∧ ∀ m ∈ s.pending, Near t (s.timeout m))
    {s' : Poller} (hs' : s.pollerAdd ops data timeout now env = .ok s') : Inv s' := by
  unfold pollerAdd at hs'
  split at hs'
  · cases hs'
  · rename_i node hnode
    obtain ⟨hfd, hdata, hflag, hremoved⟩ := newNode_ok hnode
    split at hs'
    · rename_i hempty
      split at hs'
      · cases hs'
      · cases hs'
        have hself : (s.alloc node).heap s.next = node := setNode_heap_self _
        obtain ⟨htimers, hplaced⟩ := place_timers hops (alloc_timers h.timers node)
          (by rw [hself]; exact ⟨hflag, hremoved⟩) (deadline timeout now)
          (fun t ht => ⟨(hok t ht).1, alloc_ok h.timers (hok t ht).2⟩)
        have hfdn : (((s.alloc node).place s.next ops (deadline timeout now)).heap s.next).data.fd =
            data.fd := by rw [hplaced.data, hself, hdata]
        refine ⟨htimers.setSlot _ _, ?_⟩
        have htable := h.table.insert s.next (fun m =>
          (((s.alloc node).place s.next ops (deadline timeout now)).heap m).data.fd)
          (next_notMem h.timers) (by rw [hfdn]; exact hfd) (by rw [hfdn, hempty]; simp)
          (fun m hm => by
            rw [hplaced.heap m (fun heq => next_notMem h.timers (heq ▸ hm)),
              alloc_heap_of_held h.timers hm])
        rw [hfdn] at htable
        change Table (Function.update ((s.alloc node).place s.next ops (deadline timeout now)).nodes
          data.fd.toNat (.node s.next)) _ _
        rw [hplaced.nodes]
        exact htable.congr hplaced.contained fun _ _ => rfl
    · cases hs'
    · cases hs'

/-- `poller_del`. -/
theorem pollerDel_inv (hops : ops.Lawful) (h : Inv s) {fd : Int} {s' : Poller}
    (hs' : s.pollerDel ops fd = .ok s') : Inv s' := by
  unfold pollerDel checkFd at hs'
  split at hs'
  · cases hs'
  · rename_i hfd
    split at hs'
    · rename_i n hslot
      cases hs'
      obtain ⟨hn, hfdn⟩ := (h.table _ n).mp hslot
      dsimp only at hfdn
      have hpos : 0 ≤ fd := by
        split at hfd
        · cases hfd
        · omega
      obtain ⟨htimers, hwithout⟩ := takeOut_timers hops (h.timers.setSlot fd .empty) hn
      obtain ⟨htimers', hcont, -, hnodes, -, hdata⟩ := handOver_timers htimers .deleted
      refine ⟨htimers', ?_⟩
      rw [hnodes, hwithout.nodes]
      have htable := h.table.remove hn (by omega)
      have hfd' : (s.heap n).data.fd.toNat = fd.toNat := by omega
      rw [hfd'] at htable
      refine htable.congr (fun m => ?_) (fun m hm => ?_)
      · rw [hcont]
        exact hwithout.contained m
      · rw [hdata, hwithout.heap m hm.2]
        rfl
    · cases hs'

/-- `poller_set_timeout`. -/
theorem pollerSetTimeout_inv (hops : ops.Lawful) (h : Inv s) {fd : Int} {timeout : Int32}
    {now : ClockTime}
    (hok : ∀ t, deadline timeout now = some t → t.Valid ∧ ∀ m ∈ s.pending, Near t (s.timeout m))
    {s' : Poller} (hs' : s.pollerSetTimeout ops fd timeout now = .ok s') : Inv s' := by
  unfold pollerSetTimeout at hs'
  split at hs'
  · cases hs'
  · split at hs'
    · rename_i n hslot
      cases hs'
      obtain ⟨hn, hfdn⟩ := (h.table _ n).mp hslot
      obtain ⟨htimers, hwithout⟩ := takeOut_timers hops h.timers hn
      have hremoved : (s.heap n).removed = false := by
        rcases mem_contained.mp hn with hin | hin | hin
        · exact (h.timers.listFlags n hin).2.1
        · exact (h.timers.treeFlags n hin).2.1
        · exact (h.timers.noTimeoFlags n hin).2.1
      obtain ⟨htimers', hplaced⟩ := place_timers hops htimers
        (by rw [hwithout.node]; exact ⟨rfl, hremoved⟩) (deadline timeout now)
        (fun t ht => ⟨(hok t ht).1, fun m hm => by
          have hne : m ≠ n := ((hwithout.contained m).mp (List.mem_append.mpr (.inl hm))).2
          rw [Poller.timeout, hwithout.heap m hne]
          exact (hok t ht).2 m (hwithout.pending m hm)⟩)
      refine ⟨htimers', ?_⟩
      rw [hplaced.nodes, hwithout.nodes]
      refine h.table.congr (fun m => ?_) (fun m _ => ?_)
      · rw [hplaced.contained, hwithout.contained]
        rcases eq_or_ne m n with rfl | hne
        · simp [hn]
        · simp [hne]
      · rcases eq_or_ne m n with rfl | hne
        · rw [hplaced.data, hwithout.node]
        · rw [hplaced.heap m hne, hwithout.heap m hne]
    · cases hs'

/-- `poller_mod`. -/
theorem pollerMod_inv (hops : ops.Lawful) (h : Inv s) {data : PollerData} {timeout : Int32}
    {now : ClockTime} {env : PollerEnv}
    (hok : ∀ t, deadline timeout now = some t → t.Valid ∧ ∀ m ∈ s.pending, Near t (s.timeout m))
    {s' : Poller} (hs' : s.pollerMod ops data timeout now env = .ok s') : Inv s' := by
  unfold pollerMod at hs'
  split at hs'
  · cases hs'
  · rename_i node hnode
    obtain ⟨hfd, hdata, hflag, hremoved⟩ := newNode_ok hnode
    split at hs'
    · cases hs'
    · cases hs'
    · rename_i old hslot
      split at hs'
      · cases hs'
      · cases hs'
        obtain ⟨hold, hfdold⟩ := (h.table _ old).mp hslot
        dsimp only at hfdold
        have hfree := next_notMem h.timers
        have hne : s.next ≠ old := fun heq => hfree (heq ▸ hold)
        have hself : (s.alloc node).heap s.next = node := setNode_heap_self _
        obtain ⟨htimers, hwithout⟩ := takeOut_timers hops (alloc_timers h.timers node)
          (n := old) hold
        obtain ⟨htimers', hcont, hpending, hnodes, hheap, hdata'⟩ := handOver_timers htimers .modified
        obtain ⟨htimers'', hplaced⟩ := place_timers hops htimers'
          (by rw [hheap _ hne, hwithout.heap _ hne, hself]; exact ⟨hflag, hremoved⟩)
          (deadline timeout now)
          (fun t ht => ⟨(hok t ht).1, fun m hm => by
            rw [hpending] at hm
            have hm' : m ≠ old := ((hwithout.contained m).mp (List.mem_append.mpr (.inl hm))).2
            rw [Poller.timeout, hheap m hm', hwithout.heap m hm']
            exact alloc_ok h.timers (hok t ht).2 m (hwithout.pending m hm)⟩)
        refine ⟨htimers''.setSlot _ _, ?_⟩
        generalize ((((s.alloc node).takeOut old ops).handOver old .modified).place s.next ops
          (deadline timeout now)) = s₃ at hplaced
        have hfd₃ : (s₃.heap s.next).data.fd = data.fd := by
          rw [hplaced.data, hdata', hwithout.heap _ hne, hself, hdata]
        have hremove := h.table.remove hold (by omega)
        have hslot' : (s.heap old).data.fd.toNat = data.fd.toNat := by omega
        rw [hslot'] at hremove
        have htable := hremove.insert s.next (fun m => (s₃.heap m).data.fd)
          (fun hin => hfree hin.1) (by rw [hfd₃]; exact hfd) (by rw [hfd₃]; simp)
          (fun m hm => by
            rw [hplaced.heap m (fun heq => hfree (heq ▸ hm.1)), hdata', hwithout.heap m hm.2,
              alloc_heap_of_held h.timers hm.1])
        rw [hfd₃, Function.update_idem] at htable
        change Table (Function.update s₃.nodes data.fd.toNat (.node s.next)) _ _
        rw [hplaced.nodes, hnodes, hwithout.nodes]
        refine htable.congr (fun m => ?_) fun _ _ => rfl
        change m ∈ s₃.contained ↔ _
        rw [hplaced.contained, hcont, hwithout.contained]
        rfl

/-- `poller_add_timer`. -/
theorem pollerAddTimer_inv (hops : ops.Lawful) (h : Inv s) {value : Duration} {now : ClockTime}
    {memory : Bool}
    (hok : (now.toTimespec.add value.sec value.nsec).Valid ∧ ∀ m ∈ s.pending,
      Near (now.toTimespec.add value.sec value.nsec) (s.timeout m))
    {s' : Poller} (hs' : s.pollerAddTimer ops value now memory = .ok s') : Inv s' := by
  unfold pollerAddTimer at hs'
  split at hs'
  · dsimp only at hs'
    generalize hnode : (PollerNode.mk _ _ _ _ _ _ _) = node at hs'
    have hfd : node.data.fd = -1 := by rw [← hnode]
    have hflags : node.inRbtree = false ∧ node.removed = false := by
      rw [← hnode]
      exact ⟨rfl, rfl⟩
    cases hs'
    have hfree := next_notMem h.timers
    have hself : (s.alloc node).heap s.next = node := setNode_heap_self _
    obtain ⟨htimers, hplaced⟩ := place_timers hops (alloc_timers h.timers node)
      (by rw [hself]; exact hflags) (some (now.toTimespec.add value.sec value.nsec))
      (fun t ht => by
        obtain rfl := Option.some.inj ht
        exact ⟨hok.1, alloc_ok h.timers hok.2⟩)
    refine ⟨htimers, ?_⟩
    rw [hplaced.nodes]
    refine (h.table.insert_timer (n := s.next) ?_ fun m hm => ?_).congr hplaced.contained
      fun _ _ => rfl
    · rw [hplaced.data, hself, hfd]
      decide
    · rw [hplaced.heap m (fun heq => hfree (heq ▸ hm)), alloc_heap_of_held h.timers hm]
  · cases hs'

/-- `__poller_remove_node`. -/
theorem removeNode_inv (hops : ops.Lawful) (h : Inv s) (hfd : 0 ≤ (s.heap n).data.fd)
    (hn : n ∈ s.contained ∨ n ∈ s.pipe.map Prod.fst) (state : ResultState) :
    Inv (s.removeNode n ops state) := by
  unfold removeNode
  split
  · exact h
  · rename_i hremoved
    have hin : n ∈ s.contained := hn.resolve_right fun hpipe =>
      hremoved (h.timers.pipeFlags n hpipe)
    obtain ⟨htimers, hwithout⟩ := takeOut_timers hops
      (h.timers.setSlot (s.heap n).data.fd .empty) hin
    refine ⟨callback_timers htimers state, ?_⟩
    change Table (takeOut _ n ops).nodes _ _
    rw [hwithout.nodes]
    refine (h.table.remove hin hfd).congr (fun m => hwithout.contained m) (fun m hm => ?_)
    change ((takeOut _ n ops).heap m).data.fd = _
    rw [hwithout.heap m hm.2]
    rfl

/-! ### The loops of `__poller_handle_timeout` -/

/-- An expired node leaves the table with its descriptor. -/
theorem dropFd_nodes_table (htable : Table s.nodes (· ∈ s.contained) fun m => (s.heap m).data.fd)
    (hn : n ∈ s.contained) :
    Table (s.dropFd n).nodes (fun m => m ∈ s.contained ∧ m ≠ n) fun m => (s.heap m).data.fd := by
  unfold dropFd
  split
  · rename_i hpos
    exact htable.remove hn hpos
  · rename_i hneg
    exact htable.remove_timer (by omega)

/-- What a pass leaves alone. -/
theorem dropFd_same (s : Poller) (n : Nat) :
    (s.dropFd n).heap = s.heap ∧ (s.dropFd n).timeoList = s.timeoList ∧
      (s.dropFd n).timeoTree = s.timeoTree ∧ (s.dropFd n).treeFirst = s.treeFirst ∧
      (s.dropFd n).noTimeoList = s.noTimeoList ∧ (s.dropFd n).results = s.results ∧
      (s.dropFd n).next = s.next ∧ (s.dropFd n).pipe = s.pipe ∧ (s.dropFd n).armed = s.armed := by
  unfold dropFd
  split <;> exact ⟨rfl, rfl, rfl, rfl, rfl, rfl, rfl, rfl, rfl⟩

/-- A node leaves its container in `__poller_handle_timeout`. -/
structure Passed (s : Poller) (n : Nat) (s' : Poller) : Prop where
  contained : ∀ m, m ∈ s'.contained ↔ m ∈ s.contained ∧ m ≠ n
  pending : ∀ m, m ∈ s'.pending ↔ m ∈ s.pending ∧ m ≠ n
  heap : s'.heap = s.heap
  nodes : s'.nodes = (s.dropFd n).nodes
  results : s'.results = s.results

theorem Passed.table {s' : Poller} (hp : Passed s n s') (hn : n ∈ s.contained)
    (htable : Table s.nodes (· ∈ s.contained) fun m => (s.heap m).data.fd) :
    Table s'.nodes (· ∈ s'.contained) fun m => (s'.heap m).data.fd := by
  rw [hp.nodes, hp.heap]
  exact (dropFd_nodes_table htable hn).congr hp.contained fun _ _ => rfl

/-- One pass of the loop over the list. -/
theorem listPass (h : Timers s loose) {rest : List Nat} (hlist : s.timeoList = n :: rest) :
    Timers { s.dropFd n with timeoList := rest } (n :: loose) ∧
      Passed s n { s.dropFd n with timeoList := rest } := by
  obtain ⟨hheap, -, htree, hfirst, hno, hresults, hnext, hpipe, harmed⟩ := dropFd_same s n
  have hone := h.count_le n
  rw [hlist, List.count_cons_self] at hone
  have hnot : n ∉ rest ∧ n ∉ s.timeoTree.inorder ∧ n ∉ s.noTimeoList := by
    simp only [← List.count_eq_zero]
    omega
  refine ⟨h.of_removal { s.dropFd n with timeoList := rest } ?_ ?_ ?_ ?_ ⟨hpipe, harmed⟩ ?_ ?_,
    fun m => ?_, fun m => ?_, hheap, rfl, hresults⟩
  · rw [hlist]
    exact List.sublist_cons_self n rest
  · dsimp only
    rw [htree]
  · dsimp only
    rw [hno]
  · dsimp only
    rw [hfirst, htree]
    exact h.first
  · intro m _
    dsimp only
    rw [hheap]
  · intro m
    have hheld := h.held m
    rw [Poller.held, hlist, List.count_cons] at hheld
    rw [Poller.held, List.count_cons]
    dsimp only
    rw [htree, hno, hresults, hpipe, hnext]
    omega
  · rw [mem_contained, mem_contained]
    dsimp only
    rw [htree, hno, hlist, List.mem_cons]
    rcases eq_or_ne m n with rfl | hne
    · tauto
    · tauto
  · rw [mem_pending, mem_pending]
    dsimp only
    rw [htree, hlist, List.mem_cons]
    rcases eq_or_ne m n with rfl | hne
    · tauto
    · tauto

/-- One pass of the loop over the tree. -/
theorem treePass (hops : ops.Lawful) (h : Timers s loose) {rest : List Nat}
    (htree : s.timeoTree.inorder = n :: rest) {s' : Poller}
    (hs' : s' = { s.dropFd n with
      treeFirst := ops.next (s.dropFd n).timeoTree n
      timeoTree := ops.erase (s.dropFd n).timeoTree n }) :
    Timers s' (n :: loose) ∧ Passed s n s' ∧ s'.timeoTree.inorder = rest ∧
      s'.timeoList = s.timeoList := by
  obtain ⟨hheap, hlist, htree', -, hno, hresults, hnext, hpipe, harmed⟩ := dropFd_same s n
  have hfirst' : s'.treeFirst = ops.next s.timeoTree n := by rw [hs', ← htree']
  have htree'' : s'.timeoTree = ops.erase s.timeoTree n := by rw [hs', ← htree']
  have hlist' : s'.timeoList = s.timeoList := by rw [hs', ← hlist]
  have hno' : s'.noTimeoList = s.noTimeoList := by rw [hs', ← hno]
  have hheap' : s'.heap = s.heap := by rw [hs', ← hheap]
  have hresults' : s'.results = s.results := by rw [hs', ← hresults]
  have hpipe' : s'.pipe = s.pipe := by rw [hs', ← hpipe]
  have harmed' : s'.armed = s.armed := by rw [hs', ← harmed]
  have hnext' : s'.next = s.next := by rw [hs', ← hnext]
  have hnodes' : s'.nodes = (s.dropFd n).nodes := by rw [hs']
  have hrest : s'.timeoTree.inorder = rest := by
    rw [htree'', hops.erase, htree, List.erase_cons_head]
  have hone := h.count_le n
  rw [htree, List.count_cons_self] at hone
  have hnot : n ∉ rest ∧ n ∉ s.timeoList ∧ n ∉ s.noTimeoList := by
    simp only [← List.count_eq_zero]
    omega
  refine ⟨h.of_removal s' ?_ ?_ ?_ ?_ ⟨hpipe', harmed'⟩ (fun m _ => by rw [hheap']) (fun m => ?_),
    ⟨fun m => ?_, fun m => ?_, hheap', hnodes', hresults'⟩, hrest, hlist'⟩
  · rw [hlist']
  · rw [hrest, htree]
    exact List.sublist_cons_self n rest
  · rw [hno']
  · rw [hrest, hfirst', hops.next, htree]
    simp [successor]
  · have hheld := h.held m
    rw [Poller.held, htree, List.count_cons] at hheld
    rw [Poller.held, List.count_cons, hrest, hlist', hno', hresults', hpipe', hnext']
    omega
  · rw [mem_contained, mem_contained, hrest, hlist', hno', htree, List.mem_cons]
    rcases eq_or_ne m n with rfl | hne
    · tauto
    · tauto
  · rw [mem_pending, mem_pending, hrest, hlist', htree, List.mem_cons]
    rcases eq_or_ne m n with rfl | hne
    · tauto
    · tauto

/-- What a loop has moved to its own list. -/
structure Expired (s : Poller) (loose : List Nat) (s' : Poller) (expired : List Nat) : Prop where
  timers : Timers s' (expired ++ loose)
  table : Table s'.nodes (· ∈ s'.contained) fun m => (s'.heap m).data.fd
  pending : ∀ m, m ∈ s.pending ↔ m ∈ s'.pending ∨ m ∈ expired
  heap : s'.heap = s.heap
  results : s'.results = s.results

/-- A pass before the others. -/
theorem Expired.cons {s₁ s' : Poller} {expired : List Nat} (hp : Passed s n s₁)
    (hn : n ∈ s.pending) (he : Expired s₁ (n :: loose) s' expired) :
    Expired s loose s' (n :: expired) := by
  refine ⟨⟨⟨fun m => ?_, he.timers.sortedList, he.timers.sortedTree, he.timers.first,
    he.timers.listFlags, he.timers.treeFlags, he.timers.noTimeoFlags, he.timers.pipeFlags,
    he.timers.valid, he.timers.near⟩, he.timers.armed⟩, he.table, fun m => ?_,
    he.heap.trans hp.heap, he.results.trans hp.results⟩
  · rw [← he.timers.held m]
    simp only [Poller.held, List.count_append, List.count_cons]
    omega
  · have hstep := hp.pending m
    have hrest := he.pending m
    rw [List.mem_cons]
    rcases eq_or_ne m n with rfl | hne
    · tauto
    · tauto

theorem expireList_spec {now : Timespec} (hnow : now.Valid) :
    ∀ (l : List Nat) (s : Poller) (loose : List Nat), s.timeoList = l → Timers s loose →
      (Table s.nodes (· ∈ s.contained) fun m => (s.heap m).data.fd) →
      (∀ m ∈ s.pending, Near (s.timeout m) now) →
      Expired s loose (expireList now l s).1 (expireList now l s).2 ∧
        (∀ m ∈ (expireList now l s).1.timeoList, ¬ s.timeout m ≤ now) ∧
        (∀ m ∈ (expireList now l s).2, s.timeout m ≤ now) := by
  intro l
  induction l with
  | nil =>
      intro s loose hlist h htable _
      refine ⟨⟨h, htable, fun m => by simp [expireList], rfl, rfl⟩, fun m hm => ?_, by
        simp [expireList]⟩
      change m ∈ s.timeoList at hm
      rw [hlist] at hm
      cases hm
  | cons n rest ih =>
      intro s loose hlist h htable hnear
      have hin : n ∈ s.pending := mem_pending.mpr (.inl (by simp [hlist]))
      have hcmp := timeoutCmp_le_zero (h.valid n hin) hnow (hnear n hin)
      unfold expireList
      split
      · rename_i hle
        obtain ⟨htimers, hpassed⟩ := listPass h hlist
        have htime : ∀ m, ({ s.dropFd n with timeoList := rest } : Poller).timeout m =
            s.timeout m := fun m => by rw [Poller.timeout, hpassed.heap, Poller.timeout]
        obtain ⟨hexpired, hlater, hearlier⟩ := ih { s.dropFd n with timeoList := rest } (n :: loose)
          rfl htimers (hpassed.table (List.mem_append.mpr (.inl hin)) htable) fun m hm => by
            rw [htime]
            exact hnear m ((hpassed.pending m).mp hm).1
        dsimp only
        refine ⟨hexpired.cons hpassed hin, fun m hm => ?_, fun m hm => ?_⟩
        · rw [← htime]
          exact hlater m hm
        · rcases List.mem_cons.mp hm with rfl | hm
          · exact hcmp.mp hle
          · rw [← htime]
            exact hearlier m hm
      · rename_i hgt
        refine ⟨⟨h, htable, fun m => by simp, rfl, rfl⟩, fun m hm hle => ?_, by simp⟩
        refine hgt (hcmp.mpr (le_trans ?_ hle))
        have hsorted := h.sortedList
        rw [hlist] at hsorted hm
        rcases List.mem_cons.mp hm with rfl | hm
        · exact le_refl _
        · exact List.rel_of_pairwise_cons hsorted hm

theorem expireTree_spec (hops : ops.Lawful) {now : Timespec} (hnow : now.Valid) :
    ∀ (passes : Nat) (s : Poller) (loose : List Nat), s.timeoTree.inorder.length ≤ passes →
      Timers s loose → (Table s.nodes (· ∈ s.contained) fun m => (s.heap m).data.fd) →
      (∀ m ∈ s.pending, Near (s.timeout m) now) →
      Expired s loose (expireTree ops now passes s).1 (expireTree ops now passes s).2 ∧
        (expireTree ops now passes s).1.timeoList = s.timeoList ∧
        (∀ m ∈ (expireTree ops now passes s).1.timeoTree.inorder, now ≤ s.timeout m) ∧
        (∀ m ∈ (expireTree ops now passes s).2, s.timeout m ≤ now) := by
  intro passes
  induction passes with
  | zero =>
      intro s loose hlength h htable _
      have hempty : s.timeoTree.inorder = [] := List.length_eq_zero_iff.mp (by omega)
      refine ⟨⟨h, htable, fun m => by simp [expireTree], rfl, rfl⟩, rfl, fun m hm => ?_, by
        simp [expireTree]⟩
      change m ∈ s.timeoTree.inorder at hm
      rw [hempty] at hm
      cases hm
  | succ passes ih =>
      intro s loose hlength h htable hnear
      unfold expireTree
      cases htree : s.timeoTree.inorder with
      | nil =>
          have hnone : s.treeFirst = none := by rw [h.first, htree]; rfl
          rw [hnone]
          refine ⟨⟨h, htable, fun m => by simp, rfl, rfl⟩, rfl, fun m hm => ?_, by simp⟩
          change m ∈ s.timeoTree.inorder at hm
          rw [htree] at hm
          cases hm
      | cons n rest =>
          have hsome : s.treeFirst = some n := by rw [h.first, htree]; rfl
          have hin : n ∈ s.pending := mem_pending.mpr (.inr (by simp [htree]))
          have hcmp := timeoutCmp_lt_zero (h.valid n hin) hnow (hnear n hin)
          rw [hsome]
          dsimp only
          split
          · rename_i hlt
            generalize hs₁ : ({ s.dropFd n with
              treeFirst := ops.next (s.dropFd n).timeoTree n
              timeoTree := ops.erase (s.dropFd n).timeoTree n } : Poller) = s₁
            obtain ⟨htimers, hpassed, hrest₁, hlist₁⟩ := treePass hops h htree hs₁.symm
            have htime : ∀ m, s₁.timeout m = s.timeout m := fun m => by
              rw [Poller.timeout, hpassed.heap, Poller.timeout]
            have hlength₁ : s₁.timeoTree.inorder.length ≤ passes := by
              rw [hrest₁]
              rw [htree, List.length_cons] at hlength
              omega
            obtain ⟨hexpired, hlist, hlater, hearlier⟩ := ih s₁ (n :: loose) hlength₁ htimers
              (hpassed.table (List.mem_append.mpr (.inl hin)) htable) fun m hm => by
                rw [htime]
                exact hnear m ((hpassed.pending m).mp hm).1
            refine ⟨hexpired.cons hpassed hin, hlist.trans hlist₁, fun m hm => ?_, fun m hm => ?_⟩
            · rw [← htime]
              exact hlater m hm
            · rcases List.mem_cons.mp hm with rfl | hm
              · exact le_of_not_le (hcmp.mp hlt)
              · rw [← htime]
                exact hearlier m hm
          · rename_i hge
            have hle : now ≤ s.timeout n := by
              by_contra hnot
              exact hge (hcmp.mpr hnot)
            refine ⟨⟨h, htable, fun m => by simp, rfl, rfl⟩, rfl, fun m hm => ?_, by simp⟩
            have hsorted := h.sortedTree
            rw [htree] at hsorted hm
            rcases List.mem_cons.mp hm with rfl | hm
            · exact hle
            · exact le_trans hle (List.rel_of_pairwise_cons hsorted hm)

/-- The expired nodes are given to the callback. -/
theorem deliver_timers {expired : List Nat} (h : Timers s expired) (state : ResultState) :
    Timers { s with results := s.results ++ expired.map fun n => (n, state) } [] := by
  refine h.of_heap { s with results := s.results ++ expired.map fun n => (n, state) }
    ⟨rfl, rfl, rfl, rfl⟩ ⟨rfl, rfl⟩ (fun _ _ => rfl) (fun m => ?_)
  change _ = if m < s.next then 1 else 0
  rw [← h.held m]
  have hmap : (expired.map fun n => (n, state)).map Prod.fst = expired := by
    rw [List.map_map]
    exact List.map_id expired
  simp only [Poller.held, List.map_append, List.count_append, hmap, List.count_nil]
  omega

/-- `__poller_handle_timeout` passes on every node that has timed out, each once, and none that has
not; no node that has timed out before `now` stays. -/
theorem handleTimeout_spec (hops : ops.Lawful) (h : Inv s) {now : Timespec} (hnow : now.Valid)
    (hnear : ∀ m ∈ s.pending, Near (s.timeout m) now) :
    Inv (s.handleTimeout ops now) ∧ ∃ expired : List Nat,
      (s.handleTimeout ops now).results =
        s.results ++ expired.map (fun n => (n, .error .etimedout)) ∧
      expired.Nodup ∧ (∀ n ∈ expired, n ∈ s.pending ∧ s.timeout n ≤ now) ∧
      (∀ n ∈ s.pending, ¬ now ≤ s.timeout n → n ∈ expired) ∧
      ∀ n ∈ (s.handleTimeout ops now).pending, now ≤ (s.handleTimeout ops now).timeout n := by
  obtain ⟨hlisted, hlater, hearlier⟩ := expireList_spec hnow s.timeoList s [] rfl h.timers h.table
    hnear
  unfold handleTimeout
  dsimp only
  generalize expireList now s.timeoList s = first at *
  obtain ⟨s₁, listed⟩ := first
  dsimp only at *
  have htime₁ : ∀ m, s₁.timeout m = s.timeout m := fun m => by
    rw [Poller.timeout, hlisted.heap, Poller.timeout]
  obtain ⟨htreed, hlist₂, hlater₂, hearlier₂⟩ := expireTree_spec hops hnow
    s₁.timeoTree.inorder.length s₁ (listed ++ []) (Nat.le_refl _) hlisted.timers hlisted.table
    fun m hm => by
      rw [htime₁]
      exact hnear m ((hlisted.pending m).mpr (.inl hm))
  generalize expireTree ops now s₁.timeoTree.inorder.length s₁ = second at *
  obtain ⟨s₂, treed⟩ := second
  dsimp only at *
  have htime₂ : ∀ m, s₂.timeout m = s.timeout m := fun m => by
    rw [Poller.timeout, htreed.heap, ← Poller.timeout, htime₁]
  have hloose : Timers s₂ (listed ++ treed) := by
    refine htreed.timers.of_heap s₂ ⟨rfl, rfl, rfl, rfl⟩ ⟨rfl, rfl⟩ (fun _ _ => rfl) fun m => ?_
    rw [← htreed.timers.held m]
    simp only [Poller.held, List.count_append, List.count_nil]
    omega
  have hpending : ∀ m, m ∈ s.pending ↔ m ∈ s₂.pending ∨ m ∈ listed ++ treed := by
    intro m
    rw [hlisted.pending, htreed.pending, List.mem_append]
    tauto
  have hrest : ∀ m ∈ s₂.pending, now ≤ s.timeout m := by
    intro m hm
    rcases mem_pending.mp hm with hm | hm
    · exact le_of_not_le (hlater m (hlist₂ ▸ hm))
    · rw [← htime₁]
      exact hlater₂ m hm
  refine ⟨⟨deliver_timers hloose _, htreed.table⟩, listed ++ treed, ?_, ?_, fun m hm => ⟨?_, ?_⟩,
    fun m hm hlt => ?_, fun m hm => ?_⟩
  · rw [htreed.results, hlisted.results]
  · refine List.nodup_iff_count_le_one.mpr fun m => ?_
    have := hloose.count_le m
    omega
  · exact (hpending m).mpr (.inr hm)
  · rcases List.mem_append.mp hm with hm | hm
    · exact hearlier m hm
    · rw [← htime₁]
      exact hearlier₂ m hm
  · exact ((hpending m).mp hm).resolve_left fun hin => hlt (hrest m hin)
  · have hm' : m ∈ s₂.pending := hm
    have := hrest m hm'
    rw [← htime₂] at this
    exact this

theorem clockTime_valid (now : ClockTime) : now.toTimespec.Valid := by
  obtain ⟨hsec, -, hnsec, hlt, hpos⟩ := now.valid
  exact ⟨hsec, hnsec, hlt, hpos⟩

/-- A call that fails changes nothing. -/
theorem orSame_inv (h : Inv s) {r : Except Errno Poller} (hr : ∀ s', r = .ok s' → Inv s') :
    Inv (s.orSame r) := by
  cases r with
  | ok s' => exact hr s' rfl
  | error e => exact h

/-- What each operation keeps. -/
theorem exec_inv (hops : ops.Lawful) (h : Inv s) {op : PollerOp} (hok : s.StepOk op) {fuel : Nat}
    {s' : Poller} (hstep : exec ops fuel s op = some s') : Inv s' := by
  cases op with
  | add data timeout now env =>
      cases hstep
      exact orSame_inv h fun s' hs' => pollerAdd_inv hops h (deadline_ok hok) hs'
  | del fd =>
      simp only [exec] at hstep
      split at hstep
      · cases hstep
      · cases hstep
        exact orSame_inv h fun s' hs' => pollerDel_inv hops h hs'
  | mod data timeout now env =>
      cases hstep
      exact orSame_inv h fun s' hs' => pollerMod_inv hops h (deadline_ok hok) hs'
  | setTimeout fd timeout now =>
      simp only [exec] at hstep
      split at hstep
      · cases hstep
      · cases hstep
        exact orSame_inv h fun s' hs' => pollerSetTimeout_inv hops h (deadline_ok hok) hs'
  | addTimer value now memory =>
      cases hstep
      obtain ⟨hsec, hsec', hnsec, hnsec'⟩ := value.valid
      have hin : now.toTimespec.add value.sec value.nsec ∈
          opTimes (.addTimer value now memory) := by simp [opTimes]
      refine orSame_inv h fun s' hs' => pollerAddTimer_inv hops h ⟨?_, fun m hm => ?_⟩ hs'
      · exact add_valid now ⟨hsec, hsec'⟩ ⟨hnsec, hnsec'⟩ (hok _ hin _ (by simp [opTimes]))
      · exact hok _ hin _ (List.mem_append_right _ (List.mem_map_of_mem hm))
  | event n state =>
      simp only [exec] at hstep
      split at hstep
      · rename_i hn
        cases hstep
        exact removeNode_inv hops (h.setWaiting s.fired false) hn.1 hn.2 state
      · cases hstep
  | handlePipe count =>
      cases hstep
      exact ⟨handlePipe_timers (h.timers.setWaiting s.fired false) count, h.table⟩
  | handleTimeout now =>
      cases hstep
      refine (handleTimeout_spec hops (h.setWaiting s.fired false) (clockTime_valid now)
        fun m hm => Near.symm ?_).1
      exact hok _ (by simp [opTimes]) _ (List.mem_append_right _ (List.mem_map_of_mem hm))
  | setTimer =>
      cases hstep
      refine ⟨(setTimer_timers h.timers).setWaiting _ true, ?_⟩
      have htable := h.table
      rcases setTimer_spec h.timers with ⟨-, heq⟩ | ⟨k, -, -, heq⟩
      · rw [heq]
        exact htable
      · rw [heq]
        exact htable
  | expire =>
      simp only [exec] at hstep
      split at hstep
      · cases hstep
        exact h.setWaiting true false
      · cases hstep

/-! ### The timer while the thread waits -/

/-- The poller thread is left alone, and the timer does not go off. -/
structure Calm (s s' : Poller) : Prop where
  waiting : s'.waiting = s.waiting
  fired : s'.fired = true → s.fired = true

namespace Calm

theorem refl (s : Poller) : Calm s s :=
  ⟨rfl, id⟩

theorem trans {s₁ s₂ s₃ : Poller} (h₁ : Calm s₁ s₂) (h₂ : Calm s₂ s₃) : Calm s₁ s₃ :=
  ⟨h₂.waiting.trans h₁.waiting, fun h => h₁.fired (h₂.fired h)⟩

end Calm

theorem setTimerfd_calm (s : Poller) (t : Timespec) : Calm s (s.setTimerfd t) := by
  unfold setTimerfd
  split
  · exact .refl s
  · split
    · exact ⟨rfl, fun h => absurd h Bool.false_ne_true⟩
    · exact ⟨rfl, fun h => absurd h Bool.false_ne_true⟩

theorem armBefore_calm (s : Poller) (n : Nat) (other : Option Nat) :
    Calm s (s.armBefore n other) := by
  unfold armBefore
  split
  · exact setTimerfd_calm s _
  · split
    · exact setTimerfd_calm s _
    · exact .refl s

/-- A node is inserted. -/
theorem insertNode_calm (s : Poller) (n : Nat) (ops : TreeOps Nat) :
    Calm s (s.insertNode n ops) := by
  have hadd : Calm s (s.addToContainer n ops) := by
    unfold addToContainer
    split
    · exact ⟨rfl, id⟩
    · split
      · exact ⟨rfl, id⟩
      · exact ⟨rfl, id⟩
  unfold insertNode
  dsimp only
  split
  · exact hadd.trans (armBefore_calm _ _ _)
  · split
    · exact hadd.trans (armBefore_calm _ _ _)
    · exact hadd

theorem place_calm (s : Poller) (n : Nat) (ops : TreeOps Nat) (timeout : Option Timespec) :
    Calm s (s.place n ops timeout) := by
  cases timeout with
  | none => exact ⟨rfl, id⟩
  | some t =>
      have hset : Calm s (s.setNode n { s.heap n with timeout := t, timed := true }) := ⟨rfl, id⟩
      exact hset.trans (insertNode_calm _ n ops)

theorem takeOut_calm (s : Poller) (n : Nat) (ops : TreeOps Nat) : Calm s (s.takeOut n ops) := by
  unfold takeOut
  split
  · exact ⟨rfl, id⟩
  · exact ⟨rfl, id⟩

theorem handOver_calm (s : Poller) (n : Nat) (state : ResultState) :
    Calm s (s.handOver n state) := by
  unfold handOver
  split
  · exact ⟨rfl, id⟩
  · exact ⟨rfl, id⟩

/-- A node is removed. -/
theorem removeNode_calm (s : Poller) (n : Nat) (ops : TreeOps Nat) (state : ResultState) :
    Calm s (s.removeNode n ops state) := by
  unfold removeNode
  split
  · exact .refl s
  · have hout := takeOut_calm (s.setSlot (s.heap n).data.fd .empty) n ops
    exact ⟨hout.waiting, hout.fired⟩

theorem dropFd_calm (s : Poller) (n : Nat) : Calm s (s.dropFd n) := by
  unfold dropFd
  split
  · exact ⟨rfl, id⟩
  · exact .refl s

theorem expireList_calm (now : Timespec) (l : List Nat) (s : Poller) :
    Calm s (expireList now l s).1 := by
  induction l generalizing s with
  | nil => exact .refl s
  | cons n rest ih =>
      unfold expireList
      split
      · have hdrop := dropFd_calm s n
        have hrest := ih { s.dropFd n with timeoList := rest }
        exact hdrop.trans ⟨hrest.waiting, hrest.fired⟩
      · exact .refl s

theorem expireTree_calm (ops : TreeOps Nat) (now : Timespec) (passes : Nat) (s : Poller) :
    Calm s (expireTree ops now passes s).1 := by
  induction passes generalizing s with
  | zero => exact .refl s
  | succ passes ih =>
      unfold expireTree
      split
      · exact .refl s
      · rename_i n hfirst
        split
        · have hdrop := dropFd_calm s n
          have hrest := ih { s.dropFd n with
            treeFirst := ops.next (s.dropFd n).timeoTree n
            timeoTree := ops.erase (s.dropFd n).timeoTree n }
          exact hdrop.trans ⟨hrest.waiting, hrest.fired⟩
        · exact .refl s

/-- The timeouts are handled. -/
theorem handleTimeout_calm (s : Poller) (ops : TreeOps Nat) (now : Timespec) :
    Calm s (s.handleTimeout ops now) := by
  have hlist := expireList_calm now s.timeoList s
  have htree := hlist.trans (expireTree_calm ops now
    (expireList now s.timeoList s).1.timeoTree.inorder.length _)
  exact ⟨htree.waiting, htree.fired⟩

theorem orSame_calm {r : Except Errno Poller} (hr : ∀ s', r = .ok s' → Calm s s') :
    Calm s (s.orSame r) := by
  cases r with
  | ok s' => exact hr s' rfl
  | error e => exact .refl s

/-- A file descriptor is added. -/
theorem pollerAdd_calm {data : PollerData} {timeout : Int32} {now : ClockTime} {env : PollerEnv}
    {s' : Poller} (hs' : s.pollerAdd ops data timeout now env = .ok s') : Calm s s' := by
  unfold pollerAdd at hs'
  split at hs'
  · cases hs'
  · rename_i node hnode
    split at hs'
    · split at hs'
      · cases hs'
      · cases hs'
        have hplace := place_calm (s.alloc node) s.next ops (deadline timeout now)
        exact ⟨hplace.waiting, hplace.fired⟩
    · cases hs'
    · cases hs'

/-- It is taken out. -/
theorem pollerDel_calm {fd : Int} {s' : Poller} (hs' : s.pollerDel ops fd = .ok s') :
    Calm s s' := by
  unfold pollerDel at hs'
  split at hs'
  · cases hs'
  · split at hs'
    · rename_i n hslot
      cases hs'
      have hout := (takeOut_calm (s.setSlot fd .empty) n ops).trans (handOver_calm _ n .deleted)
      exact ⟨hout.waiting, hout.fired⟩
    · cases hs'

/-- It is changed. -/
theorem pollerMod_calm {data : PollerData} {timeout : Int32} {now : ClockTime} {env : PollerEnv}
    {s' : Poller} (hs' : s.pollerMod ops data timeout now env = .ok s') : Calm s s' := by
  unfold pollerMod at hs'
  split at hs'
  · cases hs'
  · rename_i node hnode
    split at hs'
    · cases hs'
    · cases hs'
    · rename_i old hslot
      split at hs'
      · cases hs'
      · cases hs'
        have hout := (takeOut_calm (s.alloc node) old ops).trans (handOver_calm _ old .modified)
        have hplace := hout.trans (place_calm _ s.next ops (deadline timeout now))
        exact ⟨hplace.waiting, hplace.fired⟩

/-- Its deadline is changed. -/
theorem pollerSetTimeout_calm {fd : Int} {timeout : Int32} {now : ClockTime} {s' : Poller}
    (hs' : s.pollerSetTimeout ops fd timeout now = .ok s') : Calm s s' := by
  unfold pollerSetTimeout at hs'
  split at hs'
  · cases hs'
  · split at hs'
    · rename_i n hslot
      cases hs'
      exact (takeOut_calm s n ops).trans (place_calm _ n ops (deadline timeout now))
    · cases hs'

/-- A timer is added. -/
theorem pollerAddTimer_calm {value : Duration} {now : ClockTime} {memory : Bool} {s' : Poller}
    (hs' : s.pollerAddTimer ops value now memory = .ok s') : Calm s s' := by
  unfold pollerAddTimer at hs'
  split at hs'
  · cases hs'
    have hplace := fun node => place_calm (s.alloc node) s.next ops
      (some (now.toTimespec.add value.sec value.nsec))
    exact ⟨(hplace _).waiting, (hplace _).fired⟩
  · cases hs'

/-- While the poller thread waits, the timer has not gone off since it was set. -/
def Watched (s : Poller) : Prop :=
  s.waiting = true → s.fired = false

theorem Watched.of_calm {s' : Poller} (h : Watched s) (hcalm : Calm s s') : Watched s' := by
  intro hwaiting
  have hnot := h (hcalm.waiting ▸ hwaiting)
  refine Bool.eq_false_iff.mpr fun hfired => ?_
  rw [hcalm.fired hfired] at hnot
  cases hnot

/-- A thread that has come back from its wait need not be called back. -/
theorem watched_of_awake (h : s.waiting = false) : Watched s := by
  intro hwaiting
  rw [h] at hwaiting
  cases hwaiting

/-- The thread never waits on a timer that has fired. -/
theorem exec_watched (hinv : Inv s) (h : Watched s) {op : PollerOp} {fuel : Nat} {s' : Poller}
    (hstep : exec ops fuel s op = some s') : Watched s' := by
  cases op with
  | add data timeout now env =>
      cases hstep
      exact h.of_calm (orSame_calm fun s' hs' => pollerAdd_calm hs')
  | del fd =>
      simp only [exec] at hstep
      split at hstep
      · cases hstep
      · cases hstep
        exact h.of_calm (orSame_calm fun s' hs' => pollerDel_calm hs')
  | mod data timeout now env =>
      cases hstep
      exact h.of_calm (orSame_calm fun s' hs' => pollerMod_calm hs')
  | setTimeout fd timeout now =>
      simp only [exec] at hstep
      split at hstep
      · cases hstep
      · cases hstep
        exact h.of_calm (orSame_calm fun s' hs' => pollerSetTimeout_calm hs')
  | addTimer value now memory =>
      cases hstep
      exact h.of_calm (orSame_calm fun s' hs' => pollerAddTimer_calm hs')
  | event n state =>
      simp only [exec] at hstep
      split at hstep
      · cases hstep
        exact watched_of_awake (removeNode_calm { s with waiting := false } n ops state).waiting
      · cases hstep
  | handlePipe count =>
      cases hstep
      exact watched_of_awake rfl
  | handleTimeout now =>
      cases hstep
      exact watched_of_awake (handleTimeout_calm { s with waiting := false } ops _).waiting
  | setTimer =>
      cases hstep
      intro _
      rcases setTimer_spec hinv.timers with ⟨-, heq⟩ | ⟨k, -, -, heq⟩
      · exact congrArg Poller.fired heq
      · exact congrArg Poller.fired heq
  | expire =>
      simp only [exec] at hstep
      split at hstep
      · cases hstep
        exact watched_of_awake rfl
      · cases hstep

/-- A new poller holds nothing. -/
theorem create_inv (maxOpenFiles : Nat) (reserved : Nat → Bool) (stopped : Bool) :
    Inv (create maxOpenFiles reserved stopped) := by
  refine ⟨⟨⟨fun m => ?_, .nil, .nil, rfl, ?_, ?_, ?_, ?_, ?_, ?_⟩, ?_⟩, fun i n => ?_⟩
  · rfl
  · intro m hm
    cases hm
  · intro m hm
    cases hm
  · intro m hm
    cases hm
  · intro m hm
    cases hm
  · intro m hm
    cases hm
  · intro m hm
    cases hm
  · intro m hm
    cases hm
  · simp only [create]
    split <;> simp [contained, pending, SearchTree.inorder]

/-- Hence both hold in every state that is reached. -/
theorem reachable_inv (hops : ops.Lawful) {maxOpenFiles : Nat} {reserved : Nat → Bool}
    {stopped : Bool}
    (h : Reachable (machine ops maxOpenFiles reserved stopped) StepOk s) : Inv s ∧ Watched s := by
  refine h.invariant (P := fun s => Inv s ∧ Watched s) (fun s hs => ?_)
    (fun s op s' hinv hok hstep => ?_)
  · rw [hs]
    exact ⟨create_inv maxOpenFiles reserved stopped, watched_of_awake rfl⟩
  · obtain ⟨fuel, hexec⟩ := hstep
    exact ⟨exec_inv hops hinv.1 hok hexec, exec_watched hinv.1 hinv.2 hexec⟩

/-- A node that nobody has been given back is in the container that its flag tells. -/
theorem Timers.live (h : Timers s []) (hn : n < s.next) (hpipe : n ∉ s.pipe.map Prod.fst)
    (hresults : n ∉ s.results.map Prod.fst) (htimed : (s.heap n).timed = true) :
    if (s.heap n).inRbtree then n ∈ s.timeoTree.inorder ∧ n ∉ s.timeoList
    else n ∈ s.timeoList ∧ n ∉ s.timeoTree.inorder := by
  have hheld := h.held n
  rw [if_pos hn, Poller.held, List.count_eq_zero.mpr hpipe, List.count_eq_zero.mpr hresults,
    List.count_nil] at hheld
  have hno : n ∉ s.noTimeoList := fun hin => by
    rw [(h.noTimeoFlags n hin).2.2] at htimed
    cases htimed
  rw [List.count_eq_zero.mpr hno] at hheld
  by_cases hlist : n ∈ s.timeoList
  · have := List.count_pos_iff.mpr hlist
    have htree : n ∉ s.timeoTree.inorder := List.count_eq_zero.mp (by omega)
    rw [(h.listFlags n hlist).1]
    exact ⟨hlist, htree⟩
  · rw [List.count_eq_zero.mpr hlist] at hheld
    have htree : n ∈ s.timeoTree.inorder := List.count_pos_iff.mp (by omega)
    rw [(h.treeFlags n htree).1]
    exact ⟨htree, hlist⟩

end Poller

/-- Whatever was done to a poller: the list and the tree are sorted, the tree with its first node at
hand; a node with a timeout that was not given back is in the container that its flag tells, and
once; the table has exactly the nodes that wait with a file; the timer is armed no later than for the
first timeout, and has not gone off while the poller thread waits; and `__poller_handle_timeout` passes
on every node that has timed out before `now` and leaves none of them, where no node was ever passed on
twice. -/
theorem poller_timers {ops : TreeOps Nat} (hops : ops.Lawful) {maxOpenFiles : Nat}
    {reserved : Nat → Bool} {stopped : Bool} {s : Poller}
    (h : Reachable (Poller.machine ops maxOpenFiles reserved stopped) Poller.StepOk s) :
    (s.timeoList.Pairwise fun a b => s.timeout a ≤ s.timeout b) ∧
    (s.timeoTree.inorder.Pairwise fun a b => s.timeout a ≤ s.timeout b) ∧
    s.treeFirst = s.timeoTree.inorder.head? ∧
    (s.timeoList.Nodup ∧ s.timeoTree.inorder.Nodup ∧ (s.results.map Prod.fst).Nodup) ∧
    (∀ n < s.next, n ∉ s.pipe.map Prod.fst → n ∉ s.results.map Prod.fst →
      (s.heap n).timed = true →
      if (s.heap n).inRbtree then n ∈ s.timeoTree.inorder ∧ n ∉ s.timeoList
      else n ∈ s.timeoList ∧ n ∉ s.timeoTree.inorder) ∧
    (∀ (fd n : Nat), s.nodes fd = .node n ↔
      (n ∈ s.timeoList ∨ n ∈ s.timeoTree.inorder ∨ n ∈ s.noTimeoList) ∧
        (s.heap n).data.fd = fd) ∧
    (∀ n ∈ s.pending, ∃ d, s.armed = some d ∧ d ≤ s.timeout n) ∧
    (s.waiting = true → s.fired = false) ∧
    (∀ now : ClockTime, s.StepOk (.handleTimeout now) → ∃ expired : List Nat,
      (s.handleTimeout ops now.toTimespec).results =
        s.results ++ expired.map (fun n => (n, .error .etimedout)) ∧
      expired.Nodup ∧ (∀ n ∈ expired, n ∉ s.results.map Prod.fst) ∧
      (∀ n ∈ expired, n ∈ s.pending ∧ s.timeout n ≤ now.toTimespec) ∧
      (∀ n ∈ s.pending, ¬ now.toTimespec ≤ s.timeout n → n ∈ expired) ∧
      ∀ n ∈ (s.handleTimeout ops now.toTimespec).pending,
        now.toTimespec ≤ (s.handleTimeout ops now.toTimespec).timeout n) := by
  obtain ⟨hinv, hwatched⟩ := Poller.reachable_inv hops h
  have ht := hinv.timers
  have hresults : (s.results.map Prod.fst).Nodup :=
    List.nodup_iff_count_le_one.mpr fun n => by have := ht.count_le n; omega
  refine ⟨ht.sortedList, ht.sortedTree, ht.first, ⟨ht.nodup_list, ht.nodup_tree, hresults⟩,
    fun n hn => ht.live hn, fun fd n => ?_, ht.armed, hwatched, fun now hok => ?_⟩
  · rw [← Poller.mem_contained]
    exact hinv.table fd n
  · obtain ⟨-, expired, hres, hnodup, hearly, hall, hrest⟩ := Poller.handleTimeout_spec hops hinv
      (Poller.clockTime_valid now) fun m hm => Near.symm (hok _ (by simp [Poller.opTimes]) _
        (List.mem_append_right _ (List.mem_map_of_mem hm)))
    refine ⟨expired, hres, hnodup, fun n hn hin => ?_, hearly, hall, hrest⟩
    have hone := ht.count_le n
    have hcount := List.count_pos_iff.mpr hin
    rcases Poller.mem_pending.mp (hearly n hn).1 with hp | hp
    · have := List.count_pos_iff.mpr hp
      omega
    · have := List.count_pos_iff.mpr hp
      omega

/-- Four nodes in both containers, of which one is deleted and two have timed out; the thread waits for
the fourth one. -/
theorem poller_timers_four : ∃ s,
    Reachable (Poller.machine unbalanced 10 (fun fd => decide (fd < 3)) false) Poller.StepOk s ∧
      (s.timeoList, s.timeoTree.inorder, s.pipe.map Prod.fst, s.results.map Prod.fst, s.waiting) =
        ([0], [], [1], [2, 3], true) ∧
      (∀ n ∈ s.pending, ∃ d, s.armed = some d ∧ d ≤ s.timeout n) ∧ s.fired = false := by
  have hrun : (runChecked (Poller.exec unbalanced) Poller.StepOk 0
      (.create 10 (fun fd => decide (fd < 3)) false)
      [.add { operation := .read, fd := 3, message := false } 5000
          { sec := 5, nsec := 10, valid := by decide } ⟨true, true, none⟩,
        .add { operation := .write, fd := 4, message := false } 1000
          { sec := 5, nsec := 10, valid := by decide } ⟨true, true, none⟩,
        .add { operation := .listen, fd := 5, message := false } 500
          { sec := 5, nsec := 10, valid := by decide } ⟨true, true, none⟩,
        .addTimer { sec := 1, nsec := 999999999, valid := by decide }
          { sec := 5, nsec := 10, valid := by decide } true,
        .setTimer, .del 4, .expire, .handleTimeout { sec := 7, nsec := 10, valid := by decide },
        .setTimer]).map
      (fun s => (s.timeoList, s.timeoTree.inorder, s.pipe.map Prod.fst, s.results.map Prod.fst,
        s.waiting)) =
      some ([0], [], [1], [2, 3], true) := by
    decide +kernel
  obtain ⟨s, hs, heq⟩ := Option.map_eq_some_iff.mp hrun
  have hreach := runChecked_reachable (Reachable.init rfl) hs
  obtain ⟨-, -, -, -, -, -, harmed, hfired, -⟩ := poller_timers unbalanced_lawful hreach
  exact ⟨s, hreach, heq, harmed, hfired (congrArg (·.2.2.2.2) heq)⟩

end Workflow.Kernel

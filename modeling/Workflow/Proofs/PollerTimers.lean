/-
Module: Workflow.Proofs.PollerTimers
Layer: Proofs
Purpose: The timers of the poller in whole runs. A node that was taken out of its container and not
  put anywhere yet is called loose; `Timers s loose` says that every node is in one place only, that
  both containers are in order, that the flags tell the truth, and that the timer is armed in time.
  Each primitive of the poller moves one node and keeps `Timers`.
Trusted boundary: none
Main exports: Timespec.Valid, Near, Timers, takeOut_timers, place_timers
-/
import Workflow.Kernel.Poller
import Mathlib.Data.List.Nodup

namespace Workflow.Kernel

open Workflow.Lib

/-! ### Time -/

/-- The order of times. -/
instance : LE Timespec :=
  ⟨fun a b => a.sec < b.sec ∨ a.sec = b.sec ∧ a.nsec ≤ b.nsec⟩

namespace Timespec

theorem le_def (a b : Timespec) : a ≤ b ↔ a.sec < b.sec ∨ a.sec = b.sec ∧ a.nsec ≤ b.nsec :=
  Iff.rfl

instance (a b : Timespec) : Decidable (a ≤ b) :=
  inferInstanceAs (Decidable (a.sec < b.sec ∨ a.sec = b.sec ∧ a.nsec ≤ b.nsec))

theorem le_refl (a : Timespec) : a ≤ a :=
  Or.inr ⟨rfl, Int.le_refl _⟩

theorem le_trans {a b c : Timespec} (hab : a ≤ b) (hbc : b ≤ c) : a ≤ c := by
  rw [le_def] at *
  omega

theorem le_of_not_le {a b : Timespec} (h : ¬ a ≤ b) : b ≤ a := by
  rw [le_def] at *
  omega

/-- A time that a timer can be set to. -/
def Valid (t : Timespec) : Prop :=
  0 ≤ t.sec ∧ 0 ≤ t.nsec ∧ t.nsec < 1000000000 ∧ (t.sec ≠ 0 ∨ t.nsec ≠ 0)

/-- Two times are at most `2 ^ 31` seconds apart. -/
def Near (a b : Timespec) : Prop :=
  a.sec - b.sec ≤ 2 ^ 31 ∧ b.sec - a.sec ≤ 2 ^ 31

instance (a b : Timespec) : Decidable (Near a b) :=
  inferInstanceAs (Decidable (_ ∧ _))

theorem Near.symm {a b : Timespec} (h : Near a b) : Near b a :=
  ⟨h.2, h.1⟩

/-- A small difference is not wrapped. -/
theorem wrapLong_of_small {x : Int} (hlow : -(2 ^ 62) ≤ x) (hhigh : x ≤ 2 ^ 62) :
    wrapLong x = x := by
  unfold wrapLong
  apply Int.bmod_eq_of_le <;> omega

variable {a b : Timespec}

/-- Between deadlines that are near, nothing is cut off. -/
theorem timeoutCmp_eq (ha : a.Valid) (hb : b.Valid) (hnear : Near a b) :
    timeoutCmp a b = if a.sec = b.sec then a.nsec - b.nsec else a.sec - b.sec := by
  obtain ⟨-, hn, hn', -⟩ := ha
  obtain ⟨-, hm, hm', -⟩ := hb
  obtain ⟨hle, hge⟩ := hnear
  have hsec : wrapLong (a.sec - b.sec) = a.sec - b.sec :=
    wrapLong_of_small (by omega) (by omega)
  have hnsec : wrapLong (a.nsec - b.nsec) = a.nsec - b.nsec :=
    wrapLong_of_small (by omega) (by omega)
  simp only [timeoutCmp, hsec, hnsec, Int.sub_eq_zero]

/-- Then the comparison says which deadline is earlier. -/
theorem timeoutCmp_le_zero (ha : a.Valid) (hb : b.Valid) (hnear : Near a b) :
    timeoutCmp a b ≤ 0 ↔ a ≤ b := by
  rw [timeoutCmp_eq ha hb hnear, le_def]
  split <;> omega

/-- And which is strictly earlier. -/
theorem timeoutCmp_lt_zero (ha : a.Valid) (hb : b.Valid) (hnear : Near a b) :
    timeoutCmp a b < 0 ↔ ¬ b ≤ a := by
  rw [timeoutCmp_eq ha hb hnear, le_def]
  split <;> omega

end Timespec

open Timespec

namespace Poller

variable {s : Poller} {n : Nat} {loose : List Nat} {ops : TreeOps Nat}

/-! ### The invariant of the containers -/

/-- In how many places node `n` is. -/
def held (s : Poller) (loose : List Nat) (n : Nat) : Nat :=
  s.timeoList.count n + s.timeoTree.inorder.count n + s.noTimeoList.count n +
    (s.pipe.map Prod.fst).count n + (s.results.map Prod.fst).count n + loose.count n

/-- The containers are in order, and every node is in one place. -/
structure Sound (s : Poller) (loose : List Nat) : Prop where
  held : ∀ n, s.held loose n = if n < s.next then 1 else 0
  sortedList : s.timeoList.Pairwise fun a b => s.timeout a ≤ s.timeout b
  sortedTree : s.timeoTree.inorder.Pairwise fun a b => s.timeout a ≤ s.timeout b
  first : s.treeFirst = s.timeoTree.inorder.head?
  listFlags : ∀ n ∈ s.timeoList,
    (s.heap n).inRbtree = false ∧ (s.heap n).removed = false ∧ (s.heap n).timed = true
  treeFlags : ∀ n ∈ s.timeoTree.inorder,
    (s.heap n).inRbtree = true ∧ (s.heap n).removed = false ∧ (s.heap n).timed = true
  noTimeoFlags : ∀ n ∈ s.noTimeoList,
    (s.heap n).inRbtree = false ∧ (s.heap n).removed = false ∧ (s.heap n).timed = false
  pipeFlags : ∀ n ∈ s.pipe.map Prod.fst, (s.heap n).removed = true
  valid : ∀ n ∈ s.pending, (s.timeout n).Valid
  near : ∀ a ∈ s.pending, ∀ b ∈ s.pending, Near (s.timeout a) (s.timeout b)

/-- And the timer is armed for the first timeout or earlier. -/
structure Timers (s : Poller) (loose : List Nat) : Prop extends Sound s loose where
  armed : ∀ n ∈ s.pending, ∃ d, s.armed = some d ∧ d ≤ s.timeout n

/-- A node with a deadline is in the list or in the tree. -/
theorem mem_pending : n ∈ s.pending ↔ n ∈ s.timeoList ∨ n ∈ s.timeoTree.inorder := by
  rw [pending, List.mem_append]

/-- A node that is held is in one of the three containers. -/
theorem mem_contained : n ∈ s.contained ↔
    n ∈ s.timeoList ∨ n ∈ s.timeoTree.inorder ∨ n ∈ s.noTimeoList := by
  rw [contained, List.mem_append, mem_pending, or_assoc]

/-- A loose node is nowhere else. -/
theorem Timers.loose_free (h : Timers s (n :: loose)) :
    n ∉ s.timeoList ∧ n ∉ s.timeoTree.inorder ∧ n ∉ s.noTimeoList ∧ n ∉ s.pipe.map Prod.fst ∧
      n ∉ s.results.map Prod.fst ∧ n ∉ loose := by
  have hheld := h.held n
  rw [Poller.held, List.count_cons_self] at hheld
  simp only [← List.count_eq_zero]
  split at hheld <;> omega

/-- A node in hand is in none of them. -/
theorem Timers.loose_notMem (h : Timers s (n :: loose)) : n ∉ s.contained := by
  rw [mem_contained]
  have := h.loose_free
  tauto

theorem setNode_heap_of_ne {m : Nat} (hne : m ≠ n) (node : PollerNode) :
    (s.setNode n node).heap m = s.heap m :=
  Function.update_of_ne hne ..

theorem setNode_heap_self (node : PollerNode) : (s.setNode n node).heap n = node :=
  Function.update_self ..

/-- What the invariant reads of a node does not change. -/
theorem Timers.of_heap (h : Timers s loose) (s' : Poller)
    (hlists : s'.timeoList = s.timeoList ∧ s'.timeoTree = s.timeoTree ∧
      s'.noTimeoList = s.noTimeoList ∧ s'.treeFirst = s.treeFirst)
    (hout : s'.pipe = s.pipe ∧ s'.armed = s.armed)
    (hheap : ∀ m, m ∈ s.contained ∨ m ∈ s.pipe.map Prod.fst → s'.heap m = s.heap m)
    {loose' : List Nat} (hheld : ∀ m, s'.held loose' m = if m < s'.next then 1 else 0) :
    Timers s' loose' := by
  obtain ⟨hlist, htree, hno, hfirst⟩ := hlists
  obtain ⟨hpipe, harmed⟩ := hout
  have hpending : s'.pending = s.pending := by rw [pending, pending, hlist, htree]
  have hin : ∀ m ∈ s.pending, s'.heap m = s.heap m := fun m hm =>
    hheap m (.inl (mem_contained.mpr (by have := mem_pending.mp hm; tauto)))
  have htime : ∀ m ∈ s.pending, s'.timeout m = s.timeout m := fun m hm => by
    rw [timeout, timeout, hin m hm]
  have hl : ∀ m ∈ s.timeoList, m ∈ s.pending := fun m hm => mem_pending.mpr (.inl hm)
  have ht : ∀ m ∈ s.timeoTree.inorder, m ∈ s.pending := fun m hm => mem_pending.mpr (.inr hm)
  refine ⟨⟨hheld, ?_, ?_, ?_, ?_, ?_, ?_, ?_, ?_, ?_⟩, ?_⟩
  · rw [hlist]
    refine h.sortedList.imp_of_mem fun ha hb hle => ?_
    rw [htime _ (hl _ ha), htime _ (hl _ hb)]
    exact hle
  · rw [htree]
    refine h.sortedTree.imp_of_mem fun ha hb hle => ?_
    rw [htime _ (ht _ ha), htime _ (ht _ hb)]
    exact hle
  · rw [hfirst, htree]
    exact h.first
  · intro m hm
    rw [hlist] at hm
    rw [hin m (hl m hm)]
    exact h.listFlags m hm
  · intro m hm
    rw [htree] at hm
    rw [hin m (ht m hm)]
    exact h.treeFlags m hm
  · intro m hm
    rw [hno] at hm
    rw [hheap m (.inl (mem_contained.mpr (.inr (.inr hm))))]
    exact h.noTimeoFlags m hm
  · intro m hm
    rw [hpipe] at hm
    rw [hheap m (.inr hm)]
    exact h.pipeFlags m hm
  · intro m hm
    rw [hpending] at hm
    rw [htime m hm]
    exact h.valid m hm
  · intro a ha b hb
    rw [hpending] at ha hb
    rw [htime a ha, htime b hb]
    exact h.near a ha b hb
  · intro m hm
    rw [hpending] at hm
    rw [htime m hm, harmed]
    exact h.armed m hm

/-- A loose node may be written to. -/
theorem Timers.setNode (h : Timers s (n :: loose)) (node : PollerNode) :
    Timers (s.setNode n node) (n :: loose) := by
  refine h.of_heap (s.setNode n node) ⟨rfl, rfl, rfl, rfl⟩ ⟨rfl, rfl⟩ (fun m hm => ?_) h.held
  refine setNode_heap_of_ne ?_ node
  rintro rfl
  rcases hm with hm | hm
  · exact h.loose_notMem hm
  · exact h.loose_free.2.2.2.1 hm

/-- The table of files is not part of the containers. -/
theorem Timers.setSlot (h : Timers s loose) (fd : Int) (slot : NodeSlot) :
    Timers (s.setSlot fd slot) loose :=
  h.of_heap (s.setSlot fd slot) ⟨rfl, rfl, rfl, rfl⟩ ⟨rfl, rfl⟩ (fun _ _ => rfl) h.held

/-- A node that is held is not the next one that is allocated. -/
theorem Timers.next_free (h : Timers s loose) {m : Nat} (hm : s.held loose m ≠ 0) :
    m ≠ s.next := by
  rintro rfl
  rw [h.held, if_neg (Nat.lt_irrefl _)] at hm
  exact hm rfl

/-- A new node is in hand. -/
theorem alloc_timers (h : Timers s loose) (node : PollerNode) :
    Timers (s.alloc node) (s.next :: loose) := by
  refine h.of_heap (s.alloc node) ⟨rfl, rfl, rfl, rfl⟩ ⟨rfl, rfl⟩ (fun m hm => ?_) (fun m => ?_)
  · refine Function.update_of_ne (h.next_free ?_) ..
    have hpos : 0 < s.timeoList.count m + s.timeoTree.inorder.count m + s.noTimeoList.count m +
        (s.pipe.map Prod.fst).count m := by
      rw [mem_contained] at hm
      simp only [← List.count_pos_iff] at hm
      omega
    rw [Poller.held]
    omega
  · have hheld := h.held m
    change s.held (s.next :: loose) m = if m < s.next + 1 then 1 else 0
    rw [Poller.held] at hheld ⊢
    rw [List.count_cons]
    simp only [beq_iff_eq]
    split at hheld <;> split <;> split <;> omega

/-! ### Taking a node out -/

theorem count_erase_add {l : List Nat} (hn : n ∈ l) (m : Nat) :
    (l.erase n).count m + [n].count m = l.count m := by
  have hpos := List.count_pos_iff.mpr hn
  rcases eq_or_ne m n with rfl | hne
  · rw [List.count_erase_self, List.count_cons_self, List.count_nil]
    omega
  · rw [List.count_erase_of_ne hne, List.count_cons_of_ne hne.symm, List.count_nil]
    rfl

/-- A node in one container is in no other, and not in it twice. -/
theorem Timers.count_le (h : Timers s loose) (n : Nat) :
    s.timeoList.count n + s.timeoTree.inorder.count n + s.noTimeoList.count n +
      (s.pipe.map Prod.fst).count n + (s.results.map Prod.fst).count n + loose.count n ≤ 1 := by
  have hheld := h.held n
  rw [Poller.held] at hheld
  split at hheld <;> omega

/-- No node is twice in the list. -/
theorem Timers.nodup_list (h : Timers s loose) : s.timeoList.Nodup :=
  List.nodup_iff_count_le_one.mpr fun n => by have := h.count_le n; omega

/-- Nor in the tree. -/
theorem Timers.nodup_tree (h : Timers s loose) : s.timeoTree.inorder.Nodup :=
  List.nodup_iff_count_le_one.mpr fun n => by have := h.count_le n; omega

/-- Nor among those without a deadline. -/
theorem Timers.nodup_noTimeo (h : Timers s loose) : s.noTimeoList.Nodup :=
  List.nodup_iff_count_le_one.mpr fun n => by have := h.count_le n; omega

/-- The containers become smaller by one node, and this node becomes loose. -/
theorem Timers.of_removal (h : Timers s loose) (s' : Poller)
    (hlist : s'.timeoList.Sublist s.timeoList)
    (htree : s'.timeoTree.inorder.Sublist s.timeoTree.inorder)
    (hno : s'.noTimeoList.Sublist s.noTimeoList)
    (hfirst : s'.treeFirst = s'.timeoTree.inorder.head?)
    (hout : s'.pipe = s.pipe ∧ s'.armed = s.armed)
    (hheap : ∀ m, m ∈ s'.contained ∨ m ∈ s'.pipe.map Prod.fst → s'.heap m = s.heap m)
    {loose' : List Nat} (hheld : ∀ m, s'.held loose' m = if m < s'.next then 1 else 0) :
    Timers s' loose' := by
  obtain ⟨hpipe, harmed⟩ := hout
  have hin : ∀ m ∈ s'.contained, s'.heap m = s.heap m := fun m hm => hheap m (.inl hm)
  have hpend : ∀ m ∈ s'.pending, m ∈ s.pending ∧ m ∈ s'.contained := by
    intro m hm
    rcases mem_pending.mp hm with hm | hm
    · exact ⟨mem_pending.mpr (.inl (hlist.subset hm)), mem_contained.mpr (.inl hm)⟩
    · exact ⟨mem_pending.mpr (.inr (htree.subset hm)), mem_contained.mpr (.inr (.inl hm))⟩
  have htime : ∀ m ∈ s'.pending, s'.timeout m = s.timeout m := fun m hm => by
    rw [timeout, timeout, hin m (hpend m hm).2]
  refine ⟨⟨hheld, ?_, ?_, hfirst, ?_, ?_, ?_, ?_, ?_, ?_⟩, ?_⟩
  · refine (h.sortedList.sublist hlist).imp_of_mem fun ha hb hle => ?_
    rw [htime _ (mem_pending.mpr (.inl ha)), htime _ (mem_pending.mpr (.inl hb))]
    exact hle
  · refine (h.sortedTree.sublist htree).imp_of_mem fun ha hb hle => ?_
    rw [htime _ (mem_pending.mpr (.inr ha)), htime _ (mem_pending.mpr (.inr hb))]
    exact hle
  · intro m hm
    rw [hin m (mem_contained.mpr (.inl hm))]
    exact h.listFlags m (hlist.subset hm)
  · intro m hm
    rw [hin m (mem_contained.mpr (.inr (.inl hm)))]
    exact h.treeFlags m (htree.subset hm)
  · intro m hm
    rw [hin m (mem_contained.mpr (.inr (.inr hm)))]
    exact h.noTimeoFlags m (hno.subset hm)
  · intro m hm
    rw [hheap m (.inr hm)]
    exact h.pipeFlags m (hpipe ▸ hm)
  · intro m hm
    rw [htime m hm]
    exact h.valid m (hpend m hm).1
  · intro a ha b hb
    rw [htime a ha, htime b hb]
    exact h.near a (hpend a ha).1 b (hpend b hb).1
  · intro m hm
    rw [htime m hm, harmed]
    exact h.armed m (hpend m hm).1

/-- What `takeOut` does to the containers. -/
structure Without (s : Poller) (n : Nat) (s' : Poller) : Prop where
  contained : ∀ m, m ∈ s'.contained ↔ m ∈ s.contained ∧ m ≠ n
  pending : ∀ m ∈ s'.pending, m ∈ s.pending
  heap : ∀ m, m ≠ n → s'.heap m = s.heap m
  node : s'.heap n = { s.heap n with inRbtree := false }
  nodes : s'.nodes = s.nodes
  next : s'.next = s.next
  stopped : s'.stopped = s.stopped

/-- A node is taken out of the tree. -/
theorem treeErase_timers (hops : ops.Lawful) (h : Timers s loose)
    (hn : n ∈ s.timeoTree.inorder) :
    Timers (s.treeErase n ops) (n :: loose) ∧ Without s n (s.treeErase n ops) := by
  have htree : (s.treeErase n ops).timeoTree.inorder = s.timeoTree.inorder.erase n :=
    hops.erase _ _
  have hone := h.count_le n
  have hpos := List.count_pos_iff.mpr hn
  have hcont : ∀ m, m ∈ (s.treeErase n ops).contained ↔ m ∈ s.contained ∧ m ≠ n := by
    intro m
    rw [mem_contained, mem_contained, htree, h.nodup_tree.mem_erase_iff]
    change m ∈ s.timeoList ∨ (m ≠ n ∧ m ∈ s.timeoTree.inorder) ∨ m ∈ s.noTimeoList ↔ _
    rcases eq_or_ne m n with rfl | hne
    · have hlist : m ∉ s.timeoList := List.count_eq_zero.mp (by omega)
      have hno : m ∉ s.noTimeoList := List.count_eq_zero.mp (by omega)
      tauto
    · tauto
  have hheap : ∀ m, m ≠ n → (s.treeErase n ops).heap m = s.heap m := fun m hne =>
    setNode_heap_of_ne hne _
  refine ⟨h.of_removal (s.treeErase n ops) (List.Sublist.refl _) ?_ (List.Sublist.refl _) ?_
    ⟨rfl, rfl⟩ (fun m hm => hheap m ?_) (fun m => ?_), hcont, fun m hm => ?_, hheap,
    setNode_heap_self _, rfl, rfl, rfl⟩
  · rw [htree]
    exact List.erase_sublist
  · rw [htree, head_erase, ← h.first, ← hops.next]
    rfl
  · rintro rfl
    rcases hm with hm | hm
    · exact ((hcont m).mp hm).2 rfl
    · have hfree : m ∉ s.pipe.map Prod.fst := List.count_eq_zero.mp (by omega)
      exact hfree hm
  · have hheld := h.held m
    have hcount := count_erase_add hn m
    rw [Poller.held] at hheld ⊢
    rw [htree, List.count_cons]
    rw [List.count_cons, List.count_nil] at hcount
    change s.timeoList.count m + _ + s.noTimeoList.count m + (s.pipe.map Prod.fst).count m +
      (s.results.map Prod.fst).count m + _ = if m < s.next then 1 else 0
    omega
  · rw [mem_pending, htree] at hm
    rw [mem_pending]
    exact hm.imp id List.mem_of_mem_erase

/-- A node is taken out of a list. -/
theorem listDel_timers (h : Timers s loose) (hn : n ∈ s.timeoList ∨ n ∈ s.noTimeoList)
    (hflag : (s.heap n).inRbtree = false) :
    Timers (s.listDel n) (n :: loose) ∧ Without s n (s.listDel n) := by
  have hone := h.count_le n
  have hcont : ∀ m, m ∈ (s.listDel n).contained ↔ m ∈ s.contained ∧ m ≠ n := by
    intro m
    rw [mem_contained, mem_contained]
    change m ∈ s.timeoList.erase n ∨ m ∈ s.timeoTree.inorder ∨ m ∈ s.noTimeoList.erase n ↔ _
    rw [h.nodup_list.mem_erase_iff, h.nodup_noTimeo.mem_erase_iff]
    rcases eq_or_ne m n with rfl | hne
    · have htree : m ∉ s.timeoTree.inorder := by
        simp only [← List.count_pos_iff] at hn
        exact List.count_eq_zero.mp (by omega)
      tauto
    · tauto
  refine ⟨h.of_removal (s.listDel n) List.erase_sublist (List.Sublist.refl _) List.erase_sublist
    h.first ⟨rfl, rfl⟩ (fun _ _ => rfl) (fun m => ?_), hcont, fun m hm => ?_, fun _ _ => rfl, ?_,
    rfl, rfl, rfl⟩
  · have hheld := h.held m
    have hcount : (s.timeoList.erase n).count m + (s.noTimeoList.erase n).count m + [n].count m =
        s.timeoList.count m + s.noTimeoList.count m := by
      rcases hn with hn | hn
      · have hno : n ∉ s.noTimeoList := by
          have := List.count_pos_iff.mpr hn
          exact List.count_eq_zero.mp (by omega)
        rw [List.erase_of_not_mem hno]
        have := count_erase_add hn m
        omega
      · have hlist : n ∉ s.timeoList := by
          have := List.count_pos_iff.mpr hn
          exact List.count_eq_zero.mp (by omega)
        rw [List.erase_of_not_mem hlist]
        have := count_erase_add hn m
        omega
    rw [Poller.held] at hheld ⊢
    rw [List.count_cons]
    rw [List.count_cons, List.count_nil] at hcount
    change (s.timeoList.erase n).count m + s.timeoTree.inorder.count m +
      (s.noTimeoList.erase n).count m + (s.pipe.map Prod.fst).count m +
      (s.results.map Prod.fst).count m + _ = if m < s.next then 1 else 0
    omega
  · rw [mem_pending] at hm ⊢
    exact hm.imp List.mem_of_mem_erase id
  · change s.heap n = _
    rw [← hflag]

/-- A node is taken out of its container, as its flag says. -/
theorem takeOut_timers (hops : ops.Lawful) (h : Timers s loose) (hn : n ∈ s.contained) :
    Timers (s.takeOut n ops) (n :: loose) ∧ Without s n (s.takeOut n ops) := by
  unfold takeOut
  rcases mem_contained.mp hn with hn | hn | hn
  · rw [(h.listFlags n hn).1]
    exact listDel_timers h (.inl hn) (h.listFlags n hn).1
  · rw [(h.treeFlags n hn).1]
    exact treeErase_timers hops h hn
  · rw [(h.noTimeoFlags n hn).1]
    exact listDel_timers h (.inr hn) (h.noTimeoFlags n hn).1

/-! ### Putting a node in -/

/-- What comes before both heads comes before everything. -/
theorem Sound.le_of_heads (h : Sound s loose) {t : Timespec}
    (hlist : ∀ m, s.timeoList.head? = some m → t ≤ s.timeout m)
    (htree : ∀ m, s.treeFirst = some m → t ≤ s.timeout m) :
    ∀ m ∈ s.pending, t ≤ s.timeout m := by
  have hhead : ∀ l : List Nat, (l.Pairwise fun a b => s.timeout a ≤ s.timeout b) →
      (∀ m, l.head? = some m → t ≤ s.timeout m) → ∀ m ∈ l, t ≤ s.timeout m := by
    intro l hsorted hfirst m hm
    cases l with
    | nil => cases hm
    | cons a rest =>
        have ha := hfirst a rfl
        rcases List.mem_cons.mp hm with rfl | hm
        · exact ha
        · exact le_trans ha (List.rel_of_pairwise_cons hsorted hm)
  intro m hm
  rcases mem_pending.mp hm with hm | hm
  · exact hhead _ h.sortedList hlist m hm
  · rw [h.first] at htree
    exact hhead _ h.sortedTree htree m hm

/-- What `addToContainer` does, the timer apart. -/
structure Added (s : Poller) (n : Nat) (s' : Poller) : Prop where
  pending : ∀ m, m ∈ s'.pending ↔ m = n ∨ m ∈ s.pending
  noTimeo : s'.noTimeoList = s.noTimeoList
  heap : ∀ m, m ≠ n → s'.heap m = s.heap m
  node : ∃ flag, s'.heap n = { s.heap n with inRbtree := flag }
  armed : s'.armed = s.armed
  nodes : s'.nodes = s.nodes
  pipe : s'.pipe = s.pipe
  next : s'.next = s.next

/-- The deadlines are the same. -/
theorem Added.timeout {s' : Poller} (ha : Added s n s') (m : Nat) : s'.timeout m = s.timeout m := by
  rw [Poller.timeout, Poller.timeout]
  rcases eq_or_ne m n with rfl | hne
  · obtain ⟨flag, hnode⟩ := ha.node
    rw [hnode]
  · rw [ha.heap m hne]

theorem Added.sound {s' : Poller} (ha : Added s n s') (h : Sound s (n :: loose))
    (hheld : ∀ m, s'.held loose m = s.held (n :: loose) m)
    (hlist : s'.timeoList.Pairwise fun a b => s.timeout a ≤ s.timeout b)
    (htree : s'.timeoTree.inorder.Pairwise fun a b => s.timeout a ≤ s.timeout b)
    (hfirst : s'.treeFirst = s'.timeoTree.inorder.head?)
    (hlistFlags : ∀ m ∈ s'.timeoList,
      (s'.heap m).inRbtree = false ∧ (s'.heap m).removed = false ∧ (s'.heap m).timed = true)
    (htreeFlags : ∀ m ∈ s'.timeoTree.inorder,
      (s'.heap m).inRbtree = true ∧ (s'.heap m).removed = false ∧ (s'.heap m).timed = true)
    (hfree : n ∉ s.noTimeoList ∧ n ∉ s.pipe.map Prod.fst) (hvalid : (s.timeout n).Valid)
    (hnear : ∀ m ∈ s.pending, Near (s.timeout n) (s.timeout m)) : Sound s' loose := by
  have htime := ha.timeout
  refine ⟨fun m => ?_, ?_, ?_, hfirst, hlistFlags, htreeFlags, fun m hm => ?_, fun m hm => ?_,
    fun m hm => ?_, fun a hain b hbin => ?_⟩
  · rw [hheld, h.held, ha.next]
  · simpa only [htime] using hlist
  · simpa only [htime] using htree
  · rw [ha.noTimeo] at hm
    rw [ha.heap m fun heq => hfree.1 (heq ▸ hm)]
    exact h.noTimeoFlags m hm
  · rw [ha.pipe] at hm
    rw [ha.heap m fun heq => hfree.2 (heq ▸ hm)]
    exact h.pipeFlags m hm
  · rw [htime]
    rcases (ha.pending m).mp hm with rfl | hm
    · exact hvalid
    · exact h.valid m hm
  · rw [htime, htime]
    rcases (ha.pending a).mp hain with rfl | ha' <;> rcases (ha.pending b).mp hbin with rfl | hb'
    · exact ⟨by omega, by omega⟩
    · exact hnear b hb'
    · exact (hnear a ha').symm
    · exact h.near a ha' b hb'

/-- A node that is about to get into a container. -/
structure Ready (s : Poller) (n : Nat) : Prop where
  flags : (s.heap n).inRbtree = false ∧ (s.heap n).removed = false ∧ (s.heap n).timed = true
  valid : (s.timeout n).Valid
  near : ∀ m ∈ s.pending, Near (s.timeout n) (s.timeout m)

/-- A node whose deadline is not earlier than those of the list goes to its end. -/
theorem listAppend_sound (h : Timers s (n :: loose)) (hready : Ready s n)
    (hlast : ∀ m ∈ s.timeoList, s.timeout m ≤ s.timeout n) :
    Sound { s with timeoList := s.timeoList ++ [n] } loose ∧
      Added s n { s with timeoList := s.timeoList ++ [n] } := by
  have hfree := h.loose_free
  have hadded : Added s n { s with timeoList := s.timeoList ++ [n] } := by
    refine ⟨fun m => ?_, rfl, fun _ _ => rfl, ⟨_, rfl⟩, rfl, rfl, rfl, rfl⟩
    simp only [mem_pending, List.mem_append, List.mem_singleton]
    tauto
  refine ⟨hadded.sound h.toSound (fun m => ?_) ?_ h.sortedTree h.first (fun m hm => ?_) h.treeFlags
    ⟨hfree.2.2.1, hfree.2.2.2.1⟩ hready.valid hready.near, hadded⟩
  · simp only [Poller.held, List.count_append, List.count_cons, List.count_nil]
    omega
  · refine List.pairwise_append.mpr ⟨h.sortedList, List.pairwise_singleton _ _, fun a ha b hb => ?_⟩
    rw [List.mem_singleton.mp hb]
    exact hlast a ha
  · rcases List.mem_append.mp hm with hm | hm
    · exact h.listFlags m hm
    · rw [List.mem_singleton.mp hm]
      exact hready.flags

/-- A node goes into the tree by its deadline. -/
theorem treeInsert_sound (hops : ops.Lawful) (h : Timers s (n :: loose)) (hready : Ready s n) :
    Sound (s.treeInsert n ops) loose ∧ Added s n (s.treeInsert n ops) := by
  have hfree := h.loose_free
  have hcmp : ∀ m ∈ s.timeoTree.inorder,
      timeoutCmp (s.timeout n) (s.timeout m) < 0 ↔ ¬ s.timeout m ≤ s.timeout n := fun m hm =>
    have hm' := mem_pending.mpr (.inr hm)
    timeoutCmp_lt_zero hready.valid (h.valid m hm') (hready.near m hm')
  obtain ⟨xs, ys, hin, hlink, hxs, hys, hfirst⟩ := s.timeoTree.link_spec (x := n)
    (fun a b => s.timeout a ≤ s.timeout b) (fun h₁ h₂ => le_trans h₁ h₂)
    (fun entry => decide (timeoutCmp (s.timeout n) (s.timeout entry) < 0)) h.sortedTree
    (fun m hm hlt => le_of_not_le ((hcmp m hm).mp (of_decide_eq_true hlt)))
    (fun m hm hge => by
      by_contra hnot
      exact of_decide_eq_false hge ((hcmp m hm).mpr hnot))
  have htree : (s.treeInsert n ops).timeoTree.inorder = xs ++ n :: ys := by
    change (ops.insertColor _ n).inorder = _
    rw [hops.insertColor]
    exact hlink
  have hadded : Added s n (s.treeInsert n ops) := by
    refine ⟨fun m => ?_, rfl, fun m hne => setNode_heap_of_ne hne _, ⟨_, setNode_heap_self _⟩, rfl,
      rfl, rfl, rfl⟩
    rw [mem_pending, mem_pending, htree, hin]
    change m ∈ s.timeoList ∨ _ ↔ _
    simp only [List.mem_append, List.mem_cons]
    tauto
  have hsorted := h.sortedTree
  rw [hin] at hsorted
  obtain ⟨hsx, hsy, hxy⟩ := List.pairwise_append.mp hsorted
  refine ⟨hadded.sound h.toSound (fun m => ?_) h.sortedList ?_ ?_ (fun m hm => ?_) (fun m hm => ?_)
    ⟨hfree.2.2.1, hfree.2.2.2.1⟩ hready.valid hready.near, hadded⟩
  · have hcount : (s.treeInsert n ops).timeoTree.inorder.count m =
        s.timeoTree.inorder.count m + [n].count m := by
      rw [htree, hin]
      simp only [List.count_append, List.count_cons, List.count_nil]
      omega
    rw [Poller.held, Poller.held, hcount]
    change s.timeoList.count m + _ + s.noTimeoList.count m + (s.pipe.map Prod.fst).count m +
      (s.results.map Prod.fst).count m + _ = _
    simp only [List.count_cons, List.count_nil]
    omega
  · rw [htree]
    refine List.pairwise_append.mpr ⟨hsx, List.pairwise_cons.mpr ⟨hys, hsy⟩, fun a ha b hb => ?_⟩
    rcases List.mem_cons.mp hb with rfl | hb
    · exact hxs a ha
    · exact hxy a ha b hb
  · rw [htree]
    change (if _ then some n else s.treeFirst) = _
    rw [h.first, hin]
    split
    · rename_i hleft
      rw [hfirst.mp hleft]
      rfl
    · rename_i hleft
      cases xs with
      | nil => exact absurd (hfirst.mpr rfl) hleft
      | cons a rest => rfl
  · rw [hadded.heap m fun heq => hfree.1 (heq ▸ hm)]
    exact h.listFlags m hm
  · rcases eq_or_ne m n with rfl | hne
    · obtain ⟨-, hremoved, htimed⟩ := hready.flags
      rw [show (s.treeInsert m ops).heap m = _ from setNode_heap_self _]
      exact ⟨rfl, hremoved, htimed⟩
    · rw [hadded.heap m hne]
      refine h.treeFlags m ?_
      rw [htree, List.mem_append, List.mem_cons] at hm
      rw [hin, List.mem_append]
      tauto

/-- `__poller_insert_node` without the timer. -/
theorem addToContainer_sound (hops : ops.Lawful) (h : Timers s (n :: loose))
    (hready : Ready s n) :
    Sound (s.addToContainer n ops) loose ∧ Added s n (s.addToContainer n ops) := by
  unfold addToContainer
  split
  · rename_i hnone
    have hempty : s.timeoList = [] := List.getLast?_eq_none_iff.mp hnone
    exact listAppend_sound h hready fun m hm => by rw [hempty] at hm; cases hm
  · rename_i last hsome
    obtain ⟨front, hfront⟩ := List.getLast?_eq_some_iff.mp hsome
    have hlast : last ∈ s.pending := mem_pending.mpr (.inl (by simp [hfront]))
    have hcmp := timeoutCmp_lt_zero hready.valid (h.valid last hlast) (hready.near last hlast)
    split
    · rename_i hge
      have hle : s.timeout last ≤ s.timeout n := by
        by_contra hnot
        have := hcmp.mpr hnot
        omega
      refine listAppend_sound h hready fun m hm => le_trans ?_ hle
      have hsorted := h.sortedList
      rw [hfront] at hm hsorted
      rcases List.mem_append.mp hm with hm | hm
      · exact (List.pairwise_append.mp hsorted).2.2 m hm last (List.mem_singleton.mpr rfl)
      · rw [List.mem_singleton.mp hm]
        exact le_refl _
    · exact treeInsert_sound hops h hready

theorem setTimerfd_of_valid {t : Timespec} (ht : t.Valid) :
    s.setTimerfd t = { s with armed := some t, fired := false } := by
  obtain ⟨hsec, hnsec, hlt, hpos⟩ := ht
  rw [setTimerfd, if_neg (by omega), if_neg (by omega)]

/-- The timer is not part of the containers. -/
theorem Sound.setArmed (h : Sound s loose) (armed : Option Timespec) (fired waiting : Bool) :
    Sound { s with armed := armed, fired := fired, waiting := waiting } loose :=
  ⟨h.held, h.sortedList, h.sortedTree, h.first, h.listFlags, h.treeFlags, h.noTimeoFlags,
    h.pipeFlags, h.valid, h.near⟩

/-- What `armBefore` does to the timer. -/
structure Armed (s : Poller) (s' : Poller) : Prop where
  pending : s'.pending = s.pending
  noTimeo : s'.noTimeoList = s.noTimeoList
  heap : s'.heap = s.heap
  nodes : s'.nodes = s.nodes
  next : s'.next = s.next

theorem Armed.refl (s : Poller) : Armed s s :=
  ⟨rfl, rfl, rfl, rfl, rfl⟩

/-- If `n` is the head of one container and `other` the head of the other one, the timer is set
when it has to be. -/
theorem armBefore_timers (other : Option Nat) (h : Sound s loose) (hn : n ∈ s.pending)
    (hother : ∀ m, other = some m → m ∈ s.pending ∧ m ≠ n)
    (hfirst : (∀ m, other = some m → s.timeout n ≤ s.timeout m) →
      ∀ m ∈ s.pending, s.timeout n ≤ s.timeout m)
    (harmed : ∀ m ∈ s.pending, m ≠ n → ∃ d, s.armed = some d ∧ d ≤ s.timeout m) :
    Timers (s.armBefore n other) loose ∧ Armed s (s.armBefore n other) := by
  have hset : (∀ m, other = some m → s.timeout n ≤ s.timeout m) →
      Timers (s.setTimerfd (s.timeout n)) loose ∧ Armed s (s.setTimerfd (s.timeout n)) := by
    intro hle
    rw [setTimerfd_of_valid (h.valid n hn)]
    exact ⟨⟨h.setArmed _ _ _, fun m hm => ⟨_, rfl, hfirst hle m hm⟩⟩, rfl, rfl, rfl, rfl, rfl⟩
  cases other with
  | none => exact hset fun m hm => by cases hm
  | some m =>
      obtain ⟨hm, hne⟩ := hother m rfl
      have hcmp := timeoutCmp_lt_zero (h.valid n hn) (h.valid m hm) (h.near n hn m hm)
      unfold armBefore
      dsimp only
      split
      · rename_i hlt
        refine hset fun k hk => ?_
        rw [← Option.some.inj hk]
        exact le_of_not_le (hcmp.mp hlt)
      · rename_i hge
        refine ⟨⟨h, fun k hk => ?_⟩, Armed.refl s⟩
        rcases eq_or_ne k n with rfl | hk'
        · have hle : s.timeout m ≤ s.timeout k := by
            by_contra hnot
            exact hge (hcmp.mpr hnot)
          obtain ⟨d, hd, hdm⟩ := harmed m hm hne
          exact ⟨d, hd, le_trans hdm hle⟩
        · exact harmed k hk hk'

/-- A node with a deadline is held, and the timer is armed for it if it comes first. -/
theorem insertNode_timers (hops : ops.Lawful) (h : Timers s (n :: loose)) (hready : Ready s n) :
    Timers (s.insertNode n ops) loose ∧ ∃ s₁, Added s n s₁ ∧ Armed s₁ (s.insertNode n ops) := by
  obtain ⟨hsound, hadded⟩ := addToContainer_sound hops h hready
  unfold insertNode
  dsimp only
  generalize s.addToContainer n ops = s₁ at hsound hadded
  have hn : n ∈ s₁.pending := (hadded.pending n).mpr (.inl rfl)
  have harmed : ∀ m ∈ s₁.pending, m ≠ n → ∃ d, s₁.armed = some d ∧ d ≤ s₁.timeout m := by
    intro m hm hne
    rw [hadded.armed, hadded.timeout]
    exact h.armed m (((hadded.pending m).mp hm).resolve_left hne)
  have hone : s₁.timeoList.count n + s₁.timeoTree.inorder.count n ≤ 1 := by
    have hheld := hsound.held n
    rw [Poller.held] at hheld
    split at hheld <;> omega
  have hhead : ∀ m, s₁.timeoList.head? = some m → m ∈ s₁.timeoList := fun m hm =>
    List.mem_of_mem_head? hm
  have hfirst : ∀ m, s₁.treeFirst = some m → m ∈ s₁.timeoTree.inorder := fun m hm =>
    List.mem_of_mem_head? (hsound.first ▸ hm)
  have hapart : ∀ m, m ∈ s₁.timeoList → n ∈ s₁.timeoTree.inorder → m ≠ n := by
    rintro m hm hn' rfl
    have := List.count_pos_iff.mpr hm
    have := List.count_pos_iff.mpr hn'
    omega
  split
  · rename_i hlist
    obtain ⟨htimers, hsame⟩ := armBefore_timers (n := n) s₁.treeFirst hsound hn
      (fun m hm => ⟨mem_pending.mpr (.inr (hfirst m hm)), fun heq =>
        hapart n (hhead n hlist) (heq ▸ hfirst m hm) rfl⟩)
      (fun hle => hsound.le_of_heads
        (fun m hm => by rw [Option.some.inj (hlist.symm.trans hm)]; exact le_refl _) hle) harmed
    exact ⟨htimers, s₁, hadded, hsame⟩
  · rename_i hlist
    split
    · rename_i htree
      obtain ⟨htimers, hsame⟩ := armBefore_timers (n := n) s₁.timeoList.head? hsound hn
        (fun m hm => ⟨mem_pending.mpr (.inl (hhead m hm)), hapart m (hhead m hm) (hfirst n htree)⟩)
        (fun hle => hsound.le_of_heads hle
          (fun m hm => by rw [Option.some.inj (htree.symm.trans hm)]; exact le_refl _)) harmed
      exact ⟨htimers, s₁, hadded, hsame⟩
    · rename_i htree
      -- `n` is behind the head of its container, for which the timer was set in time
      refine ⟨⟨hsound, fun m hm => ?_⟩, s₁, hadded, Armed.refl s₁⟩
      rcases eq_or_ne m n with rfl | hne
      · have hbehind : ∃ k ∈ s₁.pending, k ≠ m ∧ s₁.timeout k ≤ s₁.timeout m := by
          rcases mem_pending.mp hm with hin | hin
          · cases hl : s₁.timeoList with
            | nil => rw [hl] at hin; cases hin
            | cons k rest =>
                have hk : k ≠ m := fun heq => hlist (by rw [hl, heq]; rfl)
                have hsorted := hsound.sortedList
                rw [hl] at hin hsorted
                refine ⟨k, mem_pending.mpr (.inl (by simp [hl])), hk, ?_⟩
                exact List.rel_of_pairwise_cons hsorted (List.mem_of_ne_of_mem hk.symm hin)
          · rw [hsound.first] at htree
            cases hl : s₁.timeoTree.inorder with
            | nil => rw [hl] at hin; cases hin
            | cons k rest =>
                have hk : k ≠ m := fun heq => htree (by rw [hl, heq]; rfl)
                have hsorted := hsound.sortedTree
                rw [hl] at hin hsorted
                refine ⟨k, mem_pending.mpr (.inr (by simp [hl])), hk, ?_⟩
                exact List.rel_of_pairwise_cons hsorted (List.mem_of_ne_of_mem hk.symm hin)
        obtain ⟨k, hk, hkm, hle⟩ := hbehind
        obtain ⟨d, hd, hdk⟩ := harmed k hk hkm
        exact ⟨d, hd, le_trans hdk hle⟩
      · exact harmed m hm hne

/-- What `place` does to the containers. -/
structure Placing (s : Poller) (n : Nat) (s' : Poller) : Prop where
  contained : ∀ m, m ∈ s'.contained ↔ m = n ∨ m ∈ s.contained
  heap : ∀ m, m ≠ n → s'.heap m = s.heap m
  data : (s'.heap n).data = (s.heap n).data
  nodes : s'.nodes = s.nodes

/-- A node is put where its deadline says, or among those without one. -/
theorem place_timers (hops : ops.Lawful) (h : Timers s (n :: loose))
    (hflags : (s.heap n).inRbtree = false ∧ (s.heap n).removed = false)
    (timeout : Option Timespec) (htimeout : ∀ t, timeout = some t →
      t.Valid ∧ ∀ m ∈ s.pending, Near t (s.timeout m)) :
    Timers (s.place n ops timeout) loose ∧ Placing s n (s.place n ops timeout) := by
  have hfree := h.loose_free
  have hnot := h.loose_notMem
  cases timeout with
  | none =>
      have h₁ := h.setNode { s.heap n with timed := false }
      have hheap : ∀ m, m ≠ n → (s.place n ops none).heap m = s.heap m := fun m hne =>
        setNode_heap_of_ne hne _
      refine ⟨⟨⟨fun m => ?_, h₁.sortedList, h₁.sortedTree, h₁.first, h₁.listFlags, h₁.treeFlags,
        fun m hm => ?_, h₁.pipeFlags, h₁.valid, h₁.near⟩, h₁.armed⟩, fun m => ?_, hheap, ?_, rfl⟩
      · have hheld := h.held m
        change _ = if m < s.next then 1 else 0
        rw [← hheld]
        simp only [place, setNode, Poller.held, List.count_append, List.count_cons, List.count_nil]
        omega
      · rcases List.mem_append.mp hm with hm | hm
        · exact h₁.noTimeoFlags m hm
        · rw [List.mem_singleton.mp hm, show (s.place n ops none).heap n = _ from
            setNode_heap_self _]
          exact ⟨hflags.1, hflags.2, rfl⟩
      · rw [mem_contained, mem_contained]
        change m ∈ s.timeoList ∨ m ∈ s.timeoTree.inorder ∨ m ∈ s.noTimeoList ++ [n] ↔ _
        rw [List.mem_append, List.mem_singleton]
        tauto
      · rw [show (s.place n ops none).heap n = _ from setNode_heap_self _]
  | some t =>
      obtain ⟨hvalid, hnear⟩ := htimeout t rfl
      have h₁ := h.setNode { s.heap n with timeout := t, timed := true }
      have hself : (s.setNode n { s.heap n with timeout := t, timed := true }).heap n =
          { s.heap n with timeout := t, timed := true } := setNode_heap_self _
      have hready : Ready (s.setNode n { s.heap n with timeout := t, timed := true }) n := by
        refine ⟨?_, ?_, fun m hm => ?_⟩
        · rw [hself]
          exact ⟨hflags.1, hflags.2, rfl⟩
        · rw [Poller.timeout, hself]
          exact hvalid
        · have hne : m ≠ n := by
            rintro rfl
            exact hnot (List.mem_append.mpr (.inl hm))
          rw [Poller.timeout, Poller.timeout, hself, setNode_heap_of_ne hne]
          exact hnear m hm
      obtain ⟨htimers, s₁, hadded, hsame⟩ := insertNode_timers hops h₁ hready
      refine ⟨htimers, fun m => ?_, fun m hne => ?_, ?_, ?_⟩
      · change m ∈ (insertNode _ n ops).contained ↔ _
        rw [Poller.contained, hsame.pending, hsame.noTimeo, hadded.noTimeo, List.mem_append,
          hadded.pending, Poller.contained, List.mem_append, or_assoc]
        rfl
      · change (insertNode _ n ops).heap m = _
        rw [hsame.heap, hadded.heap m hne, setNode_heap_of_ne hne]
      · change ((insertNode _ n ops).heap n).data = _
        obtain ⟨flag, hnode⟩ := hadded.node
        rw [hsame.heap, hnode, hself]
      · change (insertNode _ n ops).nodes = _
        rw [hsame.nodes, hadded.nodes]
        rfl

end Poller

end Workflow.Kernel

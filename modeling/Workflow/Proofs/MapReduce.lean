/-
Module: Workflow.Proofs.MapReduce
Layer: Proofs
Purpose: The reducer combines all values of every key. Both iterators hand out what they hold, each
  value once, and take the output back (`HoldsValues`); a call of the user's function that takes at
  least two values leaves fewer of them with the same combination. The iterator over class values hands
  them out by size, since its slots are a heap.
Trusted boundary: none
Main exports: heapify_spec, HoldsValues, heapIterator_holds, listIterator_holds,
  ReduceFunction.Combines, keyLoop_spec, insertAll_holds, Reduced, reducer_combines
-/
import Workflow.Algorithm.MapReduce
import Workflow.Lib.Combine
import Workflow.Lib.HeapValues
import Mathlib.Algebra.Ring.Nat

namespace Workflow.Algorithm

open Workflow.Lib

universe u v w x

variable {K : Type u} {V : Type v} {S : Type w} {I : Type x}

/-! ### The heap -/

section Heap

variable {size : V → Nat} {heap : Nat → V} {n m k : Nat} {data : V}

/-- The children of a slot. -/
theorem child_iff {j : Nat} : (0 < j ∧ parent j = k) ↔ j = 2 * k + 1 ∨ j = 2 * k + 2 := by
  unfold parent
  omega

/-- The value goes into the free slot, with its children in order. -/
theorem sunk_here (hnear : NearFrom size (Function.update heap k data) n m k)
    (hup : UpFrom size (Function.update heap k data) m k)
    (hdown : ∀ j, j = 2 * k + 1 ∨ j = 2 * k + 2 → j < n → size data ≤ size (heap j)) :
    HeapFrom size (Function.update heap k data) n m := by
  refine hnear.heapFrom hup fun j hj hjn hparent => ?_
  have hjk : j ≠ k := by
    rintro rfl
    exact (parent_lt hj).ne hparent
  rw [Function.update_self, Function.update_of_ne hjk]
  exact hdown j (child_iff.mp ⟨hj, hparent⟩) hjn

/-- What is needed to go on from the child `c` of the free slot. -/
theorem sinks {c : Nat} (hnear : NearFrom size (Function.update heap k data) n m k) (hm : m ≤ k)
    (hc : c = 2 * k + 1 ∨ c = 2 * k + 2) (hcn : c < n) (hx : size (heap c) ≤ size data)
    (hmin : ∀ j, j = 2 * k + 1 ∨ j = 2 * k + 2 → j < n → size (heap c) ≤ size (heap j)) :
    NearFrom size (Function.update (Function.update heap k (heap c)) c data) n m c ∧
      UpFrom size (Function.update (Function.update heap k (heap c)) c data) m c ∧
      contents (Function.update (Function.update heap k (heap c)) c data) n =
        contents (Function.update heap k data) n := by
  obtain ⟨hcpos, hparent⟩ := child_iff.mpr hc
  obtain ⟨hnear', hup'⟩ := hnear.down hm hcpos hcn hparent hx
    fun j hj hjn hpj => hmin j (child_iff.mp ⟨hj, hpj⟩) hjn
  exact ⟨hnear', hup', contents_move (by omega) hcn (by omega)⟩

/-- `heapify` moves the value down until its children are in order with it. -/
theorem heapifyLoop_spec (hm : m ≤ k)
    (hnear : NearFrom size (Function.update heap k data) n m k)
    (hup : UpFrom size (Function.update heap k data) m k) :
    HeapFrom size (heapifyLoop size n data heap k) n m ∧
      contents (heapifyLoop size n data heap k) n = contents (Function.update heap k data) n := by
  fun_induction heapifyLoop size n data heap k with
  | case1 heap k hsize hleft hright ih =>
      obtain ⟨hnear', hup', hsame⟩ := sinks hnear hm (.inr rfl) (by omega) (by omega)
        (by rintro j (rfl | rfl) _ <;> omega)
      obtain ⟨hheap, hcontents⟩ := ih (by omega) hnear' hup'
      exact ⟨hheap, hcontents.trans hsame⟩
  | case2 heap k hsize hleft hright ih =>
      obtain ⟨hnear', hup', hsame⟩ := sinks hnear hm (.inl rfl) (by omega) (by omega)
        (by rintro j (rfl | rfl) _ <;> omega)
      obtain ⟨hheap, hcontents⟩ := ih (by omega) hnear' hup'
      exact ⟨hheap, hcontents.trans hsame⟩
  | case3 heap k hsize hleft hright ih =>
      obtain ⟨hnear', hup', hsame⟩ := sinks hnear hm (.inr rfl) (by omega) (by omega)
        (by rintro j (rfl | rfl) _ <;> omega)
      obtain ⟨hheap, hcontents⟩ := ih (by omega) hnear' hup'
      exact ⟨hheap, hcontents.trans hsame⟩
  | case4 heap k hsize hleft hright =>
      exact ⟨sunk_here hnear hup (by rintro j (rfl | rfl) _ <;> omega), rfl⟩
  | case5 heap k hsize hlast =>
      obtain ⟨hnear', hup', hsame⟩ := sinks hnear hm (.inl rfl) (by omega) (by omega)
        (by rintro j (rfl | rfl) _ <;> omega)
      -- the only child is the last value, so it has no children of its own
      exact ⟨sunk_here hnear' hup' (by rintro j (rfl | rfl) hj <;> omega), hsame⟩
  | case6 heap k hsize hlast =>
      refine ⟨sunk_here hnear hup ?_, rfl⟩
      rintro j (rfl | rfl) hj
      · have hnot : ¬ size (heap (2 * k + 1)) < size data := fun hlt => hlast ⟨by omega, hlt⟩
        omega
      · omega

/-- `heapify` puts the top element in its place. -/
theorem heapify_spec (h : HeapFrom size heap n (k + 1)) :
    HeapFrom size (heapify size heap n k) n k ∧
      contents (heapify size heap n k) n = contents heap n := by
  obtain ⟨hnear, hup⟩ := h.nearFrom
  have hself : Function.update heap k (heap k) = heap := Function.update_eq_self ..
  rw [← hself] at hnear hup
  have hspec := heapifyLoop_spec (Nat.le_refl k) hnear hup
  rwa [hself] at hspec

/-- The loop of the constructor makes a heap of any array. -/
theorem heapifyAll_spec (h : HeapFrom size heap n k) :
    HeapFrom size (heapifyAll size n k heap) n 0 ∧
      contents (heapifyAll size n k heap) n = contents heap n := by
  induction k generalizing heap with
  | zero => exact ⟨h, rfl⟩
  | succ k ih =>
      obtain ⟨hheap, hcontents⟩ := heapify_spec h
      obtain ⟨hrest, hsame⟩ := ih hheap
      exact ⟨hrest, hsame.trans hcontents⟩

/-- `heap_insert` moves the value up until its parent is in order with it. -/
theorem heapInsertLoop_spec (hk : k < n)
    (hnear : NearHeap size (Function.update heap k data) n k)
    (hdown : DownOk size (Function.update heap k data) n k) :
    IsHeap size (heapInsertLoop size data heap k) n ∧
      contents (heapInsertLoop size data heap k) n = contents (Function.update heap k data) n := by
  fun_induction heapInsertLoop size data heap k with
  | case1 heap k hpos hlt ih =>
      have hp := parent_lt hpos
      obtain ⟨hnear', hdown'⟩ := hnear.up hpos hk hlt.le
      obtain ⟨hheap, hcontents⟩ := ih (by omega) hnear' hdown'
      exact ⟨hheap, hcontents.trans (contents_move hk (by omega) hp.ne)⟩
  | case2 heap k hpos hlt =>
      refine ⟨hnear.isHeap (fun _ => ?_) hdown, rfl⟩
      rw [Function.update_self, Function.update_of_ne (parent_lt hpos).ne]
      exact Nat.le_of_not_lt hlt
  | case3 heap k hpos => exact ⟨hnear.isHeap (fun h => absurd h hpos) hdown, rfl⟩

end Heap

/-! ### What the iterators hold -/

/-- What the loops of `start` need of an iterator: what it holds between two calls of the user's
function and during a call, and what is known of the values that a call takes. -/
structure HoldsValues (iter : ReduceIteratorOps V I) (Rests : I → Multiset V → Prop)
    (Takes : I → Multiset V → List V → Prop) (Ordered : List V → Prop) : Prop where
  create : ∀ values : List V, 2 ≤ values.length → ∃ front rest, values = front ++ rest ∧
    2 ≤ front.length ∧ Rests (iter.create values values.length).1 front ∧
    (iter.create values values.length).2 = (rest, rest.length)
  reduceBegin : ∀ it left, Rests it left → Takes (iter.reduceBegin it) left []
  next : ∀ it left taken, Takes it left taken →
    (left = 0 ∧ iter.next it = (none, it)) ∨
    ∃ v left' it', left = v ::ₘ left' ∧ iter.next it = (some v, it') ∧ Takes it' left' (taken ++ [v])
  ordered : ∀ it left taken, Takes it left taken → Ordered taken
  reduceEnd : ∀ it left taken v, Takes it left taken → taken ≠ [] →
    ∃ it', iter.reduceEnd v it = some it' ∧ Rests it' (v ::ₘ left)
  count : ∀ it left, Rests it left → iter.count it = left.card
  value : ∀ it v, Rests it {v} → iter.value it = v

section HeapIterator

variable {size : V → Nat} {it : HeapIterator V} {left : Multiset V} {taken : List V}

/-- The values in the heap between two calls. -/
structure HeapRests (size : V → Nat) (it : HeapIterator V) (left : Multiset V) : Prop where
  heap : IsHeap size it.heap it.heapSize
  values : contents it.heap it.heapSize = left

/-- The same during a call: what was taken comes before what is left. -/
structure HeapTakes (size : V → Nat) (it : HeapIterator V) (left : Multiset V) (taken : List V) :
    Prop extends HeapRests size it left where
  originalSize : it.heapSize + taken.length = it.originalSize
  sorted : taken.Pairwise fun v w => size v ≤ size w
  before : ∀ v ∈ taken, ∀ w ∈ left, size v ≤ size w

/-- A new heap iterator holds the first `HEAP_MAX` values. -/
theorem heapCreate_rests [Inhabited V] (values : List V) :
    HeapRests size (HeapIterator.create size values values.length).1
      (values.take (min heapMax values.length)) := by
  set n := min heapMax values.length with hn
  have hle : n ≤ values.length := Nat.min_le_right ..
  have hhalf : HeapFrom size (fun i => values.getD i default) n (n / 2) := heapFrom_half _ n
  obtain ⟨hheap, hcontents⟩ := heapifyAll_spec hhalf
  refine ⟨heapFrom_zero.mp hheap, hcontents.trans ?_⟩
  have hlength : (values.take n).length = n := by rw [List.length_take]; omega
  rw [← contents_list (values.take n) default, hlength]
  refine contents_congr fun i hi => ?_
  rw [List.getD_eq_getElem?_getD, List.getD_eq_getElem?_getD, List.getElem?_take_of_lt hi]

/-- `next` takes the smallest value out of the heap. -/
theorem heapNext_takes {m : Nat} (h : HeapTakes size it left taken) (hsize : it.heapSize = m + 1) :
    ∃ left' it', left = it.heap 0 ::ₘ left' ∧ HeapIterator.next size it = (some (it.heap 0), it') ∧
      HeapTakes size it' left' (taken ++ [it.heap 0]) := by
  have hnear : HeapFrom size (Function.update it.heap 0 (it.heap m)) m 1 := by
    intro j hj hjm hparent
    rw [Function.update_of_ne (by omega), Function.update_of_ne (by omega)]
    exact h.heap j hj (by omega)
  obtain ⟨hheap, hcontents⟩ := heapify_spec hnear
  have hleft : left = it.heap 0 ::ₘ contents (Function.update it.heap 0 (it.heap m)) m := by
    rw [← h.values, hsize]
    rcases Nat.eq_zero_or_pos m with rfl | hpos
    · rfl
    · rw [contents_replace hpos, contents_succ]
  have hroot : ∀ w ∈ left, size (it.heap 0) ≤ size w := by
    intro w hw
    rw [← h.values] at hw
    obtain ⟨i, hi, rfl⟩ := mem_contents.mp hw
    exact h.heap.root_le hi
  refine ⟨_, _, hleft, by rw [HeapIterator.next, if_neg (by omega)], ⟨⟨?_, ?_⟩, ?_, ?_, ?_⟩⟩
  · have hsub : it.heapSize - 1 = m := by omega
    simp only [hsub]
    intro j hj hjm
    have hp := parent_lt hj
    rw [Function.update_of_ne (by omega), Function.update_of_ne (by omega)]
    exact heapFrom_zero.mp hheap j hj hjm
  · have hsub : it.heapSize - 1 = m := by omega
    simp only [hsub]
    rw [contents_update_of_le (Nat.le_refl m), hcontents]
  · have := h.originalSize
    simp only [List.length_append, List.length_singleton]
    omega
  · refine List.pairwise_append.mpr ⟨h.sorted, List.pairwise_singleton _ _, fun v hv w hw => ?_⟩
    obtain rfl := List.mem_singleton.mp hw
    exact h.before v hv _ (hleft ▸ Multiset.mem_cons_self _ _)
  · intro v hv w hw
    have hwleft : w ∈ left := hleft ▸ Multiset.mem_cons_of_mem hw
    rcases List.mem_append.mp hv with hv | hv
    · exact h.before v hv w hwleft
    · obtain rfl := List.mem_singleton.mp hv
      exact hroot w hwleft

/-- `reduce_end` puts the combined value back for those that were taken. -/
theorem heapEnd_rests (h : HeapTakes size it left taken) (hne : taken ≠ []) (v : V) :
    ∃ it', HeapIterator.reduceEnd size v it = some it' ∧ HeapRests size it' (v ::ₘ left) := by
  have hpos := List.length_pos_of_ne_nil hne
  have hsize := h.originalSize
  set heap := Function.update it.heap it.heapSize v with hheap
  have hself : Function.update heap it.heapSize v = heap := by
    rw [hheap, Function.update_idem]
  have hnear : NearHeap size heap (it.heapSize + 1) it.heapSize := by
    refine ⟨fun j hj hjn hjk hparent => ?_, fun j hj hjn hparent _ => ?_⟩
    · rw [hheap, Function.update_of_ne hparent, Function.update_of_ne hjk]
      exact h.heap j hj (by omega)
    · have := parent_lt hj
      omega
  have hdown : DownOk size heap (it.heapSize + 1) it.heapSize := by
    intro j hj hjn hparent
    have := parent_lt hj
    omega
  rw [← hself] at hnear hdown
  obtain ⟨hisHeap, hcontents⟩ := heapInsertLoop_spec (Nat.lt_succ_self it.heapSize) hnear hdown
  have hself' : heap it.heapSize = v := Function.update_self ..
  refine ⟨_, by rw [HeapIterator.reduceEnd, if_neg (by omega)], ⟨?_, ?_⟩⟩
  · simp only [← hheap, hself']
    exact hisHeap
  · simp only [← hheap, hself']
    rw [hcontents, hself, contents_succ, hself', hheap, contents_update_of_le (Nat.le_refl _),
      h.values]

/-- The iterator over class values hands them out by size. -/
theorem heapIterator_holds [Inhabited V] :
    HoldsValues (heapIterator size) (HeapRests size) (HeapTakes size)
      (fun taken => taken.Pairwise fun v w => size v ≤ size w) where
  create values hvalues := by
    refine ⟨values.take (min heapMax values.length), values.drop (min heapMax values.length),
      (List.take_append_drop _ _).symm, ?_, heapCreate_rests values, ?_⟩
    · rw [List.length_take]
      unfold heapMax
      omega
    · rw [List.length_drop]
      rfl
  reduceBegin it left h := ⟨⟨h.heap, h.values⟩, rfl, .nil, fun v hv => absurd hv List.not_mem_nil⟩
  next it left taken h := by
    rcases hsize : it.heapSize with _ | m
    · refine .inl ⟨?_, by simp only [heapIterator, HeapIterator.next, hsize, if_pos]⟩
      rw [← h.values, hsize, contents_zero]
    · obtain ⟨left', it', hleft, hnext, htakes⟩ := heapNext_takes h hsize
      exact .inr ⟨_, left', it', hleft, hnext, htakes⟩
  ordered it left taken h := h.sorted
  reduceEnd it left taken v h hne := heapEnd_rests h hne v
  count it left h := by
    rw [← h.values, card_contents]
    rfl
  value it v h := by
    have hcard : it.heapSize = 1 := by
      rw [← card_contents it.heap it.heapSize, h.values, Multiset.card_singleton]
    have hvalues := h.values
    rw [hcard, contents_succ, contents_zero, Multiset.cons_zero] at hvalues
    exact Multiset.singleton_inj.mp hvalues

end HeapIterator

section ListIterator

/-- The values in the list between two calls. -/
structure ListRests (it : ListIterator V) (left : Multiset V) : Prop where
  values : (it.valueList : Multiset V) = left
  count : it.valueCnt = left.card

/-- The same during a call: the values that were taken stand in front. -/
structure ListTakes (it : ListIterator V) (left : Multiset V) (taken : List V) : Prop where
  front : it.valueList.take it.cursor = taken
  cursor : it.cursor ≤ it.valueList.length
  values : (it.valueList.drop it.cursor : Multiset V) = left
  count : it.valueCnt = left.card

/-- The iterator over other values. -/
theorem listIterator_holds [Inhabited V] :
    HoldsValues (listIterator (V := V)) ListRests ListTakes (fun _ => True) where
  create values hvalues :=
    ⟨values, [], (List.append_nil _).symm, hvalues, ⟨rfl, (Multiset.coe_card _).symm⟩, rfl⟩
  reduceBegin it left h := ⟨rfl, Nat.zero_le _, h.values, h.count⟩
  next it left taken h := by
    rcases Nat.lt_or_ge it.cursor it.valueList.length with hlt | hge
    · have hget : it.valueList[it.cursor]? = some it.valueList[it.cursor] :=
        List.getElem?_eq_getElem hlt
      have hleft : left = it.valueList[it.cursor] ::ₘ
          (it.valueList.drop (it.cursor + 1) : Multiset V) := by
        rw [← h.values, List.drop_eq_getElem_cons hlt, Multiset.cons_coe]
      refine .inr ⟨_, _, { it with cursor := it.cursor + 1, valueCnt := it.valueCnt - 1 }, hleft,
        by simp only [listIterator, ListIterator.next, hget], ⟨?_, hlt, rfl, ?_⟩⟩
      · rw [← h.front, List.take_succ_eq_append_getElem hlt]
      · have hcount := h.count
        rw [hleft, Multiset.card_cons] at hcount
        simp only [hcount, Nat.add_sub_cancel]
    · have hget : it.valueList[it.cursor]? = none := List.getElem?_eq_none hge
      refine .inl ⟨?_, by simp only [listIterator, ListIterator.next, hget]⟩
      rw [← h.values, List.drop_of_length_le hge]
      rfl
  ordered _ _ _ _ := trivial
  reduceEnd it left taken v h hne := by
    have hcursor : it.cursor ≠ 0 := by
      intro hzero
      have hfront := h.front
      rw [hzero, List.take_zero] at hfront
      exact hne hfront.symm
    refine ⟨{ it with
      valueList := it.valueList.drop it.cursor ++ [v]
      valueCnt := it.valueCnt + 1 },
      by simp only [listIterator, ListIterator.reduceEnd, if_neg hcursor], ⟨?_, ?_⟩⟩
    · rw [← h.values, ← Multiset.coe_add, Multiset.coe_singleton, Multiset.add_comm,
        Multiset.singleton_add]
    · rw [h.count, Multiset.card_cons]
  count it left h := h.count
  value it v h := by
    have hlist : it.valueList = [v] := Multiset.coe_eq_singleton.mp h.values
    simp only [listIterator, hlist, List.headD_cons]

end ListIterator

/-! ### A call of the user's function -/

section Reduce

variable {iter : ReduceIteratorOps V I} {Rests : I → Multiset V → Prop}
  {Takes : I → Multiset V → List V → Prop} {Ordered : List V → Prop}
  {reduce : ReduceFunction K V S} {op : V → V → V} [Std.Commutative op] [Std.Associative op]

/-- The user's function takes two values if there are so many, and gives the combination of what it
has taken. -/
structure ReduceFunction.Combines (reduce : ReduceFunction K V S) (op : V → V → V)
    [Std.Commutative op] [Std.Associative op] : Prop where
  wants : ∀ s key n taken, taken.length < 2 → reduce.wants s key n taken = true
  finish : ∀ s key n taken, taken ≠ [] →
    some (reduce.finish s key n taken).1 = combined op (taken : Multiset V)

/-- What a call does is recorded: the values came in order, and there were at least two. -/
def CallsOk (Ordered : List V → Prop) (r : Reducing S V) : Prop :=
  ∀ taken ∈ r.calls, Ordered taken ∧ 2 ≤ taken.length

/-- A call ends: it has taken at least two values, or all. -/
theorem take_spec (hiter : HoldsValues iter Rests Takes Ordered) (hreduce : reduce.Combines op)
    (s : S) (key : K) {fuel : Nat} {it : I} {left : Multiset V} {taken : List V}
    (h : Takes it left taken) (hfuel : left.card < fuel) :
    ∃ taken' left' it', loop (takeStep iter reduce s key) fuel (taken, it) = some (taken', it') ∧
      Takes it' left' taken' ∧ (taken' : Multiset V) + left' = taken + left ∧
      (2 ≤ taken'.length ∨ left' = 0) := by
  induction fuel generalizing it left taken with
  | zero => exact absurd hfuel (Nat.not_lt_zero _)
  | succ fuel ih =>
      cases hwants : reduce.wants s key (iter.size it) taken with
      | false =>
          have hlength : 2 ≤ taken.length := by
            by_contra hlt
            rw [hreduce.wants s key _ taken (by omega)] at hwants
            exact Bool.noConfusion hwants
          refine ⟨taken, left, it, loop_done ?_ fuel, h, rfl, .inl hlength⟩
          simp only [takeStep, hwants, Bool.false_eq_true, if_false]
      | true =>
          rcases hiter.next it left taken h with ⟨hzero, hnext⟩ | ⟨v, left', it', hleft, hnext, htakes⟩
          · refine ⟨taken, left, it, loop_done ?_ fuel, h, rfl, .inr hzero⟩
            simp only [takeStep, hwants, if_true, hnext]
          · have hstep : takeStep iter reduce s key (taken, it) = .next (taken ++ [v], it') := by
              simp only [takeStep, hwants, if_true, hnext]
            rw [hleft, Multiset.card_cons] at hfuel
            obtain ⟨taken', left'', it'', hloop, htakes', hsum, hend⟩ := ih htakes (by omega)
            refine ⟨taken', left'', it'', by rw [loop_next hstep, hloop], htakes', ?_, hend⟩
            rw [hsum, hleft, ← Multiset.coe_add, Multiset.coe_singleton, add_assoc,
              Multiset.singleton_add]

/-- One pass of the `do` loop: fewer values, with the same combination. -/
theorem reduceStep_spec (hiter : HoldsValues iter Rests Takes Ordered)
    (hreduce : reduce.Combines op) (key : K) {fuel : Nat} {it : I} {left : Multiset V}
    {r : Reducing S V} (h : Rests it left) (hcard : 2 ≤ left.card) (hfuel : left.card < fuel)
    (hr : CallsOk Ordered r) :
    ∃ r' it' left', reduceStep iter reduce fuel key (r, it) =
        (if left'.card > 1 then .next (r', it') else .done (some (r', it'))) ∧
      Rests it' left' ∧ left' ≠ 0 ∧ left'.card < left.card ∧
      combined op left' = combined op left ∧ CallsOk Ordered r' := by
  obtain ⟨taken, rest, it₁, hloop, htakes, hsum, hend⟩ :=
    take_spec hiter hreduce r.user key (hiter.reduceBegin it left h) hfuel
  rw [Multiset.coe_nil, Multiset.zero_add] at hsum
  have hlength : 2 ≤ taken.length := by
    rcases hend with hlength | hzero
    · exact hlength
    · rw [← hsum, hzero, Multiset.add_zero, Multiset.coe_card] at hcard
      exact hcard
  have hne : taken ≠ [] := by
    rintro rfl
    exact absurd hlength (by simp)
  obtain ⟨it₂, hreduceEnd, hrests⟩ := hiter.reduceEnd it₁ rest taken
    (reduce.finish r.user key (iter.size it₁) taken).1 htakes hne
  refine ⟨⟨(reduce.finish r.user key (iter.size it₁) taken).2, r.calls ++ [taken]⟩, it₂, _, ?_,
    hrests, Multiset.cons_ne_zero, ?_, ?_, fun t ht => ?_⟩
  · simp only [reduceStep, hloop, hreduceEnd, hiter.count it₂ _ hrests]
  · rw [← hsum, Multiset.card_cons, Multiset.card_add, Multiset.coe_card]
    omega
  · rw [combined_replace op (hreduce.finish r.user key _ taken hne).symm, hsum]
  · rcases List.mem_append.mp ht with ht | ht
    · exact hr t ht
    · obtain rfl := List.mem_singleton.mp ht
      exact ⟨hiter.ordered _ _ _ htakes, hlength⟩

/-- The `do` loop leaves the combination of the values in the iterator. -/
theorem reduceLoop_spec (hiter : HoldsValues iter Rests Takes Ordered)
    (hreduce : reduce.Combines op) (key : K) (fuel passes : Nat) {it : I} {left : Multiset V}
    {r : Reducing S V} (h : Rests it left) (hcard : 2 ≤ left.card) (hfuel : left.card < fuel)
    (hpasses : left.card ≤ passes) (hr : CallsOk Ordered r) :
    ∃ r' it' v, loop (reduceStep iter reduce fuel key) passes (r, it) = some (some (r', it')) ∧
      Rests it' {v} ∧ combined op left = some v ∧ CallsOk Ordered r' := by
  induction passes generalizing it left r with
  | zero => omega
  | succ passes ih =>
      obtain ⟨r₁, it₁, left₁, hstep, hrests, hne, hless, hcombined, hcalls⟩ :=
        reduceStep_spec hiter hreduce key h hcard hfuel hr
      by_cases hmore : left₁.card > 1
      · rw [if_pos hmore] at hstep
        obtain ⟨r', it', v, hloop, hlast, hv, hcalls'⟩ :=
          ih hrests hmore (by omega) (by omega) hcalls
        exact ⟨r', it', v, by rw [loop_next hstep, hloop], hlast, hcombined ▸ hv, hcalls'⟩
      · rw [if_neg hmore] at hstep
        have hone : left₁.card = 1 := by
          have := Multiset.card_pos.mpr hne
          omega
        obtain ⟨v, rfl⟩ := Multiset.card_eq_one.mp hone
        exact ⟨r₁, it₁, v, loop_done hstep passes, hrests,
          by rw [← hcombined, combined_singleton], hcalls⟩

/-- The loop over the iterators leaves the combination of the values of a key. -/
theorem keyLoop_spec (hiter : HoldsValues iter Rests Takes Ordered) (hreduce : reduce.Combines op)
    (key : K) (fuel passes : Nat) {values : List V} {r : Reducing S V} (hne : values ≠ [])
    (hfuel : values.length < fuel) (hpasses : values.length ≤ passes) (hr : CallsOk Ordered r) :
    ∃ r' v, loop (keyStep iter reduce fuel key) passes
        { reducing := r, valueList := values, valueCnt := values.length } =
          some (some { reducing := r', valueList := [v], valueCnt := 1 }) ∧
      combined op (values : Multiset V) = some v ∧ CallsOk Ordered r' := by
  induction passes generalizing values r with
  | zero => exact absurd (List.length_eq_zero_iff.mp (Nat.le_zero.mp hpasses)) hne
  | succ passes ih =>
      by_cases hmore : values.length > 1
      · obtain ⟨front, rest, hvalues, hfront, hrests, hcreate⟩ := hiter.create values hmore
        have hlength : values.length = front.length + rest.length := by
          rw [hvalues, List.length_append]
        obtain ⟨r₁, it, v, hloop, hlast, hv, hcalls⟩ := reduceLoop_spec hiter hreduce key fuel fuel
          hrests (by rwa [Multiset.coe_card]) (by rw [Multiset.coe_card]; omega)
          (by rw [Multiset.coe_card]; omega) hr
        have hstep : keyStep iter reduce fuel key ⟨r, values, values.length⟩ =
            .next ⟨r₁, rest ++ [v], (rest ++ [v]).length⟩ := by
          simp only [keyStep, if_pos hmore, hcreate, hloop, hiter.value it v hlast,
            List.length_append, List.length_singleton]
        have hshort : (rest ++ [v]).length < values.length := by
          rw [List.length_append, List.length_singleton]
          omega
        have hrest : rest ++ [v] ≠ [] := by simp
        obtain ⟨r', w, hloop', hw, hcalls'⟩ := ih hrest (by omega) (by omega) hcalls
        refine ⟨r', w, by rw [loop_next hstep, hloop'], ?_, hcalls'⟩
        rw [← hw, hvalues, ← Multiset.coe_add, ← Multiset.coe_add, Multiset.coe_singleton,
          Multiset.add_comm (rest : Multiset V), Multiset.singleton_add, combined_replace op hv]
      · obtain ⟨v, rfl⟩ : ∃ v, values = [v] := by
          refine List.length_eq_one_iff.mp ?_
          have := List.length_pos_of_ne_nil hne
          omega
        refine ⟨r, v, loop_done ?_ passes, ?_, hr⟩
        · exact if_neg hmore
        · rw [Multiset.coe_singleton, combined_singleton]

end Reduce

/-! ### The keys -/

section Keys

variable [LinearOrder K] {ops : TreeOps K} {key : K} {r : Reducer K V}

/-- The values that were inserted for a key, in order. -/
def valuesOf (inserts : List (K × V)) (key : K) : List V :=
  (inserts.filter fun entry => entry.1 = key).map Prod.snd

/-- What the reducer holds after some calls of `insert`. -/
structure Reducer.Holds (r : Reducer K V) (inserts : List (K × V)) : Prop where
  sorted : r.keyTree.inorder.Pairwise (· < ·)
  keys : ∀ key, key ∈ r.keyTree.inorder ↔ key ∈ inserts.map Prod.fst
  values : ∀ key ∈ r.keyTree.inorder, r.valueList key = valuesOf inserts key
  counts : ∀ key ∈ r.keyTree.inorder, r.valueCnt key = (r.valueList key).length

/-- A key that was not inserted has no values. -/
theorem valuesOf_eq_nil {inserts : List (K × V)} :
    valuesOf inserts key = [] ↔ key ∉ inserts.map Prod.fst := by
  simp only [valuesOf, List.map_eq_nil_iff, List.filter_eq_nil_iff, decide_eq_true_eq, List.mem_map,
    not_exists, not_and]

theorem length_valuesOf_le (inserts : List (K × V)) (key : K) :
    (valuesOf inserts key).length ≤ inserts.length := by
  rw [valuesOf, List.length_map]
  exact List.length_filter_le _ _

/-- An insertion adds its value to those of its key. -/
theorem valuesOf_append (inserts : List (K × V)) (key key' : K) (value : V) :
    valuesOf (inserts ++ [(key, value)]) key' =
      if key = key' then valuesOf inserts key' ++ [value] else valuesOf inserts key' := by
  rw [valuesOf, List.filter_append, List.map_append]
  by_cases h : key = key'
  · have hkept : [(key, value)].filter (fun entry => entry.1 = key') = [(key, value)] :=
      List.filter_cons_of_pos (decide_eq_true h)
    rw [if_pos h, hkept]
    rfl
  · have hdropped : [(key, value)].filter (fun entry => entry.1 = key') = [] :=
      List.filter_cons_of_neg (by simpa using h)
    rw [if_neg h, hdropped, List.map_nil, List.append_nil]
    rfl

/-- The descent finds a key of the tree. -/
theorem findKey_iff {t : SearchTree K} (hsorted : t.inorder.Pairwise (· < ·)) :
    findKey key t = true ↔ key ∈ t.inorder := by
  induction t with
  | leaf => simp [findKey, SearchTree.inorder]
  | node left y right ihLeft ihRight =>
      simp only [SearchTree.inorder, List.pairwise_append, List.pairwise_cons, List.mem_cons] at hsorted
      obtain ⟨hleft, ⟨hright, hrights⟩, hcross⟩ := hsorted
      simp only [SearchTree.inorder, List.mem_append, List.mem_cons]
      rcases lt_trichotomy key y with hlt | rfl | hgt
      · rw [findKey, if_pos hlt, ihLeft hleft]
        refine ⟨.inl, fun h => ?_⟩
        rcases h with h | h | h
        · exact h
        · exact absurd h hlt.ne
        · exact absurd (hlt.trans (hright key h)) (lt_irrefl key)
      · rw [findKey, if_neg (lt_irrefl key), if_neg (lt_irrefl key)]
        simp
      · rw [findKey, if_neg hgt.asymm, if_pos hgt, ihRight hrights]
        refine ⟨fun h => .inr (.inr h), fun h => ?_⟩
        rcases h with h | h | h
        · exact absurd ((hcross key h y (.inl rfl)).trans hgt) (lt_irrefl key)
        · exact absurd h hgt.ne'
        · exact h

/-- A key that is not in the tree goes to its place. -/
theorem link_sorted {t : SearchTree K} (hsorted : t.inorder.Pairwise (· < ·))
    (hnew : key ∉ t.inorder) :
    (t.link (fun y => decide (key < y)) key).1.inorder.Pairwise (· < ·) ∧
      ∀ k, k ∈ (t.link (fun y => decide (key < y)) key).1.inorder ↔ k = key ∨ k ∈ t.inorder := by
  obtain ⟨xs, ys, hin, hlink, hxs, hys, -⟩ := t.link_spec (· < ·) lt_trans
    (fun y => decide (key < y)) hsorted (fun y _ h => of_decide_eq_true h)
    fun y hy h => (lt_or_eq_of_le (not_lt.mp (of_decide_eq_false h))).resolve_right
      fun heq => hnew (heq ▸ hy)
  rw [hin] at hsorted
  obtain ⟨hxs', hys', hcross⟩ := List.pairwise_append.mp hsorted
  rw [hlink, hin]
  refine ⟨List.pairwise_append.mpr ⟨hxs', List.pairwise_cons.mpr ⟨hys, hys'⟩, ?_⟩, fun k => ?_⟩
  · intro a ha b hb
    rcases List.mem_cons.mp hb with rfl | hb
    · exact hxs a ha
    · exact hcross a ha b hb
  · simp only [List.mem_append, List.mem_cons]
    tauto

/-- An empty reducer holds nothing. -/
theorem init_holds : (Reducer.init : Reducer K V).Holds [] where
  sorted := .nil
  keys key := by simp [Reducer.init, SearchTree.inorder]
  values key h := absurd h List.not_mem_nil
  counts key h := absurd h List.not_mem_nil

/-- Both branches of `insert` end like this. -/
theorem addValue_holds {inserts : List (K × V)} {value : V}
    (hsorted : r.keyTree.inorder.Pairwise (· < ·))
    (hkeys : ∀ k, k ∈ r.keyTree.inorder ↔ k = key ∨ k ∈ inserts.map Prod.fst)
    (hvalues : ∀ k ∈ r.keyTree.inorder, r.valueList k = valuesOf inserts k)
    (hcounts : ∀ k ∈ r.keyTree.inorder, r.valueCnt k = (r.valueList k).length) :
    (r.addValue key value).Holds (inserts ++ [(key, value)]) where
  sorted := hsorted
  keys k := by
    simp only [Reducer.addValue, hkeys, List.map_append, List.mem_append, List.map_cons, List.map_nil,
      List.mem_singleton]
    tauto
  values k hk := by
    rw [valuesOf_append]
    by_cases h : key = k
    · subst h
      rw [if_pos rfl, ← hvalues key hk]
      exact Function.update_self ..
    · rw [if_neg h, ← hvalues k hk]
      exact Function.update_of_ne (Ne.symm h) ..
  counts k hk := by
    simp only [Reducer.addValue] at hk ⊢
    by_cases h : k = key
    · subst h
      rw [Function.update_self, Function.update_self, hcounts k hk, List.length_append,
        List.length_singleton]
    · rw [Function.update_of_ne h, Function.update_of_ne h, hcounts k hk]

/-- `insert` puts the value under its key. -/
theorem insert_holds (hops : ops.Lawful) {inserts : List (K × V)} (h : r.Holds inserts) (key : K)
    (value : V) : (r.insert ops key value).Holds (inserts ++ [(key, value)]) := by
  rw [Reducer.insert]
  by_cases hfind : findKey key r.keyTree = true
  · rw [if_pos hfind]
    have hmem := (findKey_iff h.sorted).mp hfind
    refine addValue_holds h.sorted (fun k => ?_) h.values h.counts
    rw [h.keys]
    refine ⟨.inr, fun hk => ?_⟩
    rcases hk with rfl | hk
    · exact (h.keys k).mp hmem
    · exact hk
  · rw [if_neg hfind]
    have hnew : key ∉ r.keyTree.inorder := fun hmem => hfind ((findKey_iff h.sorted).mpr hmem)
    obtain ⟨hsorted, hmem⟩ := link_sorted h.sorted hnew
    have hinorder := hops.insertColor (r.keyTree.link (fun y => decide (key < y)) key).1 key
    rw [← hinorder] at hsorted hmem
    have hnil : valuesOf inserts key = [] := valuesOf_eq_nil.mpr fun hk => hnew ((h.keys key).mpr hk)
    refine addValue_holds hsorted (fun k => ?_) (fun k hk => ?_) fun k hk => ?_
    · rw [← h.keys]
      exact hmem k
    · rcases eq_or_ne k key with rfl | hne
      · rw [hnil]
        exact Function.update_self ..
      · rw [← h.values k (((hmem k).mp hk).resolve_left hne)]
        exact Function.update_of_ne hne ..
    · rcases eq_or_ne k key with rfl | hne
      · simp only [Function.update_self, List.length_nil]
      · simp only [Function.update_of_ne hne]
        exact h.counts k (((hmem k).mp hk).resolve_left hne)

/-- The calls of `insert`, one after the other. -/
def Reducer.insertAll (ops : TreeOps K) (inserts : List (K × V)) (r : Reducer K V) : Reducer K V :=
  inserts.foldl (fun r entry => r.insert ops entry.1 entry.2) r

/-- So do any number of insertions. -/
theorem insertAll_holds (hops : ops.Lawful) {before : List (K × V)} (h : r.Holds before)
    (inserts : List (K × V)) : (r.insertAll ops inserts).Holds (before ++ inserts) := by
  induction inserts generalizing r before with
  | nil => rwa [List.append_nil]
  | cons entry rest ih =>
      have hrest := ih (insert_holds hops h entry.1 entry.2)
      rwa [List.append_assoc] at hrest

theorem rbFirst_eq {α : Type u} (t : SearchTree α) : rbFirst t = t.inorder.head? := by
  induction t with
  | leaf => rfl
  | node left y right ihLeft _ =>
      cases left with
      | leaf => rfl
      | node l x r =>
          obtain ⟨z, hz⟩ : ∃ z, (SearchTree.node l x r).inorder.head? = some z :=
            Option.ne_none_iff_exists'.mp fun h => by
              simp [SearchTree.inorder] at h
          have hleft : rbFirst (.node (.node l x r) y right) = rbFirst (.node l x r) := rfl
          have hinorder : (SearchTree.node (.node l x r) y right).inorder =
              (SearchTree.node l x r).inorder ++ y :: right.inorder := rfl
          rw [hleft, ihLeft, hinorder, List.head?_append, hz, Option.some_or]

end Keys

/-! ### The run -/

section Run

variable [LinearOrder K] {ops : TreeOps K} {iter : ReduceIteratorOps V I}
  {Rests : I → Multiset V → Prop} {Takes : I → Multiset V → List V → Prop}
  {Ordered : List V → Prop} {reduce : ReduceFunction K V S} {op : V → V → V}
  [Std.Commutative op] [Std.Associative op]

/-- The loop over the keys that are left puts out each of them with the combination of its values. -/
theorem startLoop_spec (hops : ops.Lawful) (hiter : HoldsValues iter Rests Takes Ordered)
    (hreduce : reduce.Combines op) (inserts : List (K × V)) (fuel : Nat)
    (hfuel : inserts.length < fuel) (passes : Nat) (t : Starting K V S)
    (hp : t.p = t.reducer.keyTree.inorder.head?)
    (hvalues : ∀ key ∈ t.reducer.keyTree.inorder, t.reducer.valueList key = valuesOf inserts key ∧
      t.reducer.valueCnt key = (valuesOf inserts key).length ∧ valuesOf inserts key ≠ [])
    (hpasses : t.reducer.keyTree.inorder.length < passes) (hcalls : CallsOk Ordered t.reducing) :
    ∃ t' pairs, loop (startStep ops iter reduce fuel) passes t = some (some t') ∧
      t'.result = t.result ++ pairs ∧ pairs.map Prod.fst = t.reducer.keyTree.inorder ∧
      (∀ pair ∈ pairs, combined op (valuesOf inserts pair.1 : Multiset V) = some pair.2) ∧
      t'.reducer.keyTree.inorder = [] ∧ CallsOk Ordered t'.reducing := by
  induction passes generalizing t with
  | zero => exact absurd hpasses (Nat.not_lt_zero _)
  | succ passes ih =>
      cases hin : t.reducer.keyTree.inorder with
      | nil =>
          rw [hin, List.head?_nil] at hp
          refine ⟨t, [], loop_done ?_ passes, (List.append_nil _).symm, rfl, by simp, hin, hcalls⟩
          simp only [startStep, hp]
      | cons key rest =>
          rw [hin, List.head?_cons] at hp
          obtain ⟨hlist, hcount, hne⟩ := hvalues key (hin ▸ List.mem_cons_self)
          have hlength := length_valuesOf_le inserts key
          obtain ⟨r, v, hloop, hv, hcalls'⟩ := keyLoop_spec hiter hreduce key fuel fuel hne
            (by omega) (by omega) hcalls
          have hrest : (ops.erase t.reducer.keyTree key).inorder = rest := by
            rw [hops.erase, hin, List.erase_cons_head]
          have hnext : ops.next t.reducer.keyTree key = rest.head? := by
            rw [hops.next, hin, successor, if_pos rfl]
          have hstep : startStep ops iter reduce fuel t = .next
              { p := ops.next t.reducer.keyTree key
                reducer := { t.reducer with keyTree := ops.erase t.reducer.keyTree key }
                reducing := r
                result := t.result ++ [(key, v)] } := by
            simp only [startStep, hp, hlist, hcount, hloop]
          rw [hin, List.length_cons] at hpasses
          obtain ⟨t', pairs, hloop', hresult, hkeys, hpairs, hempty, hcalls''⟩ :=
            ih { p := ops.next t.reducer.keyTree key
                 reducer := { t.reducer with keyTree := ops.erase t.reducer.keyTree key }
                 reducing := r
                 result := t.result ++ [(key, v)] } (by rw [hnext, hrest])
              (fun k hk => hvalues k (hin ▸ List.mem_cons_of_mem key (hrest ▸ hk)))
              (by rw [hrest]; omega) hcalls'
          refine ⟨t', (key, v) :: pairs, by rw [loop_next hstep, hloop'], ?_, ?_, ?_, hempty, hcalls''⟩
          · rw [hresult, List.append_assoc, List.singleton_append]
          · rw [List.map_cons, hkeys, hrest]
          · intro pair hpair
            rcases List.mem_cons.mp hpair with rfl | hpair
            · exact hv
            · exact hpairs pair hpair

/-- What `start` has done: each key once, in ascending order, with the combination of all values that
were inserted for it; each call of the user's function got its values in order; no key is left. -/
structure Reduced (op : V → V → V) [Std.Commutative op] [Std.Associative op]
    (Ordered : List V → Prop) (inserts : List (K × V)) (result : List (K × V))
    (t : Starting K V S) : Prop where
  pairs : ∃ pairs, t.result = result ++ pairs ∧ (pairs.map Prod.fst).Pairwise (· < ·) ∧
    (∀ key, key ∈ pairs.map Prod.fst ↔ key ∈ inserts.map Prod.fst) ∧
    ∀ pair ∈ pairs, combined op (valuesOf inserts pair.1 : Multiset V) = some pair.2
  calls : CallsOk Ordered t.reducing
  empty : t.reducer.keyTree.inorder = []

/-- The reducer with an iterator that holds its values. -/
theorem start_reduced (hops : ops.Lawful) (hiter : HoldsValues iter Rests Takes Ordered)
    (hreduce : reduce.Combines op) (inserts : List (K × V)) (user : S) (result : List (K × V))
    {fuel : Nat} (hfuel : inserts.length + 1 < fuel) :
    ∃ t, Reducer.start ops iter reduce fuel user result (Reducer.init.insertAll ops inserts) =
        some t ∧ Reduced op Ordered inserts result t := by
  have h := insertAll_holds hops (init_holds (V := V)) inserts
  rw [List.nil_append] at h
  set r := Reducer.init.insertAll ops inserts
  have hlength : r.keyTree.inorder.length ≤ inserts.length := by
    have hnodup : r.keyTree.inorder.Nodup := h.sorted.imp fun hlt => hlt.ne
    calc r.keyTree.inorder.length ≤ (inserts.map Prod.fst).length :=
          (List.subperm_of_subset hnodup fun key hkey => (h.keys key).mp hkey).length_le
      _ = inserts.length := List.length_map _
  have hvalues : ∀ key ∈ r.keyTree.inorder, r.valueList key = valuesOf inserts key ∧
      r.valueCnt key = (valuesOf inserts key).length ∧ valuesOf inserts key ≠ [] := by
    intro key hkey
    rw [h.counts key hkey, h.values key hkey]
    exact ⟨rfl, rfl, fun hnil => valuesOf_eq_nil.mp hnil ((h.keys key).mp hkey)⟩
  obtain ⟨t, pairs, hloop, hresult, hkeys, hpairs, hempty, hcalls⟩ :=
    startLoop_spec hops hiter hreduce inserts fuel (by omega) fuel
      { p := rbFirst r.keyTree, reducer := r, reducing := { user := user, calls := [] },
        result := result } (rbFirst_eq r.keyTree) hvalues (lt_of_le_of_lt hlength (by omega))
      (fun taken htaken => absurd htaken List.not_mem_nil)
  refine ⟨t, by rw [Reducer.start, hloop, Option.join_some], ⟨pairs, hresult, ?_, ?_, hpairs⟩,
    hcalls, hempty⟩
  · rw [hkeys]
    exact h.sorted
  · rw [hkeys]
    exact h.keys

/-- Both kinds of values: `start` ends and has combined the values of every key. The iterator over
class values gives them to each call in the order of their sizes. -/
theorem reducer_combines [Inhabited V] (size : V → Nat) (hops : ops.Lawful)
    (hreduce : reduce.Combines op) (inserts : List (K × V)) (user : S) (result : List (K × V))
    {fuel : Nat} (hfuel : inserts.length + 1 < fuel) :
    (∃ t, Reducer.start ops (heapIterator size) reduce fuel user result
        (Reducer.init.insertAll ops inserts) = some t ∧
      Reduced op (fun taken => taken.Pairwise fun v w => size v ≤ size w) inserts result t) ∧
    ∃ t, Reducer.start ops listIterator reduce fuel user result
        (Reducer.init.insertAll ops inserts) = some t ∧
      Reduced op (fun _ => True) inserts result t :=
  ⟨start_reduced hops heapIterator_holds hreduce inserts user result hfuel,
    start_reduced hops listIterator_holds hreduce inserts user result hfuel⟩

/-- A function that adds up everything it gets, and counts its calls. -/
def sumUp : ReduceFunction Nat Nat Nat where
  wants := fun _ _ _ _ => true
  finish := fun calls _ _ taken => (taken.sum, calls + 1)

instance natAdd_commutative : Std.Commutative Nat.add :=
  ⟨Nat.add_comm⟩

instance natAdd_associative : Std.Associative Nat.add :=
  ⟨Nat.add_assoc⟩

/-- Adding up combines by addition. -/
theorem sumUp_combines : sumUp.Combines Nat.add where
  wants _ _ _ _ _ := rfl
  finish _ _ _ taken hne := by
    have hsum : ∀ rest : List Nat, ∀ v, combined Nat.add ((v :: rest : List Nat) : Multiset Nat) =
        some (v + rest.sum) := by
      intro rest
      induction rest with
      | nil => exact fun v => combined_singleton _ v
      | cons w rest ih =>
          intro v
          rw [← Multiset.cons_coe, combined_cons, ih w]
          rfl
    obtain ⟨v, rest, rfl⟩ := List.exists_cons_of_ne_nil hne
    exact (hsum rest v).symm

theorem reducer_combines_sums :
    (∃ t, Reducer.start unbalanced (heapIterator id) sumUp 5 0 [(9, 9)]
        (Reducer.init.insertAll unbalanced [(2, 30), (1, 4), (2, 10)]) = some t ∧
      Reduced Nat.add (fun taken => taken.Pairwise fun v w => id v ≤ id w)
        [(2, 30), (1, 4), (2, 10)] [(9, 9)] t) ∧
    ∃ t, Reducer.start unbalanced listIterator sumUp 5 0 [(9, 9)]
        (Reducer.init.insertAll unbalanced [(2, 30), (1, 4), (2, 10)]) = some t ∧
      Reduced Nat.add (fun _ => True) [(2, 30), (1, 4), (2, 10)] [(9, 9)] t :=
  reducer_combines id unbalanced_lawful sumUp_combines [(2, 30), (1, 4), (2, 10)] 0 [(9, 9)]
    (by decide)

end Run

end Workflow.Algorithm

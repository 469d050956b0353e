/-
Module: Workflow.Algorithm.MapReduce
Layer: Algorithm
Purpose: `Reducer` (MapReduce.inl): the values of every key are combined by calls of the user's
  function, which takes them from an iterator. The iterator over class values keeps up to 256 of them
  in a heap by size, the other one walks over a list. The user's function has a state of its own. A
  key's object is named by its key, a value's by the value; `TreeOps` is the red-black tree.
Trusted boundary: human-reviewed model
Main exports: ReduceFunction, ReduceIteratorOps, HeapIterator, ListIterator, Reducer, Reducer.insert,
  Reducer.start
-/
import Workflow.Lib.BinaryHeap
import Workflow.Lib.Loop
import Workflow.Lib.SearchTree

namespace Workflow.Algorithm

open Workflow.Lib

universe u v w x

variable {K : Type u} {V : Type v} {S : Type w} {I : Type x}

/-- `reduce_function_t`, with what it keeps from call to call. With the values taken so far and the
iterator's `size()`, it takes another one as long as `wants` says so; then it gives its output. -/
structure ReduceFunction (K : Type u) (V : Type v) (S : Type w) where
  wants : S → K → Nat → List V → Bool
  finish : S → K → Nat → List V → V × S

/-- `__ReduceIterator`. `create` takes values off the list and gives the list and the count that are
left; `reduceEnd` is `none` if its assertion fails. -/
structure ReduceIteratorOps (V : Type v) (I : Type x) where
  create : List V → Nat → I × List V × Nat
  reduceBegin : I → I
  next : I → Option V × I
  size : I → Nat
  reduceEnd : V → I → Option I
  count : I → Nat
  value : I → V

/-! ### The iterator over class values -/

section HeapIterator

variable (size : V → Nat)

/-- `__ReduceIterator<VAL, true>`. The slots of `heap` from `heapSize` on hold the values that were
taken, the last one first; what the constructor leaves unset holds the default value. -/
structure HeapIterator (V : Type v) where
  heap : Nat → V
  heapSize : Nat
  originalSize : Nat

/-- `__REDUCE_ITERATOR_HEAP_MAX`. -/
def heapMax : Nat := 256

/-- The loop of `heapify`, with `data` in hand. -/
def heapifyLoop (heapSize : Nat) (data : V) (heap : Nat → V) (top : Nat) : Nat → V :=
  if 2 * top + 1 + 1 < heapSize then
    if size (heap (2 * top + 1)) < size data then
      if size (heap (2 * top + 2)) < size (heap (2 * top + 1)) then
        heapifyLoop heapSize data (Function.update heap top (heap (2 * top + 2))) (2 * top + 2)
      else
        heapifyLoop heapSize data (Function.update heap top (heap (2 * top + 1))) (2 * top + 1)
    else
      if size (heap (2 * top + 2)) < size data then
        heapifyLoop heapSize data (Function.update heap top (heap (2 * top + 2))) (2 * top + 2)
      else
        Function.update heap top data
  else if 2 * top + 1 + 1 = heapSize ∧ size (heap (2 * top + 1)) < size data then
    Function.update (Function.update heap top (heap (2 * top + 1))) (2 * top + 1) data
  else
    Function.update heap top data
termination_by heapSize - top

/-- `heapify(top)`. -/
def heapify (heap : Nat → V) (heapSize top : Nat) : Nat → V :=
  heapifyLoop size heapSize (heap top) heap top

/-- The loop of `heap_insert`, with `data` in hand. -/
def heapInsertLoop (data : V) (heap : Nat → V) (i : Nat) : Nat → V :=
  if _h : 0 < i then
    if size data < size (heap (parent i)) then
      heapInsertLoop data (Function.update heap i (heap (parent i))) (parent i)
    else Function.update heap i data
  else Function.update heap i data
termination_by i
decreasing_by exact parent_lt ‹0 < i›

/-- The loop `while (n > 0) heapify(--n)` of the constructor. -/
def heapifyAll (heapSize : Nat) : Nat → (Nat → V) → Nat → V
  | 0, heap => heap
  | n + 1, heap => heapifyAll heapSize n (heapify size heap heapSize n)

namespace HeapIterator

/-- The constructor. -/
def create [Inhabited V] (values : List V) (valueCnt : Nat) : HeapIterator V × List V × Nat :=
  let n := min heapMax values.length
  ({ heap := heapifyAll size n (n / 2) fun i => values.getD i default
     heapSize := n
     originalSize := 0 }, values.drop n, valueCnt - n)

def reduceBegin (it : HeapIterator V) : HeapIterator V :=
  { it with originalSize := it.heapSize }

/-- `next`. -/
def next (it : HeapIterator V) : Option V × HeapIterator V :=
  let data := it.heap 0
  if it.heapSize = 0 then (none, it)
  else
    let heapSize := it.heapSize - 1
    let heap := heapify size (Function.update it.heap 0 (it.heap heapSize)) heapSize 0
    (some data, { it with heap := Function.update heap heapSize data, heapSize := heapSize })

/-- `reduce_end`: of the values that were taken, the last one is kept and gets the new value. -/
def reduceEnd (value : V) (it : HeapIterator V) : Option (HeapIterator V) :=
  if it.originalSize = it.heapSize then none
  else
    let heap := Function.update it.heap it.heapSize value
    some { it with
      heap := heapInsertLoop size (heap it.heapSize) heap it.heapSize
      heapSize := it.heapSize + 1 }

end HeapIterator

/-- The iterator over class values. -/
def heapIterator [Inhabited V] : ReduceIteratorOps V (HeapIterator V) where
  create := HeapIterator.create size
  reduceBegin := HeapIterator.reduceBegin
  next := HeapIterator.next size
  size := HeapIterator.originalSize
  reduceEnd := HeapIterator.reduceEnd size
  count := HeapIterator.heapSize
  value := fun it => it.heap 0

end HeapIterator

/-! ### The iterator over other values -/

section ListIterator

/-- `__ReduceIterator<VAL, false>`. The cursor is the number of values up to it. -/
structure ListIterator (V : Type v) where
  valueList : List V
  valueCnt : Nat
  originalSize : Nat
  cursor : Nat

namespace ListIterator

/-- The constructor. -/
def create (values : List V) (valueCnt : Nat) : ListIterator V × List V × Nat :=
  ({ valueList := values, valueCnt := valueCnt, originalSize := 0, cursor := 0 }, [], 0)

def reduceBegin (it : ListIterator V) : ListIterator V :=
  { it with cursor := 0, originalSize := it.valueCnt }

/-- `next`. -/
def next (it : ListIterator V) : Option V × ListIterator V :=
  match it.valueList[it.cursor]? with
  | none => (none, it)
  | some value => (some value, { it with cursor := it.cursor + 1, valueCnt := it.valueCnt - 1 })

/-- `reduce_end`: the values in front of the cursor are deleted, and the one at the cursor gets the new
value and goes to the tail. -/
def reduceEnd (value : V) (it : ListIterator V) : Option (ListIterator V) :=
  if it.cursor = 0 then none
  else some { it with
    valueList := it.valueList.drop it.cursor ++ [value]
    valueCnt := it.valueCnt + 1 }

end ListIterator

/-- The iterator over other values. -/
def listIterator [Inhabited V] : ReduceIteratorOps V (ListIterator V) where
  create := ListIterator.create
  reduceBegin := ListIterator.reduceBegin
  next := ListIterator.next
  size := ListIterator.originalSize
  reduceEnd := ListIterator.reduceEnd
  count := ListIterator.valueCnt
  value := fun it => it.valueList.headD default

end ListIterator

/-! ### The reducer -/

section Reducer

variable [LinearOrder K] (ops : TreeOps K) (iter : ReduceIteratorOps V I)
  (reduce : ReduceFunction K V S)

/-- `Reducer`: the tree of the keys, with `value_list` and `value_cnt` of each. -/
structure Reducer (K : Type u) (V : Type v) where
  keyTree : SearchTree K
  valueList : K → List V
  valueCnt : K → Nat

/-- The descent of `insert`: whether it ends at the key. -/
def findKey (key : K) : SearchTree K → Bool
  | .leaf => false
  | .node left y right =>
      if key < y then findKey key left else if y < key then findKey key right else true

namespace Reducer

/-- The constructor. -/
def init : Reducer K V where
  keyTree := .leaf
  valueList := fun _ => []
  valueCnt := fun _ => 0

/-- `__ReduceKey::insert`. -/
def addValue (key : K) (value : V) (r : Reducer K V) : Reducer K V :=
  { r with
    valueList := Function.update r.valueList key (r.valueList key ++ [value])
    valueCnt := Function.update r.valueCnt key (r.valueCnt key + 1) }

/-- `Reducer::insert`. -/
def insert (key : K) (value : V) (r : Reducer K V) : Reducer K V :=
  if findKey key r.keyTree then r.addValue key value
  else
    addValue key value
      { keyTree := ops.insertColor (r.keyTree.link (fun y => decide (key < y)) key).1 key
        valueList := Function.update r.valueList key []
        valueCnt := Function.update r.valueCnt key 0 }

end Reducer

/-- The user's function takes values: those taken so far and the iterator. -/
def takeStep (s : S) (key : K) (t : List V × I) : Step (List V × I) (List V × I) :=
  if reduce.wants s key (iter.size t.2) t.1 then
    match iter.next t.2 with
    | (some value, it) => .next (t.1 ++ [value], it)
    | (none, it) => .done (t.1, it)
  else .done t

/-- What the loops of `start` work on: the state of the user's function, and the lists of values that
its calls have taken. -/
structure Reducing (S : Type w) (V : Type v) where
  user : S
  calls : List (List V)

/-- The body of the `do` loop, with its test; `none` is a failed assertion or a call that is still
running. -/
def reduceStep (fuel : Nat) (key : K) (t : Reducing S V × I) :
    Step (Reducing S V × I) (Option (Reducing S V × I)) :=
  let it := iter.reduceBegin t.2
  match loop (takeStep iter reduce t.1.user key) fuel ([], it) with
  | none => .done none
  | some (taken, it) =>
      let (tmp, user) := reduce.finish t.1.user key (iter.size it) taken
      match iter.reduceEnd tmp it with
      | none => .done none
      | some it =>
          let r : Reducing S V := { user := user, calls := t.1.calls ++ [taken] }
          if iter.count it > 1 then .next (r, it) else .done (some (r, it))

/-- The values of a key and their number, between the iterators. -/
structure KeyValues (S : Type w) (V : Type v) where
  reducing : Reducing S V
  valueList : List V
  valueCnt : Nat

/-- One pass of `while (key->value_cnt > 1)`. -/
def keyStep (fuel : Nat) (key : K) (t : KeyValues S V) :
    Step (KeyValues S V) (Option (KeyValues S V)) :=
  if t.valueCnt > 1 then
    let (it, valueList, valueCnt) := iter.create t.valueList t.valueCnt
    match loop (reduceStep iter reduce fuel key) fuel (t.reducing, it) with
    | some (some (reducing, it)) => .next
        { reducing := reducing
          valueList := valueList ++ [iter.value it]
          valueCnt := valueCnt + 1 }
    | _ => .done none
  else .done (some t)

/-- `rb_first`. -/
def rbFirst {α : Type u} : SearchTree α → Option α
  | .leaf => none
  | .node .leaf y _ => some y
  | .node left _ _ => rbFirst left

/-- The variables of `start`: `p`, the reducer, the state of the calls and the output. -/
structure Starting (K : Type u) (V : Type v) (S : Type w) where
  p : Option K
  reducer : Reducer K V
  reducing : Reducing S V
  result : List (K × V)

/-- One pass of `while (p)`. -/
def startStep (fuel : Nat) (t : Starting K V S) :
    Step (Starting K V S) (Option (Starting K V S)) :=
  match t.p with
  | none => .done (some t)
  | some key =>
      match loop (keyStep iter reduce fuel key) fuel
          { reducing := t.reducing
            valueList := t.reducer.valueList key
            valueCnt := t.reducer.valueCnt key } with
      | some (some values) =>
          match values.valueList with
          | [] => .done none
          | value :: _ => .next
              { p := ops.next t.reducer.keyTree key
                reducer := { t.reducer with keyTree := ops.erase t.reducer.keyTree key }
                reducing := values.reducing
                result := t.result ++ [(key, value)] }
      | _ => .done none

/-- `Reducer::start`. -/
def Reducer.start (fuel : Nat) (user : S) (result : List (K × V)) (r : Reducer K V) :
    Option (Starting K V S) :=
  (loop (startStep ops iter reduce fuel) fuel
    { p := rbFirst r.keyTree
      reducer := r
      reducing := { user := user, calls := [] }
      result := result }).join

end Reducer

end Workflow.Algorithm

/-
Module: Workflow.Lib.HeapValues
Layer: Lib
Purpose: Heaps of values that may be equal. `contents` is the multiset of the values in the first slots
  of an array; the exchange law `contents_replace` says what writing one slot does to it. `HeapFrom` is
  a heap whose slots before `m` are not in order yet, as it is while a heap is built from its end.
Trusted boundary: none
Main exports: contents, contents_succ, contents_replace, contents_move, HeapFrom, NearFrom,
  HeapFrom.nearFrom, NearFrom.heapFrom, NearFrom.down
-/
import Workflow.Lib.BinaryHeap
import Mathlib.Data.Multiset.Range
import Mathlib.Data.Multiset.MapFold

namespace Workflow.Lib

universe u v

variable {α : Type u} {a b : Nat → α} {n k : Nat} {x : α}

/-! ### Contents -/

/-- The values of the first `n` slots. -/
def contents (a : Nat → α) (n : Nat) : Multiset α :=
  (Multiset.range n).map a

@[simp]
theorem contents_zero (a : Nat → α) : contents a 0 = 0 :=
  rfl

theorem contents_succ (a : Nat → α) (n : Nat) : contents a (n + 1) = a n ::ₘ contents a n := by
  rw [contents, Multiset.range_succ, Multiset.map_cons, contents]

@[simp]
theorem card_contents (a : Nat → α) (n : Nat) : (contents a n).card = n := by
  rw [contents, Multiset.card_map, Multiset.card_range]

theorem contents_congr (h : ∀ i < n, a i = b i) : contents a n = contents b n :=
  Multiset.map_congr rfl fun i hi => h i (Multiset.mem_range.mp hi)

theorem mem_contents {y : α} : y ∈ contents a n ↔ ∃ i < n, a i = y := by
  simp only [contents, Multiset.mem_map, Multiset.mem_range]

theorem contents_update_of_le (hk : n ≤ k) (x : α) :
    contents (Function.update a k x) n = contents a n :=
  contents_congr fun i hi => Function.update_of_ne (by omega) x a

/-- The values of a list. -/
theorem contents_list (xs : List α) (d : α) : contents (fun i => xs.getD i d) xs.length = xs := by
  induction xs using List.reverseRecOn with
  | nil => rfl
  | append_singleton xs y ih =>
      have hfront : contents (fun i => (xs ++ [y]).getD i d) xs.length = xs := by
        rw [← ih]
        refine contents_congr fun i hi => ?_
        rw [List.getD_eq_getElem?_getD, List.getD_eq_getElem?_getD, List.getElem?_append_left hi]
      have hlast : (xs ++ [y]).getD xs.length d = y := by simp
      rw [List.length_append, List.length_singleton, contents_succ, hfront, hlast,
        ← Multiset.coe_add, Multiset.coe_singleton, Multiset.add_comm, Multiset.singleton_add]

/-- Writing a slot exchanges its value. -/
theorem contents_replace (hk : k < n) (x : α) :
    a k ::ₘ contents (Function.update a k x) n = x ::ₘ contents a n := by
  induction n with
  | zero => exact absurd hk (Nat.not_lt_zero k)
  | succ n ih =>
      rw [contents_succ, contents_succ]
      by_cases hkn : k = n
      · rw [hkn, Function.update_self, contents_update_of_le (Nat.le_refl n), Multiset.cons_swap]
      · rw [Function.update_of_ne (Ne.symm hkn), Multiset.cons_swap, ih (by omega),
          Multiset.cons_swap]

/-- Moving a value into the free slot and the free slot to its place keeps the contents. -/
theorem contents_move {j : Nat} (hk : k < n) (hj : j < n) (hjk : j ≠ k) :
    contents (Function.update (Function.update a k (a j)) j x) n =
      contents (Function.update a k x) n := by
  have hfirst := contents_replace (a := a) hk (a j)
  have hsecond := contents_replace (a := Function.update a k (a j)) hj x
  have hdirect := contents_replace (a := a) hk x
  rw [Function.update_of_ne hjk] at hsecond
  refine (Multiset.cons_inj_right (a j)).mp ((Multiset.cons_inj_right (a k)).mp ?_)
  rw [hsecond, Multiset.cons_swap, hfirst, Multiset.cons_swap, ← hdirect, Multiset.cons_swap]

/-! ### Order from a slot on -/

section Order

variable {κ : Type v} [LinearOrder κ] (key : α → κ) {m : Nat}

/-- Every parent from slot `m` on comes before its children. -/
def HeapFrom (a : Nat → α) (n m : Nat) : Prop :=
  ∀ j, 0 < j → j < n → m ≤ parent j → key (a (parent j)) ≤ key (a j)

/-- The same except around the slot `k`. -/
structure NearFrom (a : Nat → α) (n m k : Nat) : Prop where
  edge : ∀ j, 0 < j → j < n → m ≤ parent j → j ≠ k → parent j ≠ k → key (a (parent j)) ≤ key (a j)
  round : ∀ j, 0 < j → j < n → parent j = k → 0 < k → m ≤ parent k →
    key (a (parent k)) ≤ key (a j)

/-- The value in slot `k` comes after its parent. -/
def UpFrom (a : Nat → α) (m k : Nat) : Prop :=
  0 < k → m ≤ parent k → key (a (parent k)) ≤ key (a k)

variable {key}

theorem heapFrom_zero : HeapFrom key a n 0 ↔ IsHeap key a n :=
  ⟨fun h j hj hjn => h j hj hjn (Nat.zero_le _), fun h j hj hjn _ => h j hj hjn⟩

/-- A slot behind the middle has no children. -/
theorem heapFrom_half (a : Nat → α) (n : Nat) : HeapFrom key a n (n / 2) := by
  intro j hj hjn hparent
  unfold parent at hparent
  omega

theorem NearFrom.heapFrom (h : NearFrom key a n m k) (hup : UpFrom key a m k)
    (hdown : DownOk key a n k) : HeapFrom key a n m := by
  intro j hj hjn hparent
  by_cases hjk : j = k
  · subst hjk
    exact hup hj hparent
  · by_cases hchild : parent j = k
    · rw [hchild]
      exact hdown j hj hjn hchild
    · exact h.edge j hj hjn hparent hjk hchild

/-- What is in order behind slot `k` is in order from `k` on except around it. -/
theorem HeapFrom.nearFrom (h : HeapFrom key a n (k + 1)) :
    NearFrom key a n k k ∧ UpFrom key a k k := by
  refine ⟨⟨fun j hj hjn hparent _ hchild => h j hj hjn (by omega), fun j hj hjn _ hk hle => ?_⟩,
    fun hk hle => ?_⟩
  · have := parent_lt hk
    omega
  · have := parent_lt hk
    omega

/-- The first child `c` of the free slot moves up: it comes before `x`. -/
theorem NearFrom.down {c : Nat} (h : NearFrom key (Function.update a k x) n m k) (hm : m ≤ k)
    (hc : 0 < c) (hcn : c < n) (hck : parent c = k) (hx : key (a c) ≤ key x)
    (hmin : ∀ j, 0 < j → j < n → parent j = k → key (a c) ≤ key (a j)) :
    NearFrom key (Function.update (Function.update a k (a c)) c x) n m c ∧
      UpFrom key (Function.update (Function.update a k (a c)) c x) m c := by
  have hkc : k < c := hck ▸ parent_lt hc
  refine ⟨⟨fun j hj hjn hle hjc hparent => ?_, fun j hj hjn hparent _ _ => ?_⟩, fun _ _ => ?_⟩
  · rw [Function.update_of_ne hjc, Function.update_of_ne hparent]
    by_cases hjk : j = k
    · subst hjk
      have hpj := parent_lt hj
      have hround := h.round c hc hcn hck hj hle
      rw [Function.update_of_ne hpj.ne, Function.update_of_ne (by omega)] at hround
      rwa [Function.update_self, Function.update_of_ne hpj.ne]
    · rw [Function.update_of_ne hjk]
      by_cases hchild : parent j = k
      · rw [hchild, Function.update_self]
        exact hmin j hj hjn hchild
      · rw [Function.update_of_ne hchild]
        have hedge := h.edge j hj hjn hle hjk hchild
        rwa [Function.update_of_ne hchild, Function.update_of_ne hjk] at hedge
  · have hcj : c < j := hparent ▸ parent_lt hj
    have hedge := h.edge j hj hjn (by omega) (by omega) (by omega)
    rw [hparent, Function.update_of_ne (by omega), Function.update_of_ne (by omega)] at hedge
    rwa [hck, Function.update_of_ne (by omega), Function.update_self,
      Function.update_of_ne (by omega), Function.update_of_ne (by omega)]
  · rwa [hck, Function.update_of_ne (by omega), Function.update_self, Function.update_self]

end Order

end Workflow.Lib

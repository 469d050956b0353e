/-
Module: Workflow.Lib.BinaryHeap
Layer: Lib
Purpose: Binary heaps in an array, whose elements may know their place. A sift keeps an element `x` in
  hand and moves others into the free slot `k`; what it works on is the array with `x` in that slot,
  which is a heap except around `k`. One move along an edge of the tree keeps this (`NearHeap.up`,
  `NearHeap.down`), keeps the elements and keeps their places.
Trusted boundary: none
Main exports: parent, IsHeap, NearHeap, UpOk, DownOk, NearHeap.up, NearHeap.down, IsHeap.root_le,
  Placed, Placed.move, elements, elements_move
-/
import Mathlib.Data.Finset.Image
import Mathlib.Data.Finset.Range
import Mathlib.Logic.Function.Basic
import Mathlib.Order.Basic

namespace Workflow.Lib

universe u v

/-- The parent of a slot; the root is its own. -/
def parent (i : Nat) : Nat :=
  (i - 1) / 2

theorem parent_lt {i : Nat} (h : 0 < i) : parent i < i := by
  unfold parent
  omega

variable {α : Type u}

/-! ### Order -/

section Order

variable {κ : Type v} [LinearOrder κ] (key : α → κ)

/-- Every parent in the first `n` slots comes before its children. -/
def IsHeap (a : Nat → α) (n : Nat) : Prop :=
  ∀ j, 0 < j → j < n → key (a (parent j)) ≤ key (a j)

/-- A heap except around the slot `k`, where the parent of `k` comes before the children of `k`. -/
structure NearHeap (a : Nat → α) (n k : Nat) : Prop where
  edge : ∀ j, 0 < j → j < n → j ≠ k → parent j ≠ k → key (a (parent j)) ≤ key (a j)
  round : ∀ j, 0 < j → j < n → parent j = k → 0 < k → key (a (parent k)) ≤ key (a j)

/-- The element in slot `k` comes after its parent. -/
def UpOk (a : Nat → α) (k : Nat) : Prop :=
  0 < k → key (a (parent k)) ≤ key (a k)

/-- The element in slot `k` comes before its children. -/
def DownOk (a : Nat → α) (n k : Nat) : Prop :=
  ∀ j, 0 < j → j < n → parent j = k → key (a k) ≤ key (a j)

variable {key} {a : Nat → α} {n k : Nat} {x : α}

theorem NearHeap.isHeap (h : NearHeap key a n k) (hup : UpOk key a k) (hdown : DownOk key a n k) :
    IsHeap key a n := by
  intro j hj hjn
  by_cases hjk : j = k
  · subst hjk
    exact hup hj
  · by_cases hparent : parent j = k
    · rw [hparent]
      exact hdown j hj hjn hparent
    · exact h.edge j hj hjn hjk hparent

/-- The root comes before everything. -/
theorem IsHeap.root_le (h : IsHeap key a n) {i : Nat} (hi : i < n) : key (a 0) ≤ key (a i) := by
  induction i using Nat.strong_induction_on with
  | _ i ih =>
      rcases Nat.eq_zero_or_pos i with rfl | hpos
      · exact le_rfl
      · have hlt := parent_lt hpos
        exact (ih (parent i) hlt (hlt.trans hi)).trans (h i hpos hi)

/-- A changed element leaves a heap except around its slot. -/
theorem IsHeap.nearHeap {key' : α → κ} (h : IsHeap key a n) (hk : k < n)
    (hsame : ∀ j < n, j ≠ k → key' (a j) = key (a j)) : NearHeap key' a n k := by
  constructor
  · intro j hj hjn hjk hparent
    have hlt := parent_lt hj
    rw [hsame _ (hlt.trans hjn) hparent, hsame j hjn hjk]
    exact h j hj hjn
  · intro j hj hjn hparent hkpos
    have hlt := parent_lt hj
    have hklt := parent_lt hkpos
    rw [hsame _ (hklt.trans hk) hklt.ne, hsame j hjn (by omega)]
    refine (h k hkpos hk).trans ?_
    rw [← hparent]
    exact h j hj hjn

/-- A replaced element leaves a heap except around its slot, also when the heap is cut. -/
theorem IsHeap.replace {m : Nat} (h : IsHeap key a n) (hm : m ≤ n) (hk : k < m) (y : α) :
    NearHeap key (Function.update a k y) m k := by
  constructor
  · intro j hj hjm hjk hparent
    rw [Function.update_of_ne hparent, Function.update_of_ne hjk]
    exact h j hj (hjm.trans_le hm)
  · intro j hj hjm hparent hkpos
    have hkj : k < j := hparent ▸ parent_lt hj
    rw [Function.update_of_ne (parent_lt hkpos).ne, Function.update_of_ne hkj.ne']
    refine (h k hkpos (hk.trans_le hm)).trans ?_
    rw [← hparent]
    exact h j hj (hjm.trans_le hm)

/-- The parent of the free slot moves down: `x` comes before it. -/
theorem NearHeap.up (h : NearHeap key (Function.update a k x) n k) (hk : 0 < k) (hkn : k < n)
    (hx : key x ≤ key (a (parent k))) :
    NearHeap key (Function.update (Function.update a k (a (parent k))) (parent k) x) n (parent k) ∧
      DownOk key (Function.update (Function.update a k (a (parent k))) (parent k) x) n
        (parent k) := by
  have hp := parent_lt hk
  have hpk : parent k ≠ k := hp.ne
  have hsibling : ∀ j, 0 < j → j < n → parent j = parent k → j ≠ k →
      key (a (parent k)) ≤ key (a j) := by
    intro j hj hjn hparent hjk
    have hedge := h.edge j hj hjn hjk (by omega)
    rwa [hparent, Function.update_of_ne hpk, Function.update_of_ne hjk] at hedge
  have hnew : ∀ j, 0 < j → j < n → parent j = parent k →
      key (a (parent k)) ≤ key (Function.update (Function.update a k (a (parent k))) (parent k) x j) := by
    intro j hj hjn hparent
    have hjp : j ≠ parent k := by
      have := parent_lt hj
      omega
    rw [Function.update_of_ne hjp]
    by_cases hjk : j = k
    · rw [hjk, Function.update_self]
    · rw [Function.update_of_ne hjk]
      exact hsibling j hj hjn hparent hjk
  refine ⟨⟨fun j hj hjn hjp hparent => ?_, fun j hj hjn hparent hppos => ?_⟩,
    fun j hj hjn hparent => ?_⟩
  · have hjk : j ≠ k := fun heq => hparent (by rw [heq])
    rw [Function.update_of_ne hjp, Function.update_of_ne hjk, Function.update_of_ne hparent]
    by_cases hchild : parent j = k
    · rw [hchild, Function.update_self]
      have hround := h.round j hj hjn hchild hk
      rwa [Function.update_of_ne hpk, Function.update_of_ne hjk] at hround
    · rw [Function.update_of_ne hchild]
      have hedge := h.edge j hj hjn hjk hchild
      rwa [Function.update_of_ne hchild, Function.update_of_ne hjk] at hedge
  · have hpp := parent_lt hppos
    have hgrand := h.edge (parent k) hppos (hp.trans hkn) hpk (by omega)
    rw [Function.update_of_ne (by omega), Function.update_of_ne hpk] at hgrand
    rw [Function.update_of_ne hpp.ne, Function.update_of_ne (by omega)]
    exact hgrand.trans (hnew j hj hjn hparent)
  · rw [Function.update_self]
    exact hx.trans (hnew j hj hjn hparent)

/-- The first child `c` of the free slot moves up: it comes before `x`. -/
theorem NearHeap.down {c : Nat} (h : NearHeap key (Function.update a k x) n k) (hc : 0 < c)
    (hcn : c < n) (hck : parent c = k) (hx : key (a c) ≤ key x)
    (hmin : ∀ j, 0 < j → j < n → parent j = k → key (a c) ≤ key (a j)) :
    NearHeap key (Function.update (Function.update a k (a c)) c x) n c ∧
      UpOk key (Function.update (Function.update a k (a c)) c x) c := by
  have hkc : k < c := hck ▸ parent_lt hc
  refine ⟨⟨fun j hj hjn hjc hparent => ?_, fun j hj hjn hparent _ => ?_⟩, fun _ => ?_⟩
  · rw [Function.update_of_ne hjc, Function.update_of_ne hparent]
    by_cases hjk : j = k
    · subst hjk
      have hpj := parent_lt hj
      have hround := h.round c hc hcn hck hj
      rw [Function.update_of_ne hpj.ne, Function.update_of_ne (by omega)] at hround
      rwa [Function.update_self, Function.update_of_ne hpj.ne]
    · rw [Function.update_of_ne hjk]
      by_cases hchild : parent j = k
      · rw [hchild, Function.update_self]
        exact hmin j hj hjn hchild
      · rw [Function.update_of_ne hchild]
        have hedge := h.edge j hj hjn hjk hchild
        rwa [Function.update_of_ne hchild, Function.update_of_ne hjk] at hedge
  · have hcj : c < j := hparent ▸ parent_lt hj
    have hedge := h.edge j hj hjn (by omega) (by omega)
    rw [hparent, Function.update_of_ne (by omega), Function.update_of_ne (by omega)] at hedge
    rwa [hck, Function.update_of_ne (by omega), Function.update_self,
      Function.update_of_ne (by omega), Function.update_of_ne (by omega)]
  · rwa [hck, Function.update_of_ne (by omega), Function.update_self, Function.update_self]

end Order

/-! ### Places -/

section Places

variable [DecidableEq α] {a : Nat → α} {index : α → Nat} {n k : Nat} {x : α}

/-- Every element but the one in hand knows its place, and `x` is in none. -/
structure Placed (a : Nat → α) (index : α → Nat) (n k : Nat) (x : α) : Prop where
  lt : k < n
  others : ∀ i < n, i ≠ k → index (a i) = i
  fresh : ∀ i < n, i ≠ k → a i ≠ x

theorem Placed.move (h : Placed a index n k x) {j : Nat} (hj : j < n) (hjk : j ≠ k) :
    Placed (Function.update a k (a j)) (Function.update index (a j) k) n j x := by
  refine ⟨hj, fun i hi hij => ?_, fun i hi hij => ?_⟩
  · by_cases hik : i = k
    · rw [hik, Function.update_self, Function.update_self]
    · have hne : a i ≠ a j := fun heq => hij (by
        rw [← h.others i hi hik, heq, h.others j hj hjk])
      rw [Function.update_of_ne hik, Function.update_of_ne hne, h.others i hi hik]
  · by_cases hik : i = k
    · rw [hik, Function.update_self]
      exact h.fresh j hj hjk
    · rw [Function.update_of_ne hik]
      exact h.fresh i hi hik

/-- Putting `x` into the free slot places everything. -/
theorem Placed.fill (h : Placed a index n k x) :
    ∀ i < n, Function.update index x k (Function.update a k x i) = i := by
  intro i hi
  by_cases hik : i = k
  · rw [hik, Function.update_self, Function.update_self]
  · rw [Function.update_of_ne hik, Function.update_of_ne (h.fresh i hi hik), h.others i hi hik]

/-- The elements of the first `n` slots. -/
def elements (a : Nat → α) (n : Nat) : Finset α :=
  (Finset.range n).image a

theorem mem_elements {t : α} : t ∈ elements a n ↔ ∃ i < n, a i = t := by
  simp [elements]

/-- Moving an element into the free slot and the free slot to its place keeps the elements. -/
theorem elements_move {j : Nat} (hk : k < n) (hj : j < n) (hjk : j ≠ k) :
    elements (Function.update (Function.update a k (a j)) j x) n =
      elements (Function.update a k x) n := by
  ext t
  simp only [mem_elements]
  constructor
  · rintro ⟨i, hi, rfl⟩
    rcases eq_or_ne i j with rfl | hij
    · exact ⟨k, hk, by rw [Function.update_self, Function.update_self]⟩
    · rcases eq_or_ne i k with rfl | hik
      · exact ⟨j, hj, by
          rw [Function.update_of_ne hjk, Function.update_of_ne hij, Function.update_self]⟩
      · exact ⟨i, hi, by
          rw [Function.update_of_ne hik, Function.update_of_ne hij, Function.update_of_ne hik]⟩
  · rintro ⟨i, hi, rfl⟩
    rcases eq_or_ne i k with rfl | hik
    · exact ⟨j, hj, by rw [Function.update_self, Function.update_self]⟩
    · rcases eq_or_ne i j with rfl | hij
      · exact ⟨k, hk, by
          rw [Function.update_of_ne hik.symm, Function.update_self, Function.update_of_ne hik]⟩
      · exact ⟨i, hi, by
          rw [Function.update_of_ne hij, Function.update_of_ne hik, Function.update_of_ne hik]⟩

end Places

end Workflow.Lib

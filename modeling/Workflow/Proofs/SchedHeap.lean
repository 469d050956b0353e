/-
Module: Workflow.Proofs.SchedHeap
Layer: Proofs
Purpose: The heap functions of `CommSchedGroup`. As long as no product of loads overflows,
  `target_cmp` compares relative loads, and `heap_adjust` and `heapify` restore the heap around one
  target, keep the targets of the group and keep every `index`.
Trusted boundary: none
Main exports: relLoad, Fits, targetCmp_lt_zero, targetCmp_lt_one, Sifted, heapAdjust_spec,
  heapify_spec, heapRemove_spec
-/
import Workflow.Kernel.CommScheduler
import Workflow.Lib.BinaryHeap
import Mathlib.Algebra.Order.Field.Basic
import Mathlib.Algebra.Order.Field.Rat

namespace Workflow.Kernel

open Workflow.Lib

variable {targets : Nat → Target}

/-! ### Comparing loads -/

/-- The load of a target relative to its maximum. -/
def relLoad (targets : Nat → Target) (t : Nat) : ℚ :=
  ((targets t).curLoad : ℚ) / (targets t).maxLoad

/-- Targets whose loads can be compared without overflow. -/
def Fits (targets : Nat → Target) (group : Finset Nat) : Prop :=
  ∀ t ∈ group, ∀ u ∈ group, (targets t).curLoad * (targets u).maxLoad < 2 ^ 64

theorem relLoad_le_iff (hpos : ∀ t, 0 < (targets t).maxLoad) (t u : Nat) :
    relLoad targets t ≤ relLoad targets u ↔
      (targets t).curLoad * (targets u).maxLoad ≤ (targets u).curLoad * (targets t).maxLoad := by
  have ht : (0 : ℚ) < (targets t).maxLoad := by exact_mod_cast hpos t
  have hu : (0 : ℚ) < (targets u).maxLoad := by exact_mod_cast hpos u
  unfold relLoad
  rw [div_le_div_iff₀ ht hu]
  exact_mod_cast Iff.rfl

theorem targetCmp_lt_zero (hpos : ∀ t, 0 < (targets t).maxLoad) {group : Finset Nat}
    (hfits : Fits targets group) {t u : Nat} (ht : t ∈ group) (hu : u ∈ group) :
    targetCmp targets t u < 0 ↔ relLoad targets t < relLoad targets u := by
  rw [← not_le, ← not_le, not_iff_not, relLoad_le_iff hpos]
  simp only [targetCmp, mulSize, Nat.mod_eq_of_lt (hfits t ht u hu),
    Nat.mod_eq_of_lt (hfits u hu t ht)]
  split
  · omega
  · split <;> omega

theorem targetCmp_lt_one (hpos : ∀ t, 0 < (targets t).maxLoad) {group : Finset Nat}
    (hfits : Fits targets group) {t u : Nat} (ht : t ∈ group) (hu : u ∈ group) :
    targetCmp targets t u < 1 ↔ relLoad targets t ≤ relLoad targets u := by
  rw [relLoad_le_iff hpos]
  simp only [targetCmp, mulSize, Nat.mod_eq_of_lt (hfits t ht u hu),
    Nat.mod_eq_of_lt (hfits u hu t ht)]
  split
  · omega
  · split <;> omega

/-! ### Sifting -/

/-- What a heap function keeps, when it has put `x` into the slots `h` whose slot `k` was free. -/
structure Sifted (n : Nat) (x : Nat) (h : Slots) (k : Nat) (h' : Slots) : Prop where
  elements : elements h'.tgHeap n = Lib.elements (Function.update h.tgHeap k x) n
  index : ∀ i < n, h'.index (h'.tgHeap i) = i
  frame : ∀ t ∉ Lib.elements (Function.update h.tgHeap k x) n, h'.index t = h.index t

variable {n x k : Nat} {h : Slots}

theorem mem_elements_self (hk : k < n) : x ∈ elements (Function.update h.tgHeap k x) n :=
  mem_elements.mpr ⟨k, hk, Function.update_self ..⟩

theorem mem_elements_other {j : Nat} (hj : j < n) (hjk : j ≠ k) :
    h.tgHeap j ∈ elements (Function.update h.tgHeap k x) n :=
  mem_elements.mpr ⟨j, hj, Function.update_of_ne hjk ..⟩

/-- The element in hand goes into the free slot. -/
theorem sifted_place (hplaced : Placed h.tgHeap h.index n k x) :
    Sifted n x h k (h.place k x) := by
  refine ⟨rfl, hplaced.fill, fun t ht => Function.update_of_ne ?_ ..⟩
  rintro rfl
  exact ht (mem_elements_self hplaced.lt)

/-- Another element goes into the free slot, and the sift goes on from its place. -/
theorem Sifted.move {j : Nat} {h' : Slots} (hplaced : Placed h.tgHeap h.index n k x) (hj : j < n)
    (hjk : j ≠ k) (hs : Sifted n x (h.place k (h.tgHeap j)) j h') : Sifted n x h k h' := by
  have hmove : Lib.elements (Function.update (h.place k (h.tgHeap j)).tgHeap j x) n =
      Lib.elements (Function.update h.tgHeap k x) n := elements_move hplaced.lt hj hjk
  refine ⟨hs.elements.trans hmove, hs.index, fun t ht => ?_⟩
  rw [hs.frame t (hmove ▸ ht)]
  refine Function.update_of_ne ?_ ..
  rintro rfl
  exact ht (mem_elements_other hj hjk)

/-- A comparison of `heap_adjust`: the target is to move above its parent. -/
theorem le_of_targetCmp_lt (hpos : ∀ t, 0 < (targets t).maxLoad) {group : Finset Nat}
    (hfits : Fits targets group) {t u : Nat} (ht : t ∈ group) (hu : u ∈ group) {swapOnEqual : Bool} :
    (targetCmp targets t u < (if swapOnEqual then 1 else 0) →
      relLoad targets t ≤ relLoad targets u) ∧
    (¬ targetCmp targets t u < (if swapOnEqual then 1 else 0) →
      relLoad targets u ≤ relLoad targets t) := by
  have hzero := targetCmp_lt_zero hpos hfits ht hu
  have hone := targetCmp_lt_one hpos hfits ht hu
  cases swapOnEqual with
  | true =>
      simp only [if_true, hone]
      exact ⟨id, fun hnot => (lt_of_not_ge hnot).le⟩
  | false =>
      simp only [Bool.false_eq_true, if_false, hzero]
      exact ⟨le_of_lt, le_of_not_gt⟩

/-- The state after `heap_adjust` has moved the target `x` to the slot `h'.index x`. -/
structure Adjusted (targets : Nat → Target) (n x : Nat) (h : Slots) (k : Nat) (h' : Slots) :
    Prop where
  sifted : Sifted n x h k h'
  lt : h'.index x < n
  slot : h'.tgHeap (h'.index x) = x
  near : NearHeap (relLoad targets) h'.tgHeap n (h'.index x)
  up : UpOk (relLoad targets) h'.tgHeap (h'.index x)
  heap : DownOk (relLoad targets) (Function.update h.tgHeap k x) n k →
    IsHeap (relLoad targets) h'.tgHeap n

theorem adjusted_place (hplaced : Placed h.tgHeap h.index n k x)
    (hnear : NearHeap (relLoad targets) (Function.update h.tgHeap k x) n k)
    (hup : UpOk (relLoad targets) (Function.update h.tgHeap k x) k) :
    Adjusted targets n x h k (h.place k x) := by
  have hindex : (h.place k x).index x = k := Function.update_self ..
  refine ⟨sifted_place hplaced, ?_, ?_, ?_, ?_, fun hdown => hnear.isHeap hup hdown⟩
  · rw [hindex]
    exact hplaced.lt
  · rw [hindex]
    exact Function.update_self ..
  · rw [hindex]
    exact hnear
  · rw [hindex]
    exact hup

/-- `heap_adjust` moves the target up until its parent is in order with it. -/
theorem heapAdjustLoop_spec (hpos : ∀ t, 0 < (targets t).maxLoad) (swapOnEqual : Bool)
    (hplaced : Placed h.tgHeap h.index n k x)
    (hnear : NearHeap (relLoad targets) (Function.update h.tgHeap k x) n k)
    (hfits : Fits targets (elements (Function.update h.tgHeap k x) n)) :
    Adjusted targets n x h k (heapAdjustLoop targets swapOnEqual x h k) := by
  fun_induction heapAdjustLoop targets swapOnEqual x h k with
  | case1 h k hk hlt ih =>
      have hp : parent k < k := parent_lt hk
      have hpn : parent k < n := hp.trans hplaced.lt
      have hle := (le_of_targetCmp_lt hpos hfits (mem_elements_self hplaced.lt)
        (mem_elements_other hpn hp.ne)).1 hlt
      obtain ⟨hnear', hdown'⟩ := hnear.up hk hplaced.lt hle
      have hfits' : Fits targets (elements (Function.update
          (h.place k (h.tgHeap (parent k))).tgHeap (parent k) x) n) := by
        rw [Slots.place, elements_move hplaced.lt hpn hp.ne]
        exact hfits
      have hrest := ih (hplaced.move hpn hp.ne) hnear' hfits'
      exact ⟨hrest.sifted.move hplaced hpn hp.ne, hrest.lt, hrest.slot, hrest.near, hrest.up,
        fun _ => hrest.heap hdown'⟩
  | case2 h k hk hlt =>
      have hp : parent k < k := parent_lt hk
      refine adjusted_place hplaced hnear fun _ => ?_
      rw [Function.update_self, Function.update_of_ne hp.ne]
      exact (le_of_targetCmp_lt hpos hfits (mem_elements_self hplaced.lt)
        (mem_elements_other (hp.trans hplaced.lt) hp.ne)).2 hlt
  | case3 h k hk => exact adjusted_place hplaced hnear fun hpos => absurd hpos hk

/-- The children of a slot. -/
theorem parent_eq_iff {j : Nat} : (0 < j ∧ parent j = k) ↔ j = 2 * k + 1 ∨ j = 2 * k + 2 := by
  unfold parent
  omega

/-- The target goes into the free slot, with its children in order. -/
theorem heaped_place (hplaced : Placed h.tgHeap h.index n k x)
    (hnear : NearHeap (relLoad targets) (Function.update h.tgHeap k x) n k)
    (hup : UpOk (relLoad targets) (Function.update h.tgHeap k x) k)
    (hdown : ∀ j, j = 2 * k + 1 ∨ j = 2 * k + 2 → j < n →
      relLoad targets x ≤ relLoad targets (h.tgHeap j)) :
    Sifted n x h k (h.place k x) ∧ IsHeap (relLoad targets) (h.place k x).tgHeap n := by
  refine ⟨sifted_place hplaced, hnear.isHeap hup fun j hj hjn hparent => ?_⟩
  have hjk : j ≠ k := by
    rintro rfl
    exact (parent_lt hj).ne hparent
  rw [Function.update_self, Function.update_of_ne hjk]
  exact hdown j (parent_eq_iff.mp ⟨hj, hparent⟩) hjn

/-- What is needed to go on from the child `c` of the free slot. -/
theorem descend {c : Nat} (hplaced : Placed h.tgHeap h.index n k x)
    (hnear : NearHeap (relLoad targets) (Function.update h.tgHeap k x) n k)
    (hfits : Fits targets (elements (Function.update h.tgHeap k x) n))
    (hc : c = 2 * k + 1 ∨ c = 2 * k + 2) (hcn : c < n)
    (hx : relLoad targets (h.tgHeap c) ≤ relLoad targets x)
    (hmin : ∀ j, j = 2 * k + 1 ∨ j = 2 * k + 2 → j < n →
      relLoad targets (h.tgHeap c) ≤ relLoad targets (h.tgHeap j)) :
    Placed (h.place k (h.tgHeap c)).tgHeap (h.place k (h.tgHeap c)).index n c x ∧
      NearHeap (relLoad targets) (Function.update (h.place k (h.tgHeap c)).tgHeap c x) n c ∧
      UpOk (relLoad targets) (Function.update (h.place k (h.tgHeap c)).tgHeap c x) c ∧
      Fits targets (elements (Function.update (h.place k (h.tgHeap c)).tgHeap c x) n) := by
  have hck : c ≠ k := by omega
  obtain ⟨hcpos, hparent⟩ := parent_eq_iff.mpr hc
  obtain ⟨hnear', hup'⟩ := hnear.down hcpos hcn hparent hx
    fun j hj hjn hpj => hmin j (parent_eq_iff.mp ⟨hj, hpj⟩) hjn
  refine ⟨hplaced.move hcn hck, hnear', hup', ?_⟩
  rw [Slots.place, elements_move hplaced.lt hcn hck]
  exact hfits

/-- `heapify` moves the target down until its children are in order with it. -/
theorem heapifyLoop_spec (hpos : ∀ t, 0 < (targets t).maxLoad)
    (hplaced : Placed h.tgHeap h.index n k x)
    (hnear : NearHeap (relLoad targets) (Function.update h.tgHeap k x) n k)
    (hup : UpOk (relLoad targets) (Function.update h.tgHeap k x) k)
    (hfits : Fits targets (elements (Function.update h.tgHeap k x) n)) :
    Sifted n x h k (heapifyLoop targets n x h k) ∧
      IsHeap (relLoad targets) (heapifyLoop targets n x h k).tgHeap n := by
  fun_induction heapifyLoop targets n x h k with
  | case1 h k hsize hleft hright ih =>
      have hl := (targetCmp_lt_zero hpos hfits (mem_elements_other (by omega) (by omega))
        (mem_elements_self hplaced.lt)).mp hleft
      have hr := (targetCmp_lt_zero hpos hfits (mem_elements_other (by omega) (by omega))
        (mem_elements_other (by omega) (by omega))).mp hright
      obtain ⟨hplaced', hnear', hup', hfits'⟩ := descend hplaced hnear hfits (.inr rfl) (by omega)
        (hr.trans hl).le (by rintro j (rfl | rfl) _ <;> [exact hr.le; exact le_rfl])
      obtain ⟨hsifted, hheap⟩ := ih hplaced' hnear' hup' hfits'
      exact ⟨hsifted.move hplaced (by omega) (by omega), hheap⟩
  | case2 h k hsize hleft hright ih =>
      have hl := (targetCmp_lt_zero hpos hfits (mem_elements_other (by omega) (by omega))
        (mem_elements_self hplaced.lt)).mp hleft
      have hr := le_of_not_gt (mt (targetCmp_lt_zero hpos hfits
        (mem_elements_other (by omega) (by omega)) (mem_elements_other (by omega) (by omega))).mpr
        hright)
      obtain ⟨hplaced', hnear', hup', hfits'⟩ := descend hplaced hnear hfits (.inl rfl) (by omega)
        hl.le (by rintro j (rfl | rfl) _ <;> [exact le_rfl; exact hr])
      obtain ⟨hsifted, hheap⟩ := ih hplaced' hnear' hup' hfits'
      exact ⟨hsifted.move hplaced (by omega) (by omega), hheap⟩
  | case3 h k hsize hleft hright ih =>
      have hl := le_of_not_gt (mt (targetCmp_lt_zero hpos hfits
        (mem_elements_other (by omega) (by omega)) (mem_elements_self hplaced.lt)).mpr hleft)
      have hr := (targetCmp_lt_zero hpos hfits (mem_elements_other (by omega) (by omega))
        (mem_elements_self hplaced.lt)).mp hright
      obtain ⟨hplaced', hnear', hup', hfits'⟩ := descend hplaced hnear hfits (.inr rfl) (by omega)
        hr.le (by rintro j (rfl | rfl) _ <;> [exact hr.le.trans hl; exact le_rfl])
      obtain ⟨hsifted, hheap⟩ := ih hplaced' hnear' hup' hfits'
      exact ⟨hsifted.move hplaced (by omega) (by omega), hheap⟩
  | case4 h k hsize hleft hright =>
      have hl := le_of_not_gt (mt (targetCmp_lt_zero hpos hfits
        (mem_elements_other (by omega) (by omega)) (mem_elements_self hplaced.lt)).mpr hleft)
      have hr := le_of_not_gt (mt (targetCmp_lt_zero hpos hfits
        (mem_elements_other (by omega) (by omega)) (mem_elements_self hplaced.lt)).mpr hright)
      refine heaped_place hplaced hnear hup ?_
      rintro j (rfl | rfl) _
      · exact hl
      · exact hr
  | case5 h k hsize hlast =>
      have hl := (targetCmp_lt_zero hpos hfits (mem_elements_other (by omega) (by omega))
        (mem_elements_self hplaced.lt)).mp hlast.2
      obtain ⟨hplaced', hnear', hup', _⟩ := descend hplaced hnear hfits (.inl rfl) (by omega)
        hl.le (by rintro j (rfl | rfl) hj <;> [exact le_rfl; omega])
      -- the only child is the last target, so it has no children of its own
      obtain ⟨hsifted, hheap⟩ := heaped_place hplaced' hnear' hup' (by
        rintro j (rfl | rfl) hj <;> omega)
      exact ⟨hsifted.move hplaced (by omega) (by omega), hheap⟩
  | case6 h k hsize hlast =>
      refine heaped_place hplaced hnear hup ?_
      rintro j (rfl | rfl) hj
      · have hnot : ¬ targetCmp targets (h.tgHeap (2 * k + 1)) x < 0 := fun hlt =>
          hlast ⟨by omega, hlt⟩
        exact le_of_not_gt (mt (targetCmp_lt_zero hpos hfits
          (mem_elements_other (by omega) (by omega)) (mem_elements_self hplaced.lt)).mpr hnot)
      · omega

/-! ### The heap functions on a group -/

/-- Every target of the first `n` slots knows its slot. -/
def Indexed (h : Slots) (n : Nat) : Prop :=
  ∀ i < n, h.index (h.tgHeap i) = i

theorem Indexed.injective (hindex : Indexed h n) {i j : Nat} (hi : i < n) (hj : j < n)
    (heq : h.tgHeap i = h.tgHeap j) : i = j := by
  rw [← hindex i hi, heq, hindex j hj]

theorem Indexed.placed (hindex : Indexed h n) (hk : k < n) :
    Placed h.tgHeap h.index n k (h.tgHeap k) :=
  ⟨hk, fun i hi _ => hindex i hi, fun _ hi hik heq => hik (hindex.injective hi hk heq)⟩

/-- What the heap functions keep when no slot was free. -/
structure Kept (n : Nat) (h h' : Slots) : Prop where
  elements : elements h'.tgHeap n = Lib.elements h.tgHeap n
  index : Indexed h' n
  frame : ∀ t ∉ Lib.elements h.tgHeap n, h'.index t = h.index t

theorem Sifted.kept {h' : Slots} (hs : Sifted n (h.tgHeap k) h k h') : Kept n h h' := by
  have hself : Function.update h.tgHeap k (h.tgHeap k) = h.tgHeap := Function.update_eq_self ..
  exact ⟨hself ▸ hs.elements, hs.index, hself ▸ hs.frame⟩

theorem heapAdjust_spec (hpos : ∀ t, 0 < (targets t).maxLoad) (swapOnEqual : Bool)
    (hindex : Indexed h n) (hk : k < n) (hnear : NearHeap (relLoad targets) h.tgHeap n k)
    (hfits : Fits targets (elements h.tgHeap n)) :
    Adjusted targets n (h.tgHeap k) h k (heapAdjust targets h k swapOnEqual) := by
  have hself : Function.update h.tgHeap k (h.tgHeap k) = h.tgHeap := Function.update_eq_self ..
  exact heapAdjustLoop_spec hpos swapOnEqual (hindex.placed hk) (by rwa [hself]) (by rwa [hself])

theorem heapify_spec (hpos : ∀ t, 0 < (targets t).maxLoad) (hindex : Indexed h n) (hk : k < n)
    (hnear : NearHeap (relLoad targets) h.tgHeap n k) (hup : UpOk (relLoad targets) h.tgHeap k)
    (hfits : Fits targets (elements h.tgHeap n)) :
    Kept n h (heapify targets h n k) ∧
      IsHeap (relLoad targets) (heapify targets h n k).tgHeap n := by
  have hself : Function.update h.tgHeap k (h.tgHeap k) = h.tgHeap := Function.update_eq_self ..
  obtain ⟨hsifted, hheap⟩ := heapifyLoop_spec hpos (hindex.placed hk) (by rwa [hself])
    (by rwa [hself]) (by rwa [hself])
  exact ⟨hsifted.kept, hheap⟩

/-- The targets that are left when the last one takes the slot `k`. -/
theorem elements_remove (hindex : Indexed h (n + 1)) (hk : k < n) :
    elements (Function.update h.tgHeap k (h.tgHeap n)) n =
      (elements h.tgHeap (n + 1)).erase (h.tgHeap k) := by
  ext t
  simp only [mem_elements, Finset.mem_erase]
  constructor
  · rintro ⟨i, hi, rfl⟩
    rcases eq_or_ne i k with rfl | hik
    · rw [Function.update_self]
      exact ⟨fun heq => hi.ne' (hindex.injective (by omega) (by omega) heq), n, by omega, rfl⟩
    · rw [Function.update_of_ne hik]
      exact ⟨fun heq => hik (hindex.injective (by omega) (by omega) heq), i, by omega, rfl⟩
  · rintro ⟨hne, i, hi, rfl⟩
    have hik : i ≠ k := fun heq => hne (by rw [heq])
    rcases eq_or_ne i n with rfl | hin
    · exact ⟨k, hk, Function.update_self ..⟩
    · exact ⟨i, by omega, Function.update_of_ne hik ..⟩

theorem elements_remove_last (hindex : Indexed h (n + 1)) :
    elements h.tgHeap n = (elements h.tgHeap (n + 1)).erase (h.tgHeap n) := by
  ext t
  simp only [mem_elements, Finset.mem_erase]
  constructor
  · rintro ⟨i, hi, rfl⟩
    exact ⟨fun heq => hi.ne (hindex.injective (by omega) (by omega) heq), i, by omega, rfl⟩
  · rintro ⟨hne, i, hi, rfl⟩
    have hin : i ≠ n := fun heq => hne (by rw [heq])
    exact ⟨i, by omega, rfl⟩

/-- `heap_remove` takes one target out and keeps the heap of the others. -/
theorem heapRemove_spec (hpos : ∀ t, 0 < (targets t).maxLoad) (hindex : Indexed h (n + 1))
    (hk : k < n + 1) (hheap : IsHeap (relLoad targets) h.tgHeap (n + 1))
    (hfits : Fits targets (elements h.tgHeap (n + 1))) :
    elements (heapRemove targets h n k).tgHeap n =
        (elements h.tgHeap (n + 1)).erase (h.tgHeap k) ∧
      Indexed (heapRemove targets h n k) n ∧
      (∀ t ∉ elements h.tgHeap (n + 1), (heapRemove targets h n k).index t = h.index t) ∧
      IsHeap (relLoad targets) (heapRemove targets h n k).tgHeap n := by
  unfold heapRemove
  split
  · rename_i hlast
    subst hlast
    exact ⟨elements_remove_last hindex, fun i hi => hindex i (by omega), fun _ _ => rfl,
      fun j hj hjn => hheap j hj (by omega)⟩
  · rename_i hlast
    have hkn : k < n := by omega
    have helements := elements_remove hindex hkn
    have hsub : ∀ t ∈ elements (Function.update h.tgHeap k (h.tgHeap n)) n,
        t ∈ elements h.tgHeap (n + 1) := by
      rw [helements]
      exact fun t ht => Finset.mem_of_mem_erase ht
    have hfits' : Fits targets (elements (Function.update h.tgHeap k (h.tgHeap n)) n) :=
      fun t ht u hu => hfits t (hsub t ht) u (hsub u hu)
    have hplaced : Placed h.tgHeap h.index n k (h.tgHeap n) :=
      ⟨hkn, fun i hi _ => hindex i (by omega),
        fun i hi _ heq => hi.ne (hindex.injective (by omega) (by omega) heq)⟩
    have hindex₁ : Indexed (h.place k (h.tgHeap n)) n := hplaced.fill
    have hadj := heapAdjust_spec hpos false hindex₁ hkn
      (hheap.replace (Nat.le_succ n) hkn (h.tgHeap n)) hfits'
    have hkept₁ := hadj.sifted.kept
    have hself : (h.place k (h.tgHeap n)).tgHeap k = h.tgHeap n := Function.update_self ..
    rw [hself] at hadj
    obtain ⟨hkept₂, hheap₂⟩ := heapify_spec hpos hkept₁.index hadj.lt hadj.near hadj.up
      (by rw [hkept₁.elements]; exact hfits')
    refine ⟨(hkept₂.elements.trans hkept₁.elements).trans helements, hkept₂.index,
      fun t ht => ?_, hheap₂⟩
    have hout : t ∉ elements (h.place k (h.tgHeap n)).tgHeap n := fun hin => ht (hsub t hin)
    rw [hkept₂.frame t (by rw [hkept₁.elements]; exact hout), hkept₁.frame t hout]
    refine Function.update_of_ne ?_ ..
    rintro rfl
    exact ht (mem_elements.mpr ⟨n, by omega, rfl⟩)

end Workflow.Kernel

/-
Module: Workflow.Proofs.WeightedRandom
Layer: Proofs
Purpose: The first choice of the weighted random policy. The draw goes over the total weight less the
  weight of the selection history, the walk over the weights of the main servers outside of it. The
  range of the draw is never too long, unless a server of the history was freed or the weights of the
  history are so many that the subtraction overflows.
Trusted boundary: none
Main exports: WeightedMains, firstWeighted_eq, Promised, Drawable, firstWeighted_iff
-/
import Workflow.Proofs.UpstreamPolicy
import Workflow.Lib.WeightedPick

namespace Workflow.Nameservice

open Workflow.Lib

namespace UPSGroupPolicy

variable {p : UPSGroupPolicy} {history : List Nat}

/-- The main servers are different objects that exist, and `total_weight` is the sum of their
weights. -/
structure WeightedMains (p : UPSGroupPolicy) : Prop where
  nonempty : p.gov.servers ≠ []
  nodup : p.gov.servers.Nodup
  heap : ∀ i ∈ p.gov.servers, ∃ a, p.gov.heap i = some a
  total : p.totalWeight.toInt = (p.gov.servers.map p.weight).sum

/-- The main servers that are not in the history. -/
def outside (p : UPSGroupPolicy) (history : List Nat) : List Nat :=
  p.gov.servers.filter (· ∉ history)

/-- The weight of some servers. -/
def weightOfAll (p : UPSGroupPolicy) (servers : List Nat) : Nat :=
  (servers.map p.weight).sum

/-- What is left for the draw, in 32 bits. -/
def left (p : UPSGroupPolicy) (history : List Nat) : Int :=
  ((p.weightOfAll p.gov.servers : Int) - p.weightOfAll history).bmod (2 ^ 32)

theorem weight_pos (p : UPSGroupPolicy) (i : Nat) : 0 < p.weight i :=
  UInt16.lt_iff_toNat_lt.mp (p.params i).weight_pos

/-! ### The weight of the history -/

theorem selectHistoryWeight_eq (h : ∀ j ∈ history, p.gov.heap j ≠ none) :
    p.selectHistoryWeight history = some (.ofNat (p.weightOfAll history)) := by
  have hfold : ∀ start : Nat, history.foldlM
      (fun ret i => (p.gov.heap i).map fun _ => ret + p.weightOf i) (Int32.ofNat start) =
      some (.ofNat (start + p.weightOfAll history)) := by
    induction history with
    | nil => exact fun start => rfl
    | cons j rest ih =>
        intro start
        obtain ⟨a, ha⟩ := Option.ne_none_iff_exists'.mp (h j List.mem_cons_self)
        rw [List.foldlM_cons, ha, Option.map_some]
        have hadd : Int32.ofNat start + p.weightOf j = .ofNat (start + p.weight j) :=
          (Int32.ofNat_add ..).symm
        simp only [hadd, Option.bind_eq_bind, Option.bind_some]
        rw [ih (fun k hk => h k (List.mem_cons_of_mem j hk)), weightOfAll, weightOfAll,
          List.map_cons, List.sum_cons, Nat.add_assoc]
  have hstart := hfold 0
  rwa [Nat.zero_add] at hstart

/-- The subtraction wraps around. -/
theorem WeightedMains.sub_history (h : p.WeightedMains) (history : List Nat) :
    (p.totalWeight - .ofNat (p.weightOfAll history)).toInt = p.left history := by
  rw [Int32.toInt_sub, Int32.toInt_ofNat', h.total, show Int32.size = 2 ^ 32 from rfl,
    Int.sub_bmod_bmod]
  rfl

/-! ### The walk -/

/-- The walk over the servers lays their weights end to end, those of the history left out. -/
theorem scanWeights_eq (history : List Nat) {servers : List Nat}
    (hheap : ∀ i ∈ servers, ∃ a, p.gov.heap i = some a)
    {x s : Nat} (hle : s ≤ x) (hfits : s + p.weightOfAll servers < 2 ^ 31) :
    p.scanWeights history x (.ofNat s) servers =
      some (pick p.weight (x - s) (servers.filter (· ∉ history))) := by
  induction servers generalizing s with
  | nil => rfl
  | cons i rest ih =>
      obtain ⟨⟨a, ha⟩, hrest⟩ := List.forall_mem_cons.mp hheap
      rw [weightOfAll, List.map_cons, List.sum_cons, ← weightOfAll] at hfits
      unfold scanWeights
      by_cases hin : i ∈ history
      · rw [if_pos hin, List.filter_cons_of_neg (by simpa using hin)]
        exact ih hrest hle (by omega)
      · have hadd : Int32.ofNat s + p.weightOf i = .ofNat (s + p.weight i) :=
          (Int32.ofNat_add ..).symm
        have hsum : (Int32.ofNat (s + p.weight i)).toInt = (s + p.weight i : Nat) :=
          Int32.toInt_ofNat_of_lt (by omega)
        rw [if_neg hin, List.filter_cons_of_pos (by simpa using hin), pick]
        simp only [ha, Option.bind_eq_bind, Option.bind_some, hadd, hsum]
        by_cases hhit : x - s < p.weight i
        · rw [if_pos hhit, if_pos (by omega)]
          rfl
        · rw [if_neg hhit, if_neg (by omega), ih hrest (by omega) (by omega), Nat.sub_sub]

/-- The number that is drawn. -/
def draw (p : UPSGroupPolicy) (history : List Nat) (rand : Nat) : Nat :=
  if 0 < p.left history then rand % (p.left history).toNat else 0

theorem WeightedMains.fits (h : p.WeightedMains) : p.weightOfAll p.gov.servers < 2 ^ 31 := by
  have htotal := h.total
  have hlt := p.totalWeight.toInt_lt
  rw [← weightOfAll] at htotal
  omega

/-- The function takes the server outside of the history whose interval contains the draw, or else
the last server. -/
theorem firstWeighted_eq (h : p.WeightedMains) (hhistory : ∀ j ∈ history, p.gov.heap j ≠ none)
    (rand : Nat) : p.firstWeighted history rand =
      (pick p.weight (p.draw history rand) (p.outside history) <|> p.gov.servers.getLast?) := by
  have hzero : (0 : Int32).toInt = 0 := rfl
  have hx : (if 0 < p.totalWeight - .ofNat (p.weightOfAll history) then
      (rand : Int) % (p.totalWeight - .ofNat (p.weightOfAll history)).toInt else 0) =
      (p.draw history rand : Int) := by
    have hpos : 0 < p.totalWeight - .ofNat (p.weightOfAll history) ↔ 0 < p.left history := by
      rw [Int32.lt_iff_toInt_lt, hzero, h.sub_history]
    rw [if_congr hpos rfl rfl, h.sub_history, draw]
    split
    · rw [Int.natCast_emod, Int.toNat_of_nonneg (by omega)]
    · rfl
  have hscan := scanWeights_eq history h.heap (Nat.zero_le (p.draw history rand))
    (by rw [Nat.zero_add]; exact h.fits)
  unfold firstWeighted
  simp only [selectHistoryWeight_eq hhistory, Option.bind_eq_bind, Option.bind_some, hx]
  rw [show (0 : Int32) = .ofNat 0 from rfl, hscan, Option.bind_some, Nat.sub_zero, ← outside]
  cases pick p.weight (p.draw history rand) (p.outside history) with
  | none => rfl
  | some i => rfl

/-! ### What is promised -/

/-- The first choice is a main server, one outside of the history if there is one; and if the history
consists of different main servers but not of all, then each server outside is chosen by as many
numbers below the remaining weight as it weighs, and each server of the history by none. -/
def Promised (p : UPSGroupPolicy) (history : List Nat) : Prop :=
  (∀ rand, ∃ i, p.firstWeighted history rand = some i ∧ i ∈ p.gov.servers ∧
    ((∃ j ∈ p.gov.servers, j ∉ history) → i ∉ history)) ∧
  (history.Nodup → (∀ j ∈ history, j ∈ p.gov.servers) → (∃ j ∈ p.gov.servers, j ∉ history) →
    ∀ i ∈ p.gov.servers,
      (List.range (p.weightOfAll p.gov.servers - p.weightOfAll history)).countP
        (fun x => p.firstWeighted history x = some i) = if i ∈ history then 0 else p.weight i)

/-- No server of the history was freed, and what is left for the draw is no more than the weight of
the servers outside of the history, unless that does not matter: there are none, or the last main
server is one of them. -/
def Drawable (p : UPSGroupPolicy) (history : List Nat) : Prop :=
  (∀ j ∈ history, p.gov.heap j ≠ none) ∧
    (p.left history ≤ p.weightOfAll (p.outside history) ∨ p.outside history = [] ∨
      ∀ i, p.gov.servers.getLast? = some i → i ∉ history)

/-- The main servers in the history and outside of it have the total weight. -/
theorem weightOfAll_split (p : UPSGroupPolicy) (history : List Nat) :
    p.weightOfAll p.gov.servers =
      p.weightOfAll (p.gov.servers.filter (· ∈ history)) + p.weightOfAll (p.outside history) := by
  unfold weightOfAll outside
  induction p.gov.servers with
  | nil => rfl
  | cons i rest ih =>
      by_cases hin : i ∈ history <;> simp [hin, ih] <;> omega

theorem mem_outside {i : Nat} : i ∈ p.outside history ↔ i ∈ p.gov.servers ∧ i ∉ history := by
  simp [outside]

theorem outside_ne_nil (h : ∃ j ∈ p.gov.servers, j ∉ history) : p.outside history ≠ [] := by
  obtain ⟨j, hj, hout⟩ := h
  exact List.ne_nil_of_mem (mem_outside.mpr ⟨hj, hout⟩)

theorem weightOfAll_pos (p : UPSGroupPolicy) {servers : List Nat} (h : servers ≠ []) :
    0 < p.weightOfAll servers := by
  cases servers with
  | nil => exact absurd rfl h
  | cons i rest =>
      have hpos := p.weight_pos i
      rw [weightOfAll, List.map_cons, List.sum_cons]
      omega

/-- Where the range is not too long, the draw falls on a server outside. -/
theorem pick_outside (hne : p.outside history ≠ [])
    (hle : p.left history ≤ p.weightOfAll (p.outside history)) (rand : Nat) :
    ∃ i ∈ p.outside history, pick p.weight (p.draw history rand) (p.outside history) = some i := by
  have hlt : p.draw history rand < p.weightOfAll (p.outside history) := by
    have hpos := p.weightOfAll_pos hne
    unfold draw
    split
    · rename_i hleft
      have hmod := Nat.mod_lt rand (show 0 < (p.left history).toNat by omega)
      omega
    · exact hpos
  cases hpick : pick p.weight (p.draw history rand) (p.outside history) with
  | none => exact absurd (pick_eq_none_iff.mp hpick) (Nat.not_le.mpr hlt)
  | some i => exact ⟨i, pick_mem hpick, rfl⟩

theorem firstWeighted_outside (h : p.WeightedMains) (hdraw : p.Drawable history) (rand : Nat) :
    ∃ i, p.firstWeighted history rand = some i ∧ i ∈ p.gov.servers ∧
      ((∃ j ∈ p.gov.servers, j ∉ history) → i ∉ history) := by
  obtain ⟨hhistory, hcases⟩ := hdraw
  rw [firstWeighted_eq h hhistory]
  have hlast := List.getLast?_eq_some_getLast h.nonempty
  cases hpick : pick p.weight (p.draw history rand) (p.outside history) with
  | some i =>
      obtain ⟨hmem, hout⟩ := mem_outside.mp (pick_mem hpick)
      exact ⟨i, rfl, hmem, fun _ => hout⟩
  | none =>
      refine ⟨_, hlast, List.getLast_mem h.nonempty, fun hsome => ?_⟩
      rcases hcases with hle | hnil | hback
      · obtain ⟨i, -, hhit⟩ := pick_outside (outside_ne_nil hsome) hle rand
        rw [hpick] at hhit
        cases hhit
      · exact absurd hnil (outside_ne_nil hsome)
      · exact hback _ hlast

/-- A history of different main servers leaves exactly the weight of the servers outside. -/
theorem WeightedMains.left_eq (h : p.WeightedMains) (hnodup : history.Nodup)
    (hsub : ∀ j ∈ history, j ∈ p.gov.servers) :
    p.weightOfAll p.gov.servers = p.weightOfAll history + p.weightOfAll (p.outside history) ∧
      p.left history = p.weightOfAll (p.outside history) := by
  have hperm : (p.gov.servers.filter (· ∈ history)).Perm history := by
    refine (List.perm_ext_iff_of_nodup (h.nodup.filter _) hnodup).mpr fun j => ?_
    simp only [List.mem_filter, decide_eq_true_eq]
    exact ⟨fun hj => hj.2, fun hj => ⟨hsub j hj, hj⟩⟩
  have hsplit := p.weightOfAll_split history
  have hsame : p.weightOfAll (p.gov.servers.filter (· ∈ history)) = p.weightOfAll history :=
    (hperm.map p.weight).sum_eq
  have hfits := h.fits
  rw [hsame] at hsplit
  refine ⟨hsplit, ?_⟩
  rw [left, hsplit, Int.bmod_def]
  omega

/-- Each number below the remaining weight is drawn as it is. -/
theorem firstWeighted_count (h : p.WeightedMains) (hnodup : history.Nodup)
    (hsub : ∀ j ∈ history, j ∈ p.gov.servers) (hsome : ∃ j ∈ p.gov.servers, j ∉ history) {i : Nat}
    (hi : i ∈ p.gov.servers) :
    (List.range (p.weightOfAll p.gov.servers - p.weightOfAll history)).countP
      (fun x => p.firstWeighted history x = some i) = if i ∈ history then 0 else p.weight i := by
  obtain ⟨hsplit, hleft⟩ := h.left_eq hnodup hsub
  have hhistory : ∀ j ∈ history, p.gov.heap j ≠ none := fun j hj hnone => by
    obtain ⟨a, ha⟩ := h.heap j (hsub j hj)
    rw [hnone] at ha
    cases ha
  have hrange : p.weightOfAll p.gov.servers - p.weightOfAll history =
      ((p.outside history).map p.weight).sum := by
    rw [hsplit, Nat.add_sub_cancel_left]
    rfl
  have hdrawn : ∀ x ∈ List.range ((p.outside history).map p.weight).sum,
      decide (p.firstWeighted history x = some i) =
        decide (pick p.weight x (p.outside history) = some i) := by
    intro x hx
    have hlt : x < p.weightOfAll (p.outside history) := List.mem_range.mp hx
    have hdraw : p.draw history x = x := by
      rw [draw, hleft, if_pos (by omega), Int.toNat_natCast, Nat.mod_eq_of_lt hlt]
    obtain ⟨j, -, hpick⟩ := pick_outside (outside_ne_nil hsome) (Int.le_of_eq hleft) x
    rw [firstWeighted_eq h hhistory, hpick, ← hdraw, hpick]
    rfl
  rw [hrange, List.countP_congr fun x hx => by rw [hdrawn x hx], countP_pick]
  by_cases hin : i ∈ history
  · have hnot : i ∉ p.outside history := fun hmem => (mem_outside.mp hmem).2 hin
    rw [if_pos hin, List.count_eq_zero_of_not_mem hnot, Nat.zero_mul]
  · have hmem : i ∈ p.outside history := mem_outside.mpr ⟨hi, hin⟩
    have hone : (p.outside history).count i = 1 :=
      List.count_eq_one_of_mem (h.nodup.filter _) hmem
    rw [if_neg hin, hone, Nat.one_mul]

/-- A draw that may go beyond the servers outside ends at the last server, also where that is in the
history. -/
theorem not_promised_of_long (h : p.WeightedMains) (hhistory : ∀ j ∈ history, p.gov.heap j ≠ none)
    (hlong : p.weightOfAll (p.outside history) < p.left history) (hsome : p.outside history ≠ [])
    {last : Nat} (hlast : p.gov.servers.getLast? = some last) (hin : last ∈ history) :
    ¬ p.Promised history := by
  rintro ⟨hchoice, -⟩
  -- the number that the weights outside do not reach
  obtain ⟨i, hi, -, hout⟩ := hchoice (p.weightOfAll (p.outside history))
  have hdraw : p.draw history (p.weightOfAll (p.outside history)) =
      p.weightOfAll (p.outside history) := by
    rw [draw, if_pos (by omega), Nat.mod_eq_of_lt (by omega)]
  rw [firstWeighted_eq h hhistory, hdraw,
    pick_eq_none_iff.mpr (Nat.le_refl (p.weightOfAll (p.outside history)))] at hi
  obtain rfl : last = i := Option.some.inj (hlast.symm.trans hi)
  obtain ⟨j, hj⟩ := List.exists_mem_of_ne_nil _ hsome
  exact hout ⟨j, mem_outside.mp hj⟩ hin

/-- A freed server of the history is read. -/
theorem not_promised_of_freed (h : ∃ j ∈ history, p.gov.heap j = none) : ¬ p.Promised history := by
  rintro ⟨hchoice, -⟩
  obtain ⟨i, hi, -⟩ := hchoice 0
  unfold firstWeighted at hi
  rw [selectHistoryWeight_eq_none h] at hi
  cases hi

/-- The first choice is as promised exactly when no server of the history was freed and the draw does
not go beyond the servers outside of the history. -/
theorem firstWeighted_iff (h : p.WeightedMains) (history : List Nat) :
    p.Promised history ↔ p.Drawable history := by
  constructor
  · intro hpromised
    have hhistory : ∀ j ∈ history, p.gov.heap j ≠ none := fun j hj hnone =>
      not_promised_of_freed ⟨j, hj, hnone⟩ hpromised
    refine ⟨hhistory, ?_⟩
    by_contra hnot
    simp only [not_or, not_forall, not_not] at hnot
    obtain ⟨hlong, hsome, last, hlast, hin⟩ := hnot
    exact not_promised_of_long h hhistory (by omega) hsome hlast hin hpromised
  · intro hdraw
    exact ⟨firstWeighted_outside h hdraw, fun hnodup hsub hsome i hi =>
      firstWeighted_count h hnodup hsub hsome hi⟩

end UPSGroupPolicy

/-! ### In the runs -/

namespace UPSSystem

/-- In a run in which no main server is added to a group, the total weight is that of the main
servers. -/
theorem Inv.weightedMains {s : UPSSystem} (h : s.Inv .weightedRandom true)
    (hne : s.policy.gov.servers ≠ []) : s.policy.WeightedMains := by
  obtain ⟨hstrategy, reg, breaker, hpolicy, -, hbound⟩ := h
  have hsum : ∀ l : List Nat, (l.map s.policy.mainWeight).sum =
      ((l.filter s.policy.isMain).map s.policy.weight).sum := by
    intro l
    induction l with
    | nil => rfl
    | cons i rest ih =>
        cases hmain : s.policy.isMain i <;> simp [UPSGroupPolicy.mainWeight, hmain, ← ih]
  refine ⟨hne, ?_, fun i hi => ?_, ?_⟩
  · rw [hpolicy.main.servers]
    exact hpolicy.nodup.filter _
  · rw [hpolicy.main.servers] at hi
    exact hpolicy.heap_of_mem (List.mem_of_mem_filter hi)
  · rw [hpolicy.main.total hstrategy, Int32.toInt_ofNat_of_lt (hbound rfl), hsum,
      ← hpolicy.main.servers]

/-- The runs of a weighted random policy whose main servers are in no group. -/
def WeightedRun (s : UPSSystem) : Prop :=
  Reachable (machine (fun _ => 0) .weightedRandom 30 true) (StepOk (fun _ => 0) true) s

theorem WeightedRun.of_labels {s : UPSSystem} {ops : List UPSOp}
    (h : runChecked (exec fun _ => 0) (StepOk (fun _ => 0) true) 3 (new .weightedRandom 30 true)
      ops = some s) (hne : s.policy.gov.servers ≠ []) : s.WeightedRun ∧ s.policy.WeightedMains := by
  have hreach := runChecked_reachable (Reachable.init rfl) h
  exact ⟨hreach, (reachable_inv hreach).weightedMains hne⟩

/-- With a server that failed before, the other one is chosen. -/
theorem firstWeighted_failed : ∃ s, WeightedRun s ∧ s.policy.gov.servers = [0, 1] ∧
    s.policy.Promised [0] := by
  have hrun : (runChecked (exec fun _ => 0) (StepOk (fun _ => 0) true) 3
      (new .weightedRandom 30 true)
      [.addServer "a" ⟨1, 3, 0, -1⟩, .addServer "b" ⟨1, 2, 0, -1⟩]).map
      (fun s => (s.policy.gov.servers, (s.policy.gov.heap 0).isSome, s.policy.weight 0,
        s.policy.weight 1)) = some ([0, 1], true, 3, 2) := by
    decide +kernel
  obtain ⟨s, hs, heq⟩ := Option.map_eq_some_iff.mp hrun
  simp only [Prod.mk.injEq] at heq
  obtain ⟨hservers, hheap, hweight, hweight'⟩ := heq
  obtain ⟨hreach, hweighed⟩ := WeightedRun.of_labels hs (by rw [hservers]; simp)
  refine ⟨s, hreach, hservers, (UPSGroupPolicy.firstWeighted_iff hweighed [0]).mpr ⟨?_, .inl ?_⟩⟩
  · intro j hj hnone
    rw [List.mem_singleton.mp hj] at hnone
    rw [hnone] at hheap
    cases hheap
  · have hout : s.policy.outside [0] = [1] := by simp [UPSGroupPolicy.outside, hservers]
    rw [hout, UPSGroupPolicy.left, hservers]
    simp only [UPSGroupPolicy.weightOfAll, List.map_cons, List.map_nil, hweight, hweight']
    decide

/-- The history may hold a server that was removed, and freed when its selection failed; and it may
hold a server so often that the remaining weight overflows. -/
theorem firstWeighted_history :
    (∃ s, WeightedRun s ∧ s.policy.WeightedMains ∧ s.policy.gov.servers = [1] ∧
      ¬ s.policy.Promised [0]) ∧
    ∃ s, WeightedRun s ∧ s.policy.WeightedMains ∧ s.policy.gov.servers = [0, 1] ∧
      ¬ s.policy.Promised (List.replicate 32770 1) := by
  constructor
  · have hrun : (runChecked (exec fun _ => 0) (StepOk (fun _ => 0) true) 3
        (new .weightedRandom 30 true)
        [.addServer "a" ⟨1, 1, 0, -1⟩, .select 0 ⟨none, none, none⟩ [] (.still 0 0),
          .removeServer "a", .failed 0 0, .addServer "b" ⟨1, 1, 0, -1⟩]).map
        (fun s => (s.policy.gov.servers, (s.policy.gov.heap 0).isNone)) = some ([1], true) := by
      decide +kernel
    obtain ⟨s, hs, heq⟩ := Option.map_eq_some_iff.mp hrun
    simp only [Prod.mk.injEq] at heq
    obtain ⟨hservers, hfreed⟩ := heq
    obtain ⟨hreach, hweighed⟩ := WeightedRun.of_labels hs (by rw [hservers]; simp)
    exact ⟨s, hreach, hweighed, hservers, UPSGroupPolicy.not_promised_of_freed
      ⟨0, List.mem_singleton_self 0, Option.isNone_iff_eq_none.mp hfreed⟩⟩
  · have hrun : (runChecked (exec fun _ => 0) (StepOk (fun _ => 0) true) 3
        (new .weightedRandom 30 true)
        [.addServer "a" ⟨1, 1, 0, -1⟩, .addServer "b" ⟨1, 65535, 0, -1⟩]).map
        (fun s => (s.policy.gov.servers, (s.policy.gov.heap 1).isSome, s.policy.weight 0,
          s.policy.weight 1)) = some ([0, 1], true, 1, 65535) := by
      decide +kernel
    obtain ⟨s, hs, heq⟩ := Option.map_eq_some_iff.mp hrun
    simp only [Prod.mk.injEq] at heq
    obtain ⟨hservers, hheap, hweight, hweight'⟩ := heq
    obtain ⟨hreach, hweighed⟩ := WeightedRun.of_labels hs (by rw [hservers]; simp)
    have hmem : ∀ j, j ∈ List.replicate 32770 1 ↔ j = 1 := fun j =>
      List.mem_replicate.trans (and_iff_right (by decide))
    have hout : s.policy.outside (List.replicate 32770 1) = [0] := by
      simp only [UPSGroupPolicy.outside, hservers, hmem]
      rfl
    have hlast : s.policy.gov.servers.getLast? = some 1 := by
      rw [hservers]
      rfl
    have hhistory : s.policy.weightOfAll (List.replicate 32770 1) = 32770 * 65535 := by
      rw [UPSGroupPolicy.weightOfAll, List.map_replicate, List.sum_replicate_nat, hweight']
    refine ⟨s, hreach, hweighed, hservers, UPSGroupPolicy.not_promised_of_long hweighed ?_ ?_ ?_
      hlast ((hmem 1).mpr rfl)⟩
    · intro j hj hnone
      rw [(hmem j).mp hj] at hnone
      rw [hnone] at hheap
      cases hheap
    · rw [hout, UPSGroupPolicy.left, hhistory, hservers]
      simp only [UPSGroupPolicy.weightOfAll, List.map_cons, List.map_nil, hweight, hweight']
      decide
    · rw [hout]
      simp

end UPSSystem

end Workflow.Nameservice

/-
Module: Workflow.Proofs.GovernanceBreaker
Layer: Proofs
Purpose: The circuit breaker. In every run in which no operation brings a removed server back into
  the breaker, the breaker list holds registered servers, each once, exactly those with too many
  failures, and `nalives` counts the others.
Trusted boundary: none
Main exports: BreakerInv, StepOk, Bookkept, governance_bookkept, exec_defined
-/
import Workflow.Proofs.GovernanceRefs
import Mathlib.Data.Finset.Card
import Mathlib.Data.Finset.Dedup

namespace Workflow.Nameservice

open Workflow.Lib

/-! ### Fixed-width arithmetic -/

theorem int32_toInt_add_one {n : Int32} (h : n.toInt + 1 < 2 ^ 31) :
    (n + 1).toInt = n.toInt + 1 := by
  have hlow := n.le_toInt
  rw [Int32.toInt_add, Int32.toInt_one, Int.bmod_eq_of_le] <;> omega

theorem int32_toInt_sub_one {n : Int32} (h : -2 ^ 31 < n.toInt) :
    (n - 1).toInt = n.toInt - 1 := by
  have hhigh := n.toInt_lt
  rw [Int32.toInt_sub, Int32.toInt_one, Int.bmod_eq_of_le] <;> omega

theorem not_le_sub_one {n : UInt32} (h : 0 < n) : ¬ n ≤ n - 1 := by
  rw [UInt32.lt_iff_toNat_lt] at h
  rw [UInt32.le_iff_toNat_le, Governance.toNat_sub_one rfl (by simpa using h)]
  simp only [UInt32.toNat_zero] at h
  omega

namespace Governance

/-! ### The invariant -/

/-- The breaker list is `breaker`, for the registered servers `reg`. -/
structure BreakerInv (g : Governance) (reg : Finset Nat) (breaker : List Nat) : Prop where
  list : IsList g.links .head (breaker.map .server)
  registered : ∀ i ∈ breaker, i ∈ reg
  fused : ∀ i ∈ reg, ∃ a, g.heap i = some a ∧ (i ∈ breaker ↔ a.maxFails ≤ a.failCount)
  unlinked : ∀ i ∈ reg, i ∉ breaker → g.links.next (.server i) = none
  old : ∀ i ∈ reg, i < g.fresh
  unused : ∀ i, g.fresh ≤ i → g.links.next (.server i) = none
  nalives : g.nalives.toInt = (reg.card : Int) - breaker.length
  small : reg.card < 2 ^ 31

variable {g g' : Governance} {reg : Finset Nat} {breaker : List Nat} {i : Nat}

theorem server_injective : Function.Injective Node.server := fun _ _ h => Node.server.inj h

theorem server_mem_map {l : List Nat} : Node.server i ∈ l.map Node.server ↔ i ∈ l :=
  List.mem_map_of_injective server_injective

/-- No server is twice in the breaker. -/
theorem BreakerInv.nodup (h : BreakerInv g reg breaker) : breaker.Nodup :=
  List.Nodup.of_map _ (List.nodup_cons.mp h.list.nodup).2

/-- The breaker holds registered servers only. -/
theorem BreakerInv.length_le (h : BreakerInv g reg breaker) : breaker.length ≤ reg.card := by
  rw [← List.toFinset_card_of_nodup h.nodup]
  exact Finset.card_le_card fun j hj => h.registered j (List.mem_toFinset.mp hj)

/-- A registered server is linked exactly when it is in the breaker. -/
theorem BreakerInv.next_isSome (h : BreakerInv g reg breaker) (hi : i ∈ reg) :
    (g.links.next (.server i)).isSome ↔ i ∈ breaker := by
  constructor
  · intro hnext
    by_contra hnot
    rw [h.unlinked i hi hnot] at hnext
    exact Bool.false_ne_true hnext
  · intro hmem
    obtain ⟨before, after, rfl⟩ := List.append_of_mem hmem
    have hlist := h.list
    rw [List.map_append, List.map_cons] at hlist
    rw [hlist.next_after]
    rfl

/-- The breaker reads only the failures of registered servers. -/
theorem BreakerInv.put (h : BreakerInv g reg breaker) {a : EndpointAddress}
    (ha : i ∈ reg → (i ∈ breaker ↔ a.maxFails ≤ a.failCount)) :
    BreakerInv (g.put i a) reg breaker := by
  refine ⟨h.list, h.registered, fun j hj => ?_, h.unlinked, h.old, h.unused, h.nalives, h.small⟩
  rcases eq_or_ne j i with rfl | hne
  · exact ⟨a, Function.update_self .., ha hj⟩
  · obtain ⟨b, hb, hiff⟩ := h.fused j hj
    exact ⟨b, by simp [hne, hb], hiff⟩

/-- `list_del` and the NULL afterwards take one server out of the list. -/
theorem unlink_of_list {before after : List Nat}
    (h : IsList g.links .head ((before ++ i :: after).map .server)) :
    ∃ links, g.unlink i = some { g with links := links } ∧
      IsList links .head ((before ++ after).map .server) ∧ links.next (.server i) = none ∧
      ∀ j ∉ before ++ after, j ≠ i → links.next (.server j) = g.links.next (.server j) := by
  rw [List.map_append, List.map_cons] at h
  have hnodup := List.nodup_middle.mp (List.nodup_cons.mp h.nodup).2
  have hout : Node.server i ∉ Node.head :: (before ++ after).map Node.server := by
    rw [List.map_append]
    simpa using (List.nodup_cons.mp hnodup).1
  obtain ⟨links, hdel, hlist, hframe⟩ := listDel_isList h
  rw [← List.map_append] at hlist hframe
  refine ⟨links.setNext (.server i) none, by simp [unlink, hdel], ?_, by simp, ?_⟩
  · refine hlist.congr (fun x hx => Links.setNext_next_of_ne _ _ ?_) (fun x _ => rfl)
    rintro rfl
    exact hout hx
  · intro j hj hne
    rw [Links.setNext_next_of_ne _ _ (fun heq => hne (Node.server.inj heq)), hframe]
    simpa using hj

/-- A server with few failures leaves the breaker and lives again. -/
theorem BreakerInv.leave {before after : List Nat} {a : EndpointAddress}
    (h : BreakerInv g reg (before ++ i :: after)) (ha : ¬ a.maxFails ≤ a.failCount) :
    ∃ g₁, (g.put i a).unlink i = some g₁ ∧
      BreakerInv g₁.recoverOneServer reg (before ++ after) := by
  obtain ⟨links, hunlink, hlist, hnext, hframe⟩ :=
    unlink_of_list (g := g.put i a) h.list
  have hnot := (List.nodup_cons.mp (List.nodup_middle.mp h.nodup)).1
  have hmem : ∀ j ≠ i, j ∈ before ++ after ↔ j ∈ before ++ i :: after := by
    intro j hne
    simp [hne]
  have hreg : ∀ j ∈ before ++ after, j ∈ reg := by
    intro j hj
    exact h.registered j ((hmem j fun heq => hnot (heq ▸ hj)).mp hj)
  refine ⟨_, hunlink, hlist, hreg, fun j hj => ?_, fun j hj hout => ?_, h.old, fun j hj => ?_, ?_,
    h.small⟩
  · rcases eq_or_ne j i with rfl | hne
    · exact ⟨a, Function.update_self .., by simp [hnot, ha]⟩
    · obtain ⟨b, hb, hiff⟩ := h.fused j hj
      exact ⟨b, by simp [recoverOneServer, hne, hb], (hmem j hne).trans hiff⟩
  · rcases eq_or_ne j i with rfl | hne
    · exact hnext
    · exact (hframe j hout hne).trans (h.unlinked j hj (mt (hmem j hne).mpr hout))
  · rcases eq_or_ne j i with rfl | hne
    · exact hnext
    · have hout : j ∉ before ++ after := fun hin => absurd (h.old j (hreg j hin)) (by
        simpa [recoverOneServer] using hj)
      exact (hframe j hout hne).trans (h.unused j hj)
  · have hlen := h.length_le
    have hcount := h.nalives
    have hsmall := h.small
    simp only [List.length_append, List.length_cons] at hlen hcount
    simp only [recoverOneServer, put_nalives, List.length_append]
    rw [int32_toInt_add_one] <;> omega

/-- A registered server with many failures enters the breaker, unless it is there. -/
theorem BreakerInv.fuse {a : EndpointAddress} (now : Int) (h : BreakerInv g reg breaker)
    (hi : i ∈ reg) (ha : a.maxFails ≤ a.failCount) :
    ∃ g₁ breaker', fuseServerToBreaker now (g.put i a) i = some g₁ ∧
      BreakerInv g₁ reg breaker' := by
  unfold fuseServerToBreaker
  by_cases hmem : i ∈ breaker
  · have hnext := (h.next_isSome hi).mpr hmem
    rw [if_neg (by simpa using Option.isSome_iff_ne_none.mp hnext)]
    exact ⟨_, breaker, rfl, h.put fun _ => by simp [hmem, ha]⟩
  · rw [if_pos (by simpa using h.unlinked i hi hmem), modify_of_heap (Function.update_self ..)]
    have hnot : Node.server i ∉ Node.head :: breaker.map Node.server := by simpa using hmem
    obtain ⟨links, hadd, hlist, -, hframe⟩ := listAddTail_isList h.list hnot
    have hframe' : ∀ j ∉ breaker, j ≠ i →
        links.next (.server j) = g.links.next (.server j) := by
      intro j hj hne
      exact hframe _ (by simpa using hj) (fun heq => hne (Node.server.inj heq))
    simp only [Option.bind_eq_bind, Option.bind_some, put_links, hadd, put_put]
    refine ⟨_, breaker ++ [i], rfl, by simpa [fuseOneServer] using hlist, ?_, fun j hj => ?_,
      fun j hj hout => ?_, h.old, fun j hj => ?_, ?_, h.small⟩
    · intro j hj
      rcases List.mem_append.mp hj with hj | hj
      · exact h.registered j hj
      · rwa [List.mem_singleton.mp hj]
    · rcases eq_or_ne j i with rfl | hne
      · exact ⟨_, Function.update_self .., by simp [ha]⟩
      · obtain ⟨b, hb, hiff⟩ := h.fused j hj
        exact ⟨b, by simp [fuseOneServer, hne, hb], by simpa [hne] using hiff⟩
    · simp only [List.mem_append, List.mem_singleton, not_or] at hout
      exact (hframe' j hout.1 hout.2).trans (h.unlinked j hj hout.1)
    · have hreg : j ∉ reg := fun hin => absurd (h.old j hin) (by
        simpa [fuseOneServer] using hj)
      exact (hframe' j (fun hin => hreg (h.registered j hin)) (fun heq => hreg (heq ▸ hi))).trans
        (h.unused j hj)
    · have hlen := h.length_le
      have hcount := h.nalives
      have hsmall := h.small
      simp only [fuseOneServer, put_nalives, List.length_append, List.length_singleton]
      rw [int32_toInt_sub_one] <;> omega

/-! ### The operations of the breaker -/

/-- A server recovers and leaves the breaker. -/
theorem recoverServerFromBreaker_spec (h : BreakerInv g reg breaker) (hi : i ∈ reg) :
    ∃ g' breaker', g.recoverServerFromBreaker i = some g' ∧ BreakerInv g' reg breaker' := by
  obtain ⟨a, ha, _⟩ := h.fused i hi
  have hzero : ¬ a.maxFails ≤ 0 := UInt32.not_le.mpr a.maxFails_pos
  unfold recoverServerFromBreaker
  have hnext : ((g.put i { a with failCount := 0 }).links.next (.server i)).isSome ↔
      i ∈ breaker := h.next_isSome hi
  rw [modify_of_heap ha]
  simp only [Option.bind_eq_bind, Option.bind_some]
  by_cases hmem : i ∈ breaker
  · obtain ⟨before, after, rfl⟩ := List.append_of_mem hmem
    obtain ⟨g₁, hunlink, hinv⟩ := h.leave (a := { a with failCount := 0 }) hzero
    rw [if_pos (hnext.mpr hmem), hunlink]
    exact ⟨_, _, rfl, hinv⟩
  · rw [if_neg (mt hnext.mp hmem)]
    exact ⟨_, breaker, rfl, h.put fun _ => by simp [hmem, hzero]⟩

/-- A server is fused. -/
theorem disableOne_spec (now : Int) (h : BreakerInv g reg breaker) (hi : i ∈ reg) :
    ∃ g' breaker', disableOne now g i = some g' ∧ BreakerInv g' reg breaker' := by
  obtain ⟨a, ha, _⟩ := h.fused i hi
  unfold disableOne
  rw [modify_of_heap ha]
  exact h.fuse now hi (UInt32.le_refl _)

theorem unlink_recoverOneServer (g : Governance) (i : Nat) :
    g.recoverOneServer.unlink i = (g.unlink i).map recoverOneServer := by
  unfold unlink recoverOneServer
  cases listDel g.links (.server i) <;> rfl

/-- One pass of `check_breaker` keeps the server or recovers it. -/
theorem checkServer_spec (now : Int) {before after : List Nat}
    (h : BreakerInv g reg (before ++ i :: after)) :
    ∃ g' before', checkServer now g i = some g' ∧ BreakerInv g' reg (before' ++ after) := by
  have hmem : i ∈ before ++ i :: after := by simp
  obtain ⟨a, ha, hiff⟩ := h.fused i (h.registered i hmem)
  unfold checkServer
  simp only [ha, Option.bind_eq_bind, Option.bind_some]
  split
  · have hrevive : g.reviveServer i =
        some (g.put i { a with failCount := a.maxFails - 1 }).recoverOneServer := by
      unfold reviveServer
      simp only [ha, Option.bind_eq_bind, Option.bind_some]
      rw [if_pos (hiff.mp hmem), modify_of_heap ha]
      rfl
    obtain ⟨g₁, hunlink, hinv⟩ := h.leave (a := { a with failCount := a.maxFails - 1 })
      (not_le_sub_one a.maxFails_pos)
    refine ⟨g₁.recoverOneServer, before, ?_, hinv⟩
    rw [hrevive, Option.bind_some, unlink_recoverOneServer, hunlink]
    rfl
  · exact ⟨g, before ++ [i], rfl, by simpa using h⟩

/-- From any place in the list, `list_for_each_safe` goes through the rest of it. -/
theorem loop_checkBreakerStep (now : Int) (before after : List Nat)
    (h : BreakerInv g reg (before ++ after)) (pos : Node)
    (hpos : pos = (after.map Node.server).headD .head) :
    ∃ fuel g' breaker', loop (checkBreakerStep now) fuel (g, pos, g.links.next pos) =
        some (some g') ∧ BreakerInv g' reg breaker' := by
  induction after generalizing g before pos with
  | nil =>
      subst hpos
      exact ⟨1, g, before, rfl, by simpa using h⟩
  | cons i after ih =>
      obtain rfl : pos = .server i := hpos
      obtain ⟨g₁, before', hcheck, hinv⟩ := checkServer_spec now h
      obtain ⟨fuel, g', breaker', hloop, hinv'⟩ := ih before' hinv _ rfl
      have hlist := h.list
      rw [List.map_append, List.map_cons] at hlist
      refine ⟨fuel + 1, g', breaker', ?_, hinv'⟩
      rw [loop_next (t := (g₁, (after.map Node.server).headD .head,
        g₁.links.next ((after.map Node.server).headD .head)))]
      · exact hloop
      · simp only [checkBreakerStep, hcheck, hlist.next_after]

/-- The breaker is looked through to its end. -/
theorem checkBreaker_spec (now : Int) (h : BreakerInv g reg breaker) :
    ∃ fuel g' breaker', checkBreaker fuel now g = some g' ∧ BreakerInv g' reg breaker' := by
  obtain ⟨fuel, g', breaker', hloop, hinv⟩ := loop_checkBreakerStep now [] breaker h _ rfl
  by_cases hempty : listEmpty g.links .head = true
  · exact ⟨0, g, breaker, if_pos hempty, h⟩
  · refine ⟨fuel, g', breaker', ?_, hinv⟩
    unfold checkBreaker
    rw [if_neg hempty, h.list.next_head]
    simp only [Option.bind_eq_bind, Option.bind_some]
    rw [hloop]
    rfl

/-- A retired server no longer counts, whether it was living or in the breaker. -/
theorem retireServer_spec (h : BreakerInv g reg breaker) (hi : i ∈ reg) :
    ∃ g' breaker', g.retireServer i = some g' ∧ BreakerInv g' (reg.erase i) breaker' := by
  obtain ⟨a, ha, hiff⟩ := h.fused i hi
  have hcard := Finset.card_erase_add_one hi
  have hlen := h.length_le
  have hcount := h.nalives
  have hsmall := h.small
  unfold retireServer
  simp only [ha, Option.bind_eq_bind, Option.bind_some]
  by_cases hmem : i ∈ breaker
  · rw [if_neg (UInt32.not_lt.mpr (hiff.mp hmem))]
    obtain ⟨before, after, rfl⟩ := List.append_of_mem hmem
    have hnot := (List.nodup_cons.mp (List.nodup_middle.mp h.nodup)).1
    have hlist := h.list
    rw [List.map_append, List.map_cons] at hlist
    obtain ⟨links, hdel, hlist', hframe⟩ := listDel_isList hlist
    rw [← List.map_append] at hlist' hframe
    have hframe' : ∀ j ∉ before ++ after, links.next (.server j) = g.links.next (.server j) :=
      fun j hj => hframe _ (by simpa using hj)
    have hmem' : ∀ j ≠ i, j ∈ before ++ after ↔ j ∈ before ++ i :: after := by
      intro j hne
      simp [hne]
    have hreg : ∀ j ∈ before ++ after, j ∈ reg.erase i := by
      intro j hj
      have hne : j ≠ i := fun heq => hnot (heq ▸ hj)
      exact Finset.mem_erase.mpr ⟨hne, h.registered j ((hmem' j hne).mp hj)⟩
    refine ⟨{ g with links := links }, before ++ after, by simp [removeServerFromBreaker, hdel],
      hlist', hreg, fun j hj => ?_, fun j hj hout => ?_, fun j hj => ?_, fun j hj => ?_, ?_, ?_⟩
    · obtain ⟨hne, hj⟩ := Finset.mem_erase.mp hj
      obtain ⟨b, hb, hiffb⟩ := h.fused j hj
      exact ⟨b, hb, (hmem' j hne).trans hiffb⟩
    · obtain ⟨hne, hj⟩ := Finset.mem_erase.mp hj
      exact (hframe' j hout).trans (h.unlinked j hj (mt (hmem' j hne).mpr hout))
    · exact h.old j (Finset.mem_of_mem_erase hj)
    · have hout : j ∉ before ++ after := fun hin =>
        absurd (h.old j (Finset.mem_of_mem_erase (hreg j hin))) (Nat.not_lt.mpr hj)
      exact (hframe' j hout).trans (h.unused j hj)
    · simp only [List.length_append, List.length_cons] at hcount ⊢
      omega
    · omega
  · rw [if_pos (UInt32.not_le.mp (mt hiff.mpr hmem))]
    refine ⟨_, breaker, rfl, h.list, fun j hj => ?_, fun j hj => h.fused j (Finset.mem_of_mem_erase hj),
      fun j hj hout => h.unlinked j (Finset.mem_of_mem_erase hj) hout,
      fun j hj => h.old j (Finset.mem_of_mem_erase hj), h.unused, ?_, ?_⟩
    · exact Finset.mem_erase.mpr ⟨fun heq => hmem (heq ▸ hj), h.registered j hj⟩
    · have hpos : breaker.length < reg.card := by
        rw [← List.toFinset_card_of_nodup h.nodup]
        refine Finset.card_lt_card ⟨fun j hj => h.registered j (List.mem_toFinset.mp hj), ?_⟩
        exact fun hsub => hmem (List.mem_toFinset.mp (hsub hi))
      simp only [fuseOneServer]
      rw [int32_toInt_sub_one] <;> omega
    · omega

/-- The object of a server that is not registered goes away. -/
theorem BreakerInv.delete (h : BreakerInv g reg breaker) (hi : i ∉ reg) :
    BreakerInv (g.delete i) reg breaker := by
  have hne : ∀ j ∈ reg, j ≠ i := fun j hj heq => hi (heq ▸ hj)
  have hnode : ∀ x ∈ Node.head :: breaker.map Node.server, x ≠ .server i := by
    rintro x hx rfl
    simp only [List.mem_cons, reduceCtorEq, server_mem_map, false_or] at hx
    exact hi (h.registered i hx)
  have hnext : ∀ j ≠ i, (g.delete i).links.next (.server j) = g.links.next (.server j) := by
    intro j hj
    exact Links.setNext_next_of_ne _ _ fun heq => hj (Node.server.inj heq)
  refine ⟨?_, h.registered, fun j hj => ?_, fun j hj hout => ?_, h.old, fun j hj => ?_,
    h.nalives, h.small⟩
  · exact h.list.congr (fun x hx => Links.setNext_next_of_ne _ _ (hnode x hx))
      (fun x hx => Links.setPrev_prev_of_ne _ _ (hnode x hx))
  · obtain ⟨b, hb, hiff⟩ := h.fused j hj
    exact ⟨b, by simp [Governance.delete, hne j hj, hb], hiff⟩
  · rw [hnext j (hne j hj), h.unlinked j hj hout]
  · rcases eq_or_ne j i with rfl | hji
    · simp [Governance.delete]
    · rw [hnext j hji, h.unused j hj]

/-- A registered server that gives back a reference is not deleted by it. -/
theorem BreakerInv.unref {a : EndpointAddress} (h : BreakerInv g reg breaker)
    (ha : g.heap i = some a) (hlast : i ∈ reg → ¬ a.ref - 1 = 0) :
    ∃ g', g.unref i = some g' ∧ BreakerInv g' reg breaker := by
  refine ⟨_, unref_of_heap ha, ?_⟩
  split
  · rename_i hzero
    exact h.delete fun hi => hlast hi hzero
  · refine h.put fun hi => ?_
    obtain ⟨b, hb, hiff⟩ := h.fused i hi
    obtain rfl : a = b := Option.some.inj (ha.symm.trans hb)
    exact hiff

/-- A new server counts as living. -/
theorem addServer_spec (address : String) (maxFails : UInt32) (h : BreakerInv g reg breaker)
    (hsmall : reg.card + 1 < 2 ^ 31) :
    ∃ g', g.addServer address maxFails = some g' ∧ g'.servers = g.servers ++ [g.fresh] ∧
      BreakerInv g' (insert g.fresh reg) breaker := by
  have hnew : g.fresh ∉ reg := fun hin => Nat.lt_irrefl _ (h.old _ hin)
  have hne : ∀ j ∈ reg, j ≠ g.fresh := fun j hj heq => hnew (heq ▸ hj)
  have hcard := Finset.card_insert_of_notMem hnew
  refine ⟨_, addServer_eq g address maxFails, rfl, h.list,
    fun j hj => Finset.mem_insert_of_mem (h.registered j hj), fun j hj => ?_, fun j hj hout => ?_,
    fun j hj => ?_, fun j hj => h.unused j (Nat.le_of_succ_le hj), ?_, by omega⟩
  · rcases Finset.mem_insert.mp hj with rfl | hj
    · refine ⟨_, Function.update_self .., ?_⟩
      have hpos := (EndpointAddress.new address maxFails).maxFails_pos
      have hfew : ¬ (EndpointAddress.new address maxFails).maxFails ≤ 0 := UInt32.not_le.mpr hpos
      exact iff_of_false (mt (h.registered _) hnew) hfew
    · obtain ⟨b, hb, hiff⟩ := h.fused j hj
      exact ⟨b, by simp [recoverOneServer, hne j hj, hb], hiff⟩
  · rcases Finset.mem_insert.mp hj with rfl | hj
    · exact h.unused _ le_rfl
    · exact h.unlinked j hj hout
  · rcases Finset.mem_insert.mp hj with rfl | hj
    · exact Nat.lt_succ_self _
    · exact Nat.lt_succ_of_lt (h.old j hj)
  · have hlen := h.length_le
    have hcount := h.nalives
    simp only [recoverOneServer, put_nalives]
    rw [int32_toInt_add_one] <;> omega

/-- All servers of an address are retired. -/
theorem foldlM_retireServer_spec {ids : List Nat} (hnodup : ids.Nodup) (hids : ∀ i ∈ ids, i ∈ reg)
    (h : BreakerInv g reg breaker) :
    ∃ g' breaker', ids.foldlM retireServer g = some g' ∧
      BreakerInv g' (reg \ ids.toFinset) breaker' := by
  induction ids generalizing g reg breaker with
  | nil => exact ⟨g, breaker, rfl, by simpa using h⟩
  | cons i ids ih =>
      obtain ⟨hi, hnodup⟩ := List.nodup_cons.mp hnodup
      obtain ⟨g₁, breaker₁, hretire, h₁⟩ := retireServer_spec h (hids i List.mem_cons_self)
      have hids' : ∀ j ∈ ids, j ∈ reg.erase i := fun j hj =>
        Finset.mem_erase.mpr ⟨fun heq => hi (heq ▸ hj), hids j (List.mem_cons_of_mem i hj)⟩
      obtain ⟨g', breaker', hrest, h'⟩ := ih hnodup hids' h₁
      refine ⟨g', breaker', ?_, ?_⟩
      · rw [List.foldlM_cons, hretire]
        exact hrest
      · rwa [List.toFinset_cons, Finset.sdiff_insert, ← Finset.erase_sdiff_comm]

/-- The registration gives up its references. -/
theorem foldlM_unref_spec {ids : List Nat} {r : Nat → Nat} (hnodup : ids.Nodup)
    (hpos : ∀ i ∈ ids, 0 < r i) (hc : Counted g r) (hids : ∀ i ∈ ids, i ∉ reg)
    (h : BreakerInv g reg breaker) :
    ∃ g', ids.foldlM Governance.unref g = some g' ∧ BreakerInv g' reg breaker := by
  induction ids generalizing g r with
  | nil => exact ⟨g, rfl, h⟩
  | cons i ids ih =>
      obtain ⟨hi, hnodup⟩ := List.nodup_cons.mp hnodup
      have hposi := hpos i List.mem_cons_self
      obtain ⟨a, ha, _⟩ := hc i hposi
      obtain ⟨g₁, hunref, h₁⟩ := h.unref ha fun hin => absurd hin (hids i List.mem_cons_self)
      have hpos' : ∀ j ∈ ids, 0 < Function.update r i (r i - 1) j := by
        intro j hj
        have hne : j ≠ i := fun heq => hi (heq ▸ hj)
        rw [Function.update_of_ne hne]
        exact hpos j (List.mem_cons_of_mem i hj)
      obtain ⟨g', hrest, h'⟩ := ih hnodup hpos' (unref_counted hc hposi hunref)
        (fun j hj => hids j (List.mem_cons_of_mem i hj)) h₁
      exact ⟨g', by rw [List.foldlM_cons, hunref]; exact hrest, h'⟩

theorem keepOthers_isSome (address : String) {ids : List Nat}
    (h : ∀ i ∈ ids, ∃ a, g.heap i = some a) : ∃ kept, g.keepOthers address ids = some kept := by
  induction ids with
  | nil => exact ⟨[], rfl⟩
  | cons i ids ih =>
      obtain ⟨a, ha⟩ := h i List.mem_cons_self
      obtain ⟨kept, hkept⟩ := ih fun j hj => h j (List.mem_cons_of_mem i hj)
      unfold keepOthers
      simp [ha, hkept]

/-- The servers of an address are removed. -/
theorem removeServerLocked_spec {out : Nat → Nat} (address : String) (hinv : RefInv g out)
    (h : BreakerInv g g.servers.toFinset breaker) :
    ∃ g' breaker', g.removeServerLocked address = some g' ∧
      BreakerInv g' g'.servers.toFinset breaker' := by
  have hnodup : (g.serverMap address).Nodup := by
    rw [hinv.map]
    exact hinv.nodup.filter _
  have hids : ∀ i ∈ g.serverMap address, i ∈ g.servers.toFinset := fun i hi =>
    List.mem_toFinset.mpr (hinv.mem_serverMap.mp hi).1
  obtain ⟨g₁, breaker', hretire, h₁⟩ := foldlM_retireServer_spec hnodup hids h
  have hsame : SameRefs g g₁ := foldlM_sameRefs retireServer_sameRefs hretire
  have hinv₁ := hinv.sameRefs hsame
  obtain ⟨kept, hkept⟩ := keepOthers_isSome address fun i (hi : i ∈ g₁.servers) =>
    (hinv₁.heap_of_mem hi).imp fun _ ha => ha.1
  have hpos : ∀ i ∈ g.serverMap address, 0 < refs g₁.servers out i := by
    intro i hi
    rw [hsame.servers, refs_of_mem (hinv.mem_serverMap.mp hi).1]
    omega
  have hgone : ∀ i ∈ g.serverMap address,
      i ∉ g.servers.toFinset \ (g.serverMap address).toFinset := by
    intro i hi hin
    exact (Finset.mem_sdiff.mp hin).2 (List.mem_toFinset.mpr hi)
  obtain ⟨g', hunref, h'⟩ := foldlM_unref_spec (g := { g₁ with
    serverMap := Function.update g₁.serverMap address [], servers := kept }) hnodup hpos
    hinv₁.counted hgone
    ⟨h₁.list, h₁.registered, h₁.fused, h₁.unlinked, h₁.old, h₁.unused, h₁.nalives, h₁.small⟩
  have hservers : g'.servers = kept := 
    (foldlM_unref hnodup hpos (by exact hinv₁.counted) hunref).2.1
  have hreg : g'.servers.toFinset = g.servers.toFinset \ (g.serverMap address).toFinset := by
    ext i
    rw [hservers, keepOthers_eq hkept, hsame.servers]
    simp only [List.mem_toFinset, List.mem_filter, decide_eq_true_eq, Finset.mem_sdiff,
      hinv.mem_serverMap, hsame.addressOf]
    tauto
  refine ⟨g', breaker', ?_, hreg ▸ h'⟩
  unfold removeServerLocked
  simp only [hretire, hkept, Option.bind_eq_bind, Option.bind_some]
  exact hunref

/-- A loop of steps that keep the invariant. -/
theorem foldlM_spec {f : Governance → Nat → Option Governance}
    (hf : ∀ {g breaker i}, BreakerInv g reg breaker → i ∈ reg →
      ∃ g' breaker', f g i = some g' ∧ BreakerInv g' reg breaker')
    {ids : List Nat} (hids : ∀ i ∈ ids, i ∈ reg) (h : BreakerInv g reg breaker) :
    ∃ g' breaker', ids.foldlM f g = some g' ∧ BreakerInv g' reg breaker' := by
  induction ids generalizing g breaker with
  | nil => exact ⟨g, breaker, rfl, h⟩
  | cons i ids ih =>
      obtain ⟨g₁, breaker₁, hfirst, h₁⟩ := hf h (hids i List.mem_cons_self)
      obtain ⟨g', breaker', hrest, h'⟩ := ih (fun j hj => hids j (List.mem_cons_of_mem i hj)) h₁
      exact ⟨g', breaker', by rw [List.foldlM_cons, hfirst]; exact hrest, h'⟩

/-- One of the registered servers is chosen. -/
theorem firstStrategy_isSome (rand : Nat) (h : g.servers ≠ []) :
    ∃ i, g.firstStrategy rand = some i ∧ i ∈ g.servers := by
  have hpos : 0 < g.servers.length := List.length_pos_iff.mpr h
  have hlt : rand % g.servers.length % 2 ^ 32 < g.servers.length :=
    (Nat.mod_le _ _).trans_lt (Nat.mod_lt _ hpos)
  exact ⟨_, List.getElem?_eq_getElem hlt, List.getElem_mem hlt⟩

/-- One of the registered servers is chosen, whatever the random numbers are. -/
theorem selectAddr_isSome (rand another : Nat) (h : g.servers ≠ [])
    (hheap : ∀ i ∈ g.servers, ∃ a, g.heap i = some a) :
    ∃ i, g.selectAddr rand another = some i ∧ i ∈ g.servers := by
  obtain ⟨first, hfirst, hmem⟩ := firstStrategy_isSome rand h
  obtain ⟨a, ha⟩ := hheap first hmem
  unfold selectAddr
  simp only [hfirst, ha, Option.bind_eq_bind, Option.bind_some]
  split
  · exact firstStrategy_isSome another h
  · exact ⟨first, rfl, hmem⟩

/-- `select` returns, and the invariant holds. -/
theorem select_spec (now : Int) (rand another : Nat)
    (h : BreakerInv g g.servers.toFinset breaker) :
    ∃ fuel g' x breaker', select fuel now rand another g = some (g', x) ∧
      BreakerInv g' g'.servers.toFinset breaker' := by
  unfold select
  split
  · exact ⟨0, g, none, breaker, rfl, h⟩
  · rename_i hlen
    obtain ⟨fuel, g₁, breaker', hcheck, h₁⟩ := checkBreaker_spec now h
    have hsame := checkBreaker_sameRefs hcheck
    rw [← hsame.servers] at h₁
    refine ⟨fuel, ?_⟩
    simp only [hcheck, Option.bind_eq_bind, Option.bind_some]
    split
    · exact ⟨g₁, none, breaker', rfl, h₁⟩
    · have hne : g₁.servers ≠ [] := by
        rw [hsame.servers]
        rintro hnil
        simp [hnil] at hlen
      have hheap : ∀ i ∈ g₁.servers, ∃ a, g₁.heap i = some a := fun i hi =>
        (h₁.fused i (List.mem_toFinset.mpr hi)).imp fun _ ha => ha.1
      obtain ⟨i, haddr, hi⟩ := selectAddr_isSome rand another hne hheap
      obtain ⟨a, ha, hiff⟩ := h₁.fused i (List.mem_toFinset.mpr hi)
      rw [haddr, Option.bind_some, modify_of_heap ha]
      exact ⟨_, _, breaker', rfl, h₁.put fun _ => hiff⟩

/-- `success` is safe for a server that is registered or was never left in the breaker. -/
theorem success_spec {out : Nat → Nat} (hinv : RefInv g out) (hpos : 0 < out i)
    (h : BreakerInv g g.servers.toFinset breaker)
    (hok : i ∈ g.servers ∨ g.links.next (.server i) = none) :
    ∃ g' breaker', g.success i = some g' ∧ BreakerInv g' g'.servers.toFinset breaker' := by
  have hrecover : ∃ g₁ breaker', g.recoverServerFromBreaker i = some g₁ ∧
      BreakerInv g₁ g.servers.toFinset breaker' := by
    by_cases hmem : i ∈ g.servers
    · exact recoverServerFromBreaker_spec h (List.mem_toFinset.mpr hmem)
    · obtain ⟨a, ha, _⟩ := hinv.counted i (by rwa [refs_of_notMem hmem])
      have hnext : (g.put i { a with failCount := 0 }).links.next (.server i) = none :=
        hok.resolve_left hmem
      refine ⟨g.put i { a with failCount := 0 }, breaker, ?_, h.put fun hi =>
        absurd (List.mem_toFinset.mp hi) hmem⟩
      unfold recoverServerFromBreaker
      rw [modify_of_heap ha]
      simp only [Option.bind_eq_bind, Option.bind_some]
      rw [if_neg (by rw [hnext]; exact Bool.false_ne_true)]
      rfl
  obtain ⟨g₁, breaker', hrecover, h₁⟩ := hrecover
  have hsame := recoverServerFromBreaker_sameRefs hrecover
  have hinv₁ := hinv.sameRefs hsame
  obtain ⟨a, ha, hr⟩ := hinv₁.counted i (by unfold refs; omega)
  obtain ⟨g', hunref, h'⟩ := h₁.unref ha fun hi => by
    rw [hsame.servers, refs_of_mem (List.mem_toFinset.mp hi)] at hr
    rw [sub_one_eq_zero_iff hr (by omega)]
    omega
  have hservers : g'.servers = g.servers := (unref_frame hunref).1.trans hsame.servers
  refine ⟨g', breaker', ?_, hservers ▸ h'⟩
  unfold success
  rw [hrecover]
  exact hunref

/-- The cases in which `failed` does not bring a server that is not registered into the breaker: it
is registered and its failures do not overflow, or its object is deleted, or the failures do not
reach the limit just now, or its entry still looks linked. -/
def FailedOk (g : Governance) (i : Nat) : Prop :=
  match g.heap i with
  | none => False
  | some a =>
      if i ∈ g.servers then a.failCount.toNat + 1 < 2 ^ 32
      else a.ref = 1 ∨ a.failCount + 1 ≠ a.maxFails ∨ g.links.next (.server i) ≠ none

instance (g : Governance) (i : Nat) : Decidable (g.FailedOk i) :=
  match h : g.heap i with
  | none => isFalse (by simp [FailedOk, h])
  | some a =>
      decidable_of_iff (if i ∈ g.servers then a.failCount.toNat + 1 < 2 ^ 32
        else a.ref = 1 ∨ a.failCount + 1 ≠ a.maxFails ∨ g.links.next (.server i) ≠ none)
        (by simp [FailedOk, h])

/-- So does `failed`. -/
theorem failed_spec {out : Nat → Nat} (now : Int) (hinv : RefInv g out) (hpos : 0 < out i)
    (h : BreakerInv g g.servers.toFinset breaker) (hok : g.FailedOk i) :
    ∃ g' breaker', failed now g i = some g' ∧ BreakerInv g' g'.servers.toFinset breaker' := by
  obtain ⟨a, ha, hr⟩ := hinv.counted i (by unfold refs; omega)
  have hone := sub_one_eq_zero_iff hr (by unfold refs; omega)
  -- the servers stay, so the invariant may be shown for those before
  suffices hgoal : ∃ g' breaker', failed now g i = some g' ∧
      BreakerInv g' g.servers.toFinset breaker' by
    obtain ⟨g', breaker', hfailed, h'⟩ := hgoal
    obtain ⟨g₁, hunref, hsame⟩ := failed_unref hfailed
    have hservers : g'.servers = g.servers := hsame.servers.trans (unref_frame hunref).1
    exact ⟨g', breaker', hfailed, hservers ▸ h'⟩
  simp only [FailedOk, ha] at hok
  unfold failed
  simp only [ha, Option.bind_eq_bind, Option.bind_some]
  by_cases hmem : i ∈ g.servers
  · rw [if_pos hmem] at hok
    rw [refs_of_mem hmem] at hone
    rw [if_neg (by rw [hone]; omega), modify_of_heap ha, Option.bind_some]
    have hreg := List.mem_toFinset.mpr hmem
    have hsucc := toNat_add_one hok
    split
    · rename_i hmax
      exact h.fuse now hreg (by simp [hmax])
    · rename_i hmax
      refine ⟨_, breaker, rfl, h.put fun _ => ?_⟩
      obtain ⟨b, hb, hiff⟩ := h.fused i hreg
      obtain rfl : a = b := Option.some.inj (ha.symm.trans hb)
      rw [hiff]
      simp only [UInt32.le_iff_toNat_le, hsucc]
      have hne : a.failCount.toNat + 1 ≠ a.maxFails.toNat := fun heq =>
        hmax (UInt32.toNat_inj.mp (hsucc.trans heq))
      omega
  · rw [if_neg hmem] at hok
    have hnotReg : i ∉ g.servers.toFinset := fun hi => hmem (List.mem_toFinset.mp hi)
    split
    · exact ⟨_, breaker, rfl, h.delete hnotReg⟩
    · rename_i hnot
      rw [modify_of_heap ha, Option.bind_some]
      have hput := h.put (i := i) (a := { a with ref := a.ref - 1, failCount := a.failCount + 1 })
        fun hi => absurd hi hnotReg
      split
      · rename_i hmax
        have hlinked : g.links.next (.server i) ≠ none := by
          rcases hok with hlast | hother | hlinked
          · exact absurd (by simp [hlast]) hnot
          · exact absurd hmax hother
          · exact hlinked
        refine ⟨_, breaker, ?_, hput⟩
        unfold fuseServerToBreaker
        rw [if_neg (by simpa using hlinked)]
        rfl
      · exact ⟨_, breaker, rfl, hput⟩

end Governance

/-! ### Whole runs -/

namespace System

/-- The condition on a step: it does not bring a removed server back into the breaker (`success` and
`failed`), and no counter overflows. -/
def StepOk (s : System) : Op → Prop
  | .addServer .. => s.gov.servers.length + 1 < 2 ^ 31
  | .replaceServer .. => s.gov.servers.length + 1 < 2 ^ 31
  | .select .. => ∀ i ∈ s.gov.servers, s.outstanding i + 2 < 2 ^ 32
  | .success i => i ∈ s.gov.servers ∨ s.gov.links.next (.server i) = none
  | .failed i _ => s.gov.FailedOk i
  | _ => True

instance (s : System) (op : Op) : Decidable (s.StepOk op) := by
  cases op <;> unfold StepOk <;> infer_instance

/-- `success` and `failed` are called for an outstanding selection. -/
def Enabled (s : System) : Op → Prop
  | .success i => 0 < s.outstanding i
  | .failed i _ => 0 < s.outstanding i
  | _ => True

/-- The invariant of all runs whose steps are fine. -/
def Inv (s : System) : Prop :=
  s.gov.RefInv s.outstanding ∧ ∃ breaker, s.gov.BreakerInv s.gov.servers.toFinset breaker

/-- A step of the breaker and the registrations, without its effect on the references. -/
theorem exec_breakerInv {s : System} {op : Op} (hinv : s.Inv) (hok : s.StepOk op)
    (hen : s.Enabled op) :
    ∃ fuel t breaker, s.exec fuel op = some t ∧
      t.gov.BreakerInv t.gov.servers.toFinset breaker := by
  obtain ⟨href, breaker, hbr⟩ := hinv
  have hcard : s.gov.servers.toFinset.card = s.gov.servers.length :=
    List.toFinset_card_of_nodup href.nodup
  have hinsert : ∀ g' : Governance, g'.servers = s.gov.servers ++ [s.gov.fresh] →
      g'.servers.toFinset = insert s.gov.fresh s.gov.servers.toFinset := by
    intro g' hservers
    ext i
    simp [hservers]
  have hids : ∀ address, ∀ i ∈ s.gov.serverMap address, i ∈ s.gov.servers.toFinset :=
    fun address i hi => List.mem_toFinset.mpr (href.mem_serverMap.mp hi).1
  cases op with
  | addServer address maxFails =>
      obtain ⟨g', hadd, hservers, h'⟩ :=
        Governance.addServer_spec address maxFails hbr (hcard ▸ hok)
      refine ⟨0, { s with gov := g' }, breaker, by simp [exec, hadd], ?_⟩
      exact hinsert g' hservers ▸ h'
  | removeServer address =>
      obtain ⟨g', breaker', hremove, h'⟩ := Governance.removeServerLocked_spec address href hbr
      exact ⟨0, { s with gov := g' }, breaker', by simp [exec, Governance.removeServer, hremove], h'⟩
  | replaceServer address maxFails =>
      obtain ⟨g₁, hadd, hservers, h₁⟩ :=
        Governance.addServer_spec address maxFails hbr (hcard ▸ hok)
      obtain ⟨g', breaker', hremove, h'⟩ := Governance.removeServerLocked_spec address
        (href.addServer hadd) (hinsert g₁ hservers ▸ h₁)
      exact ⟨0, { s with gov := g' }, breaker',
        by simp [exec, Governance.replaceServer, hadd, hremove], h'⟩
  | enableServer address =>
      obtain ⟨g', breaker', hfold, h'⟩ := Governance.foldlM_spec
        Governance.recoverServerFromBreaker_spec (hids address) hbr
      have hsame := Governance.foldlM_sameRefs Governance.recoverServerFromBreaker_sameRefs hfold
      exact ⟨0, { s with gov := g' }, breaker', by simp [exec, Governance.enableServer, hfold],
        hsame.servers ▸ h'⟩
  | disableServer address now =>
      obtain ⟨g', breaker', hfold, h'⟩ := Governance.foldlM_spec (Governance.disableOne_spec now)
        (hids address) hbr
      have hsame := Governance.foldlM_sameRefs Governance.disableOne_sameRefs hfold
      exact ⟨0, { s with gov := g' }, breaker', by simp [exec, Governance.disableServer, hfold],
        hsame.servers ▸ h'⟩
  | select now rand another =>
      obtain ⟨fuel, g', x, breaker', hselect, h'⟩ := Governance.select_spec now rand another hbr
      cases x with
      | none => exact ⟨fuel, { s with gov := g' }, breaker', by simp [exec, hselect], h'⟩
      | some i =>
          exact ⟨fuel, ⟨g', Function.update s.outstanding i (s.outstanding i + 1)⟩, breaker',
            by simp [exec, hselect], h'⟩
  | success i =>
      obtain ⟨g', breaker', hsuccess, h'⟩ := Governance.success_spec href hen hbr hok
      have hpos : s.outstanding i ≠ 0 := Nat.pos_iff_ne_zero.mp hen
      exact ⟨0, ⟨g', Function.update s.outstanding i (s.outstanding i - 1)⟩, breaker',
        by simp [exec, settle, hpos, hsuccess], h'⟩
  | failed i now =>
      obtain ⟨g', breaker', hfailed, h'⟩ := Governance.failed_spec now href hen hbr hok
      have hpos : s.outstanding i ≠ 0 := Nat.pos_iff_ne_zero.mp hen
      exact ⟨0, ⟨g', Function.update s.outstanding i (s.outstanding i - 1)⟩, breaker',
        by simp [exec, settle, hpos, hfailed], h'⟩
  | checkBreaker now =>
      obtain ⟨fuel, g', breaker', hcheck, h'⟩ := Governance.checkBreaker_spec now hbr
      have hsame := Governance.checkBreaker_sameRefs hcheck
      exact ⟨fuel, { s with gov := g' }, breaker', by simp [exec, hcheck], hsame.servers ▸ h'⟩

/-- More fuel changes nothing. -/
theorem checkBreaker_mono {fuel fuel' : Nat} {now : Int} {g g' : Governance}
    (hle : fuel ≤ fuel') (h : g.checkBreaker fuel now = some g') :
    g.checkBreaker fuel' now = some g' := by
  unfold Governance.checkBreaker at h ⊢
  split at h
  · rename_i hempty
    rw [if_pos hempty, h]
  · rename_i hempty
    rw [if_neg hempty]
    obtain ⟨pos, hpos, h⟩ := Option.bind_eq_some_iff.mp h
    obtain ⟨r, hloop, hr⟩ := Option.bind_eq_some_iff.mp h
    simp only [hpos, Option.bind_eq_bind, Option.bind_some]
    rw [loop_mono hle hloop, Option.bind_some, hr]

theorem select_mono {fuel fuel' : Nat} {now : Int} {rand another : Nat} {g : Governance}
    {r : Governance × Option Nat} (hle : fuel ≤ fuel')
    (h : g.select fuel now rand another = some r) : g.select fuel' now rand another = some r := by
  unfold Governance.select at h ⊢
  split at h
  · rename_i hlen
    rw [if_pos hlen, h]
  · rename_i hlen
    rw [if_neg hlen]
    obtain ⟨g₁, hcheck, hrest⟩ := Option.bind_eq_some_iff.mp h
    rw [checkBreaker_mono hle hcheck]
    exact hrest

/-- More fuel does not change what an operation does. -/
theorem exec_mono {fuel fuel' : Nat} {s t : System} {op : Op} (hle : fuel ≤ fuel')
    (h : s.exec fuel op = some t) : s.exec fuel' op = some t := by
  cases op with
  | select now rand another =>
      obtain ⟨r, hselect, hr⟩ := Option.map_eq_some_iff.mp h
      simp only [exec, select_mono hle hselect, Option.map_some, hr]
  | checkBreaker now =>
      obtain ⟨g, hcheck, hr⟩ := Option.map_eq_some_iff.mp h
      simp only [exec, checkBreaker_mono hle hcheck, Option.map_some, hr]
  | _ => exact h

/-- A step that was taken was possible. -/
theorem exec_enabled {fuel : Nat} {s t : System} {op : Op} (h : s.exec fuel op = some t) :
    s.Enabled op := by
  cases op with
  | success i => exact (settle_eq_some h).1
  | failed i now => exact (settle_eq_some h).1
  | _ => trivial

/-- A fine step keeps the invariant. -/
theorem exec_inv {fuel : Nat} {s t : System} {op : Op} (hinv : s.Inv) (hok : s.StepOk op)
    (h : s.exec fuel op = some t) : t.Inv := by
  have hfit : s.RefsFit op := by
    cases op with
    | select now rand another => exact hok
    | _ => trivial
  refine ⟨exec_refInv hinv.1 hfit h, ?_⟩
  obtain ⟨fuel', t', breaker, h', hbr⟩ := exec_breakerInv hinv hok (exec_enabled h)
  have heq : some t = some t' := by
    rw [← exec_mono (Nat.le_max_left fuel fuel') h, exec_mono (Nat.le_max_right fuel fuel') h']
  obtain rfl := Option.some.inj heq
  exact ⟨breaker, hbr⟩

/-- Nothing is registered at first. -/
theorem new_inv (mttrSecond : UInt32) (tryAnother : Bool) :
    (System.new mttrSecond tryAnother).Inv :=
  ⟨new_refInv mttrSecond tryAnother, [], initListHead_isList _ _, by simp, by
    simp [new, Governance.new], by simp [new, Governance.new], by simp [new, Governance.new], by
    simp [new, Governance.new, initListHead, Links.setNext_next_of_ne], by
    simp [new, Governance.new], by simp [new, Governance.new]⟩

/-- Hence the invariant holds in every state that is reached. -/
theorem reachable_inv {mttrSecond : UInt32} {tryAnother : Bool} {s : System}
    (h : Reachable (machine mttrSecond tryAnother) StepOk s) : s.Inv := by
  refine Reachable.invariant (fun s hs => ?_) (fun s op t hinv hok hstep => ?_) h
  · obtain rfl : s = _ := hs
    exact new_inv mttrSecond tryAnother
  · obtain ⟨fuel, hexec⟩ := hstep
    exact exec_inv hinv hok hexec

/-- In such a run no operation runs into undefined behaviour or does not end. -/
theorem exec_defined {mttrSecond : UInt32} {tryAnother : Bool} {s : System} {op : Op}
    (h : Reachable (machine mttrSecond tryAnother) StepOk s) (hok : s.StepOk op)
    (hen : s.Enabled op) : ∃ fuel t, s.exec fuel op = some t := by
  obtain ⟨fuel, t, _, hexec, _⟩ := exec_breakerInv (reachable_inv h) hok hen
  exact ⟨fuel, t, hexec⟩

end System

/-! ### The bookkeeping -/

/-- `nalives` counts the registered servers outside the breaker list, and the members of the breaker
list are registered servers, each there once. -/
def Governance.Bookkept (g : Governance) : Prop :=
  ∃ breaker : List Nat, IsList g.links .head (breaker.map .server) ∧ breaker.Nodup ∧
    (∀ i ∈ breaker, i ∈ g.servers) ∧
    g.nalives.toInt = (g.servers.filter fun i => i ∉ breaker).length

/-- The bookkeeping is right in every state of every run whose steps are fine. -/
theorem governance_bookkept {mttrSecond : UInt32} {tryAnother : Bool} {s : System}
    (h : Reachable (System.machine mttrSecond tryAnother) System.StepOk s) : s.gov.Bookkept := by
  obtain ⟨href, breaker, hbr⟩ := System.reachable_inv h
  have hreg : ∀ i ∈ breaker, i ∈ s.gov.servers := fun i hi =>
    List.mem_toFinset.mp (hbr.registered i hi)
  refine ⟨breaker, hbr.list, hbr.nodup, hreg, ?_⟩
  have hin : (s.gov.servers.filter fun i => i ∈ breaker).length = breaker.length := by
    refine List.Perm.length_eq ?_
    rw [List.perm_ext_iff_of_nodup (href.nodup.filter _) hbr.nodup]
    intro i
    simpa using hreg i
  have hsplit := s.gov.servers.length_eq_length_filter_add (fun i => i ∈ breaker)
  rw [hbr.nalives, List.toFinset_card_of_nodup href.nodup]
  simp only [decide_not]
  omega

/-- A server that fails once too often is in the breaker, and `nalives` says so. -/
theorem governance_bookkept_fused : ∃ s,
    Reachable (System.machine 30 false) System.StepOk s ∧ s.gov.nalives = 0 ∧
      s.gov.links.next .head = some (.server 0) ∧ s.gov.Bookkept := by
  have hrun : (runChecked System.exec System.StepOk 2 (System.new 30 false)
      [.addServer "a" 1, .select 0 0 0, .failed 0 0]).map
      (fun s => (s.gov.nalives, s.gov.links.next .head)) = some (0, some (.server 0)) := by
    decide +kernel
  obtain ⟨s, hs, heq⟩ := Option.map_eq_some_iff.mp hrun
  obtain ⟨hnalives, hnext⟩ := Prod.mk.inj heq
  have hreach := runChecked_reachable (Reachable.init rfl) hs
  exact ⟨s, hreach, hnalives, hnext, governance_bookkept hreach⟩

/-- A server is selected twice, removed, and fails: it goes into the breaker although it is not
registered, and `nalives` becomes `-1`. -/
theorem governance_failed_after_remove : ∃ s,
    Reachable (System.machine 30 false) (fun _ _ => True) s ∧ s.gov.servers = [] ∧
      s.gov.nalives = -1 ∧ s.gov.links.next .head = some (.server 0) ∧ ¬ s.gov.Bookkept := by
  have hrun : (runChecked System.exec (fun _ _ => True) 2 (System.new 30 false)
      [.addServer "a" 1, .select 0 0 0, .select 0 0 0, .removeServer "a", .failed 0 0]).map
      (fun s => (s.gov.servers, s.gov.nalives, s.gov.links.next .head)) =
      some ([], -1, some (.server 0)) := by
    decide +kernel
  obtain ⟨s, hs, heq⟩ := Option.map_eq_some_iff.mp hrun
  simp only [Prod.mk.injEq] at heq
  obtain ⟨hservers, hnalives, hnext⟩ := heq
  refine ⟨s, runChecked_reachable (Reachable.init rfl) hs, hservers, hnalives, hnext, ?_⟩
  rintro ⟨breaker, _, _, _, hcount⟩
  rw [hnalives, hservers, List.filter_nil] at hcount
  exact absurd hcount (by decide)

end Workflow.Nameservice

/-
Module: Workflow.Proofs.KafkaAssignor
Layer: Proofs
Purpose: When the round-robin assignor deals out the partitions as it should, however the members
  are listed and wherever they lie in memory: only if there is one member, or nothing to deal out.
Trusted boundary: none
Main exports: Lists, RightAssignment, RoundRobinRight, roundRobinRight_iff
-/
import Workflow.Protocol.KafkaAssignor

namespace Workflow.Kafka

open Workflow.Lib

/-! ### What the assignment should be -/

/-- A member as the group knows it: its id and the topics it subscribes to. -/
abbrev Subscription := List Byte × List (List Byte)

def KafkaMember.subscription (m : KafkaMember) : Subscription := (m.memberId, m.topparList)

/-- The members are listed in some order, lie anywhere in memory, and have no partitions yet. -/
structure Lists (members : List Subscription) (group : List KafkaMember) : Prop where
  perm : (group.map KafkaMember.subscription).Perm members
  empty : ∀ m ∈ group, m.assignedTopparList = []

/-- Some member subscribes to the topic. -/
def Subscribed (members : List Subscription) (topic : List Byte) : Prop :=
  ∃ m ∈ members, topic ∈ m.2

/-- Every partition of a subscribed topic is dealt to exactly one member, and members get partitions
of their own topics only. -/
structure RightAssignment (members : List Subscription) (metaList : List KafkaMeta)
    (assignment : List Byte → List Toppar) : Prop where
  once : ∀ info ∈ metaList, Subscribed members info.topic → ∀ i < info.partitionElements,
    (members.map fun m => (assignment m.1).count ⟨info.topic, i⟩).sum = 1
  own : ∀ m ∈ members, ∀ toppar ∈ assignment m.1, toppar.topic ∈ m.2

/-- There is one right assignment, and every run gives it, whatever the order and the places of the
members are. -/
def RoundRobinRight (members : List Subscription) (metaList : List KafkaMeta) : Prop :=
  ∃ assignment, RightAssignment members metaList assignment ∧ ∀ group, Lists members group →
    ∃ result, runAssignor group metaList "roundrobin" = some (0, result) ∧
      (result.map KafkaMember.subscription).Perm members ∧
      ∀ m ∈ result, m.assignedTopparList = assignment m.memberId

theorem runAssignor_roundrobin (group : List KafkaMember) (metaList : List KafkaMeta) :
    runAssignor group metaList "roundrobin" =
      kafkaRoundrobinAssignor group (subscribersOf group metaList) := rfl

/-! ### The loops -/

section ForEach

variable {α σ : Type} {body : σ → α → Option (Bool × σ)} {xs : List α} {s s' : σ} {ok : Bool}

/-- What every pass keeps, the loop keeps. -/
theorem forEach_invariant {P : σ → Prop}
    (hbody : ∀ s a ok s', P s → body s a = some (ok, s') → P s') (hs : P s)
    (h : forEach body xs s = some (ok, s')) : P s' := by
  induction xs generalizing s with
  | nil =>
      cases h
      exact hs
  | cons a rest ih =>
      obtain ⟨⟨ok₁, s₁⟩, hfirst, hrest⟩ := Option.bind_eq_some_iff.mp h
      have hs₁ := hbody s a ok₁ s₁ hs hfirst
      cases ok₁ with
      | true => exact ih hs₁ hrest
      | false =>
          cases hrest
          exact hs₁

/-- A loop whose passes do nothing. -/
theorem forEach_idle (h : ∀ a ∈ xs, body s a = some (true, s)) :
    forEach body xs s = some (true, s) := by
  induction xs with
  | nil => rfl
  | cons a rest ih =>
      rw [forEach, h a List.mem_cons_self]
      exact ih fun a ha => h a (List.mem_cons_of_mem _ ha)

end ForEach

variable {group : List KafkaMember} {members : List Nat} {s s' : RoundRobin} {ok : Bool}

theorem assignTopic_none {subscriber : KafkaMetaSubscriber}
    (h : subscriber.info.partitionElements = 0) :
    assignTopic members s subscriber = some (true, s) := by
  rw [assignTopic, h]
  rfl

/-- Nothing is dealt out when there are no partitions. -/
theorem forEach_assignTopic_none {subscribers : List KafkaMetaSubscriber}
    (h : ∀ subscriber ∈ subscribers, subscriber.info.partitionElements = 0) :
    forEach (assignTopic members) subscribers s = some (true, s) :=
  forEach_idle fun subscriber hmem => assignTopic_none (h subscriber hmem)

/-! ### The first partition -/

/-- The member at `k` has the partition, and is still who it was. -/
def Has (k : Nat) (id : List Byte) (toppar : Toppar) (s : RoundRobin) : Prop :=
  ∃ m, s.group[k]? = some m ∧ m.memberId = id ∧ toppar ∈ m.assignedTopparList

theorem assignPartition_has {k : Nat} {id : List Byte} {toppar : Toppar}
    {subscriber : KafkaMetaSubscriber} {partition : Nat} (hs : Has k id toppar s)
    (h : assignPartition members subscriber s partition = some (ok, s')) : Has k id toppar s' := by
  obtain ⟨m, hm, hid, hin⟩ := hs
  obtain ⟨i, _, h⟩ := Option.bind_eq_some_iff.mp h
  split at h
  · cases h
    exact ⟨m, hm, hid, hin⟩
  · obtain ⟨j, _, h⟩ := Option.bind_eq_some_iff.mp h
    cases h
    by_cases hjk : j = k
    · subst hjk
      refine ⟨{ m with assignedTopparList := m.assignedTopparList ++
        [⟨subscriber.info.topic, partition⟩] }, by simp [assign, hm], hid, ?_⟩
      exact List.mem_append_left _ hin
    · exact ⟨m, by simp [assign, hjk, hm], hid, hin⟩

theorem assignTopic_has {k : Nat} {id : List Byte} {toppar : Toppar}
    {subscriber : KafkaMetaSubscriber} (hs : Has k id toppar s)
    (h : assignTopic members s subscriber = some (ok, s')) : Has k id toppar s' :=
  forEach_invariant (fun _ _ _ _ hs h => assignPartition_has hs h) hs h

/-- From the first place on, the search finds a subscribed member that is in the array. -/
theorem findMember_lt {topic : List Byte} {n i : Nat} (hlen : i + n = members.length)
    (hmembers : ∀ k ∈ members, k < group.length)
    (h : ∃ j k m, i ≤ j ∧ members[j]? = some k ∧ group[k]? = some m ∧ topic ∈ m.topparList) :
    ∃ found, findMember group members topic 0 n i = some found ∧ found < members.length := by
  induction n generalizing i with
  | zero =>
      obtain ⟨j, k, m, hij, hj, _⟩ := h
      have hlt := (List.getElem?_eq_some_iff.mp hj).1
      omega
  | succ n ih =>
      have hlt : i < members.length := by omega
      have hget : members[0 + i]? = some members[i] := by simp [hlt]
      have hk := hmembers members[i] (List.getElem_mem hlt)
      have hm : group[members[i]]? = some group[members[i]] := by simp [hk]
      unfold findMember
      simp only [hget, hm, Option.bind_eq_bind, Option.bind_some]
      by_cases hin : topic ∈ group[members[i]].topparList
      · exact ⟨i, by simp [hin], hlt⟩
      · rw [if_neg hin]
        refine ih (by omega) ?_
        obtain ⟨j, k, m, hij, hj, hk', hm'⟩ := h
        refine ⟨j, k, m, ?_, hj, hk', hm'⟩
        rcases Nat.eq_or_lt_of_le hij with rfl | hlt'
        · simp only [Nat.zero_add] at hget
          rw [hget, Option.some.injEq] at hj
          subst hj
          rw [hm, Option.some.injEq] at hk'
          subst hk'
          exact absurd hm' hin
        · exact hlt'

/-- The first partition goes to the first member of the array. -/
theorem assignPartition_first {k : Nat} {rest : List Nat} {m : KafkaMember}
    {subscriber : KafkaMetaSubscriber} (hmembers : ∀ j ∈ k :: rest, j < group.length)
    (hk : group[k]? = some m)
    (h : ∃ j m, j ∈ k :: rest ∧ group[j]? = some m ∧ subscriber.info.topic ∈ m.topparList)
    (hstep : assignPartition (k :: rest) subscriber ⟨-1, group⟩ 0 = some (ok, s)) :
    ok = true ∧ Has k m.memberId ⟨subscriber.info.topic, 0⟩ s := by
  obtain ⟨j, m', hj, hm', htopic⟩ := h
  obtain ⟨i, hi⟩ := List.mem_iff_getElem?.mp hj
  obtain ⟨found, hfound, hlt⟩ := findMember_lt (n := (k :: rest).length) (i := 0) (Nat.zero_add _)
    hmembers ⟨i, j, m', Nat.zero_le i, hi, hm', htopic⟩
  unfold assignPartition at hstep
  have hnext : ((-1 : Int) + 1) % (subscriber.member.length : Int) = 0 := by simp
  simp only [hnext, Int.toNat_zero, hfound, Option.bind_eq_bind, Option.bind_some,
    if_neg (Nat.not_le.mpr hlt), List.getElem?_cons_zero, Option.pure_def, Option.some.injEq,
    Prod.mk.injEq] at hstep
  obtain ⟨rfl, rfl⟩ := hstep
  refine ⟨rfl, { m with assignedTopparList := m.assignedTopparList ++
    [⟨subscriber.info.topic, 0⟩] }, by simp [assign, hk], rfl, ?_⟩
  exact List.mem_append_right _ List.mem_cons_self

/-- The first topic with a partition, among topics that have subscribers. -/
theorem forEach_assignTopic_first {k : Nat} {rest : List Nat} {m : KafkaMember}
    {none more : List KafkaMetaSubscriber} {subscriber : KafkaMetaSubscriber}
    (hmembers : ∀ j ∈ k :: rest, j < group.length) (hk : group[k]? = some m)
    (hnone : ∀ other ∈ none, other.info.partitionElements = 0)
    (hsome : 0 < subscriber.info.partitionElements)
    (h : ∃ j m, j ∈ k :: rest ∧ group[j]? = some m ∧ subscriber.info.topic ∈ m.topparList)
    (hrun : forEach (assignTopic (k :: rest)) (none ++ subscriber :: more) ⟨-1, group⟩ =
      some (ok, s)) : Has k m.memberId ⟨subscriber.info.topic, 0⟩ s := by
  induction none with
  | nil =>
      obtain ⟨⟨ok₁, s₁⟩, htopic, hrest⟩ := Option.bind_eq_some_iff.mp hrun
      have hs₁ : Has k m.memberId ⟨subscriber.info.topic, 0⟩ s₁ := by
        obtain ⟨n, hn⟩ := Nat.exists_eq_add_of_lt hsome
        rw [assignTopic, hn, Nat.zero_add, List.range_succ_eq_map] at htopic
        obtain ⟨⟨ok₀, s₀⟩, hfirst, hpartitions⟩ := Option.bind_eq_some_iff.mp htopic
        obtain ⟨rfl, hs₀⟩ := assignPartition_first hmembers hk h hfirst
        exact forEach_invariant (fun _ _ _ _ hs h => assignPartition_has hs h) hs₀ hpartitions
      cases ok₁ with
      | true => exact forEach_invariant (fun _ _ _ _ hs h => assignTopic_has hs h) hs₁ hrest
      | false =>
          cases hrest
          exact hs₁
  | cons other none ih =>
      rw [List.cons_append, forEach, assignTopic_none (hnone other List.mem_cons_self)] at hrun
      exact ih (fun other hmem => hnone other (List.mem_cons_of_mem _ hmem)) hrun

/-! ### Topics with subscribers -/

theorem mem_subscribersOf {metaList : List KafkaMeta} {subscriber : KafkaMetaSubscriber}
    (h : subscriber ∈ subscribersOf group metaList) :
    subscriber.info ∈ metaList ∧ ∃ k m, k < group.length ∧ group[k]? = some m ∧
      subscriber.info.topic ∈ m.topparList := by
  obtain ⟨hmem, hne⟩ := List.mem_filter.mp h
  obtain ⟨info, hinfo, rfl⟩ := List.mem_map.mp hmem
  refine ⟨hinfo, ?_⟩
  obtain ⟨k, hk⟩ := List.exists_mem_of_ne_nil _ (of_decide_eq_true hne)
  obtain ⟨hrange, hany⟩ := List.mem_filter.mp hk
  obtain ⟨m, hm, htopic⟩ := Option.any_eq_true _ _ |>.mp hany
  exact ⟨k, m, List.mem_range.mp hrange, hm, of_decide_eq_true htopic⟩

/-- A topic that a member subscribes to has a subscriber. -/
theorem exists_subscriber {metaList : List KafkaMeta} {info : KafkaMeta} (hinfo : info ∈ metaList)
    {m : KafkaMember} (hm : m ∈ group) (htopic : info.topic ∈ m.topparList) :
    ∃ subscriber ∈ subscribersOf group metaList, subscriber.info = info := by
  obtain ⟨k, hk⟩ := List.mem_iff_getElem?.mp hm
  have hlt := (List.getElem?_eq_some_iff.mp hk).1
  refine ⟨_, List.mem_filter.mpr ⟨List.mem_map_of_mem hinfo, decide_eq_true ?_⟩, rfl⟩
  refine List.ne_nil_of_mem (a := k) ?_
  exact List.mem_filter.mpr ⟨List.mem_range.mpr hlt, by simp [hk, htopic]⟩

theorem mem_sortSubscribers {subscribers : List KafkaMetaSubscriber}
    {subscriber : KafkaMetaSubscriber} :
    subscriber ∈ sortSubscribers subscribers ↔ subscriber ∈ subscribers :=
  List.mem_insertionSort _

/-! ### Where the members lie -/

instance {α : Type} (f : α → List Byte) : Std.Total (StrcmpLe f) :=
  ⟨fun a b => le_total ((f a).map UInt8.toNat) ((f b).map UInt8.toNat)⟩

instance {α : Type} (f : α → List Byte) : IsTrans α (StrcmpLe f) :=
  ⟨fun _ _ _ => le_trans⟩

theorem qsortMembers_perm (group : List KafkaMember) :
    (qsortMembers group).Perm (List.range group.length) :=
  List.perm_insertionSort _ _

/-- The members listed in order, one of them in a place that sorts first. -/
def placedFirst (members : List Subscription) (first : List Byte) : List KafkaMember :=
  members.map fun m => ⟨m.1, m.2, [], if m.1 = first then [1] else [2]⟩

theorem placedFirst_lists (members : List Subscription) (first : List Byte) :
    Lists members (placedFirst members first) := by
  refine ⟨?_, fun m hm => ?_⟩
  · rw [placedFirst, List.map_map]
    exact List.Perm.of_eq (List.map_id'' (fun _ => rfl) _)
  · obtain ⟨_, _, rfl⟩ := List.mem_map.mp hm
    rfl

/-- Where the members lie does not matter to who subscribes. -/
theorem subscribersOf_placedFirst (members : List Subscription) (first : List Byte)
    (metaList : List KafkaMeta) :
    subscribersOf (placedFirst members first) metaList =
      subscribersOf (placedFirst members []) metaList := by
  simp [subscribersOf, placedFirst, Option.any_map]

theorem qsortMembers_placedFirst {members : List Subscription} {x : Subscription}
    (hx : x ∈ members) : ∃ k rest m, qsortMembers (placedFirst members x.1) = k :: rest ∧
      (placedFirst members x.1)[k]? = some m ∧ m.memberId = x.1 := by
  obtain ⟨kx, hkx⟩ := List.mem_iff_getElem?.mp hx
  have hlt := (List.getElem?_eq_some_iff.mp hkx).1
  have hperm := qsortMembers_perm (placedFirst members x.1)
  have hmem : kx ∈ qsortMembers (placedFirst members x.1) :=
    hperm.mem_iff.mpr (List.mem_range.mpr (by simpa [placedFirst] using hlt))
  cases hsorted : qsortMembers (placedFirst members x.1) with
  | nil => simp [hsorted] at hmem
  | cons k rest =>
      have hk : k < members.length := by
        have hin : k ∈ qsortMembers (placedFirst members x.1) := by simp [hsorted]
        simpa [placedFirst] using List.mem_range.mp (hperm.mem_iff.mp hin)
      have hget : members[k]? = some members[k] := List.getElem?_eq_getElem hk
      refine ⟨k, rest, ⟨members[k].1, members[k].2, [], if members[k].1 = x.1 then [1] else [2]⟩,
        rfl, by simp [placedFirst, hget], ?_⟩
      rw [hsorted] at hmem
      rcases List.mem_cons.mp hmem with rfl | hrest
      · rw [hget, Option.some.injEq] at hkx
        simp [hkx]
      · have hpair := List.pairwise_insertionSort (StrcmpLe fun k =>
          ((placedFirst members x.1)[k]?.map KafkaMember.image).getD [])
          (List.range (placedFirst members x.1).length)
        rw [← qsortMembers, hsorted] at hpair
        have hle := List.rel_of_pairwise_cons hpair hrest
        simp only [StrcmpLe, placedFirst, List.getElem?_map, hget, hkx] at hle
        by_contra hne
        have hne' : ¬ members[k].1 = x.1 := hne
        simp [hne'] at hle
        exact absurd hle (by decide)

/-! ### Two members and a partition -/

/-- The first partition of all goes to whoever lies first. -/
theorem first_partition {members : List Subscription} {metaList : List KafkaMeta}
    {x : Subscription} (hx : x ∈ members) {subscriber : KafkaMetaSubscriber}
    (hfirst : (sortSubscribers (subscribersOf (placedFirst members []) metaList)).find?
      (fun subscriber => 0 < subscriber.info.partitionElements) = some subscriber)
    {ret : Int} {result : List KafkaMember}
    (h : runAssignor (placedFirst members x.1) metaList "roundrobin" = some (ret, result)) :
    ∃ m ∈ result, m.memberId = x.1 ∧ ⟨subscriber.info.topic, 0⟩ ∈ m.assignedTopparList := by
  rw [← subscribersOf_placedFirst members x.1] at hfirst
  obtain ⟨k, rest, m, hsorted, hk, hid⟩ := qsortMembers_placedFirst hx
  rw [runAssignor_roundrobin, kafkaRoundrobinAssignor] at h
  generalize hgroup : placedFirst members x.1 = group at *
  have hperm := qsortMembers_perm group
  rw [hsorted] at hperm h
  obtain ⟨⟨ok, s⟩, hrun, hresult⟩ := Option.bind_eq_some_iff.mp h
  cases hresult
  obtain ⟨hsome, none, more, hsplit, hnone⟩ := List.find?_eq_some_iff_append.mp hfirst
  rw [hsplit] at hrun
  have hin : subscriber ∈ subscribersOf group metaList :=
    mem_sortSubscribers.mp (hsplit ▸ List.mem_append_right _ List.mem_cons_self)
  obtain ⟨-, j, m', hj, hm', htopic⟩ := mem_subscribersOf hin
  obtain ⟨m'', hm'', hid', hhas⟩ := forEach_assignTopic_first
    (fun j hj => List.mem_range.mp (hperm.mem_iff.mp hj)) hk
    (fun other hother => by simpa using hnone other hother) (of_decide_eq_true hsome)
    ⟨j, m', hperm.mem_iff.mpr (List.mem_range.mpr hj), hm', htopic⟩ hrun
  exact ⟨m'', List.mem_filterMap.mpr ⟨k, List.mem_cons_self, hm''⟩, hid'.trans hid, hhas⟩

theorem not_right_of_two {members : List Subscription} {metaList : List KafkaMeta}
    (htwo : 1 < members.length) {info : KafkaMeta} (hinfo : info ∈ metaList)
    (hsome : 0 < info.partitionElements) (hsubscribed : Subscribed members info.topic) :
    ¬ RoundRobinRight members metaList := by
  rintro ⟨assignment, hright, hruns⟩
  have hfind : ((sortSubscribers (subscribersOf (placedFirst members []) metaList)).find?
      fun subscriber => 0 < subscriber.info.partitionElements).isSome := by
    obtain ⟨y, hy, htopic⟩ := hsubscribed
    have hplaced : ⟨y.1, y.2, [], if y.1 = [] then [1] else [2]⟩ ∈ placedFirst members [] :=
      List.mem_map_of_mem hy
    obtain ⟨subscriber, hmem, rfl⟩ := exists_subscriber hinfo hplaced htopic
    exact List.find?_isSome.mpr ⟨subscriber, mem_sortSubscribers.mpr hmem, decide_eq_true hsome⟩
  obtain ⟨subscriber, hfirst⟩ := Option.isSome_iff_exists.mp hfind
  have hall : ∀ x ∈ members, ⟨subscriber.info.topic, 0⟩ ∈ assignment x.1 := by
    intro x hx
    obtain ⟨result, hrun, -, heq⟩ := hruns _ (placedFirst_lists members x.1)
    obtain ⟨m, hm, hid, hhas⟩ := first_partition hx hfirst hrun
    rwa [heq m hm, hid] at hhas
  obtain ⟨hpositive, none, more, hsplit, -⟩ := List.find?_eq_some_iff_append.mp hfirst
  obtain ⟨hmem, k, m, hk, hm, htopic⟩ := mem_subscribersOf (mem_sortSubscribers.mp
    (hsplit ▸ List.mem_append_right none List.mem_cons_self : subscriber ∈ _))
  have hsub : Subscribed members subscriber.info.topic := by
    obtain ⟨y, hy, rfl⟩ := List.mem_map.mp (List.mem_of_getElem? hm)
    exact ⟨y, hy, htopic⟩
  have honce := hright.once subscriber.info hmem hsub 0 (of_decide_eq_true hpositive)
  obtain ⟨x, y, others, rfl⟩ : ∃ x y others, members = x :: y :: others := by
    match members, htwo with
    | x :: y :: others, _ => exact ⟨x, y, others, rfl⟩
  have hx := List.count_pos_iff.mpr (hall x List.mem_cons_self)
  have hy := List.count_pos_iff.mpr (hall y (List.mem_cons_of_mem _ List.mem_cons_self))
  simp only [List.map_cons, List.sum_cons] at honce
  omega

/-! ### Nothing to deal out -/

theorem filterMap_getElem?_range (group : List KafkaMember) :
    ((List.range group.length).filterMap fun k => group[k]?) = group := by
  induction group with
  | nil => rfl
  | cons m group ih =>
      simp [List.range_succ_eq_map, List.filterMap_map, ih]

theorem right_of_none {members : List Subscription} {metaList : List KafkaMeta}
    (hnone : ∀ info ∈ metaList, Subscribed members info.topic → info.partitionElements = 0) :
    RoundRobinRight members metaList := by
  refine ⟨fun _ => [], ⟨fun info hinfo hsub i hi => ?_, fun m _ toppar hin => by simp at hin⟩,
    fun group hlists => ?_⟩
  · rw [hnone info hinfo hsub] at hi
    exact absurd hi (Nat.not_lt_zero i)
  · have hidle : ∀ subscriber ∈ sortSubscribers (subscribersOf group metaList),
        subscriber.info.partitionElements = 0 := by
      intro subscriber hmem
      obtain ⟨hinfo, k, m, _, hm, htopic⟩ := mem_subscribersOf (mem_sortSubscribers.mp hmem)
      refine hnone _ hinfo ⟨m.subscription, ?_, htopic⟩
      exact hlists.perm.mem_iff.mp (List.mem_map_of_mem (List.mem_of_getElem? hm))
    have hperm : ((qsortMembers group).filterMap fun k => group[k]?).Perm group := by
      have hsorted := (qsortMembers_perm group).filterMap fun k => group[k]?
      rwa [filterMap_getElem?_range] at hsorted
    refine ⟨(qsortMembers group).filterMap fun k => group[k]?, ?_, ?_, fun m hm => ?_⟩
    · rw [runAssignor_roundrobin, kafkaRoundrobinAssignor, forEach_assignTopic_none hidle]
      rfl
    · exact (hperm.map _).trans hlists.perm
    · exact hlists.empty m (hperm.mem_iff.mp hm)

/-! ### One member -/

/-- The partitions of the topics, topic by topic. -/
def allPartitions (subscribers : List KafkaMetaSubscriber) : List Toppar :=
  subscribers.flatMap fun subscriber =>
    (List.range subscriber.info.partitionElements).map fun i => ⟨subscriber.info.topic, i⟩

/-- The member with these partitions. -/
def KafkaMember.holding (m : KafkaMember) (assigned : List Toppar) : KafkaMember :=
  { m with assignedTopparList := assigned }

variable {m : KafkaMember}

/-- The only member gets the partition. -/
theorem assignPartition_single {subscriber : KafkaMetaSubscriber}
    (hmember : subscriber.member.length = 1) (htopic : subscriber.info.topic ∈ m.topparList)
    (next : Int) (assigned : List Toppar) (partition : Nat) :
    assignPartition [0] subscriber ⟨next, [m.holding assigned]⟩ partition =
      some (true, ⟨0, [m.holding (assigned ++ [⟨subscriber.info.topic, partition⟩])]⟩) := by
  simp [assignPartition, hmember, findMember, htopic, assign, KafkaMember.holding]

theorem forEach_single {subscriber : KafkaMetaSubscriber}
    (hmember : subscriber.member.length = 1) (htopic : subscriber.info.topic ∈ m.topparList)
    (next : Int) (assigned : List Toppar) (partitions : List Nat) :
    ∃ next', forEach (assignPartition [0] subscriber) partitions ⟨next, [m.holding assigned]⟩ =
      some (true, ⟨next', [m.holding
        (assigned ++ partitions.map fun i => ⟨subscriber.info.topic, i⟩)]⟩) := by
  induction partitions generalizing next assigned with
  | nil => exact ⟨next, by simp [forEach]⟩
  | cons partition rest ih =>
      obtain ⟨next', hrest⟩ := ih 0 (assigned ++ [⟨subscriber.info.topic, partition⟩])
      refine ⟨next', ?_⟩
      rw [forEach, assignPartition_single hmember htopic]
      simpa using hrest

theorem forEach_assignTopic_single {subscribers : List KafkaMetaSubscriber}
    (h : ∀ subscriber ∈ subscribers, subscriber.member.length = 1 ∧
      subscriber.info.topic ∈ m.topparList) (next : Int) (assigned : List Toppar) :
    ∃ next', forEach (assignTopic [0]) subscribers ⟨next, [m.holding assigned]⟩ =
      some (true, ⟨next', [m.holding (assigned ++ allPartitions subscribers)]⟩) := by
  induction subscribers generalizing next assigned with
  | nil => exact ⟨next, by simp [forEach, allPartitions]⟩
  | cons subscriber rest ih =>
      obtain ⟨hmember, htopic⟩ := h subscriber List.mem_cons_self
      obtain ⟨next₁, hfirst⟩ := forEach_single hmember htopic next assigned
        (List.range subscriber.info.partitionElements)
      obtain ⟨next', hrest⟩ := ih (fun other hmem => h other (List.mem_cons_of_mem _ hmem)) next₁
        (assigned ++ (List.range subscriber.info.partitionElements).map
          fun i => ⟨subscriber.info.topic, i⟩)
      refine ⟨next', ?_⟩
      rw [forEach, assignTopic, hfirst]
      simpa [allPartitions] using hrest

/-- With one member, it is the subscriber of its topics. -/
theorem subscribersOf_single (m : KafkaMember) (metaList : List KafkaMeta) :
    subscribersOf [m] metaList = (metaList.filter fun info => info.topic ∈ m.topparList).map
      fun info => ⟨info, [0]⟩ := by
  induction metaList with
  | nil => rfl
  | cons info rest ih =>
      unfold subscribersOf at ih ⊢
      by_cases htopic : info.topic ∈ m.topparList
      · simp [htopic, List.range_succ] at ih ⊢
        exact ih
      · simp [htopic, List.range_succ] at ih ⊢
        exact ih

theorem mem_allPartitions {subscribers : List KafkaMetaSubscriber} {toppar : Toppar} :
    toppar ∈ allPartitions subscribers ↔
      ∃ subscriber ∈ subscribers, subscriber.info.topic = toppar.topic ∧
        toppar.partition < subscriber.info.partitionElements := by
  simp only [allPartitions, List.mem_flatMap, List.mem_map, List.mem_range]
  constructor
  · rintro ⟨subscriber, hmem, i, hi, rfl⟩
    exact ⟨subscriber, hmem, rfl, hi⟩
  · rintro ⟨subscriber, hmem, htopic, hi⟩
    exact ⟨subscriber, hmem, toppar.partition, hi, by rw [htopic]⟩

/-- No partition is there twice. -/
theorem allPartitions_nodup {subscribers : List KafkaMetaSubscriber}
    (h : (subscribers.map fun subscriber => subscriber.info.topic).Nodup) :
    (allPartitions subscribers).Nodup := by
  refine List.nodup_flatMap.mpr ⟨fun subscriber _ => ?_, ?_⟩
  · exact List.nodup_range.map fun i j heq => (Toppar.mk.inj heq).2
  · refine (List.pairwise_map.mp h).imp fun hne => ?_
    intro toppar h₁ h₂
    obtain ⟨_, _, rfl⟩ := List.mem_map.mp h₁
    obtain ⟨_, _, heq⟩ := List.mem_map.mp h₂
    exact hne (Toppar.mk.inj heq).1.symm

theorem right_of_single {x : Subscription} {metaList : List KafkaMeta}
    (htopics : (metaList.map KafkaMeta.topic).Nodup) : RoundRobinRight [x] metaList := by
  have hsubscribers : ∀ m : KafkaMember, m.subscription = x → subscribersOf [m] metaList =
      (metaList.filter fun info => info.topic ∈ x.2).map fun info => ⟨info, [0]⟩ := by
    rintro m rfl
    exact subscribersOf_single m metaList
  generalize hgiven : ((metaList.filter fun info => info.topic ∈ x.2).map
    fun info => (⟨info, [0]⟩ : KafkaMetaSubscriber)) = given at hsubscribers
  have hmem : ∀ subscriber, subscriber ∈ sortSubscribers given ↔
      (subscriber.info ∈ metaList ∧ subscriber.info.topic ∈ x.2) ∧ subscriber.member = [0] := by
    rintro ⟨info, member⟩
    rw [mem_sortSubscribers, ← hgiven]
    simp [and_assoc, eq_comm]
  have hnodup : ((sortSubscribers given).map fun subscriber => subscriber.info.topic).Nodup := by
    have hperm : (sortSubscribers given).Perm given := List.perm_insertionSort _ _
    rw [(hperm.map _).nodup_iff, ← hgiven, List.map_map]
    exact (List.filter_sublist.map KafkaMeta.topic).nodup htopics
  refine ⟨fun _ => allPartitions (sortSubscribers given), ⟨?_, ?_⟩, fun group hlists => ?_⟩
  · rintro info hinfo ⟨m, hm, htopic⟩ i hi
    obtain rfl := List.mem_singleton.mp hm
    have hcount := List.count_eq_one_of_mem (allPartitions_nodup hnodup)
      (mem_allPartitions.mpr ⟨⟨info, [0]⟩, (hmem _).mpr ⟨⟨hinfo, htopic⟩, rfl⟩, rfl, hi⟩ :
        (⟨info.topic, i⟩ : Toppar) ∈ _)
    simpa using hcount
  · intro m hm toppar hin
    obtain rfl := List.mem_singleton.mp hm
    obtain ⟨subscriber, hsub, htopic, _⟩ := mem_allPartitions.mp hin
    exact htopic ▸ ((hmem _).mp hsub).1.2
  · obtain ⟨m, rfl, hx⟩ := List.map_eq_singleton_iff.mp (List.perm_singleton.mp hlists.perm)
    have hempty : m = m.holding [] := by
      rw [KafkaMember.holding, ← hlists.empty m List.mem_cons_self]
    obtain ⟨next', hrun⟩ := forEach_assignTopic_single (m := m) (fun subscriber hsub => by
      obtain ⟨⟨_, htopic⟩, hmember⟩ := (hmem subscriber).mp hsub
      exact ⟨by rw [hmember]; rfl, by rw [← hx] at htopic; exact htopic⟩) (-1) []
    rw [← hempty] at hrun
    refine ⟨[m.holding (allPartitions (sortSubscribers given))], ?_, ?_, ?_⟩
    · rw [runAssignor_roundrobin, kafkaRoundrobinAssignor, hsubscribers m hx]
      have hsorted : qsortMembers [m] = [0] := rfl
      rw [hsorted, hrun]
      rfl
    · exact List.Perm.of_eq (congrArg (fun y => [y]) hx)
    · intro m' hm'
      obtain rfl := List.mem_singleton.mp hm'
      rfl

/-! ### The result -/

/-- The round-robin assignor deals out the partitions as it should, however the members are listed
and wherever they lie, exactly if there is one member or nothing to deal out. -/
theorem roundRobinRight_iff (members : List Subscription) (metaList : List KafkaMeta)
    (hne : members ≠ []) (htopics : (metaList.map KafkaMeta.topic).Nodup) :
    RoundRobinRight members metaList ↔ members.length = 1 ∨
      ∀ info ∈ metaList, Subscribed members info.topic → info.partitionElements = 0 := by
  constructor
  · intro hright
    by_contra hneither
    push Not at hneither
    obtain ⟨hlen, info, hinfo, hsub, hsome⟩ := hneither
    have hpos := List.length_pos_iff.mpr hne
    exact not_right_of_two (by omega) hinfo (Nat.pos_of_ne_zero hsome) hsub hright
  · rintro (hone | hnone)
    · obtain ⟨x, rfl⟩ := List.length_eq_one_iff.mp hone
      exact right_of_single htopics
    · exact right_of_none hnone

/-- One member with two topics. -/
theorem roundRobinRight_one :
    RoundRobinRight [(ascii "A", [ascii "t", ascii "u"])] [⟨ascii "t", 2⟩, ⟨ascii "u", 1⟩] :=
  (roundRobinRight_iff _ _ (by simp) (by decide)).mpr (Or.inl rfl)

/-- Two members, each with a topic of its own of one partition: whoever lies first gets both. -/
theorem roundrobin_foreign_topic :
    (runAssignor [⟨ascii "A", [ascii "t"], [], [1]⟩, ⟨ascii "B", [ascii "u"], [], [2]⟩]
        [⟨ascii "t", 1⟩, ⟨ascii "u", 1⟩] "roundrobin").map
        (fun r => (r.1, r.2.map fun m => (m.memberId, m.assignedTopparList))) =
      some (0, [(ascii "A", [⟨ascii "t", 0⟩, ⟨ascii "u", 0⟩]), (ascii "B", [])]) ∧
    ¬ RoundRobinRight [(ascii "A", [ascii "t"]), (ascii "B", [ascii "u"])]
      [⟨ascii "t", 1⟩, ⟨ascii "u", 1⟩] := by
  have hrun : (runAssignor [⟨ascii "A", [ascii "t"], [], [1]⟩, ⟨ascii "B", [ascii "u"], [], [2]⟩]
      [⟨ascii "t", 1⟩, ⟨ascii "u", 1⟩] "roundrobin").map
      (fun r => (r.1, r.2.map fun m => (m.memberId, m.assignedTopparList))) =
      some (0, [(ascii "A", [⟨ascii "t", 0⟩, ⟨ascii "u", 0⟩]), (ascii "B", [])]) := by
    decide
  refine ⟨hrun, ?_⟩
  rintro ⟨assignment, hright, hruns⟩
  have hlists : Lists [(ascii "A", [ascii "t"]), (ascii "B", [ascii "u"])]
      [⟨ascii "A", [ascii "t"], [], [1]⟩, ⟨ascii "B", [ascii "u"], [], [2]⟩] :=
    ⟨List.Perm.of_eq rfl, by simp⟩
  obtain ⟨result, hresult, -, hassigned⟩ := hruns _ hlists
  rw [hresult, Option.map_some, Option.some.injEq, Prod.mk.injEq] at hrun
  have hin : (ascii "A", [⟨ascii "t", 0⟩, ⟨ascii "u", 0⟩]) ∈
      result.map fun m => (m.memberId, m.assignedTopparList) := by
    rw [hrun.2]
    exact List.mem_cons_self
  obtain ⟨m, hm, heq⟩ := List.mem_map.mp hin
  obtain ⟨hid, hboth⟩ := Prod.mk.inj heq
  have hboth' : assignment (ascii "A") = [⟨ascii "t", 0⟩, ⟨ascii "u", 0⟩] := by
    rw [← hid, ← hassigned m hm, hboth]
  have hown := hright.own (ascii "A", [ascii "t"]) List.mem_cons_self ⟨ascii "u", 0⟩
    (by rw [hboth']; simp)
  exact absurd hown (by decide)

end Workflow.Kafka

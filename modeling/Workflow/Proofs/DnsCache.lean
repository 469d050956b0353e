/-
Module: Workflow.Proofs.DnsCache
Layer: Proofs
Purpose: When one caller refreshes an expired entry. The calls on an entry see one time that moves by a
  fixed step past each caller that is turned away (`visits`); whether two of them are turned away within
  one step of the clock depends on how far behind the clock the stored time was.
Trusted boundary: none
Main exports: visits, Elects, Prompt, elects_iff, value_of_found, trace_visits, dnsRefresh_iff
-/
import Workflow.Manager.DnsCache
import Workflow.Proofs.LRUValues

namespace Workflow.Dns

open Workflow.Lib
open Workflow.Util

/-! ### One moving time -/

/-- Calls at the times `ts` on a stored time `e`. -/
def visits (inc e : Int) : List Int → List DnsCall
  | [] => []
  | t :: ts => ⟨t, e, decide (e < t)⟩ :: visits inc (if e < t then e + inc else e) ts

/-- After a call that returned `NULL` no other one does for `inc` seconds. -/
def Elects (inc : Int) (calls : List DnsCall) : Prop :=
  calls.Pairwise fun a b => a.null = true → b.null = true → a.curTime + inc ≤ b.curTime

/-- After a call that finds the time `expires` in the past, at `curTime`, no other one is made later than
`expires + inc` and before `curTime + inc`. -/
def Prompt (inc : Int) (calls : List DnsCall) : Prop :=
  calls.Pairwise fun a b =>
    a.expires < a.curTime → ¬ (a.expires + inc < b.curTime ∧ b.curTime < a.curTime + inc)

section Visits

variable {inc e : Int} {ts : List Int} {b : DnsCall}

theorem visits_null_iff (hb : b ∈ visits inc e ts) : b.null = true ↔ b.expires < b.curTime := by
  induction ts generalizing e with
  | nil => cases hb
  | cons t ts ih =>
      rcases List.mem_cons.mp hb with rfl | hb
      · exact decide_eq_true_iff
      · exact ih hb

/-- The stored time never goes back. -/
theorem le_expires (hinc : 0 ≤ inc) (hb : b ∈ visits inc e ts) : e ≤ b.expires := by
  induction ts generalizing e with
  | nil => cases hb
  | cons t ts ih =>
      rcases List.mem_cons.mp hb with rfl | hb
      · exact Int.le_refl e
      · have hle := ih hb
        split at hle <;> omega

theorem curTime_mem (hb : b ∈ visits inc e ts) : b.curTime ∈ ts := by
  induction ts generalizing e with
  | nil => cases hb
  | cons t ts ih =>
      rcases List.mem_cons.mp hb with rfl | hb
      · exact List.mem_cons_self
      · exact List.mem_cons_of_mem t (ih hb)

/-- By the time of a call that is later than the stored time, some caller was turned away. -/
theorem exists_null (hts : ts.Pairwise (· ≤ ·)) (hb : b ∈ visits inc e ts) (hlate : e < b.curTime) :
    ∃ c ∈ visits inc e ts, c.null = true ∧ c.curTime ≤ b.curTime := by
  induction ts with
  | nil => cases hb
  | cons t ts ih =>
      obtain ⟨hfirst, hrest⟩ := List.pairwise_cons.mp hts
      by_cases ht : e < t
      · refine ⟨_, List.mem_cons_self, decide_eq_true ht, ?_⟩
        rcases List.mem_cons.mp hb with rfl | hb
        · exact Int.le_refl t
        · exact hfirst _ (curTime_mem hb)
      · rw [visits, if_neg ht] at hb ⊢
        rcases List.mem_cons.mp hb with rfl | hb
        · exact absurd hlate ht
        · obtain ⟨c, hc, hnull, hle⟩ := ih hrest hb
          exact ⟨c, List.mem_cons_of_mem _ hc, hnull, hle⟩

theorem elects_iff (hinc : 0 ≤ inc) (hts : ts.Pairwise (· ≤ ·)) :
    Elects inc (visits inc e ts) ↔ Prompt inc (visits inc e ts) := by
  induction ts generalizing e with
  | nil => exact ⟨fun _ => .nil, fun _ => .nil⟩
  | cons t ts ih =>
      obtain ⟨-, hrest⟩ := List.pairwise_cons.mp hts
      rw [Elects, Prompt, visits, List.pairwise_cons, List.pairwise_cons]
      refine and_congr ?_ (ih hrest)
      by_cases ht : e < t
      · rw [if_pos ht]
        constructor
        · rintro h b hb - ⟨hlate, hsoon⟩
          obtain ⟨c, hc, hnull, hle⟩ := exists_null hrest hb hlate
          have hc' := h c hc (decide_eq_true ht) hnull
          dsimp only at hc' hsoon
          omega
        · intro h b hb _ hnull
          have hlate := (visits_null_iff hb).mp hnull
          have hle := le_expires hinc hb
          have hgap := h b hb ht
          dsimp only at hgap ⊢
          omega
      · exact ⟨fun _ b _ hlt => absurd hlt ht, fun _ b _ hnull => absurd (of_decide_eq_true hnull) ht⟩

end Visits

/-! ### The value of a key -/

/-- `TTL_INC` or `CONFIDENT_INC`. -/
def GetType.inc : GetType → Int
  | .ttl => ttlInc
  | .confident => confidentInc

variable {α : Type} {type type' : GetType} {key : HostPort} {u t : DnsCache α} {idle busy : List Nat}

theorem extend_time (v : DnsCacheValue α) (type : GetType) :
    (v.extend type).time type = v.time type + type.inc := by
  cases type <;> rfl

theorem extend_time_of_ne (v : DnsCacheValue α) (hne : type' ≠ type) :
    (v.extend type').time type = v.time type := by
  cases type <;> cases type' <;> first | rfl | exact absurd rfl hne

namespace DnsCache

theorem valueOf_eq_some {v : DnsCacheValue α} :
    valueOf u key = some v ↔
      ∃ id h, u.cache.cacheMap.lookup key = some id ∧ u.cache.heap id = some h ∧ h.value = v := by
  simp only [valueOf, Option.bind_eq_bind, Option.bind_eq_some_iff, Option.some.injEq]
  constructor
  · rintro ⟨id, hlookup, h, hheap, hv⟩
    exact ⟨id, h, hlookup, hheap, hv⟩
  · rintro ⟨id, h, hlookup, hheap, hv⟩
    exact ⟨id, hlookup, h, hheap, hv⟩

/-- What the calls of the cache leave of a key is as it was. -/
theorem valueOf_of_keeps {P : Nat → Prop} {Q : HostPort → Prop} {v : DnsCacheValue α}
    (h : Keeps P Q u.cache t.cache) (hkey : Q key)
    (hid : ∀ id, u.cache.cacheMap.lookup key = some id → P id) (hv : valueOf t key = some v) :
    valueOf u key = some v := by
  obtain ⟨id, g, hlookup, hheap, rfl⟩ := valueOf_eq_some.mp hv
  have hlookup' := h.map key id hkey hlookup
  obtain ⟨g', hheap', hvalue⟩ := h.value id g (hid id hlookup') hheap
  exact valueOf_eq_some.mpr ⟨id, g', hlookup', hheap', hvalue.symm⟩

/-- The handle of a key is no other key's. -/
theorem lookup_inj (hu : Cached u idle busy) {key' : HostPort} {id : Nat}
    (h : u.cache.cacheMap.lookup key = some id) (h' : u.cache.cacheMap.lookup key' = some id) :
    key = key' := by
  have hsame := ((hu.mapped.lookup key id).mp h).symm.trans ((hu.mapped.lookup key' id).mp h')
  exact (Prod.mk.inj (Option.some.inj hsame)).1

theorem lookup_lt (hu : Cached u idle busy) {id : Nat}
    (h : u.cache.cacheMap.lookup key = some id) : id < u.cache.next := by
  obtain ⟨g, hheap, -⟩ := hu.counted.cached (hu.mapped.mem_lists hu.counted h)
  exact hu.counted.fresh id g hheap

/-- What `get_inner` does. -/
theorem getInner_cases {fuel : Nat} {curTime : Int} {result : Option Nat}
    (h : getInner fuel u key type curTime = some (t, result)) :
    (u.cache.cacheMap.lookup key = none ∧ t = u ∧ result = none) ∨
      ∃ id g d, u.cache.cacheMap.lookup key = some id ∧ LRUUse.exec fuel u (.get key) = some d ∧
        d.cache.cacheMap = u.cache.cacheMap ∧ d.cache.heap id = some g ∧
        ((g.value.time type < curTime ∧ result = none ∧
            LRUUse.exec fuel (setValue d id g (g.value.extend type)) (.release (some id)) = some t) ∨
          (¬ g.value.time type < curTime ∧ result = some id ∧ t = d)) := by
  obtain ⟨⟨c, handle⟩, hget, h⟩ := Option.bind_eq_some_iff.mp h
  have hexec : LRUUse.exec fuel u (.get key) = some (u.hold (c, handle)) := by
    rw [LRUUse.exec, hget]
    rfl
  have hmap := get_cacheMap hget
  unfold LRUCache.get at hget
  cases hlookup : u.cache.cacheMap.lookup key with
  | none =>
      rw [hlookup] at hget
      cases hget
      cases h
      exact .inl ⟨rfl, rfl, rfl⟩
  | some id =>
      rw [hlookup] at hget
      obtain ⟨c', -, heq⟩ := Option.map_eq_some_iff.mp hget
      cases heq
      obtain ⟨g, hheap, h⟩ := Option.bind_eq_some_iff.mp h
      refine .inr ⟨id, g, _, rfl, hexec, hmap, hheap, ?_⟩
      split at h
      · rename_i hlate
        obtain ⟨t', hrelease, heq⟩ := Option.bind_eq_some_iff.mp h
        cases heq
        exact .inl ⟨hlate, rfl, hrelease⟩
      · rename_i hlate
        cases h
        exact .inr ⟨hlate, rfl, rfl⟩

theorem keeps_exec {P : Nat → Prop} {Q : HostPort → Prop} {fuel : Nat}
    {op : LRUOp HostPort (DnsCacheValue α)} (hop : ∀ key value, op ≠ .put key value)
    (h : LRUUse.exec fuel u op = some t) : Keeps P Q u.cache t.cache := by
  cases op with
  | put key value => exact absurd rfl (hop key value)
  | get key =>
      obtain ⟨⟨c, handle⟩, hget, rfl⟩ := Option.map_eq_some_iff.mp h
      exact keeps_get hget
  | del key =>
      obtain ⟨c, hdel, rfl⟩ := Option.map_eq_some_iff.mp h
      exact keeps_del hdel
  | prune =>
      obtain ⟨c, hdrop, rfl⟩ := Option.map_eq_some_iff.mp h
      exact keeps_dropWhile hdrop
  | setMaxSize maxSize =>
      cases h
      exact keeps_of_eq rfl rfl
  | release handle =>
      cases handle with
      | none =>
          cases h
          exact Keeps.refl _
      | some id =>
          rw [LRUUse.exec] at h
          split at h
          · obtain ⟨c, hunref, rfl⟩ := Option.map_eq_some_iff.mp h
            exact keeps_release hunref
          · cases h

/-- A handle gets another value: its key sees it, and no other key. -/
theorem valueOf_setValue {id : Nat} {g : LRUHandle HostPort (DnsCacheValue α)} {key' : HostPort}
    (hu : Cached u idle busy) (hlookup : u.cache.cacheMap.lookup key' = some id)
    (hheap : u.cache.heap id = some g) (value : DnsCacheValue α) :
    valueOf (setValue u id g value) key = if key' = key then some value else valueOf u key := by
  have hmap : (setValue u id g value).cache.cacheMap = u.cache.cacheMap := rfl
  have hheap' : ∀ x, (setValue u id g value).cache.heap x =
      if x = id then some { g with value := value } else u.cache.heap x := by
    intro x
    rw [setValue]
    split
    · rename_i hx
      rw [hx, store_heap_self]
    · rename_i hx
      rw [store_heap_of_ne hx]
  split
  · rename_i hkey
    exact valueOf_eq_some.mpr ⟨id, _, hmap ▸ hkey ▸ hlookup, by rw [hheap', if_pos rfl], rfl⟩
  · rename_i hkey
    unfold valueOf
    rw [hmap]
    cases hlookup' : u.cache.cacheMap.lookup key with
    | none => rfl
    | some x =>
        have hx : x ≠ id := by
          rintro rfl
          exact hkey (lookup_inj hu hlookup hlookup')
        simp only [Option.bind_eq_bind, Option.bind_some, hheap', if_neg hx]

/-- What `get_inner` makes of the values: the tested time of its key moves past a caller that gets
nothing, and nothing else changes. -/
theorem getInner_value {fuel : Nat} {key' : HostPort} {curTime : Int} {result : Option Nat}
    (hu : Cached u idle busy) (h : getInner fuel u key' type curTime = some (t, result)) :
    (valueOf u key' = none ∧ t = u) ∨
      ∃ v, valueOf u key' = some v ∧ (result = none ↔ v.time type < curTime) ∧
        ∀ v', valueOf t key = some v' →
          if v.time type < curTime ∧ key' = key then v' = v.extend type else valueOf u key = some v' := by
  rcases getInner_cases h with ⟨hnone, rfl, rfl⟩ | ⟨id, g, d, hlookup, hget, hmap, hheap, hrest⟩
  · refine .inl ⟨?_, rfl⟩
    rw [valueOf, hnone]
    rfl
  · have hkeeps : Keeps (fun _ => True) (fun _ => True) u.cache d.cache := keeps_exec (by simp) hget
    obtain ⟨g', hheap', hvalue⟩ := hkeeps.value id g trivial hheap
    have hback : ∀ v, valueOf d key = some v → valueOf u key = some v := fun v =>
      valueOf_of_keeps hkeeps trivial fun _ _ => trivial
    obtain ⟨idle', busy', hd⟩ := hu.exec hget
    refine .inr ⟨g.value, valueOf_eq_some.mpr ⟨id, g', hlookup, hheap', hvalue.symm⟩, ?_, ?_⟩
    · rcases hrest with ⟨hlate, rfl, -⟩ | ⟨hlate, rfl, -⟩ <;> simp [hlate]
    · intro v' hv'
      rcases hrest with ⟨hlate, -, hrelease⟩ | ⟨hlate, -, rfl⟩
      · have hset := valueOf_of_keeps (P := fun _ => True) (Q := fun _ => True)
          (keeps_exec (by simp) hrelease) trivial (fun _ _ => trivial) hv'
        rw [valueOf_setValue hd (hmap ▸ hlookup) hheap] at hset
        by_cases hkey : key' = key
        · rw [if_pos hkey] at hset
          rw [if_pos ⟨hlate, hkey⟩]
          exact (Option.some.inj hset).symm
        · rw [if_neg hkey] at hset
          rw [if_neg fun hboth => hkey hboth.2]
          exact hback v' hset
      · rw [if_neg fun hboth => hlate hboth.1]
        exact hback v' hv'

theorem cached_getInner {fuel : Nat} {curTime : Int} {result : Option Nat} (hu : Cached u idle busy)
    (h : getInner fuel u key type curTime = some (t, result)) :
    ∃ idle' busy', Cached t idle' busy' := by
  rcases getInner_cases h with ⟨-, rfl, -⟩ | ⟨id, g, d, -, hget, -, hheap, hrest⟩
  · exact ⟨idle, busy, hu⟩
  · obtain ⟨idle', busy', hd⟩ := hu.exec hget
    rcases hrest with ⟨-, -, hrelease⟩ | ⟨-, -, rfl⟩
    · exact (hd.setValue hheap _).exec hrelease
    · exact ⟨idle', busy', hd⟩

/-- A call that is no `get_inner` is one of the `LRUCache`. -/
def toLRU : DnsOp α → Option (LRUOp HostPort (DnsCacheValue α))
  | .get hostPort => some (.get hostPort)
  | .getInner _ _ _ => none
  | .put hostPort addrinfo dnsTtlDefault dnsTtlMin curTime =>
      some (.put hostPort (putValue addrinfo dnsTtlDefault dnsTtlMin curTime))
  | .del hostPort => some (.del hostPort)
  | .release handle => some (.release handle)

theorem perform_toLRU {fuel : Nat} {op : DnsOp α} {result : Option Nat}
    {call : LRUOp HostPort (DnsCacheValue α)} (hop : toLRU op = some call)
    (h : perform fuel u op = some (t, result)) : LRUUse.exec fuel u call = some t := by
  cases op <;> first
    | cases hop
      obtain ⟨t', hexec, heq⟩ := Option.map_eq_some_iff.mp h
      cases heq
      exact hexec
    | cases hop

theorem cached_perform {fuel : Nat} {op : DnsOp α} {result : Option Nat} (hu : Cached u idle busy)
    (h : perform fuel u op = some (t, result)) : ∃ idle' busy', Cached t idle' busy' := by
  cases hop : toLRU op with
  | some call => exact hu.exec (perform_toLRU hop h)
  | none =>
      cases op with
      | getInner type key curTime => exact cached_getInner hu h
      | _ => cases hop

end DnsCache

/-! ### Runs -/

/-- The call is no `put` of the key. -/
def DnsOp.Spares (key : HostPort) : DnsOp α → Prop
  | .put hostPort _ _ _ _ => hostPort ≠ key
  | _ => True

namespace DnsCache

theorem found_eq_some {call : DnsCall} {op : DnsOp α} {result : Option Nat}
    (h : found type key u result op = some call) :
    ∃ curTime v, op = .getInner type key curTime ∧ valueOf u key = some v ∧
      call = ⟨curTime, v.time type, decide (result = none)⟩ := by
  cases op with
  | getInner type' key' curTime =>
      rw [found] at h
      split at h
      · rename_i hsame
        obtain ⟨v, hv, rfl⟩ := Option.map_eq_some_iff.mp h
        exact ⟨curTime, v, by rw [hsame.1, hsame.2], hv, rfl⟩
      · cases h
  | _ => cases h

/-- A call that is not counted leaves the tested time as it is. -/
theorem value_of_not_found {fuel : Nat} {op : DnsOp α} {result : Option Nat} {v : DnsCacheValue α}
    (hu : Cached u idle busy) (hop : op.Spares key) (h : perform fuel u op = some (t, result))
    (hfound : found type key u result op = none) (hv : valueOf t key = some v) :
    ∃ w, valueOf u key = some w ∧ w.time type = v.time type := by
  cases hcall : toLRU op with
  | some call =>
      have hexec := perform_toLRU hcall h
      refine ⟨v, ?_, rfl⟩
      by_cases hput : ∃ key' value, call = .put key' value
      · obtain ⟨key', value, rfl⟩ := hput
        have hkey : key ≠ key' := by
          cases op with
          | put hostPort addrinfo dnsTtlDefault dnsTtlMin curTime =>
              cases hcall
              exact Ne.symm hop
          | _ => cases hcall
        obtain ⟨⟨c, handle⟩, hput, rfl⟩ := Option.map_eq_some_iff.mp hexec
        exact valueOf_of_keeps (keeps_put hput) hkey
          (fun id hlookup => Nat.ne_of_lt (lookup_lt hu hlookup)) hv
      · have hkeeps : Keeps (fun _ => True) (fun _ => True) u.cache t.cache :=
          keeps_exec (fun key' value hcall => hput ⟨key', value, hcall⟩) hexec
        exact valueOf_of_keeps hkeeps trivial (fun _ _ => trivial) hv
  | none =>
      cases op with
      | getInner type' key' curTime =>
          rcases getInner_value hu h with ⟨-, rfl⟩ | ⟨w, hw, -, hvalue⟩
          · exact ⟨v, hv, rfl⟩
          · have hv' := hvalue v hv
            split at hv'
            · rename_i hsame
              obtain ⟨-, rfl⟩ := hsame
              have hne : type' ≠ type := by
                rintro rfl
                rw [found, if_pos ⟨rfl, rfl⟩, hw] at hfound
                cases hfound
              exact ⟨w, hw, by rw [hv', extend_time_of_ne w hne]⟩
            · exact ⟨v, hv', rfl⟩
      | _ => cases hcall

/-- A call that is counted moves the tested time past itself if it finds it in the past. -/
theorem value_of_found {fuel : Nat} {op : DnsOp α} {result : Option Nat} {call : DnsCall}
    (hu : Cached u idle busy) (h : perform fuel u op = some (t, result))
    (hfound : found type key u result op = some call) :
    (∃ v, valueOf u key = some v ∧ v.time type = call.expires) ∧
      call = ⟨call.curTime, call.expires, decide (call.expires < call.curTime)⟩ ∧
      ∀ v', valueOf t key = some v' → v'.time type =
        if call.expires < call.curTime then call.expires + type.inc else call.expires := by
  obtain ⟨curTime, v, rfl, hv, rfl⟩ := found_eq_some hfound
  rcases getInner_value hu h with ⟨hnone, -⟩ | ⟨w, hw, hresult, hvalue⟩
  · cases hnone.symm.trans hv
  · obtain rfl := Option.some.inj (hv.symm.trans hw)
    refine ⟨⟨v, hv, rfl⟩, by simp only [hresult], fun v' hv' => ?_⟩
    have hval := hvalue v' hv'
    dsimp only
    by_cases hlate : v.time type < curTime
    · rw [if_pos ⟨hlate, rfl⟩] at hval
      rw [if_pos hlate, hval, extend_time]
    · rw [if_neg fun hboth => hlate hboth.1] at hval
      rw [if_neg hlate, Option.some.inj (hval.symm.trans hv)]

/-- The calls that find a key are calls on one moving time. -/
theorem trace_visits {fuel : Nat} {ops : List (DnsOp α)} {calls : List DnsCall} {e : Int}
    (hu : Cached u idle busy) (hops : ∀ op ∈ ops, op.Spares key)
    (h : trace fuel type key u ops = some calls)
    (he : ∀ v, valueOf u key = some v → v.time type = e) :
    calls = visits type.inc e (calls.map DnsCall.curTime) := by
  induction ops generalizing u idle busy calls e with
  | nil =>
      cases h
      rfl
  | cons op ops ih =>
      obtain ⟨⟨t, result⟩, hperform, h⟩ := Option.bind_eq_some_iff.mp h
      obtain ⟨rest, hrest, heq⟩ := Option.bind_eq_some_iff.mp h
      cases heq
      obtain ⟨idle', busy', ht⟩ := cached_perform hu hperform
      have hops' := fun op' hop' => hops op' (List.mem_cons_of_mem op hop')
      cases hfound : found type key u result op with
      | none =>
          refine ih ht hops' hrest fun v hv => ?_
          obtain ⟨w, hw, hsame⟩ :=
            value_of_not_found hu (hops op List.mem_cons_self) hperform hfound hv
          exact hsame ▸ he w hw
      | some call =>
          obtain ⟨⟨v, hv, hexpires⟩, hcall, hnext⟩ := value_of_found hu hperform hfound
          have hrest' := ih ht hops' hrest hnext
          have hcall' : call.expires = e := hexpires ▸ he v hv
          rw [hcall'] at hcall hrest'
          show call :: rest = visits type.inc e (call.curTime :: rest.map DnsCall.curTime)
          rw [visits, ← hrest', ← hcall]

/-- In every run, over any calls among which there is no `put` of the key: among those of one type that
find the key, no two are turned away within `TTL_INC` (or `CONFIDENT_INC`) seconds, if and only if none
is made in the time between the moved expiry and the end of that many seconds. -/
theorem dnsRefresh_iff {fuel : Nat} {ops : List (DnsOp α)} {calls : List DnsCall}
    (hu : Reachable (machine α) (fun _ _ => True) u) (hops : ∀ op ∈ ops, op.Spares key)
    (h : trace fuel type key u ops = some calls)
    (htimes : (calls.map DnsCall.curTime).Pairwise (· ≤ ·)) :
    Elects type.inc calls ↔ Prompt type.inc calls := by
  obtain ⟨idle, busy, hu⟩ : ∃ idle busy, Cached u idle busy := by
    refine hu.invariant (P := fun u => ∃ idle busy, Cached u idle busy) ?_ ?_
    · rintro u rfl
      exact ⟨[], [], cached_create⟩
    · rintro u op t ⟨idle, busy, hu⟩ - ⟨fuel, hexec⟩
      obtain ⟨⟨t', result⟩, hperform, rfl⟩ := Option.map_eq_some_iff.mp hexec
      exact cached_perform hu hperform
  obtain ⟨e, he⟩ : ∃ e, ∀ v, valueOf u key = some v → v.time type = e := by
    cases hv : valueOf u key with
    | none => exact ⟨0, fun v hv' => by cases hv'⟩
    | some v => exact ⟨v.time type, fun v' hv' => by rw [Option.some.inj hv']⟩
  have hvisits := trace_visits hu hops h he
  have hinc : 0 ≤ type.inc := by cases type <;> decide
  rw [hvisits]
  exact elects_iff hinc htimes

/-- An entry that expired at 5: one caller in ten seconds is turned away, first at 6 and then at 16. -/
theorem dnsRefresh_iff_prompt : ∃ (u : DnsCache Unit) (calls : List DnsCall),
    Reachable (machine Unit) (fun _ _ => True) u ∧
      trace 3 .ttl ([97], 80) u [.getInner .ttl ([97], 80) 6, .getInner .ttl ([97], 80) 7,
        .getInner .ttl ([97], 80) 16] = some calls ∧
      calls = [⟨6, 5, true⟩, ⟨7, 15, false⟩, ⟨16, 15, true⟩] ∧
      (Elects GetType.ttl.inc calls ↔ Prompt GetType.ttl.inc calls) := by
  have hrun : (runChecked (fun fuel u op => (perform fuel u op).map Prod.fst) (fun _ _ => True) 3
      (LRUUse.create HostPort (DnsCacheValue Unit)) [.put ([97], 80) () 5 5 0]).bind (fun u =>
        trace 3 .ttl ([97], 80) u [.getInner .ttl ([97], 80) 6, .getInner .ttl ([97], 80) 7,
          .getInner .ttl ([97], 80) 16]) = some [⟨6, 5, true⟩, ⟨7, 15, false⟩, ⟨16, 15, true⟩] := by
    decide +kernel
  obtain ⟨u, hrun, htrace⟩ := Option.bind_eq_some_iff.mp hrun
  have hreach := runChecked_reachable (.init rfl) hrun
  exact ⟨u, _, hreach, htrace, rfl,
    dnsRefresh_iff hreach (by simp [DnsOp.Spares]) htrace (by decide)⟩

/-- An entry that expired at 5 and is not used until 100: two callers are turned away at once. -/
theorem dnsRefresh_twice : ∃ (u : DnsCache Unit) (calls : List DnsCall),
    Reachable (machine Unit) (fun _ _ => True) u ∧
      trace 3 .ttl ([97], 80) u [.getInner .ttl ([97], 80) 100, .getInner .ttl ([97], 80) 100] =
        some calls ∧
      (calls.map DnsCall.curTime).Pairwise (· ≤ ·) ∧ ¬ Elects GetType.ttl.inc calls := by
  have hrun : (runChecked (fun fuel u op => (perform fuel u op).map Prod.fst) (fun _ _ => True) 3
      (LRUUse.create HostPort (DnsCacheValue Unit)) [.put ([97], 80) () 5 5 0]).bind (fun u =>
        trace 3 .ttl ([97], 80) u [.getInner .ttl ([97], 80) 100, .getInner .ttl ([97], 80) 100]) =
          some [⟨100, 5, true⟩, ⟨100, 15, true⟩] := by
    decide +kernel
  obtain ⟨u, hrun, htrace⟩ := Option.bind_eq_some_iff.mp hrun
  refine ⟨u, _, runChecked_reachable (.init rfl) hrun, htrace, by decide, fun helects => ?_⟩
  have hgap := (List.pairwise_pair.mp helects) rfl rfl
  exact absurd hgap (by decide)

end DnsCache

end Workflow.Dns

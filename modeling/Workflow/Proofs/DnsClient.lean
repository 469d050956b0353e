/-
Module: Workflow.Proofs.DnsClient
Layer: Proofs
Purpose: The search of a name. The names that a status still leads to are a list (`upcoming`), of which
  `__has_next_name` takes the first; a budget of servers and names goes down with every query.
Trusted boundary: none
Main exports: upcoming, resolverList, Asks, budget, search_length_le, search_asks, Searches, searches_iff
-/
import Workflow.Client.DnsClient

namespace Workflow.Dns

open Workflow.Factory
open Workflow.Lib
open Workflow.Uri
open Workflow.Util

variable {p : DnsParams} {s s' : DnsStatus} {t t' : DnsTask} {r : DnsReply} {name : List Byte}

/-! ### The names that are left -/

/-- The name in a search domain. -/
def inDomain (name domain : List Byte) : List Byte :=
  name ++ [46] ++ domain

/-- What `__has_next_name` will return, one after the other. -/
def upcoming (p : DnsParams) (s : DnsStatus) : List (List Byte) :=
  (if s.tryOriginState = .first then [s.originName] else []) ++
    ((p.searchList.drop s.nextDomain).map (inDomain s.originName) ++
      if s.tryOriginState = .last then [s.originName] else [])

/-- `__has_next_name` takes the first of them. -/
theorem hasNextName_cases (h : hasNextName p s = some s') :
    upcoming p s = s'.currentName :: upcoming p s' ∧ s'.nextServer = s.nextServer ∧
      s'.lastServer = s.lastServer ∧ s'.attemptsLeft = s.attemptsLeft := by
  unfold hasNextName at h
  split at h
  · rename_i hfirst
    cases h
    exact ⟨by simp [upcoming, hfirst], rfl, rfl, rfl⟩
  · rename_i hfirst
    split at h
    · rename_i hdomain
      cases h
      refine ⟨?_, rfl, rfl, rfl⟩
      simp only [upcoming, if_neg hfirst, List.nil_append]
      rw [List.drop_eq_getElem_cons hdomain]
      rfl
    · rename_i hdomain
      split at h
      · rename_i hlast
        cases h
        have hdrop : p.searchList.drop s.nextDomain = [] := List.drop_eq_nil_of_le (Nat.not_lt.mp hdomain)
        exact ⟨by simp [upcoming, hlast, hdrop], rfl, rfl, rfl⟩
      · cases h

theorem upcoming_of_none (h : hasNextName p s = none) : upcoming p s = [] := by
  unfold hasNextName at h
  split at h
  · cases h
  · rename_i hfirst
    split at h
    · cases h
    · rename_i hdomain
      split at h
      · cases h
      · rename_i hlast
        have hdrop : p.searchList.drop s.nextDomain = [] := List.drop_eq_nil_of_le (Nat.not_lt.mp hdomain)
        simp [upcoming, hfirst, hlast, hdrop]

/-- The names in the order in which a resolver asks for them. -/
def resolverList (p : DnsParams) (name : List Byte) : List (List Byte) :=
  if name.getLast? = some 46 then [name]
  else if p.ndots ≤ getNdots name then name :: p.searchList.map (inDomain name)
  else p.searchList.map (inDomain name) ++ [name]

/-! ### The budget -/

/-- The servers of a status are servers, and there are attempts left. -/
structure Aimed (p : DnsParams) (s : DnsStatus) : Prop where
  next : s.nextServer < p.uris.length
  last : s.lastServer < p.uris.length
  left : 0 < s.attemptsLeft

/-- How often the server can be changed yet. -/
def serversLeft (p : DnsParams) (s : DnsStatus) : Nat :=
  (s.attemptsLeft - 1).toNat * p.uris.length +
    (s.lastServer + p.uris.length - s.nextServer) % p.uris.length

/-- What goes down with every query: changes of the server and of the name, and of UDP to TCP. -/
def budget (t : DnsTask) : Nat :=
  2 * (serversLeft t.params t.status + (upcoming t.params t.status).length) +
    if t.type = .udp then 1 else 0

theorem uris_length_pos (p : DnsParams) : 0 < p.uris.length :=
  List.length_pos_of_ne_nil p.uris_ne_nil

/-- The distance of two servers on the ring, one step further. -/
theorem ring_step {n a b : Nat} (ha : a < n) (hb : b < n) (hne : b ≠ a) :
    (b + n - (a + 1) % n) % n + 1 = (b + n - a) % n := by
  rcases Nat.lt_or_ge (a + 1) n with hlt | hge
  · rw [Nat.mod_eq_of_lt hlt]
    rcases Nat.lt_or_ge b a with hba | hab
    · rw [Nat.mod_eq_of_lt (by omega), Nat.mod_eq_of_lt (by omega)]
      omega
    · rw [Nat.mod_eq_sub_mod (by omega), Nat.mod_eq_of_lt (by omega), Nat.mod_eq_sub_mod (by omega),
        Nat.mod_eq_of_lt (by omega)]
      omega
  · have hend : a + 1 = n := by omega
    rw [hend, Nat.mod_self, Nat.sub_zero, Nat.add_mod_right, Nat.mod_eq_of_lt hb,
      Nat.mod_eq_of_lt (by omega)]
    omega

/-- Behind the last server the ring starts again. -/
theorem ring_last {n a : Nat} (ha : a < n) : (a + n - (a + 1) % n) % n + 1 = n := by
  rcases Nat.lt_or_ge (a + 1) n with hlt | hge
  · rw [Nat.mod_eq_of_lt hlt, Nat.mod_eq_of_lt (by omega)]
    omega
  · have hend : a + 1 = n := by omega
    rw [hend, Nat.mod_self, Nat.sub_zero, Nat.add_mod_right, Nat.mod_eq_of_lt ha]
    omega

/-- After a failure the next server is taken, as long as attempts are left. -/
theorem serversLeft_step (hs : Aimed p s) {attemptsLeft : Int}
    (hattempts : attemptsLeft =
      if s.lastServer = s.nextServer then s.attemptsLeft - 1 else s.attemptsLeft)
    (hleft : ¬ attemptsLeft ≤ 0) :
    Aimed p { s with
        attemptsLeft := attemptsLeft, nextServer := (s.nextServer + 1) % p.uris.length } ∧
      serversLeft p { s with
        attemptsLeft := attemptsLeft, nextServer := (s.nextServer + 1) % p.uris.length } + 1 =
          serversLeft p s := by
  refine ⟨⟨Nat.mod_lt _ (uris_length_pos p), hs.last, Int.not_le.mp hleft⟩, ?_⟩
  unfold serversLeft
  dsimp only
  split at hattempts
  · rename_i hsame
    have hring := ring_last hs.next
    have hself : (s.nextServer + p.uris.length - s.nextServer) % p.uris.length = 0 := by
      rw [Nat.add_sub_cancel_left, Nat.mod_self]
    have hnat : (s.attemptsLeft - 1).toNat = (attemptsLeft - 1).toNat + 1 := by omega
    rw [hsame, hself, hnat, Nat.succ_mul]
    omega
  · rename_i hne
    have hring := ring_step hs.next hs.last hne
    rw [hattempts]
    omega

/-! ### One query -/

@[simp] theorem setRedirect_params (uri : ParsedURI) : (t.setRedirect uri).params = t.params := rfl

@[simp] theorem setRedirect_status (uri : ParsedURI) : (t.setRedirect uri).status = t.status := rfl

@[simp] theorem setRedirect_req (uri : ParsedURI) : (t.setRedirect uri).req = t.req := rfl

/-- A redirect never goes back to UDP by itself. -/
theorem setRedirect_type (t : DnsTask) (uri : ParsedURI) :
    (t.setRedirect uri).type = .udp → t.type = .udp := by
  unfold DnsTask.setRedirect
  dsimp only
  split
  · intro h
    cases h
  · exact id

theorem budget_setRedirect_le (t : DnsTask) (uri : ParsedURI) :
    budget (t.setRedirect uri) ≤
      2 * (serversLeft t.params t.status + (upcoming t.params t.status).length) + 1 := by
  unfold budget
  rw [setRedirect_params, setRedirect_status]
  split <;> omega

/-- The next query asks for the same name, or for the next one, and the budget goes down. -/
theorem finishOnce_cases (ht : Aimed t.params t.status) (h : finishOnce t r = some t') :
    t'.params = t.params ∧ Aimed t.params t'.status ∧ budget t' < budget t ∧
      ((t'.query.name = t.query.name ∧ upcoming t.params t'.status = upcoming t.params t.status) ∨
        (∃ name, t'.query.name = cString name ∧
          upcoming t.params t.status = name :: upcoming t.params t'.status)) := by
  unfold finishOnce at h
  split at h
  · -- a truncated answer: the same query over TCP
    rename_i htrunc
    cases h
    refine ⟨rfl, ht, ?_, .inl ⟨rfl, rfl⟩⟩
    have hudp : ({ t with type := .tcp }.setRedirect t.uri).type ≠ .udp := by
      intro hudp
      cases setRedirect_type _ _ hudp
    unfold budget
    rw [if_neg hudp, if_pos htrunc.2.1]
    exact Nat.lt_succ_self _
  · unfold callbackInternal at h
    by_cases hserver : r.tryNextServer = true
    · rw [if_pos hserver] at h
      dsimp only at h
      generalize hattempts : (if t.status.lastServer = t.status.nextServer then
        t.status.attemptsLeft - 1 else t.status.attemptsLeft) = attemptsLeft at h
      split at h
      · cases h
      · rename_i hleft
        obtain ⟨haimed, hservers⟩ := serversLeft_step ht hattempts.symm hleft
        cases h
        refine ⟨rfl, haimed, ?_, .inl ⟨rfl, rfl⟩⟩
        refine Nat.lt_of_le_of_lt (budget_setRedirect_le _ _) ?_
        show 2 * (serversLeft t.params { t.status with
          attemptsLeft := attemptsLeft
          nextServer := (t.status.nextServer + 1) % t.params.uris.length } +
            (upcoming t.params t.status).length) + 1 < budget t
        unfold budget
        dsimp only at hservers ⊢
        omega
    · rw [if_neg hserver] at h
      split at h
      · obtain ⟨status, hnext, rfl⟩ := Option.map_eq_some_iff.mp h
        obtain ⟨hup, hnextServer, hlast, hattempts⟩ := hasNextName_cases hnext
        dsimp only at hup hnextServer hlast hattempts
        have haimed : Aimed t.params status :=
          ⟨hnextServer ▸ ht.next, hlast ▸ ht.last, hattempts ▸ ht.left⟩
        refine ⟨rfl, haimed, ?_, .inr ⟨status.currentName, rfl, hup⟩⟩
        refine Nat.lt_of_le_of_lt (budget_setRedirect_le _ _) ?_
        have hservers : serversLeft t.params status = serversLeft t.params t.status := by
          rw [serversLeft, serversLeft, hnextServer, hlast, hattempts]
        show 2 * (serversLeft t.params status + (upcoming t.params status).length) + 1 < budget t
        unfold budget
        rw [hup, hservers, List.length_cons]
        omega
      · cases h

/-! ### All queries of a task -/

/-- No task makes more queries than its budget allows. -/
theorem search_length_le (ht : Aimed t.params t.status) (replies : List DnsReply) :
    (search t replies).length ≤ budget t + 1 := by
  induction replies generalizing t with
  | nil => exact Nat.le_add_left 1 _
  | cons r replies ih =>
      rw [search]
      split
      · rename_i t' hfinish
        obtain ⟨hparams, haimed, hbudget, -⟩ := finishOnce_cases ht hfinish
        have hrest := ih (hparams ▸ haimed)
        rw [List.length_cons]
        omega
      · exact Nat.le_add_left 1 _

/-- A name as it stands in a question: without the dot at its end, which is not sent, or with it. -/
def SameName (asked name : List Byte) : Prop :=
  asked = cString name ∨
    asked = (setQuestionName (cString name) (dnsParserInit false)).question.qname.getD []

/-- The questions are for these names in their order, each once or several times. -/
inductive Asks : List (List Byte) → List (List Byte) → Prop where
  | last {asked name : List Byte} (h : SameName asked name) : Asks [asked] [name]
  | again {asked name : List Byte} {more names : List (List Byte)} (h : SameName asked name)
      (hmore : Asks more (name :: names)) : Asks (asked :: more) (name :: names)
  | next {asked name : List Byte} {more names : List (List Byte)} (h : SameName asked name)
      (hmore : Asks more names) : Asks (asked :: more) (name :: names)

theorem search_asks (ht : Aimed t.params t.status) (hname : SameName t.query.name name)
    (replies : List DnsReply) :
    ∃ names, names <+: upcoming t.params t.status ∧
      Asks ((search t replies).map DnsQuery.name) (name :: names) := by
  induction replies generalizing t name with
  | nil => exact ⟨[], List.nil_prefix, .last hname⟩
  | cons r replies ih =>
      rw [search]
      split
      · rename_i t' hfinish
        obtain ⟨hparams, haimed, -, hsame | ⟨next, hnext, hup⟩⟩ := finishOnce_cases ht hfinish
        · obtain ⟨names, hupcoming, hasks⟩ := ih (hparams ▸ haimed) (hsame.1 ▸ hname)
          rw [hparams, hsame.2] at hupcoming
          exact ⟨names, hupcoming, .again hname hasks⟩
        · obtain ⟨names, hupcoming, hasks⟩ := ih (hparams ▸ haimed) (Or.inl hnext : SameName _ next)
          rw [hparams] at hupcoming
          refine ⟨next :: names, ?_, .next hname hasks⟩
          rw [hup]
          exact List.cons_prefix_cons.mpr ⟨rfl, hupcoming⟩
      · exact ⟨[], List.nil_prefix, .last hname⟩

/-! ### The search -/

/-- The queries of a task of the client, as far as these replies go. -/
def queries (p : DnsParams) (id : Nat) (name : List Byte) (replies : List DnsReply) : List DnsQuery :=
  search (createDnsTask p id name) replies

/-- What a search is to do, whatever is replied: it comes to an end, and it asks for names of the
resolver list, from the first one on. -/
structure Searches (p : DnsParams) (id : Nat) (name : List Byte) : Prop where
  finite : ∃ bound, ∀ replies, (queries p id name replies).length ≤ bound
  names : ∀ replies, ∃ asked, asked <+: resolverList p name ∧
    Asks ((queries p id name replies).map DnsQuery.name) asked

/-- The status of `create_dns_task` before the first name is taken. -/
def startStatus (p : DnsParams) (id : Nat) (name : List Byte) : DnsStatus where
  originName := name
  currentName := []
  nextServer := if p.rotate then id % p.uris.length else 0
  lastServer := ((if p.rotate then id % p.uris.length else 0) + p.uris.length - 1) % p.uris.length
  nextDomain := if name.getLast? = some 46 then p.uris.length else 0
  attemptsLeft := p.attempts
  tryOriginState :=
    if name.getLast? ≠ some 46 ∧ getNdots name < p.ndots then .last else .first

theorem aimed_start (p : DnsParams) (id : Nat) (name : List Byte) : Aimed p (startStatus p id name) := by
  have hpos := uris_length_pos p
  refine ⟨?_, Nat.mod_lt _ hpos, p.attempts_pos⟩
  show (if p.rotate then id % p.uris.length else 0) < p.uris.length
  split
  · exact Nat.mod_lt _ hpos
  · exact hpos

/-- The names that a new task has in front of it. A name with a dot at its end leaves out as many search
domains as there are servers. -/
theorem upcoming_start (p : DnsParams) (id : Nat) (name : List Byte) :
    upcoming p (startStatus p id name) =
      if name.getLast? = some 46 then name :: (p.searchList.drop p.uris.length).map (inDomain name)
      else resolverList p name := by
  unfold upcoming startStatus resolverList
  dsimp only
  by_cases hdot : name.getLast? = some 46
  · simp [hdot]
  · by_cases hndots : getNdots name < p.ndots
    · simp [hdot, hndots]
    · simp [hdot, hndots, Int.not_lt.mp hndots]

theorem upcoming_start_ne_nil (p : DnsParams) (id : Nat) (name : List Byte) :
    upcoming p (startStatus p id name) ≠ [] := by
  rw [upcoming_start]
  split
  · exact List.cons_ne_nil _ _
  · rename_i hdot
    unfold resolverList
    rw [if_neg hdot]
    split
    · exact List.cons_ne_nil _ _
    · exact List.append_ne_nil_of_right_ne_nil _ (List.cons_ne_nil _ _)

/-- A new task asks for the first of these names. -/
theorem createDnsTask_cases (p : DnsParams) (id : Nat) (name : List Byte) :
    ∃ first, (createDnsTask p id name).params = p ∧ Aimed p (createDnsTask p id name).status ∧
      SameName (createDnsTask p id name).query.name first ∧
      upcoming p (startStatus p id name) = first :: upcoming p (createDnsTask p id name).status := by
  cases hnext : hasNextName p (startStatus p id name) with
  | none => exact absurd (upcoming_of_none hnext) (upcoming_start_ne_nil p id name)
  | some s =>
      obtain ⟨hup, hnextServer, hlast, hattempts⟩ := hasNextName_cases hnext
      have haimed := aimed_start p id name
      have hstatus : (createDnsTask p id name).status = s := by
        show (hasNextName p (startStatus p id name)).getD (startStatus p id name) = s
        rw [hnext, Option.getD_some]
      refine ⟨s.currentName, rfl, ?_, .inr ?_, hstatus ▸ hup⟩
      · rw [hstatus]
        exact ⟨hnextServer ▸ haimed.next, hlast ▸ haimed.last, hattempts ▸ haimed.left⟩
      · rw [← hstatus]
        rfl

theorem queries_asks (p : DnsParams) (id : Nat) (name : List Byte) (replies : List DnsReply) :
    ∃ asked, asked <+: upcoming p (startStatus p id name) ∧
      Asks ((queries p id name replies).map DnsQuery.name) asked := by
  obtain ⟨first, hparams, haimed, hsame, hup⟩ := createDnsTask_cases p id name
  obtain ⟨names, hupcoming, hasks⟩ := search_asks (hparams.symm ▸ haimed) hsame replies
  refine ⟨first :: names, ?_, hasks⟩
  rw [hup]
  exact List.cons_prefix_cons.mpr ⟨rfl, hparams ▸ hupcoming⟩

/-- Names that are the same for C are asked for as one. -/
theorem Asks.collapse {asked names : List (List Byte)} (h : Asks asked names)
    (hsame : ∀ x ∈ names, cString x = cString name) : Asks asked [name] := by
  have hhead : ∀ {a x : List Byte}, SameName a x → cString x = cString name → SameName a name := by
    intro a x ha hx
    unfold SameName at ha ⊢
    rwa [hx] at ha
  induction h with
  | last h => exact .last (hhead h (hsame _ List.mem_cons_self))
  | again h _ ih => exact .again (hhead h (hsame _ List.mem_cons_self)) (ih hsame)
  | next h _ ih =>
      exact .again (hhead h (hsame _ List.mem_cons_self))
        (ih fun x hx => hsame x (List.mem_cons_of_mem _ hx))

theorem cString_append_of_mem {x : List Byte} (more : List Byte) (h : 0 ∈ x) :
    cString (x ++ more) = cString x := by
  have hstop : ¬ (x.takeWhile (· ≠ 0)).length = x.length := by
    intro hall
    have hself := List.takeWhile_eq_self_iff.mp
      ((List.takeWhile_prefix (p := fun c : Byte => decide (c ≠ 0)) (l := x)).eq_of_length hall)
    simpa using hself 0 h
  rw [cString, List.takeWhile_append, if_neg hstop]
  rfl

theorem cString_of_not_mem {x : List Byte} (h : 0 ∉ x) : cString x = x := by
  refine List.takeWhile_eq_self_iff.mpr fun c hc => ?_
  simp only [ne_eq, decide_not, Bool.not_eq_eq_eq_not, Bool.not_true, decide_eq_false_iff_not]
  rintro rfl
  exact h hc

theorem SameName.length_le {asked : List Byte} (h : SameName asked name) (hname : 0 ∉ name) :
    asked.length ≤ name.length := by
  unfold SameName at h
  rw [cString_of_not_mem hname] at h
  rcases h with rfl | rfl
  · exact Nat.le_refl _
  · unfold setQuestionName
    dsimp only [Option.getD_some]
    split
    · rw [List.length_dropLast]
      exact Nat.sub_le _ _
    · exact Nat.le_refl _

/-- The reply that there is no such name. -/
def noSuchName : DnsReply where
  state := .success
  header := { id := 0, flags := [0, 3], qdcount := 1, ancount := 0, nscount := 0, arcount := 0 }

theorem finishOnce_noSuchName (t : DnsTask) :
    finishOnce t noSuchName = (hasNextName t.params t.status).map fun status =>
      ({ t with type := .udp, status := status }.setQuestionName status.currentName).setRedirect
        (t.params.uri status.nextServer) := by
  have htc : ¬ (noSuchName.state = .success ∧ t.type = .udp ∧ noSuchName.header.tc = true) :=
    fun h => absurd h.2.2 (by decide)
  rw [finishOnce, if_neg htc, callbackInternal, if_neg (by decide), if_pos (by decide)]

/-- In every configuration and for every name: the search comes to an end and follows the resolver list,
whatever is replied, unless the name ends with a dot and there are more search domains than servers. -/
theorem searches_iff (p : DnsParams) (id : Nat) (name : List Byte) :
    Searches p id name ↔
      ¬ (name.getLast? = some 46 ∧ p.uris.length < p.searchList.length ∧ 0 ∉ name) := by
  constructor
  · rintro h ⟨hdot, hlong, hname⟩
    obtain ⟨first, hparams, -, -, hup⟩ := createDnsTask_cases p id name
    rw [upcoming_start, if_pos hdot, List.drop_eq_getElem_cons hlong, List.map_cons] at hup
    obtain ⟨-, hup⟩ := List.cons.inj hup
    obtain ⟨asked, hupcoming, hasks⟩ := h.names [noSuchName]
    rw [resolverList, if_pos hdot] at hupcoming
    cases hnext : hasNextName p (createDnsTask p id name).status with
    | none => cases hup.trans (upcoming_of_none hnext)
    | some status =>
        have hcurrent := (List.cons.inj (hup.trans (hasNextName_cases hnext).1)).1
        rw [queries, search, finishOnce_noSuchName, hparams, hnext] at hasks
        have hlen : ∀ {a : List Byte}, SameName a name →
            a ≠ cString (inDomain name p.searchList[p.uris.length]) := by
          rintro a ha rfl
          have hle := ha.length_le hname
          have hdots : 0 ∉ name ++ [46] := by simpa using hname
          rw [inDomain, cString, List.takeWhile_append, if_pos] at hle
          · simp only [List.length_append, List.length_singleton] at hle
            omega
          · exact congrArg List.length (cString_of_not_mem hdots)
        have hasks : Asks [(createDnsTask p id name).query.name, cString status.currentName] asked :=
          hasks
        rw [← hcurrent] at hasks
        cases hasks with
        | again _ hmore =>
            rw [(List.cons_prefix_cons.mp hupcoming).1] at hmore
            cases hmore with
            | last h => exact hlen h rfl
            | again _ hmore => cases hmore
            | next _ hmore => cases hmore
        | next _ hmore =>
            rw [List.prefix_nil.mp (List.cons_prefix_cons.mp hupcoming).2] at hmore
            cases hmore
  · intro h
    refine ⟨⟨_, search_length_le (createDnsTask_cases p id name).choose_spec.2.1⟩, fun replies => ?_⟩
    obtain ⟨asked, hupcoming, hasks⟩ := queries_asks p id name replies
    rw [upcoming_start] at hupcoming
    by_cases hdot : name.getLast? = some 46
    · rw [if_pos hdot] at hupcoming
      have hlist : resolverList p name = [name] := if_pos hdot
      rw [hlist]
      by_cases hlong : p.uris.length < p.searchList.length
      · refine ⟨[name], List.prefix_refl _, hasks.collapse fun x hx => ?_⟩
        have hzero : 0 ∈ name := Classical.not_not.mp fun hname => h ⟨hdot, hlong, hname⟩
        rcases List.mem_cons.mp (hupcoming.subset hx) with rfl | hx
        · rfl
        · obtain ⟨domain, -, rfl⟩ := List.mem_map.mp hx
          rw [inDomain, List.append_assoc, cString_append_of_mem _ hzero]
      · rw [List.drop_eq_nil_of_le (Nat.not_lt.mp hlong)] at hupcoming
        exact ⟨asked, hupcoming, hasks⟩
    · rw [if_neg hdot] at hupcoming
      exact ⟨asked, hupcoming, hasks⟩

/-- One server and two search domains: the absolute name "a." is asked for in the second domain. -/
theorem searches_absolute : ∃ p, init (ascii "1.1.1.1") (ascii "b.c,d.e") 1 2 false = some p ∧
    ((queries p 0 (ascii "a.") [noSuchName]).map DnsQuery.name =
      [ascii "a", ascii "a..d.e"]) ∧ ¬ Searches p 0 (ascii "a.") := by
  have hrun : (init (ascii "1.1.1.1") (ascii "b.c,d.e") 1 2 false).map (fun p =>
      ((queries p 0 (ascii "a.") [noSuchName]).map DnsQuery.name, p.uris.length, p.searchList.length)) =
        some ([ascii "a", ascii "a..d.e"], 1, 2) := by
    decide +kernel
  obtain ⟨p, hinit, hp⟩ := Option.map_eq_some_iff.mp hrun
  obtain ⟨hnames, hlengths⟩ := Prod.mk.inj hp
  obtain ⟨huris, hsearch⟩ := Prod.mk.inj hlengths
  refine ⟨p, hinit, hnames, fun h => (searches_iff p 0 _).mp h ⟨by decide, ?_, by decide⟩⟩
  rw [huris, hsearch]
  decide

end Workflow.Dns

/-
Module: Workflow.Proofs.DnsAccess
Layer: Proofs
Purpose: What the DNS parser touches. Everything behind a name is checked against the end of the
  message before it is read. The loop over a name has no such check for the second byte of a
  pointer, and it leaves a name that has run out of the message as if it were complete; these two
  passes are the only ones that go wrong.
Trusted boundary: none
Main exports: Erases, tracedParseAll_erase, Terminated, Access.Inside, OnTrack, Agrees,
  tracedHost_agrees, parser_inside
-/
import Workflow.Protocol.DnsAccess
import Workflow.Proofs.DnsStray

namespace Workflow.Dns

open Workflow.Lib

/-! ### The log changes nothing -/

/-- Without its log, `t` is the function `f`. -/
def Erases {α : Type} (t : TraceM α) (f : ParseM α) : Prop :=
  ∀ p log, (t.run.run (p, log)).map (fun (r, s) => (r, s.1)) = f.run.run p

namespace Erases

variable {α β : Type}

theorem ret (a : α) : Erases (pure a) (pure a) :=
  fun _ _ => rfl

theorem fail (e : Int) : Erases (throw e : TraceM α) (throw e) :=
  fun _ _ => rfl

/-- A part that keeps no log is the part of the parser itself. -/
theorem quiet (f : ParseM α) : Erases (Dns.quiet f) f := by
  intro p log
  have hrun : (Dns.quiet f).run.run (p, log) = (f.run.run p).map fun x => (x.1, (x.2, log)) := rfl
  rw [hrun, Option.map_map]
  exact congrFun Option.map_id _

/-- Logs are kept one behind the other, and erased one after the other. -/
theorem seq {t : TraceM α} {f : ParseM α} {u : α → TraceM β} {g : α → ParseM β}
    (hf : Erases t f) (hg : ∀ a, Erases (u a) (g a)) : Erases (t >>= u) (f >>= g) := by
  intro p log
  have hrun := hf p log
  cases ht : t.run.run (p, log) with
  | none =>
      rw [ht, Option.map_none] at hrun
      simp only [ExceptT.run_bind, StateT.run_bind, ht, ← hrun, Option.bind_eq_bind,
        Option.bind_none, Option.map_none]
  | some result =>
      obtain ⟨r, q, log'⟩ := result
      rw [ht, Option.map_some] at hrun
      simp only [ExceptT.run_bind, StateT.run_bind, ht, ← hrun, Option.bind_eq_bind,
        Option.bind_some]
      cases r with
      | error e => rfl
      | ok a => exact hg a q log'

/-- A note has no counterpart. -/
theorem note {accesses : List Access} {t : Unit → TraceM α} {f : ParseM α}
    (ht : ∀ u, Erases (t u) f) : Erases (Dns.note accesses >>= t) f :=
  fun p log => ht () p (log ++ accesses)

theorem check {c : Prop} [Decidable c] {e : Int} {t : Unit → TraceM α} {f : Unit → ParseM α}
    (hf : ∀ u, Erases (t u) (f u)) :
    Erases (if c then throw e >>= t else t ()) (if c then throw e >>= f else f ()) := by
  split
  · exact (fail e).seq hf
  · exact hf ()

end Erases

section

variable (fuel : Nat)

/-- A host behind the end of the message is not read, and any other one is read by the loop. -/
theorem tracedHost_run {p : DnsParser} (log : List Access) (hend : ¬ p.cur ≥ p.msgend) :
    (tracedHost fuel).run.run (p, log) =
      (loop (logged (hostStep p.toDnsMessage) (passAccesses p.toDnsMessage)) fuel
        (hostStart p.cur, log)).map fun ((ret, s), log) =>
          if ret < 0 then (.error ret, ({ p with cur := s.cur }, log))
          else
            (.ok (hostName s.host), ({ p with cur := s.curbackup.getD s.cur },
              log ++ (endAccesses s.host ++ [.accepted p.cur]))) :=
  if_neg hend

/-- The loop over a name. -/
theorem tracedHost_erases : Erases (tracedHost fuel) (parseHost fuel) := by
  intro p log
  rw [parseHost_run]
  by_cases hend : p.cur ≥ p.msgend
  · rw [if_pos hend]
    have hrun : (tracedHost fuel).run.run (p, log) = some (.error (-2), (p, log)) := if_pos hend
    rw [hrun]
    rfl
  · rw [if_neg hend, ← loop_logged (passAccesses p.toDnsMessage) fuel (hostStart p.cur) log]
    rw [tracedHost_run fuel log hend, Option.map_map, Option.map_map]
    refine congrArg (Option.map · _) (funext fun x => ?_)
    obtain ⟨⟨ret, s⟩, log'⟩ := x
    simp only [Function.comp_apply]
    split <;> rfl

theorem tracedAddress_erases (size rdlength : Nat) :
    Erases (tracedAddress size rdlength) (parseAddress size rdlength) := by
  unfold tracedAddress parseAddress
  exact Erases.check fun _ => (Erases.quiet get).seq fun _ => Erases.note fun _ =>
    (Erases.quiet _).seq fun _ => Erases.ret _

theorem tracedNames_erases (rdlength : Nat) :
    Erases (tracedNames fuel rdlength) (parseNames fuel rdlength) :=
  (Erases.quiet get).seq fun _ => (tracedHost_erases fuel).seq fun _ => (Erases.quiet get).seq fun _ =>
    Erases.check fun _ => Erases.ret _

theorem tracedSoa_erases (rdlength : Nat) :
    Erases (tracedSoa fuel rdlength) (parseSoa fuel rdlength) :=
  (Erases.quiet get).seq fun _ => (tracedHost_erases fuel).seq fun _ =>
    (tracedHost_erases fuel).seq fun _ => (Erases.quiet get).seq fun _ => Erases.check fun _ =>
      Erases.note fun _ => (Erases.quiet _).seq fun _ => Erases.ret _

theorem tracedSrv_erases (rdlength : Nat) :
    Erases (tracedSrv fuel rdlength) (parseSrv fuel rdlength) :=
  (Erases.quiet get).seq fun _ => Erases.check fun _ => Erases.note fun _ =>
    (Erases.quiet _).seq fun _ => (tracedHost_erases fuel).seq fun _ => (Erases.quiet get).seq fun _ =>
      Erases.check fun _ => Erases.ret _

theorem tracedMx_erases (rdlength : Nat) :
    Erases (tracedMx fuel rdlength) (parseMx fuel rdlength) :=
  (Erases.quiet get).seq fun _ => Erases.check fun _ => Erases.note fun _ =>
    (Erases.quiet _).seq fun _ => (tracedHost_erases fuel).seq fun _ => (Erases.quiet get).seq fun _ =>
      Erases.check fun _ => Erases.ret _

theorem tracedOthers_erases (rdlength : Nat) :
    Erases (tracedOthers rdlength) (parseOthers rdlength) :=
  (Erases.quiet get).seq fun _ => Erases.note fun _ => (Erases.quiet _).seq fun _ => Erases.ret _

/-- The data of a record, by its type. -/
theorem tracedRdata_erases (type rdlength : Nat) :
    Erases (tracedRdata fuel type rdlength) (parseRdata fuel type rdlength) := by
  fun_cases tracedRdata fuel type rdlength
  · exact tracedAddress_erases 4 rdlength
  · exact tracedAddress_erases 16 rdlength
  · exact tracedNames_erases fuel rdlength
  · exact tracedNames_erases fuel rdlength
  · exact tracedNames_erases fuel rdlength
  · exact tracedSoa_erases fuel rdlength
  · exact tracedSrv_erases fuel rdlength
  · exact tracedMx_erases fuel rdlength
  · -- the parser takes the same branch for every other type
    unfold parseRdata
    split
    all_goals first | contradiction | exact tracedOthers_erases rdlength

theorem tracedOneRecord_erases (idx : Section) :
    Erases (tracedOneRecord fuel idx) (parseOneRecord fuel idx) :=
  (tracedHost_erases fuel).seq fun _ => (Erases.quiet get).seq fun _ => Erases.check fun _ =>
    Erases.note fun _ => (Erases.quiet _).seq fun _ => Erases.check fun _ =>
      (tracedRdata_erases fuel _ _).seq fun _ => Erases.quiet _

/-- A section of records. -/
theorem tracedRecord_erases (idx : Section) :
    Erases (tracedRecord fuel idx) (parseRecord fuel idx) := by
  refine (Erases.quiet get).seq fun p => ?_
  induction idx.count p.header with
  | zero => exact Erases.ret _
  | succ count ih => exact (tracedOneRecord_erases fuel idx).seq fun _ => ih

theorem tracedQuestion_erases : Erases (tracedQuestion fuel) (parseQuestion fuel) :=
  (Erases.quiet get).seq fun _ => Erases.check fun _ => (tracedHost_erases fuel).seq fun _ =>
    (Erases.quiet get).seq fun _ => Erases.check fun _ => Erases.note fun _ =>
      (Erases.quiet _).seq fun _ => Erases.quiet _

/-- The whole message. -/
theorem tracedAllM_erases : Erases (tracedAllM fuel) (parseAllM fuel) := by
  unfold tracedAllM parseAllM
  refine (Erases.quiet _).seq fun _ => (Erases.quiet get).seq fun _ => Erases.check fun _ => ?_
  refine (Erases.quiet _).seq fun _ => (tracedQuestion_erases fuel).seq fun _ => ?_
  exact (tracedRecord_erases fuel .answer).seq fun _ =>
    (tracedRecord_erases fuel .authority).seq fun _ => tracedRecord_erases fuel .additional

/-- Without its log the parser is `dns_parser_parse_all`. -/
theorem tracedParseAll_erase (p : DnsParser) :
    (tracedParseAll fuel p).map (fun r => (r.1, r.2.1)) = dnsParserParseAll fuel p := by
  rw [tracedParseAll, dnsParserParseAll, ← tracedAllM_erases fuel p [], Option.map_map,
    Option.map_map]
  refine congrArg (Option.map · _) (funext fun x => ?_)
  obtain ⟨r, q, log⟩ := x
  cases r with
  | ok u => rfl
  | error e => rfl

end

/-! ### Inside the message -/

/-- The offset lies in the message, behind the length in front of it and before its end. -/
def DnsMessage.Contains (m : DnsMessage) (pos : Nat) : Prop :=
  m.msgbase ≤ pos ∧ pos < m.msgend

/-- From `pos` the labels and pointers of a name lead to a label of length zero in the message. -/
inductive Terminated (m : DnsMessage) : Nat → Prop where
  | zero {pos : Nat} : m.Contains pos → m.msgbuf pos = 0 → Terminated m pos
  | label {pos : Nat} : m.Contains pos → m.msgbuf pos ≠ 0 → m.msgbuf pos &&& 0xC0 = 0 →
      Terminated m (pos + 1 + (m.msgbuf pos).toNat) → Terminated m pos
  | pointer {pos : Nat} : m.Contains pos → m.Contains (pos + 1) → m.msgbuf pos &&& 0xC0 = 0xC0 →
      Terminated m (m.msgbase + m.uint16 pos % 2 ^ 14) → Terminated m pos

/-- The access is one that the parser may make. -/
def Access.Inside (m : DnsMessage) : Access → Prop
  | .read pos => m.Contains pos
  | .buffer index => index < dnsNamesMax + 1
  | .test _ => True
  | .accepted start => Terminated m start

/-- The loop finds a whole label or pointer at this offset, or one that it rejects. -/
def OnTrack (m : DnsMessage) (pos : Nat) : Prop :=
  pos < m.msgend ∧ (m.msgbuf pos &&& 0xC0 = 0xC0 → pos + 1 < m.msgend)

/-- Nothing in the log lies outside exactly if every test of the loops over names is on track. -/
def Sound (m : DnsMessage) (log : List Access) : Prop :=
  (∀ a ∈ log, a.Inside m) ↔ ∀ pos, .test pos ∈ log → OnTrack m pos

namespace Sound

variable {m : DnsMessage} {log log' : List Access}

theorem nil : Sound m [] := by
  simp [Sound]

/-- Logs put together are sound if both are. -/
theorem append (h : Sound m log) (h' : Sound m log') : Sound m (log ++ log') := by
  unfold Sound at h h' ⊢
  simp only [List.mem_append, or_imp, forall_and, h, h']

/-- Reads behind a check. -/
theorem reads {pos len : Nat} (hbase : m.msgbase ≤ pos) (hend : pos + len ≤ m.msgend) :
    Sound m (reads pos len) := by
  have hinside : ∀ a ∈ Dns.reads pos len, a.Inside m := by
    intro a ha
    obtain ⟨i, hi, rfl⟩ := List.mem_map.mp ha
    have hlt := List.mem_range.mp hi
    exact ⟨by omega, by omega⟩
  refine ⟨fun _ pos' ha => ?_, fun _ => hinside⟩
  obtain ⟨i, -, hne⟩ := List.mem_map.mp ha
  cases hne

end Sound

/-! ### The loop over a name -/

/-- The ways a pass through the loop can go, and what each touches. -/
inductive Pass (m : DnsMessage) (s : HostState) :
    Step HostState (Int × HostState) → List Access → Prop where
  /-- The loop is left because the message is over. -/
  | out : m.msgend ≤ s.cur → Pass m s (.done (0, s)) [.test s.cur]
  | zero : s.cur < m.msgend → m.msgbuf s.cur = 0 →
      Pass m s (.done (0, { s with cur := s.cur + 1 })) [.test s.cur, .read s.cur]
  | label {len : Nat} : m.msgbuf s.cur ≠ 0 → m.msgbuf s.cur &&& 0xC0 = 0 →
      len = (m.msgbuf s.cur).toNat → s.cur + 1 + len ≤ m.msgend →
      s.host.length + len + 1 ≤ dnsNamesMax →
      Pass m s
        (.next { s with
          cur := s.cur + 1 + len, host := s.host ++ m.bytes (s.cur + 1) len ++ ascii "." })
        ([.test s.cur, .read s.cur] ++ (reads (s.cur + 1) len ++ buffers s.host.length (len + 1)))
  | pointer : s.cur < m.msgend → m.msgbuf s.cur &&& 0xC0 = 0xC0 →
      Pass m s
        (.next { s with
          cur := m.msgbase + m.uint16 s.cur % 2 ^ 14
          curbackup := some (s.curbackup.getD (s.cur + 2)) })
        ([.test s.cur, .read s.cur] ++ reads s.cur 2)
  | badPointer : s.cur < m.msgend → m.msgbuf s.cur &&& 0xC0 = 0xC0 →
      Pass m s (.done (-2, { s with cur := s.cur + 2 }))
        ([.test s.cur, .read s.cur] ++ reads s.cur 2)
  | rejected {cur : Nat} : s.cur < m.msgend → m.msgbuf s.cur &&& 0xC0 ≠ 0xC0 → s.cur ≤ cur →
      Pass m s (.done (-2, { s with cur := cur })) [.test s.cur, .read s.cur]

/-- What one pass of the loop over a name does to the log and to the cursor. -/
theorem pass_spec (m : DnsMessage) (s : HostState) :
    Pass m s (hostStep m s) (passAccesses m s) := by
  unfold hostStep passAccesses bodyAccesses
  by_cases hcur : s.cur < m.msgend
  · simp only [if_pos hcur]
    by_cases hlabel : m.msgbuf s.cur &&& 0xC0 = 0
    · simp only [if_pos hlabel]
      have hnot : m.msgbuf s.cur &&& 0xC0 ≠ 0xC0 := by
        rw [hlabel]
        decide
      by_cases hlen : (m.msgbuf s.cur).toNat = 0
      · simp only [if_pos hlen]
        exact .zero hcur (UInt8.toNat_inj.mp hlen)
      · simp only [if_neg hlen]
        split
        · exact .rejected hcur hnot (Nat.le_succ s.cur)
        · rename_i hok
          have hne : m.msgbuf s.cur ≠ 0 := by
            intro hzero
            exact hlen (by rw [hzero]; rfl)
          exact .label hne hlabel rfl (by omega) (by omega)
    · simp only [if_neg hlabel]
      split
      · rename_i hptr
        split
        · exact .badPointer hcur hptr
        · exact .pointer hcur hptr
      · rename_i hptr
        exact .rejected hcur hptr (Nat.le_refl s.cur)
  · simp only [if_neg hcur]
    exact .out (by omega)

/-- What the loop keeps. -/
structure AtLabel (m : DnsMessage) (s : HostState) : Prop where
  base : m.msgbase ≤ s.cur
  backup : ∀ pos ∈ s.curbackup, m.msgbase ≤ pos
  room : s.host.length ≤ dnsNamesMax

theorem AtLabel.start {m : DnsMessage} {pos : Nat} (h : m.msgbase ≤ pos) :
    AtLabel m (hostStart pos) where
  base := h
  backup := by simp [hostStart]
  room := Nat.zero_le _

/-- A pass that goes on ends at a label again. -/
theorem AtLabel.next {m : DnsMessage} {s t : HostState} (h : AtLabel m s)
    (hstep : hostStep m s = .next t) : AtLabel m t := by
  have hpass := pass_spec m s
  have hbase := h.base
  rw [hstep] at hpass
  generalize passAccesses m s = accesses at hpass
  cases hpass with
  | @label len hne htop hlen hend hroom =>
      have hdot : (ascii ".").length = 1 := rfl
      refine ⟨by simp only; omega, h.backup, ?_⟩
      simp only [List.length_append, length_bytes, hdot]
      omega
  | pointer hcur hptr =>
      refine ⟨Nat.le_add_right _ _, ?_, h.room⟩
      rintro pos ⟨⟩
      cases hback : s.curbackup with
      | none => simp only [Option.getD_none]; omega
      | some pos => simpa only [Option.getD_some] using h.backup pos hback

section

variable {m : DnsMessage} {pos len : Nat} {l : List Access}

theorem inside_front : (∀ a ∈ [.test pos, .read pos] ++ l, a.Inside m) ↔
    m.Contains pos ∧ ∀ a ∈ l, a.Inside m := by
  simp [Access.Inside]

theorem tests_front : (∀ p, .test p ∈ [.test pos, .read pos] ++ l → OnTrack m p) ↔
    OnTrack m pos ∧ ∀ p, .test p ∈ l → OnTrack m p := by
  simp

/-- Reading a range is allowed exactly if each of its bytes lies in the message. -/
theorem inside_reads : (∀ a ∈ reads pos len, a.Inside m) ↔ ∀ i < len, m.Contains (pos + i) := by
  simp [reads, Access.Inside]

/-- Writing a range of the name is allowed exactly if each of its bytes lies in the buffer. -/
theorem inside_buffers : (∀ a ∈ buffers pos len, a.Inside m) ↔ ∀ i < len, pos + i ≤ dnsNamesMax := by
  simp only [buffers, List.forall_mem_map, List.mem_range, Access.Inside]
  exact forall₂_congr fun _ _ => Nat.lt_succ_iff

theorem test_notMem_reads {p : Nat} : .test p ∉ reads pos len := by
  simp [reads]

theorem test_notMem_buffers {p : Nat} : .test p ∉ buffers pos len := by
  simp [buffers]

/-- The second byte of a pointer is read without a check. -/
theorem inside_pointer (hbase : m.msgbase ≤ pos) (hcur : pos < m.msgend)
    (hptr : m.msgbuf pos &&& 0xC0 = 0xC0) :
    (∀ a ∈ reads pos 2, a.Inside m) ↔ OnTrack m pos := by
  rw [inside_reads]
  constructor
  · exact fun h => ⟨hcur, fun _ => (h 1 (by decide)).2⟩
  · rintro ⟨-, hnext⟩ i hi
    have hlt := hnext hptr
    exact ⟨by omega, by omega⟩

end

/-- A name that begins with a zero label, a label or a pointer ends where what follows it ends. -/
theorem terminated_label {m : DnsMessage} {pos : Nat} (hbase : m.msgbase ≤ pos)
    (hend : pos < m.msgend) (hne : m.msgbuf pos ≠ 0) (htop : m.msgbuf pos &&& 0xC0 = 0) :
    Terminated m pos ↔ Terminated m (pos + 1 + (m.msgbuf pos).toNat) := by
  constructor
  · intro h
    cases h with
    | zero _ hzero => exact absurd hzero hne
    | label _ _ _ hrest => exact hrest
    | pointer _ _ hptr _ =>
        rw [htop] at hptr
        exact absurd hptr (by decide)
  · exact .label ⟨hbase, hend⟩ hne htop

/-- A pointer on track ends where the name that it points to does. -/
theorem terminated_pointer {m : DnsMessage} {pos : Nat} (hbase : m.msgbase ≤ pos)
    (htrack : OnTrack m pos) (hptr : m.msgbuf pos &&& 0xC0 = 0xC0) :
    Terminated m pos ↔ Terminated m (m.msgbase + m.uint16 pos % 2 ^ 14) := by
  have hne : m.msgbuf pos &&& 0xC0 ≠ 0 := by
    rw [hptr]
    decide
  constructor
  · intro h
    cases h with
    | zero _ hzero =>
        rw [hzero] at hptr
        exact absurd hptr (by decide)
    | label _ _ htop _ => exact absurd htop hne
    | pointer _ _ _ hrest => exact hrest
  · have hnext := htrack.2 hptr
    exact .pointer ⟨hbase, htrack.1⟩ ⟨by omega, hnext⟩ hptr

/-- The accesses of the loop and the name it accepts are right exactly if every test is on track. -/
structure Parsed (m : DnsMessage) (s : HostState) (r : Int × HostState) (log : List Access) :
    Prop where
  atLabel : AtLabel m r.2
  sound : ((∀ a ∈ log, a.Inside m) ∧ (¬ r.1 < 0 → Terminated m s.cur)) ↔
    ∀ pos, .test pos ∈ log → OnTrack m pos

/-- The last pass. -/
theorem Parsed.done {m : DnsMessage} {s : HostState} {r : Int × HostState} (h : AtLabel m s)
    (hstep : hostStep m s = .done r) : Parsed m s r (passAccesses m s) := by
  have hpass := pass_spec m s
  have hbase := h.base
  rw [hstep] at hpass
  generalize passAccesses m s = accesses at hpass
  cases hpass with
  | out hend =>
      have hout : ¬ s.cur < m.msgend := Nat.not_lt.mpr hend
      refine ⟨h, fun hall => ?_, fun htests => absurd (htests s.cur (by simp)).1 hout⟩
      have hin : m.Contains s.cur := by cases hall.2 (by simp) <;> assumption
      exact absurd hin.2 hout
  | zero hcur hzero =>
      refine ⟨⟨by simp only; omega, h.backup, h.room⟩, fun _ => ?_, fun _ => ?_⟩
      · refine (tests_front (l := [])).mpr ⟨⟨hcur, fun hptr => ?_⟩, by simp⟩
        rw [hzero] at hptr
        exact absurd hptr (by decide)
      · exact ⟨(inside_front (l := [])).mpr ⟨⟨hbase, hcur⟩, by simp⟩,
          fun _ => .zero ⟨hbase, hcur⟩ hzero⟩
  | badPointer hcur hptr =>
      refine ⟨⟨by simp only; omega, h.backup, h.room⟩, ?_⟩
      rw [inside_front, tests_front, inside_pointer hbase hcur hptr]
      simp [test_notMem_reads, DnsMessage.Contains, hbase, hcur]
  | rejected hcur hnot hle =>
      refine ⟨⟨by simp only; omega, h.backup, h.room⟩, fun _ => ?_, fun _ => ?_⟩
      · exact (tests_front (l := [])).mpr ⟨⟨hcur, fun hptr => absurd hptr hnot⟩, by simp⟩
      · exact ⟨(inside_front (l := [])).mpr ⟨⟨hbase, hcur⟩, by simp⟩,
          fun hneg => absurd (by simp) hneg⟩

/-- A pass before others. -/
theorem Parsed.next {m : DnsMessage} {s t : HostState} {r : Int × HostState} {log : List Access}
    (h : AtLabel m s) (hstep : hostStep m s = .next t) (hrest : Parsed m t r log) :
    Parsed m s r (passAccesses m s ++ log) := by
  have hpass := pass_spec m s
  have hbase := h.base
  rw [hstep] at hpass
  generalize passAccesses m s = accesses at hpass
  refine ⟨hrest.atLabel, ?_⟩
  have hsound := hrest.sound
  cases hpass with
  | @label len hne htop hlen hend hroom =>
      subst hlen
      have hcur : s.cur < m.msgend := by omega
      have htrack : OnTrack m s.cur := by
        refine ⟨hcur, fun hptr => ?_⟩
        rw [htop] at hptr
        exact absurd hptr (by decide)
      have hreads : ∀ i < (m.msgbuf s.cur).toNat, m.Contains (s.cur + 1 + i) := fun i hi =>
        ⟨by omega, by omega⟩
      have hbuffers : ∀ i < (m.msgbuf s.cur).toNat + 1, s.host.length + i ≤ dnsNamesMax :=
        fun i hi => by omega
      rw [List.append_assoc, inside_front, tests_front, terminated_label hbase hcur hne htop]
      simp only [List.forall_mem_append, inside_reads, inside_buffers]
      simp only [List.mem_append, test_notMem_reads, test_notMem_buffers, false_or]
      rw [← hsound]
      exact ⟨fun hall => ⟨htrack, hall.1.2.2, hall.2⟩,
        fun hall => ⟨⟨⟨hbase, hcur⟩, ⟨hreads, hbuffers⟩, hall.2.1⟩, hall.2.2⟩⟩
  | pointer hcur hptr =>
      rw [List.append_assoc, inside_front, tests_front]
      simp only [List.forall_mem_append, inside_pointer hbase hcur hptr]
      simp only [List.mem_append, test_notMem_reads, false_or]
      rw [← hsound]
      constructor
      · rintro ⟨⟨-, htrack, hlog⟩, hterm⟩
        exact ⟨htrack, hlog, fun hret => (terminated_pointer hbase htrack hptr).mp (hterm hret)⟩
      · rintro ⟨htrack, hlog, hterm⟩
        exact ⟨⟨⟨hbase, hcur⟩, htrack, hlog⟩,
          fun hret => (terminated_pointer hbase htrack hptr).mpr (hterm hret)⟩

/-! ### The functions of the parser -/

/-- From a cursor with `P`, the function leaves the message alone and adds a sound piece to the log;
where it succeeds, its result and the cursor have `Q`. -/
def Agrees (m : DnsMessage) {α : Type} (P : Nat → Prop) (t : TraceM α) (Q : α → Nat → Prop) :
    Prop :=
  ∀ p log r q log', p.toDnsMessage = m → P p.cur → t.run.run (p, log) = some (r, (q, log')) →
    q.toDnsMessage = m ∧ (∃ new, log' = log ++ new ∧ Sound m new) ∧ ∀ a, r = .ok a → Q a q.cur

namespace Agrees

variable {m : DnsMessage} {α β : Type} {P : Nat → Prop} {Q : α → Nat → Prop}
  {R : β → Nat → Prop}

theorem silent {log : List Access} : ∃ new, log = log ++ new ∧ Sound m new :=
  ⟨[], (List.append_nil log).symm, Sound.nil⟩

theorem ret {a : α} (h : ∀ c, P c → Q a c) : Agrees m P (pure a) Q := by
  rintro p log r q log' hp hP ⟨⟩
  exact ⟨hp, silent, fun b hb => by cases hb; exact h _ hP⟩

theorem fail {e : Int} : Agrees m P (throw e : TraceM α) Q := by
  rintro p log r q log' hp hP ⟨⟩
  exact ⟨hp, silent, nofun⟩

theorem write {f : DnsParser → DnsParser} {Q : Unit → Nat → Prop}
    (hf : ∀ p, (f p).toDnsMessage = p.toDnsMessage)
    (hQ : ∀ p, p.toDnsMessage = m → P p.cur → Q ⟨⟩ (f p).cur) :
    Agrees m P (quiet (modify f)) Q := by
  rintro p log r q log' hp hP ⟨⟩
  exact ⟨(hf p).trans hp, silent, fun _ _ => hQ p hp hP⟩

/-- The second part starts where the first one ended. -/
theorem seq {t : TraceM α} {u : α → TraceM β} (ht : Agrees m P t Q)
    (hu : ∀ a, Agrees m (Q a) (u a) R) : Agrees m P (t >>= u) R := by
  intro p log r q log' hp hP hrun
  cases hfirst : t.run.run (p, log) with
  | none => simp [ExceptT.run_bind, hfirst] at hrun
  | some result =>
      obtain ⟨r₁, q₁, log₁⟩ := result
      obtain ⟨hq₁, ⟨new, hlog, hsound⟩, hres⟩ := ht p log r₁ q₁ log₁ hp hP hfirst
      simp only [ExceptT.run_bind, StateT.run_bind, hfirst, Option.bind_eq_bind,
        Option.bind_some] at hrun
      cases r₁ with
      | error e =>
          cases hrun
          exact ⟨hq₁, ⟨new, hlog, hsound⟩, nofun⟩
      | ok a =>
          obtain ⟨hq, ⟨new', hlog', hsound'⟩, hres'⟩ :=
            hu a q₁ log₁ r q log' hq₁ (hres a rfl) hrun
          exact ⟨hq, ⟨new ++ new', by rw [hlog', hlog, List.append_assoc], hsound.append hsound'⟩,
            hres'⟩

/-- An early `return` with an error code, in front of the rest `u`. -/
theorem check {c : Prop} [Decidable c] {e : Int} {u : Unit → TraceM β}
    (hu : ¬ c → ∀ x, Agrees m P (u x) R) :
    Agrees m P (if c then throw e >>= u else u ()) R := by
  split
  · exact (fail (Q := fun _ _ => False)).seq fun _ _ _ _ _ _ _ hfalse => hfalse.elim
  · rename_i hc
    exact hu hc ()

/-- More may be known at the start. -/
theorem weaken {t : TraceM α} {P' : Nat → Prop} (hP : ∀ c, P' c → P c) (h : Agrees m P t Q) :
    Agrees m P' t Q :=
  fun p log r q log' hp hP' => h p log r q log' hp (hP p.cur hP')

/-- The parser is looked at, in front of the rest `u`. -/
theorem look {u : DnsParser → TraceM β}
    (hu : ∀ p, p.toDnsMessage = m → P p.cur → Agrees m (· = p.cur) (u p) R) :
    Agrees m P (quiet get >>= u) R :=
  fun p log r q log' hp hP hrun => hu p hp hP p log r q log' hp rfl hrun

/-- Accesses that are sound may be put into the log. -/
theorem note {accesses : List Access} {u : Unit → TraceM β} (h : Sound m accesses)
    (hu : Agrees m P (u ⟨⟩) R) : Agrees m P (Dns.note accesses >>= u) R := by
  intro p log r q log' hp hP hrun
  obtain ⟨hq, ⟨new, hlog, hsound⟩, hres⟩ := hu p (log ++ accesses) r q log' hp hP hrun
  exact ⟨hq, ⟨accesses ++ new, by rw [hlog, List.append_assoc], h.append hsound⟩, hres⟩

theorem advance {n c : Nat} {u : Unit → TraceM β} (hu : Agrees m (· = c + n) (u ⟨⟩) R) :
    Agrees m (· = c) (quiet (Dns.advance n) >>= u) R :=
  fun p log r q log' hp hc hrun =>
    hu { p with cur := p.cur + n } log r q log' hp (by simp only [hc]) hrun

end Agrees

section

variable {m : DnsMessage} (fuel : Nat)

/-- The end of a name that fits is written inside the buffer. -/
theorem endAccesses_inside {host : List Byte} (h : host.length ≤ dnsNamesMax) :
    ∀ a ∈ endAccesses host, a.Inside m ∧ ∀ pos, a ≠ .test pos := by
  have hmax : dnsNamesMax = 256 := rfl
  intro a ha
  simp only [endAccesses, List.mem_append] at ha
  rcases ha with ha | ha
  · split at ha
    · rw [List.mem_singleton.mp ha]
      exact ⟨by simp only [Access.Inside]; omega, nofun⟩
    · cases ha
  · generalize hcur : (if host.length > 1 ∧ host.getLast? = some 46 then host.length - 1
      else host.length) = cur at ha
    have hle : cur ≤ dnsNamesMax := by
      rw [← hcur]
      split <;> omega
    split at ha
    · rcases List.mem_cons.mp ha with rfl | ha
      · exact ⟨Nat.succ_pos _, nofun⟩
      · rw [List.mem_singleton.mp ha]
        exact ⟨by simp only [Access.Inside]; omega, nofun⟩
    · rw [List.mem_singleton.mp ha]
      exact ⟨Nat.lt_succ_of_le hle, nofun⟩

/-- The loop over a name ends behind the start of the message, as it began. -/
theorem tracedHost_agrees :
    Agrees m (m.msgbase ≤ ·) (tracedHost fuel) fun _ c => m.msgbase ≤ c := by
  rintro p log r q log' rfl hbase hrun
  by_cases hend : p.cur ≥ p.msgend
  · have hfail : (tracedHost fuel).run.run (p, log) = some (.error (-2), (p, log)) := if_pos hend
    rw [hfail] at hrun
    cases hrun
    exact ⟨rfl, Agrees.silent, nofun⟩
  · rw [tracedHost_run fuel log hend] at hrun
    obtain ⟨⟨⟨ret, s⟩, log₁⟩, hloop, hres⟩ := Option.map_eq_some_iff.mp hrun
    obtain ⟨new, rfl, hparsed⟩ := logged_induction (I := AtLabel p.toDnsMessage)
      (P := Parsed p.toDnsMessage) (fun _ _ hs hstep => hs.next hstep)
      (fun _ _ hs hstep => Parsed.done hs hstep)
      (fun _ _ _ _ hs hstep hrest => Parsed.next hs hstep hrest) (AtLabel.start hbase) hloop
    have hat := hparsed.atLabel
    have hsound := hparsed.sound
    simp only at hres
    by_cases hret : ret < 0
    · rw [if_pos hret] at hres
      cases hres
      refine ⟨rfl, ⟨new, rfl, ?_⟩, nofun⟩
      simpa only [hret, not_true_eq_false, false_implies, and_true, Sound] using hsound
    · rw [if_neg hret] at hres
      cases hres
      refine ⟨rfl, ⟨new ++ (endAccesses s.host ++ [.accepted p.cur]), by simp, ?_⟩, fun _ _ => ?_⟩
      · have hin := endAccesses_inside (m := p.toDnsMessage) hat.room
        have htests : ∀ pos, .test pos ∉ endAccesses s.host := fun pos hpos => (hin _ hpos).2 pos rfl
        simp only [hret, not_false_eq_true, true_implies] at hsound
        unfold Sound
        simp only [List.forall_mem_append, List.forall_mem_singleton]
        simp only [List.mem_append, List.mem_singleton, htests, reduceCtorEq, or_false]
        rw [← hsound]
        exact ⟨fun h => ⟨h.1, h.2.2⟩, fun h => ⟨h.1, fun a ha => (hin a ha).1, h.2⟩⟩
      · cases hback : s.curbackup with
        | none => simpa only [hback, Option.getD_none] using hat.base
        | some pos => simpa only [hback, Option.getD_some] using hat.backup pos hback

/-- A name is parsed, in front of the rest `u`. -/
theorem Agrees.host {β : Type} {P : Nat → Prop} {R : β → Nat → Prop} {u : List Byte → TraceM β}
    (hP : ∀ c, P c → m.msgbase ≤ c) (hu : ∀ name, Agrees m (m.msgbase ≤ ·) (u name) R) :
    Agrees m P (tracedHost fuel >>= u) R :=
  ((tracedHost_agrees fuel).weaken hP).seq hu

/-- The record data that begins at the cursor has `rdlength` bytes in the message. -/
def AtRdata (m : DnsMessage) (rdlength c : Nat) : Prop :=
  m.msgbase ≤ c ∧ c + rdlength ≤ m.msgend

/-- What is behind the cursor after the function. -/
def Behind (m : DnsMessage) {α : Type} (_ : α) (c : Nat) : Prop :=
  m.msgbase ≤ c

theorem tracedAddress_agrees (size rdlength : Nat) :
    Agrees m (AtRdata m rdlength) (tracedAddress size rdlength) (Behind m) := by
  unfold tracedAddress
  refine Agrees.check fun _ _ => Agrees.look fun p hp hcur => ?_
  refine Agrees.note (Sound.reads hcur.1 hcur.2) (Agrees.advance (Agrees.ret fun c hc => ?_))
  exact hc ▸ Nat.le_add_right_of_le hcur.1

theorem tracedNames_agrees (rdlength : Nat) :
    Agrees m (AtRdata m rdlength) (tracedNames fuel rdlength) (Behind m) := by
  refine Agrees.look fun p hp hcur => Agrees.host fuel (fun c hc => hc ▸ hcur.1) fun name => ?_
  refine Agrees.look fun q hq hbase => Agrees.check fun _ _ => Agrees.ret fun c hc => ?_
  exact hc ▸ hbase

theorem tracedSoa_agrees (rdlength : Nat) :
    Agrees m (AtRdata m rdlength) (tracedSoa fuel rdlength) (Behind m) := by
  refine Agrees.look fun start hstart hcur => Agrees.host fuel (fun c hc => hc ▸ hcur.1) fun mname =>
    Agrees.host fuel (fun c hc => hc) fun rname => ?_
  refine Agrees.look fun p hp hbase => Agrees.check fun hend _ => ?_
  have hrest : p.cur + 20 ≤ m.msgend := by
    have hdata := hcur.2
    omega
  refine Agrees.note (Sound.reads hbase hrest) (Agrees.advance (Agrees.ret fun c hc => ?_))
  exact hc ▸ Nat.le_add_right_of_le hbase

theorem tracedSrv_agrees (rdlength : Nat) :
    Agrees m (AtRdata m rdlength) (tracedSrv fuel rdlength) (Behind m) := by
  refine Agrees.look fun p hp hcur => Agrees.check fun hend _ => ?_
  have hrest : p.cur + 6 ≤ m.msgend := by
    have hdata := hcur.2
    omega
  refine Agrees.note (Sound.reads hcur.1 hrest) (Agrees.advance ?_)
  refine Agrees.host fuel (fun c hc => hc ▸ Nat.le_add_right_of_le hcur.1) fun target => ?_
  refine Agrees.look fun q hq hbase => Agrees.check fun _ _ => Agrees.ret fun c hc => ?_
  exact hc ▸ hbase

theorem tracedMx_agrees (rdlength : Nat) :
    Agrees m (AtRdata m rdlength) (tracedMx fuel rdlength) (Behind m) := by
  refine Agrees.look fun p hp hcur => Agrees.check fun hend _ => ?_
  have hrest : p.cur + 2 ≤ m.msgend := by
    have hdata := hcur.2
    omega
  refine Agrees.note (Sound.reads hcur.1 hrest) (Agrees.advance ?_)
  refine Agrees.host fuel (fun c hc => hc ▸ Nat.le_add_right_of_le hcur.1) fun exchange => ?_
  refine Agrees.look fun q hq hbase => Agrees.check fun _ _ => Agrees.ret fun c hc => ?_
  exact hc ▸ hbase

theorem tracedOthers_agrees (rdlength : Nat) :
    Agrees m (AtRdata m rdlength) (tracedOthers rdlength) (Behind m) := by
  refine Agrees.look fun p hp hcur => ?_
  refine Agrees.note (Sound.reads hcur.1 hcur.2) (Agrees.advance (Agrees.ret fun c hc => ?_))
  exact hc ▸ Nat.le_add_right_of_le hcur.1

/-- The data of a record, by its type. -/
theorem tracedRdata_agrees (type rdlength : Nat) :
    Agrees m (AtRdata m rdlength) (tracedRdata fuel type rdlength) (Behind m) := by
  unfold tracedRdata
  split
  · exact tracedAddress_agrees 4 rdlength
  · exact tracedAddress_agrees 16 rdlength
  · exact tracedNames_agrees fuel rdlength
  · exact tracedNames_agrees fuel rdlength
  · exact tracedNames_agrees fuel rdlength
  · exact tracedSoa_agrees fuel rdlength
  · exact tracedSrv_agrees fuel rdlength
  · exact tracedMx_agrees fuel rdlength
  · exact tracedOthers_agrees rdlength

theorem tracedOneRecord_agrees (idx : Section) :
    Agrees m (m.msgbase ≤ ·) (tracedOneRecord fuel idx) (Behind m) := by
  refine Agrees.host fuel (fun c hc => hc) fun host => Agrees.look fun p hp hbase => ?_
  refine Agrees.check fun hhead _ => ?_
  have hfixed : p.cur + 10 ≤ m.msgend := by
    rw [← hp]
    omega
  refine Agrees.note (Sound.reads hbase hfixed) (Agrees.advance ?_)
  refine Agrees.check fun hend _ => ?_
  have hdata : p.cur + 10 + p.uint16 (p.cur + 8) ≤ m.msgend := by
    rw [← hp]
    omega
  refine ((tracedRdata_agrees fuel _ _).weaken ?_).seq fun rdata => Agrees.write ?_ ?_
  · rintro c rfl
    exact ⟨Nat.le_add_right_of_le hbase, hdata⟩
  · intro q
    cases idx <;> rfl
  · intro q _ hq
    cases idx <;> exact hq

theorem tracedRecords_agrees (idx : Section) (count : Nat) :
    Agrees m (m.msgbase ≤ ·) (tracedRecords fuel idx count) (Behind m) := by
  induction count with
  | zero => exact Agrees.ret fun c hc => hc
  | succ count ih => exact (tracedOneRecord_agrees fuel idx).seq fun _ => ih

/-- A section of records. -/
theorem tracedRecord_agrees (idx : Section) :
    Agrees m (m.msgbase ≤ ·) (tracedRecord fuel idx) (Behind m) := by
  refine Agrees.look fun p hp hbase => (tracedRecords_agrees fuel idx _).weaken ?_
  rintro c rfl
  exact hbase

theorem tracedQuestion_agrees :
    Agrees m (m.msgbase ≤ ·) (tracedQuestion fuel) (Behind m) := by
  refine Agrees.look fun start hstart hbase => Agrees.check fun _ _ => ?_
  refine Agrees.host fuel (fun c hc => hc ▸ hbase) fun host => Agrees.look fun p hp hcur => ?_
  refine Agrees.check fun hend _ => ?_
  have hfixed : p.cur + 4 ≤ m.msgend := by
    rw [← hp]
    omega
  refine Agrees.note (Sound.reads hcur hfixed) (Agrees.advance (Agrees.write (fun _ => rfl) ?_))
  rintro q _ hq
  exact hq ▸ Nat.le_add_right_of_le hcur

/-- The whole message. -/
theorem tracedAllM_agrees : Agrees m (fun _ => True) (tracedAllM fuel) (Behind m) := by
  unfold tracedAllM
  refine (Agrees.write (Q := fun _ c => m.msgbase ≤ c) (by intro p; rfl) ?_).seq fun _ => ?_
  · rintro p hp -
    exact (congrArg DnsMessage.msgbase hp).ge
  refine Agrees.look fun p hp hbase => Agrees.check fun _ _ => ?_
  refine (Agrees.write (Q := fun _ c => m.msgbase ≤ c) (by intro p; rfl) ?_).seq fun _ => ?_
  · rintro q hq hcur
    exact Nat.le_add_right_of_le (hcur ▸ hbase)
  refine (tracedQuestion_agrees fuel).seq fun _ => (tracedRecord_agrees fuel .answer).seq fun _ => ?_
  exact (tracedRecord_agrees fuel .authority).seq fun _ => tracedRecord_agrees fuel .additional

/-- Every access of a parse is sound, and the message stays as it is. -/
theorem tracedParseAll_sound {p q : DnsParser} {ret : Int} {log : List Access}
    (h : tracedParseAll fuel p = some (ret, q, log)) :
    q.toDnsMessage = p.toDnsMessage ∧ Sound p.toDnsMessage log := by
  obtain ⟨⟨r, q', log'⟩, hrun, hres⟩ := Option.map_eq_some_iff.mp h
  obtain ⟨hq, ⟨new, hlog, hsound⟩, -⟩ :=
    tracedAllM_agrees fuel p [] r q' log' rfl trivial hrun
  rw [List.nil_append] at hlog
  cases r with
  | ok u =>
      cases hres
      exact ⟨hq, hlog ▸ hsound⟩
  | error e =>
      cases hres
      exact ⟨hq, hlog ▸ hsound⟩

end

/-- The message is the datagram, or what follows the length in the stream. -/
theorem receive_message {fresh : Nat → Byte} {buf : List Byte} {p q : DnsParser} {n : Nat}
    (h : receive fresh buf p = .ok (n, q)) :
    (p.singlePacket = true ∧ q.msgbase = 0 ∧ q.msgend = buf.length) ∨
      (p.singlePacket = false ∧ q.msgbase = 2 ∧ q.msgend = 2 + q.uint16 0) := by
  unfold receive at h
  split at h
  · cases h
  · split at h
    · rename_i hsingle
      simp only at h
      split at h
      · cases h
      · split at h
        · cases h
        · cases h
          exact .inr ⟨by simpa using hsingle, rfl, Nat.add_comm _ _⟩
    · rename_i hsingle
      cases h
      exact .inl ⟨by simpa using hsingle, rfl, rfl⟩

/-- In a call that returns, the functions over names, questions and records read only bytes of the
message, stay in the buffer of a name and accept only names that end in a zero label exactly if
every test of a loop over a name finds the loop in front of the end of the message, and in front of
its last byte where a pointer begins. -/
theorem parser_inside (fuel : Nat) (fresh : Nat → Byte) (buf : List Byte) (p q : DnsParser)
    (ret : Int) (n : Nat) (log : List Access)
    (h : tracedAppendMessage fuel fresh buf p = some (ret, n, q, log)) :
    ((∀ a ∈ log, a.Inside q.toDnsMessage) ↔
        ∀ pos, .test pos ∈ log → OnTrack q.toDnsMessage pos) ∧
      (log ≠ [] →
        (p.singlePacket = true ∧ q.msgbase = 0 ∧ q.msgend = buf.length) ∨
          (p.singlePacket = false ∧ q.msgbase = 2 ∧ q.msgend = 2 + q.uint16 0)) := by
  unfold tracedAppendMessage at h
  cases hreceive : receive fresh buf p with
  | error r =>
      rw [hreceive] at h
      cases h
      exact ⟨by simp, fun hne => absurd rfl hne⟩
  | ok handed =>
      rw [hreceive] at h
      obtain ⟨⟨code, r, log'⟩, hparse, hres⟩ := Option.map_eq_some_iff.mp h
      cases hres
      obtain ⟨hsame, hsound⟩ := tracedParseAll_sound fuel hparse
      rw [hsame]
      exact ⟨hsound, fun _ => receive_message hreceive⟩

theorem parser_inside_short :
    ∃ q log, tracedAppendMessage 8 (fun _ => 0) shortQuestion.bytes (dnsParserInit true) =
        some (1, shortQuestion.bytes.length, q, log) ∧
      ((∀ a ∈ log, a.Inside q.toDnsMessage) ↔
        ∀ pos, .test pos ∈ log → OnTrack q.toDnsMessage pos) := by
  have hrun : ((tracedAppendMessage 8 (fun _ => 0) shortQuestion.bytes (dnsParserInit true)).map
      fun r => (r.1, r.2.1)) = some (1, shortQuestion.bytes.length) := by decide +kernel
  obtain ⟨⟨ret, n, q, log⟩, hcall, hres⟩ := Option.map_eq_some_iff.mp hrun
  cases hres
  exact ⟨q, log, hcall, (parser_inside _ _ _ _ _ _ _ _ hcall).1⟩

/-- A question whose name points to a label that fills the message. -/
def openName : List Byte :=
  [0, 0, 0, 0, 0, 1, 0, 0, 0, 0, 0, 0, 0xC0, 18, 0, 1, 0, 1, 1, 97]

/-- A question whose name points to the first half of a pointer in the last byte. -/
def halfPointer : List Byte :=
  [0, 0, 0, 0, 0, 1, 0, 0, 0, 0, 0, 0, 0xC0, 18, 0, 1, 0, 1, 0xC0]

/-- A datagram is parsed as the message that it is. -/
theorem datagram_message {fuel : Nat} {fresh : Nat → Byte} {d : List Byte} {ret : Int} {n : Nat}
    {q : DnsParser} {log : List Access}
    (h : tracedAppendMessage fuel fresh d (dnsParserInit true) = some (ret, n, q, log)) :
    q.toDnsMessage = (datagramParser fresh d).toDnsMessage := by
  obtain ⟨⟨code, r, log'⟩, hparse, hres⟩ := Option.map_eq_some_iff.mp h
  cases hres
  exact (tracedParseAll_sound fuel hparse).1

/-- The name without an end, at offset 12, has none. -/
theorem not_terminated_open : ¬ Terminated (datagramParser (fun _ => 0) openName).toDnsMessage 12 := by
  rw [terminated_pointer (by decide) ⟨by decide, fun _ => by decide⟩ (by decide),
    terminated_label (by decide) (by decide) (by decide) (by decide)]
  intro hterm
  have hin : (datagramParser (fun _ => 0) openName).toDnsMessage.Contains 20 := by
    cases hterm <;> assumption
  exact absurd hin.2 (by decide)

/-- The first name is accepted without a zero label, the second is read beyond the message. -/
theorem name_leaves_message :
    (∃ q log, tracedAppendMessage 8 (fun _ => 0) openName (dnsParserInit true) =
        some (1, openName.length, q, log) ∧
      .accepted 12 ∈ log ∧ ¬ Terminated q.toDnsMessage 12) ∧
      ∃ q log, tracedAppendMessage 8 (fun _ => 0) halfPointer (dnsParserInit true) =
          some (1, halfPointer.length, q, log) ∧
        .read 19 ∈ log ∧ ¬ q.toDnsMessage.Contains 19 := by
  constructor
  · have hrun : ((tracedAppendMessage 8 (fun _ => 0) openName (dnsParserInit true)).map
        fun r => (r.1, r.2.1, decide (.accepted 12 ∈ r.2.2.2))) =
          some (1, openName.length, true) := by decide +kernel
    obtain ⟨⟨ret, n, q, log⟩, hcall, hres⟩ := Option.map_eq_some_iff.mp hrun
    simp only [Prod.mk.injEq, decide_eq_true_eq] at hres
    obtain ⟨rfl, rfl, hmem⟩ := hres
    exact ⟨q, log, hcall, hmem, datagram_message hcall ▸ not_terminated_open⟩
  · have hrun : ((tracedAppendMessage 8 (fun _ => 0) halfPointer (dnsParserInit true)).map
        fun r => (r.1, r.2.1, decide (.read 19 ∈ r.2.2.2))) =
          some (1, halfPointer.length, true) := by decide +kernel
    obtain ⟨⟨ret, n, q, log⟩, hcall, hres⟩ := Option.map_eq_some_iff.mp hrun
    simp only [Prod.mk.injEq, decide_eq_true_eq] at hres
    obtain ⟨rfl, rfl, hmem⟩ := hres
    refine ⟨q, log, hcall, hmem, fun hin => ?_⟩
    rw [datagram_message hcall] at hin
    exact absurd hin.2 (by decide)

end Workflow.Dns

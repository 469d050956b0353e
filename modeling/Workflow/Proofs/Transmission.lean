/-
Module: Workflow.Proofs.Transmission
Layer: Proofs
Purpose: Whether the two limits of a transmission hold: the total time from its start, and the time
  that the peer may take to go on. `next_timeout` clears the session's timeout when the total limit is
  armed. `append` leaves the deadline alone from then on; `partial_written` does not look, and puts
  the response timeout in the place of the total limit.
Trusted boundary: none
Main exports: Transmission.InTime, Transmission.OnTime, Transmission.Inv, transmission_in_time,
  limit_lost
-/
import Workflow.Kernel.Transmission
import Mathlib.Algebra.Order.Ring.Int

namespace Workflow.Kernel

open Workflow.Lib

/-! ### Milliseconds -/

/-- The milliseconds of `timeUsed` before they are an `int`. -/
def usedMilliseconds (now begin : Timespec) : Int :=
  1000 * (now.sec - begin.sec) + (now.nsec - begin.nsec).tdiv 1000000

/-- They are less than one off. -/
theorem usedMilliseconds_near (now begin : Timespec) :
    usedMilliseconds now begin * millisecond < nanoseconds now - nanoseconds begin + millisecond ∧
      nanoseconds now - nanoseconds begin < usedMilliseconds now begin * millisecond + millisecond := by
  have hround : ∀ x : Int, x.tdiv 1000000 * 1000000 < x + 1000000 ∧
      x < x.tdiv 1000000 * 1000000 + 1000000 := by
    intro x
    rcases Int.le_total 0 x with hx | hx
    · rw [Int.tdiv_eq_ediv_of_nonneg hx]
      omega
    · have hneg := Int.neg_tdiv (-x) 1000000
      rw [Int.neg_neg, Int.tdiv_eq_ediv_of_nonneg (Int.neg_nonneg_of_nonpos hx)] at hneg
      omega
  obtain ⟨hlow, hhigh⟩ := hround (now.nsec - begin.nsec)
  unfold usedMilliseconds nanoseconds millisecond
  omega

theorem toInt_timeLeft {s : TransmissionSession} {now : ClockTime}
    (hlow : 0 ≤ usedMilliseconds now.toTimespec s.beginTime)
    (hhigh : usedMilliseconds now.toTimespec s.beginTime ≤ s.timeout.toInt + 1) :
    (s.timeout - timeUsed now s).toInt =
      s.timeout.toInt - usedMilliseconds now.toTimespec s.beginTime := by
  have hmax := s.timeout.toInt_lt
  have hused : (timeUsed now s).toInt =
      (usedMilliseconds now.toTimespec s.beginTime).bmod (2 ^ 32) := Int32.toInt_ofInt
  rw [Int32.toInt_sub, hused, Int.sub_bmod_bmod]
  exact Int.bmod_eq_of_le (by omega) (by omega)

/-- The unsigned comparison takes a negative number for the largest one. -/
theorem toUInt32_le_iff {a b : Int32} (hb : 0 ≤ b) : a.toUInt32 ≤ b.toUInt32 ↔ 0 ≤ a ∧ a ≤ b := by
  have hvalue : ∀ x : Int32, x.toInt =
      if 2 * x.toUInt32.toNat < 2 ^ 32 then (x.toUInt32.toNat : Int)
      else (x.toUInt32.toNat : Int) - (2 ^ 32 : Nat) :=
    fun x => BitVec.toInt_eq_toNat_cond x.toBitVec
  have ha' := hvalue a
  have hb' := hvalue b
  have halt := a.toUInt32.toNat_lt
  have hblt := b.toUInt32.toNat_lt
  rw [Int32.le_iff_toInt_le, Int32.toInt_zero] at hb
  rw [UInt32.le_iff_toNat_le, Int32.le_iff_toInt_le, Int32.le_iff_toInt_le, Int32.toInt_zero]
  split at ha' <;> split at hb' <;> omega

/-! ### The limits -/

namespace Transmission

/-- The deadline is not later than `limit` milliseconds behind `since`, up to one millisecond. -/
def Within (deadline : Option Int) (since : Int) (limit : Int32) : Prop :=
  0 ≤ limit → ∃ d ∈ deadline, d < since + limit.toInt * millisecond + millisecond

/-- The deadline keeps both limits. -/
structure InTime (t : Transmission) : Prop where
  total : Within t.deadline t.start t.total
  response : Within t.deadline t.last t.session.responseTimeout

/-- Progress at `now` does not come behind the total limit that is still to be armed; and when bytes
are written with that limit armed, the response timeout ends before it. -/
structure OnTime (t : Transmission) (now : ClockTime) : Prop where
  notLate : 0 < t.session.timeout →
    nanoseconds now.toTimespec < t.start + t.total.toInt * millisecond + millisecond
  notArmed : t.sending = true → t.session.timeout = 0 → 0 ≤ t.total →
    0 ≤ t.session.responseTimeout ∧
      nanoseconds now.toTimespec + t.session.responseTimeout.toInt * millisecond <
        t.start + t.total.toInt * millisecond + millisecond

/-- The total limit is still to be armed: the response timeout is the shorter one. -/
structure Counting (t : Transmission) : Prop where
  response : 0 ≤ t.session.responseTimeout
  timeout : t.session.timeout = t.total
  begun : nanoseconds t.session.beginTime = t.start

/-- The invariant of a transmission. -/
structure Inv (t : Transmission) : Prop where
  inTime : t.InTime
  counting : t.session.timeout ≠ 0 → t.Counting
  ordered : t.start ≤ t.last
  begun : t.session.beginTime.nsec ≠ -1

variable {t t' : Transmission} {now : ClockTime}

theorem within_deadlineAt {limit timeout : Int32} {since : Int} (hpos : 0 ≤ limit → 0 ≤ timeout)
    (h : 0 ≤ limit → nanoseconds now.toTimespec + timeout.toInt * millisecond <
      since + limit.toInt * millisecond + millisecond) :
    Within (deadlineAt timeout now) since limit :=
  fun hlimit => ⟨_, by rw [deadlineAt, if_pos (hpos hlimit)]; rfl, h hlimit⟩

theorem Within.later {deadline : Option Int} {since later : Int} {limit : Int32}
    (h : Within deadline since limit) (hle : since ≤ later) : Within deadline later limit := by
  intro hlimit
  obtain ⟨d, hd, hlt⟩ := h hlimit
  exact ⟨d, hd, by omega⟩

theorem nsec_ne (now : ClockTime) : now.nsec ≠ -1 := by
  have := now.valid
  omega

/-! ### The begin -/

/-- `first_timeout` when the total limit, or no limit at all, comes first. -/
def Short (limit response : Int32) : Prop :=
  response < 0 ∨ limit.toUInt32 ≤ response.toUInt32

theorem Short.pos {limit response : Int32} (h : Short limit response) (hpos : 0 ≤ response) :
    0 ≤ limit ∧ limit.toInt ≤ response.toInt := by
  have hboth := (toUInt32_le_iff hpos).mp (h.resolve_left (Int32.not_lt.mpr hpos))
  exact ⟨hboth.1, Int32.le_iff_toInt_le.mp hboth.2⟩

theorem firstTimeout_short (now : ClockTime) {s : TransmissionSession}
    (h : Short s.timeout s.responseTimeout) : firstTimeout now s =
      (s.timeout, { s with timeout := 0, beginTime := { s.beginTime with nsec := 0 } }) :=
  if_pos h

theorem firstTimeout_long (now : ClockTime) {s : TransmissionSession}
    (h : ¬ Short s.timeout s.responseTimeout) :
    firstTimeout now s = (s.responseTimeout, { s with beginTime := now.toTimespec }) :=
  if_neg h

theorem inv_short {t : Transmission} (h : Short t.total t.session.responseTimeout)
    (htimeout : t.session.timeout = 0) (hbegun : t.session.beginTime.nsec = 0)
    (hstart : t.start = nanoseconds now.toTimespec) (hlast : t.last = nanoseconds now.toTimespec)
    (hdeadline : t.deadline = deadlineAt t.total now) : t.Inv := by
  refine ⟨⟨?_, ?_⟩, fun hne => absurd htimeout hne, by omega, by omega⟩
  · rw [hdeadline]
    exact within_deadlineAt (fun h0 => h0) fun _ => by unfold millisecond; omega
  · rw [hdeadline]
    refine within_deadlineAt (fun hpos => (h.pos hpos).1) fun hpos => ?_
    have hle := (h.pos hpos).2
    unfold millisecond
    omega

theorem inv_long {t : Transmission} (h : ¬ Short t.total t.session.responseTimeout)
    (htimeout : t.session.timeout = t.total) (hbegin : t.session.beginTime = now.toTimespec)
    (hstart : t.start = nanoseconds now.toTimespec) (hlast : t.last = nanoseconds now.toTimespec)
    (hdeadline : t.deadline = deadlineAt t.session.responseTimeout now) : t.Inv := by
  have hpos : 0 ≤ t.session.responseTimeout := Int32.not_lt.mp fun hneg => h (.inl hneg)
  refine ⟨⟨?_, ?_⟩, fun _ => ⟨hpos, htimeout, by rw [hbegin, hstart]⟩, by omega,
    by rw [hbegin]; exact nsec_ne now⟩
  · rw [hdeadline]
    refine within_deadlineAt (fun _ => hpos) fun hlimit => ?_
    have hle : t.session.responseTimeout.toInt ≤ t.total.toInt := by
      rw [← Int32.le_iff_toInt_le]
      refine Int32.le_of_lt (Int32.not_le.mp fun hle => h (.inr ?_))
      exact (toUInt32_le_iff hpos).mpr ⟨hlimit, hle⟩
    unfold millisecond
    omega
  · rw [hdeadline]
    exact within_deadlineAt (fun _ => hpos) fun _ => by unfold millisecond; omega

theorem inv_begin (sending : Bool) (now : ClockTime) (s : TransmissionSession) :
    (begin sending now s).Inv := by
  cases sending with
  | true =>
      unfold begin
      by_cases h : Short s.sendTimeout s.responseTimeout
      · rw [if_pos rfl, firstTimeoutSend, firstTimeout_short now h]
        exact inv_short h rfl rfl rfl rfl rfl
      · rw [if_pos rfl, firstTimeoutSend, firstTimeout_long now h]
        exact inv_long h rfl rfl rfl rfl rfl
  | false =>
      unfold begin
      by_cases h : Short s.receiveTimeout s.responseTimeout
      · rw [if_neg (by decide), firstTimeoutRecv, firstTimeout_short now h]
        exact inv_short h rfl rfl rfl rfl rfl
      · rw [if_neg (by decide), firstTimeoutRecv, firstTimeout_long now h]
        exact inv_long h rfl rfl rfl rfl rfl

/-! ### Progress -/

/-- What is left of the total limit at `now`, while it is still to be armed. -/
theorem Counting.toInt_timeLeft (h : t.Counting)
    (hnow : t.start ≤ nanoseconds now.toTimespec)
    (hlate : nanoseconds now.toTimespec < t.start + t.total.toInt * millisecond + millisecond) :
    (t.session.timeout - timeUsed now t.session).toInt =
        t.total.toInt - usedMilliseconds now.toTimespec t.session.beginTime ∧
      nanoseconds now.toTimespec +
          (t.session.timeout - timeUsed now t.session).toInt * millisecond <
        t.start + t.total.toInt * millisecond + millisecond := by
  obtain ⟨hlow, hhigh⟩ := usedMilliseconds_near now.toTimespec t.session.beginTime
  rw [h.begun] at hlow hhigh
  have htimeout := congrArg Int32.toInt h.timeout
  have hleft := @Kernel.toInt_timeLeft t.session now
    (by unfold millisecond at *; omega) (by unfold millisecond at *; omega)
  rw [htimeout] at hleft
  refine ⟨hleft, ?_⟩
  rw [hleft]
  unfold millisecond at *
  omega

/-- `next_timeout` with the total limit still to be armed. -/
theorem Inv.counted (h : t.Inv) (hcount : t.session.timeout ≠ 0)
    (hnow : t.last ≤ nanoseconds now.toTimespec)
    (hlate : 0 < t.session.timeout →
      nanoseconds now.toTimespec < t.start + t.total.toInt * millisecond + millisecond) :
    Inv { t with
      session := (nextTimeout now t.session).2
      last := nanoseconds now.toTimespec
      deadline := deadlineAt (nextTimeout now t.session).1 now } := by
  have hcounting := h.counting hcount
  have hordered := h.ordered
  have hr := hcounting.response
  have hmillisecond : 0 < millisecond := by decide
  unfold nextTimeout
  split
  · rename_i hpos
    obtain ⟨hleft, hbound⟩ := hcounting.toInt_timeLeft (by omega) (hlate hpos)
    dsimp only
    split
    · -- the total limit is armed
      rename_i hle
      rw [Int32.le_iff_toInt_le] at hle hr
      rw [Int32.toInt_zero] at hr
      refine ⟨⟨?_, ?_⟩, fun h => absurd rfl h, Int.le_trans hordered hnow, h.begun⟩
      · refine within_deadlineAt (fun _ => ?_) fun _ => ?_
        · split
          · exact Int32.le_refl 0
          · rename_i h0
            exact Int32.not_lt.mp h0
        · split
          · rw [Int32.toInt_zero, Int.zero_mul, Int.add_zero]
            exact hlate hpos
          · exact hbound
      · refine within_deadlineAt (fun _ => ?_) fun _ => ?_
        · split
          · exact Int32.le_refl 0
          · rename_i h0
            exact Int32.not_lt.mp h0
        · split
          · rw [Int32.toInt_zero]
            unfold millisecond at *
            dsimp only
            omega
          · unfold millisecond at *
            dsimp only
            omega
    · -- the response timeout is the shorter one
      rename_i hgt
      have hlt := Int32.not_le.mp hgt
      rw [Int32.lt_iff_toInt_lt] at hlt
      refine ⟨⟨within_deadlineAt (fun _ => hr) fun _ => ?_,
        within_deadlineAt (fun _ => hr) fun _ => by dsimp only; omega⟩,
        fun _ => ⟨hr, hcounting.timeout, hcounting.begun⟩, Int.le_trans hordered hnow, h.begun⟩
      unfold millisecond at *
      dsimp only [Transmission.total] at *
      omega
  · -- no total limit
    rename_i hneg
    refine ⟨⟨fun h0 => ?_, within_deadlineAt (fun _ => hr) fun _ => by dsimp only; omega⟩,
      fun _ => ⟨hr, hcounting.timeout, hcounting.begun⟩, Int.le_trans hordered hnow, h.begun⟩
    refine absurd ?_ hneg
    rw [hcounting.timeout]
    exact Int32.lt_of_le_of_ne h0 fun h0 => hcount (hcounting.timeout.trans h0.symm)

/-- A step keeps the invariant. -/
theorem Inv.exec (h : t.Inv) (hok : t.OnTime now) (hexec : t.exec now = some t') : t'.Inv := by
  unfold Transmission.exec at hexec
  split at hexec
  swap
  · cases hexec
  rename_i hnow
  have hmillisecond : 0 < millisecond := by decide
  by_cases hcount : t.session.timeout = 0
  · by_cases hsending : t.sending = true
    · -- `partial_written` with the total limit armed
      have hnext : nextTimeout now t.session = (t.session.responseTimeout, t.session) := by
        unfold nextTimeout
        rw [hcount, if_neg (by decide)]
      rw [if_pos hsending, TransmissionSession.partialWritten, hnext] at hexec
      obtain rfl := Option.some.inj hexec
      refine ⟨⟨within_deadlineAt (fun h0 => (hok.notArmed hsending hcount h0).1) fun h0 =>
        (hok.notArmed hsending hcount h0).2, within_deadlineAt (fun h0 => h0) fun _ => ?_⟩,
        fun hne => absurd hcount hne, Int.le_trans h.ordered hnow, h.begun⟩
      dsimp only
      omega
    · -- `append` leaves the deadline alone
      rw [if_neg hsending, TransmissionSession.append, if_neg (by decide),
        if_neg fun hboth => hboth.2 hcount] at hexec
      obtain rfl := Option.some.inj hexec
      exact ⟨⟨h.inTime.total, h.inTime.response.later hnow⟩, fun hne => absurd hcount hne,
        Int.le_trans h.ordered hnow, h.begun⟩
  · have hinv := h.counted hcount hnow hok.notLate
    by_cases hsending : t.sending = true
    · rw [if_pos hsending, TransmissionSession.partialWritten] at hexec
      obtain rfl := Option.some.inj hexec
      exact hinv
    · rw [if_neg hsending, TransmissionSession.append, if_neg (by decide), if_pos ⟨rfl, hcount⟩,
        if_neg h.begun] at hexec
      obtain rfl := Option.some.inj hexec
      exact hinv

end Transmission

open Transmission

/-! ### The limits over a transmission -/

/-- In every transmission whose progress is on time, the deadline keeps both limits. -/
theorem transmission_in_time {t : Transmission} (h : Reachable machine OnTime t) : t.InTime := by
  refine (Reachable.invariant (P := Inv) ?_ ?_ h).inTime
  · rintro t ⟨sending, now, s, rfl⟩
    exact inv_begin sending now s
  · intro t now t' hinv hok hstep
    exact hinv.exec hok hstep

/-- A clock that says `millis` milliseconds behind its first second. -/
def clockAt (millis : Fin 1000) : ClockTime where
  sec := 1
  nsec := millis.val * 1000000
  valid := by
    have := millis.isLt
    omega

/-- A session that is to be sent within `total` milliseconds. -/
def sendingSession (total response : Int32) : TransmissionSession where
  sendTimeout := total
  receiveTimeout := -1
  responseTimeout := response
  timeout := 0
  beginTime := { sec := 0, nsec := -1 }

/-- The same for 600 milliseconds with a response timeout of 400: the second progress arms what is
left of the 600. -/
theorem transmission_in_time_armed :
    InTime { session := { sendingSession 600 400 with beginTime := (clockAt 0).toTimespec }
             sending := true
             start := 1000000000
             last := 1300000000
             deadline := some 1600000000 } :=
  transmission_in_time <|
    .step (.init ⟨true, clockAt 0, sendingSession 600 400, rfl⟩)
      (a := clockAt 300) ⟨by decide, by decide⟩ rfl

/-- A session of 100 milliseconds with a response timeout of 500: a write at 50 milliseconds puts
the deadline to 550. -/
theorem limit_lost : ¬ ∀ t, Reachable machine (fun _ _ => True) t → t.InTime := by
  intro h
  have hrun := h _ (.step (.init ⟨true, clockAt 0, sendingSession 100 500, rfl⟩) (a := clockAt 50)
    trivial rfl)
  obtain ⟨d, hd, hlt⟩ := hrun.total (by decide)
  obtain rfl := Option.some.inj hd
  exact absurd hlt (by decide)

end Workflow.Kernel

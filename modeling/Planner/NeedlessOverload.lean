import Planner.CandidateOffers
import Planner.PlacementTurns
import Planner.PlainPlan

/-! The race between candidates compares dates alone, and a dump has early dates.
When nobody who can hold the task is passed over for somebody who cannot. -/

namespace Planner

open CapacityIndex

section Race

variable (task : Task) (cal : WorkingCalendar) (free : UUID → Date → Int) (start stop : Date)

/-- The candidate is given the first day: there is room on it, or no room at all. -/
def StartsAtOnce (pid : UUID) : Prop :=
  CanHold task pid cal free start stop → WouldBook task pid cal free start stop start

/-- `r` starts at once, and books no day after the last one that `pid` would book. -/
def NotAfter (r pid : UUID) : Prop :=
  StartsAtOnce task cal free start stop r ∧ ∀ d, WouldBook task r cal free start stop d → start < d →
    ∃ e, WouldBook task pid cal free start stop e ∧ d ≤ e

/-- `r` starts at once, and is done before the last day that `pid` would book. -/
def DoneBefore (r pid : UUID) : Prop :=
  StartsAtOnce task cal free start stop r ∧ ∃ e, start < e ∧ WouldBook task pid cal free start stop e ∧
    ∀ d, WouldBook task r cal free start stop d → d < e

/-- Who cannot hold the task, and is not over his ceiling on the first day as it
is, loses to somebody: of higher priority and not after him, or done before him. -/
def DumpsLose (allowed : List Person) : Prop :=
  ∀ pre c post, allowed = pre ++ c :: post → ¬ CanHold task c.id cal free start stop → 0 ≤ free c.id start →
    (∃ r ∈ pre, NotAfter task cal free start stop r.id c.id) ∨
      ∃ r ∈ post, DoneBefore task cal free start stop r.id c.id

end Race

section Offers

variable {task : Task} {cal : WorkingCalendar} {free : UUID → Date → Int} {start stop : Date} {r c : UUID}
  {p q : Placement}

theorem Offer.startsAtOnce_iff (h : Offer task r cal free start stop p) :
    StartsAtOnce task cal free start stop r ↔ p.startDate = start := by
  constructor
  · intro honce
    by_cases hcan : CanHold task r cal free start stop
    · exact le_antisymm (h.covers start (honce hcan)).1 h.from_start
    · exact (h.dumps hcan).1
  · intro he hcan
    exact he ▸ (h.holds hcan).1

/-- The last day is booked, unless it is the first. -/
theorem Offer.end_booked (h : Offer task r cal free start stop p) (hlate : start < p.endDate) :
    WouldBook task r cal free start stop p.endDate := by
  by_cases hcan : CanHold task r cal free start stop
  · exact (h.holds hcan).2
  · exact (h.dumps hcan).2.resolve_left hlate.ne'

theorem Offer.notAfter_iff (hr : Offer task r cal free start stop p) (hc : Offer task c cal free start stop q)
    (hno : ¬ CanHold task c cal free start stop) :
    NotAfter task cal free start stop r c ↔ ¬ q.Before p := by
  have hq : q.startDate = start := (hc.dumps hno).1
  have hle := q.start_le
  have hfrom := hr.from_start
  rw [NotAfter, hr.startsAtOnce_iff, Placement.Before, hq]
  constructor
  · rintro ⟨hp, hdays⟩
    rintro (hlt | ⟨-, hlt⟩)
    · exact absurd hp hlt.ne'
    · have hlate : start < p.endDate := (hq ▸ hle).trans_lt hlt
      obtain ⟨e, he, hpe⟩ := hdays _ (hr.end_booked hlate) hlate
      exact absurd hlt (not_lt.mpr (hpe.trans (hc.covers e he).2))
  · intro hbefore
    have hp : p.startDate = start := le_antisymm (not_lt.mp fun hlt => hbefore (Or.inl hlt)) hfrom
    have hend : p.endDate ≤ q.endDate := not_lt.mp fun hlt => hbefore (Or.inr ⟨hp.symm, hlt⟩)
    refine ⟨hp, fun d hd hlate => ⟨q.endDate, hc.end_booked ?_, (hr.covers d hd).2.trans hend⟩⟩
    exact hlate.trans_le ((hr.covers d hd).2.trans hend)

theorem Offer.doneBefore_iff (hr : Offer task r cal free start stop p) (hc : Offer task c cal free start stop q)
    (hno : ¬ CanHold task c cal free start stop) :
    DoneBefore task cal free start stop r c ↔ p.Before q := by
  have hq : q.startDate = start := (hc.dumps hno).1
  have hfrom := hr.from_start
  rw [DoneBefore, hr.startsAtOnce_iff, Placement.Before, hq]
  constructor
  · rintro ⟨hp, e, hlate, he, hdays⟩
    refine Or.inr ⟨hp, ?_⟩
    have hend : e ≤ q.endDate := (hc.covers e he).2
    rcases Nat.lt_or_ge start p.endDate with hlt | hge
    · exact (hdays _ (hr.end_booked hlt)).trans_le hend
    · exact (hge.trans_lt hlate).trans_le hend
  · rintro (hlt | ⟨hp, hlt⟩)
    · exact absurd hlt (not_lt.mpr hfrom)
    · have hlate : start < q.endDate := (hp ▸ p.start_le).trans_lt hlt
      exact ⟨hp, q.endDate, hlate, hc.end_booked hlate, fun d hd => (hr.covers d hd).2.trans_lt hlt⟩

theorem Offer.start_lt (h : Offer task r cal free start stop p) (hcan : CanHold task r cal free start stop) :
    start < stop := by
  obtain ⟨⟨hle, hlt⟩, -⟩ := (h.holds hcan).1
  exact hle.trans_lt hlt

end Offers

section Winner

variable {task : Task} {earliest : Date} {cal : WorkingCalendar} {free : UUID → Date → Int} {limit : Date}
  {allowed : List Person} {person : Person} {p : Placement}

theorem Wins.offers (h : Wins task earliest cal free limit allowed person p) {c : Person} (hc : c ∈ allowed) :
    ∃ q, placementOf task c.id earliest cal free limit = .ok q := by
  obtain ⟨pre, post, rfl, hp, hpre, hpost⟩ := h
  rcases List.mem_append.mp hc with hc | hc
  · obtain ⟨q, hq, -⟩ := hpre c hc
    exact ⟨q, hq⟩
  · rcases List.mem_cons.mp hc with rfl | hc
    · exact ⟨p, hp⟩
    · obtain ⟨q, hq, -⟩ := hpost c hc
      exact ⟨q, hq⟩

theorem Wins.unique (h : Wins task earliest cal free limit allowed person p) {c : Person} {q : Placement}
    (h' : Wins task earliest cal free limit allowed c q) : c = person ∧ q = p := by
  obtain ⟨pre, post, he, hp, hpre, hpost⟩ := h
  obtain ⟨pre', post', he', hq, hpre', hpost'⟩ := h'
  rcases List.append_eq_append_iff.mp (he.symm.trans he') with ⟨l, hl, hr⟩ | ⟨l, hl, hr⟩
  · cases l with
    | nil =>
      obtain ⟨rfl, rfl⟩ := List.cons.inj hr
      exact ⟨rfl, Except.ok.inj (hq.symm.trans hp)⟩
    | cons b l =>
      -- the second winner stands behind the first
      obtain ⟨rfl, rfl⟩ := List.cons.inj hr
      obtain ⟨r, hr', hbefore⟩ := hpre' person (by simp [hl])
      obtain ⟨r', hr'', hnot⟩ := hpost c (by simp)
      obtain rfl := Except.ok.inj (hr'.symm.trans hp)
      obtain rfl := Except.ok.inj (hr''.symm.trans hq)
      exact absurd hbefore hnot
  · cases l with
    | nil =>
      obtain ⟨rfl, rfl⟩ := List.cons.inj hr
      exact ⟨rfl, Except.ok.inj (hq.symm.trans hp)⟩
    | cons b l =>
      obtain ⟨rfl, rfl⟩ := List.cons.inj hr
      obtain ⟨r, hr', hbefore⟩ := hpre c (by simp [hl])
      obtain ⟨r', hr'', hnot⟩ := hpost' person (by simp)
      obtain rfl := Except.ok.inj (hr'.symm.trans hq)
      obtain rfl := Except.ok.inj (hr''.symm.trans hp)
      exact absurd hbefore hnot

/-- When somebody can hold the task, the winner stays within the ceilings
exactly if every dump loses. -/
theorem Wins.staysWithin_iff (h : Wins task earliest cal free limit allowed person p)
    (hsome : ∃ c ∈ allowed, CanHold task c.id cal free (firstWorkingDay cal earliest) (limit + 1)) :
    StaysWithin free p.allocs ↔ DumpsLose task cal free (firstWorkingDay cal earliest) (limit + 1) allowed := by
  have hrange : firstWorkingDay cal earliest < limit + 1 := by
    obtain ⟨c, hc, hcan⟩ := hsome
    obtain ⟨q, hq⟩ := h.offers hc
    exact (placementOf_offer hq).start_lt hcan
  constructor
  · intro hwithin pre c post he hno hfree
    obtain ⟨q, hq⟩ := h.offers (he ▸ List.mem_append_right pre List.mem_cons_self)
    by_contra hlose
    rw [not_or] at hlose
    -- nobody beats this candidate, so the race is won by a dump
    have hwins : Wins task earliest cal free limit allowed c q := by
      refine ⟨pre, post, he, hq, fun d hd => ?_, fun d hd => ?_⟩
      · obtain ⟨r, hr⟩ := h.offers (he ▸ List.mem_append_left _ hd)
        refine ⟨r, hr, not_not.mp fun hbefore => hlose.1 ⟨d, hd, ?_⟩⟩
        exact ((placementOf_offer hr).notAfter_iff (placementOf_offer hq) hno).mpr hbefore
      · obtain ⟨r, hr⟩ := h.offers (he ▸ List.mem_append_right pre (List.mem_cons_of_mem _ hd))
        refine ⟨r, hr, fun hbefore => hlose.2 ⟨d, hd, ?_⟩⟩
        exact ((placementOf_offer hr).doneBefore_iff (placementOf_offer hq) hno).mpr hbefore
    obtain ⟨rfl, rfl⟩ := h.unique hwins
    rcases ((placementOf_offer hq).within_iff hrange).mp hwithin with hcan | hover
    · exact hno hcan
    · omega
  · intro hlose
    obtain ⟨pre, post, he, hp, hpre, hpost⟩ := h
    refine ((placementOf_offer hp).within_iff hrange).mpr ?_
    by_contra hdump
    rw [not_or, not_lt] at hdump
    rcases hlose pre person post he hdump.1 hdump.2 with ⟨d, hd, hafter⟩ | ⟨d, hd, hdone⟩
    · obtain ⟨r, hr, hbefore⟩ := hpre d hd
      exact ((placementOf_offer hr).notAfter_iff (placementOf_offer hp) hdump.1).mp hafter hbefore
    · obtain ⟨r, hr, hnot⟩ := hpost d hd
      exact hnot (((placementOf_offer hr).doneBefore_iff (placementOf_offer hp) hdump.1).mp hdone)

end Winner

/-- The step takes nobody past a ceiling he was within. -/
def OverloadsNobody (before after : PlanState) : Prop :=
  ∀ pid d, after.idx.baseCapacity pid d < after.idx.usedOn pid d →
    before.idx.baseCapacity pid d < before.idx.usedOn pid d

/-- Some candidate can hold the task at its turn. -/
def SomebodyCanHold (s : GreedySolver) (req : PlanRequest) (task : Task) (before : PlanState) : Prop :=
  ∃ c ∈ allowedPeople req task, CanHold task c.id s.calendar before.idx.free
    (firstWorkingDay s.calendar (earliestAt s req task before)) (horizonLimit req + 1)

section Turns

variable {s : GreedySolver} {req : PlanRequest} {res : PlanResult} {task : Task} {before after : PlanState}

theorem PlacementTurn.overloadsNobody_iff {p : Placement} {person : Person} {idx : CapacityIndex}
    (hl : SameLoad before.idx idx)
    (hafter : after = ⟨idx.occupy p.allocs, before.assignments.insert task.id (p.toAssignment task.id person)⟩) :
    OverloadsNobody before after ↔ StaysWithin before.idx.free p.allocs := by
  have hover : ∀ (st : PlanState) pid d,
      st.idx.baseCapacity pid d < st.idx.usedOn pid d ↔ st.idx.free pid d < 0 := by
    intro st pid d
    rw [free]
    omega
  refine forall₂_congr fun pid d => ?_
  rw [hover, hover, PlacementTurn.free_eq hl hafter]
  omega

/-- A single placement makes no needless overload exactly if no dump wins the
race against somebody who can hold the task. -/
theorem turn_overloadsNobody_iff (h : PlacementTurn s req res task before after)
    (hw : task.durationIsWindow = false)
    (hpair : ¬ (task.pairMode = .required ∧ 2 ≤ (allowedPeople req task).length)) :
    (SomebodyCanHold s req task before → OverloadsNobody before after) ↔
      (SomebodyCanHold s req task before → DumpsLose task s.calendar before.idx.free
        (firstWorkingDay s.calendar (earliestAt s req task before)) (horizonLimit req + 1)
        (allowedPeople req task)) := by
  obtain ⟨person, p, idx, hpl, hl, hafter⟩ := h.placed
  refine imp_congr_right fun hsome => ?_
  rw [PlacementTurn.overloadsNobody_iff hl hafter]
  cases hpl with
  | window hw' => exact absurd hw' (by simp [hw])
  | pair _ hm ha => exact absurd ⟨hm, by simp [ha]⟩ hpair
  | single _ _ hwin => exact hwin.staysWithin_iff hsome

end Turns

/-- The estimate takes a whole day. The first candidate is off on Monday and has
Tuesday for it, the second works half days. -/
def estimateTask : Task where
  id := 7
  name := "Смета"
  durationHours := 8
  allowedPersonIds := [2, 1]

def estimateRequest : PlanRequest where
  people := [⟨1, "Half days", 4⟩, ⟨2, "Full days", 8⟩]
  tasks := [estimateTask]
  dependencies := []
  horizonStart := Date.ofYmd 2026 6 1
  dayOverrides := [⟨2, Date.ofYmd 2026 6 1, 0⟩]

theorem exists_estimateTurn : ∃ res after, PlacementTurn GreedySolver.onWeekdays estimateRequest res estimateTask
    (startState GreedySolver.onWeekdays.calendar estimateRequest) after := by
  have hplain : estimateRequest.Plain := by
    refine ⟨by decide, rfl, rfl, by decide, fun t ht => ?_⟩
    rw [List.mem_singleton.mp ht]
    constructor <;> decide
  obtain ⟨res, hplan⟩ := plain_plan_ok GreedySolver.onWeekdays hplain
  obtain ⟨before, after, h⟩ := exists_placementTurn hplan (t := estimateTask) List.mem_cons_self (by decide)
    (by decide)
  have hbefore : before = startState GreedySolver.onWeekdays.calendar estimateRequest := by
    obtain ⟨order, pre, post, final, hrun, he, hpre, -⟩ := h.pass
    have horder : order = [7] := Option.some.inj (hrun.symm.trans (by decide +kernel))
    rw [horder] at he
    cases pre with
    | nil => exact (Except.ok.inj hpre).symm
    | cons t pre => simp at he
  exact ⟨res, after, hbefore ▸ h⟩

theorem turn_overloadsNobody_iff_estimate : ∃ before after,
    ((SomebodyCanHold GreedySolver.onWeekdays estimateRequest estimateTask before → OverloadsNobody before after) ↔
      (SomebodyCanHold GreedySolver.onWeekdays estimateRequest estimateTask before →
        DumpsLose estimateTask GreedySolver.onWeekdays.calendar before.idx.free
          (firstWorkingDay GreedySolver.onWeekdays.calendar
            (earliestAt GreedySolver.onWeekdays estimateRequest estimateTask before))
          (horizonLimit estimateRequest + 1) (allowedPeople estimateRequest estimateTask))) := by
  obtain ⟨res, after, h⟩ := exists_estimateTurn
  exact ⟨_, after, turn_overloadsNobody_iff h rfl (by decide)⟩

/-- Tuesday was free, and Monday is booked for twice its hours. -/
theorem room_passed_over : ∃ s req res task before after, PlacementTurn s req res task before after ∧
    task.status ≠ .done ∧ task.durationIsWindow = false ∧
    ¬ (task.pairMode = .required ∧ 2 ≤ (allowedPeople req task).length) ∧
    SomebodyCanHold s req task before ∧ ¬ OverloadsNobody before after := by
  obtain ⟨res, after, h⟩ := exists_estimateTurn
  refine ⟨_, _, res, _, _, after, h, by decide, rfl, by decide, ?_, ?_⟩
  · refine ⟨⟨2, "Full days", 8⟩, by decide, (canHold_whole rfl).mpr ⟨Date.ofYmd 2026 6 2, ?_⟩⟩
    decide +kernel
  · obtain ⟨person, p, idx, hpl, hl, hafter⟩ := h.placed
    rw [PlacementTurn.overloadsNobody_iff hl hafter]
    have hplace : ∀ pid d, (firstFit GreedySolver.onWeekdays.calendar
          (startState GreedySolver.onWeekdays.calendar estimateRequest).idx.free [pid] 8 366
          (Date.ofYmd 2026 6 1)).getD (Date.ofYmd 2026 6 1) = d →
        placementOf estimateTask pid (earliestAt GreedySolver.onWeekdays estimateRequest estimateTask
          (startState GreedySolver.onWeekdays.calendar estimateRequest)) GreedySolver.onWeekdays.calendar
          (startState GreedySolver.onWeekdays.calendar estimateRequest).idx.free (horizonLimit estimateRequest) =
        .ok (.onDay [pid] d 8) := by
      rintro pid d rfl
      exact placementOf_whole rfl
    have hhalf := hplace 1 (Date.ofYmd 2026 6 1) (by decide +kernel)
    have hfull := hplace 2 (Date.ofYmd 2026 6 2) (by decide +kernel)
    cases hpl with
    | window hw => cases hw
    | pair _ hm => cases hm
    | single _ _ hwin =>
      have hbeaten : ∀ c ∈ [(⟨2, "Full days", 8⟩ : Person)], ∃ q, placementOf estimateTask c.id
          (earliestAt GreedySolver.onWeekdays estimateRequest estimateTask
            (startState GreedySolver.onWeekdays.calendar estimateRequest)) GreedySolver.onWeekdays.calendar
          (startState GreedySolver.onWeekdays.calendar estimateRequest).idx.free (horizonLimit estimateRequest) =
            .ok q ∧ (Placement.onDay [1] (Date.ofYmd 2026 6 1) 8).Before q := by
        intro c hc
        obtain rfl := List.mem_singleton.mp hc
        exact ⟨_, hfull, Or.inl (by decide)⟩
      obtain ⟨-, rfl⟩ := hwin.unique (c := ⟨1, "Half days", 4⟩) ⟨_, [], by decide, hhalf, hbeaten, by simp⟩
      intro hwithin
      exact absurd (hwithin 1 (Date.ofYmd 2026 6 1) (by decide +kernel)) (by decide +kernel)

end Planner

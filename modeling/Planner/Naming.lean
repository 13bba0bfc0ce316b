import Planner.Lib.Renaming
import Planner.RowOrder

/-! Two requests whose tasks and people go by other ids. As long as the free
hours that the solver may look at are the same, it takes the same decisions
under the other names. -/

namespace Planner

/-- Other ids for people and tasks, distinct where the old ones are. -/
structure Naming where
  person : UUID → UUID
  task : UUID → UUID
  person_injective : person.Injective
  task_injective : task.Injective

section Renamed

variable (n : Naming)

def Person.renamed (p : Person) : Person := { p with id := n.person p.id }

def Task.renamed (t : Task) : Task :=
  { t with
    id := n.task t.id
    allowedPersonIds := t.allowedPersonIds.map n.person
    fixedAssigneeId := t.fixedAssigneeId.map n.person }

def Dependency.renamed (d : Dependency) : Dependency :=
  { d with taskId := n.task d.taskId, dependsOnId := n.task d.dependsOnId }

def DayOverride.renamed (o : DayOverride) : DayOverride := { o with personId := n.person o.personId }

def DayAllocation.renamed (a : DayAllocation) : DayAllocation := { a with personId := n.person a.personId }

def Assignment.renamed (a : Assignment) : Assignment :=
  { a with
    taskId := n.task a.taskId
    personId := n.person a.personId
    allocations := a.allocations.map (DayAllocation.renamed n) }

def RiskFlag.renamed (r : RiskFlag) : RiskFlag :=
  { r with taskId := r.taskId.map n.task, personId := r.personId.map n.person }

def PlanRequest.renamed (req : PlanRequest) : PlanRequest :=
  { req with
    people := req.people.map (Person.renamed n)
    tasks := req.tasks.map (Task.renamed n)
    dependencies := req.dependencies.map (Dependency.renamed n)
    dayOverrides := req.dayOverrides.map (DayOverride.renamed n)
    existingAllocations := req.existingAllocations.map (DayAllocation.renamed n) }

def PlanResult.renamed (res : PlanResult) : PlanResult :=
  { res with
    assignments := res.assignments.map (Assignment.renamed n)
    risks := res.risks.map (RiskFlag.renamed n) }

def Placement.renamed (p : Placement) : Placement where
  allocs := p.allocs.map (DayAllocation.renamed n)
  startDate := p.startDate
  endDate := p.endDate
  start_le := p.start_le
  within a ha := by
    obtain ⟨b, hb, rfl⟩ := List.mem_map.mp ha
    exact p.within b hb

/-- The same person under the other name. -/
def Naming.Same (c c' : Person) : Prop := c'.id = n.person c.id

end Renamed

variable {n : Naming}

theorem spanning_renamed (as : List DayAllocation) :
    Placement.spanning (as.map (DayAllocation.renamed n)) = (Placement.spanning as).map (Placement.renamed n) := by
  have hdays : (as.map (DayAllocation.renamed n)).map DayAllocation.day = as.map DayAllocation.day := by
    rw [List.map_map]
    rfl
  unfold Placement.spanning
  split
  · rename_i s e hs he
    rw [hdays] at hs he
    split
    · rename_i s' e' hs' he'
      obtain rfl : s' = s := Option.some.inj (hs'.symm.trans hs)
      obtain rfl : e' = e := Option.some.inj (he'.symm.trans he)
      rfl
    · rename_i hno
      exact absurd he (hno s e hs)
  · rename_i hno
    split
    · rename_i s e hs he
      exact absurd (hdays ▸ he) (hno s e (hdays ▸ hs))
    · rfl

theorem onDay_renamed (ps : List UUID) (day : Date) (hours : Int) :
    Placement.onDay (ps.map n.person) day hours = (Placement.onDay ps day hours).renamed n := by
  simp only [Placement.onDay, Placement.renamed, List.map_map]
  rfl

theorem Placement.before_renamed (p q : Placement) : (p.renamed n).Before (q.renamed n) ↔ p.Before q := Iff.rfl

/-- What `assert best is not None` makes of the race. -/
def settle : Except PlanError (Option (Placement × Person) × CapacityIndex) →
    Except PlanError (Placement × Person × CapacityIndex)
  | .error e => .error e
  | .ok (none, _) => .error .noCandidate
  | .ok (some (p, person), idx) => .ok (p, person, idx)

section Ways

variable {task : Task} {earliest limit : Date} {cal : WorkingCalendar} {idx : CapacityIndex}

theorem placeOn_window_nil (hw : task.durationIsWindow = true) :
    placeOn task earliest [] cal idx limit = .error .noCandidate := by
  unfold placeOn
  rw [if_pos hw]

theorem placeOn_window (hw : task.durationIsWindow = true) (person : Person) (rest : List Person) :
    placeOn task earliest (person :: rest) cal idx limit = .ok (allocateWindow task earliest cal, person, idx) := by
  unfold placeOn
  rw [if_pos hw]

theorem placeOn_pair (hw : ¬ task.durationIsWindow = true) (hm : task.pairMode = .required) (p1 p2 : Person)
    (rest : List Person) : placeOn task earliest (p1 :: p2 :: rest) cal idx limit =
      .ok ((allocatePair task p1 p2 earliest cal idx limit).1, p1,
        (allocatePair task p1 p2 earliest cal idx limit).2) := by
  unfold placeOn
  rw [if_neg hw, hm]

theorem placeOn_race {allowed : List Person} (hw : ¬ task.durationIsWindow = true)
    (hm : ¬ (task.pairMode = .required ∧ 2 ≤ allowed.length)) : placeOn task earliest allowed cal idx limit =
      settle (bestCandidate task earliest cal limit allowed none idx) := by
  unfold placeOn
  rw [if_neg hw]
  split
  · rename_i p1 p2 rest hreq
    exact absurd ⟨hreq, by simp⟩ hm
  · rename_i allowed _ _ _
    rcases bestCandidate task earliest cal limit allowed none idx with e | ⟨_ | ⟨p, person⟩, i⟩
    · rfl
    · rfl
    · rfl

end Ways

/-- A relation between the indexes of two runs that looking for a place keeps, as
long as only `known` people are looked up, and under which their free hours on
the working days from `start` on are the same. -/
structure Naming.SameSearch (n : Naming) (cal : WorkingCalendar) (start : Date) (known : UUID → Prop)
    (R : CapacityIndex → CapacityIndex → Prop) : Prop where
  free : ∀ {idx idx' : CapacityIndex} {p : UUID} {d : Date}, R idx idx' → known p → start ≤ d →
    cal.isWorkingDay d = true → idx'.free (n.person p) d = idx.free p d
  touch : ∀ {idx idx' : CapacityIndex} {p : UUID} (d : Date), R idx idx' → known p →
    R (idx.touch p d) (idx'.touch (n.person p) d)

/-- Booking keeps it, too. -/
structure Naming.Indistinct (n : Naming) (cal : WorkingCalendar) (start : Date) (known : UUID → Prop)
    (R : CapacityIndex → CapacityIndex → Prop) : Prop extends n.SameSearch cal start known R where
  occupy : ∀ {idx idx' : CapacityIndex} (as : List DayAllocation), R idx idx' →
    R (idx.occupy as) (idx'.occupy (as.map (DayAllocation.renamed n)))

namespace Naming.SameSearch

open CapacityIndex

variable {cal : WorkingCalendar} {start : Date} {known : UUID → Prop} {R : CapacityIndex → CapacityIndex → Prop}
  {idx idx' : CapacityIndex}

theorem fitsAll (hR : n.SameSearch cal start known R) (h : R idx idx') {ps : List UUID} (hps : ∀ p ∈ ps, known p)
    {day : Date} (hday : start ≤ day) (hw : cal.isWorkingDay day = true) (hours : Int) :
    (Planner.fitsAll idx' (ps.map n.person) day hours).1 = (Planner.fitsAll idx ps day hours).1 ∧
      R (Planner.fitsAll idx ps day hours).2 (Planner.fitsAll idx' (ps.map n.person) day hours).2 := by
  induction ps generalizing idx idx' with
  | nil => exact ⟨rfl, h⟩
  | cons p ps ih =>
    have hfree := hR.free h (hps p List.mem_cons_self) hday hw
    have hr : idx.remaining p day = (idx.free p day, idx.touch p day) := rfl
    have hr' : idx'.remaining (n.person p) day = (idx'.free (n.person p) day, idx'.touch (n.person p) day) := rfl
    simp only [List.map_cons, Planner.fitsAll, hr, hr', hfree]
    split
    · exact ih (hR.touch day h (hps p List.mem_cons_self)) fun q hq => hps q (List.mem_cons_of_mem _ hq)
    · exact ⟨rfl, hR.touch day h (hps p List.mem_cons_self)⟩

theorem searchDay (hR : n.SameSearch cal start known R) (h : R idx idx') {ps : List UUID} (hps : ∀ p ∈ ps, known p)
    (hours : Int) (fuel : Nat) {day : Date} (hday : start ≤ day) :
    (Planner.searchDay cal (ps.map n.person) hours fuel day idx').1 = (Planner.searchDay cal ps hours fuel day idx).1 ∧
      R (Planner.searchDay cal ps hours fuel day idx).2
        (Planner.searchDay cal (ps.map n.person) hours fuel day idx').2 := by
  induction fuel generalizing day idx idx' with
  | zero => exact ⟨rfl, h⟩
  | succ fuel ih =>
    have hnext : start ≤ day + 1 := Nat.le_succ_of_le hday
    simp only [Planner.searchDay]
    by_cases hw : cal.isWorkingDay day = true
    · obtain ⟨hanswer, hidx⟩ := hR.fitsAll h hps hday hw hours
      rw [if_pos hw, if_pos hw, hanswer]
      split
      · exact ⟨rfl, hidx⟩
      · exact ih hidx hnext
    · rw [if_neg hw, if_neg hw]
      exact ih h hnext

theorem splitLoop (hR : n.SameSearch cal start known R) (h : R idx idx') {pid : UUID} (hp : known pid) (fuel : Nat)
    {day : Date} (hday : start ≤ day) (hours : Int) :
    (Planner.splitLoop cal (n.person pid) fuel day hours idx').1 =
        (Planner.splitLoop cal pid fuel day hours idx).1.map (DayAllocation.renamed n) ∧
      (Planner.splitLoop cal (n.person pid) fuel day hours idx').2.1 =
        (Planner.splitLoop cal pid fuel day hours idx).2.1 ∧
      R (Planner.splitLoop cal pid fuel day hours idx).2.2
        (Planner.splitLoop cal (n.person pid) fuel day hours idx').2.2 := by
  induction fuel generalizing day hours idx idx' with
  | zero => exact ⟨rfl, rfl, h⟩
  | succ fuel ih =>
    have hnext : start ≤ day + 1 := Nat.le_succ_of_le hday
    simp only [Planner.splitLoop]
    by_cases hdone : hours ≤ 0
    · rw [if_pos hdone, if_pos hdone]
      exact ⟨rfl, rfl, h⟩
    · rw [if_neg hdone, if_neg hdone]
      by_cases hw : cal.isWorkingDay day = true
      · have hfree := hR.free h hp hday hw
        have htouch := hR.touch day h hp
        have hr : idx.remaining pid day = (idx.free pid day, idx.touch pid day) := rfl
        have hr' : idx'.remaining (n.person pid) day =
            (idx'.free (n.person pid) day, idx'.touch (n.person pid) day) := rfl
        rw [if_pos hw, if_pos hw, hr, hr', hfree]
        dsimp only
        by_cases hcap : 0 < idx.free pid day
        · rw [if_pos hcap, if_pos hcap]
          obtain ⟨hallocs, hrest, hidx⟩ := ih htouch hnext (hours - min (idx.free pid day) hours)
          refine ⟨?_, hrest, hidx⟩
          rw [List.map_cons, hallocs]
          rfl
        · rw [if_neg hcap, if_neg hcap]
          exact ih htouch hnext hours
      · rw [if_neg hw, if_neg hw]
        exact ih h hnext hours

section Placing

variable {earliest : Date} (limit : Date)

theorem allocateTogether (hR : n.SameSearch cal start known R) (h : R idx idx') {ps : List UUID}
    (hps : ∀ p ∈ ps, known p) (hstart : start ≤ earliest) (task : Task) :
    (Planner.allocateTogether (ps.map n.person) (task.renamed n) earliest cal idx' limit).1 =
        (Planner.allocateTogether ps task earliest cal idx limit).1.renamed n ∧
      R (Planner.allocateTogether ps task earliest cal idx limit).2
        (Planner.allocateTogether (ps.map n.person) (task.renamed n) earliest cal idx' limit).2 := by
  obtain ⟨hanswer, hidx⟩ := hR.searchDay h hps task.durationHours (limit + 1 - firstWorkingDay cal earliest)
    (hstart.trans (le_firstWorkingDay earliest))
  refine ⟨?_, hidx⟩
  rw [Planner.allocateTogether, Planner.allocateTogether, ← onDay_renamed, ← hanswer]
  rfl

theorem allocate (hR : n.SameSearch cal start known R) (h : R idx idx') {c c' : Person} (hp : known c.id)
    (hsame : n.Same c c') (hstart : start ≤ earliest) (task : Task) :
    SameOutcome (fun r r' => r'.1 = r.1.renamed n ∧ R r.2 r'.2) (Planner.allocate task c earliest cal idx limit)
      (Planner.allocate (task.renamed n) c' earliest cal idx' limit) := by
  have hsplit : (task.renamed n).isSplittable = task.isSplittable := rfl
  unfold Planner.allocate
  rw [hsplit]
  split
  · obtain ⟨hallocs, hrest, hidx⟩ := hR.splitLoop h hp (limit + 1 - firstWorkingDay cal earliest)
      (hstart.trans (le_firstWorkingDay earliest)) task.durationHours
    simp only [allocateSplit]
    rw [hsame, show (task.renamed n).durationHours = task.durationHours from rfl, hallocs, hrest]
    generalize Planner.splitLoop cal c.id (limit + 1 - firstWorkingDay cal earliest) (firstWorkingDay cal earliest)
      task.durationHours idx = loop at *
    have hdump : (if 0 < loop.2.1 then loop.1.map (DayAllocation.renamed n) ++
          [⟨n.person c.id, firstWorkingDay cal earliest, loop.2.1⟩] else loop.1.map (DayAllocation.renamed n)) =
        (if 0 < loop.2.1 then loop.1 ++ [⟨c.id, firstWorkingDay cal earliest, loop.2.1⟩] else loop.1).map
          (DayAllocation.renamed n) := by
      split
      · rw [List.map_append]
        rfl
      · rfl
    rw [hdump, spanning_renamed]
    cases Placement.spanning _ with
    | error e => exact .error e
    | ok p => exact .ok ⟨rfl, hidx⟩
  · have hone : ∀ q ∈ [c.id], known q := fun q hq => List.mem_singleton.mp hq ▸ hp
    have htogether := hR.allocateTogether limit h hone hstart task
    rw [allocateSingle, allocateSingle, hsame]
    exact .ok htogether

/-- The front runner of the race under both names. -/
def Leads (n : Naming) (best best' : Option (Placement × Person)) : Prop :=
  best'.map (fun b => (b.1, b.2.id)) = best.map fun b => (b.1.renamed n, n.person b.2.id)

theorem bestCandidate (hR : n.SameSearch cal start known R) (h : R idx idx') {cands cands' : List Person}
    (hsame : List.Forall₂ n.Same cands cands') (hknown : ∀ c ∈ cands, known c.id) (hstart : start ≤ earliest)
    (task : Task) {best best' : Option (Placement × Person)} (hbest : Leads n best best') :
    SameOutcome (fun r r' => Leads n r.1 r'.1 ∧ R r.2 r'.2)
      (Planner.bestCandidate task earliest cal limit cands best idx)
      (Planner.bestCandidate (task.renamed n) earliest cal limit cands' best' idx') := by
  induction hsame generalizing best best' idx idx' with
  | nil => exact .ok ⟨hbest, h⟩
  | @cons c c' cands cands' hc hcs ih =>
    have ih' := fun {i i' : CapacityIndex} (hi : R i i') {b b' : Option (Placement × Person)} =>
      @ih i i' hi (fun d hd => hknown d (List.mem_cons_of_mem _ hd)) b b'
    simp only [Planner.bestCandidate]
    rcases (hR.allocate limit h (hknown c List.mem_cons_self) hc hstart task).or with
      ⟨e, hr, hr'⟩ | ⟨⟨p, i⟩, ⟨q, j⟩, hr, hr', ha, hi⟩
    · rw [hr, hr']
      exact .error e
    · have hq : q = p.renamed n := ha
      have hnew : Leads n (some (p, c)) (some (q, c')) := by
        rw [Leads, Option.map_some, Option.map_some, hq, hc]
      rw [hr, hr']
      cases best with
      | none =>
        cases best' with
        | none => exact ih' hi hnew
        | some b' => cases hbest
      | some b =>
        cases best' with
        | none => cases hbest
        | some b' =>
          have hfront : b'.1 = b.1.renamed n := congrArg Prod.fst (Option.some.inj hbest)
          have hbefore : q.Before b'.1 ↔ p.Before b.1 := by rw [hq, hfront, Placement.before_renamed]
          dsimp only
          by_cases hlt : p.Before b.1
          · rw [if_pos hlt, if_pos (hbefore.mpr hlt)]
            exact ih' hi hnew
          · rw [if_neg hlt, if_neg (mt hbefore.mp hlt)]
            exact ih' hi hbest

theorem settle_race (hR : n.SameSearch cal start known R) (h : R idx idx') {allowed allowed' : List Person}
    (hsame : List.Forall₂ n.Same allowed allowed') (hknown : ∀ c ∈ allowed, known c.id) (hstart : start ≤ earliest)
    (task : Task) :
    SameOutcome (fun r r' => r'.1 = r.1.renamed n ∧ r'.2.1.id = n.person r.2.1.id ∧ R r.2.2 r'.2.2)
      (settle (Planner.bestCandidate task earliest cal limit allowed none idx))
      (settle (Planner.bestCandidate (task.renamed n) earliest cal limit allowed' none idx')) := by
  have hnone : Leads n none none := rfl
  rcases (hR.bestCandidate limit h hsame hknown hstart task hnone).or with
    ⟨e, hr, hr'⟩ | ⟨⟨best, i⟩, ⟨best', j⟩, hr, hr', hlead, hidx⟩
  · rw [hr, hr']
    exact .error e
  · rw [hr, hr']
    cases best with
    | none =>
      cases best' with
      | none => exact .error _
      | some b' => cases hlead
    | some b =>
      cases best' with
      | none => cases hlead
      | some b' =>
        have hboth := Option.some.inj hlead
        exact .ok ⟨congrArg Prod.fst hboth, congrArg Prod.snd hboth, hidx⟩

theorem placeOn (hR : n.SameSearch cal start known R) (h : R idx idx') {allowed allowed' : List Person}
    (hsame : List.Forall₂ n.Same allowed allowed') (hknown : ∀ c ∈ allowed, known c.id) (hstart : start ≤ earliest)
    (task : Task) :
    SameOutcome (fun r r' => r'.1 = r.1.renamed n ∧ r'.2.1.id = n.person r.2.1.id ∧ R r.2.2 r'.2.2)
      (Planner.placeOn task earliest allowed cal idx limit)
      (Planner.placeOn (task.renamed n) earliest allowed' cal idx' limit) := by
  have hrace := hR.settle_race limit h hsame hknown hstart task
  have hwindow : (task.renamed n).durationIsWindow = task.durationIsWindow := rfl
  have hpair : (task.renamed n).pairMode = task.pairMode := rfl
  have hlength := hsame.length_eq
  by_cases hw : task.durationIsWindow = true
  · cases hsame with
    | nil =>
      rw [placeOn_window_nil hw, placeOn_window_nil (hwindow.trans hw)]
      exact .error _
    | cons hc _ =>
      rw [placeOn_window hw, placeOn_window (hwindow.trans hw)]
      exact .ok ⟨rfl, hc, h⟩
  · by_cases hm : task.pairMode = .required ∧ 2 ≤ allowed.length
    · -- both of the first two work on the day found for both
      cases hsame with
      | nil => exact absurd hm.2 (by simp)
      | @cons c c' cs cs' hc hcs =>
        cases hcs with
        | nil => exact absurd hm.2 (by simp)
        | @cons d d' ds ds' hd hds =>
          have hboth : ∀ p ∈ [c.id, d.id], known p := by
            intro p hp
            rcases List.mem_cons.mp hp with rfl | hp
            · exact hknown c List.mem_cons_self
            · rw [List.mem_singleton.mp hp]
              exact hknown d (List.mem_cons_of_mem _ List.mem_cons_self)
          obtain ⟨hanswer, hidx⟩ := hR.allocateTogether limit h hboth hstart task
          rw [List.map_cons, List.map_cons, List.map_nil, ← hc, ← hd] at hanswer hidx
          rw [placeOn_pair hw hm.1, placeOn_pair (hwindow ▸ hw) (hpair.trans hm.1)]
          exact .ok ⟨hanswer, hc, hidx⟩
    · rw [placeOn_race hw hm, placeOn_race (hwindow ▸ hw) (by rwa [hpair, ← hlength])]
      exact hrace

end Placing

end Naming.SameSearch

end Planner

import Planner.AddProject
import Planner.IsoDate
import Planner.Lib.Json

/-! The JSON snapshot of a plan, which the payload column holds, and its two
decoders. The tables keep the snapshot as a typed payload; here is its text. -/

namespace Planner

open Json

namespace UUID

/-- A `UUID` has 128 bits. -/
def InRange (u : UUID) : Prop := u < 16 ^ 32

instance (u : UUID) : Decidable u.InRange := inferInstanceAs (Decidable (_ < _))

def hexDigit (n : Nat) : Char := Char.ofNat (if n < 10 then 48 + n else 87 + n)

def hexValue (c : Char) : Option Nat :=
  if '0' ≤ c ∧ c ≤ '9' then some (c.toNat - 48)
  else if 'a' ≤ c ∧ c ≤ 'f' then some (c.toNat - 87)
  else if 'A' ≤ c ∧ c ≤ 'F' then some (c.toNat - 55)
  else none

/-- `'%0*x' % (width, n)` of a number that fits. -/
def hexText : Nat → Nat → List Char
  | 0, _ => []
  | width + 1, n => hexText width (n / 16) ++ [hexDigit (n % 16)]

/-- `int(text, 16)` of hexadecimal digits. -/
def hexNumber (cs : List Char) : Option Nat :=
  cs.foldl (fun n c => n.bind fun n => (hexValue c).map fun v => n * 16 + v) (some 0)

/-- Groups of the given lengths, and the rest. -/
def hyphenate : List Nat → List Char → List Char
  | [], cs => cs
  | n :: ns, cs => cs.take n ++ '-' :: hyphenate ns (cs.drop n)

/-- `str(uuid)`. -/
def str (u : UUID) : String := String.ofList (hyphenate [8, 4, 4, 4] (hexText 32 u))

/-- `UUID(text)`, of 32 hexadecimal digits with hyphens anywhere. -/
def ofStr (s : String) : Option UUID :=
  let h := s.toList.filter fun c => c ≠ '-'
  if h.length = 32 then hexNumber h else none

theorem length_hexText (width n : Nat) : (hexText width n).length = width := by
  induction width generalizing n with
  | zero => rfl
  | succ width ih => rw [hexText, List.length_append, ih]; rfl

theorem hexValue_hexDigit {n : Nat} (h : n < 16) : hexValue (hexDigit n) = some n := by
  revert n
  decide

theorem hexDigit_ne_hyphen {n : Nat} (h : n < 16) : hexDigit n ≠ '-' := by
  revert n
  decide

theorem hexNumber_append (cs : List Char) (c : Char) :
    hexNumber (cs ++ [c]) = (hexNumber cs).bind fun n => (hexValue c).map fun v => n * 16 + v := by
  rw [hexNumber, List.foldl_append]
  rfl

theorem hexNumber_hexText {width n : Nat} (h : n < 16 ^ width) : hexNumber (hexText width n) = some n := by
  induction width generalizing n with
  | zero =>
    obtain rfl : n = 0 := by simpa using h
    rfl
  | succ width ih =>
    have hdiv : n / 16 < 16 ^ width := Nat.div_lt_of_lt_mul (by rwa [Nat.pow_succ, Nat.mul_comm] at h)
    rw [hexText, hexNumber_append, ih hdiv, hexValue_hexDigit (Nat.mod_lt _ (by decide))]
    simp only [Option.bind_some, Option.map_some, Option.some.injEq]
    omega

theorem no_hyphen (width n : Nat) : ∀ c ∈ hexText width n, c ≠ '-' := by
  induction width generalizing n with
  | zero => simp [hexText]
  | succ width ih =>
    intro c hc
    rcases List.mem_append.mp hc with hc | hc
    · exact ih _ c hc
    · obtain rfl := List.mem_singleton.mp hc
      exact hexDigit_ne_hyphen (Nat.mod_lt _ (by decide))

theorem filter_hyphenate (ns : List Nat) {cs : List Char} (h : ∀ c ∈ cs, c ≠ '-') :
    (hyphenate ns cs).filter (fun c => c ≠ '-') = cs := by
  induction ns generalizing cs with
  | nil => exact List.filter_eq_self.mpr fun c hc => by simpa using h c hc
  | cons n ns ih =>
    have hrest : (hyphenate ns (cs.drop n)).filter (fun c => c ≠ '-') = cs.drop n :=
      ih fun c hc => h c (List.mem_of_mem_drop hc)
    have hhead : (cs.take n).filter (fun c => c ≠ '-') = cs.take n :=
      List.filter_eq_self.mpr fun c hc => by simpa using h c (List.mem_of_mem_take hc)
    rw [hyphenate, List.filter_append, List.filter_cons_of_neg (by simp), hhead, hrest,
      List.take_append_drop]

theorem ofStr_str {u : UUID} (h : u.InRange) : ofStr u.str = some u := by
  rw [ofStr, str, String.toList_ofList, filter_hyphenate _ (no_hyphen 32 u),
    if_pos (length_hexText 32 u), hexNumber_hexText h]

theorem tells_str (u : UUID) : Tells (.string u.str) := by
  refine ⟨nofun, fun h => ?_⟩
  have hlist := congrArg String.toList (Json.string.inj h)
  simp [str, hyphenate] at hlist

end UUID

theorem Date.tells_isoformat (d : Date) : Tells (.string d.isoformat) := by
  refine ⟨nofun, fun h => ?_⟩
  have hlist := congrArg String.toList (Json.string.inj h)
  simp [Date.isoformat] at hlist

def RiskKind.text : RiskKind → String
  | .overload => "overload"
  | .deadlineMissed => "deadline_missed"

/-- The kinds that are ever written. -/
def RiskKind.ofText : String → Option RiskKind
  | "overload" => some .overload
  | "deadline_missed" => some .deadlineMissed
  | _ => none

namespace Wire

def uuid (u : UUID) : Json := .string u.str

def date (d : Date) : Json := .string d.isoformat

def allocation (al : DayAllocation) : Json :=
  .object [("person_id", uuid al.personId), ("day", date al.day), ("hours", .number al.hours)]

def assignment (a : Assignment) : Json :=
  .object [("task_id", uuid a.taskId), ("person_id", uuid a.personId), ("start_date", date a.startDate),
    ("end_date", date a.endDate), ("allocations", .array (a.allocations.map allocation))]

def risk (r : RiskFlag) : Json :=
  .object [("kind", .string r.kind.text), ("message", .string r.message),
    ("task_id", (r.taskId.map uuid).getD .null), ("person_id", (r.personId.map uuid).getD .null),
    ("day", (r.day.map date).getD .null)]

/-- `serialize_plan`. -/
def serializePlan (plan : PlanResult) : Json :=
  .object [("assignments", .array (plan.assignments.map assignment)),
    ("risks", .array (plan.risks.map risk)), ("end_date", (plan.endDate.map date).getD .null)]

def toUuid : Decoder UUID := parsed UUID.ofStr

def toDate : Decoder Date := parsed Date.fromisoformat

/-- `_opt_uuid` and `_opt_date`. -/
def optUuid : Decoder (Option UUID) := nullable toUuid

def optDate : Decoder (Option Date) := nullable toDate

def toAllocation (j : Json) : Except DecodeError DayAllocation := do
  let personId ← field "person_id" toUuid j
  let day ← field "day" toDate j
  let hours ← field "hours" int j
  pure ⟨personId, day, hours⟩

def toAssignment (j : Json) : Except DecodeError Assignment := do
  let taskId ← field "task_id" toUuid j
  let personId ← field "person_id" toUuid j
  let startDate ← field "start_date" toDate j
  let endDate ← field "end_date" toDate j
  let allocations ← field "allocations" (list toAllocation) j
  pure ⟨taskId, personId, startDate, endDate, allocations⟩

def toRisk (j : Json) : Except DecodeError RiskFlag := do
  let kind ← field "kind" (parsed RiskKind.ofText) j
  let message ← field "message" text j
  let taskId ← fieldD "task_id" optUuid none j
  let personId ← fieldD "person_id" optUuid none j
  let day ← fieldD "day" optDate none j
  pure ⟨kind, message, taskId, personId, day⟩

/-- `deserialize_plan`. -/
def deserializePlan (payload : Json) : Except DecodeError PlanResult := do
  let assignments ← fieldD "assignments" (list toAssignment) [] payload
  let risks ← fieldD "risks" (list toRisk) [] payload
  let endDate ← fieldD "end_date" optDate none payload
  pure ⟨assignments, risks, endDate⟩

/-- `deserialize_allocations`, which reads nothing else of an assignment. -/
def deserializeAllocations (payload : Json) : Except DecodeError (List DayAllocation) :=
  (fieldD "assignments" (list (fieldD "allocations" (list toAllocation) [])) [] payload).map List.flatten

/-- What the ids and dates of the plan can hold. -/
structure AllocationInRange (al : DayAllocation) : Prop where
  person : al.personId.InRange
  day : al.day.InRange

structure AssignmentInRange (a : Assignment) : Prop where
  task : a.taskId.InRange
  person : a.personId.InRange
  start : a.startDate.InRange
  end_ : a.endDate.InRange
  allocations : ∀ al ∈ a.allocations, AllocationInRange al

structure RiskInRange (r : RiskFlag) : Prop where
  task : ∀ u ∈ r.taskId, u.InRange
  person : ∀ u ∈ r.personId, u.InRange
  day : ∀ d ∈ r.day, d.InRange

structure PlanInRange (plan : PlanResult) : Prop where
  assignments : ∀ a ∈ plan.assignments, AssignmentInRange a
  risks : ∀ r ∈ plan.risks, RiskInRange r
  endDate : ∀ d ∈ plan.endDate, d.InRange

theorem reads_uuid {u : UUID} (h : u.InRange) : Reads uuid toUuid u := reads_parsed (UUID.ofStr_str h)

theorem reads_date {d : Date} (h : d.InRange) : Reads date toDate d :=
  reads_parsed (Date.fromisoformat_isoformat h)

theorem reads_optUuid {u : Option UUID} (h : ∀ v ∈ u, v.InRange) :
    optUuid ((u.map uuid).getD .null) = .ok u :=
  reads_nullable fun v hv => ⟨v.tells_str, reads_uuid (h v hv)⟩

theorem reads_optDate {d : Option Date} (h : ∀ e ∈ d, e.InRange) :
    optDate ((d.map date).getD .null) = .ok d :=
  reads_nullable fun e he => ⟨e.tells_isoformat, reads_date (h e he)⟩

theorem reads_kind (k : RiskKind) : Reads (fun k => .string k.text) (parsed RiskKind.ofText) k :=
  reads_parsed (by cases k <;> rfl)

theorem reads_allocation {al : DayAllocation} (h : AllocationInRange al) :
    Reads allocation toAllocation al := by
  have hp : field "person_id" toUuid (allocation al) = .ok al.personId := reads_uuid h.person
  have hd : field "day" toDate (allocation al) = .ok al.day := reads_date h.day
  have hh : field "hours" int (allocation al) = .ok al.hours := rfl
  rw [Reads, toAllocation, hp, hd, hh]
  rfl

theorem reads_allocations {a : Assignment} (h : AssignmentInRange a) :
    list toAllocation (.array (a.allocations.map allocation)) = .ok a.allocations :=
  reads_list fun al hal => reads_allocation (h.allocations al hal)

theorem reads_assignment {a : Assignment} (h : AssignmentInRange a) :
    Reads assignment toAssignment a := by
  have ht : field "task_id" toUuid (assignment a) = .ok a.taskId := reads_uuid h.task
  have hp : field "person_id" toUuid (assignment a) = .ok a.personId := reads_uuid h.person
  have hs : field "start_date" toDate (assignment a) = .ok a.startDate := reads_date h.start
  have he : field "end_date" toDate (assignment a) = .ok a.endDate := reads_date h.end_
  have ha : field "allocations" (list toAllocation) (assignment a) = .ok a.allocations :=
    reads_allocations h
  rw [Reads, toAssignment, ht, hp, hs, he, ha]
  rfl

theorem reads_risk {r : RiskFlag} (h : RiskInRange r) : Reads risk toRisk r := by
  have hk : field "kind" (parsed RiskKind.ofText) (risk r) = .ok r.kind := reads_kind r.kind
  have hm : field "message" text (risk r) = .ok r.message := rfl
  have ht : fieldD "task_id" optUuid none (risk r) = .ok r.taskId := reads_optUuid h.task
  have hp : fieldD "person_id" optUuid none (risk r) = .ok r.personId := reads_optUuid h.person
  have hd : fieldD "day" optDate none (risk r) = .ok r.day := reads_optDate h.day
  rw [Reads, toRisk, hk, hm, ht, hp, hd]
  rfl

theorem reads_plan {plan : PlanResult} (h : PlanInRange plan) : Reads serializePlan deserializePlan plan := by
  have ha : fieldD "assignments" (list toAssignment) [] (serializePlan plan) = .ok plan.assignments :=
    reads_list fun a hm => reads_assignment (h.assignments a hm)
  have hr : fieldD "risks" (list toRisk) [] (serializePlan plan) = .ok plan.risks :=
    reads_list fun r hm => reads_risk (h.risks r hm)
  have he : fieldD "end_date" optDate none (serializePlan plan) = .ok plan.endDate :=
    reads_optDate h.endDate
  rw [Reads, deserializePlan, ha, hr, he]
  rfl

theorem items_allocations {as : List Assignment} (h : ∀ a ∈ as, AssignmentInRange a) :
    items (fieldD "allocations" (list toAllocation) []) (as.map assignment) =
      .ok (as.map Assignment.allocations) := by
  induction as with
  | nil => rfl
  | cons a as ih =>
    have ha : fieldD "allocations" (list toAllocation) [] (assignment a) = .ok a.allocations :=
      reads_allocations (h a List.mem_cons_self)
    rw [List.map_cons, items, ha, ih fun b hb => h b (List.mem_cons_of_mem _ hb)]
    rfl

theorem reads_planAllocations {plan : PlanResult} (h : PlanInRange plan) :
    deserializeAllocations (serializePlan plan) =
      .ok (plan.assignments.flatMap Assignment.allocations) := by
  have hitems : fieldD "assignments" (list (fieldD "allocations" (list toAllocation) [])) []
      (serializePlan plan) = .ok (plan.assignments.map Assignment.allocations) :=
    items_allocations h.assignments
  rw [deserializeAllocations, hitems, List.flatMap_def]
  rfl

/-- The typed payload of the tables stands for the snapshot. -/
theorem allocations_of_payload {plan : PlanResult} (h : PlanInRange plan) :
    deserializeAllocations (serializePlan plan) =
      .ok (Planner.deserializeAllocations (Planner.serializePlan plan)) := reads_planAllocations h

/-- A snapshot is read back as the plan it was taken of, and its allocations in order. -/
theorem deserialize_serialize (plan : PlanResult) (h : PlanInRange plan) :
    deserializePlan (serializePlan plan) = .ok plan ∧
      deserializeAllocations (serializePlan plan) =
        .ok (plan.assignments.flatMap Assignment.allocations) :=
  ⟨reads_plan h, reads_planAllocations h⟩

/-- Two days of work of which the second is overbooked. -/
def overbookedPlan : PlanResult where
  assignments := [⟨5, 1, 739768, 739769, [⟨1, 739768, 8⟩, ⟨1, 739769, 4⟩]⟩]
  risks := [{ kind := .overload, message := "≈1.5 раб. дн. нагрузки на 1 день", personId := some 1,
              day := some 739769 }]
  endDate := some 739769

theorem deserialize_serialize_overbooked :
    deserializePlan (serializePlan overbookedPlan) = .ok overbookedPlan ∧
      deserializeAllocations (serializePlan overbookedPlan) =
        .ok (overbookedPlan.assignments.flatMap Assignment.allocations) := by
  refine deserialize_serialize overbookedPlan ⟨fun a ha => ?_, fun r hr => ?_, by decide⟩
  · obtain rfl := List.mem_singleton.mp ha
    refine ⟨by decide, by decide, by decide, by decide, fun al hal => ?_⟩
    rcases List.mem_cons.mp hal with rfl | hal
    · exact ⟨by decide, by decide⟩
    · obtain rfl := List.mem_singleton.mp hal
      exact ⟨by decide, by decide⟩
  · obtain rfl := List.mem_singleton.mp hr
    exact ⟨by decide, by decide, by decide⟩

end Wire

end Planner

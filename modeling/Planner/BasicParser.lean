import Mathlib.Data.List.TakeWhile
import Planner.Intent
import Planner.Patterns

/-! The offline parser: keywords first, and what none of them takes becomes a task. -/

namespace Planner

structure ChatContext where
  today : Date
  aliases : OrdDict String String := .empty
  knownPeople : List String := []
  knownProjects : List String := []
  recentMessages : List String := []

/-- `needle in text`. -/
def occurs (needle : String) (cs : List Char) : Bool := decide (needle.toList <:+: cs)

def anyOccurs (needles : List String) (cs : List Char) : Bool := needles.any fun n => occurs n cs

def ruMonths : List (String × Nat) := [
  ("январ", 1), ("феврал", 2), ("март", 3), ("апрел", 4), ("ма", 5), ("июн", 6),
  ("июл", 7), ("август", 8), ("сентябр", 9), ("октябр", 10), ("ноябр", 11), ("декабр", 12)]

section Parser

variable (U : CharTables)

def monthNum (word : List Char) : Option Nat :=
  (ruMonths.find? fun m => m.1.toList.isPrefixOf (U.lower word)).map Prod.snd

/-- The body of the `try`: the first pattern that matches decides. -/
def dateIn (text : List Char) (today : Date) : Except ParseError (Option Date) :=
  let year := today.toYmd.1
  match search U.isoAt none text with
  | some (year, month, day) => (dateOf year month day).map some
  | none =>
    match search U.ddmmAt none text with
    | some (day, month, given) => (dateOf (given.getD year) month day).map some
    | none =>
      match search U.dayMonthAt none text with
      | some (day, word) =>
        match monthNum U word with
        | some month => (dateOf year month day).map some
        | none => .ok none
      | none => .ok none

/-- Numbers out of range are no date. -/
def parseDate (text : List Char) (today : Date) : Option Date :=
  match dateIn U text today with
  | .ok d => d
  | .error _ => none

def parseTime (text : List Char) : Except ParseError (Option TimeOfDay) :=
  match search U.timeAt none text with
  | none => .ok none
  | some (hour, minute) => if 23 < hour ∨ 59 < minute then .ok none else (timeOf hour minute).map some

def resolvePerson (text : List Char) (ctx : ChatContext) : Option String :=
  let low := U.lower text
  match ctx.aliases.entries.find? fun e => decide (U.lower e.1.toList <:+: low) with
  | some (_, canonical) => some canonical
  | none => ctx.knownPeople.find? fun name => decide (U.lower name.toList <:+: low)

/-- `text.lower().lstrip("/").strip()`. -/
def lowered (text : List Char) : List Char := stripChars ((U.lower text).dropWhile (· = '/'))

def quotedTitle (text : List Char) : Option String :=
  (search quoteAt none text).map fun body => String.ofList (stripChars body)

def vacationOf (text : List Char) (ctx : ChatContext) : Intent :=
  match (resolvePerson U text ctx).filter (· ≠ ""), search U.rangeAt none text with
  | some person, some (first, last, word) =>
    match monthNum U word with
    | some month =>
      let year := ctx.today.toYmd.1
      match dateOf year month first, dateOf year month last with
      | .ok dayFrom, .ok dayTo => .vacation ⟨person, dayFrom, dayTo, 0⟩
      | _, _ => .clarify (some "Укажи имя и корректные даты отпуска.")
    | none => .clarify (some "Укажи имя и даты отпуска.")
  | _, _ => .clarify (some "Укажи имя и даты отпуска.")

def whatIfOf (text : List Char) (ctx : ChatContext) : WhatIfIntent :=
  let low := U.lower text
  let op : WhatIfOperation :=
    if anyOccurs ["lite", "лайт"] low then .switchToLite
    else if anyOccurs ["человек", "+1"] low then .addPerson
    else if anyOccurs ["убери", "drop", "удали проект"] low then .dropProject
    else .shiftDeadline
  { operation := op
    projectTitle := quotedTitle text
    newDeadline := if op = .shiftDeadline then parseDate U text ctx.today else none
    personName := if op = .addPerson then resolvePerson U text ctx else none }

/-- The default, with every assignee that was recognised. -/
def captureFields (text : List Char) (ctx : ChatContext) (time : Option TimeOfDay) : CaptureFields where
  taskTitle := String.ofList (stripChars text)
  assigneeNames := ((resolvePerson U text ctx).filter (· ≠ "")).toList
  deadline := parseDate U text ctx.today
  timeStart := time

/-! The tests of `parse_sync`, in its order. -/

def asksLoad (text : List Char) : Bool :=
  anyOccurs ["load", "загруз", "нагруз", "загузк", "нагузк", "слот", "свобод", "занят", "доступ"]
    (lowered U text) || occurs "/load" text

def asksTasks (text : List Char) : Bool :=
  anyOccurs ["какие задач", "что по задач", "что сейчас", "что идёт", "статус", "текущ"] (lowered U text)

def asksVacation (text : List Char) : Bool :=
  occurs "отпуск" (lowered U text) || "vacation".toList.isPrefixOf (lowered U text)

def asksWhatIf (text : List Char) : Bool :=
  anyOccurs ["что-если", "что если"] (lowered U text) || "whatif".toList.isPrefixOf (lowered U text)

def confirms (text : List Char) : Bool :=
  ["ок", "ok", "да", "yes", "confirm", "подтверждаю"].any fun phrase => phrase.toList = lowered U text

def dropsProject (text : List Char) : Bool :=
  occurs "проект" (lowered U text) &&
    anyOccurs ["удали", "удалить", "удаление", "убери", "drop", "delete"] (lowered U text)

def namesProject (text : List Char) : Bool :=
  anyOccurs ["проект", "project", "новый проект", "add"] (lowered U text) && (quotedTitle text).isSome

def isQuestion (text : List Char) : Bool := (lowered U text).getLast? = some '?'

def parseSync (message : String) (ctx : ChatContext) : Except ParseError Intent :=
  let text := message.toList
  if asksLoad U text then .ok (.load (resolvePerson U text ctx))
  else if asksTasks U text then .ok (.load (resolvePerson U text ctx))
  else if asksVacation U text then .ok (vacationOf U text ctx)
  else if asksWhatIf U text then .ok (.whatIf (whatIfOf U text ctx))
  else if confirms U text then .ok (.confirm none)
  else if dropsProject U text then .ok (.whatIf ⟨.dropProject, quotedTitle text, none, none⟩)
  else if namesProject U text then
    .ok (.addProject {
      title := (quotedTitle text).getD ""
      templateCode := if anyOccurs ["lite", "лайт"] (lowered U text) then "lite" else "standard"
      deadline := parseDate U text ctx.today })
  else if isQuestion U text then
    .ok (.clarify (some "Это вопрос о загрузке? Уточни: «сколько слотов у Рая?»"))
  else if lowered U text ≠ [] then do
    let time ← parseTime U text
    let intent ← (captureFields U text ctx time).validate
    .ok (.captureTask intent)
  else .ok (.clarify (some ("Не понял. Напиши задачу текстом, например:\n" ++
    "«подготовить бриф по МТС, Андрей задача твоя»")))

/-- None of the keywords takes the text, and it is neither a question nor empty. -/
def CapturesText (message : String) : Prop :=
  let text := message.toList
  asksLoad U text = false ∧ asksTasks U text = false ∧ asksVacation U text = false ∧
    asksWhatIf U text = false ∧ confirms U text = false ∧ dropsProject U text = false ∧
    namesProject U text = false ∧ isQuestion U text = false ∧ lowered U text ≠ []

instance (message : String) : Decidable (CapturesText U message) :=
  inferInstanceAs (Decidable (_ ∧ _ ∧ _ ∧ _ ∧ _ ∧ _ ∧ _ ∧ _ ∧ _))

/-- The text, if it is to become a task, is a title. -/
def FitsTitle (message : String) : Prop := CapturesText U message → (strip message).length ≤ 200

theorem stripChars_eq_nil_iff {cs : List Char} : stripChars cs = [] ↔ cs.all isSpace = true := by
  rw [stripChars, List.reverse_eq_nil_iff, List.dropWhile_eq_nil_iff, List.all_eq_true]
  simp only [List.mem_reverse]
  constructor
  · intro h
    have hnil : cs.dropWhile isSpace = [] := by
      by_contra hne
      have hhead := h _ (List.head_mem hne)
      rw [List.head_dropWhile_not isSpace hne] at hhead
      cases hhead
    exact List.dropWhile_eq_nil_iff.mp hnil
  · intro h c hc
    exact h c ((List.dropWhile_suffix isSpace).subset hc)

variable {U}

theorem stripChars_ne_nil {text : List Char} (h : lowered U text ≠ []) : stripChars text ≠ [] := by
  intro hnil
  refine h (stripChars_eq_nil_iff.mpr ?_)
  have hblank := U.lower_blank text (stripChars_eq_nil_iff.mp hnil)
  rw [List.all_eq_true] at hblank ⊢
  exact fun c hc => hblank c ((List.dropWhile_suffix _).subset hc)

theorem parseTime_ok (text : List Char) : ∃ time, parseTime U text = .ok time := by
  unfold parseTime
  split
  · exact ⟨none, rfl⟩
  · rename_i hour minute _
    split
    · exact ⟨none, rfl⟩
    · have hbounds : hour < 24 ∧ minute < 60 := by omega
      rw [timeOf, dif_pos hbounds]
      exact ⟨_, rfl⟩

theorem captureFields_valid_iff {text : List Char} {ctx : ChatContext} {time : Option TimeOfDay}
    (h : lowered U text ≠ []) : (captureFields U text ctx time).Valid ↔ (stripChars text).length ≤ 200 := by
  have hpos : 1 ≤ (stripChars text).length := List.length_pos_iff.mpr (stripChars_ne_nil h)
  have hassignees : (((resolvePerson U text ctx).filter (· ≠ "")).toList).length ≤ 10 := by
    cases (resolvePerson U text ctx).filter (· ≠ "") <;> simp
  simp only [CaptureFields.Valid, captureFields, String.length_ofList, hpos, hassignees, true_and]
  simp

theorem parseSync_of_captures {message : String} {ctx : ChatContext} (h : CapturesText U message)
    {time : Option TimeOfDay} (htime : parseTime U message.toList = .ok time) :
    parseSync U message ctx = (captureFields U message.toList ctx time).validate.map .captureTask := by
  obtain ⟨h₁, h₂, h₃, h₄, h₅, h₆, h₇, h₈, h₉⟩ := h
  have hmap : ∀ v : Option TimeOfDay → Except ParseError CaptureTaskIntent,
      ((Except.ok time : Except ParseError _) >>= fun time => v time >>= fun intent =>
        .ok (Intent.captureTask intent)) = (v time).map .captureTask := by
    intro v
    change (v time >>= _) = _
    cases v time <;> rfl
  unfold parseSync
  dsimp only
  rw [if_neg (ne_true_of_eq_false h₁), if_neg (ne_true_of_eq_false h₂), if_neg (ne_true_of_eq_false h₃),
    if_neg (ne_true_of_eq_false h₄), if_neg (ne_true_of_eq_false h₅), if_neg (ne_true_of_eq_false h₆),
    if_neg (ne_true_of_eq_false h₇), if_neg (ne_true_of_eq_false h₈), if_pos h₉, htime]
  exact hmap fun time => (captureFields U message.toList ctx time).validate

theorem exists_ok_ite {ε α : Type} {c : Prop} [Decidable c] {x y : Except ε α} (hx : ∃ a, x = .ok a)
    (hy : ¬ c → ∃ a, y = .ok a) : ∃ a, (if c then x else y) = .ok a := by
  by_cases h : c
  · rw [if_pos h]
    exact hx
  · rw [if_neg h]
    exact hy h

theorem parseSync_ok_of_not_captures {message : String} (ctx : ChatContext) (h : ¬ CapturesText U message) :
    ∃ intent, parseSync U message ctx = .ok intent := by
  unfold parseSync
  refine exists_ok_ite ⟨_, rfl⟩ fun h₁ => ?_
  refine exists_ok_ite ⟨_, rfl⟩ fun h₂ => ?_
  refine exists_ok_ite ⟨_, rfl⟩ fun h₃ => ?_
  refine exists_ok_ite ⟨_, rfl⟩ fun h₄ => ?_
  refine exists_ok_ite ⟨_, rfl⟩ fun h₅ => ?_
  refine exists_ok_ite ⟨_, rfl⟩ fun h₆ => ?_
  refine exists_ok_ite ⟨_, rfl⟩ fun h₇ => ?_
  refine exists_ok_ite ⟨_, rfl⟩ fun h₈ => ?_
  by_cases h₉ : lowered U message.toList = []
  · exact ⟨_, if_neg (not_not.mpr h₉)⟩
  · simp only [Bool.not_eq_true] at h₁ h₂ h₃ h₄ h₅ h₆ h₇ h₈
    exact absurd ⟨h₁, h₂, h₃, h₄, h₅, h₆, h₇, h₈, h₉⟩ h

/-- The offline parser answers iff the text fits where it is to go. -/
theorem parseSync_ok_iff (message : String) (ctx : ChatContext) :
    (∃ intent, parseSync U message ctx = .ok intent) ↔ FitsTitle U message := by
  by_cases h : CapturesText U message
  · obtain ⟨time, htime⟩ := parseTime_ok message.toList
    have hfits := @captureFields_valid_iff U message.toList ctx time h.2.2.2.2.2.2.2.2
    rw [parseSync_of_captures h htime, FitsTitle, forall_prop_of_true h, strip, String.length_ofList, ← hfits,
      ← CaptureFields.validate_ok_iff]
    cases (captureFields U message.toList ctx time).validate with
    | ok intent => exact iff_of_true ⟨_, rfl⟩ ⟨_, rfl⟩
    | error e =>
      constructor
      · rintro ⟨_, he⟩
        cases he
      · rintro ⟨_, he⟩
        cases he
  · exact iff_of_true (parseSync_ok_of_not_captures ctx h) fun hc => absurd hc h

end Parser

end Planner

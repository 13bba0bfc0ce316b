import Planner.Capture
import Planner.Patterns

/-! The properties of a card on a board whose columns are anybody's: each of the
five is put where a name and a type suggest it. -/

namespace Planner

inductive ColumnType
  | title
  | date
  | multiSelect
  | select
  | richText
  | status
  | other (name : String)
  deriving DecidableEq, Repr

/-- A column; `options` are the names in `meta[meta["type"]]["options"]`. -/
structure Column where
  type : ColumnType
  options : List String := []
  deriving DecidableEq, Repr

abbrev Schema := OrdDict String Column

inductive PropertyValue
  | title (content : String)
  | date (start : String)
  | multiSelect (names : List String)
  | select (name : String)
  | richText (content : String)
  | status (name : String)
  deriving DecidableEq, Repr

namespace PropertyValue

def type : PropertyValue → ColumnType
  | title _ => .title
  | date _ => .date
  | multiSelect _ => .multiSelect
  | select _ => .select
  | richText _ => .richText
  | status _ => .status

def names : PropertyValue → List String
  | multiSelect names => names
  | select name | status name => [name]
  | title _ | date _ | richText _ => []

end PropertyValue

abbrev Properties := OrdDict String PropertyValue

namespace Notion

/-- `_DATE_RE`. -/
def dateWords : List String := ["дата", "дедлайн", "deadline", "срок", "due"]

/-- `_ASSIGNEE_RE`. -/
def assigneeWords : List String := ["assign", "исполнит", "кому", "ответствен", "assignee"]

/-- `_PROJECT_RE`. -/
def projectWords : List String := ["проект", "project", "клиент", "заказчик"]

/-- `_STATUS_RE`. -/
def statusWords : List String := ["статус", "status"]

def listTypes : List ColumnType := [.multiSelect, .select, .richText]

def statusTypes : List ColumnType := [.status, .select]

variable (U : CharTables)

def beginsWith : List Char → List Char → Bool
  | [], _ => true
  | _ :: _, [] => false
  | w :: word, c :: cs => U.sameLetter c w && beginsWith word cs

/-- One of the alternatives of a pattern, case ignored. -/
def wordAt (words : List String) (_ : Option Char) (cs : List Char) : Option Unit :=
  if words.any fun w => beginsWith U w.toList cs then some () else none

/-- `pattern.search(name)`. -/
def mentions (words : List String) (name : String) : Bool := (search (wordAt U words) none name.toList).isSome

/-- `pattern.match(name)`. -/
def leads (words : List String) (name : String) : Bool := (wordAt U words none name.toList).isSome

/-- `_find`: of the names that mention a word, the first that begins with one, else the first. -/
def find (schema : Schema) (words : List String) (types : List ColumnType) : Option String :=
  let candidates := (schema.entries.filter fun e => decide (e.2.type ∈ types) && mentions U words e.1).map Prod.fst
  let prefixed := candidates.filter (leads U words)
  (if prefixed = [] then candidates else prefixed).head?

def firstOfType (schema : Schema) (type : ColumnType) : Option String :=
  (schema.entries.find? fun e => e.2.type = type).map Prod.fst

/-- A name that `if` lets through; an empty one counts as none. -/
def named (name : Option String) : Option String := name.filter (· ≠ "")

/-- `_text_value`; no caller has no values. -/
def textValue : ColumnType → List String → Option PropertyValue
  | .multiSelect, values => some (.multiSelect values)
  | .select, values => values.head?.map .select
  | .richText, values => some (.richText (joined ", " values))
  | _, _ => none

/-- One text holds the other, case ignored. -/
def Overlaps (value option : String) : Prop :=
  U.lower value.toList <:+: U.lower option.toList ∨ U.lower option.toList <:+: U.lower value.toList

instance (value option : String) : Decidable (Overlaps U value option) :=
  inferInstanceAs (Decidable (_ ∨ _))

def snapValue (options : List String) (strict : Bool) (value : String) : Option String :=
  match options.find? fun o => Overlaps U value o with
  | none => if strict then none else some value
  | some option => some (if option = "" then value else option)

def snapToOptions (options : List String) (values : List String) (strict : Bool) : List String :=
  values.filterMap (snapValue U options strict)

def textProperty (schema : Schema) (words values : List String) (strict : Bool) : Option (String × PropertyValue) := do
  let name ← named (find U schema words listTypes)
  let column ← schema.get? name
  let values := if column.type = .multiSelect ∨ column.type = .select then
    snapToOptions U column.options values strict else values
  (if values = [] then none else textValue column.type values).map fun value => (name, value)

def titleProperty (schema : Schema) (task : SinkTask) : Option (String × PropertyValue) :=
  (named (firstOfType schema .title)).map fun name => (name, .title task.title)

def dateProperty (schema : Schema) (task : SinkTask) : Option (String × PropertyValue) := do
  let deadline ← task.deadline
  let name ← named ((named (find U schema dateWords [.date])).or (firstOfType schema .date))
  let start := deadline.isoformat ++ match task.timeStart with
    | none => ""
    | some time => "T" ++ time.text ++ ":00"
  some (name, .date start)

def assigneesProperty (schema : Schema) (task : SinkTask) (strict : Bool) : Option (String × PropertyValue) :=
  if task.assignees = [] then none else textProperty U schema assigneeWords task.assignees strict

def projectProperty (schema : Schema) (task : SinkTask) (strict : Bool) : Option (String × PropertyValue) := do
  let project ← named task.project
  textProperty U schema projectWords [project] strict

def statusProperty (schema : Schema) : Option (String × PropertyValue) := do
  let name ← named (find U schema statusWords statusTypes)
  let column ← schema.get? name
  let option ← column.options.head?
  some (name, if column.type = .status then .status option else .select option)

/-- What a card is written from, in the order in which it is written. -/
inductive Field
  | title
  | deadline
  | assignees
  | project
  | status
  deriving DecidableEq, Repr

def Field.all : List Field := [.title, .deadline, .assignees, .project, .status]

def property (schema : Schema) (task : SinkTask) (strict : Bool) : Field → Option (String × PropertyValue)
  | .title => titleProperty schema task
  | .deadline => dateProperty U schema task
  | .assignees => assigneesProperty U schema task strict
  | .project => projectProperty U schema task strict
  | .status => statusProperty U schema

/-- `build_properties`: a property that is written twice keeps the later value. -/
def buildProperties (schema : Schema) (task : SinkTask) (strict : Bool) : Properties :=
  .ofList (Field.all.filterMap (property U schema task strict))

end Notion

end Planner

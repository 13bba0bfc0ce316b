import Mathlib.Data.List.Pairwise
import Planner.NotionMapping

/-! Which columns a card is written to. Assignees, project and status look for
their columns each on its own, so one column can serve two of them. -/

namespace Planner

namespace Notion

variable (U : CharTables)

/-- The column could stand for one of the words. -/
def Suits (words : List String) (types : List ColumnType) (e : String × Column) : Prop :=
  e.2.type ∈ types ∧ mentions U words e.1 = true

instance (words : List String) (types : List ColumnType) : DecidablePred (Suits U words types) := fun _ =>
  inferInstanceAs (Decidable (_ ∧ _))

/-- The first column that begins with a word, or the first that mentions one where none begins so. -/
def Chosen (schema : Schema) (words : List String) (types : List ColumnType) (e : String × Column) : Prop :=
  ∃ pre post, schema.entries = pre ++ e :: post ∧ Suits U words types e ∧
    (leads U words e.1 = true ∧ (∀ d ∈ pre, Suits U words types d → leads U words d.1 = false) ∨
      (∀ d ∈ schema.entries, Suits U words types d → leads U words d.1 = false) ∧
        ∀ d ∈ pre, ¬ Suits U words types d)

def Takes (column : Column) (values : List String) (strict : Bool) : Prop :=
  values ≠ [] ∧ (strict = true → column.type = .multiSelect ∨ column.type = .select →
    ∃ value ∈ values, ∃ option ∈ column.options, Overlaps U value option)

/-- The column that a field of the card is for. -/
inductive Wants (schema : Schema) (task : SinkTask) (strict : Bool) (name : String) (column : Column) : Field → Prop
  | assignees (h : Chosen U schema assigneeWords listTypes (name, column))
      (ht : Takes U column task.assignees strict) : Wants schema task strict name column .assignees
  | project {project : String} (h : Chosen U schema projectWords listTypes (name, column))
      (hp : task.project = some project) (hne : project ≠ "") (ht : Takes U column [project] strict) :
      Wants schema task strict name column .project
  | status (h : Chosen U schema statusWords statusTypes (name, column)) (ho : column.options ≠ []) :
      Wants schema task strict name column .status

/-- One column, and not one without a name, is for two of the fields. -/
def SharedColumn (schema : Schema) (task : SinkTask) (strict : Bool) : Prop :=
  ∃ name column f g, f ≠ g ∧ name ≠ "" ∧ Wants U schema task strict name column f ∧ Wants U schema task strict name column g

/-- Every field has its own property, of a type that fits, and keeps it; a strict
card has only options that are there. -/
structure FieldsApart (schema : Schema) (task : SinkTask) (strict : Bool) : Prop where
  distinct : ((Field.all.filterMap (property U schema task strict)).map Prod.fst).Nodup
  fits : ∀ f name value, property U schema task strict f = some (name, value) →
    ∃ column, schema.get? name = some column ∧ value.type = column.type
  kept : ∀ f name value, property U schema task strict f = some (name, value) →
    (buildProperties U schema task strict).get? name = some value
  known : strict = true → ∀ name value, (buildProperties U schema task strict).get? name = some value →
    ∃ column, schema.get? name = some column ∧ ∀ option ∈ value.names, option ∈ column.options

section Columns

variable {U : CharTables} {schema : Schema} {words : List String} {types : List ColumnType} {strict : Bool}
  {name : String} {value : PropertyValue} {column : Column}

theorem find_eq (schema : Schema) (words : List String) (types : List ColumnType) : find U schema words types =
    ((schema.entries.find? fun e => decide (Suits U words types e) && leads U words e.1).or
      (schema.entries.find? fun e => decide (Suits U words types e))).map Prod.fst := by
  have hsuits : (fun e : String × Column => decide (e.2.type ∈ types) && mentions U words e.1) =
      fun e => decide (Suits U words types e) := by
    funext e
    rw [Bool.eq_iff_iff, Bool.and_eq_true, decide_eq_true_eq, decide_eq_true_eq]
    rfl
  have hprefixed : (((schema.entries.filter fun e => decide (Suits U words types e)).map Prod.fst).filter (leads U words)) =
      (schema.entries.filter fun e => decide (Suits U words types e) && leads U words e.1).map Prod.fst := by
    rw [List.filter_map, List.filter_filter]
    exact congrArg (List.map Prod.fst) (List.filter_congr fun e _ => Bool.and_comm _ _)
  simp only [find, hsuits, hprefixed, List.map_eq_nil_iff]
  rw [← List.head?_filter, ← List.head?_filter]
  split
  · rename_i hnone
    rw [hnone, List.head?_map]
    rfl
  · rename_i hsome
    obtain ⟨e, rest, he⟩ := List.exists_cons_of_ne_nil hsome
    rw [he]
    rfl

theorem find_eq_some_iff : find U schema words types = some name ↔ ∃ column, Chosen U schema words types (name, column) := by
  have hnone : (schema.entries.find? fun e => decide (Suits U words types e) && leads U words e.1) = none ↔
      ∀ d ∈ schema.entries, Suits U words types d → leads U words d.1 = false := by
    simp [List.find?_eq_none]
  rw [find_eq, Option.map_eq_some_iff, Prod.exists]
  constructor
  · rintro ⟨n, column, h, rfl⟩
    refine ⟨column, ?_⟩
    rcases Option.or_eq_some_iff.mp h with hlead | ⟨hno, hfirst⟩
    · obtain ⟨hp, pre, post, he, hpre⟩ := List.find?_eq_some_iff_append.mp hlead
      simp only [Bool.and_eq_true, decide_eq_true_eq] at hp
      refine ⟨pre, post, he, hp.1, Or.inl ⟨hp.2, fun d hd hs => ?_⟩⟩
      simpa [hs] using hpre d hd
    · obtain ⟨hp, pre, post, he, hpre⟩ := List.find?_eq_some_iff_append.mp hfirst
      exact ⟨pre, post, he, of_decide_eq_true hp, Or.inr ⟨hnone.mp hno, fun d hd => by simpa using hpre d hd⟩⟩
  · rintro ⟨column, pre, post, he, hs, ⟨hlead, hpre⟩ | ⟨hno, hpre⟩⟩
    · refine ⟨name, column, Option.or_eq_some_iff.mpr (Or.inl ?_), rfl⟩
      refine List.find?_eq_some_iff_append.mpr ⟨by simp [hs, hlead], pre, post, he, fun d hd => ?_⟩
      by_cases hd' : Suits U words types d
      · simp [hpre d hd hd']
      · simp [hd']
    · refine ⟨name, column, Option.or_eq_some_iff.mpr (Or.inr ⟨hnone.mpr hno, ?_⟩), rfl⟩
      exact List.find?_eq_some_iff_append.mpr ⟨by simp [hs], pre, post, he, fun d hd => by simp [hpre d hd]⟩

theorem Chosen.get? (h : Chosen U schema words types (name, column)) : schema.get? name = some column := by
  obtain ⟨pre, post, he, -⟩ := h
  exact OrdDict.get?_eq_some_iff.mpr (by simp [he])

theorem Chosen.type_mem (h : Chosen U schema words types (name, column)) : column.type ∈ types := by
  obtain ⟨-, -, -, hs, -⟩ := h
  exact hs.1

theorem named_eq_some_iff {n : Option String} : named n = some name ↔ n = some name ∧ name ≠ "" := by
  simp [named, Option.filter_eq_some_iff]

theorem named_find_iff : named (find U schema words types) = some name ↔
    name ≠ "" ∧ ∃ column, Chosen U schema words types (name, column) := by
  rw [named_eq_some_iff, find_eq_some_iff, and_comm]

theorem mem_snapToOptions {options values : List String} {kept : String} :
    kept ∈ snapToOptions U options values strict ↔ ∃ v ∈ values, snapValue U options strict v = some kept := by
  rw [snapToOptions, List.mem_filterMap]

/-- What a strict card keeps is an option. -/
theorem mem_of_snapValue {options : List String} (hopts : ∀ o ∈ options, o ≠ "") {v kept : String}
    (h : snapValue U options true v = some kept) : kept ∈ options := by
  unfold snapValue at h
  split at h
  · cases h
  · rename_i o ho
    have hmem := List.mem_of_find?_eq_some ho
    rw [if_neg (hopts o hmem)] at h
    exact Option.some.inj h ▸ hmem

theorem snapToOptions_ne_nil_iff {options values : List String} : snapToOptions U options values strict ≠ [] ↔
    values ≠ [] ∧ (strict = true → ∃ v ∈ values, ∃ option ∈ options, Overlaps U v option) := by
  have hkept : ∀ v, (∃ kept, snapValue U options strict v = some kept) ↔
      (strict = true → ∃ option ∈ options, Overlaps U v option) := by
    intro v
    cases hfind : options.find? fun o => decide (Overlaps U v o) with
    | none =>
      have hno : ¬ ∃ option ∈ options, Overlaps U v option := by simpa using List.find?_eq_none.mp hfind
      simp only [snapValue, hfind, hno, imp_false]
      cases strict <;> simp
    | some o =>
      refine iff_of_true ⟨if o = "" then v else o, by simp only [snapValue, hfind]⟩ fun _ => ?_
      exact ⟨o, List.mem_of_find?_eq_some hfind, by simpa using List.find?_some hfind⟩
  constructor
  · intro hne
    obtain ⟨kept, hmem⟩ := List.exists_mem_of_ne_nil _ hne
    obtain ⟨v, hv, hsnap⟩ := mem_snapToOptions.mp hmem
    exact ⟨List.ne_nil_of_mem hv, fun hs => ⟨v, hv, (hkept v).mp ⟨kept, hsnap⟩ hs⟩⟩
  · rintro ⟨hne, hany⟩
    obtain ⟨v, hv, hover⟩ : ∃ v ∈ values, strict = true → ∃ option ∈ options, Overlaps U v option := by
      cases strict with
      | false =>
        obtain ⟨v, hv⟩ := List.exists_mem_of_ne_nil _ hne
        exact ⟨v, hv, nofun⟩
      | true =>
        obtain ⟨v, hv, hover⟩ := hany rfl
        exact ⟨v, hv, fun _ => hover⟩
    obtain ⟨kept, hsnap⟩ := (hkept v).mpr hover
    exact List.ne_nil_of_mem (mem_snapToOptions.mpr ⟨v, hv, hsnap⟩)

def keptValues (U : CharTables) (column : Column) (values : List String) (strict : Bool) : List String :=
  if column.type = .multiSelect ∨ column.type = .select then snapToOptions U column.options values strict else values

theorem keptValues_ne_nil_iff {values : List String} : keptValues U column values strict ≠ [] ↔ Takes U column values strict := by
  rw [keptValues, Takes]
  split
  · rename_i hchoice
    simp only [snapToOptions_ne_nil_iff, hchoice, true_imp_iff]
  · rename_i hfree
    simp only [hfree, false_imp_iff, imp_true_iff, and_true]

theorem textProperty_eq_some_iff {values : List String} : textProperty U schema words values strict = some (name, value) ↔
    name ≠ "" ∧ ∃ column, Chosen U schema words listTypes (name, column) ∧ keptValues U column values strict ≠ [] ∧
      textValue column.type (keptValues U column values strict) = some value := by
  simp only [textProperty, Option.bind_eq_bind, Option.bind_eq_some_iff, named_find_iff, Option.map_eq_some_iff,
    Option.ite_none_left_eq_some]
  constructor
  · rintro ⟨n, ⟨hn, column, hchosen⟩, c, hget, v, hv, he⟩
    obtain ⟨rfl, rfl⟩ := Prod.mk.inj he
    obtain rfl := Option.some.inj (hchosen.get?.symm.trans hget)
    exact ⟨hn, column, hchosen, hv⟩
  · rintro ⟨hn, column, hchosen, hv⟩
    exact ⟨name, ⟨hn, column, hchosen⟩, column, hchosen.get?, value, hv, rfl⟩

/-- A column for a text takes what it is given, and one value at least. -/
theorem exists_textValue {type : ColumnType} (ht : type ∈ listTypes) {values : List String} (hne : values ≠ []) :
    ∃ value, textValue type values = some value := by
  obtain ⟨v, vs, rfl⟩ := List.exists_cons_of_ne_nil hne
  simp only [listTypes, List.mem_cons, List.not_mem_nil, or_false] at ht
  rcases ht with rfl | rfl | rfl
  · exact ⟨_, rfl⟩
  · exact ⟨_, rfl⟩
  · exact ⟨_, rfl⟩

theorem exists_textProperty_iff {values : List String} :
    (∃ value, textProperty U schema words values strict = some (name, value)) ↔
      name ≠ "" ∧ ∃ column, Chosen U schema words listTypes (name, column) ∧ Takes U column values strict := by
  simp only [textProperty_eq_some_iff, ← keptValues_ne_nil_iff]
  constructor
  · rintro ⟨value, hn, column, hchosen, hne, -⟩
    exact ⟨hn, column, hchosen, hne⟩
  · rintro ⟨hn, column, hchosen, hne⟩
    obtain ⟨value, hv⟩ := exists_textValue hchosen.type_mem hne
    exact ⟨value, hn, column, hchosen, hne, hv⟩

/-- The value is of the column's type; in a choice it is among what was kept. -/
theorem textValue_spec {type : ColumnType} {values : List String} (h : textValue type values = some value) :
    value.type = type ∧ (value.names ≠ [] → type = .multiSelect ∨ type = .select) ∧ ∀ n ∈ value.names, n ∈ values := by
  cases type with
  | multiSelect =>
    obtain rfl := Option.some.inj h
    exact ⟨rfl, fun _ => Or.inl rfl, fun n hn => hn⟩
  | select =>
    obtain ⟨v, hv, rfl⟩ := Option.map_eq_some_iff.mp h
    refine ⟨rfl, fun _ => Or.inr rfl, fun n hn => ?_⟩
    obtain rfl := List.mem_singleton.mp hn
    exact List.mem_of_head? hv
  | richText =>
    obtain rfl := Option.some.inj h
    exact ⟨rfl, fun hne => absurd rfl hne, nofun⟩
  | _ => cases h

theorem firstOfType_spec {type : ColumnType} (h : firstOfType schema type = some name) :
    ∃ column, schema.get? name = some column ∧ column.type = type := by
  obtain ⟨⟨n, column⟩, hfind, rfl⟩ := Option.map_eq_some_iff.mp h
  exact ⟨column, OrdDict.get?_eq_some_iff.mpr (List.mem_of_find?_eq_some hfind), by simpa using List.find?_some hfind⟩

end Columns

/-- The types of the columns that a field is put into. -/
def Field.types : Field → List ColumnType
  | .title => [.title]
  | .deadline => [.date]
  | .assignees | .project => listTypes
  | .status => statusTypes

section Fields

variable {U : CharTables} {schema : Schema} {task : SinkTask} {strict : Bool} {name : String} {value : PropertyValue}

/-- What is written for a field fits its column. -/
def Fitting (schema : Schema) (strict : Bool) (f : Field) (name : String) (value : PropertyValue) : Prop :=
  ∃ column, schema.get? name = some column ∧ value.type = column.type ∧ column.type ∈ f.types ∧
    (strict = true → (∀ o ∈ column.options, o ≠ "") → ∀ option ∈ value.names, option ∈ column.options)

theorem textProperty_fits {words values : List String} {f : Field} (hf : f.types = listTypes)
    (h : textProperty U schema words values strict = some (name, value)) : Fitting schema strict f name value := by
  obtain ⟨-, column, hchosen, -, hv⟩ := textProperty_eq_some_iff.mp h
  obtain ⟨htype, hchoice, hnames⟩ := textValue_spec hv
  refine ⟨column, hchosen.get?, htype, hf ▸ hchosen.type_mem, ?_⟩
  rintro rfl hopts option hoption
  have hkept := hnames option hoption
  rw [keptValues, if_pos (hchoice (List.ne_nil_of_mem hoption))] at hkept
  obtain ⟨v, -, hsnap⟩ := mem_snapToOptions.mp hkept
  exact mem_of_snapValue hopts hsnap

theorem property_fits {f : Field} (h : property U schema task strict f = some (name, value)) :
    Fitting schema strict f name value := by
  cases f with
  | title =>
    obtain ⟨n, hn, he⟩ := Option.map_eq_some_iff.mp h
    obtain ⟨rfl, rfl⟩ := Prod.mk.inj he
    obtain ⟨column, hget, htype⟩ := firstOfType_spec (named_eq_some_iff.mp hn).1
    exact ⟨column, hget, htype.symm, by simp [htype, Field.types], fun _ _ _ h => by cases h⟩
  | deadline =>
    simp only [property, dateProperty, Option.bind_eq_bind, Option.bind_eq_some_iff] at h
    obtain ⟨deadline, -, n, hn, he⟩ := h
    obtain ⟨rfl, rfl⟩ := Prod.mk.inj (Option.some.inj he)
    obtain ⟨column, hget, htype⟩ : ∃ column, schema.get? n = some column ∧ column.type = .date := by
      rcases Option.or_eq_some_iff.mp (named_eq_some_iff.mp hn).1 with hfind | ⟨-, hfirst⟩
      · obtain ⟨-, column, hchosen⟩ := named_find_iff.mp hfind
        exact ⟨column, hchosen.get?, List.mem_singleton.mp hchosen.type_mem⟩
      · exact firstOfType_spec hfirst
    exact ⟨column, hget, htype.symm, by simp [htype, Field.types], fun _ _ _ h => by cases h⟩
  | assignees => exact textProperty_fits rfl (Option.ite_none_left_eq_some.mp h).2
  | project =>
    obtain ⟨project, -, htext⟩ := Option.bind_eq_some_iff.mp h
    exact textProperty_fits rfl htext
  | status =>
    simp only [property, statusProperty, Option.bind_eq_bind, Option.bind_eq_some_iff, named_find_iff] at h
    obtain ⟨n, ⟨-, column, hchosen⟩, c, hget, option, hoption, he⟩ := h
    obtain ⟨rfl, rfl⟩ := Prod.mk.inj (Option.some.inj he)
    obtain rfl := Option.some.inj (hchosen.get?.symm.trans hget)
    have hmem := List.mem_of_head? hoption
    refine ⟨column, hget, ?_, hchosen.type_mem, fun _ _ o ho => ?_⟩
    · have htypes := hchosen.type_mem
      simp only [statusTypes, List.mem_cons, List.not_mem_nil, or_false] at htypes
      rcases htypes with hstatus | hselect
      · rw [if_pos hstatus, hstatus]
        rfl
      · rw [if_neg (by simp [hselect]), hselect]
        rfl
    · split at ho
      · exact List.mem_singleton.mp ho ▸ hmem
      · exact List.mem_singleton.mp ho ▸ hmem

/-- The three fields that look for a word are written where they want to be. -/
theorem exists_property_iff {f : Field} (hf : f ≠ .title ∧ f ≠ .deadline) :
    (∃ value, property U schema task strict f = some (name, value)) ↔
      name ≠ "" ∧ ∃ column, Wants U schema task strict name column f := by
  cases f with
  | title => exact absurd rfl hf.1
  | deadline => exact absurd rfl hf.2
  | assignees =>
    simp only [property, assigneesProperty, Option.ite_none_left_eq_some, exists_and_left, exists_textProperty_iff]
    constructor
    · rintro ⟨-, hn, column, hchosen, htakes⟩
      exact ⟨hn, column, .assignees hchosen htakes⟩
    · rintro ⟨hn, column, hwants⟩
      cases hwants with
      | assignees hchosen htakes => exact ⟨htakes.1, hn, column, hchosen, htakes⟩
  | project =>
    simp only [property, projectProperty, Option.bind_eq_bind, Option.bind_eq_some_iff, named_eq_some_iff]
    constructor
    · rintro ⟨value, project, ⟨hp, hne⟩, htext⟩
      obtain ⟨hn, column, hchosen, htakes⟩ := exists_textProperty_iff.mp ⟨value, htext⟩
      exact ⟨hn, column, .project hchosen hp hne htakes⟩
    · rintro ⟨hn, column, hwants⟩
      cases hwants with
      | project hchosen hp hne htakes =>
        obtain ⟨value, htext⟩ := exists_textProperty_iff.mpr ⟨hn, column, hchosen, htakes⟩
        exact ⟨value, _, ⟨hp, hne⟩, htext⟩
  | status =>
    simp only [property, statusProperty, Option.bind_eq_bind, Option.bind_eq_some_iff, named_find_iff]
    constructor
    · rintro ⟨value, n, ⟨hn, column, hchosen⟩, c, hget, option, hoption, he⟩
      obtain ⟨rfl, -⟩ := Prod.mk.inj (Option.some.inj he)
      obtain rfl := Option.some.inj (hchosen.get?.symm.trans hget)
      exact ⟨hn, column, .status hchosen (List.ne_nil_of_mem (List.mem_of_head? hoption))⟩
    · rintro ⟨hn, column, hwants⟩
      cases hwants with
      | status hchosen hoptions =>
        obtain ⟨option, rest, ho⟩ := List.exists_cons_of_ne_nil hoptions
        exact ⟨_, name, ⟨hn, column, hchosen⟩, column, hchosen.get?, option, by rw [ho]; rfl, rfl⟩

/-- Fields of one column are written into columns of the same types. -/
theorem shared_types {f g : Field} {type : ColumnType} (hfg : f ≠ g) (hf : type ∈ f.types) (hg : type ∈ g.types) :
    f ≠ .title ∧ f ≠ .deadline := by
  cases f with
  | title =>
    obtain rfl := List.mem_singleton.mp hf
    cases g <;> first | exact absurd rfl hfg | exact absurd hg (by decide)
  | deadline =>
    obtain rfl := List.mem_singleton.mp hf
    cases g <;> first | exact absurd rfl hfg | exact absurd hg (by decide)
  | _ => exact ⟨nofun, nofun⟩

theorem nodup_properties_iff : ((Field.all.filterMap (property U schema task strict)).map Prod.fst).Nodup ↔
    ∀ f g name value value', property U schema task strict f = some (name, value) →
      property U schema task strict g = some (name, value') → f = g := by
  have hnodup : Field.all.Nodup := by decide
  have hall : ∀ f, f ∈ Field.all := by
    intro f
    cases f <;> decide
  rw [List.Nodup, List.pairwise_map, List.pairwise_filterMap]
  constructor
  · intro hpair f g name value value' hf hg
    by_contra hne
    have hsymm : Std.Symm fun f g => ∀ e, property U schema task strict f = some e →
        ∀ e', property U schema task strict g = some e' → e.1 ≠ e'.1 :=
      ⟨fun _ _ h e he e' he' heq => h e' he' e he heq.symm⟩
    exact hpair.forall (hall f) (hall g) hne _ hf _ hg rfl
  · intro hone
    exact hnodup.imp fun hne e he e' he' heq => hne (hone _ _ e.1 e.2 e'.2 he (by rw [heq]; exact he'))

theorem Wants.get? {column : Column} {f : Field} (h : Wants U schema task strict name column f) :
    schema.get? name = some column := by
  cases h with
  | assignees h => exact h.get?
  | project h => exact h.get?
  | status h => exact h.get?

theorem Wants.looksForWord {column : Column} {f : Field} (h : Wants U schema task strict name column f) :
    f ≠ .title ∧ f ≠ .deadline := by
  cases h with
  | _ => exact ⟨nofun, nofun⟩

/-- Fields that are written to one column share it. -/
theorem sharedColumn_of_property {f g : Field} {value' : PropertyValue} (hfg : f ≠ g)
    (hf : property U schema task strict f = some (name, value))
    (hg : property U schema task strict g = some (name, value')) : SharedColumn U schema task strict := by
  obtain ⟨column, hget, -, hftypes, -⟩ := property_fits hf
  obtain ⟨column', hget', -, hgtypes, -⟩ := property_fits hg
  obtain rfl := Option.some.inj (hget.symm.trans hget')
  obtain ⟨hn, c, hwants⟩ := (exists_property_iff (shared_types hfg hftypes hgtypes)).mp ⟨value, hf⟩
  obtain ⟨-, c', hwants'⟩ := (exists_property_iff (shared_types hfg.symm hgtypes hftypes)).mp ⟨value', hg⟩
  obtain rfl := Option.some.inj (hwants.get?.symm.trans hwants'.get?)
  exact ⟨name, c, f, g, hfg, hn, hwants, hwants'⟩

end Fields

/-- The fields of a card stay apart unless one column is for two of assignees, project and status. -/
theorem fields_apart_iff (U : CharTables) (schema : Schema)
    (hopts : ∀ name column, schema.get? name = some column → ∀ o ∈ column.options, o ≠ "") (task : SinkTask)
    (strict : Bool) : FieldsApart U schema task strict ↔ ¬ SharedColumn U schema task strict := by
  constructor
  · rintro hapart ⟨name, column, f, g, hfg, hn, hf, hg⟩
    obtain ⟨value, hvalue⟩ := (exists_property_iff hf.looksForWord).mpr ⟨hn, column, hf⟩
    obtain ⟨value', hvalue'⟩ := (exists_property_iff hg.looksForWord).mpr ⟨hn, column, hg⟩
    exact hfg (nodup_properties_iff.mp hapart.distinct f g name value value' hvalue hvalue')
  · intro hshared
    have hdistinct : ((Field.all.filterMap (property U schema task strict)).map Prod.fst).Nodup := by
      refine nodup_properties_iff.mpr fun f g name value value' hf hg => ?_
      by_contra hne
      exact hshared (sharedColumn_of_property hne hf hg)
    refine ⟨hdistinct, fun f name value hf => ?_, fun f name value hf => ?_, ?_⟩
    · obtain ⟨column, hget, htype, -⟩ := property_fits hf
      exact ⟨column, hget, htype⟩
    · have hall : f ∈ Field.all := by
        cases f <;> decide
      exact OrdDict.get?_ofList_of_mem hdistinct (List.mem_filterMap.mpr ⟨f, hall, hf⟩)
    · rintro rfl name value hvalue
      obtain ⟨f, -, hf⟩ := List.mem_filterMap.mp (OrdDict.mem_of_get?_ofList hvalue)
      obtain ⟨column, hget, -, -, hknown⟩ := property_fits hf
      exact ⟨column, hget, hknown rfl (hopts name column hget)⟩

section Boards

/-- A board with one column for the state of a project. -/
def projectStateBoard : Schema := .ofList [("Name", ⟨.title, []⟩), ("Статус проекта", ⟨.select, ["Сделать", "Готово"]⟩)]

def briefTask : SinkTask := ⟨"бриф", [], some "МТС", none, none⟩

theorem fields_apart_iff_projectState : FieldsApart .plain projectStateBoard briefTask true ↔
    ¬ SharedColumn .plain projectStateBoard briefTask true := by
  have hnames : ∀ column ∈ projectStateBoard.values, ∀ o ∈ column.options, o ≠ "" := by decide
  exact fields_apart_iff .plain projectStateBoard (fun name column h => hnames column (OrdDict.mem_values.mpr ⟨name, h⟩))
    briefTask true

/-- The client is put into the column and the first state over it. -/
theorem project_overwritten : property .plain projectStateBoard briefTask false .project = some ("Статус проекта", .select "МТС") ∧
    (buildProperties .plain projectStateBoard briefTask false).get? "Статус проекта" = some (.select "Сделать") ∧
    ¬ FieldsApart .plain projectStateBoard briefTask false := by
  have hproject : property .plain projectStateBoard briefTask false .project = some ("Статус проекта", .select "МТС") := by
    decide +kernel
  have hstatus : (buildProperties .plain projectStateBoard briefTask false).get? "Статус проекта" = some (.select "Сделать") := by
    decide +kernel
  refine ⟨hproject, hstatus, fun h => ?_⟩
  have hkept := h.kept .project "Статус проекта" (.select "МТС") hproject
  rw [hstatus] at hkept
  exact absurd hkept (by decide)

end Boards

end Notion

end Planner

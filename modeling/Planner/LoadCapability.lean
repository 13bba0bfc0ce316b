import Planner.Repo

/-! Loading the capability document: roles, their standard skills, and who holds
which role. The loader keeps caches of what the tables hold, so as not to insert
a row that is there. -/

namespace Planner

structure SkillEntry where
  name : String
  description : Option String := none
  deriving DecidableEq, Repr

structure RoleEntry where
  name : String
  description : Option String := none
  skills : List SkillEntry := []
  deriving DecidableEq, Repr

/-- A row of `roles` or of `skills`. -/
structure NamedRow where
  name : String
  description : Option String
  deriving DecidableEq, Repr

/-- A table whose name column is unique; `nextId` is the id of the next new row. -/
structure NameTable where
  rows : OrdDict UUID NamedRow
  nextId : UUID
  unique : (rows.values.map NamedRow.name).Nodup
  below : ∀ id ∈ rows.keys, id < nextId

/-- A join table: the pair is its primary key. -/
structure LinkTable where
  rows : List (UUID × UUID)
  nodup : rows.Nodup

namespace NameTable

variable (t : NameTable)

def nameOf (id : UUID) : Option String := (t.rows.get? id).map NamedRow.name

/-- `INSERT`, with the id of the new row. -/
def insert (name : String) (description : Option String) : Except PlannerError (UUID × NameTable) :=
  if h : name ∈ t.rows.values.map NamedRow.name then .error .integrity
  else
    have hid : t.nextId ∉ t.rows.keys := fun hk => absurd (t.below _ hk) (lt_irrefl _)
    .ok (t.nextId, {
      rows := t.rows.insert t.nextId ⟨name, description⟩
      nextId := t.nextId + 1
      unique := by
        rw [OrdDict.values_insert_of_not_mem hid, List.map_append, List.map_singleton]
        exact t.unique.append (List.nodup_singleton name) (List.disjoint_singleton.mpr h)
      below := fun id hk => by
        rcases OrdDict.mem_keys_insert.mp hk with rfl | hk
        · exact Nat.lt_succ_self _
        · exact (t.below id hk).trans (Nat.lt_succ_self _) })

/-- `UPDATE` of the description. -/
def describe (id : UUID) (description : Option String) : NameTable where
  rows := t.rows.modify id ({ · with description := description })
  nextId := t.nextId
  unique := by
    rw [OrdDict.map_values_modify]
    · exact t.unique
    · exact fun row => rfl
  below := by
    rw [OrdDict.keys_modify]
    exact t.below

/-- `{row.name: row for row in rows}`, as ids. -/
def byName : OrdDict String UUID := .ofList (t.rows.entries.map fun e => (e.2.name, e.1))

end NameTable

def LinkTable.insert (t : LinkTable) (link : UUID × UUID) : Except PlannerError LinkTable :=
  if h : link ∈ t.rows then .error .integrity
  else .ok ⟨t.rows ++ [link], t.nodup.append (List.nodup_singleton link) (List.disjoint_singleton.mpr h)⟩

/-- The four tables of the capability layer, and the `role_label` column of `people`. -/
structure CapabilityTables where
  roles : NameTable
  skills : NameTable
  roleSkills : LinkTable
  personRoles : LinkTable
  people : OrdDict UUID (Option String)

/-- The tables within the transaction, and what the loader remembers of them. -/
structure CapabilityLoad where
  tables : CapabilityTables
  skillsByName : OrdDict String UUID
  rolesByName : OrdDict String UUID
  existingRoleSkills : List (UUID × UUID)
  existingPersonRoles : List (UUID × UUID)

namespace CapabilityLoad

def start (t : CapabilityTables) : CapabilityLoad where
  tables := t
  skillsByName := t.skills.byName
  rolesByName := t.roles.byName
  existingRoleSkills := t.roleSkills.rows
  existingPersonRoles := t.personRoles.rows

variable (l : CapabilityLoad)

def describeRole (id : UUID) (description : Option String) : CapabilityLoad :=
  { l with tables := { l.tables with roles := l.tables.roles.describe id description } }

/-- The role of an entry, new or described anew; flushed, so that it has an id. -/
def addRole (entry : RoleEntry) : Except PlannerError (UUID × CapabilityLoad) :=
  match l.rolesByName.get? entry.name with
  | none => (l.tables.roles.insert entry.name entry.description).map fun (id, roles) =>
    (id, { l with
      tables := { l.tables with roles := roles }
      rolesByName := l.rolesByName.insert entry.name id })
  | some id => .ok (id, l.describeRole id entry.description)

/-- The skill of an entry, new or as it is. -/
def addSkill (sk : SkillEntry) : Except PlannerError (UUID × CapabilityLoad) :=
  match l.skillsByName.get? sk.name with
  | none => (l.tables.skills.insert sk.name sk.description).map fun (id, skills) =>
    (id, { l with
      tables := { l.tables with skills := skills }
      skillsByName := l.skillsByName.insert sk.name id })
  | some id => .ok (id, l)

/-- `RoleSkill(role_id, skill_id)`, unless the loader knows the link. -/
def linkSkill (link : UUID × UUID) : Except PlannerError CapabilityLoad :=
  if link ∈ l.existingRoleSkills then .ok l
  else if link.1 ∈ l.tables.roles.rows.keys ∧ link.2 ∈ l.tables.skills.rows.keys then
    (l.tables.roleSkills.insert link).map fun roleSkills =>
      { l with
        tables := { l.tables with roleSkills := roleSkills }
        existingRoleSkills := l.existingRoleSkills ++ [link] }
  else .error .integrity

/-- `PersonRole(person_id, role_id)`, unless the loader knows the link. -/
def linkRole (link : UUID × UUID) : Except PlannerError CapabilityLoad :=
  if link ∈ l.existingPersonRoles then .ok l
  else if link.1 ∈ l.tables.people.keys ∧ link.2 ∈ l.tables.roles.rows.keys then
    (l.tables.personRoles.insert link).map fun personRoles =>
      { l with
        tables := { l.tables with personRoles := personRoles }
        existingPersonRoles := l.existingPersonRoles ++ [link] }
  else .error .integrity

def loadSkill (roleId : UUID) (l : CapabilityLoad) (sk : SkillEntry) : Except PlannerError CapabilityLoad :=
  (l.addSkill sk).bind fun (skillId, l) => l.linkSkill (roleId, skillId)

def loadRole (l : CapabilityLoad) (entry : RoleEntry) : Except PlannerError CapabilityLoad :=
  (l.addRole entry).bind fun (roleId, l) => entry.skills.foldlM (loadSkill roleId) l

/-- Links a person to the role that the label names; no label, or an empty one, names none. -/
def linkPerson (l : CapabilityLoad) (personId : UUID) : Except PlannerError CapabilityLoad :=
  match (l.tables.people.get? personId).join with
  | none => .ok l
  | some label =>
    if label = "" then .ok l
    else
      match l.rolesByName.get? label with
      | none => .ok l
      | some roleId => l.linkRole (personId, roleId)

end CapabilityLoad

/-- `load_capability`: first all roles, then all people. -/
def loadCapability (t : CapabilityTables) (roles : List RoleEntry) (people : OrdDict String UUID) :
    Except PlannerError CapabilityTables :=
  (roles.foldlM CapabilityLoad.loadRole (.start t)).bind fun l =>
    (people.values.foldlM CapabilityLoad.linkPerson l).map CapabilityLoad.tables

namespace NameTable

variable {t : NameTable} {id id' : UUID} {name : String} {description : Option String}

theorem nameOf_unique (h : t.nameOf id = some name) (h' : t.nameOf id' = some name) : id = id' := by
  obtain ⟨row, hrow, hname⟩ := Option.map_eq_some_iff.mp h
  obtain ⟨row', hrow', hname'⟩ := Option.map_eq_some_iff.mp h'
  have hmem := OrdDict.get?_eq_some_iff.mp hrow
  have hmem' := OrdDict.get?_eq_some_iff.mp hrow'
  have hunique : (t.rows.entries.map fun e => e.2.name).Nodup := by
    simpa only [OrdDict.values, List.map_map, Function.comp_def] using t.unique
  have hsame := List.inj_on_of_nodup_map hunique hmem hmem' (hname.trans hname'.symm)
  exact congrArg Prod.fst hsame

theorem nameOf_mem_keys (h : t.nameOf id = some name) : id ∈ t.rows.keys := by
  obtain ⟨row, hrow, -⟩ := Option.map_eq_some_iff.mp h
  exact OrdDict.mem_keys.mpr (by rw [hrow]; rfl)

theorem exists_nameOf_iff : (∃ id, t.nameOf id = some name) ↔ name ∈ t.rows.values.map NamedRow.name := by
  rw [List.mem_map]
  constructor
  · rintro ⟨id, h⟩
    obtain ⟨row, hrow, hname⟩ := Option.map_eq_some_iff.mp h
    exact ⟨row, OrdDict.mem_values.mpr ⟨id, hrow⟩, hname⟩
  · rintro ⟨row, hrow, hname⟩
    obtain ⟨id, hid⟩ := OrdDict.mem_values.mp hrow
    exact ⟨id, by rw [nameOf, hid, Option.map_some, hname]⟩

@[simp] theorem nameOf_describe (t : NameTable) (id id' : UUID) (description : Option String) :
    (t.describe id description).nameOf id' = t.nameOf id' := by
  rw [nameOf, describe, OrdDict.get?_modify]
  split
  · rw [Option.map_map]
    rfl
  · rfl

/-- A new name gets in, under an id that was free. -/
theorem insert_ok (h : ∀ id, t.nameOf id ≠ some name) (description : Option String) :
    ∃ t', t.insert name description = .ok (t.nextId, t') ∧ t.nameOf t.nextId = none ∧
      t'.rows = t.rows.insert t.nextId ⟨name, description⟩ := by
  have hnew : ¬ name ∈ t.rows.values.map NamedRow.name := by
    rw [← exists_nameOf_iff]
    rintro ⟨id, hid⟩
    exact h id hid
  have hid : t.nameOf t.nextId = none := by
    rw [nameOf, Option.map_eq_none_iff, OrdDict.get?_eq_none_iff]
    exact fun hk => absurd (t.below _ hk) (lt_irrefl _)
  rw [insert, dif_neg hnew]
  exact ⟨_, rfl, hid, rfl⟩

theorem get?_byName : t.byName.get? name = some id ↔ t.nameOf id = some name := by
  have hunique : ((t.rows.entries.map fun e => (e.2.name, e.1)).map Prod.fst).Nodup := by
    simpa only [OrdDict.values, List.map_map, Function.comp_def] using t.unique
  constructor
  · intro h
    obtain ⟨e, he, heq⟩ := List.mem_map.mp (OrdDict.mem_of_get?_ofList h)
    obtain ⟨rfl, rfl⟩ := Prod.mk.inj heq
    rw [nameOf, OrdDict.get?_eq_some_iff.mpr he]
    rfl
  · intro h
    obtain ⟨row, hrow, rfl⟩ := Option.map_eq_some_iff.mp h
    exact OrdDict.get?_ofList_of_mem hunique (List.mem_map.mpr ⟨_, OrdDict.get?_eq_some_iff.mp hrow, rfl⟩)

end NameTable

end Planner

import Planner.LoadCapability

/-! Loading the capability document twice is loading it once. After a run the
tables are settled: every role, skill and link of the document is there, and each
role has the description that its last entry gives; a run on settled tables
inserts nothing and describes every role as it is. -/

namespace Planner

/-- A loop that cannot fail establishes `P` of the elements it has seen. -/
theorem foldlM_ok {α β ε : Type} {f : β → α → Except ε β} {P : List α → β → Prop}
    (step : ∀ done x b, P done b → ∃ b', f b x = .ok b' ∧ P (done ++ [x]) b') (l : List α) {b : β} (h : P [] b) :
    ∃ b', l.foldlM f b = .ok b' ∧ P l b' := by
  have key : ∀ (l done : List α) (b : β), P done b → ∃ b', l.foldlM f b = .ok b' ∧ P (done ++ l) b' := by
    intro l
    induction l with
    | nil => exact fun done b hb => ⟨b, rfl, by rwa [List.append_nil]⟩
    | cons x l ih =>
      intro done b hb
      obtain ⟨b₁, hx, hb₁⟩ := step done x b hb
      obtain ⟨b', hl, hb'⟩ := ih (done ++ [x]) b₁ hb₁
      refine ⟨b', ?_, by rwa [List.append_assoc, List.singleton_append] at hb'⟩
      rw [List.foldlM_cons, hx]
      exact hl
  exact key l [] b h

/-- The description of a role after the entries that name it. -/
def described (roles : List RoleEntry) (name : String) (description : Option String) : Option String :=
  roles.foldl (fun d entry => if entry.name = name then entry.description else d) description

theorem described_cons (entry : RoleEntry) (roles : List RoleEntry) (name : String) (d : Option String) :
    described (entry :: roles) name d = described roles name (if entry.name = name then entry.description else d) := rfl

theorem described_snoc (roles : List RoleEntry) (entry : RoleEntry) (name : String) (d : Option String) :
    described (roles ++ [entry]) name d =
      if entry.name = name then entry.description else described roles name d := by
  rw [described, List.foldl_append]
  rfl

/-- The cache answers what the table holds. -/
def Cached (cache : OrdDict String UUID) (t : NameTable) : Prop :=
  ∀ name id, cache.get? name = some id ↔ t.nameOf id = some name

namespace CapabilityTables

/-- Names and links of `t` are those of `t'`, too. -/
structure Extends (t t' : CapabilityTables) : Prop where
  roles : ∀ id name, t.roles.nameOf id = some name → t'.roles.nameOf id = some name
  skills : ∀ id name, t.skills.nameOf id = some name → t'.skills.nameOf id = some name
  roleSkills : t.roleSkills.rows ⊆ t'.roleSkills.rows
  personRoles : t.personRoles.rows ⊆ t'.personRoles.rows
  people : t'.people = t.people

theorem Extends.refl (t : CapabilityTables) : t.Extends t :=
  ⟨fun _ _ h => h, fun _ _ h => h, List.Subset.refl _, List.Subset.refl _, rfl⟩

theorem Extends.trans {t u v : CapabilityTables} (h : t.Extends u) (h' : u.Extends v) : t.Extends v where
  roles id name hn := h'.roles id name (h.roles id name hn)
  skills id name hn := h'.skills id name (h.skills id name hn)
  roleSkills := List.Subset.trans h.roleSkills h'.roleSkills
  personRoles := List.Subset.trans h.personRoles h'.personRoles
  people := h'.people.trans h.people

variable (t : CapabilityTables)

def HasSkill (roleId : UUID) (sk : SkillEntry) : Prop :=
  ∃ skillId, t.skills.nameOf skillId = some sk.name ∧ (roleId, skillId) ∈ t.roleSkills.rows

def HasRole (entry : RoleEntry) : Prop :=
  ∃ roleId, t.roles.nameOf roleId = some entry.name ∧ ∀ sk ∈ entry.skills, t.HasSkill roleId sk

/-- The role that the label names, if it names one, is the person's. -/
def Linked (personId : UUID) : Prop :=
  ∀ label, (t.people.get? personId).join = some label → label ≠ "" →
    ∀ roleId, t.roles.nameOf roleId = some label → (personId, roleId) ∈ t.personRoles.rows

def Described (roles : List RoleEntry) : Prop :=
  ∀ id row, t.roles.rows.get? id = some row → described roles row.name row.description = row.description

structure Settled (roles : List RoleEntry) (people : List UUID) : Prop where
  hasRoles : ∀ entry ∈ roles, t.HasRole entry
  described : t.Described roles
  linked : ∀ personId ∈ people, t.Linked personId

variable {t} {t' : CapabilityTables}

theorem HasSkill.mono (h : t.Extends t') {roleId : UUID} {sk : SkillEntry} (hs : t.HasSkill roleId sk) :
    t'.HasSkill roleId sk := by
  obtain ⟨skillId, hname, hlink⟩ := hs
  exact ⟨skillId, h.skills _ _ hname, h.roleSkills hlink⟩

theorem HasRole.mono (h : t.Extends t') {entry : RoleEntry} (hr : t.HasRole entry) : t'.HasRole entry := by
  obtain ⟨roleId, hname, hskills⟩ := hr
  exact ⟨roleId, h.roles _ _ hname, fun sk hsk => (hskills sk hsk).mono h⟩

end CapabilityTables

section Tables

variable {cache : OrdDict String UUID} {t : NameTable} {name : String}

/-- A new row enters the table and the cache alike. -/
theorem insert_cached (hcache : Cached cache t) (h : cache.get? name = none) (description : Option String) :
    ∃ t', t.insert name description = .ok (t.nextId, t') ∧ Cached (cache.insert name t.nextId) t' ∧
      (∀ id n, t.nameOf id = some n → t'.nameOf id = some n) ∧ t'.nameOf t.nextId = some name ∧
      t'.rows = t.rows.insert t.nextId ⟨name, description⟩ := by
  have hnew : ∀ id, t.nameOf id ≠ some name := fun id hid => by
    rw [(hcache name id).mpr hid] at h
    cases h
  obtain ⟨t', hinsert, hfree, hrows⟩ := t.insert_ok hnew description
  have hnames : ∀ id, t'.nameOf id = if id = t.nextId then some name else t.nameOf id := by
    intro id
    rw [NameTable.nameOf, hrows, OrdDict.get?_insert]
    split <;> rfl
  refine ⟨t', hinsert, fun n id => ?_, fun id n hid => ?_, ?_, hrows⟩
  · rw [OrdDict.get?_insert, hnames]
    by_cases hn : n = name
    · subst hn
      by_cases hid : id = t.nextId
      · simp [hid]
      · rw [if_pos rfl, if_neg hid]
        exact iff_of_false (fun he => hid (Option.some.inj he).symm) (hnew id)
    · by_cases hid : id = t.nextId
      · rw [if_neg hn, if_pos hid, hid, hcache, hfree]
        exact iff_of_false (fun he => by cases he) fun he => hn (Option.some.inj he).symm
      · rw [if_neg hn, if_neg hid]
        exact hcache n id
  · rw [hnames, if_neg, hid]
    rintro rfl
    rw [hfree] at hid
    cases hid
  · rw [hnames, if_pos rfl]

/-- A link that the loader does not know is inserted, and the cache stays in step. -/
theorem LinkTable.insert_ok {t : LinkTable} {known : List (UUID × UUID)} (hknown : known = t.rows)
    {link : UUID × UUID} (h : link ∉ known) :
    ∃ t', t.insert link = .ok t' ∧ known ++ [link] = t'.rows ∧ t.rows ⊆ t'.rows ∧ link ∈ t'.rows := by
  subst hknown
  rw [LinkTable.insert, dif_neg h]
  exact ⟨_, rfl, rfl, List.subset_append_left _ _, List.mem_append_right _ (List.mem_singleton_self link)⟩

end Tables

namespace CapabilityLoad

/-- The caches are in step with the tables. -/
structure Synced (l : CapabilityLoad) : Prop where
  roles : Cached l.rolesByName l.tables.roles
  skills : Cached l.skillsByName l.tables.skills
  roleSkills : l.existingRoleSkills = l.tables.roleSkills.rows
  personRoles : l.existingPersonRoles = l.tables.personRoles.rows

theorem synced_start (t : CapabilityTables) : (start t).Synced :=
  ⟨fun _ _ => NameTable.get?_byName, fun _ _ => NameTable.get?_byName, rfl, rfl⟩

variable {l : CapabilityLoad}

/-- A step that leaves the caches in step and drops nothing. -/
structure Grows (l l' : CapabilityLoad) : Prop where
  synced : l'.Synced
  keeps : l.tables.Extends l'.tables

theorem Grows.trans {l l₁ l₂ : CapabilityLoad} (h : Grows l l₁) (h' : Grows l₁ l₂) : Grows l l₂ :=
  ⟨h'.synced, h.keeps.trans h'.keeps⟩

theorem describeRole_grows (hs : l.Synced) (id : UUID) (description : Option String) :
    Grows l (l.describeRole id description) where
  synced := ⟨fun n i => (hs.roles n i).trans (by rw [describeRole, NameTable.nameOf_describe]), hs.skills,
    hs.roleSkills, hs.personRoles⟩
  keeps := ⟨fun i n h => by rwa [describeRole, NameTable.nameOf_describe], fun _ _ h => h, List.Subset.refl _,
    List.Subset.refl _, rfl⟩

/-- The role is there, with the description of the entry; the others are as they were. -/
theorem addRole_ok (hs : l.Synced) (entry : RoleEntry) : ∃ id l', l.addRole entry = .ok (id, l') ∧ Grows l l' ∧
    l'.tables.roles.nameOf id = some entry.name ∧ ∀ i row, l'.tables.roles.rows.get? i = some row →
      if row.name = entry.name then row.description = entry.description
      else l.tables.roles.rows.get? i = some row := by
  unfold addRole
  cases hget : l.rolesByName.get? entry.name with
  | none =>
    obtain ⟨roles, hinsert, hcached, hkept, hname, hrows⟩ := insert_cached hs.roles hget entry.description
    rw [hinsert]
    refine ⟨_, _, rfl, ⟨⟨hcached, hs.skills, hs.roleSkills, hs.personRoles⟩,
      ⟨hkept, fun _ _ h => h, List.Subset.refl _, List.Subset.refl _, rfl⟩⟩, hname, fun i row hrow => ?_⟩
    dsimp only at hrow
    rw [hrows, OrdDict.get?_insert] at hrow
    split at hrow
    · obtain rfl := Option.some.inj hrow
      rw [if_pos rfl]
    · rw [if_neg]
      · exact hrow
      · intro he
        have hi : l.tables.roles.nameOf i = some entry.name := by
          rw [NameTable.nameOf, hrow, Option.map_some, he]
        rw [(hs.roles _ _).mpr hi] at hget
        cases hget
  | some id =>
    have hid := (hs.roles _ _).mp hget
    refine ⟨id, _, rfl, describeRole_grows hs id entry.description, ?_, fun i row hrow => ?_⟩
    · rwa [describeRole, NameTable.nameOf_describe]
    · simp only [describeRole, NameTable.describe, OrdDict.get?_modify] at hrow
      split at hrow
      · rename_i hi
        obtain ⟨old, hold, rfl⟩ := Option.map_eq_some_iff.mp hrow
        rw [if_pos]
        rw [hi] at hold
        rw [NameTable.nameOf, hold] at hid
        exact Option.some.inj hid
      · rename_i hi
        rw [if_neg]
        · exact hrow
        · intro he
          have hname : l.tables.roles.nameOf i = some entry.name := by
            rw [NameTable.nameOf, hrow, Option.map_some, he]
          exact hi (NameTable.nameOf_unique hname hid)

theorem addSkill_ok (hs : l.Synced) (sk : SkillEntry) : ∃ id l', l.addSkill sk = .ok (id, l') ∧ Grows l l' ∧
    l'.tables.skills.nameOf id = some sk.name ∧ l'.tables.roles = l.tables.roles := by
  unfold addSkill
  cases hget : l.skillsByName.get? sk.name with
  | none =>
    obtain ⟨skills, hinsert, hcached, hkept, hname, -⟩ := insert_cached hs.skills hget sk.description
    rw [hinsert]
    exact ⟨_, _, rfl, ⟨⟨hs.roles, hcached, hs.roleSkills, hs.personRoles⟩,
      ⟨fun _ _ h => h, hkept, List.Subset.refl _, List.Subset.refl _, rfl⟩⟩, hname, rfl⟩
  | some id => exact ⟨id, l, rfl, ⟨hs, .refl _⟩, (hs.skills _ _).mp hget, rfl⟩

theorem linkSkill_ok (hs : l.Synced) (link : UUID × UUID) (hrole : link.1 ∈ l.tables.roles.rows.keys)
    (hskill : link.2 ∈ l.tables.skills.rows.keys) : ∃ l', l.linkSkill link = .ok l' ∧ Grows l l' ∧
      link ∈ l'.tables.roleSkills.rows ∧ l'.tables.roles = l.tables.roles := by
  unfold linkSkill
  split
  · rename_i hknown
    exact ⟨l, rfl, ⟨hs, .refl _⟩, hs.roleSkills ▸ hknown, rfl⟩
  · rename_i hnew
    obtain ⟨roleSkills, hinsert, hcached, hkept, hmem⟩ := LinkTable.insert_ok hs.roleSkills hnew
    rw [if_pos ⟨hrole, hskill⟩, hinsert]
    have hkeeps : l.tables.Extends { l.tables with roleSkills := roleSkills } :=
      ⟨fun _ _ h => h, fun _ _ h => h, hkept, List.Subset.refl _, rfl⟩
    exact ⟨_, rfl, ⟨⟨hs.roles, hs.skills, hcached, hs.personRoles⟩, hkeeps⟩, hmem, rfl⟩

theorem linkRole_ok (hs : l.Synced) (link : UUID × UUID) (hperson : link.1 ∈ l.tables.people.keys)
    (hrole : link.2 ∈ l.tables.roles.rows.keys) : ∃ l', l.linkRole link = .ok l' ∧ Grows l l' ∧
      link ∈ l'.tables.personRoles.rows ∧ l'.tables.roles = l.tables.roles := by
  unfold linkRole
  split
  · rename_i hknown
    exact ⟨l, rfl, ⟨hs, .refl _⟩, hs.personRoles ▸ hknown, rfl⟩
  · rename_i hnew
    obtain ⟨personRoles, hinsert, hcached, hkept, hmem⟩ := LinkTable.insert_ok hs.personRoles hnew
    rw [if_pos ⟨hperson, hrole⟩, hinsert]
    have hkeeps : l.tables.Extends { l.tables with personRoles := personRoles } :=
      ⟨fun _ _ h => h, fun _ _ h => h, List.Subset.refl _, hkept, rfl⟩
    exact ⟨_, rfl, ⟨⟨hs.roles, hs.skills, hs.roleSkills, hcached⟩, hkeeps⟩, hmem, rfl⟩

theorem loadSkill_ok (hs : l.Synced) {roleId : UUID} (hrole : roleId ∈ l.tables.roles.rows.keys) (sk : SkillEntry) :
    ∃ l', loadSkill roleId l sk = .ok l' ∧ Grows l l' ∧ l'.tables.HasSkill roleId sk ∧
      l'.tables.roles = l.tables.roles := by
  obtain ⟨skillId, l₁, hadd, hgrows, hname, hroles⟩ := addSkill_ok hs sk
  obtain ⟨l₂, hlink, hgrows', hmem, hroles'⟩ := linkSkill_ok hgrows.synced (roleId, skillId)
    (hroles ▸ hrole) (NameTable.nameOf_mem_keys hname)
  refine ⟨l₂, ?_, hgrows.trans hgrows', ⟨skillId, hgrows'.keeps.skills _ _ hname, hmem⟩, hroles'.trans hroles⟩
  rw [loadSkill, hadd]
  exact hlink

theorem loadSkills_ok (hs : l.Synced) {roleId : UUID} (hrole : roleId ∈ l.tables.roles.rows.keys)
    (skills : List SkillEntry) : ∃ l', skills.foldlM (loadSkill roleId) l = .ok l' ∧ Grows l l' ∧
      (∀ sk ∈ skills, l'.tables.HasSkill roleId sk) ∧ l'.tables.roles = l.tables.roles := by
  refine foldlM_ok (P := fun done l' => Grows l l' ∧ (∀ sk ∈ done, l'.tables.HasSkill roleId sk) ∧
    l'.tables.roles = l.tables.roles) ?_ skills ⟨⟨hs, .refl _⟩, by simp, rfl⟩
  rintro done sk l₁ ⟨hgrows, hdone, hroles⟩
  obtain ⟨l₂, hload, hgrows', hsk, hroles'⟩ := loadSkill_ok hgrows.synced (hroles ▸ hrole) sk
  refine ⟨l₂, hload, hgrows.trans hgrows', fun sk' hsk' => ?_, hroles'.trans hroles⟩
  rcases List.mem_append.mp hsk' with h | h
  · exact (hdone sk' h).mono hgrows'.keeps
  · exact List.mem_singleton.mp h ▸ hsk

theorem loadRole_ok (hs : l.Synced) {done : List RoleEntry} (hdone : l.tables.Described done) (entry : RoleEntry) :
    ∃ l', l.loadRole entry = .ok l' ∧ Grows l l' ∧ l'.tables.HasRole entry ∧
      l'.tables.Described (done ++ [entry]) := by
  obtain ⟨roleId, l₁, hadd, hgrows, hname, hdescribed⟩ := addRole_ok hs entry
  obtain ⟨l₂, hload, hgrows', hskills, hroles⟩ := loadSkills_ok hgrows.synced (NameTable.nameOf_mem_keys hname)
    entry.skills
  refine ⟨l₂, ?_, hgrows.trans hgrows', ⟨roleId, hgrows'.keeps.roles _ _ hname, hskills⟩, fun i row hrow => ?_⟩
  · rw [loadRole, hadd]
    exact hload
  · rw [hroles] at hrow
    have hi := hdescribed i row hrow
    rw [described_snoc]
    split at hi
    · rename_i he
      rw [if_pos he.symm, hi]
    · rename_i he
      rw [if_neg (Ne.symm he)]
      exact hdone i row hi

theorem linkPerson_ok (hs : l.Synced) (personId : UUID) : ∃ l', l.linkPerson personId = .ok l' ∧ Grows l l' ∧
    l'.tables.Linked personId ∧ l'.tables.roles = l.tables.roles := by
  unfold linkPerson
  cases hlabel : (l.tables.people.get? personId).join with
  | none =>
    refine ⟨l, rfl, ⟨hs, .refl _⟩, fun label h => ?_, rfl⟩
    cases hlabel.symm.trans h
  | some label =>
    dsimp only
    by_cases hempty : label = ""
    · rw [if_pos hempty]
      refine ⟨l, rfl, ⟨hs, .refl _⟩, fun label' h hne => ?_, rfl⟩
      exact absurd (Option.some.inj (h.symm.trans hlabel) ▸ hempty) hne
    · rw [if_neg hempty]
      cases hget : l.rolesByName.get? label with
      | none =>
        refine ⟨l, rfl, ⟨hs, .refl _⟩, fun label' h _ roleId hrole => ?_, rfl⟩
        obtain rfl := Option.some.inj (h.symm.trans hlabel)
        cases hget.symm.trans ((hs.roles _ _).mpr hrole)
      | some roleId =>
        have hname := (hs.roles _ _).mp hget
        have hperson : personId ∈ l.tables.people.keys := by
          have hcolumn := Option.join_eq_some_iff.mp hlabel
          exact OrdDict.mem_keys.mpr (by rw [hcolumn]; rfl)
        obtain ⟨l', hlink, hgrows, hmem, hroles⟩ := linkRole_ok hs (personId, roleId) hperson
          (NameTable.nameOf_mem_keys hname)
        refine ⟨l', hlink, hgrows, fun label' h _ roleId' hrole => ?_, hroles⟩
        rw [hgrows.keeps.people] at h
        obtain rfl := Option.some.inj (h.symm.trans hlabel)
        rw [NameTable.nameOf_unique hrole (hgrows.keeps.roles _ _ hname)]
        exact hmem

/-- Nothing to insert: the entry only describes its role. -/
theorem loadRole_known (hs : l.Synced) {entry : RoleEntry} (h : l.tables.HasRole entry) :
    ∃ id, l.tables.roles.nameOf id = some entry.name ∧ l.loadRole entry = .ok (l.describeRole id entry.description) := by
  obtain ⟨id, hname, hskills⟩ := h
  refine ⟨id, hname, ?_⟩
  rw [loadRole, addRole, (hs.roles _ _).mpr hname]
  refine Eq.trans (b := entry.skills.foldlM (loadSkill id) _) rfl ?_
  have hkeep : ∀ skills : List SkillEntry, (∀ sk ∈ skills, l.tables.HasSkill id sk) →
      skills.foldlM (loadSkill id) (l.describeRole id entry.description) =
        .ok (l.describeRole id entry.description) := by
    intro skills
    induction skills with
    | nil => exact fun _ => rfl
    | cons sk skills ih =>
      intro hall
      obtain ⟨skillId, hskill, hlink⟩ := hall sk List.mem_cons_self
      have hknown : (id, skillId) ∈ l.existingRoleSkills := hs.roleSkills ▸ hlink
      have hload : loadSkill id (l.describeRole id entry.description) sk =
          .ok (l.describeRole id entry.description) := by
        rw [loadSkill, addSkill, describeRole, (hs.skills _ _).mpr hskill]
        exact if_pos hknown
      rw [List.foldlM_cons, hload]
      exact ih fun sk' h' => hall sk' (List.mem_cons_of_mem _ h')
  exact hkeep entry.skills hskills

theorem loadRoles_known (hs : l.Synced) (roles : List RoleEntry) (h : ∀ entry ∈ roles, l.tables.HasRole entry) :
    ∃ t : NameTable, roles.foldlM loadRole l = .ok { l with tables := { l.tables with roles := t } } ∧
      t.nextId = l.tables.roles.nextId ∧ t.rows = l.tables.roles.rows.mapEntries fun _ row =>
        { row with description := described roles row.name row.description } := by
  induction roles generalizing l with
  | nil => exact ⟨l.tables.roles, rfl, rfl, OrdDict.ext (List.map_id _).symm⟩
  | cons entry roles ih =>
    obtain ⟨id, hname, hload⟩ := loadRole_known hs (h entry List.mem_cons_self)
    have hgrows := describeRole_grows hs id entry.description
    obtain ⟨t, hrun, hnext, hrows⟩ := ih hgrows.synced
      fun e he => (h e (List.mem_cons_of_mem _ he)).mono hgrows.keeps
    refine ⟨t, ?_, hnext, hrows.trans (OrdDict.ext ?_)⟩
    · rw [List.foldlM_cons, hload]
      exact hrun
    · -- a row has the name of the entry iff it is the one that the entry describes
      simp only [describeRole, OrdDict.mapEntries, NameTable.describe, OrdDict.modify, List.map_map]
      refine List.map_congr_left fun e he => ?_
      have he' : l.tables.roles.nameOf e.1 = some e.2.name := by
        rw [NameTable.nameOf, OrdDict.get?_eq_some_iff.mpr he]
        rfl
      simp only [Function.comp_apply, described_cons]
      by_cases hid : e.1 = id
      · subst hid
        have hsame := Option.some.inj (hname.symm.trans he')
        rw [if_pos rfl, if_pos hsame]
      · rw [if_neg hid, if_neg]
        intro hsame
        exact hid (NameTable.nameOf_unique he' (hsame ▸ hname))

theorem linkPerson_known (hs : l.Synced) {personId : UUID} (h : l.tables.Linked personId) :
    l.linkPerson personId = .ok l := by
  unfold linkPerson
  cases hlabel : (l.tables.people.get? personId).join with
  | none => rfl
  | some label =>
    dsimp only
    by_cases hempty : label = ""
    · rw [if_pos hempty]
    · rw [if_neg hempty]
      cases hget : l.rolesByName.get? label with
      | none => rfl
      | some roleId =>
        have hlink := h label hlabel hempty roleId ((hs.roles _ _).mp hget)
        dsimp only
        rw [linkRole, if_pos (hs.personRoles ▸ hlink)]

theorem linkPeople_known (hs : l.Synced) (people : List UUID) (h : ∀ p ∈ people, l.tables.Linked p) :
    people.foldlM linkPerson l = .ok l := by
  induction people with
  | nil => rfl
  | cons p people ih =>
    rw [List.foldlM_cons, linkPerson_known hs (h p List.mem_cons_self)]
    exact ih fun q hq => h q (List.mem_cons_of_mem _ hq)

end CapabilityLoad

section Load

open CapabilityLoad

variable {t : CapabilityTables} {roles : List RoleEntry} {people : OrdDict String UUID}

theorem loadCapability_settles (t : CapabilityTables) (roles : List RoleEntry) (people : OrdDict String UUID) :
    ∃ t', loadCapability t roles people = .ok t' ∧ t.Extends t' ∧ t'.Settled roles people.values := by
  obtain ⟨l, hroles, hgrows, hhas, hdescribed⟩ := foldlM_ok
    (P := fun done l => Grows (start t) l ∧ (∀ entry ∈ done, l.tables.HasRole entry) ∧ l.tables.Described done)
    (f := loadRole) (by
      rintro done entry l₁ ⟨hgrows, hhas, hdescribed⟩
      obtain ⟨l₂, hload, hgrows', hrole, hdescribed'⟩ := loadRole_ok hgrows.synced hdescribed entry
      refine ⟨l₂, hload, hgrows.trans hgrows', fun e he => ?_, hdescribed'⟩
      rcases List.mem_append.mp he with h | h
      · exact (hhas e h).mono hgrows'.keeps
      · exact List.mem_singleton.mp h ▸ hrole)
    roles ⟨⟨synced_start t, .refl _⟩, by simp, fun _ _ _ => rfl⟩
  obtain ⟨l', hpeople, hgrows', hlinked, hsame⟩ := foldlM_ok
    (P := fun done l' => Grows l l' ∧ (∀ p ∈ done, l'.tables.Linked p) ∧ l'.tables.roles = l.tables.roles)
    (f := linkPerson) (by
      rintro done p l₁ ⟨hgrows₁, hdone, hroles₁⟩
      obtain ⟨l₂, hlink, hgrows₂, hp, hroles₂⟩ := linkPerson_ok hgrows₁.synced p
      refine ⟨l₂, hlink, hgrows₁.trans hgrows₂, fun q hq => ?_, hroles₂.trans hroles₁⟩
      rcases List.mem_append.mp hq with h | h
      · intro label hlabel hne roleId hrole
        rw [hgrows₂.keeps.people] at hlabel
        rw [hroles₂] at hrole
        exact hgrows₂.keeps.personRoles (hdone q h label hlabel hne roleId hrole)
      · exact List.mem_singleton.mp h ▸ hp)
    people.values ⟨⟨hgrows.synced, .refl _⟩, by simp, rfl⟩
  refine ⟨l'.tables, ?_, hgrows.keeps.trans hgrows'.keeps, fun e he => (hhas e he).mono hgrows'.keeps,
    fun i row hrow => hdescribed i row (hsame ▸ hrow), hlinked⟩
  rw [loadCapability, hroles]
  exact congrArg (Except.map tables) hpeople

theorem loadCapability_settled (h : t.Settled roles people.values) : loadCapability t roles people = .ok t := by
  obtain ⟨table, hroles, hnext, hrows⟩ := loadRoles_known (synced_start t) roles h.hasRoles
  have hsame : table.rows = t.roles.rows := by
    rw [hrows]
    refine OrdDict.ext ((List.map_congr_left fun e he => ?_).trans (List.map_id _))
    have hdescribed := h.described e.1 e.2 (OrdDict.get?_eq_some_iff.mpr he)
    simp only [hdescribed]
    rfl
  have htable : table = t.roles := by
    cases table
    cases hroles : t.roles
    simp_all [start]
  subst htable
  rw [loadCapability, hroles]
  exact congrArg (Except.map tables) (linkPeople_known (synced_start t) people.values h.linked)

end Load

/-- Loading the capability document never violates a unique name or a primary
key, keeps every name and link, and changes nothing the second time. -/
theorem loadCapability_twice (t : CapabilityTables) (roles : List RoleEntry) (people : OrdDict String UUID) :
    ∃ t', loadCapability t roles people = .ok t' ∧ t.Extends t' ∧ loadCapability t' roles people = .ok t' := by
  obtain ⟨t', hload, hextends, hsettled⟩ := loadCapability_settles t roles people
  exact ⟨t', hload, hextends, loadCapability_settled hsettled⟩

end Planner

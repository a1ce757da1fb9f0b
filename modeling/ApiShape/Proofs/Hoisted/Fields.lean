/-
The fields of a record that was absorbed from a run of witnesses. Seen by one name, absorbing a witness is a
disjunction (`Observed.absorb`): the result has the field if one side has it, it can do without if one side
can, and it may be null if it may be null on one side. A run is the disjunction over all its witnesses.
-/
import ApiShape.Proofs.Absorb.Record
import ApiShape.Proofs.Hoisted.Operations
import Mathlib.Data.List.Dedup
import Mathlib.Data.List.Perm.Basic

namespace ApiShape

/-! ## Records by name -/

namespace Schema

/-- The fields of a record. -/
def fields (s : Schema) : Table Schema :=
  match s.form with
  | .record fields _ => fields
  | _ => []

/-- Whether the record has the field, optional or not. -/
def hasField (name : String) (s : Schema) : Bool := Table.contains s.fields name

/-- Whether the record can do without the field: it lacks it, or has it as an optional one. -/
def doesWithout (name : String) (s : Schema) : Bool := (Table.find? s.fields name).all isOptional

/-- Whether the record has the field and it is nullable. -/
def mayBeNull (name : String) (s : Schema) : Bool := (Table.find? s.fields name).any nullable

/-- A record as a witness shows it: no map, in a hoisted tree, with something observed for each field. -/
structure Observed (s : Schema) : Prop where
  record : s.form = .record s.fields none
  sorted : Table.Sorted s.fields
  present : ∀ t ∈ Table.values s.fields, t.isAbsent = false
  hoisted : s.Hoisted

end Schema

/-- The names of the fields of several records, each once. -/
def fieldNames (records : List Schema) : List String := (records.flatMap (fun s => Table.keys s.fields)).dedup

section

variable {s t : Schema} {table : Table Schema} {name : String} {records : List Schema}

theorem mem_keys_iff_find? : name ∈ Table.keys table ↔ ∃ t, Table.find? table name = some t := by
  constructor
  · intro h
    obtain ⟨⟨key, a⟩, ha, rfl⟩ := List.mem_map.1 h
    cases hfind : Table.find? table key with
    | none => exact absurd ha (Table.find?_eq_none.1 hfind a)
    | some t => exact ⟨t, rfl⟩
  · rintro ⟨t, ht⟩
    exact List.mem_map.2 ⟨(name, t), Table.mem_of_find? ht, rfl⟩

theorem Schema.hasField_iff : s.hasField name = true ↔ name ∈ Table.keys s.fields := by
  rw [mem_keys_iff_find?, ← Option.isSome_iff_exists]
  rfl

theorem mem_fieldNames : name ∈ fieldNames records ↔ ∃ s ∈ records, name ∈ Table.keys s.fields := by
  rw [fieldNames, List.mem_dedup, List.mem_flatMap]

/-- A field by its row: it can be done without, or be null, when its node says so. -/
theorem Schema.Observed.find?_eq (h : s.Observed) (ht : (name, t) ∈ s.fields) : Table.find? s.fields name = some t :=
  h.sorted.find?_eq ht

theorem Schema.Observed.doesWithout_iff (h : s.Observed) : s.doesWithout name = true ↔
    name ∉ Table.keys s.fields ∨ ∃ t, (name, t) ∈ s.fields ∧ t.isOptional = true := by
  unfold Schema.doesWithout
  cases hfind : Table.find? s.fields name with
  | none =>
    have hno : name ∉ Table.keys s.fields := by simp [mem_keys_iff_find?, hfind]
    simp [hno]
  | some t =>
    have hmem : name ∈ Table.keys s.fields := mem_keys_iff_find?.2 ⟨t, hfind⟩
    constructor
    · exact fun ht => .inr ⟨t, Table.mem_of_find? hfind, ht⟩
    · rintro (hno | ⟨u, hu, hopt⟩)
      · exact absurd hmem hno
      · rw [h.find?_eq hu] at hfind
        cases hfind
        exact hopt

theorem Schema.Observed.mayBeNull_iff (h : s.Observed) :
    s.mayBeNull name = true ↔ ∃ t, (name, t) ∈ s.fields ∧ t.nullable = true := by
  unfold Schema.mayBeNull
  constructor
  · intro hnull
    obtain ⟨t, ht, hnull⟩ := (Option.any_eq_true _ _).1 hnull
    exact ⟨t, Table.mem_of_find? ht, hnull⟩
  · rintro ⟨t, ht, hnull⟩
    rw [h.find?_eq ht]
    exact hnull

end

/-! ## One witness -/

/-- The outer node of a field from those of both sides: a field of one side alone is made optional. -/
inductive OuterField : Option Schema → Option Schema → Option Schema → Prop
  | both {a b t : Schema} : Outer a b t → OuterField (some a) (some b) (some t)
  | left {a : Schema} : a.isAbsent = false → OuterField (some a) none (some a.makeOptional)
  | right {b : Schema} : b.isAbsent = false → OuterField none (some b) (some b.makeOptional)
  | neither : OuterField none none none

namespace OuterField

variable {a b o : Option Schema} {t : Schema}

theorem present (h : OuterField a b (some t)) : t.isAbsent = false := by
  cases h with
  | both h => exact h.present
  | left h => exact isAbsent_makeOptional h
  | right h => exact isAbsent_makeOptional h

theorem isSome (h : OuterField a b o) : o.isSome = (a.isSome || b.isSome) := by
  cases h <;> rfl

theorem optional (h : OuterField a b o) :
    o.all Schema.isOptional = (a.all Schema.isOptional || b.all Schema.isOptional) := by
  cases h with
  | both h => exact h.optional
  | left | right => simp [Schema.isOptional_makeOptional]
  | neither => rfl

theorem nullable (h : OuterField a b o) : o.any Schema.nullable = (a.any Schema.nullable || b.any Schema.nullable) := by
  cases h with
  | both h => exact h.nullable
  | left | right => simp
  | neither => rfl

end OuterField

/-- The result by name, from the two sides: what one side does without, or may be null, so does the result. -/
structure FieldsJoin (d s r : Schema) : Prop where
  observed : r.Observed
  hasField (name : String) : r.hasField name = (d.hasField name || s.hasField name)
  doesWithout (name : String) : r.doesWithout name = (d.doesWithout name || s.doesWithout name)
  mayBeNull (name : String) : r.mayBeNull name = (d.mayBeNull name || s.mayBeNull name)

section

variable {limits : Limits} {d s r t : Schema} {shared : Table Schema} {name : String}

theorem Schema.Observed.field (h : s.Observed) (ht : Table.find? s.fields name = some t) :
    t.form.Everywhere Form.Hoisted ∧ t.isAbsent = false := by
  have hmem := Table.mem_values_of_mem (Table.mem_of_find? ht)
  have hhoisted := Schema.hoisted_iff.1 h.hoisted
  rw [h.record] at hhoisted
  exact ⟨(Form.everywhere_record.1 hhoisted).2.1 t hmem, h.present t hmem⟩

/-- Each name of the result, by the sides that have it. -/
theorem Schema.Observed.outerField (hd : d.Observed) (hs : s.Observed) (h : Fields Hoists s.fields d.fields shared)
    (name : String) : OuterField (Table.find? d.fields name) (Table.find? s.fields name)
      (Table.find? (addMissing shared s.fields) name) := by
  rw [find?_addMissing hs.sorted]
  cases ha : Table.find? d.fields name with
  | some a =>
    obtain ⟨t, ht, hfield⟩ := h.find?_eq_some ha
    rw [ht]
    cases hfield with
    | shared hb hhoists =>
      rw [hb]
      exact .both ((hhoists (hd.field ha).1 (hs.field hb).1).2 (hd.field ha).2 (hs.field hb).2)
    | missing hb =>
      rw [hb]
      exact .left (hd.field ha).2
  | none =>
    rw [h.find?_eq_none ha]
    cases hb : Table.find? s.fields name with
    | some b => exact .right (hs.field hb).2
    | none => exact .neither

/-- As many fields as there are names for them are too few for a map. -/
theorem exceeded_of_names {names : List String} {fields : Table Schema} (hsorted : Table.Sorted fields)
    (hnames : ∀ name ∈ Table.keys fields, name ∈ names) (hallow : limits.mapInference.Allow names.length) :
    limits.mapInference.exceeded fields none = false := by
  have hnodup : (Table.keys fields).Nodup :=
    List.pairwise_map.2 (List.Pairwise.imp String.ne_of_lt hsorted)
  have hle := (List.subperm_of_subset hnodup hnames).length_le
  have hlength : (Table.keys fields).length = fields.length := List.length_map _
  exact (hallow.mono (hlength ▸ hle)).exceeded none

/-- The fields of two records that are too few for a map, after absorbing one into the other. -/
theorem Schema.Observed.fields_of_absorb (hd : d.Observed) (hs : s.Observed) {names : List String}
    (hdnames : ∀ name ∈ Table.keys d.fields, name ∈ names) (hsnames : ∀ name ∈ Table.keys s.fields, name ∈ names)
    (hallow : limits.mapInference.Allow names.length) (h : ApiShape.absorb limits d s = .ok r) :
    ∃ shared, Fields Hoists s.fields d.fields shared ∧ Table.Sorted (addMissing shared s.fields) ∧
      r.form = .record (addMissing shared s.fields) none := by
  have hplain : s.isPlain := by rw [Schema.isPlain, hs.record, Form.isPlain]
  have hstep := plainStep_of_absorb h (fun _ _ _ _ hr => absorbWithin_hoists hr) hplain
  have hdform : (d.orNullable s.nullable).form = .record d.fields none := hd.record
  have hsform : s.bare.form = .record s.fields none := hs.record
  have hsorted : ∀ {shared}, Fields Hoists s.fields d.fields shared → Table.Sorted (addMissing shared s.fields) :=
    fun hfields => (hd.sorted.of_keys hfields.keys).foldl_insert
  have hfew : ∀ {shared}, Fields Hoists s.fields d.fields shared →
      limits.mapInference.exceeded (addMissing shared s.fields) none = false := by
    intro shared hfields
    refine exceeded_of_names (hsorted hfields) (fun name hname => ?_) hallow
    obtain ⟨⟨key, t⟩, ht, rfl⟩ := List.mem_map.1 hname
    rcases of_mem_addMissing ht with ht | ⟨u, hu, -⟩
    · refine hdnames key ?_
      rw [← hfields.keys]
      exact List.mem_map.2 ⟨_, ht, rfl⟩
    · exact hsnames key (List.mem_map.2 ⟨_, hu, rfl⟩)
  cases hstep with
  | record hdf hsf hrecord =>
    cases hdform.symm.trans hdf
    cases hsform.symm.trans hsf
    cases hrecord with
    | maps hmap => simp at hmap
    | fields _ _ hfields => exact ⟨_, hfields, hsorted hfields, rfl⟩
    | grown _ _ hfields hexceeded =>
      rw [hfew hfields] at hexceeded
      cases hexceeded
  | conflict _ hne =>
    rw [Schema.agrees, hdform, hsform] at hne
    cases hne
  | list hdf | primitive hdf | inner hdf | absent hdf | option hdf =>
    rw [hdform] at hdf
    cases hdf

/-- Absorbing a witness, seen by names, as long as there are too few of them for a map. -/
theorem Schema.Observed.absorb (hd : d.Observed) (hs : s.Observed) {names : List String}
    (hdnames : ∀ name ∈ Table.keys d.fields, name ∈ names) (hsnames : ∀ name ∈ Table.keys s.fields, name ∈ names)
    (hallow : limits.mapInference.Allow names.length) (h : ApiShape.absorb limits d s = .ok r) :
    FieldsJoin d s r := by
  obtain ⟨shared, hfields, hsorted, hform⟩ := hd.fields_of_absorb hs hdnames hsnames hallow h
  have houter := hd.outerField hs hfields
  have hrfields : r.fields = addMissing shared s.fields := by rw [Schema.fields, hform]
  rw [← hrfields] at hform hsorted houter
  refine ⟨⟨hform, hsorted, fun t ht => ?_, hd.hoisted.absorb hs.hoisted h⟩, fun name => (houter name).isSome,
    fun name => (houter name).optional, fun name => (houter name).nullable⟩
  obtain ⟨name, ht⟩ := Table.mem_values.1 ht
  have hfield := houter name
  rw [hsorted.find?_eq ht] at hfield
  exact hfield.present

end

/-! ## A run of witnesses -/

section

variable {limits : Limits} {first r : Schema} {rest : List Schema}

/-- What a run of witnesses leaves, seen by names: the disjunction over all of them. -/
theorem fieldsJoin_of_run {names : List String} (hallow : limits.mapInference.Allow names.length) (hfirst : first.Observed)
    (hrest : ∀ s ∈ rest, s.Observed) (hnames : ∀ s ∈ first :: rest, ∀ name ∈ Table.keys s.fields, name ∈ names)
    (hrun : rest.foldlM (absorb limits) first = .ok r) :
    r.Observed ∧ ∀ name, r.hasField name = (first :: rest).any (Schema.hasField name) ∧
      r.doesWithout name = (first :: rest).any (Schema.doesWithout name) ∧
      r.mayBeNull name = (first :: rest).any (Schema.mayBeNull name) := by
  -- By induction on the witnesses that are left, with what the others left as the first.
  induction rest generalizing first with
  | nil =>
    cases hrun
    exact ⟨hfirst, fun name => by simp⟩
  | cons s rest ih =>
    rw [List.foldlM_cons] at hrun
    obtain ⟨mid, hmid, hrun⟩ := bind_eq_ok.1 hrun
    have hfirstNames := hnames first List.mem_cons_self
    have hsNames := hnames s (by simp)
    have hjoin := hfirst.absorb (hrest s List.mem_cons_self) hfirstNames hsNames hallow hmid
    have hmidNames : ∀ name ∈ Table.keys mid.fields, name ∈ names := by
      intro name hname
      have hname := Schema.hasField_iff.2 hname
      rw [hjoin.hasField, Bool.or_eq_true] at hname
      rcases hname with hname | hname
      · exact hfirstNames name (Schema.hasField_iff.1 hname)
      · exact hsNames name (Schema.hasField_iff.1 hname)
    obtain ⟨hr, hall⟩ := ih hjoin.observed (fun s hs => hrest s (List.mem_cons_of_mem _ hs))
      (List.forall_mem_cons.2 ⟨hmidNames, fun s hs => hnames s (by simp [hs])⟩) hrun
    refine ⟨hr, fun name => ?_⟩
    obtain ⟨hhas, hwithout, hnull⟩ := hall name
    simp only [List.any_cons, hjoin.hasField, hjoin.doesWithout, hjoin.mayBeNull, Bool.or_assoc] at hhas hwithout hnull ⊢
    exact ⟨hhas, hwithout, hnull⟩

/--
The record that a run of witnesses leaves: its fields are those that some witness has; a field is optional when
some witness lacks it or has it as an optional one, and nullable when some witness has it nullable.
-/
theorem fields_of_run (hwitnesses : ∀ s ∈ first :: rest, s.Observed)
    (hallow : limits.mapInference.Allow (fieldNames (first :: rest)).length)
    (hrun : rest.foldlM (absorb limits) first = .ok r) :
    r.form = .record r.fields none ∧ Table.Sorted r.fields ∧
      (∀ name, name ∈ Table.keys r.fields ↔ ∃ s ∈ first :: rest, name ∈ Table.keys s.fields) ∧
      ∀ name t, (name, t) ∈ r.fields →
        (t.isOptional = true ↔ ∃ s ∈ first :: rest,
          name ∉ Table.keys s.fields ∨ ∃ u, (name, u) ∈ s.fields ∧ u.isOptional = true) ∧
        (t.nullable = true ↔ ∃ s ∈ first :: rest, ∃ u, (name, u) ∈ s.fields ∧ u.nullable = true) := by
  obtain ⟨hfirst, hrest⟩ := List.forall_mem_cons.1 hwitnesses
  obtain ⟨hr, hall⟩ := fieldsJoin_of_run hallow hfirst hrest (fun s hs name hname => mem_fieldNames.2 ⟨s, hs, hname⟩) hrun
  refine ⟨hr.record, hr.sorted, fun name => ?_, fun name t ht => ⟨?_, ?_⟩⟩
  · rw [← Schema.hasField_iff, (hall name).1, List.any_eq_true]
    simp only [Schema.hasField_iff]
  · have hopt : r.doesWithout name = t.isOptional := by rw [Schema.doesWithout, hr.find?_eq ht]; rfl
    rw [← hopt, (hall name).2.1, List.any_eq_true]
    exact exists_congr fun s => and_congr_right fun hs => (hwitnesses s hs).doesWithout_iff
  · have hnull : r.mayBeNull name = t.nullable := by rw [Schema.mayBeNull, hr.find?_eq ht]; rfl
    rw [← hnull, (hall name).2.2, List.any_eq_true]
    exact exists_congr fun s => and_congr_right fun hs => (hwitnesses s hs).mayBeNull_iff

end

theorem observed_ofFields {fields : Table Schema} (hsorted : Table.Sorted fields)
    (hfields : ∀ t ∈ Table.values fields, t.isAbsent = false ∧ t.Hoisted) : (Schema.ofFields fields).Observed where
  record := rfl
  sorted := hsorted
  present t ht := (hfields t ht).1
  hoisted := .intro trivial fun t ht => (hfields t (by simpa [Schema.ofFields, Schema.children, Form.children] using ht)).2

/-- A field that is missing in one witness, and nullable and of a conflicting type in another. -/
theorem fields_of_run_visits : ∃ r,
    [Schema.ofFields [("tag", Schema.ofType .string)],
        Schema.ofFields [("id", (Schema.ofType .string).orNullable true), ("tag", Schema.ofType .string)]].foldlM (absorb {})
      (Schema.ofFields [("id", Schema.ofType .int32)]) = .ok r ∧
    r.form = .record r.fields none ∧ "id" ∈ Table.keys r.fields ∧
      ∀ t, ("id", t) ∈ r.fields → t.isOptional = true ∧ t.nullable = true := by
  have htype : ∀ t b, ((Schema.ofType t).orNullable b).isAbsent = false ∧ ((Schema.ofType t).orNullable b).Hoisted :=
    fun t b => ⟨rfl, .of_primitive rfl trivial⟩
  have hwitnesses : ∀ s ∈ [Schema.ofFields [("id", Schema.ofType .int32)],
      Schema.ofFields [("tag", Schema.ofType .string)],
      Schema.ofFields [("id", (Schema.ofType .string).orNullable true), ("tag", Schema.ofType .string)]], s.Observed := by
    refine List.forall_mem_cons.2 ⟨observed_ofFields (List.pairwise_singleton _ _) ?_, List.forall_mem_cons.2
      ⟨observed_ofFields (List.pairwise_singleton _ _) ?_, List.forall_mem_cons.2
        ⟨observed_ofFields (by unfold Table.Sorted; decide) ?_, nofun⟩⟩⟩
    · exact List.forall_mem_cons.2 ⟨htype .int32 false, nofun⟩
    · exact List.forall_mem_cons.2 ⟨htype .string false, nofun⟩
    · exact List.forall_mem_cons.2 ⟨htype .string true, List.forall_mem_cons.2 ⟨htype .string false, nofun⟩⟩
  have hallow : ({} : Limits).mapInference.Allow 2 := by constructor <;> decide
  obtain ⟨hform, -, hnames, hflags⟩ := fields_of_run hwitnesses hallow rfl
  refine ⟨_, rfl, hform, (hnames "id").2 ⟨_, List.mem_cons_self, List.mem_cons_self⟩, fun t ht => ?_⟩
  obtain ⟨hopt, hnull⟩ := hflags "id" t ht
  refine ⟨hopt.2 ⟨_, .tail _ (.head _), .inl (by decide)⟩, hnull.2 ⟨_, .tail _ (.tail _ (.head _)), ?_⟩⟩
  exact ⟨_, List.mem_cons_self, rfl⟩

end ApiShape

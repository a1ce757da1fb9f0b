/-
Properties of shapes that absorbing keeps at every depth: what a property has to allow (`Stable`),
and that a result then has it everywhere when both trees had it.
-/
import ApiShape.Proofs.Absorb.Step
import ApiShape.Proofs.Catalogue

namespace ApiShape

/-- What a property of shapes has to allow at nodes other than alternatives, and in alternatives that
lose options. -/
structure Closed (limits : Limits) (Q : Form → Prop) : Prop where
  text : Q (.primitive (Primitive.ofType .string))
  primitive {p q j : Primitive} : Q (.primitive p) → Q (.primitive q) → p.join q = some j → Q (.primitive j)
  list (elems : List Schema) : Q (.list elems)
  optional {inner : Schema} : inner.isOptional = false → inner.nullable = false → Q (.optional inner)
  record {df sf shared : Table Schema} : Q (.record df none) → Q (.record sf none) →
    Table.keys shared = Table.keys df → limits.mapInference.exceeded (addMissing shared sf) none = false →
    Q (.record (addMissing shared sf) none)
  emptyMap (m : Mapping) : Q (.record [] (some m))
  map {fields : Table Schema} {m m' : Mapping} : Q (.record fields (some m)) → Q (.record fields (some m'))
  empty (conflict : Bool) : Q (.oneOf [] conflict)
  filter {options : Catalogue} {conflict : Bool} (p : String × Schema → Bool) :
    Q (.oneOf options conflict) → Q (.oneOf (options.filter p) conflict)
  flag {options : Catalogue} {conflict conflict' : Bool} :
    Q (.oneOf options conflict) → Q (.oneOf options conflict')

/-- What a property of shapes has to allow for absorbing to keep it. -/
structure Stable (limits : Limits) (Q : Form → Prop) : Prop extends Closed limits Q where
  wrap (inner : Schema) : Q (.optional inner)
  insert {options : Catalogue} {conflict : Bool} (s : Schema) :
    Q (.oneOf options conflict) → Q (.oneOf (Catalogue.insert options s) conflict)

theorem Closed.and {limits : Limits} {Q Q' : Form → Prop} (h : Closed limits Q) (h' : Closed limits Q') :
    Closed limits (fun f => Q f ∧ Q' f) where
  text := ⟨h.text, h'.text⟩
  primitive hp hq hj := ⟨h.primitive hp.1 hq.1 hj, h'.primitive hp.2 hq.2 hj⟩
  list elems := ⟨h.list elems, h'.list elems⟩
  optional hopt hnull := ⟨h.optional hopt hnull, h'.optional hopt hnull⟩
  record hd hs hkeys hexceeded := ⟨h.record hd.1 hs.1 hkeys hexceeded, h'.record hd.2 hs.2 hkeys hexceeded⟩
  emptyMap m := ⟨h.emptyMap m, h'.emptyMap m⟩
  map hm := ⟨h.map hm.1, h'.map hm.2⟩
  empty conflict := ⟨h.empty conflict, h'.empty conflict⟩
  filter p ho := ⟨h.filter p ho.1, h'.filter p ho.2⟩
  flag ho := ⟨h.flag ho.1, h'.flag ho.2⟩

theorem Stable.and {limits : Limits} {Q Q' : Form → Prop} (h : Stable limits Q) (h' : Stable limits Q') :
    Stable limits (fun f => Q f ∧ Q' f) where
  toClosed := h.toClosed.and h'.toClosed
  wrap inner := ⟨h.wrap inner, h'.wrap inner⟩
  insert s ho := ⟨h.insert s ho.1, h'.insert s ho.2⟩

/-- The result has the property everywhere when both trees have it. -/
def Keeps (Q : Form → Prop) (d s r : Schema) : Prop :=
  d.form.Everywhere Q → s.form.Everywhere Q → r.form.Everywhere Q

section

variable {limits : Limits} {Q : Form → Prop}

/-! ## Folds -/

theorem Folds.everywhere {acc r : Schema} {l : List Schema} (h : Folds (Keeps Q) acc l r)
    (hacc : acc.form.Everywhere Q) (hl : ∀ s ∈ l, s.form.Everywhere Q) : r.form.Everywhere Q :=
  h.invariant (P := fun t => t.form.Everywhere Q) (S := fun t => t.form.Everywhere Q) (fun _ _ _ h => h) hacc hl

theorem Collects.everywhere {l : List Schema} {rep : Option Schema} (h : Collects (Keeps Q) l rep)
    (hl : ∀ s ∈ l, s.form.Everywhere Q) : ∀ r ∈ rep, r.form.Everywhere Q := by
  cases h with
  | none => nofun
  | some h =>
    rintro r ⟨⟩
    exact h.everywhere (hl _ List.mem_cons_self) fun s hs => hl s (List.mem_cons_of_mem _ hs)

/-! ## Records -/

theorem Form.Everywhere.of_mem_mapValues {fields : Table Schema} {t : Schema}
    (hfields : ∀ t ∈ Table.values fields, t.form.Everywhere Q) (ht : t ∈ mapValues fields) :
    t.form.Everywhere Q := by
  obtain ⟨⟨name, s⟩, hs, hvalue⟩ := List.mem_filterMap.1 ht
  have hs := hfields s (Table.mem_values_of_mem hs)
  unfold Schema.asMapValue at hvalue
  split at hvalue
  · cases hvalue
  · rename_i inner hform
    cases hvalue
    rw [hform] at hs
    exact (Form.everywhere_optional.1 hs).2
  · cases hvalue
    exact hs

/-- A field that is absent has an absent node, so that the property allows those. -/
theorem Form.Everywhere.absent {fields : Table Schema}
    (hfields : ∀ t ∈ Table.values fields, t.form.Everywhere Q) (h : anyAbsent fields = true) :
    (Form.absent).Everywhere Q := by
  obtain ⟨⟨name, s⟩, hs, habsent⟩ := List.any_eq_true.1 h
  have hs := hfields s (Table.mem_values_of_mem hs)
  unfold Schema.isAbsent at habsent
  split at habsent
  · rename_i hform
    rwa [hform] at hs
  · cases habsent

theorem MapValue.everywhere {fields : Table Schema} {value : Option Schema}
    (h : MapValue (Keeps Q) fields value) (hfields : ∀ t ∈ Table.values fields, t.form.Everywhere Q) :
    ∀ v ∈ value, v.form.Everywhere Q := by
  cases h with
  | values h =>
    rintro _ ⟨⟩
    rw [Schema.form_orNullable]
    exact h.everywhere (fun t ht => .of_mem_mapValues hfields ht) _ rfl
  | null _ h =>
    rintro _ ⟨⟩
    exact .absent hfields h
  | empty => nofun

theorem Closed.stringMap (hQ : Closed limits Q) {value : Option Schema}
    (hvalue : ∀ v ∈ value, v.form.Everywhere Q) :
    ∀ t ∈ Mapping.slots { key := some (Schema.ofType .string), value := value }, t.form.Everywhere Q := by
  intro t ht
  rcases Mapping.mem_slots.1 ht with ht | ht
  · cases ht
    exact Form.everywhere_iff.2 ⟨hQ.text, nofun⟩
  · exact hvalue t ht

theorem Closed.join (hQ : Closed limits Q) {d s : Schema} {p q j : Primitive} (hdf : d.form = .primitive p)
    (hsf : s.form = .primitive q) (hj : p.join q = some j) (hd : d.form.Everywhere Q) (hs : s.form.Everywhere Q) :
    (Form.primitive j).Everywhere Q := by
  rw [hdf] at hd
  rw [hsf] at hs
  exact Form.everywhere_iff.2 ⟨hQ.primitive hd.root hs.root hj, nofun⟩

theorem AsMap.everywhere (hQ : Closed limits Q) {fields kept : Table Schema} {mapping : Option Mapping}
    {m : Mapping} (h : AsMap (Keeps Q) fields mapping kept m)
    (hr : (Form.record fields mapping).Everywhere Q) : (Form.record kept (some m)).Everywhere Q := by
  cases h with
  | map => exact hr
  | record hvalue =>
    have hvalue := hvalue.everywhere (Form.everywhere_record.1 hr).2.1
    refine Form.everywhere_record.2 ⟨hQ.emptyMap _, nofun, ?_⟩
    rintro m ⟨⟩
    exact hQ.stringMap hvalue

theorem Slot.everywhere {dst src r : Option Schema} (h : Slot (Keeps Q) dst src r)
    (hd : ∀ d ∈ dst, d.form.Everywhere Q) (hs : ∀ s ∈ src, s.form.Everywhere Q) :
    ∀ t ∈ r, t.form.Everywhere Q := by
  cases h with
  | both h =>
    rintro t ⟨⟩
    exact h (hd _ rfl) (hs _ rfl)
  | adopted => exact hs
  | kept => exact hd

theorem Closed.makeOptional (hQ : Closed limits Q) {s : Schema} (h : s.form.Everywhere Q) :
    s.makeOptional.form.Everywhere Q := by
  unfold Schema.makeOptional
  split
  · exact h
  · rename_i hopt
    have hbare : s.bare.isOptional = false := eq_false_of_ne_true hopt
    exact Form.everywhere_optional.2 ⟨hQ.optional hbare rfl, h⟩

theorem Fields.everywhere (hQ : Closed limits Q) {src dst shared : Table Schema}
    (h : Fields (Keeps Q) src dst shared) (hd : ∀ t ∈ Table.values dst, t.form.Everywhere Q)
    (hs : ∀ t ∈ Table.values src, t.form.Everywhere Q) : ∀ t ∈ Table.values shared, t.form.Everywhere Q := by
  induction h with
  | nil => exact hd
  | cons hfield _ ih =>
    intro t ht
    rcases List.mem_cons.1 ht with rfl | ht
    · have hd := hd _ List.mem_cons_self
      cases hfield with
      | shared hfind h => exact h hd (hs _ (Table.mem_values_of_mem (Table.mem_of_find? hfind)))
      | missing => exact hQ.makeOptional hd
    · exact ih (fun t ht => hd t (List.mem_cons_of_mem _ ht)) t ht

theorem Fields.keys {A : Schema → Schema → Schema → Prop} {src dst shared : Table Schema}
    (h : Fields A src dst shared) : Table.keys shared = Table.keys dst := by
  induction h with
  | nil => rfl
  | cons _ _ ih => exact congrArg (List.cons _) ih

/-- Every field after adding the missing ones is an old one, or one of the source made optional. -/
theorem of_mem_addMissing {dst src : Table Schema} {row : String × Schema} (h : row ∈ addMissing dst src) :
    row ∈ dst ∨ ∃ s, (row.1, s) ∈ src ∧ Table.contains dst row.1 = false ∧ row.2 = s.makeOptional := by
  rcases Table.mem_of_mem_foldl_insert h with h | ⟨s, hs, h⟩
  · exact .inl h
  · obtain ⟨hmem, hnew⟩ := List.mem_filter.1 hs
    exact .inr ⟨s, hmem, by simpa using hnew, h⟩

theorem Closed.addMissing (hQ : Closed limits Q) {dst src : Table Schema}
    (hd : ∀ t ∈ Table.values dst, t.form.Everywhere Q) (hs : ∀ t ∈ Table.values src, t.form.Everywhere Q) :
    ∀ t ∈ Table.values (addMissing dst src), t.form.Everywhere Q := by
  intro t ht
  obtain ⟨name, hrow⟩ := Table.mem_values.1 ht
  rcases of_mem_addMissing hrow with hrow | ⟨s, hmem, -, rfl⟩
  · exact hd t (Table.mem_values_of_mem hrow)
  · exact hQ.makeOptional (hs s (Table.mem_values_of_mem hmem))

/-- What the fields, slots and conversions of records keep is kept by the records. -/
theorem RecordStep.everywhere (hQ : Closed limits Q) {df sf : Table Schema} {dm sm : Option Mapping}
    {form : Form} (h : RecordStep (Keeps Q) limits df dm sf sm form)
    (hd : (Form.record df dm).Everywhere Q) (hs : (Form.record sf sm).Everywhere Q) :
    form.Everywhere Q := by
  cases h with
  | maps _ hdm hsm hkey hvalue =>
    obtain ⟨hkept, hfields, hdm⟩ := Form.everywhere_record.1 (hdm.everywhere hQ hd)
    obtain ⟨-, -, hsm⟩ := Form.everywhere_record.1 (hsm.everywhere hQ hs)
    refine Form.everywhere_record.2 ⟨hQ.map hkept, hfields, ?_⟩
    rintro _ ⟨⟩ t ht
    rcases Mapping.mem_slots.1 ht with ht | ht
    · exact hkey.everywhere (fun d hd => hdm _ rfl d (Mapping.mem_slots.2 (.inl hd)))
        (fun s hs => hsm _ rfl s (Mapping.mem_slots.2 (.inl hs))) t ht
    · exact hvalue.everywhere (fun d hd => hdm _ rfl d (Mapping.mem_slots.2 (.inr hd)))
        (fun s hs => hsm _ rfl s (Mapping.mem_slots.2 (.inr hs))) t ht
  | fields hdm hsm hfields hexceeded =>
    subst hdm hsm
    obtain ⟨hdroot, hdf, -⟩ := Form.everywhere_record.1 hd
    obtain ⟨hsroot, hsf, -⟩ := Form.everywhere_record.1 hs
    exact Form.everywhere_record.2 ⟨hQ.record hdroot hsroot hfields.keys hexceeded,
      hQ.addMissing (hfields.everywhere hQ hdf hsf) hsf, nofun⟩
  | grown _ _ hfields _ hvalue =>
    have hsf := (Form.everywhere_record.1 hs).2.1
    have hfields := hfields.everywhere hQ (Form.everywhere_record.1 hd).2.1 hsf
    have hvalue := hvalue.everywhere (hQ.addMissing hfields hsf)
    refine Form.everywhere_record.2 ⟨hQ.emptyMap _, nofun, ?_⟩
    rintro m ⟨⟩
    exact hQ.stringMap hvalue

/-! ## Alternatives -/

theorem Stable.insertOption (hQ : Stable limits Q) {options : Catalogue} {conflict : Bool} {s : Schema}
    (h : (Form.oneOf options conflict).Everywhere Q) (hs : s.form.Everywhere Q) :
    (Form.oneOf (Catalogue.insert options s) conflict).Everywhere Q := by
  obtain ⟨hroot, hoptions⟩ := Form.everywhere_oneOf.1 h
  refine Form.everywhere_oneOf.2 ⟨hQ.insert s hroot, fun t ht => ?_⟩
  rcases Catalogue.of_mem_values_insert ht with ht | rfl | ⟨stored, hstored, rfl⟩
  · exact hoptions t ht
  · exact hs
  · exact hoptions stored hstored

theorem Closed.left (hQ : Closed limits Q) {options : Catalogue} {conflict : Bool} (p : Schema → Bool)
    (h : (Form.oneOf options conflict).Everywhere Q) :
    (Form.oneOf (Catalogue.take p options).2 conflict).Everywhere Q := by
  obtain ⟨hroot, hoptions⟩ := Form.everywhere_oneOf.1 h
  exact Form.everywhere_oneOf.2 ⟨hQ.filter _ hroot, fun t ht => hoptions t (Catalogue.mem_values_left.1 ht).1⟩

theorem Form.Everywhere.taken {options : Catalogue} {conflict : Bool} {p : Schema → Bool}
    (h : (Form.oneOf options conflict).Everywhere Q) :
    ∀ t ∈ (Catalogue.take p options).1, t.form.Everywhere Q := fun t ht =>
  (Form.everywhere_oneOf.1 h).2 t (Catalogue.mem_taken.1 ht).1

theorem Stable.conflict (hQ : Stable limits Q) {d s : Schema} (hd : d.form.Everywhere Q)
    (hs : s.form.Everywhere Q) : (d.conflict s).form.Everywhere Q := by
  have hempty : (Form.oneOf [] true).Everywhere Q := Form.everywhere_oneOf.2 ⟨hQ.empty true, nofun⟩
  have hd : d.bare.form.Everywhere Q := hd
  have hs : s.bare.form.Everywhere Q := hs
  rw [Schema.form_conflict]
  exact hQ.insertOption (hQ.insertOption hempty hd) hs

theorem Gathers.everywhere (hQ : Closed limits Q) {acc r : Schema} {options rest : Catalogue} {conflict : Bool}
    (h : Gathers (Keeps Q) acc options r rest) (hacc : acc.form.Everywhere Q)
    (hoptions : (Form.oneOf options conflict).Everywhere Q) :
    r.form.Everywhere Q ∧ (Form.oneOf rest conflict).Everywhere Q := by
  induction h with
  | done => exact ⟨hacc, hoptions⟩
  | round _ hfolds _ ih => exact ih (hfolds.everywhere hacc hoptions.taken) (hQ.left _ hoptions)

theorem Joins.everywhere (hQ : Closed limits Q) {options rest : Catalogue} {variant merged : Schema}
    {conflict : Bool} (h : Joins (Keeps Q) options variant merged rest)
    (hv : variant.form.Everywhere Q) (hoptions : (Form.oneOf options conflict).Everywhere Q) :
    merged.form.Everywhere Q ∧ (Form.oneOf rest conflict).Everywhere Q := by
  have hsame : ∀ p : Schema → Bool, ∀ t ∈ (Catalogue.take p options).1 ++ [variant], t.form.Everywhere Q := by
    intro p t ht
    rcases List.mem_append.1 ht with ht | ht
    · exact hoptions.taken t ht
    · rwa [List.mem_singleton.1 ht]
  cases h with
  | record _ h => exact ⟨h.everywhere (hsame _) _ rfl, hQ.left _ hoptions⟩
  | list _ h => exact ⟨h.everywhere (hsame _) _ rfl, hQ.left _ hoptions⟩
  | primitive _ h => exact h.everywhere hQ hv hoptions

theorem Form.Everywhere.withOptions {dst : Schema} {options : Catalogue} {conflict : Bool}
    (h : (Form.oneOf options conflict).Everywhere Q) : (dst.withOptions options conflict).form.Everywhere Q := by
  unfold Schema.withOptions
  split
  · rename_i key sole
    exact (Form.everywhere_oneOf.1 h).2 sole (by simp [Table.values])
  · exact h

/-! ## Steps -/

/-- One property of shapes for each case in which the root of the result is new. -/
theorem PlainStep.everywhere (hQ : Stable limits Q) {dst src r : Schema}
    (h : PlainStep (Keeps Q) limits dst src r) (hd : dst.form.Everywhere Q)
    (hs : src.form.Everywhere Q) : r.form.Everywhere Q := by
  cases h with
  | record hdf hsf h =>
    rw [hdf] at hd
    rw [hsf] at hs
    exact h.everywhere hQ.toClosed hd hs
  | list hdf hsf h =>
    rw [hdf] at hd
    rw [hsf] at hs
    refine Form.everywhere_list.2 ⟨hQ.list _, fun t ht => ?_⟩
    refine h.everywhere (fun s hmem => ?_) t (Option.mem_toList.1 ht)
    rcases List.mem_append.1 hmem with hmem | hmem
    · exact (Form.everywhere_list.1 hd).2 s hmem
    · exact (Form.everywhere_list.1 hs).2 s hmem
  | primitive hdf hsf hj => exact hQ.join hdf hsf hj hd hs
  | conflict => exact hQ.conflict hd hs
  | inner hdf _ h =>
    rw [hdf] at hd
    exact Form.everywhere_optional.2 ⟨hQ.wrap _, h (Form.everywhere_optional.1 hd).2 hs⟩
  | absent hdf => exact Form.everywhere_optional.2 ⟨hQ.wrap _, hs⟩
  | option hdf h =>
    rw [hdf] at hd
    obtain ⟨hmerged, hrest⟩ := h.everywhere hQ.toClosed hs hd
    exact (hQ.insertOption hrest hmerged).withOptions

theorem Step.everywhere (hQ : Stable limits Q) {dst src r : Schema} (h : Step (Keeps Q) limits dst src r)
    (hd : dst.form.Everywhere Q) (hs : src.form.Everywhere Q) : r.form.Everywhere Q := by
  induction h with
  | optional hsf _ ih =>
    rw [hsf] at hs
    exact hQ.makeOptional (ih hd (Form.everywhere_optional.1 hs).2)
  | absent => exact hd
  | swap hsf _ h =>
    rw [hsf] at hs
    exact h hs hd
  | alternatives hsf hdf _ h =>
    rw [hdf] at hd
    rw [hsf] at hs
    obtain ⟨hroot, hoptions⟩ := Form.everywhere_oneOf.1 hd
    exact h.everywhere (Form.everywhere_oneOf.2 ⟨hQ.flag hroot, hoptions⟩) (Form.everywhere_oneOf.1 hs).2
  | plain _ h => exact h.everywhere hQ hd hs

/-- Absorbing keeps a stable property of shapes at every depth. -/
theorem Stable.absorbWithin (hQ : Stable limits Q) {depth : Nat} {dst src r : Schema}
    (h : absorbWithin limits depth dst src = .ok r) : Keeps Q dst src r := by
  induction depth generalizing dst src r with
  | zero => cases h
  | succ depth ih =>
    have hstep : Step (Keeps Q) limits dst src r := step_of_ok src h fun d s r _ hr => ih hr
    exact hstep.everywhere hQ

end

/-! ## Order of tables -/

/-- The tables of a shape, fields or options, have their keys in order. -/
def Form.Ordered : Form → Prop
  | .record fields _ => Table.Sorted fields
  | .oneOf options _ => Table.Sorted options
  | _ => True

/-- Every table in the tree has its keys in order. -/
def Schema.Ordered (s : Schema) : Prop := s.Throughout (fun t => t.form.Ordered)

theorem stable_ordered (limits : Limits) : Stable limits Form.Ordered where
  text := trivial
  primitive _ _ _ := trivial
  list _ := trivial
  optional _ _ := trivial
  record hd _ hkeys _ := (Table.Sorted.of_keys hd hkeys).foldl_insert
  emptyMap _ := Table.Sorted.nil
  map h := h
  empty _ := Table.Sorted.nil
  filter _ h := Table.Sorted.filter _ h
  flag h := h
  wrap _ := trivial
  insert _ h := Catalogue.sorted_insert h

end ApiShape

/-
Absorbing goes through erasing: the examples of two trees have no part in whether one is absorbed, in
the fault if it is not, and in the result but for the examples of the result.
-/
import ApiShape.Absorb.Basic
import ApiShape.Proofs.Erase.Basic
import ApiShape.Proofs.Outcome

namespace ApiShape

/-! ## Outcomes -/

section

variable {ε ε' α α' β β' : Type}

theorem map_bind {x : Except ε α} {f : α → Except ε β} {g : α → α'} {h : β → β'} {f' : α' → Except ε β'}
    (hf : ∀ a, (f a).map h = f' (g a)) : (x >>= f).map h = x.map g >>= f' := by
  cases x with
  | error e => rfl
  | ok a => exact hf a

theorem map_foldlM {f : β → α → Except ε β} {f' : β' → α' → Except ε β'} {g : β → β'} {h : α → α'}
    (hf : ∀ b a, (f b a).map g = f' (g b) (h a)) (l : List α) (init : β) :
    (l.foldlM f init).map g = (l.map h).foldlM f' (g init) := by
  induction l generalizing init with
  | nil => rfl
  | cons a rest ih =>
    rw [List.foldlM_cons, List.map_cons, List.foldlM_cons, ← hf]
    exact map_bind fun b => ih b

theorem map_mapError {x : Except ε α} {f : ε → ε'} {g : α → β} : (x.mapError f).map g = (x.map g).mapError f := by
  cases x <;> rfl

theorem map_map {γ : Type} {x : Except ε α} {f : α → β} {g : β → γ} : (x.map f).map g = x.map (fun a => g (f a)) := by
  cases x <;> rfl

end

/-- The absorber does the same without the examples. -/
def Absorber.Erases (absorb : Absorber) : Prop := ∀ d s, (absorb d s).map Schema.erase = absorb d.erase s.erase

section

variable {limits : Limits} {absorb : Absorber} (hA : absorb.Erases)

include hA

/-! ## Mappings -/

theorem absorbFields_erase (acc : Schema) (rows : Table Schema) : (absorbFields absorb acc rows).map Schema.erase =
    absorbFields absorb acc.erase (Table.mapValues Schema.erase rows) := by
  unfold absorbFields
  exact map_foldlM (fun d row => by rw [map_mapError, hA]) rows acc

omit hA in
theorem filterMap_asMapValue_erase (fields : Table Schema) :
    (Table.mapValues Schema.erase fields).filterMap (fun row => row.2.asMapValue.map (row.1, ·)) =
      Table.mapValues Schema.erase (fields.filterMap (fun row => row.2.asMapValue.map (row.1, ·))) := by
  induction fields with
  | nil => rfl
  | cons row rest ih =>
    obtain ⟨name, s⟩ := row
    rw [Table.mapValues_cons, List.filterMap_cons, List.filterMap_cons, Schema.asMapValue_erase, ih]
    cases s.asMapValue <;> rfl

omit hA in
theorem anyAbsent_erase (fields : Table Schema) : anyAbsent (Table.mapValues Schema.erase fields) = anyAbsent fields := by
  unfold anyAbsent Table.mapValues
  rw [List.any_map]
  congr 1
  funext row
  exact row.2.isAbsent_erase

theorem mapValueOf_erase (fields : Table Schema) : (mapValueOf absorb fields).map (Option.map Schema.erase) =
    mapValueOf absorb (Table.mapValues Schema.erase fields) := by
  unfold mapValueOf
  rw [filterMap_asMapValue_erase, anyAbsent_erase]
  cases fields.filterMap (fun row => row.2.asMapValue.map (row.1, ·)) with
  | nil => cases anyAbsent fields <;> rfl
  | cons row rest =>
    obtain ⟨name, first⟩ := row
    dsimp only [Table.mapValues_cons]
    rw [← absorbFields_erase hA]
    exact map_bind fun value => by
      show Except.ok _ = Except.ok _
      rw [Option.map_some, Schema.erase_orNullable]

theorem mappingOf_erase (fields : Table Schema) :
    (mappingOf absorb fields).map Mapping.erase = mappingOf absorb (Table.mapValues Schema.erase fields) := by
  unfold mappingOf
  rw [← mapValueOf_erase hA]
  exact map_bind fun value => rfl

theorem absorbSlot_erase (dst src : Option Schema) : (absorbSlot absorb dst src).map (Option.map Schema.erase) =
    absorbSlot absorb (dst.map Schema.erase) (src.map Schema.erase) := by
  cases dst with
  | none => rfl
  | some d =>
    cases src with
    | none => rfl
    | some s =>
      show ((absorb d s).map some).map _ = (absorb d.erase s.erase).map some
      rw [← hA, map_map, map_map]
      rfl

theorem absorbMapping_erase (dst src : Mapping) :
    (absorbMapping absorb dst src).map Mapping.erase = absorbMapping absorb dst.erase src.erase := by
  unfold absorbMapping
  dsimp only [Mapping.erase]
  rw [← absorbSlot_erase hA, ← absorbSlot_erase hA, ← map_mapError, ← map_mapError]
  exact map_bind fun key => map_bind fun value => rfl

/-! ## Records and lists -/

theorem absorbField_erase (src : Table Schema) (name : String) (d : Schema) :
    (absorbField absorb src name d).map Schema.erase =
      absorbField absorb (Table.mapValues Schema.erase src) name d.erase := by
  unfold absorbField
  rw [Table.find?_mapValues]
  cases Table.find? src name with
  | none => exact congrArg Except.ok d.erase_makeOptional
  | some s =>
    dsimp only [Option.map_some]
    rw [map_mapError, hA]

theorem absorbShared_erase (src dst : Table Schema) : (absorbShared absorb src dst).map (Table.mapValues Schema.erase) =
    absorbShared absorb (Table.mapValues Schema.erase src) (Table.mapValues Schema.erase dst) := by
  induction dst with
  | nil => rfl
  | cons row rest ih =>
    obtain ⟨name, d⟩ := row
    rw [Table.mapValues_cons]
    unfold absorbShared
    rw [← ih, ← absorbField_erase hA]
    exact map_bind fun merged => map_bind fun rest => rfl

omit hA in
theorem addMissing_erase (dst src : Table Schema) :
    addMissing (Table.mapValues Schema.erase dst) (Table.mapValues Schema.erase src) =
      Table.mapValues Schema.erase (addMissing dst src) := by
  unfold addMissing
  rw [Table.filter_mapValues (p := fun row => !Table.contains dst row.1)
    (fun row => by rw [Table.contains_mapValues])]
  induction src.filter (fun row => !Table.contains dst row.1) generalizing dst with
  | nil => rfl
  | cons row rest ih =>
    rw [Table.mapValues_cons, List.foldl_cons, List.foldl_cons, ← ih]
    dsimp only
    rw [← Schema.erase_makeOptional, Table.insert_mapValues]

theorem absorbRecordFields_erase (dst src : Table Schema) :
    (absorbRecordFields absorb dst src).map (Table.mapValues Schema.erase) =
      absorbRecordFields absorb (Table.mapValues Schema.erase dst) (Table.mapValues Schema.erase src) := by
  unfold absorbRecordFields
  rw [← absorbShared_erase hA]
  exact map_bind fun shared => congrArg Except.ok (addMissing_erase shared src).symm

theorem asMap_erase (fields : Table Schema) (mapping : Option Mapping) :
    (asMap absorb fields mapping).map (Prod.map (Table.mapValues Schema.erase) Mapping.erase) =
      asMap absorb (Table.mapValues Schema.erase fields) (mapping.map Mapping.erase) := by
  cases mapping with
  | some m => rfl
  | none =>
    show ((mappingOf absorb fields).map ([], ·)).map _ = (mappingOf absorb (Table.mapValues Schema.erase fields)).map ([], ·)
    rw [← mappingOf_erase hA, map_map, map_map]
    rfl

omit hA in
theorem exceeded_erase (t : MapThresholds) (fields : Table Schema) :
    t.exceeded (Table.mapValues Schema.erase fields) none = t.exceeded fields none := by
  unfold MapThresholds.exceeded
  rw [Table.length_mapValues]
  unfold Table.mapValues
  rw [List.countP_map, List.countP_map]
  simp [Function.comp_def]

/-- Whether records become a map depends on the number, names and kinds of fields, which erasing keeps. -/
theorem absorbRecord_erase (df sf : Table Schema) (dm sm : Option Mapping) :
    (absorbRecord limits absorb df dm sf sm).map Form.erase =
      absorbRecord limits absorb (Table.mapValues Schema.erase df) (dm.map Mapping.erase)
        (Table.mapValues Schema.erase sf) (sm.map Mapping.erase) := by
  unfold absorbRecord
  rw [Option.isSome_map, Option.isSome_map]
  split
  · rw [← asMap_erase hA]
    refine map_bind fun ⟨kept, dst⟩ => ?_
    dsimp only [Prod.map]
    rw [← asMap_erase hA]
    refine map_bind fun ⟨_, src⟩ => ?_
    dsimp only [Prod.map]
    rw [← absorbMapping_erase hA]
    exact map_bind fun mapping => congrArg Except.ok (Form.erase_record kept (some mapping))
  · rw [← absorbRecordFields_erase hA]
    refine map_bind fun fields => ?_
    rw [exceeded_erase]
    split
    · rw [← mappingOf_erase hA]
      exact map_bind fun mapping => congrArg Except.ok (Form.erase_record [] (some mapping))
    · exact congrArg Except.ok (Form.erase_record fields none)

theorem absorbElems_erase (dst src : List Schema) : (absorbElems absorb dst src).map (List.map Schema.erase) =
    absorbElems absorb (dst.map Schema.erase) (src.map Schema.erase) := by
  have hfold : ∀ (l : List Schema) (rep : Option Schema), (l.zipIdx.foldlM (absorbElem absorb) rep).map (Option.map Schema.erase) =
      (l.map Schema.erase).zipIdx.foldlM (absorbElem absorb) (rep.map Schema.erase) := by
    intro l rep
    rw [List.zipIdx_map]
    refine map_foldlM (fun rep elem => ?_) l.zipIdx rep
    cases rep with
    | none => rfl
    | some d =>
      show (((absorb d elem.1).map some).mapError _).map _ = ((absorb d.erase elem.1.erase).map some).mapError _
      rw [map_mapError, ← hA, map_map, map_map]
      rfl
  unfold absorbElems
  show _ = ((dst.map Schema.erase).zipIdx.foldlM (absorbElem absorb) ((none : Option Schema).map Schema.erase)) >>= _
  rw [← hfold]
  refine map_bind fun rep => ?_
  rw [← hfold]
  exact map_bind fun rep => by cases rep <;> rfl

/-! ## Alternatives -/

omit hA in
theorem ofList_erase (nodes : List Schema) :
    Catalogue.ofList (nodes.map Schema.erase) = Table.mapValues Schema.erase (Catalogue.ofList nodes) := by
  unfold Catalogue.ofList
  suffices h : ∀ c : Catalogue, (nodes.map Schema.erase).foldl Catalogue.insert (Table.mapValues Schema.erase c) =
      Table.mapValues Schema.erase (nodes.foldl Catalogue.insert c) from h []
  induction nodes with
  | nil => exact fun c => rfl
  | cons s rest ih =>
    intro c
    rw [List.map_cons, List.foldl_cons, List.foldl_cons, Catalogue.insert_erase, ih]

omit hA in
theorem conflict_erase (d s : Schema) : (d.conflict s).erase = d.erase.conflict s.erase := by
  unfold Schema.conflict
  refine Schema.ext_fields ?_ (by simp) (by simp) (by simp)
  rw [Schema.form_erase, Form.erase_oneOf, ← ofList_erase]
  simp

theorem absorbSameKind_erase (options : List Schema) (variant : Schema) :
    (absorbSameKind absorb options variant).map Schema.erase =
      absorbSameKind absorb (options.map Schema.erase) variant.erase := by
  cases options with
  | nil => rfl
  | cons first rest =>
    show _ = (rest.map Schema.erase ++ [variant.erase]).foldlM absorb first.erase
    rw [← List.map_singleton, ← List.map_append]
    exact map_foldlM hA _ first

/-- The same options are taken in every round, as joining looks at no examples. -/
theorem gather_erase (rounds : Nat) (acc : Schema) (options : Catalogue) :
    (gather absorb rounds acc options).map (Prod.map Schema.erase (Table.mapValues Schema.erase)) =
      gather absorb rounds acc.erase (Table.mapValues Schema.erase options) := by
  induction rounds generalizing acc options with
  | zero =>
    unfold gather
    rw [Catalogue.take_erase (p := fun option => option.joinable acc) fun s => s.joinable_erase acc]
    generalize Catalogue.take (fun option => option.joinable acc) options = taken
    obtain ⟨taken, rest⟩ := taken
    cases taken with
    | nil => rfl
    | cons first others => rfl
  | succ rounds ih =>
    unfold gather
    rw [Catalogue.take_erase (p := fun option => option.joinable acc) fun s => s.joinable_erase acc]
    generalize Catalogue.take (fun option => option.joinable acc) options = taken
    obtain ⟨taken, rest⟩ := taken
    cases taken with
    | nil => rfl
    | cons first others =>
      show ((first :: others).foldlM absorb acc >>= _).map _ = ((first :: others).map Schema.erase).foldlM absorb acc.erase >>= _
      rw [← map_foldlM hA]
      exact map_bind fun acc => ih acc rest

theorem joinOption_erase (options : Catalogue) (variant : Schema) :
    (joinOption absorb options variant).map (Prod.map Schema.erase (Table.mapValues Schema.erase)) =
      joinOption absorb (Table.mapValues Schema.erase options) variant.erase := by
  unfold joinOption
  have hsame : ∀ p : Schema → Bool, (∀ s, p s.erase = p s) →
      ((absorbSameKind absorb (Catalogue.take p options).1 variant).map (·, (Catalogue.take p options).2)).map
          (Prod.map Schema.erase (Table.mapValues Schema.erase)) =
        (absorbSameKind absorb (Catalogue.take p (Table.mapValues Schema.erase options)).1 variant.erase).map
          (·, (Catalogue.take p (Table.mapValues Schema.erase options)).2) := by
    intro p hp
    rw [Catalogue.take_erase hp, ← absorbSameKind_erase hA, map_map, map_map]
    rfl
  obtain ⟨form, nullable, metadata, examples⟩ := variant
  cases form with
  | record fields mapping => exact hsame Schema.isRecord Schema.isRecord_erase
  | list elems => exact hsame Schema.isList Schema.isList_erase
  | primitive | absent | optional | oneOf =>
    dsimp only
    rw [gather_erase hA]
    simp only [Schema.form_erase, Form.erase_primitive, Form.erase_absent, Form.erase_optional, Form.erase_oneOf,
      Table.length_mapValues]

theorem absorbOption_erase (options : Catalogue) (variant : Schema) :
    (absorbOption absorb options variant).map (Table.mapValues Schema.erase) =
      absorbOption absorb (Table.mapValues Schema.erase options) variant.erase := by
  unfold absorbOption
  rw [← joinOption_erase hA]
  exact map_bind fun merged => congrArg Except.ok (Catalogue.insert_erase merged.2 merged.1).symm

omit hA in
theorem withOptions_erase (dst : Schema) (options : Catalogue) (conflict : Bool) :
    (dst.withOptions options conflict).erase = dst.erase.withOptions (Table.mapValues Schema.erase options) conflict := by
  unfold Schema.withOptions
  split
  · rename_i key sole
    refine Schema.ext_fields (by simp) (by simp) (by simp) ?_
    simp [Examples.merge]
  · rename_i hne
    split
    · rename_i key sole heq
      rcases options with _ | ⟨row, _ | ⟨row', rest⟩⟩
      · cases heq
      · exact absurd rfl (hne row.1 row.2)
      · cases heq
    · exact Schema.ext_fields (by simp) (by simp) (by simp) (by simp)

theorem absorbVariant_erase (dst variant : Schema) (options : Catalogue) (conflict : Bool) :
    (absorbVariant absorb dst options conflict variant).map Schema.erase =
      absorbVariant absorb dst.erase (Table.mapValues Schema.erase options) conflict variant.erase := by
  unfold absorbVariant
  rw [Schema.checkOption_erase, ← Schema.erase_bare, ← absorbOption_erase hA]
  cases variant.checkOption with
  | error e => rfl
  | ok _ =>
    refine map_bind (g := Table.mapValues Schema.erase) fun options => ?_
    rw [Schema.nullable_erase, ← Schema.erase_orNullable]
    exact congrArg Except.ok (withOptions_erase _ options conflict)

theorem absorbAlternatives_erase (dst : Schema) (options srcOptions : Catalogue) (conflict srcConflict : Bool) :
    (absorbAlternatives absorb dst options conflict srcOptions srcConflict).map Schema.erase =
      absorbAlternatives absorb dst.erase (Table.mapValues Schema.erase options) conflict
        (Table.mapValues Schema.erase srcOptions) srcConflict := by
  unfold absorbAlternatives
  have hcheck : ((Table.values srcOptions).map Schema.erase).forM Schema.checkOption =
      (Table.values srcOptions).forM Schema.checkOption := by
    induction Table.values srcOptions with
    | nil => rfl
    | cons s rest ih => rw [List.map_cons, List.forM, List.forM, Schema.checkOption_erase, ih]
  rw [Table.values_mapValues, hcheck]
  cases (Table.values srcOptions).forM Schema.checkOption with
  | error e => rfl
  | ok _ =>
    refine (map_foldlM hA _ _).trans ?_
    have hinit : Schema.erase { dst with form := .oneOf options (conflict || srcConflict) } =
        { dst.erase with form := .oneOf (Table.mapValues Schema.erase options) (conflict || srcConflict) } :=
      Schema.ext_fields (by simp) (by simp) (by simp) (by simp)
    rw [hinit]
    rfl

/-! ## Steps -/

/-- A plain source without examples, case by case. -/
theorem absorbPlain_erase (dst src : Schema) : (absorbPlain limits absorb dst src).map Schema.erase =
    absorbPlain limits absorb dst.erase src.erase := by
  have hconflict : (.ok (dst.conflict src).erase : Except Fault Schema) = .ok (dst.erase.conflict src.erase) := by
    rw [conflict_erase]
  obtain ⟨dform, dnull, dmeta, dexamples⟩ := dst
  obtain ⟨sform, snull, smeta, sexamples⟩ := src
  unfold absorbPlain
  rw [Schema.form_erase, Schema.form_erase]
  cases dform with
  | record df dm =>
    dsimp only
    rw [Form.erase_record]
    cases sform with
    | record sf sm =>
      dsimp only
      rw [Form.erase_record]
      dsimp only
      rw [← absorbRecord_erase hA]
      exact map_bind fun form => rfl
    | primitive | list | absent | optional | oneOf => exact hconflict
  | list de =>
    dsimp only
    rw [Form.erase_list]
    cases sform with
    | list se =>
      dsimp only
      rw [Form.erase_list]
      dsimp only
      rw [← absorbElems_erase hA]
      refine map_bind fun elems => ?_
      rw [← Form.erase_list]
      rfl
    | primitive | record | absent | optional | oneOf => exact hconflict
  | optional inner =>
    dsimp only [Form.erase_optional]
    rw [Schema.isOptional_erase]
    split
    · rfl
    · rw [← hA]
      exact map_bind fun inner => by cases inner; rfl
  | absent => rfl
  | oneOf options conflict =>
    dsimp only
    rw [Form.erase_oneOf]
    exact absorbVariant_erase hA _ _ options conflict
  | primitive p =>
    cases sform with
    | primitive q =>
      dsimp only [Form.erase_primitive]
      cases p.join q with
      | some joined => rfl
      | none => exact hconflict
    | record | list | absent | optional | oneOf => exact hconflict

/-- A step does the same without the examples of both trees. -/
theorem absorbStep_erase (src : Schema) : ∀ dst, (absorbStep limits absorb dst src).map Schema.erase =
    absorbStep limits absorb dst.erase src.erase := by
  induction src using Schema.inductionOn with
  | step src ih =>
    intro dst
    obtain ⟨form, nullable, metadata, examples⟩ := src
    have hplain : (absorbPlain limits absorb (dst.orNullable nullable)
          (Schema.mk form nullable metadata examples).bare).map Schema.erase =
        absorbPlain limits absorb (dst.erase.orNullable nullable)
          (Schema.mk form nullable metadata examples).erase.bare := by
      rw [absorbPlain_erase hA, Schema.erase_orNullable, Schema.erase_bare]
    cases form with
    | optional inner =>
      show (absorbStep limits absorb (dst.orNullable nullable) inner >>= _).map _ =
        absorbStep limits absorb (dst.erase.orNullable nullable) inner.erase >>= _
      rw [← Schema.erase_orNullable, ← ih inner (by simp [Schema.children, Form.children])]
      refine map_bind fun result => congrArg Except.ok ?_
      rw [Schema.erase_mergeExamples, Schema.erase_makeOptional, Schema.mergeExamples_nil]
      unfold Schema.makeOptional
      split <;> simp
    | absent => cases dst; rfl
    | oneOf options conflict =>
      obtain ⟨dform, dnull, dmeta, dexamples⟩ := dst
      have hsrc : (⟨.oneOf options conflict, nullable, metadata, examples⟩ : Schema).erase =
          ⟨.oneOf (Table.mapValues Schema.erase options) conflict, nullable, metadata, []⟩ :=
        Schema.ext_fields (Form.erase_oneOf options conflict) rfl rfl rfl
      rw [hsrc]
      unfold absorbStep
      cases dform with
      | oneOf dstOptions dstConflict =>
        dsimp only
        rw [Schema.form_erase, Form.erase_oneOf]
        dsimp only
        rw [absorbAlternatives_erase hA]
        rfl
      | primitive | record | list | absent | optional =>
        refine (hA _ _).trans ?_
        rw [Schema.erase_bare]
        congr 1
        exact Schema.ext_fields (Form.erase_oneOf options conflict) rfl rfl rfl
    | primitive p => exact hplain
    | record fields mapping => exact hplain
    | list elems => exact hplain

end

/-- Absorbing goes through erasing the examples of both trees, faults included. -/
theorem absorbWithin_erase (limits : Limits) (depth : Nat) : Absorber.Erases (absorbWithin limits depth) := by
  induction depth with
  | zero => exact fun d s => rfl
  | succ depth ih => exact fun d s => absorbStep_erase ih s d

theorem absorb_erase (limits : Limits) : Absorber.Erases (absorb limits) := by
  intro d s
  unfold absorb depthBound
  rw [Schema.size_erase, Schema.size_erase]
  exact absorbWithin_erase limits _ d s

end ApiShape

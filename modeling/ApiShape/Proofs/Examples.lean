/-
Where examples come from and how many there are. Trees are joined in many places (conflicts, swapped
alternatives, optional layers, folds of lists and map values, insertions into catalogues), and each of them
either keeps the examples of a node or merges those of two. What merging keeps of sets of examples therefore
holds at every node of what absorbing, searching for maps and accumulating give.
-/
import ApiShape.Endpoint
import ApiShape.Proofs.Absorb.Stable
import ApiShape.Proofs.Accumulate.Basic
import ApiShape.Proofs.Inference
import ApiShape.Proofs.Traversal

namespace ApiShape

/-! ## Merging -/

namespace Examples

theorem mem_of_mem_insertNew {e : Examples} {row added : String × String}
    (h : row ∈ Table.insertNew e added.1 added.2) : row ∈ e ∨ row = added := by
  unfold Table.insertNew at h
  split at h
  · exact .inl h
  · exact (Table.mem_of_mem_insert h).symm

/-- A merge makes up no examples. -/
theorem mem_of_mem_merge {e other : Examples} {row : String × String} (h : row ∈ merge e other) :
    row ∈ e ∨ row ∈ other := by
  replace h := List.mem_of_mem_take h
  induction other generalizing e with
  | nil => exact .inl h
  | cons added rest ih =>
    rcases ih h with h | h
    · rcases mem_of_mem_insertNew h with h | rfl
      · exact .inl h
      · exact .inr List.mem_cons_self
    · exact .inr (List.mem_cons_of_mem _ h)

/-- What a property of sets of examples has to allow for every joined tree to keep it. -/
structure Merging (E : Examples → Prop) : Prop where
  nil : E []
  merge {e other : Examples} : E e → E other → E (merge e other)

/-- To have no more examples than a merge keeps, all of them from a given stock. -/
theorem merging_bounded (G : String × String → Prop) :
    Merging (fun e => e.length ≤ capacity ∧ ∀ row ∈ e, G row) where
  nil := ⟨Nat.zero_le _, nofun⟩
  merge he hother := ⟨length_merge_le _ _, fun row hrow => (mem_of_mem_merge hrow).elim (he.2 row) (hother.2 row)⟩

end Examples

/-! ## Examples of a tree -/

/-- Every set of examples in the tree has the property. -/
def Schema.Sampled (E : Examples → Prop) (s : Schema) : Prop := s.Throughout (fun t => E t.examples)

/-- Every set of examples below the shape has the property. -/
def Form.Sampled (E : Examples → Prop) (f : Form) : Prop := ∀ t ∈ f.children, t.Sampled E

/-- No node of the tree has more examples than a merge keeps. -/
def Schema.Capped (s : Schema) : Prop := s.Sampled (fun e => e.length ≤ Examples.capacity)

/-- Some node of the tree has the example. -/
inductive Schema.Shows (row : String × String) : Schema → Prop
  | here {s : Schema} : row ∈ s.examples → Shows row s
  | inside {s t : Schema} : t ∈ s.children → Shows row t → Shows row s

section

variable {E E' : Examples → Prop} {s t : Schema}

theorem Schema.Sampled.examples (h : s.Sampled E) : E s.examples := h.root

theorem Schema.Sampled.shape (h : s.Sampled E) {f : Form} (hform : s.form = f) : f.Sampled E := hform ▸ h.child

/-- A node made of a shape and examples that both have the property. -/
theorem Form.Sampled.node {f : Form} (hf : f.Sampled E) {e : Examples} (he : E e) {nullable : Bool}
    {metadata : Option Metadata} : Schema.Sampled E ⟨f, nullable, metadata, e⟩ := .intro he hf

theorem Schema.Sampled.bare (h : s.Sampled E) : s.bare.Sampled E := h.congr rfl id

theorem Schema.Sampled.orNullable (h : s.Sampled E) (b : Bool) : (s.orNullable b).Sampled E := h.congr rfl id

/-- All examples of the tree are of a kind exactly when each example that it shows is. -/
theorem Schema.sampled_forall_iff {G : String × String → Prop} :
    s.Sampled (fun e => ∀ row ∈ e, G row) ↔ ∀ row, s.Shows row → G row := by
  constructor
  · intro h row hrow
    induction hrow with
    | here hmem => exact h.root row hmem
    | inside hchild _ ih => exact ih (h.child _ hchild)
  · intro h
    induction s using Schema.inductionOn with
    | step s ih =>
      exact .intro (fun row hmem => h row (.here hmem)) fun t ht => ih t ht fun row hrow => h row (.inside ht hrow)

theorem Form.sampled_record {fields : Table Schema} {mapping : Option Mapping} :
    (Form.record fields mapping).Sampled E ↔
      (∀ t ∈ Table.values fields, t.Sampled E) ∧ ∀ m, mapping = some m → ∀ t ∈ m.slots, t.Sampled E := by
  simp only [Form.Sampled, Form.children, List.mem_append, or_imp, forall_and]
  refine and_congr_right fun _ => ?_
  cases mapping with
  | none => simp
  | some m => simp

theorem Form.sampled_optional : (Form.optional s).Sampled E ↔ s.Sampled E := by
  simp [Form.Sampled, Form.children]

end

/-! ## Steps -/

namespace Examples.Merging

variable {limits : Limits} {E : Examples → Prop} (hE : Merging E)

include hE

theorem mergeExamples {s : Schema} (hs : s.Sampled E) {e : Examples} (he : E e) : (s.mergeExamples e).Sampled E :=
  Form.Sampled.node (hs.shape rfl) (hE.merge hs.examples he)

theorem mergeNodes (s t : Schema) (hs : s.Sampled E) (ht : t.Sampled E) : (s.mergeExamples t.examples).Sampled E :=
  hE.mergeExamples hs ht.examples

theorem ofType (t : BaseType) : (Schema.ofType t).Sampled E := .of_primitive rfl hE.nil

theorem makeOptional {s : Schema} (hs : s.Sampled E) : s.makeOptional.Sampled E := by
  unfold Schema.makeOptional
  split
  · exact hs
  · exact (Form.sampled_optional.2 hs.bare).node hE.nil

theorem insertOption {options : Catalogue} {conflict : Bool} {s : Schema}
    (hoptions : (Form.oneOf options conflict).Sampled E) (hs : s.Sampled E) :
    (Form.oneOf (Catalogue.insert options s) conflict).Sampled E :=
  Catalogue.insert_values_of_merge hE.mergeNodes hoptions hs

theorem conflict {d s : Schema} (hd : d.Sampled E) (hs : s.Sampled E) : (d.conflict s).Sampled E := by
  have hoptions : (d.conflict s).form.Sampled E := by
    rw [Schema.form_conflict]
    exact hE.insertOption (hE.insertOption nofun hd.bare) hs.bare
  exact hoptions.node hE.nil

theorem withOptions {d : Schema} {options : Catalogue} {conflict : Bool} (hd : E d.examples)
    (hoptions : (Form.oneOf options conflict).Sampled E) : (d.withOptions options conflict).Sampled E := by
  unfold Schema.withOptions
  split
  · rename_i key sole
    have hsole : sole.Sampled E := hoptions sole (by simp [Form.children, Table.values])
    exact (hsole.shape rfl).node (hE.merge hd hsole.examples)
  · exact hoptions.node hd

end Examples.Merging

/-- What is absorbed has the property everywhere when both trees have it. -/
def KeepsSampled (E : Examples → Prop) (d s r : Schema) : Prop := d.Sampled E → s.Sampled E → r.Sampled E

section

variable {limits : Limits} {E : Examples → Prop}

theorem Folds.sampled {acc r : Schema} {l : List Schema} (h : Folds (KeepsSampled E) acc l r)
    (hacc : acc.Sampled E) (hl : ∀ s ∈ l, s.Sampled E) : r.Sampled E :=
  h.invariant (P := Schema.Sampled E) (S := Schema.Sampled E) (fun _ _ _ h => h) hacc hl

theorem Collects.sampled {l : List Schema} {rep : Option Schema} (h : Collects (KeepsSampled E) l rep)
    (hl : ∀ s ∈ l, s.Sampled E) : ∀ r ∈ rep, r.Sampled E := by
  cases h with
  | none => nofun
  | some h =>
    rintro r ⟨⟩
    exact h.sampled (hl _ List.mem_cons_self) fun s hs => hl s (List.mem_cons_of_mem _ hs)

theorem Schema.Sampled.of_mem_mapValues {fields : Table Schema} {t : Schema}
    (hfields : ∀ t ∈ Table.values fields, t.Sampled E) (ht : t ∈ mapValues fields) : t.Sampled E := by
  obtain ⟨⟨name, s⟩, hs, hvalue⟩ := List.mem_filterMap.1 ht
  have hs := hfields s (Table.mem_values_of_mem hs)
  unfold Schema.asMapValue at hvalue
  split at hvalue
  · cases hvalue
  · rename_i inner hform
    cases hvalue
    exact (Form.sampled_optional.1 (hs.shape hform)).orNullable _
  · cases hvalue
    exact hs

variable (hE : Examples.Merging E)

include hE

/-! ### Records -/

/-- The mapping of a record holds examples of its fields only. -/
theorem MapValue.sampled {fields : Table Schema} {value : Option Schema} (h : MapValue (KeepsSampled E) fields value)
    (hfields : ∀ t ∈ Table.values fields, t.Sampled E) :
    (Form.record [] (some { key := some (Schema.ofType .string), value := value })).Sampled E := by
  have hvalue : ∀ v ∈ value, v.Sampled E := by
    cases h with
    | values h =>
      rintro _ ⟨⟩
      exact (h.sampled (fun t ht => .of_mem_mapValues hfields ht) _ rfl).orNullable _
    | null =>
      rintro _ ⟨⟩
      exact .intro hE.nil nofun
    | empty => nofun
  refine Form.sampled_record.2 ⟨nofun, ?_⟩
  rintro m ⟨⟩ t ht
  rcases Mapping.mem_slots.1 ht with ht | ht
  · cases ht
    exact hE.ofType .string
  · exact hvalue t ht

theorem AsMap.sampled {fields kept : Table Schema} {mapping : Option Mapping} {m : Mapping}
    (h : AsMap (KeepsSampled E) fields mapping kept m) (hr : (Form.record fields mapping).Sampled E) :
    (Form.record kept (some m)).Sampled E := by
  cases h with
  | map => exact hr
  | record hvalue => exact hvalue.sampled hE (Form.sampled_record.1 hr).1

omit hE in
theorem Slot.sampled {dst src r : Option Schema} (h : Slot (KeepsSampled E) dst src r)
    (hd : ∀ d, dst = some d → d.Sampled E) (hs : ∀ s, src = some s → s.Sampled E) :
    ∀ t, r = some t → t.Sampled E := by
  cases h with
  | both h =>
    rintro t ⟨⟩
    exact h (hd _ rfl) (hs _ rfl)
  | adopted => exact hs
  | kept => exact hd

theorem Fields.sampled {src dst shared : Table Schema} (h : Fields (KeepsSampled E) src dst shared)
    (hd : ∀ t ∈ Table.values dst, t.Sampled E) (hs : ∀ t ∈ Table.values src, t.Sampled E) :
    ∀ t ∈ Table.values shared, t.Sampled E := by
  induction h with
  | nil => exact hd
  | cons hfield _ ih =>
    obtain ⟨hhead, htail⟩ := List.forall_mem_cons.1 hd
    refine List.forall_mem_cons.2 ⟨?_, ih htail⟩
    cases hfield with
    | shared hfind h => exact h hhead (hs _ (Table.mem_values_of_mem (Table.mem_of_find? hfind)))
    | missing => exact hE.makeOptional hhead

theorem addMissing_sampled {dst src : Table Schema} (hd : ∀ t ∈ Table.values dst, t.Sampled E)
    (hs : ∀ t ∈ Table.values src, t.Sampled E) : ∀ t ∈ Table.values (addMissing dst src), t.Sampled E := by
  intro t ht
  obtain ⟨name, hrow⟩ := Table.mem_values.1 ht
  rcases of_mem_addMissing hrow with hrow | ⟨s, hmem, -, rfl⟩
  · exact hd t (Table.mem_values_of_mem hrow)
  · exact hE.makeOptional (hs s (Table.mem_values_of_mem hmem))

/-- A record is given fields or a mapping, of sampled trees in both cases. -/
theorem RecordStep.sampled {df sf : Table Schema} {dm sm : Option Mapping} {form : Form}
    (h : RecordStep (KeepsSampled E) limits df dm sf sm form) (hd : (Form.record df dm).Sampled E)
    (hs : (Form.record sf sm).Sampled E) : form.Sampled E := by
  obtain ⟨hdf, -⟩ := Form.sampled_record.1 hd
  obtain ⟨hsf, -⟩ := Form.sampled_record.1 hs
  cases h with
  | maps _ hdm hsm hkey hvalue =>
    obtain ⟨hkept, hdm⟩ := Form.sampled_record.1 (hdm.sampled hE hd)
    obtain ⟨-, hsm⟩ := Form.sampled_record.1 (hsm.sampled hE hs)
    have hdm := hdm _ rfl
    have hsm := hsm _ rfl
    refine Form.sampled_record.2 ⟨hkept, ?_⟩
    rintro _ ⟨⟩ t ht
    rcases Mapping.mem_slots.1 ht with ht | ht
    · exact hkey.sampled (fun d hd => hdm d (Mapping.mem_slots.2 (.inl hd)))
        (fun s hs => hsm s (Mapping.mem_slots.2 (.inl hs))) t ht
    · exact hvalue.sampled (fun d hd => hdm d (Mapping.mem_slots.2 (.inr hd)))
        (fun s hs => hsm s (Mapping.mem_slots.2 (.inr hs))) t ht
  | fields _ _ hfields =>
    exact Form.sampled_record.2 ⟨addMissing_sampled hE (hfields.sampled hE hdf hsf) hsf, nofun⟩
  | grown _ _ hfields _ hvalue =>
    exact hvalue.sampled hE (addMissing_sampled hE (hfields.sampled hE hdf hsf) hsf)

/-! ### Alternatives -/

omit hE in
theorem Form.Sampled.flag {options : Catalogue} {conflict conflict' : Bool}
    (h : (Form.oneOf options conflict).Sampled E) : (Form.oneOf options conflict').Sampled E := h

omit hE in
theorem Form.Sampled.left {options : Catalogue} {conflict : Bool} (p : Schema → Bool)
    (h : (Form.oneOf options conflict).Sampled E) :
    (Form.oneOf (Catalogue.take p options).2 conflict).Sampled E := fun t ht => h t (Catalogue.mem_values_left.1 ht).1

omit hE in
theorem Form.Sampled.taken {options : Catalogue} {conflict : Bool} {p : Schema → Bool}
    (h : (Form.oneOf options conflict).Sampled E) : ∀ t ∈ (Catalogue.take p options).1, t.Sampled E := fun t ht =>
  h t (Catalogue.mem_taken.1 ht).1

omit hE in
theorem Gathers.sampled {acc r : Schema} {options rest : Catalogue} {conflict : Bool}
    (h : Gathers (KeepsSampled E) acc options r rest) (hacc : acc.Sampled E)
    (hoptions : (Form.oneOf options conflict).Sampled E) : r.Sampled E ∧ (Form.oneOf rest conflict).Sampled E := by
  induction h with
  | done => exact ⟨hacc, hoptions⟩
  | round _ hfolds _ ih => exact ih (hfolds.sampled hacc hoptions.taken) (hoptions.left _)

omit hE in
theorem Joins.sampled {options rest : Catalogue} {variant merged : Schema} {conflict : Bool}
    (h : Joins (KeepsSampled E) options variant merged rest) (hv : variant.Sampled E)
    (hoptions : (Form.oneOf options conflict).Sampled E) :
    merged.Sampled E ∧ (Form.oneOf rest conflict).Sampled E := by
  have hsame : ∀ p : Schema → Bool, ∀ t ∈ (Catalogue.take p options).1 ++ [variant], t.Sampled E := fun p =>
    List.forall_mem_append.2 ⟨hoptions.taken, List.forall_mem_singleton.2 hv⟩
  cases h with
  | record _ h => exact ⟨h.sampled (hsame _) _ rfl, hoptions.left _⟩
  | list _ h => exact ⟨h.sampled (hsame _) _ rfl, hoptions.left _⟩
  | primitive _ h => exact h.sampled hv hoptions

/-! ### Nodes -/

/-- Each case of a step merges the examples of both nodes, or moves those of one of them. -/
theorem PlainStep.sampled {dst src r : Schema} (h : PlainStep (KeepsSampled E) limits dst src r)
    (hd : dst.Sampled E) (hs : src.Sampled E) : r.Sampled E := by
  cases h with
  | record hdf hsf h =>
    exact hE.mergeExamples ((h.sampled hE (hd.shape hdf) (hs.shape hsf)).node hd.examples) hs.examples
  | list hdf hsf h =>
    have hrep := h.sampled (List.forall_mem_append.2 ⟨hd.shape hdf, hs.shape hsf⟩)
    have helems : (Form.list _).Sampled E := fun t ht => hrep t (Option.mem_toList.1 ht)
    exact hE.mergeExamples (helems.node hd.examples) hs.examples
  | @primitive p q j =>
    have hj : (Form.primitive j).Sampled E := nofun
    exact hE.mergeExamples (hj.node hd.examples) hs.examples
  | conflict => exact hE.conflict hd hs
  | @inner inner r hdf _ h =>
    have hr : r.Sampled E := h (Form.sampled_optional.1 (hd.shape hdf)) hs
    have hnonnull : Schema.Sampled E { r with nullable := false } := hr.congr rfl id
    exact (Form.sampled_optional.2 hnonnull).node hd.examples
  | absent => exact (Form.sampled_optional.2 hs).node hd.examples
  | option hdf h =>
    obtain ⟨hmerged, hrest⟩ := h.sampled hs.bare (hd.shape hdf)
    exact hE.withOptions (hd.orNullable _).examples (hE.insertOption hrest hmerged)

theorem Step.sampled {dst src r : Schema} (h : Step (KeepsSampled E) limits dst src r) (hd : dst.Sampled E)
    (hs : src.Sampled E) : r.Sampled E := by
  induction h with
  | optional hsf _ ih =>
    have hr := ih (hd.orNullable _) (Form.sampled_optional.1 (hs.shape hsf))
    exact hE.mergeExamples (hE.makeOptional hr) hs.examples
  | absent => exact hE.mergeExamples (hd.orNullable _) hs.examples
  | swap hsf _ h => exact h ((hs.shape hsf).node (hE.merge hE.nil hs.examples)) hd.bare
  | alternatives hsf hdf _ h =>
    exact h.sampled ((hd.shape hdf).flag.node (hE.merge hd.examples hs.examples)) (hs.shape hsf)
  | plain _ h => exact h.sampled hE (hd.orNullable _) hs.bare

/-! ## Runs -/

theorem absorbWithin_sampled {depth : Nat} {d s r : Schema} (h : absorbWithin limits depth d s = .ok r) :
    KeepsSampled E d s r := by
  induction depth generalizing d s r with
  | zero => cases h
  | succ depth ih =>
    have hstep : Step (KeepsSampled E) limits d s r := step_of_ok s h fun d s r _ hr => ih hr
    exact hstep.sampled hE

theorem absorb_sampled {d s r : Schema} (h : absorb limits d s = .ok r) : KeepsSampled E d s r :=
  absorbWithin_sampled hE h

/-- A conversion that fails leaves the node without the examples of the fields that were given up. -/
theorem Schema.Sampled.convertToMap {σ : Type} {s : Schema} (h : s.Sampled E) (st : σ) :
    (s.convertToMap limits st).value.Sampled E := by
  unfold Schema.convertToMap
  split
  · rename_i fields mapping hform
    have hfields := Form.sampled_record.1 (h.shape hform)
    split
    · rename_i m hm
      obtain ⟨value, hvalue, rfl⟩ := mappingOf_eq_ok hm
      have hvalue : MapValue (KeepsSampled E) fields value := mapValue_of_ok hvalue fun d s r _ hr => absorb_sampled hE hr
      exact (hvalue.sampled hE hfields.1).node h.examples
    · have hgivenUp : (Form.record [] mapping).Sampled E :=
        Form.sampled_record.2 ⟨fun _ ht => absurd ht List.not_mem_nil, hfields.2⟩
      exact hgivenUp.node h.examples
  · exact h

/-- A visitor that leaves sampled nodes leaves a sampled tree, also where it stops. -/
theorem Schema.Sampled.walk {σ : Type} {visitor : Visitor σ}
    (hv : ∀ st s, Schema.Sampled E s → Schema.Sampled E (visitor st s).value) {s : Schema} (h : s.Sampled E) :
    ∀ st, (s.walk visitor st).value.Sampled E := by
  induction s using Schema.inductionOn with
  | step s ih =>
    intro st
    have hwalked : (s.form.walk visitor st).value.Sampled E := by
      obtain ⟨nodes, hpasses, hchildren | hchildren⟩ := s.form.walk_passes visitor st
      · unfold Form.Sampled
        rw [hchildren]
        exact hpasses.values (fun t ht => ih t ht (h.child t ht)) h.child
      · -- options are collected again, which merges examples of equal nodes
        unfold Form.Sampled
        rw [hchildren]
        exact Catalogue.ofList_values_of_merge hE.mergeNodes (hpasses.values (fun t ht => ih t ht (h.child t ht)) h.child)
    obtain ⟨form, nullable, metadata, examples⟩ := s
    have hs : Schema.Sampled E ⟨(form.walk visitor st).value, nullable, metadata, examples⟩ := hwalked.node h.examples
    unfold Schema.walk
    dsimp only
    split
    · exact hs
    · exact hv _ _ hs

theorem Schema.Sampled.inferMaps {s : Schema} (h : s.Sampled E) (limits : Limits) :
    (s.inferMaps limits).value.Sampled E := by
  refine h.walk hE (fun count s hs => ?_) 0
  rcases inferMap_value limits count s with hvalue | hvalue
  · rwa [hvalue]
  · rw [hvalue]
    exact hs.convertToMap hE count

theorem Catalogue.accumulate_sampled {dst src c : Catalogue} {discarded : Nat}
    (h : accumulate limits dst src = .ok (c, discarded)) (hd : ∀ s ∈ Table.values dst, s.Sampled E)
    (hs : ∀ s ∈ Table.values src, s.Sampled E) : ∀ s ∈ Table.values c, s.Sampled E := by
  obtain ⟨dsts, srcs, acc, hdsts, hsrcs, hacc, rfl, -⟩ := accumulate_eq_ok h
  have hentries : ∀ e ∈ dsts ++ srcs, e.2.Sampled E := List.forall_mem_append.2
    ⟨fun e he => hd _ (of_mem_byMetadata hdsts e he), fun e he => hs _ (of_mem_byMetadata hsrcs e he)⟩
  exact ofList_values_of_merge hE.mergeNodes
    (Accumulator.foldlM_add_values (fun d s r hr hd hs => absorb_sampled hE hr hd hs) hentries hacc nofun)

end

/-! ## Bounded and genuine -/

theorem Schema.sampled_bounded_iff {G : String × String → Prop} {s : Schema} :
    s.Sampled (fun e => e.length ≤ Examples.capacity ∧ ∀ row ∈ e, G row) ↔ s.Capped ∧ ∀ row, s.Shows row → G row :=
  ⟨fun h => ⟨h.mono fun _ h => h.1, Schema.sampled_forall_iff.1 (h.mono fun _ h => h.2)⟩,
    fun h => h.1.and (Schema.sampled_forall_iff.2 h.2)⟩

/--
Examples stay few and genuine. When no node of the trees has more examples than a merge keeps, then no node has
more in what absorbing one of the trees into the other gives, in what a search for maps leaves, whether it succeeds
or fails, and in what accumulating catalogues of such trees gives; and all examples in there are examples of some
node of the trees.
-/
theorem examples_bounded_and_genuine (limits : Limits) :
    (∀ d s r : Schema, d.Capped → s.Capped → absorb limits d s = .ok r →
      r.Capped ∧ ∀ row, r.Shows row → d.Shows row ∨ s.Shows row) ∧
    (∀ s : Schema, s.Capped →
      (s.inferMaps limits).value.Capped ∧ ∀ row, (s.inferMaps limits).value.Shows row → s.Shows row) ∧
    ∀ (dst src c : Catalogue) (discarded : Nat), (∀ s ∈ Table.values dst, s.Capped) →
      (∀ s ∈ Table.values src, s.Capped) → Catalogue.accumulate limits dst src = .ok (c, discarded) →
        ∀ t ∈ Table.values c, t.Capped ∧
          ∀ row, t.Shows row → ∃ s ∈ Table.values dst ++ Table.values src, s.Shows row := by
  refine ⟨fun d s r hd hs h => ?_, fun s hs => ?_, fun dst src c discarded hd hs h t ht => ?_⟩
  · have hkeeps := absorb_sampled (Examples.merging_bounded fun row => d.Shows row ∨ s.Shows row) h
    exact Schema.sampled_bounded_iff.1 (hkeeps (Schema.sampled_bounded_iff.2 ⟨hd, fun _ => .inl⟩)
      (Schema.sampled_bounded_iff.2 ⟨hs, fun _ => .inr⟩))
  · have hsampled := Schema.sampled_bounded_iff.2 ⟨hs, fun row (hrow : s.Shows row) => hrow⟩
    exact Schema.sampled_bounded_iff.1 (hsampled.inferMaps (Examples.merging_bounded _) limits)
  · have hsource : ∀ (side : Catalogue), (∀ s ∈ Table.values side, s.Capped) →
        (∀ s ∈ Table.values side, s ∈ Table.values dst ++ Table.values src) → ∀ s ∈ Table.values side,
          s.Sampled (fun e => e.length ≤ Examples.capacity ∧
            ∀ row ∈ e, ∃ s ∈ Table.values dst ++ Table.values src, s.Shows row) := fun side hside hmem s hs =>
      Schema.sampled_bounded_iff.2 ⟨hside s hs, fun row hrow => ⟨s, hmem s hs, hrow⟩⟩
    exact Schema.sampled_bounded_iff.1 (Catalogue.accumulate_sampled (Examples.merging_bounded _) h
      (hsource dst hd fun _ => List.mem_append_left _) (hsource src hs fun _ => List.mem_append_right _) t ht)

/-- The value of a header with the examples. -/
def Schema.quoting (examples : Examples) : Schema :=
  { Schema.ofType .string with examples := examples, metadata := some { http := some { location := .header "accept" } } }

/-- An entry that nothing else is accumulated with stays as it is. -/
theorem accumulate_quoting (limits : Limits) (examples : Examples) :
    Catalogue.accumulate limits [("k", Schema.quoting examples)] [] =
      .ok ([((Schema.quoting examples).address, Schema.quoting examples)], 0) := by
  have hentries : Catalogue.byMetadata [("k", Schema.quoting examples)] =
      .ok [({ http := some { location := .header "accept" } }, Schema.quoting examples)] :=
    congrArg Except.ok (List.mergeSort_singleton _)
  have hnone : Catalogue.byMetadata [] = .ok [] := congrArg Except.ok (List.mergeSort_nil)
  unfold Catalogue.accumulate
  rw [hentries, hnone]
  rfl

/-- Of three examples of a header, two on one side and one on the other, the two with the smallest keys are kept. -/
theorem examples_bounded_and_genuine_header : ∃ r,
    absorb {} (Schema.quoting [("b", "one"), ("c", "two")]) (Schema.quoting [("a", "three")]) = .ok r ∧
    r.examples = [("a", "three"), ("b", "one")] ∧ r.Capped ∧
    (∀ row, r.Shows row → (Schema.quoting [("b", "one"), ("c", "two")]).Shows row ∨
      (Schema.quoting [("a", "three")]).Shows row) ∧
    (r.inferMaps {}).value.Capped ∧
    ∃ c, Catalogue.accumulate {} [("k", r)] [] = .ok (c, 0) ∧ ∀ t ∈ Table.values c, t.Capped := by
  have hcapped : ∀ examples : Examples, examples.length ≤ Examples.capacity → (Schema.quoting examples).Capped :=
    fun examples h => .of_primitive rfl h
  obtain ⟨habsorb, hinfer, haccumulate⟩ := examples_bounded_and_genuine {}
  have hr : absorb {} (Schema.quoting [("b", "one"), ("c", "two")]) (Schema.quoting [("a", "three")]) =
    .ok (Schema.quoting [("a", "three"), ("b", "one")]) := rfl
  obtain ⟨hrcapped, hgenuine⟩ := habsorb _ _ _ (hcapped _ (by decide)) (hcapped _ (by decide)) hr
  have hsingle : ∀ t ∈ Table.values [("k", Schema.quoting [("a", "three"), ("b", "one")])], t.Capped :=
    List.forall_mem_singleton.2 hrcapped
  refine ⟨_, hr, rfl, hrcapped, hgenuine, (hinfer _ hrcapped).1, _, accumulate_quoting {} _, fun t ht => ?_⟩
  have hempty : ∀ t ∈ Table.values ([] : Catalogue), t.Capped := fun t ht => absurd ht List.not_mem_nil
  exact (haccumulate _ _ _ _ hsingle hempty (accumulate_quoting {} _) t ht).1

end ApiShape

/-
The operations on whole trees go through erasing examples: what they decide, count and report does not
depend on them, and neither does what they leave behind, but for its own examples.
-/
import ApiShape.Endpoint
import ApiShape.Proofs.Erase.Absorb
import ApiShape.Proofs.Traversal

namespace ApiShape

/-- A catalogue without the examples of its nodes. The keys stay. -/
def Catalogue.erase (c : Catalogue) : Catalogue := Table.mapValues Schema.erase c

/-- An endpoint without the examples of its nodes. -/
def Endpoint.erase (e : Endpoint) : Endpoint := { e with args := e.args.erase, responses := e.responses.erase }

/-! ## Traversals -/

/-- The visitor does the same without the examples: its state, its fault and the node it leaves behind. -/
def Visitor.Erases {σ : Type} (visitor : Visitor σ) : Prop :=
  ∀ st s, (visitor st s).map Schema.erase = visitor st s.erase

section

variable {σ : Type} {visitor : Visitor σ}

theorem visitAll_erase {l : List Schema}
    (h : ∀ s ∈ l, ∀ st, (visitor st s).map Schema.erase = visitor st s.erase) :
    ∀ st, (visitAll visitor st l).map (List.map Schema.erase) = visitAll visitor st (l.map Schema.erase) := by
  induction l with
  | nil => exact fun st => rfl
  | cons s rest ih =>
    intro st
    rw [List.map_cons]
    unfold visitAll
    rw [← h s List.mem_cons_self]
    dsimp only [Visit.map]
    cases (visitor st s).fault with
    | some f => rfl
    | none =>
      dsimp only
      rw [← ih fun t ht => h t (List.mem_cons_of_mem _ ht)]
      rfl

theorem walkFields_erase {rows : Table Schema}
    (h : ∀ t ∈ Table.values rows, ∀ st, (t.walk visitor st).map Schema.erase = t.erase.walk visitor st) :
    ∀ st, (walkFields visitor st rows).map (Table.mapValues Schema.erase) =
      walkFields visitor st (Table.mapValues Schema.erase rows) := by
  induction rows with
  | nil => exact fun st => rfl
  | cons row rest ih =>
    intro st
    obtain ⟨name, s⟩ := row
    rw [Table.mapValues_cons]
    unfold walkFields
    rw [← h s List.mem_cons_self]
    dsimp only [Visit.map, Visit.under]
    cases (s.walk visitor st).fault with
    | some f => rfl
    | none =>
      dsimp only [Option.map]
      rw [← ih fun t ht => h t (List.mem_cons_of_mem _ ht)]
      rfl

theorem walkElems_erase {elems : List Schema}
    (h : ∀ t ∈ elems, ∀ st, (t.walk visitor st).map Schema.erase = t.erase.walk visitor st) :
    ∀ st i, (walkElems visitor st i elems).map (List.map Schema.erase) =
      walkElems visitor st i (elems.map Schema.erase) := by
  induction elems with
  | nil => exact fun st i => rfl
  | cons s rest ih =>
    intro st i
    rw [List.map_cons]
    unfold walkElems
    rw [← h s List.mem_cons_self]
    dsimp only [Visit.map, Visit.under]
    cases (s.walk visitor st).fault with
    | some f => rfl
    | none =>
      dsimp only [Option.map]
      rw [← ih fun t ht => h t (List.mem_cons_of_mem _ ht)]
      rfl

theorem walkSlot_erase {slot : Option Schema}
    (h : ∀ t ∈ slot, ∀ st, (t.walk visitor st).map Schema.erase = t.erase.walk visitor st) (st : σ) :
    (walkSlot visitor st slot).map (Option.map Schema.erase) = walkSlot visitor st (slot.map Schema.erase) := by
  cases slot with
  | none => rfl
  | some s =>
    show _ = (s.erase.walk visitor st).map some
    rw [← h s rfl]
    rfl

theorem walkMapping_erase {mapping : Option Mapping}
    (h : ∀ m, mapping = some m → ∀ t ∈ m.slots, ∀ st, (t.walk visitor st).map Schema.erase = t.erase.walk visitor st)
    (st : σ) : (walkMapping visitor st mapping).map (Option.map Mapping.erase) =
      walkMapping visitor st (mapping.map Mapping.erase) := by
  rcases mapping with _ | ⟨key, value⟩
  · rfl
  · have hkey := fun t ht => h _ rfl t (Mapping.mem_slots.2 (.inl ht))
    have hvalue := fun t ht => h _ rfl t (Mapping.mem_slots.2 (.inr ht))
    rw [Option.map_some]
    unfold walkMapping Mapping.erase
    dsimp only
    rw [← walkSlot_erase hkey]
    dsimp only [Visit.map, Visit.under]
    cases (walkSlot visitor st key).fault with
    | some f => rfl
    | none =>
      dsimp only [Option.map_none]
      rw [← walkSlot_erase hvalue]
      rfl

theorem Form.walk_erase {f : Form}
    (h : ∀ t ∈ f.children, ∀ st, (t.walk visitor st).map Schema.erase = t.erase.walk visitor st) (st : σ) :
    (f.walk visitor st).map Form.erase = f.erase.walk visitor st := by
  cases f with
  | primitive p => rfl
  | absent => rfl
  | list elems =>
    have helems := walkElems_erase (show ∀ t ∈ elems, _ from h) st 0
    rw [Form.erase_list]
    unfold Form.walk
    rw [← helems]
    simp [Visit.map]
  | optional inner =>
    rw [Form.erase_optional]
    unfold Form.walk
    rw [← h inner List.mem_cons_self]
    rfl
  | oneOf options conflict =>
    -- The options are collected again under their addresses, which examples have no part in.
    have hoptions := visitAll_erase (show ∀ t ∈ Table.values options, _ from h) st
    rw [Form.erase_oneOf]
    unfold Form.walk
    rw [walkOptions_eq, walkOptions_eq, Table.values_mapValues, ← hoptions]
    simp [Visit.map, ofList_erase]
  | record fields mapping =>
    rw [Form.erase_record]
    unfold Form.walk
    rw [← walkFields_erase fun t ht => h t (List.mem_append_left _ ht)]
    dsimp only [Visit.map]
    cases (walkFields visitor st fields).fault with
    | some f => simp
    | none =>
      dsimp only
      rw [← walkMapping_erase fun m hm t ht => h t (List.mem_append_right _ (by rw [hm]; exact ht))]
      simp [Visit.map]

/-- A traversal goes through erasing when its visitor does. -/
theorem Visitor.Erases.walk (hv : visitor.Erases) (s : Schema) :
    ∀ st, (s.walk visitor st).map Schema.erase = s.erase.walk visitor st := by
  induction s using Schema.inductionOn with
  | step s ih =>
    intro st
    have hform := Form.walk_erase ih st
    obtain ⟨form, nullable, metadata, examples⟩ := s
    unfold Schema.erase Schema.walk
    dsimp only at hform ⊢
    rw [← hform]
    dsimp only [Visit.map]
    cases (form.walk visitor st).fault with
    | some f => rfl
    | none => exact hv _ _

theorem Visitor.Erases.walk_catalogue (hv : visitor.Erases) (st : σ) (c : Catalogue) :
    (Catalogue.walk visitor st c).map Catalogue.erase = Catalogue.walk visitor st c.erase := by
  unfold Catalogue.walk Catalogue.update Catalogue.erase
  rw [Table.values_mapValues, ← visitAll_erase fun s _ st => hv.walk s st]
  dsimp only [Visit.map]
  rw [ofList_erase]

theorem Visitor.Erases.walk_endpoint (hv : visitor.Erases) (st : σ) (e : Endpoint) :
    (e.walk visitor st).map Endpoint.erase = e.erase.walk visitor st := by
  unfold Endpoint.walk Endpoint.erase
  dsimp only
  rw [← hv.walk_catalogue]
  dsimp only [Visit.map]
  cases (Catalogue.walk visitor st e.args).fault with
  | some f => rfl
  | none =>
    dsimp only
    rw [← hv.walk_catalogue]
    rfl

end

/-! ## Searching for maps -/

theorem Schema.shouldBeMap_erase (limits : Limits) (s : Schema) : s.erase.shouldBeMap limits = s.shouldBeMap limits := by
  unfold Schema.shouldBeMap
  rw [Schema.form_erase]
  cases s.form with
  | record fields mapping =>
    rw [Form.erase_record]
    cases mapping with
    | none => exact exceeded_erase _ fields
    | some m => rfl
  | primitive | list | absent | optional => rfl
  | oneOf options conflict => rw [Form.erase_oneOf]

/-- A conversion, and what a failed one leaves, without the examples. -/
theorem Schema.convertToMap_erase {σ : Type} (limits : Limits) (st : σ) (s : Schema) :
    (s.convertToMap limits st).map Schema.erase = s.erase.convertToMap limits st := by
  have hsame : (⟨st, s, none⟩ : Visit σ Schema).map Schema.erase = ⟨st, s.erase, none⟩ := rfl
  unfold Schema.convertToMap
  rw [Schema.form_erase]
  cases s.form with
  | record fields mapping =>
    rw [Form.erase_record]
    dsimp only
    rw [← mappingOf_erase (absorb_erase limits)]
    cases mappingOf (absorb limits) fields with
    | ok m =>
      show (⟨st, Schema.erase { s with form := .record [] (some m) }, none⟩ : Visit σ Schema) = ⟨st, _, none⟩
      congr 1
      exact Schema.ext_fields (by simp) (by simp) (by simp) (by simp)
    | error f =>
      show (⟨st, Schema.erase { s with form := .record [] mapping }, some f⟩ : Visit σ Schema) = ⟨st, _, some f⟩
      congr 1
      exact Schema.ext_fields (by simp) (by simp) (by simp) (by simp)
  | primitive | list | absent | optional => exact hsame
  | oneOf options conflict =>
    rw [Form.erase_oneOf]
    exact hsame

theorem inferMap_erase (limits : Limits) : (inferMap limits).Erases := by
  intro count s
  unfold inferMap
  rw [Schema.shouldBeMap_erase]
  split
  · rw [← Schema.convertToMap_erase]
    dsimp only [Visit.map]
    cases hfault : (s.convertToMap limits count).fault with
    | some f => exact congrArg (fun fault => Visit.mk _ _ fault) hfault
    | none => rfl
  · rfl

/-- A search for maps goes through erasing: it counts the same conversions and stops at the same node. -/
theorem Schema.inferMaps_erase (limits : Limits) (s : Schema) :
    (s.inferMaps limits).map Schema.erase = s.erase.inferMaps limits :=
  (inferMap_erase limits).walk s 0

theorem Endpoint.inferMaps_erase (limits : Limits) (e : Endpoint) :
    (e.inferMaps limits).map Endpoint.erase = e.erase.inferMaps limits :=
  (inferMap_erase limits).walk_endpoint 0 e

/-! ## Accumulation -/

/-- An entry without the examples of its node. -/
def eraseEntry (entry : Metadata × Schema) : Metadata × Schema := (entry.1, entry.2.erase)

theorem Schema.placed?_erase (s : Schema) : s.erase.placed? = s.placed? := by
  unfold Schema.placed?
  rw [Schema.metadata_erase]

namespace Catalogue

theorem placed_erase (c : Catalogue) : c.placed.map (List.map eraseEntry) = c.erase.placed := by
  induction c with
  | nil => rfl
  | cons row rest ih =>
    obtain ⟨key, s⟩ := row
    unfold Catalogue.erase
    rw [Table.mapValues_cons]
    unfold Catalogue.placed
    rw [Schema.placed?_erase]
    cases s.placed? with
    | none => rfl
    | some m =>
      dsimp only
      rw [← Catalogue.erase, ← ih, map_map, map_map]
      rfl

theorem byMetadata_erase (c : Catalogue) : c.byMetadata.map (List.map eraseEntry) = c.erase.byMetadata := by
  unfold byMetadata
  rw [← placed_erase, map_map, map_map]
  congr 1
  funext entries
  exact List.map_mergeSort fun a _ b _ => rfl

end Catalogue

namespace Accumulator

/-- The entries without the examples of their nodes. -/
def erase (a : Accumulator) : Accumulator := { a with entries := Table.mapValues Schema.erase a.entries }

theorem noteCookie_erase (a : Accumulator) (m : Metadata) : (a.noteCookie m).erase = a.erase.noteCookie m := by
  unfold noteCookie erase
  cases m.cookie? with
  | none => rfl
  | some name =>
    dsimp only
    split <;> rfl

/-- Entries are matched by metadata, which erasing keeps. -/
theorem add_erase (limits : Limits) (a : Accumulator) (entry : Metadata × Schema) :
    (a.add limits entry).map erase = a.erase.add limits (eraseEntry entry) := by
  obtain ⟨m, s⟩ := entry
  have hfull : a.erase.isFull limits m = a.isFull limits m := rfl
  unfold add
  dsimp only [eraseEntry]
  rw [show a.erase.entries = Table.mapValues Schema.erase a.entries from rfl, Table.find?_mapValues, hfull]
  cases Table.find? a.entries m.address with
  | some stored =>
    dsimp only [Option.map_some]
    rw [← absorb_erase]
    cases absorb limits stored s with
    | ok merged =>
      exact congrArg (fun entries => Except.ok { a with entries := entries }) (Table.insert_mapValues ..).symm
    | error f => rfl
  | none =>
    dsimp only [Option.map_none]
    split
    · rfl
    · rw [← noteCookie_erase]
      exact congrArg (fun entries => Except.ok { a.noteCookie m with entries := entries })
        (Table.insert_mapValues ..).symm

end Accumulator

namespace Catalogue

/-- Accumulating goes through erasing: the cookies discarded are the same, and the fault is, if there is one. -/
theorem accumulate_erase (limits : Limits) (dst src : Catalogue) :
    (accumulate limits dst src).map (Prod.map erase id) = accumulate limits dst.erase src.erase := by
  unfold accumulate
  rw [← byMetadata_erase, ← byMetadata_erase]
  refine map_bind fun dsts => map_bind fun srcs => ?_
  rw [← List.map_append, show ({} : Accumulator) = Accumulator.erase {} from rfl,
    ← map_foldlM (Accumulator.add_erase limits)]
  refine map_bind fun acc => ?_
  rw [show acc.erase.entries = Table.mapValues Schema.erase acc.entries from rfl, Table.values_mapValues, ofList_erase]
  rfl

end Catalogue

/-! ## Two runs -/

/--
Examples never influence the schema. On inputs that differ in their examples only, absorbing either fails with
one and the same fault or gives trees that differ in their examples only. So does a search for maps, in a tree or in
an endpoint, with the same count, and so does accumulating, with the same number of cookies discarded.
-/
theorem examples_never_influence (limits : Limits) :
    (∀ d₁ d₂ s₁ s₂ : Schema, d₁.erase = d₂.erase → s₁.erase = s₂.erase →
      (absorb limits d₁ s₁).map Schema.erase = (absorb limits d₂ s₂).map Schema.erase) ∧
    (∀ s₁ s₂ : Schema, s₁.erase = s₂.erase →
      (s₁.inferMaps limits).map Schema.erase = (s₂.inferMaps limits).map Schema.erase) ∧
    (∀ e₁ e₂ : Endpoint, e₁.erase = e₂.erase →
      (e₁.inferMaps limits).map Endpoint.erase = (e₂.inferMaps limits).map Endpoint.erase) ∧
    ∀ d₁ d₂ s₁ s₂ : Catalogue, d₁.erase = d₂.erase → s₁.erase = s₂.erase →
      (Catalogue.accumulate limits d₁ s₁).map (Prod.map Catalogue.erase id) =
        (Catalogue.accumulate limits d₂ s₂).map (Prod.map Catalogue.erase id) := by
  refine ⟨fun d₁ d₂ s₁ s₂ hd hs => ?_, fun s₁ s₂ hs => ?_, fun e₁ e₂ he => ?_, fun d₁ d₂ s₁ s₂ hd hs => ?_⟩
  · rw [absorb_erase, absorb_erase, hd, hs]
  · rw [Schema.inferMaps_erase, Schema.inferMaps_erase, hs]
  · rw [Endpoint.inferMaps_erase, Endpoint.inferMaps_erase, he]
  · rw [Catalogue.accumulate_erase, Catalogue.accumulate_erase, hd, hs]

/-- A number and a text, each with an example or without: as two shapes of one value they become alternatives, as
values of two fields of a body a map, and as two cookies of which one may be kept the second is discarded. -/
theorem examples_never_influence_alternatives : ∃ n₁ n₂ t₁ t₂ : Schema,
    n₁ = (Schema.ofType .int32).withExample "first" "1" ∧ n₂ = Schema.ofType .int32 ∧
    t₁ = Schema.ofType .string ∧ t₂ = (Schema.ofType .string).withExample "second" "one" ∧
    (absorb {} n₁ t₁).map Schema.erase = (absorb {} n₂ t₂).map Schema.erase ∧
    ((Schema.ofFields [("0", n₁), ("1", t₁)]).inferMaps { mapInference := { maxDigitFields := 1 } }).map Schema.erase =
      ((Schema.ofFields [("0", n₂), ("1", t₂)]).inferMaps { mapInference := { maxDigitFields := 1 } }).map Schema.erase ∧
    ((Endpoint.mk ⟨"localhost", "get", "/"⟩ [] [("0", Schema.ofFields [("0", n₁), ("1", t₁)])]).inferMaps
        { mapInference := { maxDigitFields := 1 } }).map Endpoint.erase =
      ((Endpoint.mk ⟨"localhost", "get", "/"⟩ [] [("0", Schema.ofFields [("0", n₂), ("1", t₂)])]).inferMaps
        { mapInference := { maxDigitFields := 1 } }).map Endpoint.erase ∧
    (Catalogue.accumulate { maxCookies := 1 } [("0", { n₁ with metadata := some ⟨some ⟨.cookie "a", 0⟩⟩ })]
        [("0", { t₁ with metadata := some ⟨some ⟨.cookie "b", 0⟩⟩ })]).map (Prod.map Catalogue.erase id) =
      (Catalogue.accumulate { maxCookies := 1 } [("0", { n₂ with metadata := some ⟨some ⟨.cookie "a", 0⟩⟩ })]
        [("0", { t₂ with metadata := some ⟨some ⟨.cookie "b", 0⟩⟩ })]).map (Prod.map Catalogue.erase id) :=
  ⟨_, _, _, _, rfl, rfl, rfl, rfl, (examples_never_influence {}).1 _ _ _ _ rfl rfl,
    (examples_never_influence { mapInference := { maxDigitFields := 1 } }).2.1 _ _ rfl,
    (examples_never_influence { mapInference := { maxDigitFields := 1 } }).2.2.1 _ _ rfl,
    (examples_never_influence { maxCookies := 1 }).2.2.2 _ _ _ _ rfl rfl⟩

end ApiShape

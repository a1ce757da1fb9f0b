/-
The canonical object of a tree determines the instances that the tree admits: nodes that are one
entry of a catalogue describe the same values.
-/
import ApiShape.Proofs.Instance.Basic
import ApiShape.Schema.Canonical

namespace ApiShape

/-! ## Parts of canonical objects -/

theorem optionalField_text (n : Nat) (s : String) :
    Canon.optionalField n (.text s) = if s.isEmpty then [] else [(n, .text s)] := rfl

theorem optionalField_text_inj {n : Nat} {s t : String}
    (h : Canon.optionalField n (.text s) = Canon.optionalField n (.text t)) : s = t := by
  rw [optionalField_text, optionalField_text] at h
  by_cases hs : s.isEmpty <;> by_cases ht : t.isEmpty
  · rw [String.isEmpty_iff.1 hs, String.isEmpty_iff.1 ht]
  · rw [if_pos hs, if_neg ht] at h
    cases h
  · rw [if_neg hs, if_pos ht] at h
    cases h
  · rw [if_neg hs, if_neg ht] at h
    cases h
    rfl

theorem optionalField_bool_inj {n : Nat} {b c : Bool}
    (h : Canon.optionalField n (.bool b) = Canon.optionalField n (.bool c)) : b = c := by
  cases b <;> cases c <;> first | rfl | cases h

/-- The fields of one number. -/
def fieldsOf (n : Nat) (fields : List (Nat × Canon)) : List (Nat × Canon) := fields.filter (fun f => f.1 = n)

@[simp] theorem fieldsOf_append (n : Nat) (a b : List (Nat × Canon)) :
    fieldsOf n (a ++ b) = fieldsOf n a ++ fieldsOf n b := List.filter_append a b

@[simp] theorem fieldsOf_nil (n : Nat) : fieldsOf n [] = [] := rfl

@[simp] theorem fieldsOf_cons (n k : Nat) (c : Canon) (rest : List (Nat × Canon)) :
    fieldsOf n ((k, c) :: rest) = if k = n then (k, c) :: fieldsOf n rest else fieldsOf n rest := by
  unfold fieldsOf
  rw [List.filter_cons]
  simp

@[simp] theorem fieldsOf_optionalField (n k : Nat) (c : Canon) :
    fieldsOf n (Canon.optionalField k c) = if k = n then Canon.optionalField k c else [] := by
  unfold Canon.optionalField
  split
  · simp
  · simp

@[simp] theorem fieldsOf_canonMembers (n k : Nat) (c : Canon) (b : Bool) :
    fieldsOf n (canonMembers k c b) = if k = n then canonMembers k c b else [] := by
  unfold canonMembers
  split
  · simp
  · simp

/-! ## Primitives -/

theorem Scalar.canonField_fst (s : Scalar) : 4 ≤ s.canonField.1 := by
  cases s <;> simp [Scalar.canonField]

theorem Scalar.baseType_eq {s t : Scalar} (h : s.canonField.1 = t.canonField.1) : s.baseType = t.baseType := by
  cases s <;> cases t <;> first | rfl | cases h

theorem map_text_inj {l l' : List String} (h : l.map Canon.text = l'.map Canon.text) : l = l' :=
  (List.map_inj_right fun _ _ h => Canon.text.inj h).1 h

/-- The canonical object says all but the value, of which it says the type. -/
theorem Primitive.canon_inj {p q : Primitive} (h : p.canon = q.canon) :
    p.baseType = q.baseType ∧ p.formatKind = q.formatKind ∧ p.formats = q.formats := by
  have hp := Scalar.canonField_fst p.value
  have hq := Scalar.canonField_fst q.value
  unfold Primitive.canon at h
  have h := Canon.message.inj h
  refine ⟨?_, ?_, ?_⟩
  · have hlast := (List.append_inj' h rfl).2
    exact Scalar.baseType_eq (Prod.ext_iff.1 (List.cons.inj hlast).1).1
  · have hkind := congrArg (fieldsOf 2) h
    have hp : p.value.canonField.1 ≠ 2 := by omega
    have hq : q.value.canonField.1 ≠ 2 := by omega
    have hf : ∀ l : Labels, fieldsOf 2 (if l.isEmpty then [] else [(3, Canon.set (l.map .text))]) = [] := by
      intro l
      split <;> simp
    simp only [fieldsOf_append, hf, fieldsOf_optionalField, fieldsOf_cons, if_neg hp, if_neg hq] at hkind
    exact optionalField_text_inj (by simpa using hkind)
  · have hformats := congrArg (fieldsOf 3) h
    have hp : p.value.canonField.1 ≠ 3 := by omega
    have hq : q.value.canonField.1 ≠ 3 := by omega
    have hf : ∀ l : Labels, fieldsOf 3 (if l.isEmpty then [] else [(3, Canon.set (l.map .text))]) =
        if l.isEmpty then [] else [(3, Canon.set (l.map .text))] := by
      intro l
      split <;> simp
    simp only [fieldsOf_append, hf, fieldsOf_optionalField, fieldsOf_cons, if_neg hp, if_neg hq] at hformats
    have hformats : (if p.formats.isEmpty then [] else [(3, Canon.set (p.formats.map .text))]) =
        if q.formats.isEmpty then [] else [(3, Canon.set (q.formats.map .text))] := by simpa using hformats
    by_cases hpe : p.formats.isEmpty <;> by_cases hqe : q.formats.isEmpty
    · rw [List.isEmpty_iff.1 hpe, List.isEmpty_iff.1 hqe]
    · rw [if_pos hpe, if_neg hqe] at hformats
      cases hformats
    · rw [if_neg hpe, if_pos hqe] at hformats
      cases hformats
    · rw [if_neg hpe, if_neg hqe] at hformats
      exact map_text_inj (Canon.set.inj (Prod.ext_iff.1 (List.cons.inj hformats).1).2)

/-! ## Trees -/

theorem Schema.canon_inj {s t : Schema} (h : s.canon = t.canon) :
    s.form.canonField = t.form.canonField ∧ s.nullable = t.nullable := by
  obtain ⟨form, nullable, metadata, examples⟩ := s
  obtain ⟨form', nullable', metadata', examples'⟩ := t
  unfold Schema.canon at h
  obtain ⟨hform, hrest⟩ := List.cons.inj (Canon.message.inj h)
  refine ⟨hform, ?_⟩
  have hnull := congrArg (fieldsOf 7) hrest
  refine optionalField_bool_inj (n := 7) ?_
  cases metadata <;> cases metadata' <;> simpa using hnull

theorem canonMembers_inj {n : Nat} {c c' : Canon} {b b' : Bool}
    (h : canonMembers n c b = canonMembers n c' b') : b = b' ∧ (b = true ∨ c = c') := by
  cases b <;> cases b' <;> first | cases h; exact ⟨rfl, .inr rfl⟩ | exact ⟨rfl, .inl rfl⟩ | cases h

theorem canonMembers_isEmpty_inj {α β : Type} {n : Nat} {l l' : List α} {f : List α → β} {c : β → Canon}
    (hc : ∀ a b, c a = c b → a = b)
    (h : canonMembers n (c (f l)) l.isEmpty = canonMembers n (c (f l')) l'.isEmpty) : f l = f l' := by
  obtain ⟨hempty, h | h⟩ := canonMembers_inj h
  · rw [h] at hempty
    rw [List.isEmpty_iff.1 h, List.isEmpty_iff.1 hempty.symm]
  · exact hc _ _ h

variable {name : String} {s t : Schema}

/-- Records with one canonical object have the same names, over nodes with the same objects. -/
theorem find?_of_canonFields {fields fields' : Table Schema} (h : canonFields fields = canonFields fields')
    (hs : Table.find? fields name = some s) : ∃ t, Table.find? fields' name = some t ∧ s.canon = t.canon := by
  induction fields generalizing fields' with
  | nil => cases hs
  | cons row rest ih =>
    cases fields' with
    | nil => cases h
    | cons row' rest' =>
      obtain ⟨hrow, hrest⟩ := List.cons.inj h
      have hname : row.1 = row'.1 := Canon.text.inj (Prod.ext_iff.1 hrow).1
      obtain ⟨name', s'⟩ := row
      obtain ⟨name'', t⟩ := row'
      cases hname
      unfold Table.find? at hs ⊢
      split at hs
      · rename_i heq
        cases hs
        exact ⟨t, if_pos heq, (Prod.ext_iff.1 hrow).2⟩
      · rename_i hne
        rw [if_neg hne]
        exact ih hrest hs

theorem mem_of_canonFields {fields fields' : Table Schema} (h : canonFields fields = canonFields fields')
    (hs : (name, s) ∈ fields) : ∃ t, (name, t) ∈ fields' ∧ s.canon = t.canon := by
  induction fields generalizing fields' with
  | nil => cases hs
  | cons row rest ih =>
    cases fields' with
    | nil => cases h
    | cons row' rest' =>
      obtain ⟨hrow, hrest⟩ := List.cons.inj h
      have hname : row.1 = row'.1 := Canon.text.inj (Prod.ext_iff.1 hrow).1
      rcases List.mem_cons.1 hs with hs | hs
      · cases hs
        have hname : name = row'.1 := hname
        rw [hname]
        exact ⟨row'.2, List.mem_cons_self, (Prod.ext_iff.1 hrow).2⟩
      · obtain ⟨t, ht, heq⟩ := ih hrest hs
        exact ⟨t, List.mem_cons_of_mem _ ht, heq⟩

theorem mem_of_canonElems {elems elems' : List Schema} (h : canonElems elems = canonElems elems')
    (hs : s ∈ elems) : ∃ t ∈ elems', s.canon = t.canon := by
  induction elems generalizing elems' with
  | nil => cases hs
  | cons elem rest ih =>
    cases elems' with
    | nil => cases h
    | cons elem' rest' =>
      obtain ⟨helem, hrest⟩ := List.cons.inj h
      rcases List.mem_cons.1 hs with rfl | hs
      · exact ⟨elem', List.mem_cons_self, helem⟩
      · obtain ⟨t, ht, heq⟩ := ih hrest hs
        exact ⟨t, List.mem_cons_of_mem _ ht, heq⟩

theorem canonOptions_eq (options : Table Schema) : canonOptions options = canonElems (Table.values options) := by
  induction options with
  | nil => rfl
  | cons row rest ih =>
    obtain ⟨key, s⟩ := row
    unfold canonOptions
    rw [ih]
    rfl

theorem canonSlot_inj {n : Nat} {slot slot' : Option Schema} (h : canonSlot n slot = canonSlot n slot') :
    ∀ s ∈ slot, ∃ t ∈ slot', s.canon = t.canon := by
  rintro s hs
  cases hs
  cases slot' with
  | none => cases h
  | some t => exact ⟨t, rfl, (Prod.ext_iff.1 (List.cons.inj h).1).2⟩

theorem canonMapping_inj {mapping mapping' : Option Mapping} (h : canonMapping mapping = canonMapping mapping') :
    (mapping = none ↔ mapping' = none) ∧
      ∀ m m', mapping = some m → mapping' = some m' → ∀ s ∈ m.value, ∃ t ∈ m'.value, s.canon = t.canon := by
  rcases mapping with _ | ⟨key, value⟩ <;> rcases mapping' with _ | ⟨key', value'⟩
  · exact ⟨Iff.rfl, nofun⟩
  · cases h
  · cases h
  · refine ⟨by simp, ?_⟩
    rintro _ _ ⟨⟩ ⟨⟩
    have hslots := Canon.message.inj (Prod.ext_iff.1 (List.cons.inj h).1).2
    have hvalues := congrArg (fieldsOf 2) hslots
    have hfield : ∀ n (slot : Option Schema), fieldsOf 2 (canonSlot n slot) = if n = 2 then canonSlot n slot else [] := by
      intro n slot
      cases slot <;> simp [canonSlot]
    rw [fieldsOf_append, fieldsOf_append, hfield, hfield, hfield, hfield] at hvalues
    exact canonSlot_inj (by simpa using hvalues)

theorem canonField_list_inj {elems elems' : List Schema}
    (h : (Form.list elems).canonField.2 = (Form.list elems').canonField.2) :
    canonElems elems = canonElems elems' :=
  canonMembers_isEmpty_inj (fun _ _ => Canon.list.inj) (Canon.message.inj h)

theorem canonField_oneOf_inj {options options' : Table Schema} {conflict conflict' : Bool}
    (h : (Form.oneOf options conflict).canonField.2 = (Form.oneOf options' conflict').canonField.2) :
    canonElems (Table.values options) = canonElems (Table.values options') := by
  have hmembers := congrArg (fieldsOf 1) (Canon.message.inj h)
  simp only [fieldsOf_append, fieldsOf_canonMembers, fieldsOf_optionalField, if_pos] at hmembers
  rw [← canonOptions_eq, ← canonOptions_eq]
  exact canonMembers_isEmpty_inj (fun _ _ => Canon.set.inj) (by simpa using hmembers)

theorem canonField_record_inj {fields fields' : Table Schema} {mapping mapping' : Option Mapping}
    (h : (Form.record fields mapping).canonField.2 = (Form.record fields' mapping').canonField.2) :
    canonFields fields = canonFields fields' ∧ canonMapping mapping = canonMapping mapping' := by
  have hmembers := Canon.message.inj h
  have hfieldsOf : ∀ n (m : Option Mapping), fieldsOf n (canonMapping m) = if n = 2 then canonMapping m else [] := by
    intro n m
    rcases m with _ | ⟨key, value⟩
    · simp [canonMapping]
    · simp [canonMapping, eq_comm]
  have hfields := congrArg (fieldsOf 1) hmembers
  have hmapping := congrArg (fieldsOf 2) hmembers
  simp only [fieldsOf_append, fieldsOf_canonMembers, hfieldsOf] at hfields hmapping
  exact ⟨canonMembers_isEmpty_inj (fun _ _ => Canon.dict.inj) (by simpa using hfields), by simpa using hmapping⟩

theorem Schema.isOptional_of_canon (h : s.canon = t.canon) : s.isOptional = t.isOptional := by
  have hnumber := (Prod.ext_iff.1 (Schema.canon_inj h).1).1
  unfold Schema.isOptional
  cases hs : s.form <;> cases ht : t.form <;> rw [hs, ht] at hnumber <;> first | rfl | cases hnumber

/-! ## Instances -/

/-- A tree with the canonical object of another admits all its instances. -/
theorem Schema.below_of_canon (h : s.canon = t.canon) : s.Below t := by
  induction s using Schema.inductionOn generalizing t with
  | step s ih =>
    obtain ⟨hfield, hnull⟩ := Schema.canon_inj h
    have ih : ∀ u ∈ s.form.children, ∀ {t : Schema}, u.canon = t.canon → u.Below t := fun u hu t ht => ih u hu ht
    intro i hi
    rw [Schema.admits_iff] at hi ⊢
    refine hi.imp (fun hi => ⟨hnull ▸ hi.1, hi.2⟩) fun hi => ?_
    generalize s.form = form at hfield ih hi
    generalize t.form = form' at hfield
    have hnumber := (Prod.ext_iff.1 hfield).1
    have hshape := (Prod.ext_iff.1 hfield).2
    cases form with
    | primitive p =>
      cases form' <;> first | cases hnumber; done | skip
      rename_i q
      obtain ⟨hbase, hkind, hformats⟩ := Primitive.canon_inj hshape
      cases i <;> first | exact hi.elim | skip
      unfold Form.Admits Primitive.Admits at hi ⊢
      rwa [← hbase, ← hkind, ← hformats]
    | absent => exact hi.elim
    | optional inner =>
      cases form' <;> first | cases hnumber; done | skip
      · cases hshape
      · rename_i inner'
        have hinner := (Prod.ext_iff.1 (List.cons.inj (Canon.message.inj hshape)).1).2
        rw [Form.admits_optional] at hi ⊢
        exact ih inner List.mem_cons_self hinner i hi
    | list elems =>
      cases form' <;> first | cases hnumber; done | skip
      obtain ⟨items, rfl, hitems⟩ := Form.admits_list.1 hi
      refine Form.admits_list.2 ⟨items, rfl, fun j hj => ?_⟩
      obtain ⟨u, hu, hadmits⟩ := hitems j hj
      obtain ⟨t, ht, heq⟩ := mem_of_canonElems (canonField_list_inj hshape) hu
      exact ⟨t, ht, ih u hu heq j hadmits⟩
    | oneOf options conflict =>
      cases form' <;> first | cases hnumber; done | skip
      obtain ⟨u, hu, hadmits⟩ := Form.admits_oneOf.1 hi
      obtain ⟨t, ht, heq⟩ := mem_of_canonElems (canonField_oneOf_inj hshape) hu
      exact Form.admits_oneOf.2 ⟨t, ht, ih u hu heq i hadmits⟩
    | record fields mapping =>
      cases form' <;> first | cases hnumber; done | skip
      rename_i fields' mapping'
      obtain ⟨hfields, hmapping⟩ := canonField_record_inj hshape
      obtain ⟨hnone, hvalue⟩ := canonMapping_inj hmapping
      cases mapping with
      | none =>
        cases hnone.1 rfl
        obtain ⟨rows, rfl, hrows, homitted⟩ := Form.admits_record.1 hi
        refine Form.admits_record.2 ⟨rows, rfl, fun row hrow => ?_, fun field hfield hne => ?_⟩
        · obtain ⟨u, hu, hadmits⟩ := hrows row hrow
          obtain ⟨t, ht, heq⟩ := find?_of_canonFields hfields hu
          exact ⟨t, ht, ih u (List.mem_append_left _ (Table.mem_values_of_mem (Table.mem_of_find? hu))) heq _ hadmits⟩
        · obtain ⟨u, hu, heq⟩ := mem_of_canonFields hfields.symm hfield
          rw [Schema.isOptional_of_canon heq]
          exact homitted (field.1, u) hu hne
      | some m =>
        cases mapping' with
        | none => cases hnone.2 rfl
        | some m' =>
          obtain ⟨rows, rfl, hrows⟩ := Form.admits_map.1 hi
          refine Form.admits_map.2 ⟨rows, rfl, fun row hrow => ?_⟩
          obtain ⟨u, hu, hadmits⟩ := hrows row hrow
          obtain ⟨t, ht, heq⟩ := hvalue m m' rfl rfl u hu
          have hchild : u ∈ Mapping.slots m := Mapping.mem_slots.2 (.inr hu)
          exact ⟨t, ht, ih u (List.mem_append_right _ hchild) heq _ hadmits⟩

end ApiShape

/-
What a step of absorbing makes of the results of the pairs it calls: one case for each pair of
forms (`Step`). Facts about absorbed trees are proved by cases on it, with the recursive results
described by any relation `A` between destination, source and result.
-/
import ApiShape.Proofs.Absorb.Calls
import ApiShape.Proofs.Catalogue
import ApiShape.Proofs.Primitive.Join

namespace ApiShape

/-! ## Folds -/

section

variable (A : Schema → Schema → Schema → Prop)

/-- Absorbing the members of a list in order into a tree gives another. -/
inductive Folds : Schema → List Schema → Schema → Prop
  | nil (acc : Schema) : Folds acc [] acc
  | cons {acc s mid r : Schema} {rest : List Schema} :
      A acc s mid → Folds mid rest r → Folds acc (s :: rest) r

/-- The members of a list absorbed into the first of them, if there is one. -/
inductive Collects : List Schema → Option Schema → Prop
  | none : Collects [] none
  | some {first r : Schema} {rest : List Schema} : Folds A first rest r → Collects (first :: rest) (some r)

/-! ## Records -/

/-- The shape of the values of a record taken as a map. -/
inductive MapValue (fields : Table Schema) : Option Schema → Prop
  | values {value : Schema} : Collects A (mapValues fields) (some value) →
      MapValue fields (some (value.orNullable (anyAbsent fields)))
  | null : Collects A (mapValues fields) none → anyAbsent fields = true →
      MapValue fields (some Schema.absent)
  | empty : Collects A (mapValues fields) none → anyAbsent fields = false → MapValue fields none

/-- A record as a map: the fields it keeps and its mapping. -/
inductive AsMap : Table Schema → Option Mapping → Table Schema → Mapping → Prop
  | map (fields : Table Schema) (m : Mapping) : AsMap fields (some m) fields m
  | record {fields : Table Schema} {value : Option Schema} : MapValue A fields value →
      AsMap fields none [] { key := some (Schema.ofType .string), value := value }

/-- The key or the value of a map after that of another. -/
inductive Slot : Option Schema → Option Schema → Option Schema → Prop
  | both {d s r : Schema} : A d s r → Slot (some d) (some s) (some r)
  | adopted (s : Option Schema) : Slot none s s
  | kept (d : Schema) : Slot (some d) none (some d)

/-- A field of the destination after the fields of the source. -/
inductive Field (src : Table Schema) (name : String) (d : Schema) : Schema → Prop
  | shared {s r : Schema} : Table.find? src name = some s → A d s r → Field src name d r
  | missing : Table.find? src name = none → Field src name d d.makeOptional

/-- The fields of the destination after those of the source, in the same order. -/
inductive Fields (src : Table Schema) : Table Schema → Table Schema → Prop
  | nil : Fields src [] []
  | cons {name : String} {d r : Schema} {rest rest' : Table Schema} :
      Field A src name d r → Fields src rest rest' → Fields src ((name, d) :: rest) ((name, r) :: rest')

/-- One record absorbed into another. -/
inductive RecordStep (limits : Limits) (df : Table Schema) (dm : Option Mapping) (sf : Table Schema)
    (sm : Option Mapping) : Form → Prop
  | maps {kept kept' : Table Schema} {m m' : Mapping} {key value : Option Schema} :
      dm.isSome ∨ sm.isSome → AsMap A df dm kept m → AsMap A sf sm kept' m' →
      Slot A m.key m'.key key → Slot A m.value m'.value value →
      RecordStep limits df dm sf sm (.record kept (some ⟨key, value⟩))
  | fields {shared : Table Schema} (hd : dm = none) (hs : sm = none) : Fields A sf df shared →
      limits.mapInference.exceeded (addMissing shared sf) none = false →
      RecordStep limits df dm sf sm (.record (addMissing shared sf) none)
  | grown {shared : Table Schema} {value : Option Schema} (hd : dm = none) (hs : sm = none) :
      Fields A sf df shared → limits.mapInference.exceeded (addMissing shared sf) none = true →
      MapValue A (addMissing shared sf) value →
      RecordStep limits df dm sf sm
        (.record [] (some { key := some (Schema.ofType .string), value := value }))

/-! ## Alternatives -/

/-- A primitive after taking in the options it joins with, and the options that are left. -/
inductive Gathers : Schema → Catalogue → Schema → Catalogue → Prop
  | done {acc : Schema} {options : Catalogue} :
      (Catalogue.take (fun o => o.joinable acc) options).1 = [] → Gathers acc options acc options
  | round {acc mid r : Schema} {options rest : Catalogue} :
      (Catalogue.take (fun o => o.joinable acc) options).1 ≠ [] →
      Folds A acc (Catalogue.take (fun o => o.joinable acc) options).1 mid →
      Gathers mid (Catalogue.take (fun o => o.joinable acc) options).2 r rest →
      Gathers acc options r rest

/-- What a variant becomes with the options it goes together with, and the options that are left. -/
inductive Joins (options : Catalogue) (variant : Schema) : Schema → Catalogue → Prop
  | record {r : Schema} : variant.isRecord →
      Collects A ((Catalogue.take Schema.isRecord options).1 ++ [variant]) (some r) →
      Joins options variant r (Catalogue.take Schema.isRecord options).2
  | list {r : Schema} : variant.isList →
      Collects A ((Catalogue.take Schema.isList options).1 ++ [variant]) (some r) →
      Joins options variant r (Catalogue.take Schema.isList options).2
  | primitive {p : Primitive} {r : Schema} {rest : Catalogue} : variant.form = .primitive p →
      Gathers A variant options r rest → Joins options variant r rest

/-! ## Steps -/

/-- Shapes that are absorbed into one instead of being kept as alternatives. -/
def Form.agrees : Form → Form → Bool
  | .record _ _, .record _ _ | .list _, .list _ => true
  | .primitive p, .primitive q => p.joinable q
  | _, _ => false

/-- Nodes of shapes that agree. -/
def Schema.agrees (s t : Schema) : Bool := s.form.agrees t.form

theorem Schema.isPlain_of_agrees {s t : Schema} (h : s.agrees t) : s.isPlain ∧ t.isPlain := by
  unfold Schema.agrees Form.agrees at h
  unfold Schema.isPlain Form.isPlain
  split at h
  · rename_i hs ht
    rw [hs, ht]
    exact ⟨rfl, rfl⟩
  · rename_i hs ht
    rw [hs, ht]
    exact ⟨rfl, rfl⟩
  · rename_i hs ht
    rw [hs, ht]
    exact ⟨rfl, rfl⟩
  · cases h

theorem Schema.agrees_of_isRecord {s t : Schema} (hs : s.isRecord) (ht : t.isRecord) : s.agrees t := by
  unfold Schema.isRecord at hs ht
  unfold Schema.agrees Form.agrees
  split at hs
  · split at ht
    · simp_all
    · cases ht
  · cases hs

theorem Schema.agrees_of_isList {s t : Schema} (hs : s.isList) (ht : t.isList) : s.agrees t := by
  unfold Schema.isList at hs ht
  unfold Schema.agrees Form.agrees
  split at hs
  · split at ht
    · simp_all
    · cases ht
  · cases hs

theorem Schema.agrees_of_joinable {s t : Schema} (h : t.joinable s) : s.agrees t := by
  unfold Schema.joinable at h
  unfold Schema.agrees Form.agrees
  split at h
  · rename_i p q ht hs
    rw [hs, ht]
    rwa [Primitive.joinable_comm] at h
  · cases h

/-- A step on a plain source. -/
inductive PlainStep (limits : Limits) (dst src : Schema) : Schema → Prop
  | record {df sf : Table Schema} {dm sm : Option Mapping} {form : Form}
      (hd : dst.form = .record df dm) (hs : src.form = .record sf sm) :
      RecordStep A limits df dm sf sm form →
      PlainStep limits dst src ({ dst with form := form }.mergeExamples src.examples)
  | list {de se : List Schema} {rep : Option Schema}
      (hd : dst.form = .list de) (hs : src.form = .list se) : Collects A (de ++ se) rep →
      PlainStep limits dst src ({ dst with form := .list rep.toList }.mergeExamples src.examples)
  | primitive {p q j : Primitive} (hd : dst.form = .primitive p) (hs : src.form = .primitive q) :
      p.join q = some j →
      PlainStep limits dst src ({ dst with form := .primitive j }.mergeExamples src.examples)
  | conflict : dst.isPlain → dst.agrees src = false → PlainStep limits dst src (dst.conflict src)
  | inner {inner r : Schema} (hd : dst.form = .optional inner) : inner.isOptional = false →
      A inner src r →
      PlainStep limits dst src
        { dst.orNullable r.nullable with form := .optional { r with nullable := false } }
  | absent (hd : dst.form = .absent) :
      PlainStep limits dst src { dst.orNullable true with form := .optional src }
  | option {options rest : Catalogue} {conflict : Bool} {merged : Schema}
      (hd : dst.form = .oneOf options conflict) : Joins A options src.bare merged rest →
      PlainStep limits dst src
        ((dst.orNullable src.nullable).withOptions (Catalogue.insert rest merged) conflict)

/-- A step of absorbing. -/
inductive Step (limits : Limits) : Schema → Schema → Schema → Prop
  | optional {dst src inner r : Schema} (hs : src.form = .optional inner) :
      Step limits (dst.orNullable src.nullable) inner r →
      Step limits dst src (r.makeOptional.mergeExamples src.examples)
  | absent {dst src : Schema} (hs : src.form = .absent) :
      Step limits dst src ((dst.orNullable true).mergeExamples src.examples)
  | swap {dst src r : Schema} {options : Catalogue} {conflict : Bool}
      (hs : src.form = .oneOf options conflict) (hd : dst.isOneOf = false) :
      A { dst.orNullable src.nullable with
            form := .oneOf options conflict
            examples := Examples.merge [] src.examples } dst.bare r →
      Step limits dst src r
  | alternatives {dst src r : Schema} {options srcOptions : Catalogue} {conflict srcConflict : Bool}
      (hs : src.form = .oneOf srcOptions srcConflict) (hd : dst.form = .oneOf options conflict) :
      (∀ t ∈ Table.values srcOptions, t.isPlain) →
      Folds A { (dst.orNullable src.nullable).mergeExamples src.examples with
                  form := .oneOf options (conflict || srcConflict) } (Table.values srcOptions) r →
      Step limits dst src r
  | plain {dst src r : Schema} (hs : src.isPlain) :
      PlainStep A limits (dst.orNullable src.nullable) src.bare r → Step limits dst src r

end

/-! ## Steps with weaker results -/

section

variable {A A' : Schema → Schema → Schema → Prop} (hA : ∀ d s r, A d s r → A' d s r)

include hA

theorem Folds.mono {acc r : Schema} {l : List Schema} (h : Folds A acc l r) : Folds A' acc l r := by
  induction h with
  | nil acc => exact .nil acc
  | cons h _ ih => exact .cons (hA _ _ _ h) ih

theorem Collects.mono {l : List Schema} {rep : Option Schema} (h : Collects A l rep) : Collects A' l rep := by
  cases h with
  | none => exact .none
  | some h => exact .some (h.mono hA)

theorem MapValue.mono {fields : Table Schema} {value : Option Schema} (h : MapValue A fields value) :
    MapValue A' fields value := by
  cases h with
  | values h => exact .values (h.mono hA)
  | null h habsent => exact .null (h.mono hA) habsent
  | empty h habsent => exact .empty (h.mono hA) habsent

theorem AsMap.mono {fields kept : Table Schema} {mapping : Option Mapping} {m : Mapping}
    (h : AsMap A fields mapping kept m) : AsMap A' fields mapping kept m := by
  cases h with
  | map => exact .map fields m
  | record h => exact .record (h.mono hA)

theorem Fields.mono {src dst shared : Table Schema} (h : Fields A src dst shared) : Fields A' src dst shared := by
  induction h with
  | nil => exact .nil
  | cons h _ ih =>
    refine .cons ?_ ih
    cases h with
    | shared hs h => exact .shared hs (hA _ _ _ h)
    | missing hs => exact .missing hs

theorem Slot.mono {dst src r : Option Schema} (h : Slot A dst src r) : Slot A' dst src r := by
  cases h with
  | both h => exact .both (hA _ _ _ h)
  | adopted => exact .adopted src
  | kept d => exact .kept d

theorem RecordStep.mono {limits : Limits} {df sf : Table Schema} {dm sm : Option Mapping} {form : Form}
    (h : RecordStep A limits df dm sf sm form) : RecordStep A' limits df dm sf sm form := by
  cases h with
  | maps hmap hdm hsm hkey hvalue =>
    exact .maps hmap (hdm.mono hA) (hsm.mono hA) (hkey.mono hA) (hvalue.mono hA)
  | fields hd hs h hexceeded => exact .fields hd hs (h.mono hA) hexceeded
  | grown hd hs h hexceeded hvalue => exact .grown hd hs (h.mono hA) hexceeded (hvalue.mono hA)

theorem Gathers.mono {acc r : Schema} {options rest : Catalogue} (h : Gathers A acc options r rest) :
    Gathers A' acc options r rest := by
  induction h with
  | done h => exact .done h
  | round hne h _ ih => exact .round hne (h.mono hA) ih

theorem Joins.mono {options rest : Catalogue} {variant r : Schema} (h : Joins A options variant r rest) :
    Joins A' options variant r rest := by
  cases h with
  | record hv h => exact .record hv (h.mono hA)
  | list hv h => exact .list hv (h.mono hA)
  | primitive hv h => exact .primitive hv (h.mono hA)

theorem PlainStep.mono {limits : Limits} {dst src r : Schema} (h : PlainStep A limits dst src r) :
    PlainStep A' limits dst src r := by
  cases h with
  | record hd hs h => exact .record hd hs (h.mono hA)
  | list hd hs h => exact .list hd hs (h.mono hA)
  | primitive hd hs hj => exact .primitive hd hs hj
  | conflict hd hs => exact .conflict hd hs
  | inner hd hopt h => exact .inner hd hopt (hA _ _ _ h)
  | absent hd => exact .absent hd
  | option hd h => exact .option hd (h.mono hA)

theorem Step.mono {limits : Limits} {dst src r : Schema} (h : Step A limits dst src r) :
    Step A' limits dst src r := by
  induction h with
  | optional hs _ ih => exact .optional hs ih
  | absent hs => exact .absent hs
  | swap hs hd h => exact .swap hs hd (hA _ _ _ h)
  | alternatives hs hd hplain h => exact .alternatives hs hd hplain (h.mono hA)
  | plain hs h => exact .plain hs (h.mono hA)

end

/-! ## Folds keep invariants -/

/-- What each absorbed member keeps of the tree so far, the whole fold keeps. -/
theorem Folds.invariant {A : Schema → Schema → Schema → Prop} {P S : Schema → Prop}
    (hstep : ∀ d s r, A d s r → P d → S s → P r) {acc r : Schema} {l : List Schema} (h : Folds A acc l r)
    (hacc : P acc) (hl : ∀ s ∈ l, S s) : P r := by
  induction h with
  | nil => exact hacc
  | cons hmid _ ih =>
    exact ih (hstep _ _ _ hmid hacc (hl _ List.mem_cons_self)) fun s hs => hl s (List.mem_cons_of_mem _ hs)

theorem Gathers.invariant {A : Schema → Schema → Schema → Prop} {P S : Schema → Prop}
    (hstep : ∀ d s r, A d s r → P d → S s → P r) {acc r : Schema} {options rest : Catalogue}
    (h : Gathers A acc options r rest) (hacc : P acc) (hoptions : ∀ s ∈ Table.values options, S s) : P r := by
  induction h with
  | done => exact hacc
  | round _ hfolds _ ih =>
    exact ih (hfolds.invariant hstep hacc fun s hs => hoptions s (Catalogue.mem_taken.1 hs).1)
      fun s hs => hoptions s (Catalogue.mem_values_left.1 hs).1

/-- Options that are left join with nothing that was gathered. -/
theorem Gathers.left {A : Schema → Schema → Schema → Prop} {acc r : Schema} {options rest : Catalogue}
    (h : Gathers A acc options r rest) :
    ∀ t ∈ Table.values rest, t ∈ Table.values options ∧ t.joinable r = false := by
  induction h with
  | @done acc options hnil =>
    intro t ht
    refine ⟨ht, ?_⟩
    cases hjoinable : t.joinable acc with
    | false => rfl
    | true =>
      have htaken := (Catalogue.mem_taken (p := fun o => o.joinable acc)).2 ⟨ht, hjoinable⟩
      rw [hnil] at htaken
      cases htaken
  | round _ _ _ ih => exact fun t ht => ⟨(Catalogue.mem_values_left.1 (ih t ht).1).1, (ih t ht).2⟩

theorem Joins.left {A : Schema → Schema → Schema → Prop} {options rest : Catalogue} {variant merged : Schema}
    (h : Joins A options variant merged rest) : ∀ t ∈ Table.values rest, t ∈ Table.values options := by
  cases h with
  | record | list => exact fun t ht => (Catalogue.mem_values_left.1 ht).1
  | primitive _ h => exact fun t ht => (h.left t ht).1

/-! ## From the program to its steps -/

section

variable {absorb : Absorber} {A : Schema → Schema → Schema → Prop}

theorem folds_of_foldlM {r : Schema} :
    ∀ {l : List Schema} {acc : Schema}, l.foldlM absorb acc = .ok r →
      (∀ d s r, FoldCalls absorb acc l d s → absorb d s = .ok r → A d s r) → Folds A acc l r
  | [], acc, h, _ => by
    cases h
    exact .nil _
  | s :: rest, acc, h, hA => by
    rw [List.foldlM_cons] at h
    obtain ⟨mid, hmid, h⟩ := bind_eq_ok.1 h
    refine .cons (hA acc s mid ⟨[], rest, rfl, rfl⟩ hmid) (folds_of_foldlM h ?_)
    rintro d s' r' ⟨pre, post, hrest, hpre⟩ hr'
    refine hA d s' r' ⟨s :: pre, post, by rw [hrest]; rfl, ?_⟩ hr'
    rw [List.foldlM_cons]
    exact bind_eq_ok.2 ⟨mid, hmid, hpre⟩

theorem collects_of_foldlM {first r : Schema} {rest : List Schema}
    (h : rest.foldlM absorb first = .ok r)
    (hA : ∀ d s r, CollectCalls absorb (first :: rest) d s → absorb d s = .ok r → A d s r) :
    Collects A (first :: rest) (some r) :=
  .some (folds_of_foldlM h fun d s r hc => hA d s r ⟨first, rest, rfl, hc⟩)

/-! ### Records -/

/-- The three ways in which a record gets the shape of its values. -/
theorem mapValue_of_ok {fields : Table Schema} {value : Option Schema}
    (h : mapValueOf absorb fields = .ok value)
    (hA : ∀ d s r, CollectCalls absorb (mapValues fields) d s → absorb d s = .ok r → A d s r) :
    MapValue A fields value := by
  have hvalues := map_filterMap_asMapValue fields
  unfold mapValueOf at h
  split at h
  · rename_i heq
    rw [heq] at hvalues
    have hnone : Collects A (mapValues fields) none := by
      rw [← hvalues]
      exact .none
    cases h
    cases habsent : anyAbsent fields with
    | true => exact .null hnone habsent
    | false => exact .empty hnone habsent
  · rename_i name first rest heq
    rw [heq] at hvalues
    obtain ⟨v, hv, h⟩ := bind_eq_ok.1 h
    cases h
    refine .values ?_
    rw [← hvalues] at hA ⊢
    exact collects_of_foldlM (absorbFields_eq_ok.1 hv) hA

theorem mappingOf_eq_ok {fields : Table Schema} {m : Mapping} (h : mappingOf absorb fields = .ok m) :
    ∃ value, mapValueOf absorb fields = .ok value ∧
      m = { key := some (Schema.ofType .string), value := value } := by
  obtain ⟨value, hvalue, h⟩ := bind_eq_ok.1 h
  cases h
  exact ⟨value, hvalue, rfl⟩

theorem asMap_of_ok {fields kept : Table Schema} {mapping : Option Mapping} {m : Mapping}
    (h : asMap absorb fields mapping = .ok (kept, m))
    (hA : ∀ d s r, MapCalls absorb fields mapping d s → absorb d s = .ok r → A d s r) :
    AsMap A fields mapping kept m := by
  cases mapping with
  | some m' =>
    cases h
    exact .map fields m
  | none =>
    obtain ⟨m', hm, h⟩ := map_eq_ok.1 h
    cases h
    obtain ⟨value, hvalue, rfl⟩ := mappingOf_eq_ok hm
    exact .record (mapValue_of_ok hvalue fun d s r hc => hA d s r ⟨rfl, hc⟩)

theorem slot_of_ok {dst src r : Option Schema} (h : absorbSlot absorb dst src = .ok r)
    (hA : ∀ d s r, dst = some d → src = some s → absorb d s = .ok r → A d s r) : Slot A dst src r := by
  rcases dst with _ | d
  · cases h
    exact .adopted src
  · rcases src with _ | s
    · cases h
      exact .kept d
    · obtain ⟨r, hr, rfl⟩ := map_eq_ok.1 h
      exact .both (hA d s r rfl rfl hr)

theorem absorbMapping_eq_ok {dst src r : Mapping} (h : absorbMapping absorb dst src = .ok r) :
    ∃ key value, absorbSlot absorb dst.key src.key = .ok key ∧
      absorbSlot absorb dst.value src.value = .ok value ∧ r = ⟨key, value⟩ := by
  obtain ⟨key, hkey, h⟩ := bind_eq_ok.1 h
  obtain ⟨value, hvalue, h⟩ := bind_eq_ok.1 h
  cases h
  exact ⟨key, value, mapError_eq_ok.1 hkey, mapError_eq_ok.1 hvalue, rfl⟩

theorem fields_of_ok {src : Table Schema} :
    ∀ {dst shared : Table Schema}, absorbShared absorb src dst = .ok shared →
      (∀ name d s r, (name, d) ∈ dst → Table.find? src name = some s → absorb d s = .ok r → A d s r) →
      Fields A src dst shared
  | [], shared, h, _ => by
    cases h
    exact .nil
  | (name, d) :: rest, shared, h, hA => by
    unfold absorbShared at h
    obtain ⟨merged, hmerged, h⟩ := bind_eq_ok.1 h
    obtain ⟨rest', hrest, h⟩ := bind_eq_ok.1 h
    cases h
    refine .cons ?_ (fields_of_ok hrest fun name' d' s r hmem => hA name' d' s r (List.mem_cons_of_mem _ hmem))
    unfold absorbField at hmerged
    split at hmerged
    · rename_i s hs
      exact .shared hs (hA name d s merged List.mem_cons_self hs (mapError_eq_ok.1 hmerged))
    · rename_i hs
      cases hmerged
      exact .missing hs

theorem absorbRecordFields_eq_ok {dst src fields : Table Schema}
    (h : absorbRecordFields absorb dst src = .ok fields) :
    ∃ shared, absorbShared absorb src dst = .ok shared ∧ fields = addMissing shared src := by
  obtain ⟨shared, hshared, h⟩ := bind_eq_ok.1 h
  cases h
  exact ⟨shared, hshared, rfl⟩

/-- Two records that are absorbed are a case of `RecordStep`, with the results of their calls in `A`. -/
theorem recordStep_of_ok {limits : Limits} {df sf : Table Schema} {dm sm : Option Mapping} {form : Form}
    (h : absorbRecord limits absorb df dm sf sm = .ok form)
    (hA : ∀ d s r, RecordCalls limits absorb df dm sf sm d s → absorb d s = .ok r → A d s r) :
    RecordStep A limits df dm sf sm form := by
  unfold absorbRecord at h
  split at h
  · rename_i hmap
    have hmap : dm.isSome ∨ sm.isSome := by simpa using hmap
    obtain ⟨⟨kept, m⟩, hdm, h⟩ := bind_eq_ok.1 h
    obtain ⟨⟨kept', m'⟩, hsm, h⟩ := bind_eq_ok.1 h
    obtain ⟨mapping, hmapping, h⟩ := bind_eq_ok.1 h
    cases h
    obtain ⟨key, value, hkey, hvalue, rfl⟩ := absorbMapping_eq_ok hmapping
    -- a side is only converted when the other is a map already
    refine .maps hmap (asMap_of_ok hdm fun d s r hc => hA d s r (.dstMap ?_ hc))
      (asMap_of_ok hsm fun d s r hc => hA d s r (.srcMap ?_ hc))
      (slot_of_ok hkey fun d s r hd hs => hA d s r (.key hmap hdm hsm hd hs))
      (slot_of_ok hvalue fun d s r hd hs => hA d s r (.value hmap hdm hsm hd hs))
    · exact hmap.resolve_left fun hd => by rw [hc.1] at hd; cases hd
    · exact hmap.resolve_right fun hs => by rw [hc.1] at hs; cases hs
  · rename_i hmap
    obtain ⟨rfl, rfl⟩ : dm = none ∧ sm = none := by simpa using hmap
    obtain ⟨fields, hfields, h⟩ := bind_eq_ok.1 h
    obtain ⟨shared, hshared, rfl⟩ := absorbRecordFields_eq_ok hfields
    have hstep : Fields A sf df shared := fields_of_ok hshared fun name d s r hmem hs =>
      hA d s r (.field rfl rfl hmem hs)
    split at h
    · rename_i hexceeded
      obtain ⟨m, hm, h⟩ := bind_eq_ok.1 h
      cases h
      obtain ⟨value, hvalue, rfl⟩ := mappingOf_eq_ok hm
      exact .grown rfl rfl hstep hexceeded
        (mapValue_of_ok hvalue fun d s r hc => hA d s r (.grown rfl rfl hfields hexceeded hc))
    · rename_i hexceeded
      cases h
      exact .fields rfl rfl hstep (by simpa using hexceeded)

/-! ### Lists and options -/

/-- The elements of both lists are folded as one list, into one element if there are any. -/
theorem absorbElems_eq_ok {dst src elems : List Schema} (h : absorbElems absorb dst src = .ok elems) :
    dst ++ src = [] ∧ elems = [] ∨
      ∃ first rest r, dst ++ src = first :: rest ∧ rest.foldlM absorb first = .ok r ∧ elems = [r] := by
  unfold absorbElems at h
  obtain ⟨rep, hrep, h⟩ := bind_eq_ok.1 h
  obtain ⟨rep', hrep', h⟩ := bind_eq_ok.1 h
  cases h
  cases dst with
  | nil =>
    cases hrep
    cases src with
    | nil =>
      cases hrep'
      exact .inl ⟨rfl, rfl⟩
    | cons first rest =>
      obtain ⟨r, rfl, hr⟩ := (absorbElem_fold_eq_ok (k := 1)).1 hrep'
      exact .inr ⟨first, rest, r, rfl, hr, rfl⟩
  | cons first rest =>
    obtain ⟨mid, rfl, hmid⟩ := (absorbElem_fold_eq_ok (k := 1)).1 hrep
    obtain ⟨r, rfl, hr⟩ := (absorbElem_fold_eq_ok (k := 0)).1 hrep'
    exact .inr ⟨first, rest ++ src, r, rfl, foldlM_append_eq_ok.2 ⟨mid, hmid, hr⟩, rfl⟩

theorem collects_of_absorbElems {dst src elems : List Schema} (h : absorbElems absorb dst src = .ok elems)
    (hA : ∀ d s r, CollectCalls absorb (dst ++ src) d s → absorb d s = .ok r → A d s r) :
    ∃ rep, Collects A (dst ++ src) rep ∧ elems = rep.toList := by
  rcases absorbElems_eq_ok h with ⟨hnil, rfl⟩ | ⟨first, rest, r, hcons, hr, rfl⟩
  · rw [hnil]
    exact ⟨none, .none, rfl⟩
  · rw [hcons] at hA ⊢
    exact ⟨some r, collects_of_foldlM hr hA, rfl⟩

theorem collects_of_sameKind {options : List Schema} {variant r : Schema}
    (h : absorbSameKind absorb options variant = .ok r)
    (hA : ∀ d s r, CollectCalls absorb (options ++ [variant]) d s → absorb d s = .ok r → A d s r) :
    Collects A (options ++ [variant]) (some r) := by
  cases options with
  | nil =>
    cases h
    exact .some (.nil _)
  | cons first rest => exact collects_of_foldlM h hA

/-- Rounds that end are a case of `Gathers`, however many were allowed. -/
theorem gathers_of_ok {rounds : Nat} {acc r : Schema} {options rest : Catalogue}
    (h : gather absorb rounds acc options = .ok (r, rest))
    (hA : ∀ d s r, GatherCalls absorb acc options d s → absorb d s = .ok r → A d s r) :
    Gathers A acc options r rest := by
  induction rounds generalizing acc options with
  | zero =>
    unfold gather at h
    split at h
    · rename_i heq
      cases h
      exact .done (by rw [heq])
    · cases h
  | succ rounds ih =>
    unfold gather at h
    split at h
    · rename_i heq
      cases h
      exact .done (by rw [heq])
    · rename_i taken left hne heq
      have htaken : (Catalogue.take (fun o => o.joinable acc) options).1 ≠ [] := by
        rw [heq]
        exact fun hnil => hne hnil
      obtain ⟨mid, hmid, h⟩ := bind_eq_ok.1 h
      have hfolds : Folds A acc (Catalogue.take (fun o => o.joinable acc) options).1 mid := by
        rw [heq]
        exact folds_of_foldlM hmid fun d s r hc => hA d s r (.here (by rw [heq]; exact hc))
      refine .round htaken hfolds ?_
      rw [heq]
      exact ih h fun d s r hc => hA d s r (.next htaken (by rw [heq]; exact hmid) (by rw [heq]; exact hc))

theorem joins_of_ok {options rest : Catalogue} {variant r : Schema} (hv : variant.isPlain)
    (h : joinOption absorb options variant = .ok (r, rest))
    (hA : ∀ d s r, OptionCalls absorb options variant d s → absorb d s = .ok r → A d s r) :
    Joins A options variant r rest := by
  unfold joinOption at h
  split at h
  · rename_i hform
    obtain ⟨m, hm, h⟩ := map_eq_ok.1 h
    cases h
    have hrecord : variant.isRecord := by unfold Schema.isRecord; rw [hform]
    exact .record hrecord (collects_of_sameKind hm fun d s r hc => hA d s r (.record hrecord hc))
  · rename_i hform
    obtain ⟨m, hm, h⟩ := map_eq_ok.1 h
    cases h
    have hlist : variant.isList := by unfold Schema.isList; rw [hform]
    exact .list hlist (collects_of_sameKind hm fun d s r hc => hA d s r (.list hlist hc))
  · rename_i hrecord hlist
    obtain ⟨p, hform⟩ := isPrimitive_of_isPlain hv hrecord hlist
    exact .primitive hform (gathers_of_ok h fun d s r hc => hA d s r (.primitive hform hc))

/-! ### Steps -/

/-- A plain source that is absorbed is a case of `PlainStep`, with the results of its calls in `A`. -/
theorem plainStep_of_ok {limits : Limits} {dst src r : Schema} (hs : src.isPlain)
    (h : absorbPlain limits absorb dst src = .ok r)
    (hA : ∀ d s r, PlainCalls limits absorb dst src d s → absorb d s = .ok r → A d s r) :
    PlainStep A limits dst src r := by
  unfold absorbPlain at h
  split at h
  · rename_i df dm hd
    split at h
    · rename_i sf sm hs
      obtain ⟨form, hform, h⟩ := bind_eq_ok.1 h
      cases h
      exact .record hd hs (recordStep_of_ok hform fun d s r hc => hA d s r (.record hd hs hc))
    · rename_i hsrc
      cases h
      refine .conflict (by unfold Schema.isPlain Form.isPlain; rw [hd]) ?_
      unfold Schema.agrees Form.agrees
      rw [hd]
      cases hform : src.form <;> first | rfl | exact absurd hform (hsrc _ _)
  · rename_i de hd
    split at h
    · rename_i se hs
      obtain ⟨elems, helems, h⟩ := bind_eq_ok.1 h
      cases h
      obtain ⟨rep, hrep, rfl⟩ := collects_of_absorbElems helems fun d s r hc => hA d s r (.list hd hs hc)
      exact .list hd hs hrep
    · rename_i hsrc
      cases h
      refine .conflict (by unfold Schema.isPlain Form.isPlain; rw [hd]) ?_
      unfold Schema.agrees Form.agrees
      rw [hd]
      cases hform : src.form <;> first | rfl | exact absurd hform (hsrc _)
  · rename_i inner hd
    split at h
    · cases h
    · rename_i hopt
      have hopt : inner.isOptional = false := by simpa using hopt
      obtain ⟨r', hr', h⟩ := bind_eq_ok.1 h
      cases h
      exact .inner hd hopt (hA inner src r' (.inner hd hopt) hr')
  · rename_i hd
    cases h
    exact .absent hd
  · rename_i options conflict hd
    unfold absorbVariant absorbOption at h
    obtain ⟨_, _, h⟩ := bind_eq_ok.1 h
    obtain ⟨options', hoptions, h⟩ := bind_eq_ok.1 h
    cases h
    obtain ⟨⟨merged, rest⟩, hmerged, h⟩ := bind_eq_ok.1 hoptions
    cases h
    exact .option hd (joins_of_ok hs hmerged fun d s r hc => hA d s r (.option hd hc))
  · rename_i p hd
    split at h
    · rename_i q hs
      split at h
      · rename_i j hj
        cases h
        exact .primitive hd hs hj
      · rename_i hj
        cases h
        refine .conflict (by unfold Schema.isPlain Form.isPlain; rw [hd]) ?_
        unfold Schema.agrees Form.agrees Primitive.joinable
        rw [hd, hs]
        -- two primitives without a join
        simp only [hj]
        rfl
    · rename_i hsrc
      cases h
      refine .conflict (by unfold Schema.isPlain Form.isPlain; rw [hd]) ?_
      unfold Schema.agrees Form.agrees
      rw [hd]
      cases hform : src.form <;> first | rfl | exact absurd hform (hsrc _)

/-- A step that succeeds is one of the cases of `Step`, with the results of its calls in `A`. -/
theorem step_of_ok {limits : Limits} (src : Schema) :
    ∀ {dst r : Schema}, absorbStep limits absorb dst src = .ok r →
      (∀ d s r, Calls limits absorb dst src d s → absorb d s = .ok r → A d s r) → Step A limits dst src r := by
  induction src using Schema.inductionOn with
  | step src ih =>
    intro dst r h hA
    obtain ⟨form, nullable, metadata, examples⟩ := src
    cases form with
    | optional inner =>
      unfold absorbStep at h
      obtain ⟨r', hr', h⟩ := bind_eq_ok.1 h
      cases h
      refine .optional rfl (ih inner (by simp [Schema.children, Form.children]) hr' fun d s r hc => ?_)
      exact hA d s r (.optional rfl hc)
    | absent =>
      cases h
      exact .absent rfl
    | oneOf srcOptions srcConflict =>
      unfold absorbStep at h
      split at h
      · rename_i options conflict hd
        obtain ⟨_, hcheck, h⟩ := bind_eq_ok.1 h
        have hplain : ∀ t ∈ Table.values srcOptions, t.isPlain := fun t ht =>
          checkOption_eq_ok.1 (forM_eq_ok.1 hcheck t ht)
        exact .alternatives rfl hd hplain (folds_of_foldlM h fun d s r hc =>
          hA d s r (.alternatives rfl hd hplain hc))
      · rename_i hd
        have hd : dst.isOneOf = false := by
          unfold Schema.isOneOf
          split
          · exact absurd ‹_› (hd _ _)
          · rfl
        exact .swap rfl hd (hA _ _ r (.swap rfl hd) h)
    | primitive p => exact .plain rfl (plainStep_of_ok rfl h fun d s r hc => hA d s r (.plain rfl hc))
    | record fields mapping =>
      exact .plain rfl (plainStep_of_ok rfl h fun d s r hc => hA d s r (.plain rfl hc))
    | list elems => exact .plain rfl (plainStep_of_ok rfl h fun d s r hc => hA d s r (.plain rfl hc))

/-! ## From steps on options to the program -/

theorem Folds.foldlM_eq {acc r : Schema} {l : List Schema} (h : Folds (fun d s r => absorb d s = .ok r) acc l r) :
    l.foldlM absorb acc = .ok r := by
  induction h with
  | nil => rfl
  | cons hmid _ ih =>
    rw [List.foldlM_cons]
    exact bind_eq_ok.2 ⟨_, hmid, ih⟩

/-- Enough rounds find what `Gathers` says. -/
theorem Gathers.gather_eq {acc r : Schema} {options rest : Catalogue}
    (h : Gathers (fun d s r => absorb d s = .ok r) acc options r rest) {rounds : Nat}
    (hrounds : options.length ≤ rounds) : gather absorb rounds acc options = .ok (r, rest) := by
  induction h generalizing rounds with
  | done hnil =>
    unfold gather
    split
    · rfl
    · rename_i hne heq
      rw [heq] at hnil
      exact absurd hnil hne
  | round htaken hfolds _ ih =>
    have hlt := length_take_lt htaken
    unfold gather
    split
    · rename_i heq
      exact absurd (congrArg Prod.fst heq) htaken
    · rename_i taken left hne heq
      cases rounds with
      | zero => omega
      | succ rounds =>
        rw [heq] at hfolds ih hlt
        exact bind_eq_ok.2 ⟨_, hfolds.foldlM_eq, ih (Nat.le_of_lt_succ (Nat.lt_of_lt_of_le hlt hrounds))⟩

theorem Collects.sameKind_eq {options : List Schema} {variant r : Schema}
    (h : Collects (fun d s r => absorb d s = .ok r) (options ++ [variant]) (Option.some r)) :
    absorbSameKind absorb options variant = .ok r := by
  cases options with
  | nil =>
    cases h with
    | some h =>
      cases h
      rfl
  | cons first rest =>
    cases h with
    | some h => exact h.foldlM_eq

theorem Joins.joinOption_eq {options rest : Catalogue} {variant r : Schema}
    (h : Joins (fun d s r => absorb d s = .ok r) options variant r rest) :
    joinOption absorb options variant = .ok (r, rest) := by
  unfold joinOption
  cases h with
  | record hv h =>
    unfold Schema.isRecord at hv
    cases hform : variant.form <;> rw [hform] at hv <;> cases hv
    exact map_eq_ok.2 ⟨r, h.sameKind_eq, rfl⟩
  | list hv h =>
    unfold Schema.isList at hv
    cases hform : variant.form <;> rw [hform] at hv <;> cases hv
    exact map_eq_ok.2 ⟨r, h.sameKind_eq, rfl⟩
  | primitive hform h =>
    rw [hform]
    exact h.gather_eq (Nat.le_refl _)

end

/-! ## From runs to steps -/

section

variable {A : Schema → Schema → Schema → Prop} {limits : Limits} {d s r : Schema}

/-- A run is a step over runs of some depth. -/
theorem step_of_absorb (h : absorb limits d s = .ok r)
    (hA : ∀ depth d s r, absorbWithin limits depth d s = .ok r → A d s r) : Step A limits d s r := by
  unfold absorb at h
  cases hdepth : depthBound d s with
  | zero => rw [hdepth] at h; cases h
  | succ depth =>
    rw [hdepth] at h
    exact step_of_ok s h fun d s r _ hr => hA depth d s r hr

theorem plainStep_of_absorb (h : absorb limits d s = .ok r)
    (hA : ∀ depth d s r, absorbWithin limits depth d s = .ok r → A d s r) (hs : s.isPlain) :
    PlainStep A limits (d.orNullable s.nullable) s.bare r := by
  cases step_of_absorb h hA with
  | plain _ h => exact h
  | optional hsf | absent hsf | swap hsf | alternatives hsf => simp [Schema.isPlain, Form.isPlain, hsf] at hs

end

end ApiShape

/-
The pairs of trees that one step of absorbing hands to the absorber it is given (`Calls`), and why
a step fails: because such a pair fails, or because the source is refused (`Refused`).
-/
import ApiShape.Absorb.Basic
import ApiShape.Proofs.Outcome
import ApiShape.Proofs.Schema.Nodes

namespace ApiShape

/-! ## Calls of folds -/

/-- The pairs absorbed while `l` is folded into `acc`. -/
def FoldCalls (absorb : Absorber) (acc : Schema) (l : List Schema) (d s : Schema) : Prop :=
  ∃ pre post, l = pre ++ s :: post ∧ pre.foldlM absorb acc = .ok d

/-- The pairs absorbed while the members of `l` are folded into the first of them. -/
def CollectCalls (absorb : Absorber) (l : List Schema) (d s : Schema) : Prop :=
  ∃ first rest, l = first :: rest ∧ FoldCalls absorb first rest d s

/-- The values that the fields of a record have in a map. -/
def mapValues (fields : Table Schema) : List Schema := fields.filterMap (fun row => row.2.asMapValue)

/-- The pairs absorbed while a primitive takes in the options it joins with. -/
inductive GatherCalls (absorb : Absorber) : Schema → Catalogue → Schema → Schema → Prop
  | here {acc d s : Schema} {options : Catalogue} :
      FoldCalls absorb acc (Catalogue.take (fun o => o.joinable acc) options).1 d s →
      GatherCalls absorb acc options d s
  | next {acc acc' d s : Schema} {options : Catalogue} :
      (Catalogue.take (fun o => o.joinable acc) options).1 ≠ [] →
      (Catalogue.take (fun o => o.joinable acc) options).1.foldlM absorb acc = .ok acc' →
      GatherCalls absorb acc' (Catalogue.take (fun o => o.joinable acc) options).2 d s →
      GatherCalls absorb acc options d s

/-! ## Calls of one step -/

/-- Primitives, records and lists: the shapes that can be options. -/
def Form.isPlain : Form → Bool
  | .primitive _ | .record _ _ | .list _ => true
  | .absent | .optional _ | .oneOf _ _ => false

/-- A node of a plain shape. -/
def Schema.isPlain (s : Schema) : Bool := s.form.isPlain

/-- A node with alternatives. -/
def Schema.isOneOf (s : Schema) : Bool :=
  match s.form with
  | .oneOf _ _ => true
  | _ => false

theorem Schema.isOptional_of_isPlain {s : Schema} (h : s.isPlain) : s.isOptional = false := by
  unfold Schema.isPlain Form.isPlain at h
  unfold Schema.isOptional
  cases hform : s.form <;> rw [hform] at h <;> first | rfl | cases h

/-- The pairs absorbed while a record is taken as a map. -/
def MapCalls (absorb : Absorber) (fields : Table Schema) (mapping : Option Mapping) (d s : Schema) :
    Prop :=
  mapping = none ∧ CollectCalls absorb (mapValues fields) d s

/-- The pairs absorbed while one record is absorbed into another. -/
inductive RecordCalls (limits : Limits) (absorb : Absorber) (df : Table Schema) (dm : Option Mapping)
    (sf : Table Schema) (sm : Option Mapping) : Schema → Schema → Prop
  | field {name : String} {d s : Schema} (hd : dm = none) (hs : sm = none) :
      (name, d) ∈ df → Table.find? sf name = some s → RecordCalls limits absorb df dm sf sm d s
  | grown {fields : Table Schema} {d s : Schema} (hd : dm = none) (hs : sm = none) :
      absorbRecordFields absorb df sf = .ok fields → limits.mapInference.exceeded fields none = true →
      CollectCalls absorb (mapValues fields) d s →
      RecordCalls limits absorb df dm sf sm d s
  | dstMap {d s : Schema} : sm.isSome → MapCalls absorb df dm d s → RecordCalls limits absorb df dm sf sm d s
  | srcMap {d s : Schema} : dm.isSome → MapCalls absorb sf sm d s → RecordCalls limits absorb df dm sf sm d s
  | key {kept kept' : Table Schema} {m m' : Mapping} {d s : Schema} :
      dm.isSome ∨ sm.isSome → asMap absorb df dm = .ok (kept, m) →
      asMap absorb sf sm = .ok (kept', m') →
      m.key = some d → m'.key = some s → RecordCalls limits absorb df dm sf sm d s
  | value {kept kept' : Table Schema} {m m' : Mapping} {d s : Schema} :
      dm.isSome ∨ sm.isSome → asMap absorb df dm = .ok (kept, m) →
      asMap absorb sf sm = .ok (kept', m') →
      m.value = some d → m'.value = some s → RecordCalls limits absorb df dm sf sm d s

/-- The pairs absorbed while a variant is brought together with the options it goes with. -/
inductive OptionCalls (absorb : Absorber) (options : Catalogue) (variant : Schema) :
    Schema → Schema → Prop
  | record {d s : Schema} : variant.isRecord →
      CollectCalls absorb ((Catalogue.take Schema.isRecord options).1 ++ [variant]) d s →
      OptionCalls absorb options variant d s
  | list {d s : Schema} : variant.isList →
      CollectCalls absorb ((Catalogue.take Schema.isList options).1 ++ [variant]) d s →
      OptionCalls absorb options variant d s
  | primitive {p : Primitive} {d s : Schema} : variant.form = .primitive p →
      GatherCalls absorb variant options d s → OptionCalls absorb options variant d s

/-- The pairs absorbed in one step on a plain source. -/
inductive PlainCalls (limits : Limits) (absorb : Absorber) (dst src : Schema) : Schema → Schema → Prop
  | record {df sf : Table Schema} {dm sm : Option Mapping} {d s : Schema}
      (hd : dst.form = .record df dm) (hs : src.form = .record sf sm) :
      RecordCalls limits absorb df dm sf sm d s → PlainCalls limits absorb dst src d s
  | list {de se : List Schema} {d s : Schema}
      (hd : dst.form = .list de) (hs : src.form = .list se) :
      CollectCalls absorb (de ++ se) d s → PlainCalls limits absorb dst src d s
  | inner {inner : Schema} (hd : dst.form = .optional inner) :
      inner.isOptional = false → PlainCalls limits absorb dst src inner src
  | option {options : Catalogue} {conflict : Bool} {d s : Schema}
      (hd : dst.form = .oneOf options conflict) :
      OptionCalls absorb options src.bare d s → PlainCalls limits absorb dst src d s

/-- The pairs absorbed in one step. -/
inductive Calls (limits : Limits) (absorb : Absorber) : Schema → Schema → Schema → Schema → Prop
  | optional {dst src inner d s : Schema} (hs : src.form = .optional inner) :
      Calls limits absorb (dst.orNullable src.nullable) inner d s → Calls limits absorb dst src d s
  | swap {dst src : Schema} {options : Catalogue} {conflict : Bool}
      (hs : src.form = .oneOf options conflict) (hd : dst.isOneOf = false) :
      Calls limits absorb dst src
        { dst.orNullable src.nullable with
          form := .oneOf options conflict
          examples := Examples.merge [] src.examples }
        dst.bare
  | alternatives {dst src d s : Schema} {options srcOptions : Catalogue} {conflict srcConflict : Bool}
      (hs : src.form = .oneOf srcOptions srcConflict) (hd : dst.form = .oneOf options conflict) :
      (∀ t ∈ Table.values srcOptions, t.isPlain) →
      FoldCalls absorb
        { (dst.orNullable src.nullable).mergeExamples src.examples with
          form := .oneOf options (conflict || srcConflict) }
        (Table.values srcOptions) d s →
      Calls limits absorb dst src d s
  | plain {dst src d s : Schema} (hs : src.isPlain) :
      PlainCalls limits absorb (dst.orNullable src.nullable) src.bare d s → Calls limits absorb dst src d s

/-! ## Refusals -/

/-- The sources that a destination refuses: a plain one below two optional layers, and
alternatives with an option of the wrong kind. -/
inductive Refused : Schema → Schema → Fault → Prop
  | optional {dst src inner : Schema} {f : Fault} (hs : src.form = .optional inner) :
      Refused (dst.orNullable src.nullable) inner f → Refused dst src f
  | nested {dst src inner : Schema} (hs : src.isPlain) (hd : dst.form = .optional inner) :
      inner.isOptional → Refused dst src (.invalidVariant "optional" "optional")
  | option {dst src t : Schema} {srcOptions : Catalogue} {srcConflict : Bool}
      (hs : src.form = .oneOf srcOptions srcConflict) (hd : dst.isOneOf) :
      t ∈ Table.values srcOptions → t.isPlain = false →
      Refused dst src (.invalidVariant t.kind.name "oneof")

theorem Refused.of_bare {dst src : Schema} {b : Bool} {f : Fault} (hs : src.isPlain)
    (h : Refused (dst.orNullable b) src.bare f) : Refused dst src f := by
  cases h with
  | optional h _ => unfold Schema.isPlain Form.isPlain at hs; rw [← src.form_bare, h] at hs; cases hs
  | nested _ hd hopt => exact .nested hs hd hopt
  | option h _ _ _ => unfold Schema.isPlain Form.isPlain at hs; rw [← src.form_bare, h] at hs; cases hs

/-! ## Failing folds -/

/-- The fault comes, at the root, from one of the pairs `C`. -/
def Absorber.FailsIn (absorb : Absorber) (C : Schema → Schema → Prop) (f : Fault) : Prop :=
  ∃ d s g, C d s ∧ absorb d s = .error g ∧ g.root = f.root

section

variable {absorb : Absorber} {C C' : Schema → Schema → Prop} {f : Fault}

theorem Absorber.FailsIn.mono (h : absorb.FailsIn C f) (hC : ∀ d s, C d s → C' d s) :
    absorb.FailsIn C' f := by
  obtain ⟨d, s, g, hc, hg, hr⟩ := h
  exact ⟨d, s, g, hC d s hc, hg, hr⟩

theorem Absorber.FailsIn.of_root {g : Fault} (h : absorb.FailsIn C g) (hr : g.root = f.root) :
    absorb.FailsIn C f := by
  obtain ⟨d, s, g', hc, hg, hr'⟩ := h
  exact ⟨d, s, g', hc, hg, hr'.trans hr⟩

theorem fold_error {acc : Schema} {l : List Schema} (h : l.foldlM absorb acc = .error f) :
    absorb.FailsIn (FoldCalls absorb acc l) f := by
  obtain ⟨pre, s, post, d, rfl, hpre, hs⟩ := foldlM_eq_error h
  exact ⟨d, s, f, ⟨pre, post, rfl, hpre⟩, hs, rfl⟩

/-- Naming the fields changes the fault of a fold but not its result. -/
theorem absorbFields_eq_ok {r : Schema} :
    ∀ {rows : List (String × Schema)} {acc : Schema},
      absorbFields absorb acc rows = .ok r ↔ (rows.map (·.2)).foldlM absorb acc = .ok r
  | [], acc => by simp [absorbFields]
  | (name, s) :: rest, acc => by
    unfold absorbFields
    rw [List.foldlM_cons, List.map_cons, List.foldlM_cons, bind_eq_ok, bind_eq_ok]
    simp only [mapError_eq_ok]
    exact exists_congr fun mid => and_congr_right fun _ => absorbFields_eq_ok

theorem absorbFields_error {acc : Schema} {rows : List (String × Schema)}
    (h : absorbFields absorb acc rows = .error f) :
    absorb.FailsIn (FoldCalls absorb acc (rows.map (·.2))) f := by
  obtain ⟨pre, row, post, d, rfl, hpre, hs⟩ := foldlM_eq_error h
  obtain ⟨g, hg, rfl⟩ := mapError_eq_error.1 hs
  exact ⟨d, row.2, g, ⟨pre.map (·.2), post.map (·.2), by simp, absorbFields_eq_ok.1 hpre⟩, hg, rfl⟩

theorem map_filterMap_asMapValue (fields : Table Schema) :
    (fields.filterMap (fun row => row.2.asMapValue.map (row.1, ·))).map (·.2) = mapValues fields := by
  rw [List.map_filterMap]
  unfold mapValues
  congr 1
  funext row
  cases row.2.asMapValue <;> rfl

theorem mapValueOf_error {fields : Table Schema} (h : mapValueOf absorb fields = .error f) :
    absorb.FailsIn (CollectCalls absorb (mapValues fields)) f := by
  have hvalues := map_filterMap_asMapValue fields
  unfold mapValueOf at h
  split at h
  · cases h
  · rename_i name first rest heq
    rw [heq] at hvalues
    rcases bind_eq_error.1 h with h | ⟨v, _, h⟩
    · exact (absorbFields_error h).mono fun d s hc => ⟨first, _, hvalues.symm, hc⟩
    · cases h

theorem mappingOf_error {fields : Table Schema} (h : mappingOf absorb fields = .error f) :
    absorb.FailsIn (CollectCalls absorb (mapValues fields)) f := by
  unfold mappingOf at h
  rcases bind_eq_error.1 h with h | ⟨v, _, h⟩
  · exact mapValueOf_error h
  · cases h

theorem asMap_error {fields : Table Schema} {mapping : Option Mapping}
    (h : asMap absorb fields mapping = .error f) :
    absorb.FailsIn (MapCalls absorb fields mapping) f := by
  unfold asMap at h
  cases mapping with
  | some m => cases h
  | none => exact (mappingOf_error (map_eq_error.1 h)).mono fun d s hc => ⟨rfl, hc⟩

theorem absorbSlot_error {dst src : Option Schema} (h : absorbSlot absorb dst src = .error f) :
    absorb.FailsIn (fun d s => dst = some d ∧ src = some s) f := by
  rcases dst with _ | d
  · cases h
  · rcases src with _ | s
    · cases h
    · exact ⟨d, s, f, ⟨rfl, rfl⟩, map_eq_error.1 h, rfl⟩

theorem absorbMapping_error {dst src : Mapping} (h : absorbMapping absorb dst src = .error f) :
    absorb.FailsIn (fun d s => dst.key = some d ∧ src.key = some s ∨
      dst.value = some d ∧ src.value = some s) f := by
  unfold absorbMapping at h
  rcases bind_eq_error.1 h with h | ⟨key, _, h⟩
  · obtain ⟨g, hg, rfl⟩ := mapError_eq_error.1 h
    exact ((absorbSlot_error hg).mono fun _ _ => .inl).of_root rfl
  · rcases bind_eq_error.1 h with h | ⟨value, _, h⟩
    · obtain ⟨g, hg, rfl⟩ := mapError_eq_error.1 h
      exact ((absorbSlot_error hg).mono fun _ _ => .inr).of_root rfl
    · cases h

theorem absorbShared_error {src : Table Schema} :
    ∀ {dst : Table Schema}, absorbShared absorb src dst = .error f →
      absorb.FailsIn (fun d s => ∃ name, (name, d) ∈ dst ∧ Table.find? src name = some s) f
  | [], h => by cases h
  | (name, d) :: rest, h => by
    unfold absorbShared at h
    rcases bind_eq_error.1 h with h | ⟨merged, _, h⟩
    · unfold absorbField at h
      split at h
      · rename_i s hs
        obtain ⟨g, hg, rfl⟩ := mapError_eq_error.1 h
        exact ⟨d, s, g, ⟨name, List.mem_cons_self, hs⟩, hg, rfl⟩
      · cases h
    · rcases bind_eq_error.1 h with h | ⟨rows, _, h⟩
      · exact (absorbShared_error h).mono fun d s ⟨name, hmem, hs⟩ =>
          ⟨name, List.mem_cons_of_mem _ hmem, hs⟩
      · cases h

/-- Two records fail where one of them is taken as a map, in a slot, in a field, or where they grow into a map. -/
theorem absorbRecord_error {limits : Limits} {df sf : Table Schema} {dm sm : Option Mapping}
    (h : absorbRecord limits absorb df dm sf sm = .error f) :
    absorb.FailsIn (RecordCalls limits absorb df dm sf sm) f := by
  unfold absorbRecord at h
  split at h
  · rename_i hmap
    have hmap : dm.isSome ∨ sm.isSome := by simpa using hmap
    rcases bind_eq_error.1 h with h | ⟨⟨kept, m⟩, hdm, h⟩
    · refine (asMap_error h).mono fun d s hc => .dstMap ?_ hc
      rcases hmap with hd | hs
      · rw [hc.1] at hd; cases hd
      · exact hs
    · rcases bind_eq_error.1 h with h | ⟨⟨kept', m'⟩, hsm, h⟩
      · refine (asMap_error h).mono fun d s hc => .srcMap ?_ hc
        rcases hmap with hd | hs
        · exact hd
        · rw [hc.1] at hs; cases hs
      · rcases bind_eq_error.1 h with h | ⟨mapping, _, h⟩
        · refine (absorbMapping_error h).mono fun d s hc => ?_
          rcases hc with ⟨hk, hk'⟩ | ⟨hv, hv'⟩
          · exact .key hmap hdm hsm hk hk'
          · exact .value hmap hdm hsm hv hv'
        · cases h
  · rename_i hmap
    obtain ⟨rfl, rfl⟩ : dm = none ∧ sm = none := by simpa using hmap
    rcases bind_eq_error.1 h with h | ⟨fields, hfields, h⟩
    · unfold absorbRecordFields at h
      rcases bind_eq_error.1 h with h | ⟨shared, _, h⟩
      · exact (absorbShared_error h).mono fun d s ⟨name, hmem, hs⟩ => .field rfl rfl hmem hs
      · cases h
    · split at h
      · rename_i hexceeded
        rcases bind_eq_error.1 h with h | ⟨m, _, h⟩
        · exact (mappingOf_error h).mono fun d s hc => .grown rfl rfl hfields hexceeded hc
        · cases h
      · cases h

/-! ### Lists -/

/-- The indices of elements are for faults alone. -/
theorem absorbElem_fold_eq_ok {rep : Option Schema} :
    ∀ {l : List Schema} {k : Nat} {acc : Schema},
      (l.zipIdx k).foldlM (absorbElem absorb) (some acc) = .ok rep ↔
        ∃ r, rep = some r ∧ l.foldlM absorb acc = .ok r
  | [], k, acc => by
    simp only [List.zipIdx_nil, List.foldlM_nil, pure_eq_ok]
    exact ⟨fun h => ⟨acc, h.symm, rfl⟩, fun ⟨r, hr, h⟩ => by rw [hr, h]⟩
  | s :: rest, k, acc => by
    have hstep : ∀ mid, absorbElem absorb (some acc) (s, k) = .ok mid ↔
        ∃ m, absorb acc s = .ok m ∧ some m = mid := fun mid => mapError_eq_ok.trans map_eq_ok
    rw [List.zipIdx_cons, List.foldlM_cons, List.foldlM_cons, bind_eq_ok]
    simp only [bind_eq_ok]
    constructor
    · rintro ⟨_, hstep', h⟩
      obtain ⟨mid, hmid, rfl⟩ := (hstep _).1 hstep'
      obtain ⟨r, hr, h⟩ := absorbElem_fold_eq_ok.1 h
      exact ⟨r, hr, mid, hmid, h⟩
    · rintro ⟨r, hr, mid, hmid, h⟩
      exact ⟨some mid, (hstep _).2 ⟨mid, hmid, rfl⟩, absorbElem_fold_eq_ok.2 ⟨r, hr, h⟩⟩

theorem absorbElem_fold_error {l : List Schema} {k : Nat} {acc : Schema}
    (h : (l.zipIdx k).foldlM (absorbElem absorb) (some acc) = .error f) :
    absorb.FailsIn (FoldCalls absorb acc l) f := by
  induction l generalizing k acc with
  | nil => cases h
  | cons s rest ih =>
    rw [List.zipIdx_cons, List.foldlM_cons] at h
    rcases bind_eq_error.1 h with h | ⟨_, hstep, h⟩
    · obtain ⟨g, hg, rfl⟩ := mapError_eq_error.1 h
      exact ⟨acc, s, g, ⟨[], rest, rfl, rfl⟩, map_eq_error.1 hg, rfl⟩
    · obtain ⟨mid, hmid, rfl⟩ := map_eq_ok.1 (mapError_eq_ok.1 hstep)
      refine (ih h).mono fun d s' ⟨pre, post, hrest, hpre⟩ => ⟨s :: pre, post, by rw [hrest]; rfl, ?_⟩
      rw [List.foldlM_cons]
      exact bind_eq_ok.2 ⟨mid, hmid, hpre⟩

/-- The elements of both lists are one fold, and it fails at a pair of that fold. -/
theorem absorbElems_error {dst src : List Schema} (h : absorbElems absorb dst src = .error f) :
    absorb.FailsIn (CollectCalls absorb (dst ++ src)) f := by
  unfold absorbElems at h
  cases dst with
  | nil =>
    rcases bind_eq_error.1 h with h | ⟨rep, hrep, h⟩
    · cases h
    · cases pure_eq_ok.1 hrep
      rcases bind_eq_error.1 h with h | ⟨_, _, h⟩
      · cases src with
        | nil => cases h
        | cons first rest =>
          exact (absorbElem_fold_error (k := 1) h).mono fun d s hc => ⟨first, rest, rfl, hc⟩
      · cases h
  | cons first rest =>
    rcases bind_eq_error.1 h with h | ⟨rep, hrep, h⟩
    · -- at an element of `dst`
      refine (absorbElem_fold_error (k := 1) h).mono fun d s ⟨pre, post, hrest, hpre⟩ => ?_
      exact ⟨first, rest ++ src, rfl, pre, post ++ src, by rw [hrest]; simp, hpre⟩
    · -- at an element of `src`, after all those of `dst`
      obtain ⟨mid, rfl, hmid⟩ := (absorbElem_fold_eq_ok (k := 1)).1 hrep
      rcases bind_eq_error.1 h with h | ⟨_, _, h⟩
      · refine (absorbElem_fold_error (k := 0) h).mono fun d s ⟨pre, post, hsrc, hpre⟩ => ?_
        refine ⟨first, rest ++ src, rfl, rest ++ pre, post, by rw [hsrc]; simp, ?_⟩
        exact foldlM_append_eq_ok.2 ⟨mid, hmid, hpre⟩
      · cases h

/-! ### Options -/

theorem absorbSameKind_error {options : List Schema} {variant : Schema}
    (h : absorbSameKind absorb options variant = .error f) :
    absorb.FailsIn (CollectCalls absorb (options ++ [variant])) f := by
  cases options with
  | nil => cases h
  | cons first rest => exact (fold_error h).mono fun d s hc => ⟨first, _, rfl, hc⟩

theorem length_take_lt {p : Schema → Bool} {options : Catalogue}
    (h : (Catalogue.take p options).1 ≠ []) : (Catalogue.take p options).2.length < options.length := by
  unfold Catalogue.take at h ⊢
  refine List.length_filter_lt_length_iff_exists.2 ?_
  obtain ⟨s, hs⟩ := List.exists_mem_of_ne_nil _ h
  obtain ⟨k, hk⟩ := Table.mem_values.1 hs
  obtain ⟨hmem, hp⟩ := List.mem_filter.1 hk
  exact ⟨(k, s), hmem, by simpa using hp⟩

/-- With a round for every option the rounds do not run out, and a failure is that of a pair. -/
theorem gather_error {rounds : Nat} {acc : Schema} {options : Catalogue}
    (hrounds : options.length ≤ rounds) (h : gather absorb rounds acc options = .error f) :
    absorb.FailsIn (GatherCalls absorb acc options) f := by
  induction rounds generalizing acc options with
  | zero =>
    obtain rfl := List.length_eq_zero_iff.1 (Nat.le_zero.1 hrounds)
    cases h
  | succ rounds ih =>
    unfold gather at h
    split at h
    · cases h
    · rename_i taken rest hne heq
      have htaken : (Catalogue.take (fun o => o.joinable acc) options).1 ≠ [] := by
        rw [heq]
        exact fun hnil => hne hnil
      rcases bind_eq_error.1 h with h | ⟨acc', hacc, h⟩
      · exact (fold_error h).mono fun d s hc => .here (by rw [heq]; exact hc)
      · -- the options that are left are fewer, and so are the rounds they need
        have hlt := length_take_lt htaken
        rw [heq] at hlt
        refine (ih (by simp only at hlt; omega) h).mono fun d s hc => ?_
        exact .next htaken (by rw [heq]; exact hacc) (by rw [heq]; exact hc)

theorem isPrimitive_of_isPlain {s : Schema} (hs : s.isPlain)
    (hrecord : ∀ fields mapping, s.form ≠ .record fields mapping) (hlist : ∀ elems, s.form ≠ .list elems) :
    ∃ p, s.form = .primitive p := by
  unfold Schema.isPlain Form.isPlain at hs
  cases hform : s.form with
  | primitive p => exact ⟨p, rfl⟩
  | record fields mapping => exact absurd hform (hrecord fields mapping)
  | list elems => exact absurd hform (hlist elems)
  | _ => rw [hform] at hs; cases hs

theorem joinOption_error {options : Catalogue} {variant : Schema} (hv : variant.isPlain)
    (h : joinOption absorb options variant = .error f) :
    absorb.FailsIn (OptionCalls absorb options variant) f := by
  unfold joinOption at h
  split at h
  · rename_i hform
    exact (absorbSameKind_error (map_eq_error.1 h)).mono fun d s hc =>
      .record (by unfold Schema.isRecord; rw [hform]) hc
  · rename_i hform
    exact (absorbSameKind_error (map_eq_error.1 h)).mono fun d s hc =>
      .list (by unfold Schema.isList; rw [hform]) hc
  · rename_i hrecord hlist
    obtain ⟨p, hform⟩ := isPrimitive_of_isPlain hv hrecord hlist
    exact (gather_error (Nat.le_refl _) h).mono fun d s hc => .primitive hform hc

theorem checkOption_eq_ok {s : Schema} : s.checkOption = .ok () ↔ s.isPlain := by
  unfold Schema.checkOption Schema.isPlain Form.isPlain
  cases s.form <;> simp

theorem checkOption_error {s : Schema} (h : s.checkOption = .error f) :
    s.isPlain = false ∧ f = .invalidVariant s.kind.name "oneof" := by
  unfold Schema.checkOption at h
  unfold Schema.isPlain Form.isPlain
  split at h <;> simp_all

theorem absorbVariant_error {dst variant : Schema} {options : Catalogue} {conflict : Bool}
    (hv : variant.isPlain) (h : absorbVariant absorb dst options conflict variant = .error f) :
    absorb.FailsIn (OptionCalls absorb options variant.bare) f := by
  unfold absorbVariant at h
  rcases bind_eq_error.1 h with h | ⟨_, _, h⟩
  · rw [(checkOption_error h).1] at hv; cases hv
  · rcases bind_eq_error.1 h with h | ⟨_, _, h⟩
    · unfold absorbOption at h
      rcases bind_eq_error.1 h with h | ⟨_, _, h⟩
      · exact joinOption_error hv h
      · cases h
    · cases h

/-! ## Failing steps -/

/-- A plain source is refused only by an optional layer within an optional layer. -/
theorem absorbPlain_error {limits : Limits} {dst src : Schema} (hs : src.isPlain)
    (h : absorbPlain limits absorb dst src = .error f) :
    absorb.FailsIn (PlainCalls limits absorb dst src) f ∨ Refused dst src f.root := by
  unfold absorbPlain at h
  split at h
  · rename_i df dm hd
    split at h
    · rename_i sf sm hs
      rcases bind_eq_error.1 h with h | ⟨_, _, h⟩
      · exact .inl ((absorbRecord_error h).mono fun d s hc => .record hd hs hc)
      · cases h
    · cases h
  · rename_i de hd
    split at h
    · rename_i se hs
      rcases bind_eq_error.1 h with h | ⟨_, _, h⟩
      · exact .inl ((absorbElems_error h).mono fun d s hc => .list hd hs hc)
      · cases h
    · cases h
  · rename_i inner hd
    split at h
    · rename_i hopt
      cases h
      exact .inr (.nested hs hd hopt)
    · rename_i hopt
      rcases bind_eq_error.1 h with h | ⟨_, _, h⟩
      · exact .inl ⟨inner, src, f, .inner hd (by simpa using hopt), h, rfl⟩
      · cases h
  · cases h
  · rename_i options conflict hd
    exact .inl ((absorbVariant_error hs h).mono fun d s hc => .option hd hc)
  · split at h
    · split at h <;> cases h
    · cases h

theorem absorbAlternatives_error {dst : Schema} {options srcOptions : Catalogue}
    {conflict srcConflict : Bool}
    (h : absorbAlternatives absorb dst options conflict srcOptions srcConflict = .error f) :
    (∀ t ∈ Table.values srcOptions, t.isPlain) ∧
        absorb.FailsIn (FoldCalls absorb { dst with form := .oneOf options (conflict || srcConflict) }
          (Table.values srcOptions)) f ∨
      ∃ t ∈ Table.values srcOptions, t.isPlain = false ∧ f = .invalidVariant t.kind.name "oneof" := by
  unfold absorbAlternatives at h
  rcases bind_eq_error.1 h with h | ⟨_, hcheck, h⟩
  · obtain ⟨t, ht, h⟩ := forM_eq_error h
    exact .inr ⟨t, ht, checkOption_error h⟩
  · exact .inl ⟨fun t ht => checkOption_eq_ok.1 (forM_eq_ok.1 hcheck t ht), fold_error h⟩

/-- A step fails because a pair that it absorbs fails, or because it refuses the source. -/
theorem absorbStep_error {limits : Limits} {f : Fault} (src : Schema) :
    ∀ {dst : Schema}, absorbStep limits absorb dst src = .error f →
      absorb.FailsIn (Calls limits absorb dst src) f ∨ Refused dst src f.root := by
  induction src using Schema.inductionOn with
  | step src ih =>
    intro dst h
    obtain ⟨form, nullable, metadata, examples⟩ := src
    cases form with
    | optional inner =>
      unfold absorbStep at h
      rcases bind_eq_error.1 h with h | ⟨_, _, h⟩
      · rcases ih inner (by simp [Schema.children, Form.children]) h with h | h
        · exact .inl (h.mono fun d s hc => .optional rfl hc)
        · exact .inr (.optional rfl h)
      · cases h
    | absent => cases h
    | oneOf srcOptions srcConflict =>
      unfold absorbStep at h
      split at h
      · rename_i options conflict hd
        rcases absorbAlternatives_error h with ⟨hcheck, h⟩ | ⟨t, ht, hplain, rfl⟩
        · exact .inl (h.mono fun d s hc => .alternatives rfl hd hcheck hc)
        · exact .inr (.option rfl (by unfold Schema.isOneOf; rw [hd]) ht hplain)
      · rename_i hd
        refine .inl ⟨_, _, f, .swap rfl ?_, h, rfl⟩
        unfold Schema.isOneOf
        split
        · exact absurd ‹_› (hd _ _)
        · rfl
    | primitive p =>
      rcases absorbPlain_error rfl h with h | h
      · exact .inl (h.mono fun d s hc => .plain rfl hc)
      · exact .inr (h.of_bare rfl)
    | record fields mapping =>
      rcases absorbPlain_error rfl h with h | h
      · exact .inl (h.mono fun d s hc => .plain rfl hc)
      · exact .inr (h.of_bare rfl)
    | list elems =>
      rcases absorbPlain_error rfl h with h | h
      · exact .inl (h.mono fun d s hc => .plain rfl hc)
      · exact .inr (h.of_bare rfl)

end

end ApiShape

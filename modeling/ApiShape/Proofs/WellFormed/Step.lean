/-
A step on well-formed trees gives a well-formed tree when the results of its calls are well-formed and
it does not clash: the source does not become alternatives itself that would have to be one option next
to others.
-/
import ApiShape.Proofs.WellFormed.Basic

namespace ApiShape

/-! ## Clashes -/

/-- The node would be stored as alternatives among other options. -/
structure Catalogue.Nests (rest : Catalogue) (merged : Schema) : Prop where
  isOneOf : merged.isOneOf
  others : rest ≠ []
  new : Table.find? rest merged.address = none

/-- A plain source becomes alternatives while it takes in the options it joins with, and others are left. -/
inductive Clashes (absorb : Absorber) : Schema → Schema → Prop
  | optional {dst src inner : Schema} (hs : src.form = .optional inner) :
      Clashes absorb (dst.orNullable src.nullable) inner → Clashes absorb dst src
  | option {dst src merged : Schema} {options rest : Catalogue} {conflict : Bool}
      (hs : src.isPlain) (hd : dst.form = .oneOf options conflict) :
      joinOption absorb options src.bare = .ok (merged, rest) → rest.Nests merged → Clashes absorb dst src

/-! ## What a step keeps -/

/-- Tables in order, single optional layers and exclusive alternatives. -/
def Form.Valid (f : Form) : Prop := f.Ordered ∧ f.WellFormed

theorem closed_valid (limits : Limits) : Closed limits Form.Valid :=
  (stable_ordered limits).toClosed.and (closed_wellFormed limits)

/-- Whether the node is a primitive. -/
def Schema.isPrimitive (s : Schema) : Bool :=
  match s.form with
  | .primitive _ => true
  | _ => false

/-- A primitive, or alternatives of primitives only. -/
def Schema.Atomic (s : Schema) : Prop :=
  s.isPrimitive ∨ ∃ options conflict, s.form = .oneOf options conflict ∧ ∀ t ∈ Table.values options, t.isPrimitive

/-- What is known of a tree `r` that was made of two valid ones. -/
structure Settled (d s r : Schema) : Prop where
  valid : r.form.Everywhere Form.Valid
  isRecord : d.isRecord → s.isRecord → r.isRecord
  isList : d.isList → s.isList → r.isList
  atomic : d.Atomic → s.isPrimitive → r.Atomic
  present : d.isOptional = false → s.isPlain → r.isOptional = false

/-- What a call that absorbs `s` into `d` has to show of its result `r`. -/
def Settles (d s r : Schema) : Prop := d.form.Everywhere Form.Valid → s.form.Everywhere Form.Valid → Settled d s r

theorem Settles.keeps {d s r : Schema} (h : Settles d s r) : Keeps Form.Valid d s r := fun hd hs => (h hd hs).valid

section

variable {dst src d s r : Schema}

theorem isPlain_of_isPrimitive (h : s.isPrimitive) : s.isPlain := by
  unfold Schema.isPrimitive at h
  unfold Schema.isPlain Form.isPlain
  cases hform : s.form <;> rw [hform] at h <;> first | rfl | cases h

theorem isPlain_of_isRecord (h : s.isRecord) : s.isPlain := by
  unfold Schema.isRecord at h
  unfold Schema.isPlain Form.isPlain
  cases hform : s.form <;> rw [hform] at h <;> first | rfl | cases h

theorem isPlain_of_isList (h : s.isList) : s.isPlain := by
  unfold Schema.isList at h
  unfold Schema.isPlain Form.isPlain
  cases hform : s.form <;> rw [hform] at h <;> first | rfl | cases h

theorem isOneOf_of_isPlain (h : s.isPlain) : s.isOneOf = false := by
  unfold Schema.isPlain at h
  unfold Schema.isOneOf
  revert h
  cases s.form <;> simp [Form.isPlain]

theorem isOptional_of_atomic (h : s.Atomic) : s.isOptional = false := by
  rcases h with h | ⟨options, conflict, hform, -⟩
  · exact Schema.isOptional_of_isPlain (isPlain_of_isPrimitive h)
  · unfold Schema.isOptional
    rw [hform]

/-- Nothing more is said of a source that is not plain. -/
theorem Settled.of_not_plain (hs : s.isPlain = false) (hr : r.form.Everywhere Form.Valid) : Settled d s r where
  valid := hr
  isRecord _ h := by rw [isPlain_of_isRecord h] at hs; cases hs
  isList _ h := by rw [isPlain_of_isList h] at hs; cases hs
  atomic _ h := by rw [isPlain_of_isPrimitive h] at hs; cases hs
  present _ h := by rw [h] at hs; cases hs

/-- Nor of a destination that is optional. -/
theorem Settled.of_optional (hd : d.isOptional) (hr : r.form.Everywhere Form.Valid) : Settled d s r where
  valid := hr
  isRecord h _ := by rw [Schema.isOptional_of_isPlain (isPlain_of_isRecord h)] at hd; cases hd
  isList h _ := by rw [Schema.isOptional_of_isPlain (isPlain_of_isList h)] at hd; cases hd
  atomic h _ := by rw [isOptional_of_atomic h] at hd; cases hd
  present h _ := by rw [h] at hd; cases hd

/-- A source of another kind, or a primitive that does not join, settles as a conflict. -/
theorem Settled.of_plain (hr : r.form.Everywhere Form.Valid) (hrecord : d.isRecord → s.isRecord → r.isRecord)
    (hlist : d.isList → s.isList → r.isList) (hatomic : d.isPrimitive → s.isPrimitive → r.Atomic)
    (hpresent : r.isOptional = false) (hd : d.isPlain) : Settled d s r where
  valid := hr
  isRecord := hrecord
  isList := hlist
  atomic h hs := by
    rcases h with h | ⟨options, conflict, hform, -⟩
    · exact hatomic h hs
    · unfold Schema.isPlain Form.isPlain at hd
      rw [hform] at hd
      cases hd
  present _ _ := hpresent

end

/-! ## Joining options -/

/-- What a variant becomes among exclusive options. -/
structure Merges (variant merged : Schema) (rest : Catalogue) : Prop where
  valid : merged.form.Everywhere Form.Valid
  present : merged.isOptional = false
  apart : merged.isOneOf = false → merged.isPlain ∧ ∀ t ∈ Table.values rest, merged.agrees t = false
  atomic : variant.isPrimitive → merged.Atomic

section

variable {limits : Limits} {options rest : Catalogue} {variant merged : Schema} {conflict : Bool}

theorem agrees_of_isRecord_eq {s t : Schema} (hs : s.isRecord) (ht : t.isRecord = false) : s.agrees t = false := by
  unfold Schema.isRecord at hs ht
  unfold Schema.agrees Form.agrees
  revert hs ht
  cases s.form <;> cases t.form <;> simp

theorem agrees_of_isList_eq {s t : Schema} (hs : s.isList) (ht : t.isList = false) : s.agrees t = false := by
  unfold Schema.isList at hs ht
  unfold Schema.agrees Form.agrees
  revert hs ht
  cases s.form <;> cases t.form <;> simp

theorem agrees_of_joinable_eq {s t : Schema} (hs : s.isPrimitive) (ht : t.joinable s = false) : s.agrees t = false := by
  unfold Schema.isPrimitive at hs
  unfold Schema.joinable at ht
  rw [agrees_comm]
  unfold Schema.agrees Form.agrees
  revert hs ht
  cases s.form <;> cases t.form <;> simp

theorem Collects.settled {l : List Schema} {r : Schema} {p : Schema → Bool} (h : Collects Settles l (Option.some r))
    (hp : ∀ d s r, Settled d s r → p d → p s → p r)
    (hl : ∀ t ∈ l, t.form.Everywhere Form.Valid ∧ p t) : r.form.Everywhere Form.Valid ∧ p r := by
  cases h with
  | some h =>
    refine h.invariant (P := fun t => t.form.Everywhere Form.Valid ∧ p t)
      (S := fun t => t.form.Everywhere Form.Valid ∧ p t) ?_ (hl _ List.mem_cons_self)
      fun t ht => hl t (List.mem_cons_of_mem _ ht)
    intro d s r h hd hs
    have h := h hd.1 hs.1
    exact ⟨h.valid, hp d s r h hd.2 hs.2⟩

/-- Primitives only meet primitives in a round, so that the accumulator stays a primitive or alternatives of primitives. -/
theorem Gathers.settled {acc : Schema} (h : Gathers Settles acc options merged rest)
    (hacc : acc.form.Everywhere Form.Valid) (hatomic : acc.Atomic)
    (hoptions : (Form.oneOf options conflict).Everywhere Form.Valid) :
    merged.form.Everywhere Form.Valid ∧ merged.Atomic := by
  induction h with
  | done => exact ⟨hacc, hatomic⟩
  | @round acc mid r options rest _ hfolds _ ih =>
    have hmid : mid.form.Everywhere Form.Valid ∧ mid.Atomic := by
      refine hfolds.invariant (P := fun t => t.form.Everywhere Form.Valid ∧ t.Atomic)
        (S := fun t => t.form.Everywhere Form.Valid ∧ t.isPrimitive) ?_ ⟨hacc, hatomic⟩ fun t ht => ?_
      · intro d s r h hd hs
        have h := h hd.1 hs.1
        exact ⟨h.valid, h.atomic hd.2 hs.2⟩
      · refine ⟨hoptions.taken t ht, ?_⟩
        have hjoinable := (Catalogue.mem_taken.1 ht).2
        unfold Schema.joinable at hjoinable
        unfold Schema.isPrimitive
        cases hform : t.form <;> rw [hform] at hjoinable <;> first | rfl | cases hjoinable
    exact ih hmid.1 hmid.2 ((closed_valid {}).left _ hoptions)

/-- A record or list takes in all options of its kind; a primitive, all that join with what it ends as. -/
theorem Joins.merges (h : Joins Settles options variant merged rest)
    (hv : variant.form.Everywhere Form.Valid) (hoptions : (Form.oneOf options conflict).Everywhere Form.Valid) :
    Merges variant merged rest := by
  have hsame : ∀ p : Schema → Bool, p variant → ∀ t ∈ (Catalogue.take p options).1 ++ [variant],
      t.form.Everywhere Form.Valid ∧ p t := by
    intro p hp t ht
    rcases List.mem_append.1 ht with ht | ht
    · exact ⟨hoptions.taken t ht, (Catalogue.mem_taken.1 ht).2⟩
    · rw [List.mem_singleton.1 ht]
      exact ⟨hv, hp⟩
  cases h with
  | record hrecord h =>
    obtain ⟨hvalid, hmerged⟩ := h.settled (fun _ _ _ h => h.isRecord) (hsame _ hrecord)
    refine ⟨hvalid, Schema.isOptional_of_isPlain (isPlain_of_isRecord hmerged), fun _ => ⟨isPlain_of_isRecord hmerged, ?_⟩, ?_⟩
    · exact fun t ht => agrees_of_isRecord_eq hmerged (Catalogue.mem_values_left.1 ht).2
    · unfold Schema.isRecord at hrecord
      unfold Schema.isPrimitive
      revert hrecord
      cases variant.form <;> simp
  | list hlist h =>
    obtain ⟨hvalid, hmerged⟩ := h.settled (fun _ _ _ h => h.isList) (hsame _ hlist)
    refine ⟨hvalid, Schema.isOptional_of_isPlain (isPlain_of_isList hmerged), fun _ => ⟨isPlain_of_isList hmerged, ?_⟩, ?_⟩
    · exact fun t ht => agrees_of_isList_eq hmerged (Catalogue.mem_values_left.1 ht).2
    · unfold Schema.isList at hlist
      unfold Schema.isPrimitive
      revert hlist
      cases variant.form <;> simp
  | primitive hform h =>
    have hprimitive : variant.isPrimitive := by
      unfold Schema.isPrimitive
      rw [hform]
    obtain ⟨hvalid, hatomic⟩ := h.settled hv (.inl hprimitive) hoptions
    refine ⟨hvalid, isOptional_of_atomic hatomic, fun hone => ?_, fun _ => hatomic⟩
    -- it is apart from the rest only if it is still a primitive, which `Nests` is about
    have hmerged : merged.isPrimitive := by
      rcases hatomic with h | ⟨options, conflict, hform, -⟩
      · exact h
      · unfold Schema.isOneOf at hone
        rw [hform] at hone
        cases hone
    exact ⟨isPlain_of_isPrimitive hmerged, fun t ht => agrees_of_joinable_eq hmerged (h.left t ht).2⟩

/-! ## Inserting what was joined -/

theorem Form.everywhere_insert_of_stored {Q : Form → Prop} {stored : Schema}
    (hrest : (Form.oneOf rest conflict).Everywhere Q) (hfind : Table.find? rest merged.address = some stored)
    (hroot : Q (.oneOf (Catalogue.insert rest merged) conflict)) :
    (Form.oneOf (Catalogue.insert rest merged) conflict).Everywhere Q := by
  refine Form.everywhere_oneOf.2 ⟨hroot, fun t ht => ?_⟩
  rw [Catalogue.insert_of_stored hfind] at ht
  rcases Table.mem_of_mem_values_insert ht with rfl | ht
  · exact (Form.everywhere_oneOf.1 hrest).2 stored (Table.mem_values_of_mem (Table.mem_of_find? hfind))
  · exact (Form.everywhere_oneOf.1 hrest).2 t ht

/-- A node with exclusive options is no optional layer, also when a single option takes its place. -/
theorem isOptional_withOptions {dst : Schema} (h : ∀ t ∈ Table.values options, t.isOptional = false) :
    (dst.withOptions options conflict).isOptional = false := by
  unfold Schema.withOptions
  split
  · rename_i key sole
    exact h sole (by simp [Table.values])
  · rfl

theorem atomic_withOptions {dst : Schema} (h : ∀ t ∈ Table.values options, t.isPrimitive) :
    (dst.withOptions options conflict).Atomic := by
  unfold Schema.withOptions
  split
  · rename_i key sole
    exact .inl (h sole (by simp [Table.values]))
  · exact .inr ⟨options, conflict, rfl, h⟩

/-- The options after a variant that does not nest. -/
theorem Merges.withOptions (h : Merges variant merged rest) (dst : Schema)
    (hrest : (Form.oneOf rest conflict).Everywhere Form.Valid) (hfree : ¬ rest.Nests merged) :
    let r := dst.withOptions (Catalogue.insert rest merged) conflict
    r.form.Everywhere Form.Valid ∧ r.isOptional = false ∧
      (variant.isPrimitive → (∀ t ∈ Table.values rest, t.isPrimitive) → r.Atomic) := by
  intro r
  obtain ⟨⟨hsorted, hexclusive⟩, hnodes⟩ := Form.everywhere_oneOf.1 hrest
  have hpresent : ∀ t ∈ Table.values rest, t.isOptional = false := fun t ht =>
    Schema.isOptional_of_isPlain (hexclusive.plain t ht)
  have hoptional : r.isOptional = false :=
    isOptional_withOptions (Catalogue.insert_values (fun _ _ h => h) hpresent h.present)
  cases hfind : Table.find? rest merged.address with
  | some stored =>
    -- its address is taken, and no option is added
    have hvalid : (Form.oneOf (Catalogue.insert rest merged) conflict).Everywhere Form.Valid :=
      Form.everywhere_insert_of_stored hrest hfind
        ⟨Catalogue.sorted_insert hsorted, hexclusive.insert_of_stored hsorted hfind⟩
    refine ⟨hvalid.withOptions, hoptional, fun _ hprimitive => atomic_withOptions fun t ht => ?_⟩
    rw [Catalogue.insert_of_stored hfind] at ht
    rcases Table.mem_of_mem_values_insert ht with rfl | ht
    · exact hprimitive stored (Table.mem_values_of_mem (Table.mem_of_find? hfind))
    · exact hprimitive t ht
  | none =>
    cases hone : merged.isOneOf with
    | false =>
      -- it is added as a plain option, apart from the others
      obtain ⟨hplain, hapart⟩ := h.apart hone
      have hvalid : (Form.oneOf (Catalogue.insert rest merged) conflict).Everywhere Form.Valid :=
        Form.everywhere_oneOf.2 ⟨⟨Catalogue.sorted_insert hsorted, hexclusive.insert hsorted hplain hapart⟩,
          Catalogue.insert_values (fun _ _ h => h) hnodes h.valid⟩
      refine ⟨hvalid.withOptions, hoptional, fun hv hprimitive => atomic_withOptions ?_⟩
      refine Catalogue.insert_values (fun _ _ h => h) hprimitive ?_
      rcases h.atomic hv with h | ⟨options, conflict, hform, -⟩
      · exact h
      · unfold Schema.isOneOf at hone
        rw [hform] at hone
        cases hone
    | true =>
      -- it has become alternatives, and takes the place of all options since none is left
      obtain rfl : rest = [] := Classical.byContradiction fun hne => hfree ⟨hone, hne, hfind⟩
      have hr : r.form = merged.form := by
        have hinsert : Catalogue.insert [] merged = [(merged.address, merged)] := Catalogue.insert_of_new hfind
        unfold r
        rw [hinsert]
        rfl
      refine ⟨by rw [hr]; exact h.valid, hoptional, fun hv _ => ?_⟩
      unfold Schema.Atomic Schema.isPrimitive
      rw [hr]
      exact h.atomic hv

end

/-! ## Steps -/

section

variable {limits : Limits} {absorb : Absorber} {dst src r : Schema}

/-- A plain source, case by case; only among alternatives can the result clash. -/
theorem PlainStep.settled (hs : src.isPlain)
    (h : PlainStep (fun d s r => absorb d s = .ok r ∧ Settles d s r) limits dst src r)
    (hd : dst.form.Everywhere Form.Valid) (hsrc : src.form.Everywhere Form.Valid)
    (hfree : ∀ options conflict merged rest, dst.form = .oneOf options conflict →
      joinOption absorb options src.bare = .ok (merged, rest) → ¬ rest.Nests merged) : Settled dst src r := by
  have hQ := closed_valid limits
  cases h with
  | @record df sf dm sm form hdf hsf h =>
    rw [hdf] at hd
    rw [hsf] at hsrc
    have hform : ∃ fields mapping, form = .record fields mapping := by
      cases h <;> exact ⟨_, _, rfl⟩
    obtain ⟨fields, mapping, rfl⟩ := hform
    refine .of_plain ((h.mono fun _ _ _ h => h.2.keeps).everywhere hQ hd hsrc) (fun _ _ => rfl) ?_ ?_ rfl ?_
    · exact fun h => by simp [Schema.isList, hdf] at h
    · exact fun h => by simp [Schema.isPrimitive, hdf] at h
    · simp [Schema.isPlain, Form.isPlain, hdf]
  | @list de se rep hdf hsf h =>
    rw [hdf] at hd
    rw [hsf] at hsrc
    have helems := (h.mono fun _ _ _ h => h.2.keeps).everywhere fun t ht =>
      (List.mem_append.1 ht).elim ((Form.everywhere_list.1 hd).2 t) ((Form.everywhere_list.1 hsrc).2 t)
    refine .of_plain (Form.everywhere_list.2 ⟨hQ.list _, fun t ht => helems t (Option.mem_toList.1 ht)⟩) ?_
      (fun _ _ => rfl) ?_ rfl ?_
    · exact fun h => by simp [Schema.isRecord, hdf] at h
    · exact fun h => by simp [Schema.isPrimitive, hdf] at h
    · simp [Schema.isPlain, Form.isPlain, hdf]
  | primitive hdf hsf hj =>
    refine .of_plain (hQ.join hdf hsf hj hd hsrc) ?_ ?_ (fun _ _ => .inl rfl) rfl ?_
    · exact fun h => by simp [Schema.isRecord, hdf] at h
    · exact fun h => by simp [Schema.isList, hdf] at h
    · simp [Schema.isPlain, Form.isPlain, hdf]
  | conflict hplain hne =>
    have hvalues : ∀ {P : Schema → Prop}, (∀ t e, P t → P (t.mergeExamples e)) → P dst.bare → P src.bare →
        ∀ t ∈ Table.values (Catalogue.insert (Catalogue.insert [] dst.bare) src.bare), P t :=
      fun hexamples hd hs => Catalogue.insert_values hexamples
        (Catalogue.insert_values hexamples (fun _ ht => absurd ht List.not_mem_nil) hd) hs
    have hfirst : Catalogue.Exclusive (Catalogue.insert [] dst.bare) :=
      Catalogue.Exclusive.nil.insert Table.Sorted.nil hplain fun _ ht => absurd ht List.not_mem_nil
    have hsorted : Table.Sorted (Catalogue.insert [] dst.bare) := Catalogue.sorted_insert Table.Sorted.nil
    have hboth : Catalogue.Exclusive (Catalogue.insert (Catalogue.insert [] dst.bare) src.bare) := by
      refine hfirst.insert hsorted hs fun t ht => ?_
      rw [agrees_comm]
      rcases Catalogue.of_mem_values_insert ht with ht | rfl | ⟨stored, hstored, -⟩
      · cases ht
      · exact hne
      · cases hstored
    have hvalid : (dst.conflict src).form.Everywhere Form.Valid := by
      rw [Schema.form_conflict]
      exact Form.everywhere_oneOf.2 ⟨⟨Catalogue.sorted_insert hsorted, hboth⟩,
        hvalues (P := fun t => t.form.Everywhere Form.Valid) (fun _ _ h => h) hd hsrc⟩
    refine .of_plain hvalid ?_ ?_ ?_ rfl hplain
    · intro hd' hs'
      rw [Schema.agrees_of_isRecord hd' hs'] at hne
      cases hne
    · intro hd' hs'
      rw [Schema.agrees_of_isList hd' hs'] at hne
      cases hne
    · intro hd' hs'
      exact .inr ⟨_, _, Schema.form_conflict dst src, hvalues (P := fun t => t.isPrimitive) (fun _ _ h => h) hd' hs'⟩
  | @inner inner r hdf hopt h =>
    rw [hdf] at hd
    have h := h.2 (Form.everywhere_optional.1 hd).2 hsrc
    have hpresent := h.present hopt hs
    have hr : ({ r with nullable := false } : Schema).isOptional = false := hpresent
    refine .of_optional ?_ (Form.everywhere_optional.2 ⟨hQ.optional hr rfl, h.valid⟩)
    unfold Schema.isOptional
    rw [hdf]
  | absent hdf =>
    refine .of_optional ?_ (Form.everywhere_optional.2 ⟨⟨trivial, Schema.isOptional_of_isPlain hs⟩, hsrc⟩)
    unfold Schema.isOptional
    rw [hdf]
  | @option options rest conflict merged hdf h =>
    rw [hdf] at hd
    have hjoin : joinOption absorb options src.bare = .ok (merged, rest) :=
      (h.mono fun _ _ _ h => h.1).joinOption_eq
    have hrest := ((h.mono fun _ _ _ h => h.2.keeps).everywhere hQ hsrc hd).2
    have hmerges := (h.mono fun _ _ _ h => h.2).merges hsrc hd
    obtain ⟨hvalid, hpresent, hatomic⟩ :=
      hmerges.withOptions (dst.orNullable src.nullable) hrest (hfree _ _ _ _ hdf hjoin)
    refine ⟨hvalid, ?_, ?_, ?_, fun _ _ => hpresent⟩
    · exact fun h => by simp [Schema.isRecord, hdf] at h
    · exact fun h => by simp [Schema.isList, hdf] at h
    · intro hd' hs'
      refine hatomic hs' fun t ht => ?_
      rcases hd' with hd' | ⟨options', conflict', hform, hoptions⟩
      · unfold Schema.isPrimitive at hd'
        rw [hdf] at hd'
        cases hd'
      · rw [hdf] at hform
        cases hform
        exact hoptions t (h.left t ht)

/-- A step on valid trees that does not clash gives a valid tree, when its calls do. -/
theorem Step.settled (h : Step (fun d s r => absorb d s = .ok r ∧ Settles d s r) limits dst src r)
    (hd : dst.form.Everywhere Form.Valid) (hs : src.form.Everywhere Form.Valid) (hfree : ¬ Clashes absorb dst src) :
    Settled dst src r := by
  have hQ := closed_valid limits
  induction h with
  | optional hsf _ ih =>
    rw [hsf] at hs
    have h := ih hd (Form.everywhere_optional.1 hs).2 fun hclash => hfree (.optional hsf hclash)
    refine .of_not_plain (by unfold Schema.isPlain Form.isPlain; rw [hsf]) ?_
    rw [Schema.form_mergeExamples]
    exact hQ.makeOptional h.valid
  | absent hsf => exact .of_not_plain (by unfold Schema.isPlain Form.isPlain; rw [hsf]) hd
  | swap hsf _ h =>
    have hs' := hs
    rw [hsf] at hs'
    exact .of_not_plain (by unfold Schema.isPlain Form.isPlain; rw [hsf]) (h.2 hs' hd).valid
  | alternatives hsf hdf _ h =>
    rw [hdf] at hd
    have hs' := hs
    rw [hsf] at hs'
    obtain ⟨hroot, hoptions⟩ := Form.everywhere_oneOf.1 hd
    exact .of_not_plain (by unfold Schema.isPlain Form.isPlain; rw [hsf]) <| (h.mono fun _ _ _ h => h.2.keeps).everywhere
      (Form.everywhere_oneOf.2 ⟨hQ.flag hroot, hoptions⟩) (Form.everywhere_oneOf.1 hs').2
  | @plain dst src r hplain h =>
    have hbare : src.bare.isPlain := hplain
    have h := h.settled hbare hd hs fun options conflict merged rest hdf hjoin hnests =>
      hfree (.option hplain hdf hjoin hnests)
    exact ⟨h.valid, h.isRecord, h.isList, h.atomic, h.present⟩

end

end ApiShape

/-
Nullability and optionality stay on the outermost node: below an optional layer, and among the options of
alternatives, no node is nullable or optional (`Schema.Hoisted`). Absorbing keeps this, and what it makes of
the outer nodes is exact: the result is optional, or nullable, when one of the two trees is (`Outer`).
-/
import ApiShape.Proofs.WellFormed.Step

namespace ApiShape

/-! ## Hoisted trees -/

/-- A node as it stands below an optional layer or among options: neither optional nor nullable. -/
structure Schema.IsInner (s : Schema) : Prop where
  present : s.isOptional = false
  nonnull : s.nullable = false

/-- Nothing is optional or nullable directly below an optional layer or among the options. -/
def Form.Hoisted : Form → Prop
  | .optional inner => inner.IsInner
  | .oneOf options _ => ∀ t ∈ Table.values options, t.IsInner
  | _ => True

/-- At every depth, nullability and optionality are on the outermost node. -/
def Schema.Hoisted (s : Schema) : Prop := s.Throughout (fun t => t.form.Hoisted)

theorem closed_hoisted (limits : Limits) : Closed limits Form.Hoisted where
  text := trivial
  primitive _ _ _ := trivial
  list _ := trivial
  optional hopt hnull := ⟨hopt, hnull⟩
  record _ _ _ _ := trivial
  emptyMap _ := trivial
  map _ := trivial
  empty _ := nofun
  filter p h t ht := by
    obtain ⟨key, hrow⟩ := Table.mem_values.1 ht
    exact h t (Table.mem_values_of_mem (List.mem_filter.1 hrow).1)
  flag h := h

/-- The outer node of a result: it is optional, or nullable, when one side is. -/
structure Outer (d s r : Schema) : Prop where
  present : r.isAbsent = false
  optional : r.isOptional = (d.isOptional || s.isOptional)
  nullable : r.nullable = (d.nullable || s.nullable)

/-- Two hoisted trees give a hoisted one, and the outer nodes go together unless one was only ever absent. -/
def Hoists (d s r : Schema) : Prop :=
  d.form.Everywhere Form.Hoisted → s.form.Everywhere Form.Hoisted →
    r.form.Everywhere Form.Hoisted ∧ (d.isAbsent = false → s.isAbsent = false → Outer d s r)

theorem Hoists.keeps {d s r : Schema} (h : Hoists d s r) : Keeps Form.Hoisted d s r := fun hd hs => (h hd hs).1

section

variable {d s r t : Schema}

theorem isAbsent_of_isOptional (h : s.isOptional = false) : s.isAbsent = false := by
  unfold Schema.isOptional at h
  unfold Schema.isAbsent
  cases hform : s.form <;> simp_all

theorem isInner_bare (h : s.isPlain) : s.bare.IsInner := ⟨Schema.isOptional_of_isPlain h, rfl⟩

/-- Inner nodes that are absorbed into one another give an inner node. -/
theorem Hoists.isInner (h : Hoists d s r) (hd : d.form.Everywhere Form.Hoisted ∧ d.IsInner)
    (hs : s.form.Everywhere Form.Hoisted ∧ s.IsInner) : r.form.Everywhere Form.Hoisted ∧ r.IsInner := by
  obtain ⟨hr, houter⟩ := h hd.1 hs.1
  have houter := houter (isAbsent_of_isOptional hd.2.present) (isAbsent_of_isOptional hs.2.present)
  refine ⟨hr, ?_, ?_⟩
  · rw [houter.optional, hd.2.present, hs.2.present]
    rfl
  · rw [houter.nullable, hd.2.nonnull, hs.2.nonnull]
    rfl

theorem Outer.of_present (hr : r.isOptional = false) (hd : d.isOptional = false) (hs : s.isOptional = false)
    (hnull : r.nullable = (d.nullable || s.nullable)) : Outer d s r where
  present := isAbsent_of_isOptional hr
  optional := by rw [hr, hd, hs]; rfl
  nullable := hnull

end

/-! ## Alternatives -/

section

variable {limits : Limits} {options rest : Catalogue} {variant merged s t : Schema} {conflict : Bool}

theorem Collects.isInner {l : List Schema} {r : Schema} (h : Collects Hoists l (Option.some r))
    (hl : ∀ t ∈ l, t.form.Everywhere Form.Hoisted ∧ t.IsInner) : r.form.Everywhere Form.Hoisted ∧ r.IsInner := by
  cases h with
  | some h =>
    exact h.invariant (P := fun t => t.form.Everywhere Form.Hoisted ∧ t.IsInner)
      (S := fun t => t.form.Everywhere Form.Hoisted ∧ t.IsInner) (fun _ _ _ h => h.isInner) (hl _ List.mem_cons_self)
      fun t ht => hl t (List.mem_cons_of_mem _ ht)

/-- What a variant becomes among hoisted options is an inner node, and the options that are left are hoisted. -/
theorem Joins.isInner (h : Joins Hoists options variant merged rest)
    (hv : variant.form.Everywhere Form.Hoisted ∧ variant.IsInner)
    (hoptions : (Form.oneOf options conflict).Everywhere Form.Hoisted) :
    (merged.form.Everywhere Form.Hoisted ∧ merged.IsInner) ∧ (Form.oneOf rest conflict).Everywhere Form.Hoisted := by
  have hmem : ∀ t ∈ Table.values options, t.form.Everywhere Form.Hoisted ∧ t.IsInner := fun t ht =>
    ⟨(Form.everywhere_oneOf.1 hoptions).2 t ht, hoptions.root t ht⟩
  have hsame : ∀ p : Schema → Bool, ∀ t ∈ (Catalogue.take p options).1 ++ [variant],
      t.form.Everywhere Form.Hoisted ∧ t.IsInner := by
    intro p t ht
    rcases List.mem_append.1 ht with ht | ht
    · exact hmem t (Catalogue.mem_taken.1 ht).1
    · rwa [List.mem_singleton.1 ht]
  refine ⟨?_, ((h.mono fun _ _ _ => Hoists.keeps).everywhere (closed_hoisted {}) hv.1 hoptions).2⟩
  cases h with
  | record _ h => exact h.isInner (hsame _)
  | list _ h => exact h.isInner (hsame _)
  | primitive _ h =>
    exact h.invariant (P := fun t => t.form.Everywhere Form.Hoisted ∧ t.IsInner)
      (S := fun t => t.form.Everywhere Form.Hoisted ∧ t.IsInner) (fun _ _ _ h => h.isInner) hv hmem

theorem hoisted_insert (hrest : (Form.oneOf rest conflict).Everywhere Form.Hoisted)
    (hs : s.form.Everywhere Form.Hoisted ∧ s.IsInner) :
    (Form.oneOf (Catalogue.insert rest s) conflict).Everywhere Form.Hoisted :=
  Form.everywhere_oneOf.2
    ⟨Catalogue.insert_values (R := Schema.IsInner) (fun _ _ h => ⟨h.present, h.nonnull⟩) hrest.root hs.2,
      Catalogue.insert_values (R := fun t => t.form.Everywhere Form.Hoisted) (fun _ _ h => h)
        (Form.everywhere_oneOf.1 hrest).2 hs.1⟩

/-- A node with hoisted options keeps its nullability, also when a single option takes its place. -/
theorem nullable_withOptions {dst : Schema} (h : ∀ t ∈ Table.values options, t.IsInner) :
    (dst.withOptions options conflict).nullable = dst.nullable := by
  unfold Schema.withOptions
  split
  · rename_i key sole
    have hsole : sole.nullable = false := (h sole (by simp [Table.values])).nonnull
    simp [hsole]
  · rfl

end

/-! ## Steps -/

section

variable {limits : Limits} {dst src r : Schema}

/-- A plain source has no layer and is not nullable by itself, so that the result takes both from the destination. -/
theorem PlainStep.hoists (h : PlainStep Hoists limits dst src r) (hs : src.isPlain) (hnull : src.nullable = false)
    (hd : dst.form.Everywhere Form.Hoisted) (hsrc : src.form.Everywhere Form.Hoisted) :
    r.form.Everywhere Form.Hoisted ∧ (dst.isAbsent = false → Outer dst src r) := by
  have hQ := closed_hoisted limits
  have hspresent := Schema.isOptional_of_isPlain hs
  cases h with
  | @record df sf dm sm form hdf hsf h =>
    rw [hdf] at hd
    rw [hsf] at hsrc
    obtain ⟨fields, mapping, rfl⟩ : ∃ fields mapping, form = .record fields mapping := by
      cases h <;> exact ⟨_, _, rfl⟩
    refine ⟨(h.mono fun _ _ _ => Hoists.keeps).everywhere hQ hd hsrc, fun _ => ?_⟩
    refine .of_present rfl (by simp [Schema.isOptional, hdf]) hspresent ?_
    simp [hnull]
  | @list de se rep hdf hsf h =>
    rw [hdf] at hd
    rw [hsf] at hsrc
    have helems := (h.mono fun _ _ _ => Hoists.keeps).everywhere fun t ht =>
      (List.mem_append.1 ht).elim ((Form.everywhere_list.1 hd).2 t) ((Form.everywhere_list.1 hsrc).2 t)
    refine ⟨Form.everywhere_list.2 ⟨hQ.list _, fun t ht => helems t (Option.mem_toList.1 ht)⟩, fun _ => ?_⟩
    refine .of_present rfl (by simp [Schema.isOptional, hdf]) hspresent ?_
    simp [hnull]
  | primitive hdf hsf hj =>
    refine ⟨hQ.join hdf hsf hj hd hsrc, fun _ => ?_⟩
    refine .of_present rfl (by simp [Schema.isOptional, hdf]) hspresent ?_
    simp [hnull]
  | conflict hplain _ =>
    have hempty : (Form.oneOf [] true).Everywhere Form.Hoisted := Form.everywhere_oneOf.2 ⟨nofun, nofun⟩
    refine ⟨?_, fun _ => .of_present rfl (Schema.isOptional_of_isPlain hplain) hspresent rfl⟩
    rw [Schema.form_conflict]
    exact hoisted_insert (hoisted_insert hempty ⟨hd, isInner_bare hplain⟩) ⟨hsrc, isInner_bare hs⟩
  | @inner inner r hdf hopt h =>
    rw [hdf] at hd
    obtain ⟨hinner, hdinner⟩ := Form.everywhere_optional.1 hd
    have hinner : inner.IsInner := hinner
    obtain ⟨hr, hrinner⟩ := h.isInner ⟨hdinner, hinner⟩ ⟨hsrc, hspresent, hnull⟩
    refine ⟨Form.everywhere_optional.2 ⟨⟨hrinner.present, rfl⟩, hr⟩, fun _ => ⟨rfl, ?_, ?_⟩⟩
    · simp [Schema.isOptional, hdf]
    · simp [hrinner.nonnull, hnull]
  | absent hdf =>
    refine ⟨Form.everywhere_optional.2 ⟨⟨hspresent, hnull⟩, hsrc⟩, fun h => ?_⟩
    simp [Schema.isAbsent, hdf] at h
  | @option options rest conflict merged hdf h =>
    rw [hdf] at hd
    obtain ⟨hmerged, hrest⟩ := h.isInner ⟨hsrc, isInner_bare hs⟩ hd
    have hoptions := hoisted_insert hrest hmerged
    refine ⟨hoptions.withOptions, fun _ => .of_present ?_ (by simp [Schema.isOptional, hdf]) hspresent ?_⟩
    · exact isOptional_withOptions fun t ht => (hoptions.root t ht).present
    · rw [nullable_withOptions hoptions.root]
      rfl

theorem isAbsent_makeOptional (h : r.isAbsent = false) : r.makeOptional.isAbsent = false := by
  unfold Schema.makeOptional
  split
  · exact h
  · rfl

/-- Nullability of the source ends up on the outer node, and no inner node becomes nullable. -/
theorem Step.hoists (h : Step Hoists limits dst src r) : Hoists dst src r := by
  have hQ := closed_hoisted limits
  intro hd hs
  -- By induction on the optional layers of the source; the other steps are those of `Hoists` on smaller trees.
  induction h with
  | @optional dst src inner r hsf _ ih =>
    have hs' := hs
    rw [hsf] at hs'
    obtain ⟨hinner, hsinner⟩ := Form.everywhere_optional.1 hs'
    have hinner : inner.IsInner := hinner
    obtain ⟨hr, houter⟩ := ih hd hsinner
    refine ⟨hQ.makeOptional hr, fun hdpresent _ => ?_⟩
    have houter := houter hdpresent (isAbsent_of_isOptional hinner.present)
    refine ⟨isAbsent_makeOptional houter.present, ?_, ?_⟩
    · have hopt : src.isOptional = true := by simp [Schema.isOptional, hsf]
      rw [hopt, Bool.or_true]
      exact Schema.isOptional_makeOptional r
    · rw [Schema.nullable_mergeExamples, Schema.nullable_makeOptional, houter.nullable, hinner.nonnull, Bool.or_false]
      rfl
  | absent hsf =>
    refine ⟨hd, fun _ h => ?_⟩
    simp [Schema.isAbsent, hsf] at h
  | @swap dst src r options conflict hsf hdf h =>
    have hs' := hs
    rw [hsf] at hs'
    obtain ⟨hr, houter⟩ := h hs' hd
    refine ⟨hr, fun hdpresent _ => ?_⟩
    have houter := houter rfl hdpresent
    refine ⟨houter.present, ?_, ?_⟩
    · have hopt : src.isOptional = false := by simp [Schema.isOptional, hsf]
      rw [houter.optional, hopt, Bool.or_false]
      rfl
    · rw [houter.nullable]
      exact Bool.or_false _
  | @alternatives dst src r options srcOptions conflict srcConflict hsf hdf _ h =>
    have hs' := hs
    rw [hdf] at hd
    rw [hsf] at hs'
    obtain ⟨hroot, hoptions⟩ := Form.everywhere_oneOf.1 hd
    -- The node may collapse on the way, but it stays present, and inner nodes add no nullability to it.
    have hr : r.form.Everywhere Form.Hoisted ∧ r.isOptional = false ∧ r.nullable = (dst.nullable || src.nullable) := by
      refine h.invariant (P := fun t => t.form.Everywhere Form.Hoisted ∧ t.isOptional = false ∧
        t.nullable = (dst.nullable || src.nullable)) (S := fun t => t.form.Everywhere Form.Hoisted ∧ t.IsInner) ?_
        ⟨Form.everywhere_oneOf.2 ⟨hQ.flag hroot, hoptions⟩, rfl, rfl⟩
        fun t ht => ⟨(Form.everywhere_oneOf.1 hs').2 t ht, hs'.root t ht⟩
      rintro d s r h ⟨hd, hdpresent, hdnull⟩ ⟨hs, hsinner⟩
      obtain ⟨hr, houter⟩ := h hd hs
      have houter := houter (isAbsent_of_isOptional hdpresent) (isAbsent_of_isOptional hsinner.present)
      refine ⟨hr, ?_, ?_⟩
      · rw [houter.optional, hdpresent, hsinner.present]
        rfl
      · rw [houter.nullable, hdnull, hsinner.nonnull, Bool.or_false]
    obtain ⟨hr, hpresent, hnull⟩ := hr
    exact ⟨hr, fun _ _ => .of_present hpresent (by simp [Schema.isOptional, hdf]) (by simp [Schema.isOptional, hsf]) hnull⟩
  | @plain dst src r hplain h =>
    have hbare : src.bare.isPlain := hplain
    obtain ⟨hr, houter⟩ := h.hoists hbare rfl hd hs
    refine ⟨hr, fun hdpresent _ => ?_⟩
    have houter := houter hdpresent
    refine ⟨houter.present, houter.optional, ?_⟩
    rw [houter.nullable]
    exact Bool.or_false _

theorem absorbWithin_hoists {depth : Nat} (h : absorbWithin limits depth dst src = .ok r) : Hoists dst src r := by
  induction depth generalizing dst src r with
  | zero => cases h
  | succ depth ih =>
    have hstep : Step Hoists limits dst src r := step_of_ok src h fun d s r _ hr => ih hr
    exact hstep.hoists

end

end ApiShape

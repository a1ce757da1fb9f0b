/-
How many optional layers lie directly on one another in a tree. Absorbing wraps a node in such a layer only where
there is none, so that no more than `k` of them meet in a result when none of both trees has more, provided that
the options of alternatives have fewer (`Form.Shallow`): when alternatives below an optional layer collapse, the
option that takes their place brings its own layers along.
-/
import ApiShape.Proofs.Absorb.Stable

namespace ApiShape

/-- The optional layers around a node. -/
def Schema.layers : Schema → Nat
  | ⟨.optional inner, _, _, _⟩ => inner.layers + 1
  | _ => 0
termination_by structural s => s

section

variable {s t : Schema}

theorem layers_optional {inner : Schema} (h : s.form = .optional inner) : s.layers = inner.layers + 1 := by
  obtain ⟨form, nullable, metadata, examples⟩ := s
  obtain rfl : form = .optional inner := h
  rfl

theorem layers_eq_zero (h : ∀ inner, s.form ≠ .optional inner) : s.layers = 0 := by
  obtain ⟨form, nullable, metadata, examples⟩ := s
  cases form <;> first | rfl | exact absurd rfl (h _)

theorem layers_of_not_isOptional (h : s.isOptional = false) : s.layers = 0 :=
  layers_eq_zero fun inner hform => by simp [Schema.isOptional, hform] at h

theorem layers_congr (h : s.form = t.form) : s.layers = t.layers := by
  obtain ⟨form, nullable, metadata, examples⟩ := s
  obtain ⟨form', nullable', metadata', examples'⟩ := t
  obtain rfl : form = form' := h
  cases form <;> rfl

/-- Only the shape of a node has layers. -/
theorem layers_node (s : Schema) (nullable : Bool) (metadata : Option Metadata) (examples : Examples) :
    Schema.layers ⟨s.form, nullable, metadata, examples⟩ = s.layers := layers_congr rfl

theorem layers_lt_size (s : Schema) : s.layers < s.size := by
  induction s using Schema.inductionOn with
  | step s ih =>
    rw [size_eq]
    by_cases hopt : ∃ inner, s.form = .optional inner
    · obtain ⟨inner, hform⟩ := hopt
      have hinner := ih inner (by simp [Schema.children, Form.children, hform])
      rw [layers_optional hform, hform, Form.size]
      omega
    · rw [layers_eq_zero fun inner hform => hopt ⟨inner, hform⟩]
      omega

end

/-! ## Nodes without a layer -/

/-- A plain node, or alternatives that have only such nodes for options. -/
inductive Schema.Unwrapped : Schema → Prop
  | plain {s : Schema} : s.isPlain → Unwrapped s
  | oneOf {s : Schema} {options : Catalogue} {conflict : Bool} : s.form = .oneOf options conflict →
      (∀ t ∈ Table.values options, Unwrapped t) → Unwrapped s

namespace Schema.Unwrapped

variable {s t : Schema}

theorem of_form (h : s.Unwrapped) (hform : t.form = s.form) : t.Unwrapped := by
  cases h with
  | plain hplain => exact .plain (by unfold Schema.isPlain Form.isPlain; rw [hform]; exact hplain)
  | oneOf hoptions h => exact .oneOf (hform.trans hoptions) h

theorem isOptional_eq (h : s.Unwrapped) : s.isOptional = false := by
  unfold Schema.isOptional
  cases h with
  | plain hplain => unfold Schema.isPlain Form.isPlain at hplain; split <;> simp_all
  | oneOf hform _ => rw [hform]

theorem layers_lt (h : s.Unwrapped) {k : Nat} (hk : 0 < k) : s.layers < k := by
  rw [layers_of_not_isOptional h.isOptional_eq]
  exact hk

theorem insert {options : Catalogue} (hs : s.Unwrapped) (hoptions : ∀ t ∈ Table.values options, t.Unwrapped) :
    ∀ t ∈ Table.values (Catalogue.insert options s), t.Unwrapped :=
  Catalogue.insert_values (fun _ _ h => h.of_form rfl) hoptions hs

theorem withOptions {options : Catalogue} {conflict : Bool} (h : ∀ t ∈ Table.values options, t.Unwrapped) :
    (s.withOptions options conflict).Unwrapped := by
  unfold Schema.withOptions
  split
  · rename_i key sole
    exact (h sole (by simp [Table.values])).of_form rfl
  · exact .oneOf rfl h

end Schema.Unwrapped

/-- A plain tree leaves a node without a layer. -/
def KeepsUnwrapped (d s r : Schema) : Prop := d.Unwrapped → s.isPlain → r.Unwrapped

section

variable {limits : Limits} {d s r : Schema}

theorem Folds.unwrapped {acc : Schema} {l : List Schema} (h : Folds KeepsUnwrapped acc l r) (hacc : acc.Unwrapped)
    (hl : ∀ s ∈ l, s.isPlain) : r.Unwrapped :=
  h.invariant (P := Schema.Unwrapped) (S := fun s => s.isPlain) (fun _ _ _ h => h) hacc hl

theorem Collects.unwrapped {l : List Schema} (h : Collects KeepsUnwrapped l (Option.some r)) (hl : ∀ s ∈ l, s.isPlain) :
    r.Unwrapped := by
  cases h with
  | some h =>
    obtain ⟨hfirst, hrest⟩ := List.forall_mem_cons.1 hl
    exact h.unwrapped (.plain hfirst) hrest

theorem Gathers.unwrapped {acc : Schema} {options rest : Catalogue} (h : Gathers KeepsUnwrapped acc options r rest)
    (hacc : acc.Unwrapped) : r.Unwrapped := by
  induction h with
  | done => exact hacc
  | round _ hfolds _ ih =>
    refine ih (hfolds.unwrapped hacc fun s hs => ?_)
    exact (Schema.isPlain_of_agrees (Schema.agrees_of_joinable (Catalogue.mem_taken.1 hs).2)).2

/-- What a variant becomes has no layer, whatever is among the options: it only takes in plain ones. -/
theorem Joins.unwrapped {options rest : Catalogue} {variant merged : Schema}
    (h : Joins KeepsUnwrapped options variant merged rest) (hv : variant.isPlain) : merged.Unwrapped := by
  have hsame : ∀ p : Schema → Bool, (∀ t, p t → t.isPlain) →
      ∀ t ∈ (Catalogue.take p options).1 ++ [variant], t.isPlain := fun p hp =>
    List.forall_mem_append.2 ⟨fun t ht => hp t (Catalogue.mem_taken.1 ht).2, List.forall_mem_singleton.2 hv⟩
  cases h with
  | record hrecord h =>
    exact h.unwrapped (hsame _ fun t ht => (Schema.isPlain_of_agrees (Schema.agrees_of_isRecord ht ht)).1)
  | list hlist h =>
    exact h.unwrapped (hsame _ fun t ht => (Schema.isPlain_of_agrees (Schema.agrees_of_isList ht ht)).1)
  | primitive _ h => exact h.unwrapped (.plain hv)

theorem Schema.unwrapped_conflict (hd : d.isPlain) (hs : s.isPlain) : (d.conflict s).Unwrapped := by
  refine .oneOf (Schema.form_conflict d s) ?_
  exact Schema.Unwrapped.insert (.plain hs) (Schema.Unwrapped.insert (.plain hd) nofun)

theorem RecordStep.isPlain {A : Schema → Schema → Schema → Prop} {df sf : Table Schema} {dm sm : Option Mapping}
    {form : Form} (h : RecordStep A limits df dm sf sm form) {nullable : Bool} {metadata : Option Metadata}
    {examples : Examples} : Schema.isPlain ⟨form, nullable, metadata, examples⟩ := by
  cases h <;> rfl

/-- A plain source puts an optional layer only into a node that has one. -/
theorem PlainStep.unwrapped (h : PlainStep KeepsUnwrapped limits d s r) (hd : d.Unwrapped) (hs : s.isPlain) :
    r.Unwrapped := by
  cases h with
  | record _ _ h => exact .of_form (.plain h.isPlain) rfl
  | list => exact .plain rfl
  | primitive => exact .plain rfl
  | conflict hplain => exact Schema.unwrapped_conflict hplain hs
  | inner hdf | absent hdf =>
    have hopt := hd.isOptional_eq
    unfold Schema.isOptional at hopt
    rw [hdf] at hopt
    cases hopt
  | option hdf h =>
    cases hd with
    | plain hplain =>
      unfold Schema.isPlain Form.isPlain at hplain
      rw [hdf] at hplain
      cases hplain
    | oneOf hoptions hd =>
      obtain ⟨rfl, rfl⟩ : _ ∧ _ := by simpa using hdf.symm.trans hoptions
      exact .withOptions (.insert (h.unwrapped hs) fun t ht => hd t (h.left t ht))

/-! ## Shallow trees -/

/-- At most `k` optional layers lie on one another, and fewer around an option. -/
def Form.Shallow (k : Nat) : Form → Prop
  | .optional inner => inner.layers < k
  | .oneOf options _ => ∀ t ∈ Table.values options, t.layers < k
  | _ => True

theorem closed_shallow (limits : Limits) {k : Nat} (hk : 0 < k) : Closed limits (Form.Shallow k) where
  text := trivial
  primitive _ _ _ := trivial
  list _ := trivial
  optional hopt _ := Nat.lt_of_le_of_lt (Nat.le_of_eq (layers_of_not_isOptional hopt)) hk
  record _ _ _ _ := trivial
  emptyMap _ := trivial
  map _ := trivial
  empty _ := nofun
  filter p h := fun t ht => by
    obtain ⟨key, hrow⟩ := Table.mem_values.1 ht
    exact h t (Table.mem_values_of_mem (List.mem_filter.1 hrow).1)
  flag h := h

theorem layers_le_of_shallow {k : Nat} (h : d.form.Shallow k) : d.layers ≤ k := by
  by_cases hopt : ∃ inner, d.form = .optional inner
  · obtain ⟨inner, hform⟩ := hopt
    rw [hform] at h
    rw [layers_optional hform]
    exact h
  · rw [layers_eq_zero fun inner hform => hopt ⟨inner, hform⟩]
    exact Nat.zero_le k

/-- A tree of at most `k` nodes is shallow. -/
theorem Schema.shallow_of_size_le {k : Nat} (s : Schema) (h : s.size ≤ k) : s.form.Everywhere (Form.Shallow k) := by
  induction s using Schema.inductionOn with
  | step s ih =>
    have hchild : ∀ t ∈ s.form.children, t.size < k := fun t ht => Nat.lt_of_lt_of_le (size_lt_of_mem_children ht) h
    refine Form.everywhere_iff.2 ⟨?_, fun t ht => ih t ht (Nat.le_of_lt (hchild t ht))⟩
    cases hform : s.form with
    | optional inner =>
      exact Nat.lt_trans (layers_lt_size inner) (hchild inner (by simp [hform, Form.children]))
    | oneOf options conflict =>
      exact fun t ht => Nat.lt_trans (layers_lt_size t) (hchild t (by rw [hform]; exact ht))
    | primitive | record | list | absent => trivial

/-- What absorbing keeps of the layers in a tree. A plain tree below an optional layer leaves room for that layer. -/
structure KeepsShallow (k : Nat) (d s r : Schema) : Prop where
  keeps : Keeps (Form.Shallow k) d s r
  unwrapped : KeepsUnwrapped d s r
  inner : d.isOptional = false → s.isPlain → d.form.Shallow k → r.layers < k

/-- Inserting a node without a layer among options that leave room. -/
theorem Form.Shallow.insert {k : Nat} (hk : 0 < k) {options : Catalogue} {conflict : Bool} (hs : s.Unwrapped)
    (h : (Form.oneOf options conflict).Shallow k) : (Form.oneOf (Catalogue.insert options s) conflict).Shallow k :=
  Catalogue.insert_values (R := fun t => t.layers < k)
    (fun t e ht => Nat.lt_of_le_of_lt (Nat.le_of_eq (layers_congr (Schema.form_mergeExamples t e))) ht) h
    (hs.layers_lt hk)

theorem Form.Shallow.withOptions {k : Nat} (hk : 0 < k) {options : Catalogue} {conflict : Bool}
    (h : (Form.oneOf options conflict).Shallow k) : (d.withOptions options conflict).layers < k := by
  unfold Schema.withOptions
  split
  · rename_i key sole
    rw [layers_node]
    exact h sole (by simp [Table.values])
  · exact hk

theorem Form.Shallow.insertOption {k : Nat} (hk : 0 < k) {options : Catalogue} {conflict : Bool} (hs : s.Unwrapped)
    (hsq : s.form.Everywhere (Form.Shallow k)) (h : (Form.oneOf options conflict).Everywhere (Form.Shallow k)) :
    (Form.oneOf (Catalogue.insert options s) conflict).Everywhere (Form.Shallow k) :=
  Form.everywhere_oneOf.2 ⟨Form.Shallow.insert hk hs h.root,
    Catalogue.insert_values (R := fun t => t.form.Everywhere (Form.Shallow k)) (fun _ _ h => h)
      (Form.everywhere_oneOf.1 h).2 hsq⟩

variable {k : Nat} (hk : 0 < k)

include hk

theorem PlainStep.inner_layers (h : PlainStep (KeepsShallow k) limits d s r) (hd : d.isOptional = false)
    (hs : s.isPlain) (hshallow : d.form.Shallow k) : r.layers < k := by
  cases h with
  | record _ _ h => exact (Schema.Unwrapped.of_form (.plain h.isPlain) rfl).layers_lt hk
  | list => exact hk
  | primitive => exact hk
  | conflict hplain => exact (Schema.unwrapped_conflict hplain hs).layers_lt hk
  | inner hdf | absent hdf =>
    unfold Schema.isOptional at hd
    rw [hdf] at hd
    cases hd
  | option hdf h =>
    rw [hdf] at hshallow
    have hmerged := (h.mono fun _ _ _ h => h.unwrapped).unwrapped hs
    exact (Form.Shallow.insert hk hmerged fun t ht => hshallow t (h.left t ht)).withOptions hk

/-- The optional layer of the destination goes around an interior that stays below the bound. -/
theorem PlainStep.shallow (h : PlainStep (KeepsShallow k) limits d s r) (hs : s.isPlain) :
    Keeps (Form.Shallow k) d s r := by
  have hQ := closed_shallow limits hk
  intro hdq hsq
  cases h with
  | record hdf hsf h =>
    exact (h.mono fun _ _ _ h => h.keeps).everywhere hQ (hdf ▸ hdq) (hsf ▸ hsq)
  | list hdf hsf h =>
    have hrep := (h.mono fun _ _ _ h => h.keeps).everywhere (List.forall_mem_append.2
      ⟨(Form.everywhere_list.1 (hdf ▸ hdq)).2, (Form.everywhere_list.1 (hsf ▸ hsq)).2⟩)
    exact Form.everywhere_list.2 ⟨trivial, fun t ht => hrep t (Option.mem_toList.1 ht)⟩
  | primitive => exact Form.everywhere_iff.2 ⟨trivial, nofun⟩
  | conflict hplain =>
    have hempty : (Form.oneOf [] true).Everywhere (Form.Shallow k) := Form.everywhere_oneOf.2 ⟨nofun, nofun⟩
    have hone := Form.Shallow.insertOption hk (s := d.bare) (.plain hplain) hdq hempty
    rw [Schema.form_conflict]
    exact Form.Shallow.insertOption hk (s := s.bare) (.plain hs) hsq hone
  | @inner inner r hdf hopt h =>
    have hinner := (Form.everywhere_optional.1 (hdf ▸ hdq)).2
    have hlayers : Schema.layers { r with nullable := false } < k := by
      rw [layers_node]
      exact h.inner hopt hs hinner.root
    exact Form.everywhere_optional.2 ⟨hlayers, h.keeps hinner hsq⟩
  | absent hdf => exact Form.everywhere_optional.2 ⟨Schema.Unwrapped.layers_lt (.plain hs) hk, hsq⟩
  | option hdf h =>
    have hmerged := (h.mono fun _ _ _ h => h.unwrapped).unwrapped hs
    obtain ⟨hmergedq, hrest⟩ := (h.mono fun _ _ _ h => h.keeps).everywhere hQ hsq (hdf ▸ hdq)
    exact (Form.Shallow.insertOption hk hmerged hmergedq hrest).withOptions

theorem Step.shallow (h : Step (KeepsShallow k) limits d s r) : Keeps (Form.Shallow k) d s r := by
  have hQ := closed_shallow limits hk
  intro hd hs
  induction h with
  | optional hsf _ ih => exact hQ.makeOptional (ih hd (Form.everywhere_optional.1 (hsf ▸ hs)).2)
  | absent => exact hd
  | swap hsf _ h => exact h.keeps (hsf ▸ hs) hd
  | alternatives hsf hdf _ h =>
    obtain ⟨hroot, hoptions⟩ := Form.everywhere_oneOf.1 (hdf ▸ hd)
    exact (h.mono fun _ _ _ h => h.keeps).everywhere (Form.everywhere_oneOf.2 ⟨hQ.flag hroot, hoptions⟩)
      (Form.everywhere_oneOf.1 (hsf ▸ hs)).2
  | plain hplain h => exact h.shallow hk hplain hd hs

/-- Absorbing keeps trees shallow. -/
theorem keepsShallow_of_absorbWithin {depth : Nat} (h : absorbWithin limits depth d s = .ok r) :
    KeepsShallow k d s r := by
  induction depth generalizing d s r with
  | zero => cases h
  | succ depth ih =>
    have hstep : Step (KeepsShallow k) limits d s r := step_of_ok s h fun d s r _ hr => ih hr
    have hplainStep : s.isPlain → PlainStep (KeepsShallow k) limits (d.orNullable s.nullable) s.bare r := by
      intro hs
      cases hstep with
      | plain _ h => exact h
      | optional hsf | absent hsf | swap hsf | alternatives hsf => simp [Schema.isPlain, Form.isPlain, hsf] at hs
    exact {
      keeps := hstep.shallow hk
      unwrapped := fun hd hs => ((hplainStep hs).mono fun _ _ _ h => h.unwrapped).unwrapped (hd.of_form rfl) hs
      inner := fun hd hs hshallow => (hplainStep hs).inner_layers hk (d := d.orNullable s.nullable) hd hs hshallow }

end

end ApiShape

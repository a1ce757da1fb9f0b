/-
Records and lists of a bag. The parts of a summary stand for the nodes that the shapes of the bag have there,
and absorbing one record, list or primitive into another sums up both bags.
-/
import ApiShape.Proofs.Absorb.Record
import ApiShape.Proofs.Absorb.Stable
import ApiShape.Proofs.Evidence.Pools
import Mathlib.Algebra.BigOperators.Group.Multiset.Basic

namespace ApiShape

variable {types : List BaseType} {limits : Limits} {g g' : Multiset Form} {seen seen' : Multiset Schema}
  {missing : Prop} {s t : Schema} {f c : Form} {name : String}

/-! ## Bags together -/

theorem fieldsSeen_add (g g' : Multiset Form) (name : String) :
    fieldsSeen (g + g') name = fieldsSeen g name + fieldsSeen g' name := by
  unfold fieldsSeen
  exact Multiset.filterMap_add _ _ _

theorem keysSeen_add (g g' : Multiset Form) : keysSeen (g + g') = keysSeen g + keysSeen g' := Multiset.add_bind _ _ _

theorem valuesSeen_add (g g' : Multiset Form) : valuesSeen (g + g') = valuesSeen g + valuesSeen g' :=
  Multiset.add_bind _ _ _

theorem elemsSeen_add (g g' : Multiset Form) : elemsSeen (g + g') = elemsSeen g + elemsSeen g' :=
  Multiset.add_bind _ _ _

theorem lacks_add (g g' : Multiset Form) (name : String) : Lacks (g + g') name ↔ Lacks g name ∨ Lacks g' name := by
  unfold Lacks
  simp only [Multiset.mem_add, or_and_right, exists_or]

theorem fieldsSeen_eq_zero : fieldsSeen g name = 0 ↔ ∀ c ∈ g, Table.find? c.fields name = none := by
  rw [Multiset.eq_zero_iff_forall_notMem]
  constructor
  · intro h c hc
    refine Option.eq_none_iff_forall_ne_some.2 fun s hs => h s (mem_fieldsSeen.2 ⟨c, hc, hs⟩)
  · intro h s hs
    obtain ⟨c, hc, hfind⟩ := mem_fieldsSeen.1 hs
    rw [h c hc] at hfind
    cases hfind

theorem lacks_of_fieldsSeen_eq_zero (hpos : 0 < g.card) (h : fieldsSeen g name = 0) : Lacks g name := by
  obtain ⟨c, hc⟩ := Multiset.card_pos_iff_exists_mem.1 hpos
  exact ⟨c, hc, fieldsSeen_eq_zero.1 h c hc⟩

/-- A bag of fewer records stays within the thresholds. -/
theorem MapThresholds.Within.of_le {thresholds : MapThresholds} (h : thresholds.Within g') (hle : ∀ c ∈ g, c ∈ g') :
    thresholds.Within g := by
  have hseen : ∀ name, fieldsSeen g name ≠ 0 → fieldsSeen g' name ≠ 0 := by
    intro name hne hzero
    exact hne (fieldsSeen_eq_zero.2 fun c hc => fieldsSeen_eq_zero.1 hzero c (hle c hc))
  have hmem : ∀ name, ∀ t ∈ fieldsSeen g name, t ∈ fieldsSeen g' name := by
    intro name t ht
    obtain ⟨c, hc, hfind⟩ := mem_fieldsSeen.1 ht
    exact mem_fieldsSeen.2 ⟨c, hle c hc, hfind⟩
  refine ⟨fun names hnames => h.fields names fun n hn => hseen n (hnames n hn),
    fun names hnames => h.optional names fun n hn => ?_,
    fun names hnames => h.digit names fun n hn => ⟨hseen n (hnames n hn).1, (hnames n hn).2⟩⟩
  obtain ⟨hne, hopt⟩ := hnames n hn
  refine ⟨hseen n hne, hopt.imp ?_ ?_⟩
  · rintro ⟨c, hc, hfind⟩
    exact ⟨c, hle c hc, hfind⟩
  · rintro ⟨t, ht, htopt⟩
    exact ⟨t, hmem n t ht, htopt⟩

theorem TakenAsMap.of_le (h : TakenAsMap limits g) (hle : g ≤ g') : TakenAsMap limits g' := by
  have hmem : ∀ c ∈ g, c ∈ g' := fun c hc => Multiset.mem_of_le hle hc
  rcases h with ⟨c, hc, hmap⟩ | ⟨hcard, hnot⟩
  · exact .inl ⟨c, hmem c hc, hmap⟩
  · exact .inr ⟨hcard.trans (Multiset.card_le_card hle), fun hwithin => hnot (hwithin.of_le hmem)⟩

/-! ## The parts of a summary -/

theorem fieldsSeen_singleton (h : Table.find? c.fields name = some s) : fieldsSeen {c} name = {s} := by
  unfold fieldsSeen
  rw [← Multiset.cons_zero, Multiset.filterMap_cons_some (fun c => Table.find? c.fields name) c 0 h,
    Multiset.filterMap_zero, Multiset.cons_zero]

theorem lacks_singleton : Lacks {c} name ↔ Table.find? c.fields name = none := by
  unfold Lacks
  simp

/-- The parts of a shape stand for what the shapes of the bag have there. -/
theorem Summary.stands (h : Summary limits g f) (hp : Part g f seen missing s) : Stands limits seen missing s := by
  cases h with
  | merged _ _ _ houtline hparts => exact ⟨houtline _ _ _ hp, hparts _ _ _ hp⟩
  | single =>
    cases hp with
    | @field fields name _ hfind =>
      have hlacks : ¬Lacks {Form.record fields none} name := fun hlacks => by
        have hnone : Table.find? fields name = none := lacks_singleton.1 hlacks
        rw [hnone] at hfind
        cases hfind
      rw [fieldsSeen_singleton (c := .record fields none) hfind]
      exact .of_alone limits s _ ⟨fun h => absurd h hlacks, fun _ => rfl⟩
    | @key _ m _ hkey =>
      unfold keysSeen
      rw [Multiset.singleton_bind]
      show Stands limits (m.key.toList : Multiset Schema) False s
      rw [hkey]
      exact .alone limits s
    | @value _ m _ hvalue =>
      unfold valuesSeen
      rw [Multiset.singleton_bind]
      show Stands limits (m.value.toList : Multiset Schema) False s
      rw [hvalue]
      exact .alone limits s
    | element =>
      unfold elemsSeen
      rw [Multiset.singleton_bind]
      exact .alone limits s

/-- A shape whose parts stand for what several shapes have there sums them up. -/
theorem Summary.of_stands (hseveral : 2 ≤ g.card) (hagrees : ∀ c ∈ g, c.agrees f = true) (hsums : Sums limits g f)
    (hparts : ∀ seen missing s, Part g f seen missing s → Stands limits seen missing s) : Summary limits g f :=
  .merged hseveral hagrees hsums (fun _ _ _ hp => (hparts _ _ _ hp).outline) fun _ _ _ hp => (hparts _ _ _ hp).summary

/-! ## Fields -/

/-- A table that describes the fields of the records of a bag. -/
structure FieldsOf (limits : Limits) (g : Multiset Form) (fields : Table Schema) : Prop where
  sorted : Table.Sorted fields
  unseen : ∀ name, Table.find? fields name = none ↔ fieldsSeen g name = 0
  stands : ∀ name s, Table.find? fields name = some s → Stands limits (fieldsSeen g name) (Lacks g name) s

theorem Summary.fieldsOf {fields : Table Schema} (hg : Witnessed types g) (h : Summary limits g (.record fields none)) :
    FieldsOf limits g fields ∧ ∀ c ∈ g, c.isMap = false := by
  have hstands := fun name s (hs : Table.find? fields name = some s) => h.stands (.field hs)
  cases h with
  | single =>
    have hobserved : Table.Sorted fields ∧ _ := (hg _ (Multiset.mem_singleton_self _)).observed
    refine ⟨⟨hobserved.1, fun name => ?_, hstands⟩, fun c hc => ?_⟩
    · rw [fieldsSeen_eq_zero]
      simp [Form.fields]
    · rw [Multiset.mem_singleton.1 hc]
      rfl
  | merged _ _ hsums =>
    cases hsums with
    | record hsorted hunseen hnot =>
      refine ⟨⟨hsorted, hunseen, hstands⟩, fun c hc => ?_⟩
      exact eq_false_of_ne_true fun hmap => hnot (.inl ⟨c, hc, hmap⟩)

/-- A map sums up its bag through the keys and values seen. -/
theorem Summary.map {fields : Table Schema} {m : Mapping} (hg : Witnessed types g)
    (h : Summary limits g (.record fields (some m))) :
    fields = [] ∧ TakenAsMap limits g ∧ Fills limits (keysSeen g) m.key ∧ Fills limits (valuesSeen g) m.value := by
  have hkey := fun s (hs : m.key = some s) => h.stands (.key hs)
  have hvalue := fun s (hs : m.value = some s) => h.stands (.value hs)
  cases h with
  | single =>
    have hobserved : Table.Sorted fields ∧ _ := (hg _ (Multiset.mem_singleton_self _)).observed
    refine ⟨hobserved.2 rfl, .inl ⟨_, Multiset.mem_singleton_self _, rfl⟩, ⟨?_, hkey⟩, ⟨?_, hvalue⟩⟩
    · unfold keysSeen
      rw [Multiset.singleton_bind]
      simp [Form.keyNodes]
    · unfold valuesSeen
      rw [Multiset.singleton_bind]
      simp [Form.valueNodes]
  | merged _ _ hsums =>
    cases hsums with
    | map htaken hkeys hvalues => exact ⟨rfl, htaken, ⟨hkeys, hkey⟩, ⟨hvalues, hvalue⟩⟩

theorem Summary.elems {elems : List Schema} (h : Summary limits g (.list elems)) :
    ∃ bags, List.Forall₂ (fun bag t => Stands limits bag False t) bags elems ∧ bags.sum = elemsSeen g := by
  have hstands := fun s (hs : elems = [s]) => h.stands (hs ▸ Part.element s)
  cases h with
  | single =>
    refine ⟨elems.map (fun t => {t}), ?_, ?_⟩
    · rw [List.forall₂_map_left_iff, List.forall₂_same]
      exact fun t _ => .alone limits t
    · unfold elemsSeen
      rw [Multiset.singleton_bind]
      exact sum_singletons elems
  | merged _ _ hsums =>
    cases hsums with
    | list hlength hnil =>
      match elems, hlength with
      | [], _ => exact ⟨[], .nil, (hnil.1 rfl).symm⟩
      | [t], _ => exact ⟨[elemsSeen g], .cons (hstands t rfl) .nil, by simp⟩

theorem Summary.primitive {p : Primitive} (h : Summary limits g (.primitive p)) :
    Primitive.JoinOf (g.filterMap Form.primitive?) p := by
  cases h with
  | single =>
    rw [← Multiset.cons_zero, Multiset.filterMap_cons_some Form.primitive? (.primitive p) 0 (b := p) rfl,
      Multiset.filterMap_zero]
    exact .single p
  | merged _ _ hsums =>
    cases hsums with
    | primitive hp => exact hp

/-! ### Counting fields -/

/-- The rows of a table that a test picks are no more than so many when the names that have such a row are. -/
theorem Table.Sorted.countP_le_iff {α : Type} {fields : Table α} (hsorted : Table.Sorted fields) {p : String × α → Bool}
    {P : String → Prop} (hP : ∀ name, P name ↔ ∃ a, Table.find? fields name = some a ∧ p (name, a) = true) (k : Nat) :
    fields.countP p ≤ k ↔ ∀ names : Finset String, (∀ name ∈ names, P name) → names.card ≤ k := by
  have hnodup : ((fields.filter p).map Prod.fst).Nodup :=
    (Table.Sorted.keys_pairwise (hsorted.filter p)).imp String.ne_of_lt
  have hmem : ∀ name, name ∈ ((fields.filter p).map Prod.fst).toFinset ↔ P name := by
    intro name
    rw [List.mem_toFinset, hP]
    constructor
    · intro h
      obtain ⟨row, hrow, rfl⟩ := List.mem_map.1 h
      obtain ⟨hmem, hp⟩ := List.mem_filter.1 hrow
      exact ⟨row.2, hsorted.find?_eq hmem, hp⟩
    · rintro ⟨a, ha, hp⟩
      exact List.mem_map.2 ⟨(name, a), List.mem_filter.2 ⟨Table.mem_of_find? ha, hp⟩, rfl⟩
  have hcard : ((fields.filter p).map Prod.fst).toFinset.card = fields.countP p := by
    rw [List.toFinset_card_of_nodup hnodup, List.length_map, List.countP_eq_length_filter]
  rw [← hcard]
  constructor
  · intro hle names hnames
    exact (Finset.card_le_card fun name hname => (hmem name).2 (hnames name hname)).trans hle
  · exact fun h => h _ fun name hname => (hmem name).1 hname

/-- A record grows past the thresholds when the records of its bag together do. -/
theorem FieldsOf.exceeded_iff {fields : Table Schema} (hg : Witnessed types g) (h : FieldsOf limits g fields)
    (thresholds : MapThresholds) : thresholds.exceeded fields none = false ↔ thresholds.Within g := by
  have hseen : ∀ name, fieldsSeen g name ≠ 0 ↔ ∃ s, Table.find? fields name = some s := fun name => by
    rw [← Option.ne_none_iff_exists', Ne, Ne, h.unseen]
  have hfields := h.sorted.countP_le_iff (p := fun _ => true) (P := fun name => fieldsSeen g name ≠ 0)
    (fun name => by simpa using hseen name) thresholds.maxFields
  have hoptional := h.sorted.countP_le_iff (p := fun row => row.2.isOptional) (P := OptionalField g)
    (fun name => by
      unfold OptionalField
      rw [hseen]
      constructor
      · rintro ⟨⟨s, hs⟩, hopt⟩
        exact ⟨s, hs, ((h.stands name s hs).isOptional_iff (hg.fieldsSeen name)).2 hopt⟩
      · rintro ⟨s, hs, hopt⟩
        exact ⟨⟨s, hs⟩, ((h.stands name s hs).isOptional_iff (hg.fieldsSeen name)).1 hopt⟩) thresholds.maxOptionalFields
  have hdigit := h.sorted.countP_le_iff (p := fun row => startsWithDigit row.1)
    (P := fun name => fieldsSeen g name ≠ 0 ∧ startsWithDigit name = true)
    (fun name => by
      rw [hseen]
      exact ⟨fun ⟨⟨s, hs⟩, hd⟩ => ⟨s, hs, hd⟩, fun ⟨s, hs, hd⟩ => ⟨⟨s, hs⟩, hd⟩⟩) thresholds.maxDigitFields
  rw [List.countP_true] at hfields
  unfold MapThresholds.exceeded
  simp only [Option.isNone_none, Bool.true_and, Bool.or_eq_false_iff, decide_eq_false_iff_not, not_lt]
  rw [hfields, hoptional, hdigit]
  exact ⟨fun ⟨⟨h1, h2⟩, h3⟩ => ⟨h1, h2, h3⟩, fun h => ⟨⟨h.fields, h.optional⟩, h.digit⟩⟩

/-! ### Absorbing fields -/

/-- The fields of two records after one was absorbed into the other. -/
theorem FieldsOf.addMissing {df sf shared : Table Schema} (hg : Witnessed types g) (hg' : Witnessed types g')
    (hpos : 0 < g.card) (hpos' : 0 < g'.card) (hd : FieldsOf limits g df) (hs : FieldsOf limits g' sf)
    (h : Fields (Pools types limits) sf df shared) : FieldsOf limits (g + g') (addMissing shared sf) := by
  have hlacks : ∀ {g g' : Multiset Form} {name : String}, 0 < g'.card → fieldsSeen g' name = 0 →
      Lacks (g + g') name = True := by
    intro g g' name hpos hzero
    exact eq_true ((lacks_add g g' name).2 (.inr (lacks_of_fieldsSeen_eq_zero hpos hzero)))
  refine ⟨?_, fun name => ?_, fun name r hr => ?_⟩
  · have hshared : Table.Sorted shared := hd.sorted.of_keys h.keys
    exact hshared.foldl_insert
  · rw [find?_addMissing hs.sorted, fieldsSeen_add, add_eq_zero, ← hd.unseen, ← hs.unseen]
    cases hdf : Table.find? df name with
    | none =>
      rw [h.find?_eq_none hdf]
      cases Table.find? sf name <;> simp
    | some d =>
      obtain ⟨r, hr, -⟩ := h.find?_eq_some hdf
      simp [hr]
  · rw [find?_addMissing hs.sorted] at hr
    rw [fieldsSeen_add]
    cases hdf : Table.find? df name with
    | none =>
      rw [h.find?_eq_none hdf] at hr
      cases hsf : Table.find? sf name with
      | none => rw [hsf] at hr; cases hr
      | some s =>
        rw [hsf] at hr
        cases hr
        have hzero := (hd.unseen name).1 hdf
        rw [hzero, zero_add, add_comm g g', hlacks hpos hzero]
        exact (hs.stands name s hsf).makeOptional (hg'.fieldsSeen name)
    | some d =>
      obtain ⟨r', hr', hfield⟩ := h.find?_eq_some hdf
      rw [hr'] at hr
      cases hr
      cases hfield with
      | shared hsf hpools =>
        rw [show Lacks (g + g') name = (Lacks g name ∨ Lacks g' name) from propext (lacks_add g g' name)]
        exact .pool hpools (hg.fieldsSeen name) (hg'.fieldsSeen name) (hd.stands name d hdf) (hs.stands name _ hsf)
      | missing hsf =>
        have hzero := (hs.unseen name).1 hsf
        rw [hzero, add_zero, hlacks hpos' hzero]
        exact (hd.stands name d hdf).makeOptional (hg.fieldsSeen name)

end ApiShape

/-
A tree that absorbs another is no heavier than both together, and lighter when the two are plain and
agree. Tables have to be in order, since a key that stands twice would let one source be counted twice.
-/
import ApiShape.Proofs.Absorb.Record
import ApiShape.Proofs.Absorb.Stable
import ApiShape.Proofs.Schema.Weight

namespace ApiShape

/-- The result has its tables in order and is no heavier than both trees, when they are in order. -/
def Bounded (d s r : Schema) : Prop :=
  d.form.Everywhere Form.Ordered → s.form.Everywhere Form.Ordered →
    r.form.Everywhere Form.Ordered ∧ r.weight ≤ d.weight + s.weight ∧
      (d.agrees s → r.weight < d.weight + s.weight)

theorem Bounded.keeps {d s r : Schema} (h : Bounded d s r) : Keeps Form.Ordered d s r :=
  fun hd hs => (h hd hs).1

section

variable {limits : Limits}

/-! ## Folds -/

theorem Folds.weight_le {acc r : Schema} {l : List Schema} (h : Folds Bounded acc l r)
    (hacc : acc.form.Everywhere Form.Ordered) (hl : ∀ s ∈ l, s.form.Everywhere Form.Ordered) :
    r.weight ≤ acc.weight + totalWeight l := by
  induction h with
  | nil => exact Nat.le_refl _
  | cons hmid _ ih =>
    obtain ⟨hordered, hle, -⟩ := hmid hacc (hl _ List.mem_cons_self)
    have := ih hordered fun s hs => hl s (List.mem_cons_of_mem _ hs)
    rw [totalWeight_cons]
    omega

theorem Collects.weight_le {l : List Schema} {rep : Option Schema} (h : Collects Bounded l rep)
    (hl : ∀ s ∈ l, s.form.Everywhere Form.Ordered) : slotWeight rep ≤ totalWeight l := by
  cases h with
  | none => exact Nat.le_refl _
  | some h => exact h.weight_le (hl _ List.mem_cons_self) fun s hs => hl s (List.mem_cons_of_mem _ hs)

/-! ## Records -/

theorem weight_asMapValue {s v : Schema} (h : s.asMapValue = some v) : v.weight = s.weight := by
  unfold Schema.asMapValue at h
  split at h
  · cases h
  · rename_i inner hform
    cases h
    rw [weight_orNullable, weight_eq s, hform]
    rfl
  · cases h
    rfl

theorem totalWeight_mapValues_le (fields : Table Schema) :
    totalWeight (mapValues fields) ≤ totalWeight (Table.values fields) := by
  induction fields with
  | nil => exact Nat.le_refl _
  | cons row rest ih =>
    unfold mapValues Table.values at ih ⊢
    rw [List.filterMap_cons, List.map_cons, totalWeight_cons]
    split
    · omega
    · rename_i v hv
      rw [totalWeight_cons, weight_asMapValue hv]
      omega

/-- The values of a map weigh no more than the fields they are made of; a field that was only null weighs one. -/
theorem MapValue.weight_le {fields : Table Schema} {value : Option Schema} (h : MapValue Bounded fields value)
    (hfields : ∀ t ∈ Table.values fields, t.form.Everywhere Form.Ordered) :
    slotWeight value ≤ totalWeight (Table.values fields) := by
  cases h with
  | values h =>
    refine Nat.le_trans ?_ (totalWeight_mapValues_le fields)
    have := h.weight_le fun t ht => .of_mem_mapValues hfields ht
    simpa only [slotWeight, weight_orNullable] using this
  | null _ h =>
    obtain ⟨⟨name, s⟩, hs, habsent⟩ := List.any_eq_true.1 h
    have hweight : s.weight = 1 := by
      unfold Schema.isAbsent at habsent
      rw [weight_eq]
      split at habsent
      · rename_i hform
        rw [hform]
        rfl
      · cases habsent
    have := weight_le_totalWeight (Table.mem_values_of_mem hs)
    exact Nat.le_trans (Nat.le_of_eq hweight.symm) this
  | empty => exact Nat.zero_le _

/-- Taking a record as a map makes it no heavier. -/
theorem AsMap.weight_le {fields kept : Table Schema} {mapping : Option Mapping} {m : Mapping}
    (h : AsMap Bounded fields mapping kept m)
    (hfields : ∀ t ∈ Table.values fields, t.form.Everywhere Form.Ordered) :
    (Form.record kept (some m)).weight ≤ (Form.record fields mapping).weight := by
  cases h with
  | map => exact Nat.le_refl _
  | record h =>
    have := h.weight_le hfields
    have hkey : slotWeight (some (Schema.ofType .string)) = 1 := rfl
    simp only [weight_map, weight_record, hkey, Table.values, List.map_nil, totalWeight_nil] at this ⊢
    omega

theorem Slot.weight_le {dst src r : Option Schema} (h : Slot Bounded dst src r)
    (hd : ∀ d ∈ dst, d.form.Everywhere Form.Ordered) (hs : ∀ s ∈ src, s.form.Everywhere Form.Ordered) :
    slotWeight r ≤ slotWeight dst + slotWeight src := by
  cases h with
  | both h => exact (h (hd _ rfl) (hs _ rfl)).2.1
  | adopted => exact Nat.le_add_left _ _
  | kept => exact Nat.le_refl _

theorem Fields.congr {A : Schema → Schema → Schema → Prop} {src src' dst shared : Table Schema}
    (h : Fields A src dst shared)
    (hfind : ∀ row ∈ dst, Table.find? src' row.1 = Table.find? src row.1) : Fields A src' dst shared := by
  induction h with
  | nil => exact .nil
  | cons hfield _ ih =>
    refine .cons ?_ (ih fun row hrow => hfind row (List.mem_cons_of_mem _ hrow))
    have hfind := hfind _ List.mem_cons_self
    cases hfield with
    | shared hs h => exact .shared (hfind.trans hs) h
    | missing hs => exact .missing (hfind.trans hs)

theorem find?_erase_of_ne {t : Table Schema} {k k' : String} (h : k' ≠ k) :
    Table.find? (Table.erase t k) k' = Table.find? t k' := by
  unfold Table.erase
  rw [Table.find?_filter (fun name => decide (name ≠ k))]
  exact if_pos (by simpa using h)

/-- Every field of the source goes into one field of the destination at most, and is new otherwise. -/
theorem Fields.weight_le {src dst shared : Table Schema} (h : Fields Bounded src dst shared)
    (hsorted : Table.Sorted dst) (hd : ∀ t ∈ Table.values dst, t.form.Everywhere Form.Ordered)
    (hs : ∀ t ∈ Table.values src, t.form.Everywhere Form.Ordered) :
    totalWeight (Table.values shared) +
        totalWeight (Table.values (src.filter (fun row => !Table.contains dst row.1))) ≤
      totalWeight (Table.values dst) + totalWeight (Table.values src) := by
  induction dst generalizing src shared with
  | nil =>
    cases h
    have := totalWeight_filter (fun row => !Table.contains ([] : Table Schema) row.1) src
    omega
  | cons row rest ih =>
    obtain ⟨name, d⟩ := row
    cases h with
    | cons hfield hrest =>
    rename_i r rest'
    have hnew : ∀ row ∈ rest, row.1 ≠ name := fun row hrow =>
      Ne.symm (String.ne_of_lt (List.rel_of_pairwise_cons hsorted hrow))
    have hsource : ∀ t ∈ Table.values (Table.erase src name), t.form.Everywhere Form.Ordered :=
      fun t ht => hs t (Catalogue.mem_values_erase ht)
    have hfilter : (Table.erase src name).filter (fun row => !Table.contains rest row.1) =
        src.filter (fun row => !Table.contains ((name, d) :: rest) row.1) := by
      unfold Table.erase
      rw [List.filter_filter]
      refine List.filter_congr fun row _ => ?_
      unfold Table.contains
      rw [Table.find?]
      by_cases hname : name = row.1
      · simp [hname]
      · simp [hname, Ne.symm hname]
    -- the row of `name` is taken out of the source, as no later field uses it
    have hrest := ih (hrest.congr fun row hrow => find?_erase_of_ne (hnew row hrow))
      (List.Pairwise.of_cons hsorted) (fun t ht => hd t (List.mem_cons_of_mem _ ht)) hsource
    rw [hfilter] at hrest
    -- one field: it takes in the row of its name, or weighs what it did
    have hfield : r.weight + totalWeight (Table.values (Table.erase src name)) ≤
        d.weight + totalWeight (Table.values src) := by
      cases hfield with
      | shared hfind h =>
        have hs := hs _ (Table.mem_values_of_mem (Table.mem_of_find? hfind))
        have := (h (hd d List.mem_cons_self) hs).2.1
        have := totalWeight_erase_of_find? hfind
        omega
      | missing =>
        have := totalWeight_filter (fun row => decide (row.1 ≠ name)) src
        rw [weight_makeOptional]
        unfold Table.erase
        omega
    simp only [Table.values, List.map_cons, totalWeight_cons] at hrest hfield ⊢
    omega

/-- The fields of both records together weigh no more than the records did. -/
theorem totalWeight_addMissing_le {src dst shared : Table Schema} (h : Fields Bounded src dst shared)
    (hsorted : Table.Sorted dst) (hd : ∀ t ∈ Table.values dst, t.form.Everywhere Form.Ordered)
    (hs : ∀ t ∈ Table.values src, t.form.Everywhere Form.Ordered) :
    totalWeight (Table.values (addMissing shared src)) ≤
      totalWeight (Table.values dst) + totalWeight (Table.values src) := by
  have hshared := h.weight_le hsorted hd hs
  have hmissing := totalWeight_foldl_insert_le weight_makeOptional
    (src.filter (fun row => !Table.contains shared row.1)) shared
  have hcontains : ∀ name, Table.contains shared name = Table.contains dst name := fun name => by
    unfold Table.contains
    cases hfind : Table.find? dst name with
    | none => rw [h.find?_eq_none hfind]
    | some d =>
      obtain ⟨r, hr, -⟩ := h.find?_eq_some hfind
      rw [hr]
      rfl
  simp only [hcontains] at hmissing
  unfold addMissing
  simp only [hcontains]
  omega

/-- Two records become one, which saves the weight of a record. -/
theorem RecordStep.weight_lt {df sf : Table Schema} {dm sm : Option Mapping} {form : Form}
    (h : RecordStep Bounded limits df dm sf sm form)
    (hd : (Form.record df dm).Everywhere Form.Ordered) (hs : (Form.record sf sm).Everywhere Form.Ordered) :
    form.weight < (Form.record df dm).weight + (Form.record sf sm).weight := by
  obtain ⟨hsorted, hdf, -⟩ := Form.everywhere_record.1 hd
  obtain ⟨-, hsf, -⟩ := Form.everywhere_record.1 hs
  cases h with
  | maps _ hdm hsm hkey hvalue =>
    have hdw := hdm.weight_le hdf
    have hsw := hsm.weight_le hsf
    have hkeeps : ∀ d s r, Bounded d s r → Keeps Form.Ordered d s r := fun _ _ _ => Bounded.keeps
    have hdm := Form.everywhere_record.1 ((hdm.mono hkeeps).everywhere (stable_ordered limits).toClosed hd)
    have hsm := Form.everywhere_record.1 ((hsm.mono hkeeps).everywhere (stable_ordered limits).toClosed hs)
    have hkey := hkey.weight_le (fun d hd => hdm.2.2 _ rfl d (Mapping.mem_slots.2 (.inl hd)))
      fun s hs => hsm.2.2 _ rfl s (Mapping.mem_slots.2 (.inl hs))
    have hvalue := hvalue.weight_le (fun d hd => hdm.2.2 _ rfl d (Mapping.mem_slots.2 (.inr hd)))
      fun s hs => hsm.2.2 _ rfl s (Mapping.mem_slots.2 (.inr hs))
    simp only [weight_map] at hdw hsw ⊢
    omega
  | fields hdm hsm hfields _ =>
    subst hdm hsm
    have := totalWeight_addMissing_le hfields hsorted hdf hsf
    simp only [weight_record]
    omega
  | grown hdm hsm hfields _ hvalue =>
    subst hdm hsm
    have hkeeps : ∀ d s r, Bounded d s r → Keeps Form.Ordered d s r := fun _ _ _ => Bounded.keeps
    have hadded := totalWeight_addMissing_le hfields hsorted hdf hsf
    have hshared := (hfields.mono hkeeps).everywhere (stable_ordered limits).toClosed hdf hsf
    have := hvalue.weight_le ((stable_ordered limits).addMissing hshared hsf)
    -- the key of the new mapping takes the place of the missing one
    have hkey : slotWeight (some (Schema.ofType .string)) = 1 := rfl
    simp only [weight_map, weight_record, hkey, Table.values, List.map_nil, totalWeight_nil] at *
    omega

/-! ## Alternatives -/

theorem Gathers.weight_le (limits : Limits) {acc r : Schema} {options rest : Catalogue}
    (h : Gathers Bounded acc options r rest) (hacc : acc.form.Everywhere Form.Ordered) (hoptions : (Form.oneOf options true).Everywhere Form.Ordered) :
    r.weight + totalWeight (Table.values rest) ≤ acc.weight + totalWeight (Table.values options) := by
  induction h with
  | done => exact Nat.le_refl _
  | @round acc mid r options rest _ hfolds _ ih =>
    have hmid := hfolds.weight_le hacc hoptions.taken
    have hkeeps := hfolds.mono fun _ _ _ => Bounded.keeps
    have := ih (hkeeps.everywhere hacc hoptions.taken) ((stable_ordered limits).left _ hoptions)
    have := Catalogue.totalWeight_take (fun o => o.joinable acc) options
    omega

/-- What a variant becomes weighs no more than the variant and the options it has taken in. -/
theorem Joins.weight_le (limits : Limits) {options rest : Catalogue} {variant merged : Schema}
    (h : Joins Bounded options variant merged rest) (hv : variant.form.Everywhere Form.Ordered)
    (hoptions : (Form.oneOf options true).Everywhere Form.Ordered) :
    merged.weight + totalWeight (Table.values rest) ≤ variant.weight + totalWeight (Table.values options) := by
  have hsame : ∀ p : Schema → Bool, ∀ t ∈ (Catalogue.take p options).1 ++ [variant],
      t.form.Everywhere Form.Ordered := by
    intro p t ht
    rcases List.mem_append.1 ht with ht | ht
    · exact hoptions.taken t ht
    · rwa [List.mem_singleton.1 ht]
  have hcollect : ∀ p : Schema → Bool, Collects Bounded ((Catalogue.take p options).1 ++ [variant]) (some merged) →
      merged.weight + totalWeight (Table.values (Catalogue.take p options).2) ≤
        variant.weight + totalWeight (Table.values options) := by
    intro p h
    have := h.weight_le (hsame p)
    have := Catalogue.totalWeight_take p options
    simp only [slotWeight, totalWeight_append, totalWeight_cons, totalWeight_nil] at *
    omega
  cases h with
  | record _ h => exact hcollect _ h
  | list _ h => exact hcollect _ h
  | primitive _ h => exact h.weight_le limits hv hoptions

theorem weight_withOptions_le (dst : Schema) (options : Catalogue) (conflict : Bool) :
    (dst.withOptions options conflict).weight ≤ totalWeight (Table.values options) := by
  unfold Schema.withOptions
  split
  · rename_i key sole
    have hsole : totalWeight (Table.values [(key, sole)]) = sole.weight := by
      simp only [Table.values, List.map_cons, List.map_nil, totalWeight_cons, totalWeight_nil, Nat.add_zero]
    exact Nat.le_of_eq (by rw [hsole, weight_eq, ← weight_eq sole])
  · exact Nat.le_of_eq (by rw [weight_eq, weight_oneOf])

theorem weight_conflict_le (d s : Schema) : (d.conflict s).weight ≤ d.weight + s.weight := by
  have hfirst := Catalogue.totalWeight_insert_le (s := d.bare) Table.Sorted.nil
  have hsecond := Catalogue.totalWeight_insert_le (s := s.bare) (Catalogue.sorted_insert (s := d.bare) Table.Sorted.nil)
  rw [weight_eq, Schema.form_conflict, weight_oneOf]
  simp only [weight_bare, Table.values, List.map_nil, totalWeight_nil] at *
  omega

/-! ## Steps -/

/-- Nodes that agree become one node and lose weight; all other cases move what is there. -/
theorem PlainStep.weight_le {dst src r : Schema} (h : PlainStep Bounded limits dst src r)
    (hd : dst.form.Everywhere Form.Ordered) (hs : src.form.Everywhere Form.Ordered) :
    r.weight ≤ dst.weight + src.weight ∧ (dst.agrees src → r.weight < dst.weight + src.weight) := by
  rw [weight_eq dst, weight_eq src]
  cases h with
  | record hdf hsf h =>
    rw [hdf] at hd ⊢
    rw [hsf] at hs ⊢
    have := h.weight_lt hd hs
    rw [weight_mergeExamples, weight_eq]
    exact ⟨Nat.le_of_lt this, fun _ => this⟩
  | list hdf hsf h =>
    rw [hdf] at hd ⊢
    rw [hsf] at hs ⊢
    rename_i rep
    have hrep := h.weight_le fun s hmem => by
      rcases List.mem_append.1 hmem with hmem | hmem
      · exact (Form.everywhere_list.1 hd).2 s hmem
      · exact (Form.everywhere_list.1 hs).2 s hmem
    have hslot : totalWeight rep.toList = slotWeight rep := by
      cases rep <;> rfl
    rw [weight_mergeExamples, weight_eq]
    simp only [weight_list, totalWeight_append, hslot] at hrep ⊢
    omega
  | primitive hdf hsf =>
    rw [weight_mergeExamples, weight_eq, hdf, hsf]
    simp [Form.weight]
  | conflict _ hne =>
    have := weight_conflict_le dst src
    rw [← weight_eq, ← weight_eq]
    exact ⟨this, fun h => absurd h (by rw [hne]; nofun)⟩
  | inner hdf _ h =>
    rename_i inner r _
    rw [hdf] at hd ⊢
    have := (h (Form.everywhere_optional.1 hd).2 hs).2.1
    have hr : (Form.optional { r with nullable := false }).weight = r.weight := (weight_eq r).symm
    have hinner : (Form.optional inner).weight = inner.weight := rfl
    rw [weight_eq src] at this
    refine ⟨by rw [weight_eq, hr, hinner]; exact this, fun h => ?_⟩
    unfold Schema.agrees Form.agrees at h
    rw [hdf] at h
    cases h
  | absent hdf =>
    have hr : (Form.optional src).weight = src.weight := rfl
    refine ⟨by rw [weight_eq, hr, weight_eq]; exact Nat.le_add_left _ _, fun h => ?_⟩
    unfold Schema.agrees Form.agrees at h
    rw [hdf] at h
    cases h
  | option hdf h =>
    rename_i options rest conflict merged
    rw [hdf] at hd ⊢
    obtain ⟨hroot, hoptions⟩ := Form.everywhere_oneOf.1 hd
    have hoptions : (Form.oneOf options true).Everywhere Form.Ordered :=
      Form.everywhere_oneOf.2 ⟨(stable_ordered limits).flag hroot, hoptions⟩
    have hjoins := h.weight_le limits hs hoptions
    have hrest := ((h.mono fun _ _ _ => Bounded.keeps).everywhere (stable_ordered limits).toClosed hs hoptions).2
    have hinsert := Catalogue.totalWeight_insert_le (s := merged) hrest.root
    have hresult := weight_withOptions_le (dst.orNullable src.nullable) (Catalogue.insert rest merged) conflict
    rw [weight_bare, weight_eq src] at hjoins
    refine ⟨by rw [weight_oneOf]; omega, fun h => ?_⟩
    unfold Schema.agrees Form.agrees at h
    rw [hdf] at h
    cases h

theorem agrees_eq_false_of_not_plain {d s : Schema} (hs : s.isPlain = false) : d.agrees s = false := by
  unfold Schema.isPlain Form.isPlain at hs
  unfold Schema.agrees Form.agrees
  cases hform : s.form with
  | primitive | record | list => rw [hform] at hs; cases hs
  | absent | optional | oneOf => cases d.form <;> rfl

/-- A step whose calls make nothing heavier makes nothing heavier. -/
theorem Step.bounded {dst src r : Schema} (h : Step Bounded limits dst src r) : Bounded dst src r := by
  intro hd hs
  refine ⟨(h.mono fun _ _ _ => Bounded.keeps).everywhere (stable_ordered limits) hd hs, ?_⟩
  induction h with
  | @optional dst src inner r hsf _ ih =>
    rw [hsf] at hs
    have := (ih hd (Form.everywhere_optional.1 hs).2).1
    have hinner : src.weight = inner.weight := by rw [weight_eq, hsf]; rfl
    refine ⟨by simpa [hinner] using this, fun h => ?_⟩
    rw [agrees_eq_false_of_not_plain (by unfold Schema.isPlain Form.isPlain; rw [hsf])] at h
    cases h
  | @absent dst src hsf =>
    refine ⟨by rw [weight_mergeExamples, weight_orNullable]; exact Nat.le_add_right _ _, fun h => ?_⟩
    rw [agrees_eq_false_of_not_plain (by unfold Schema.isPlain Form.isPlain; rw [hsf])] at h
    cases h
  | @swap dst src r options conflict hsf _ h =>
    rw [hsf] at hs
    have := (h hs hd).2.1
    have this : r.weight ≤ (Form.oneOf options conflict).weight + dst.bare.weight := this
    rw [← hsf, ← weight_eq, weight_bare] at this
    refine ⟨by omega, fun h => ?_⟩
    rw [agrees_eq_false_of_not_plain (by unfold Schema.isPlain Form.isPlain; rw [hsf])] at h
    cases h
  | @alternatives dst src r options srcOptions conflict srcConflict hsf hdf _ h =>
    rw [hdf] at hd
    rw [hsf] at hs
    obtain ⟨hroot, hoptions⟩ := Form.everywhere_oneOf.1 hd
    have := h.weight_le (Form.everywhere_oneOf.2 ⟨(stable_ordered limits).flag hroot, hoptions⟩)
      (Form.everywhere_oneOf.1 hs).2
    have this : r.weight ≤ (Form.oneOf options conflict).weight + totalWeight (Table.values srcOptions) := this
    rw [← hdf, ← weight_eq] at this
    refine ⟨by rw [weight_eq src, hsf, weight_oneOf]; exact this, fun h => ?_⟩
    rw [agrees_eq_false_of_not_plain (by unfold Schema.isPlain Form.isPlain; rw [hsf])] at h
    cases h
  | plain _ h =>
    have := h.weight_le hd hs
    rwa [weight_orNullable, weight_bare] at this

theorem bounded_of_absorbWithin {depth : Nat} {dst src r : Schema}
    (h : absorbWithin limits depth dst src = .ok r) : Bounded dst src r := by
  induction depth generalizing dst src r with
  | zero => cases h
  | succ depth ih =>
    have hstep : Step Bounded limits dst src r := step_of_ok src h fun d s r _ hr => ih hr
    exact hstep.bounded

end

end ApiShape

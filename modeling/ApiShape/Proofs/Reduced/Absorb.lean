/-
A reduced tree absorbs itself without a change but for examples. Every pair that the step calls is a
pair of one node again, except where an optional layer and alternatives change sides; alternatives
take each of their own options in again, one after the other.
-/
import ApiShape.Proofs.Reduced.Basic
import ApiShape.Proofs.WellFormed.Absorb

namespace ApiShape

/-! ## Primitives -/

theorem Scalar.same_self {s : Scalar} (h : s.isNaN = false) : s.same s = true := by
  cases s <;> first | exact Binary.same_self h | simp [Scalar.same]

/-- A reduced primitive covers itself. -/
theorem Primitive.Reduced.covers_self {p : Primitive} (h : p.Reduced) : p.Covers p where
  type := .refl _
  value := .inr ⟨p.value, Scalar.widen_self _, Scalar.same_self h.value⟩
  formats := by
    unfold Primitive.CoversFormats
    split
    · exact h.formats ‹_›
    · exact ⟨rfl, List.Subset.refl _⟩
  hint := id

/-- A reduced primitive is its own join. -/
theorem Primitive.Reduced.join_self {p : Primitive} (h : p.Reduced) (hl : p.formats.Pairwise (· < ·)) :
    p.join p = some p :=
  (Primitive.join_eq_self_iff hl).2 h.covers_self

/-! ## Taking an option out and putting it back -/

section

variable {options : Catalogue} {o : Schema} {p : Schema → Bool}

theorem Table.Sorted.insert_erase {α : Type} {t : Table α} {k : String} {a : α} (h : Table.Sorted t)
    (hfind : Table.find? t k = some a) : Table.insert (Table.erase t k) k a = t := by
  have herase : Table.Sorted (Table.erase t k) := h.filter _
  have hidem : Table.erase (Table.erase t k) k = Table.erase t k :=
    Table.erase_eq_self fun row hrow => by simpa using (List.mem_filter.1 hrow).2
  have hperm : (Table.insert (Table.erase t k) k a).Perm t := by
    refine (herase.insert_perm k a).trans ?_
    rw [hidem]
    exact (h.perm_of_find? hfind).symm
  exact hperm.eq_of_pairwise (fun r r' _ _ hlt hlt' => absurd hlt' (String.lt_asymm hlt)) herase.insert h

theorem Catalogue.insert_erase_of_mem (hf : options.Fresh) (ho : o ∈ Table.values options) :
    Catalogue.insert (Table.erase options o.address) o = options := by
  obtain ⟨key, hrow⟩ := Table.mem_values.1 ho
  have hkey : key = o.address := hf.2 _ hrow
  subst hkey
  have hnone : Table.find? (Table.erase options o.address) o.address = none :=
    Table.find?_eq_none.2 fun a ha => by simpa using (List.mem_filter.1 ha).2
  rw [Catalogue.insert_of_new hnone, hf.1.insert_erase (hf.1.find?_eq hrow)]

/-- A property of one option and of none that it stands apart from takes out this option. -/
theorem Catalogue.take_of_agrees (hr : options.Exclusive) (hf : options.Fresh) (ho : o ∈ Table.values options)
    (hp : p o = true) (hagrees : ∀ t, p t = true → o.agrees t = true) :
    Catalogue.take p options = ([o], Table.erase options o.address) := by
  obtain ⟨key, hrow⟩ := Table.mem_values.1 ho
  have hkey : key = o.address := hf.2 _ hrow
  subst hkey
  have hperm := hf.1.perm_of_find? (hf.1.find?_eq hrow)
  have hapart : ∀ t ∈ Table.values (Table.erase options o.address), p t = false := by
    intro t ht
    have hpairs := (List.Perm.pairwise_iff (fun h => by rwa [agrees_comm]) (hperm.map Prod.snd)).1 hr.apart
    rw [List.map_cons, List.pairwise_cons] at hpairs
    refine eq_false_of_ne_true fun hpt => ?_
    have happart : o.agrees t = false := hpairs.1 t ht
    rw [hagrees t hpt] at happart
    cases happart
  have hrowp : ∀ row ∈ options, (!p row.2) = decide (row.1 ≠ o.address) := by
    intro row hrow'
    by_cases hkey : row.1 = o.address
    · have hfind := hf.1.find?_eq (k := row.1) (a := row.2) hrow'
      rw [hkey, hf.1.find?_eq hrow] at hfind
      cases hfind
      simp [hkey, hp]
    · have hleft : row ∈ Table.erase options o.address := List.mem_filter.2 ⟨hrow', by simpa using hkey⟩
      simp [hkey, hapart row.2 (Table.mem_values_of_mem hleft)]
  have htaken : (options.filter (fun row => p row.2)) = [(o.address, o)] := by
    refine List.perm_singleton.1 ((hperm.filter _).trans ?_)
    rw [List.filter_cons_of_pos (by simpa using hp), List.filter_eq_nil_iff.2]
    intro row hrow'
    simpa using hapart row.2 (Table.mem_values_of_mem hrow')
  unfold Catalogue.take
  rw [htaken, List.filter_congr hrowp]
  rfl

end

/-! ## Alternatives -/

section

variable {limits : Limits} {options : Catalogue} {conflict : Bool} {o X : Schema}

/-- An option that absorbs itself without a change is joined with itself alone. -/
theorem joinOption_self {absorb : Absorber} (hr : options.Reduced) (ho : o ∈ Table.values options)
    (hself : absorb o o = .ok o) :
    joinOption absorb options o = .ok (o, Table.erase options o.address) := by
  have hplain := hr.exclusive.plain o ho
  have htake := fun p => Catalogue.take_of_agrees (p := p) hr.exclusive hr.fresh ho
  unfold joinOption
  split
  · rename_i hform
    have hrecord : o.isRecord = true := by simp [Schema.isRecord, hform]
    rw [htake Schema.isRecord hrecord fun t ht => Schema.agrees_of_isRecord hrecord ht]
    show ((([] ++ [o]).foldlM absorb o).map _) = _
    rw [List.nil_append, List.foldlM_cons, hself]
    rfl
  · rename_i hform
    have hlist : o.isList = true := by simp [Schema.isList, hform]
    rw [htake Schema.isList hlist fun t ht => Schema.agrees_of_isList hlist ht]
    show ((([] ++ [o]).foldlM absorb o).map _) = _
    rw [List.nil_append, List.foldlM_cons, hself]
    rfl
  · rename_i hrecord hlist
    obtain ⟨p, hform⟩ := isPrimitive_of_isPlain hplain hrecord hlist
    have hjoin : o.joinable o = true := by
      unfold Schema.joinable
      rw [hform]
      exact p.joinable_self
    have htaken := htake (fun option => option.joinable o) hjoin fun t ht => Schema.agrees_of_joinable ht
    obtain ⟨rounds, hrounds⟩ : ∃ n, options.length = n + 1 := by
      refine Nat.exists_eq_succ_of_ne_zero fun hzero => ?_
      rw [List.length_eq_zero_iff.1 hzero] at ho
      cases ho
    have hleft : (Catalogue.take (fun option => option.joinable o) (Table.erase options o.address)).1 = [] := by
      rw [List.eq_nil_iff_forall_not_mem]
      intro t ht
      obtain ⟨hmem, hjoin⟩ := Catalogue.mem_taken.1 ht
      have hmem : t ∈ Table.values (Catalogue.take (fun option => option.joinable o) options).2 := by
        rw [htaken]
        exact hmem
      rw [(Catalogue.mem_values_left.1 hmem).2] at hjoin
      cases hjoin
    rw [hrounds]
    unfold gather
    rw [htaken]
    show ([o].foldlM absorb o >>= _) = _
    rw [List.foldlM_cons, hself]
    show gather absorb rounds o (Table.erase options o.address) = _
    unfold gather
    generalize Catalogue.take (fun option => option.joinable o) (Table.erase options o.address) = left at hleft
    obtain ⟨taken, rest⟩ := left
    cases hleft
    rfl

/-- Alternatives that stand apart take one of their options in without a change. -/
theorem absorb_option_self (hr : options.Reduced) (hX : X.form = .oneOf options conflict)
    (hXo : X.form.Everywhere Form.Ordered) (ho : o ∈ Table.values options) (hself : absorb limits o o = .ok o) :
    absorb limits X o = .ok X := by
  have hoo : o.form.Everywhere Form.Ordered := by
    rw [hX] at hXo
    exact (Form.everywhere_oneOf.1 hXo).2 o ho
  have hbare := hr.bare o ho
  have hnull : ∀ s : Schema, s.orNullable o.nullable = s := fun s =>
    Schema.orNullable_of_eq fun h => by rw [hbare.nullable] at h; cases h
  rw [absorb_eq_step hXo hoo, absorbStep_of_option (hr.exclusive.plain o ho) hX
    (by rw [hbare.bare_eq]; exact joinOption_self hr ho hself), hnull,
    Catalogue.insert_erase_of_mem hr.fresh ho]
  congr 1
  unfold Schema.withOptions
  split
  · rename_i key sole
    exact absurd rfl hr.length
  · refine Schema.ext_fields hX.symm ?_ rfl rfl
    simp

theorem foldlM_options_self (hr : options.Reduced) (hX : X.form = .oneOf options conflict)
    (hXo : X.form.Everywhere Form.Ordered) (hself : ∀ o ∈ Table.values options, absorb limits o o = .ok o) :
    (Table.values options).foldlM (absorb limits) X = .ok X := by
  have hstep : ∀ o ∈ Table.values options, absorb limits X o = .ok X := fun o ho =>
    absorb_option_self hr hX hXo ho (hself o ho)
  generalize Table.values options = l at hstep
  induction l with
  | nil => rfl
  | cons o rest ih =>
    rw [List.foldlM_cons, hstep o List.mem_cons_self]
    exact ih fun t ht => hstep t (List.mem_cons_of_mem _ ht)

end

/-! ## Records and lists -/

section

variable {limits : Limits} {absorb : Absorber}

theorem absorbShared_self {fields : Table Schema} {src : Table Schema} (hs : Table.Sorted src)
    (hsub : ∀ row ∈ fields, row ∈ src) (hself : ∀ s ∈ Table.values fields, absorb s s = .ok s) :
    absorbShared absorb src fields = .ok fields := by
  induction fields with
  | nil => rfl
  | cons row rest ih =>
    obtain ⟨name, d⟩ := row
    unfold absorbShared absorbField
    rw [hs.find?_eq (hsub (name, d) List.mem_cons_self)]
    dsimp only
    rw [hself d List.mem_cons_self, ih (fun row hrow => hsub row (List.mem_cons_of_mem _ hrow))
      fun s hs => hself s (List.mem_cons_of_mem _ hs)]
    rfl

theorem addMissing_of_sub {dst src : Table Schema} (h : ∀ row ∈ src, Table.contains dst row.1 = true) :
    addMissing dst src = dst := by
  unfold addMissing
  rw [List.filter_eq_nil_iff.2 fun row hrow => by simpa using h row hrow]
  rfl

theorem absorbSlot_self {slot : Option Schema} (hself : ∀ s ∈ slot, absorb s s = .ok s) :
    absorbSlot absorb slot slot = .ok slot := by
  cases slot with
  | none => rfl
  | some s =>
    show (absorb s s).map some = _
    rw [hself s rfl]
    rfl

/-- A record below the thresholds, or a map, whose members absorb themselves without a change. -/
theorem absorbRecord_self {fields : Table Schema} {mapping : Option Mapping} (hs : Table.Sorted fields)
    (hexceeded : limits.mapInference.exceeded fields mapping = false)
    (hself : ∀ s ∈ (Form.record fields mapping).children, absorb s s = .ok s) :
    absorbRecord limits absorb fields mapping fields mapping = .ok (.record fields mapping) := by
  unfold absorbRecord
  cases mapping with
  | none =>
    have hshared : absorbShared absorb fields fields = .ok fields :=
      absorbShared_self hs (fun row hrow => hrow) fun s hs => hself s (List.mem_append_left _ hs)
    have hmissing : addMissing fields fields = fields := addMissing_of_sub fun row hrow => by
      unfold Table.contains
      rw [hs.find?_eq (k := row.1) (a := row.2) hrow]
      rfl
    rw [if_neg (by simp)]
    unfold absorbRecordFields
    rw [hshared]
    show (if limits.mapInference.exceeded (addMissing fields fields) none then _ else _) = _
    rw [hmissing, hexceeded]
    rfl
  | some m =>
    obtain ⟨key, value⟩ := m
    have hslot : ∀ slot, (∀ s ∈ slot, s ∈ Mapping.slots ⟨key, value⟩) → absorbSlot absorb slot slot = .ok slot := fun slot hsub =>
      absorbSlot_self fun s hs => hself s (List.mem_append_right _ (hsub s hs))
    have hkey := hslot key fun s hs => Mapping.mem_slots.2 (.inl hs)
    have hvalue := hslot value fun s hs => Mapping.mem_slots.2 (.inr hs)
    have hmapping : absorbMapping absorb ⟨key, value⟩ ⟨key, value⟩ = .ok ⟨key, value⟩ :=
      bind_eq_ok.2 ⟨key, mapError_eq_ok.2 hkey, bind_eq_ok.2 ⟨value, mapError_eq_ok.2 hvalue, rfl⟩⟩
    rw [if_pos (by simp)]
    exact bind_eq_ok.2 ⟨_, rfl, bind_eq_ok.2 ⟨_, rfl, bind_eq_ok.2 ⟨_, hmapping, rfl⟩⟩⟩

theorem absorbElems_self {elems : List Schema} (hle : elems.length ≤ 1) (hself : ∀ s ∈ elems, absorb s s = .ok s) :
    absorbElems absorb elems elems = .ok elems := by
  rcases elems with _ | ⟨s, _ | ⟨t, rest⟩⟩
  · rfl
  · have hagain : absorbElem absorb (some s) (s, 0) = .ok (some s) :=
      mapError_eq_ok.2 (map_eq_ok.2 ⟨s, hself s List.mem_cons_self, rfl⟩)
    exact bind_eq_ok.2 ⟨some s, rfl, bind_eq_ok.2 ⟨some s, bind_eq_ok.2 ⟨some s, hagain, rfl⟩, rfl⟩⟩
  · simp at hle

end

/-! ## Reduced trees -/

section

variable {limits : Limits} {T : Schema}

/-- Alternatives that stand apart take all of their own options in again without a change. -/
theorem absorbAlternatives_self {options : Catalogue} {conflict : Bool} {X : Schema} (hr : options.Reduced)
    (hX : X.form = .oneOf options conflict) (hXo : X.form.Everywhere Form.Ordered)
    (hself : ∀ o ∈ Table.values options, absorb limits o o = .ok o) :
    absorbAlternatives (absorb limits) X options conflict options conflict = .ok X := by
  have hplain : ∀ o ∈ Table.values options, o.checkOption = .ok () := fun o ho =>
    checkOption_eq_ok.2 (hr.exclusive.plain o ho)
  have hflag : { X with form := .oneOf options (conflict || conflict) } = X :=
    Schema.ext_fields ((congrArg (Form.oneOf options) (Bool.or_self conflict)).trans hX.symm) rfl rfl rfl
  unfold absorbAlternatives
  rw [hflag]
  exact bind_eq_ok.2 ⟨(), forM_eq_ok.2 hplain, foldlM_options_self hr hX hXo hself⟩

/-- An optional node takes in what it holds. Alternatives inside change places with the node first, and
the optional layer comes back around them. -/
theorem absorbStep_inner_self {inner : Schema} (hT : T.form = .optional inner) (hTe : T.examples = [])
    (hr : (Form.optional inner).Reduced limits.mapInference) (he : inner.examples = [])
    (hreduced : inner.form.Reduced limits.mapInference) (ho : inner.form.Everywhere Form.Ordered)
    (hself : absorb limits inner inner = .ok inner) (hchild : ∀ t ∈ inner.children, absorb limits t t = .ok t) :
    absorbStep limits (absorb limits) T inner = .ok T := by
  obtain ⟨hopt, hbare⟩ := hr
  have hnull : ∀ s : Schema, s.orNullable inner.nullable = s := fun s =>
    Schema.orNullable_of_eq fun h => by rw [hbare.nullable] at h; cases h
  by_cases hplain : inner.isPlain = true
  · rw [absorbStep_of_isPlain hplain, hnull, hbare.bare_eq]
    unfold absorbPlain
    rw [hT]
    dsimp only
    rw [if_neg (by simp [hopt]), hself]
    show Except.ok _ = Except.ok _
    rw [hnull]
    refine congrArg Except.ok (Schema.ext_fields (hT.trans (congrArg Form.optional ?_)).symm rfl rfl rfl)
    rw [← hbare.bare_eq]
    rfl
  · obtain ⟨form, nullable, metadata, examples⟩ := inner
    obtain ⟨rfl, rfl⟩ := hbare
    cases he
    cases form with
    | primitive | record | list => exact absurd rfl hplain
    | absent | optional => cases hopt
    | oneOf options conflict =>
      obtain ⟨form, nullable, metadata, examples⟩ := T
      cases hT
      cases hTe
      have hswapped : absorb limits ⟨.oneOf options conflict, nullable, metadata, []⟩
          ⟨.optional ⟨.oneOf options conflict, false, none, []⟩, false, none, []⟩ =
            .ok ⟨.optional ⟨.oneOf options conflict, false, none, []⟩, nullable, metadata, []⟩ := by
        have hdst : (⟨.oneOf options conflict, nullable, metadata, []⟩ : Schema).form.Everywhere Form.Ordered := ho
        rw [absorb_eq_step hdst (Form.everywhere_optional.2 ⟨trivial, ho⟩)]
        refine bind_eq_ok.2 ⟨⟨.oneOf options conflict, nullable, metadata, []⟩, ?_, rfl⟩
        cases nullable <;> exact absorbAlternatives_self hreduced rfl ho hchild
      cases nullable <;> exact hswapped

/-- A reduced tree without examples absorbs itself if the nodes one and two levels below it do. -/
theorem absorb_self_of_children (hr : T.Reduced limits.mapInference) (ho : T.Ordered) (hl : T.Labelled)
    (he : T.Exampleless) (hself : ∀ t ∈ T.children, absorb limits t t = .ok t)
    (hbelow : ∀ t ∈ T.children, ∀ u ∈ t.children, absorb limits u u = .ok u) : absorb limits T T = .ok T := by
  have hTo := Schema.throughout_iff_everywhere.1 ho
  rw [absorb_eq_step hTo hTo]
  have hreduced := hr.root
  have hordered := ho.root
  have hlabelled := hl.root
  have hexamples := he.root
  obtain ⟨form, nullable, metadata, examples⟩ := T
  cases hexamples
  have hnull : ∀ s : Schema, s.nullable = nullable → (s.orNullable nullable) = s := fun s hs =>
    Schema.orNullable_of_eq fun h => hs.trans h
  have hchildOrdered := ho.child
  have hchildReduced := hr.child
  have hchildExampleless := he.child
  unfold Schema.children at hself hbelow hchildOrdered hchildReduced hchildExampleless
  cases form with
  | primitive p =>
    rw [absorbStep_of_isPlain rfl]
    dsimp only
    rw [hnull _ rfl]
    unfold absorbPlain
    dsimp only [Schema.form_bare]
    rw [Primitive.Reduced.join_self hreduced.1 hlabelled]
    exact congrArg Except.ok (Schema.mergeExamples_nil rfl)
  | record fields mapping =>
    rw [absorbStep_of_isPlain rfl]
    dsimp only
    rw [hnull _ rfl]
    exact bind_eq_ok.2 ⟨_, absorbRecord_self hordered hreduced.1 hself,
      congrArg Except.ok (Schema.mergeExamples_nil rfl)⟩
  | list elems =>
    rw [absorbStep_of_isPlain rfl]
    dsimp only
    rw [hnull _ rfl]
    exact bind_eq_ok.2 ⟨_, absorbElems_self hreduced.1 hself, congrArg Except.ok (Schema.mergeExamples_nil rfl)⟩
  | absent =>
    have hnullable : nullable = true := hreduced.2 rfl
    subst hnullable
    rfl
  | optional inner =>
    have hmem : inner ∈ (Form.optional inner).children := List.mem_singleton.2 rfl
    refine bind_eq_ok.2 ⟨⟨.optional inner, nullable, metadata, []⟩, ?_, rfl⟩
    rw [hnull _ rfl]
    exact absorbStep_inner_self rfl rfl hreduced.1 (hchildExampleless inner hmem).root
      (hchildReduced inner hmem).root.1 (Schema.throughout_iff_everywhere.1 (hchildOrdered inner hmem))
      (hself inner hmem) (hbelow inner hmem)
  | oneOf options conflict =>
    show absorbAlternatives _ _ _ _ _ _ = _
    rw [hnull _ rfl, Schema.mergeExamples_nil rfl]
    exact absorbAlternatives_self hreduced.1 rfl hTo hself

/-- A reduced tree without examples absorbs itself without a change. -/
theorem absorb_self_of_exampleless (hr : T.Reduced limits.mapInference) (ho : T.Ordered) (hl : T.Labelled)
    (he : T.Exampleless) : absorb limits T T = .ok T := by
  suffices absorb limits T T = .ok T ∧ ∀ t ∈ T.children, absorb limits t t = .ok t from this.1
  induction T using Schema.inductionOn with
  | step T ih =>
    have hchild := fun t ht => ih t ht (hr.child t ht) (ho.child t ht) (hl.child t ht) (he.child t ht)
    have hself := fun t ht => (hchild t ht).1
    exact ⟨absorb_self_of_children hr ho hl he hself fun t ht => (hchild t ht).2, hself⟩

/-- Absorbing a reduced tree into itself succeeds and gives the tree again, up to examples. -/
theorem absorb_self (hr : T.Reduced limits.mapInference) (ho : T.Ordered) (hl : T.Labelled) :
    ∃ r, absorb limits T T = .ok r ∧ r.erase = T.erase ∧ r.canon.digest = T.canon.digest := by
  have herased := absorb_self_of_exampleless hr.erase ho.erase hl.erase T.exampleless_erase
  rw [← absorb_erase limits T T] at herased
  obtain ⟨r, hr, heq⟩ := map_eq_ok.1 herased
  refine ⟨r, hr, heq, ?_⟩
  rw [← Schema.canon_erase r, heq, Schema.canon_erase]

end

/-- Two numbers that do not join, or a text, or nothing. -/
def optionalAlternatives : Schema := Schema.ofOptional numbersAndText

theorem throughout_optionalAlternatives {P : Schema → Prop} (hroot : P optionalAlternatives) (hinner : P numbersAndText)
    (htype : ∀ t, P (Schema.ofType t)) : optionalAlternatives.Throughout P := by
  refine .intro hroot fun t ht => ?_
  obtain rfl : t = numbersAndText := List.mem_singleton.1 ht
  exact throughout_numbersAndText hinner htype

theorem reduced_numbers_text : Catalogue.Reduced (numbers ++ textOption) where
  fresh := fresh_numbers_text
  length := by decide
  exclusive := exclusive_numbers_text
  bare t ht := by
    obtain ⟨u, rfl⟩ := exists_ofType_of_mem_numbers_text ht
    exact ⟨rfl, rfl⟩

/-- Inside of an optional layer, alternatives change sides before they take their options in again. -/
theorem absorb_self_optionalAlternatives :
    (optionalAlternatives.Reduced ({} : Limits).mapInference ∧ optionalAlternatives.Ordered ∧
      optionalAlternatives.Labelled) ∧
      ∃ r, absorb {} optionalAlternatives optionalAlternatives = .ok r ∧ r.erase = optionalAlternatives.erase ∧
        r.canon.digest = optionalAlternatives.canon.digest := by
  have hreduced : optionalAlternatives.Reduced ({} : Limits).mapInference :=
    throughout_optionalAlternatives ⟨⟨rfl, rfl, rfl⟩, nofun⟩ ⟨reduced_numbers_text, nofun⟩ fun t =>
      ⟨⟨by cases t <;> rfl, fun _ => rfl⟩, nofun⟩
  have hordered : optionalAlternatives.Ordered :=
    throughout_optionalAlternatives trivial fresh_numbers_text.1 fun _ => trivial
  have hlabelled : optionalAlternatives.Labelled :=
    throughout_optionalAlternatives trivial trivial fun _ => .nil
  exact ⟨⟨hreduced, hordered, hlabelled⟩, absorb_self hreduced hordered hlabelled⟩

/-! ## Trees that are not reduced -/

/-- A list as it was observed, with an element for each of its members. -/
def signedUnsigned : Schema := Schema.ofElems [Schema.ofType .int32, Schema.ofType .uint32]

/--
A field that only the observation has is adopted with its list as it is. The members of the list become
one element when the same observation is absorbed once more, and the result is another shape.
-/
theorem absorb_again_signedUnsigned : ∃ r r',
    absorb {} (Schema.ofFields []) (Schema.ofFields [("a", signedUnsigned)]) = .ok r ∧
      absorb {} r (Schema.ofFields [("a", signedUnsigned)]) = .ok r' ∧ r.canon.digest ≠ r'.canon.digest := by
  refine ⟨Schema.ofFields [("a", Schema.ofOptional signedUnsigned)],
    Schema.ofFields [("a", Schema.ofOptional (Schema.ofElems [Schema.ofType .int64]))], rfl, rfl, ?_⟩
  apply Schema.digest_ne_of_address_ne
  decide +kernel

/-! ### Alternatives among the options -/

theorem address_uint32 :
    (Schema.ofType .uint32).address = "0d0b85f47deea71081e16befba2074a0245c0e8432bfff9d649b9f29ec8ccdcc" := by
  unfold Schema.address
  decide +kernel

/-- The two numbers as one option, next to the text. -/
def nestedNumbers : Catalogue :=
  ("2aeffe1d45f302f4bd0c3d9b9cb6e31b07d5ade3cf34153fd7804d040e0b20ca", { form := .oneOf numbers true }) :: textOption

/-- The same options, and an integer beside them. -/
def nestedNumbersAndInteger : Catalogue :=
  ("0d0b85f47deea71081e16befba2074a0245c0e8432bfff9d649b9f29ec8ccdcc", Schema.ofType .uint32) :: nestedNumbers

theorem insert_numbers : Catalogue.insert textOption { form := .oneOf numbers true } = nestedNumbers := by
  have hnew : Table.find? textOption ({ form := .oneOf numbers true } : Schema).address = none := nests_text.new
  rw [Catalogue.insert_of_new hnew, address_numbers]
  rfl

theorem insert_uint32 : Catalogue.insert nestedNumbers (Schema.ofType .uint32) = nestedNumbersAndInteger := by
  have hnew : Table.find? nestedNumbers (Schema.ofType .uint32).address = none := by
    rw [address_uint32]
    decide
  rw [Catalogue.insert_of_new hnew, address_uint32]
  rfl

theorem absorb_uint32 : absorb {} numbersAndText (Schema.ofType .uint32) = .ok { form := .oneOf nestedNumbers true } := by
  rw [absorb_eq_step (Schema.throughout_iff_everywhere.1 ordered_numbersAndText) (ordered_of_primitive rfl),
    absorbStep_of_option rfl rfl joinOption_uint32, insert_numbers]
  rfl

/-- The alternatives within the alternatives do not take the integer in again. -/
theorem absorb_uint32_again : absorb {} { form := .oneOf nestedNumbers true } (Schema.ofType .uint32) =
    .ok { form := .oneOf nestedNumbersAndInteger true } := by
  have hordered := (stable_ordered {}).absorbWithin absorb_uint32
    (Schema.throughout_iff_everywhere.1 ordered_numbersAndText) (ordered_of_primitive rfl)
  have hjoin : joinOption (absorb {}) nestedNumbers (Schema.ofType .uint32).bare = .ok (Schema.ofType .uint32, nestedNumbers) :=
    (Joins.primitive rfl (.done rfl)).joinOption_eq
  rw [absorb_eq_step hordered (ordered_of_primitive rfl), absorbStep_of_option rfl rfl hjoin, insert_uint32]
  rfl

/--
The numbers that a `uint32` joins become alternatives within the alternatives. These join nothing, so that the
same observation becomes an option of its own when it is absorbed once more.
-/
theorem absorb_again_uint32 : ∃ r r', absorb {} numbersAndText (Schema.ofType .uint32) = .ok r ∧
    absorb {} r (Schema.ofType .uint32) = .ok r' ∧ r.canon.digest ≠ r'.canon.digest := by
  refine ⟨_, _, absorb_uint32, absorb_uint32_again, ?_⟩
  apply Schema.digest_ne_of_address_ne
  have hcanon : ({ form := .oneOf nestedNumbers true } : Schema).canon = .message [(5, .message
    [(1, .set [({ form := .oneOf numbers true } : Schema).canon, (Schema.ofType .string).canon]), (2, .bool true)])] := rfl
  have hcanon' : ({ form := .oneOf nestedNumbersAndInteger true } : Schema).canon = .message [(5, .message
    [(1, .set [(Schema.ofType .uint32).canon, ({ form := .oneOf numbers true } : Schema).canon,
      (Schema.ofType .string).canon]), (2, .bool true)])] := rfl
  unfold Schema.address Canon.digest
  rw [hcanon, hcanon', canon_numbers]
  simp only [Canon.preimage, Canon.fieldDigests, Canon.itemDigests, sortedConcat_eq_insertionSort]
  decide +kernel

end ApiShape

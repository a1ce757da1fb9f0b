/-
Absorbing well-formed trees: every call of a run succeeds and gives a well-formed tree exactly when no
call clashes. Only a `uint32` clashes, since it joins with signed and with unsigned options that do not
join with each other, so that trees without one are always absorbed into well-formed trees.
-/
import ApiShape.Proofs.Absorb.Reach
import ApiShape.Proofs.Digest.Unambiguous
import ApiShape.Proofs.Keys.Basic
import ApiShape.Proofs.Primitive.Absorption
import ApiShape.Proofs.WellFormed.Step

namespace ApiShape

/-! ## Steps that fail or clash -/

section

variable {limits : Limits} {absorb : Absorber} {dst src r : Schema}

/-- No well-formed source is refused by a well-formed destination. -/
theorem not_refused {f : Fault} (h : Refused dst src f) (hd : dst.form.Everywhere Form.WellFormed)
    (hs : src.form.Everywhere Form.WellFormed) : False := by
  induction h with
  | optional hsf _ ih =>
    rw [hsf] at hs
    exact ih hd (Form.everywhere_optional.1 hs).2
  | nested _ hdf hopt =>
    rw [hdf] at hd
    have hinner : _ = false := hd.root
    rw [hopt] at hinner
    cases hinner
  | option hsf _ ht hplain =>
    rw [hsf] at hs
    rw [Catalogue.Exclusive.plain hs.root _ ht] at hplain
    cases hplain

theorem absorbStep_of_isPlain (hs : src.isPlain) :
    absorbStep limits absorb dst src = absorbPlain limits absorb (dst.orNullable src.nullable) src.bare := by
  obtain ⟨form, nullable, metadata, examples⟩ := src
  cases form <;> first | rfl | cases hs

theorem absorbStep_of_option {options rest : Catalogue} {conflict : Bool} {merged : Schema} (hs : src.isPlain)
    (hd : dst.form = .oneOf options conflict) (h : joinOption absorb options src.bare = .ok (merged, rest)) :
    absorbStep limits absorb dst src =
      .ok (((dst.orNullable src.nullable).orNullable false).withOptions (Catalogue.insert rest merged) conflict) := by
  have hbare : src.bare.checkOption = .ok () := checkOption_eq_ok.2 hs
  rw [absorbStep_of_isPlain hs]
  unfold absorbPlain
  rw [Schema.form_orNullable, hd]
  dsimp only
  unfold absorbVariant absorbOption
  rw [hbare, Schema.bare_bare, h]
  rfl

/-- A new option next to others does not collapse. -/
theorem withOptions_insert {rest : Catalogue} {merged : Schema} {conflict : Bool} (hne : rest ≠ [])
    (hnew : Table.find? rest merged.address = none) :
    (dst.withOptions (Catalogue.insert rest merged) conflict).form = .oneOf (Catalogue.insert rest merged) conflict := by
  unfold Schema.withOptions
  split
  · rename_i key sole heq
    obtain ⟨⟨key', stored⟩, hstored⟩ := List.exists_mem_of_ne_nil rest hne
    rw [Catalogue.insert_of_new hnew] at heq
    have hself : (merged.address, merged) ∈ Table.insert rest merged.address merged := Table.mem_insert_self
    have hother := (Table.mem_insert_or_find? merged.address merged hstored).resolve_right fun h => by
      rw [hnew] at h
      cases h.2
    rw [heq, List.mem_singleton] at hself hother
    have hkey : key' = merged.address := congrArg Prod.fst (hother.trans hself.symm)
    subst hkey
    exact absurd hstored (Table.find?_eq_none.1 hnew stored)
  · rfl

/-- A step that clashes gives alternatives inside of alternatives. -/
theorem Clashes.not_wellFormed (h : Clashes absorb dst src) (hr : absorbStep limits absorb dst src = .ok r) :
    ¬ r.form.Everywhere Form.WellFormed := by
  induction h generalizing r with
  | @optional dst src inner hsf _ ih =>
    obtain ⟨form, nullable, metadata, examples⟩ := src
    cases hsf
    unfold absorbStep at hr
    obtain ⟨r', hr', h⟩ := bind_eq_ok.1 hr
    cases h
    rw [Schema.form_mergeExamples]
    unfold Schema.makeOptional
    split
    · exact ih hr'
    · exact fun h => ih hr' (Form.everywhere_optional.1 h).2
  | option hs hdf hjoin hnests =>
    rw [absorbStep_of_option hs hdf hjoin] at hr
    cases hr
    intro h
    rw [withOptions_insert hnests.others hnests.new] at h
    have hmerged := Catalogue.Exclusive.plain h.root _ (by
      rw [Catalogue.insert_of_new hnests.new]
      exact Table.mem_values_of_mem Table.mem_insert_self)
    have hone := hnests.isOneOf
    rw [isOneOf_of_isPlain hmerged] at hone
    cases hone

end

/-! ## What clashes -/

section

variable {limits : Limits} {d s r : Schema} {p q j : Primitive}

theorem ordered_of_primitive (hd : d.form = .primitive p) : d.form.Everywhere Form.Ordered := by
  rw [hd]
  exact Form.everywhere_iff.2 ⟨trivial, nofun⟩

/-- Absorbing a primitive into another looks at nothing else. -/
theorem absorb_primitive (hd : d.form = .primitive p) (hs : s.form = .primitive q) :
    absorb limits d s = match p.join q with
      | some j => .ok ({ d.orNullable s.nullable with form := .primitive j }.mergeExamples s.examples)
      | none => .ok ((d.orNullable s.nullable).conflict s.bare) := by
  have hplain : s.isPlain := by simp [Schema.isPlain, Form.isPlain, hs]
  rw [absorb_eq_step (ordered_of_primitive hd) (ordered_of_primitive hs), absorbStep_of_isPlain hplain]
  unfold absorbPlain
  rw [Schema.form_orNullable, hd]
  dsimp only
  rw [Schema.form_bare, hs]
  rfl

/-- Types that join with one other than `uint32` join with every join of it. -/
theorem join_isSome_of_ne_uint32 {a b c t : BaseType} (ha : a ≠ .uint32) (h : a.join b = some t)
    (hc : (c.join a).isSome) : (c.join t).isSome ∧ t ≠ .uint32 := by
  revert a b c t
  decide

theorem joinable_of_join (hp : p.baseType ≠ .uint32) (hj : p.join q = some j) {o : Primitive}
    (ho : o.joinable p) : o.joinable j ∧ j.baseType ≠ .uint32 := by
  obtain ⟨hbase, -⟩ := Primitive.join_eq_some hj
  rw [Primitive.joinable_eq, Bool.and_eq_true] at ho
  obtain ⟨hjbase, hne⟩ := join_isSome_of_ne_uint32 hp hbase ho.1
  rw [Primitive.joinable_eq, hjbase, Bool.true_and]
  refine ⟨?_, hne⟩
  rw [Primitive.joinFormats_isSome] at ho ⊢
  -- The join has the kind of `p`, or none.
  rcases (Primitive.covers_of_join hj).1.kind with hkind | hkind <;> rw [hkind]
  · exact .inr (.inl rfl)
  · exact ho.2

/-- Options that join with a primitive other than a `uint32` are taken in one after the other. -/
theorem foldlM_isPrimitive {l : List Schema} (hl : ∀ o ∈ l, o.joinable d) (hd : d.form = .primitive p)
    (hp : p.baseType ≠ .uint32) (h : l.foldlM (absorb limits) d = .ok r) :
    ∃ j, r.form = .primitive j ∧ j.baseType ≠ .uint32 := by
  induction l generalizing d p with
  | nil =>
    cases h
    exact ⟨p, hd, hp⟩
  | cons o rest ih =>
    rw [List.foldlM_cons] at h
    obtain ⟨mid, hmid, h⟩ := bind_eq_ok.1 h
    have hjoin : ∀ {o : Schema}, o.joinable d → ∃ q, o.form = .primitive q ∧ q.joinable p := by
      intro o ho
      unfold Schema.joinable at ho
      rw [hd] at ho
      cases hform : o.form <;> rw [hform] at ho <;> first | exact ⟨_, rfl, ho⟩ | cases ho
    obtain ⟨q, hq, hqp⟩ := hjoin (hl o List.mem_cons_self)
    rw [Primitive.joinable_comm] at hqp
    obtain ⟨j, hj⟩ := Option.isSome_iff_exists.1 hqp
    rw [absorb_primitive hd hq, hj] at hmid
    cases hmid
    refine ih (p := j) (fun o' ho' => ?_) rfl (joinable_of_join hp hj (Primitive.joinable_self p)).2 h
    obtain ⟨q', hq', hqp'⟩ := hjoin (hl o' (List.mem_cons_of_mem _ ho'))
    unfold Schema.joinable
    rw [hq']
    exact (joinable_of_join hp hj hqp').1

theorem gather_isPrimitive {rounds : Nat} {options rest : Catalogue} (hd : d.form = .primitive p)
    (hp : p.baseType ≠ .uint32) (h : gather (absorb limits) rounds d options = .ok (r, rest)) :
    ∃ j, r.form = .primitive j ∧ j.baseType ≠ .uint32 := by
  have hgathers : Gathers (fun d s r => absorb limits d s = .ok r) d options r rest :=
    gathers_of_ok h fun _ _ _ _ hr => hr
  clear h
  induction hgathers generalizing p with
  | done => exact ⟨p, hd, hp⟩
  | round _ hfolds _ ih =>
    obtain ⟨j, hj, hne⟩ := foldlM_isPrimitive (fun o ho => (Catalogue.mem_taken.1 ho).2) hd hp hfolds.foldlM_eq
    exact ih hj hne

theorem isRecord_of_absorb (h : absorb limits d s = .ok r) (hd : d.isRecord) (hs : s.isRecord) : r.isRecord := by
  cases plainStep_of_absorb (A := fun _ _ _ => True) h (fun _ _ _ _ _ => trivial) (isPlain_of_isRecord hs) with
  | record _ _ hrecord => cases hrecord <;> rfl
  | conflict _ hne =>
    have hne : d.agrees s = false := hne
    rw [Schema.agrees_of_isRecord hd hs] at hne
    cases hne
  | list hdf | primitive hdf | inner hdf | absent hdf | option hdf =>
    rw [Schema.form_orNullable] at hdf
    simp [Schema.isRecord, hdf] at hd

theorem isList_of_absorb (h : absorb limits d s = .ok r) (hd : d.isList) (hs : s.isList) : r.isList := by
  cases plainStep_of_absorb (A := fun _ _ _ => True) h (fun _ _ _ _ _ => trivial) (isPlain_of_isList hs) with
  | list => rfl
  | conflict _ hne =>
    have hne : d.agrees s = false := hne
    rw [Schema.agrees_of_isList hd hs] at hne
    cases hne
  | record hdf | primitive hdf | inner hdf | absent hdf | option hdf =>
    rw [Schema.form_orNullable] at hdf
    simp [Schema.isList, hdf] at hd

/-- Only a `uint32` becomes alternatives while it takes in the options it goes with. -/
theorem uint32_of_isOneOf {options rest : Catalogue} {variant merged : Schema} (hv : variant.isPlain)
    (h : joinOption (absorb limits) options variant = .ok (merged, rest)) (hone : merged.isOneOf) :
    ∃ p, variant.form = .primitive p ∧ p.baseType = .uint32 := by
  have hsame : ∀ {p : Schema → Bool}, (∀ {d s r}, absorb limits d s = .ok r → p d → p s → p r) → p variant →
      Collects (fun d s r => absorb limits d s = .ok r) ((Catalogue.take p options).1 ++ [variant]) (some merged) →
        p merged := by
    intro p hp hv h
    have hmem : ∀ t ∈ (Catalogue.take p options).1 ++ [variant], p t := by
      intro t ht
      rcases List.mem_append.1 ht with ht | ht
      · exact (Catalogue.mem_taken.1 ht).2
      · rwa [List.mem_singleton.1 ht]
    generalize (Catalogue.take p options).1 ++ [variant] = l at h hmem
    cases h with
    | some h =>
      exact h.invariant (P := fun t => p t) (S := fun t => p t) (fun _ _ _ => hp) (hmem _ List.mem_cons_self)
        fun t ht => hmem t (List.mem_cons_of_mem _ ht)
  have hjoins := joins_of_ok (A := fun d s r => absorb limits d s = .ok r) hv h fun _ _ _ _ hr => hr
  cases hjoins with
  | record hrecord hcollects =>
    have hmerged := hsame isRecord_of_absorb hrecord hcollects
    rw [isOneOf_of_isPlain (isPlain_of_isRecord hmerged)] at hone
    cases hone
  | list hlist hcollects =>
    have hmerged := hsame isList_of_absorb hlist hcollects
    rw [isOneOf_of_isPlain (isPlain_of_isList hmerged)] at hone
    cases hone
  | @primitive p r rest hform hgathers =>
    refine ⟨p, hform, Classical.byContradiction fun hp => ?_⟩
    obtain ⟨j, hj, -⟩ := gather_isPrimitive hform hp (hgathers.gather_eq (Nat.le_refl _))
    simp [Schema.isOneOf, hj] at hone

/-- No primitive of the given type. -/
def Form.Lacks (t : BaseType) : Form → Prop
  | .primitive p => p.baseType ≠ t
  | _ => True

/-- No primitive of the given type at any depth. -/
def Schema.Lacks (t : BaseType) (s : Schema) : Prop := s.Throughout (fun u => u.form.Lacks t)

/-- No join makes a `uint32` of other types, so that absorbing does not bring one in. -/
theorem stable_lacks_uint32 (limits : Limits) : Stable limits (Form.Lacks .uint32) where
  text := by simp [Form.Lacks]
  primitive hp _ hj := (joinable_of_join hp hj (Primitive.joinable_self _)).2
  list _ := trivial
  optional _ _ := trivial
  record _ _ _ _ := trivial
  emptyMap _ := trivial
  map _ := trivial
  empty _ := trivial
  filter _ _ := trivial
  flag _ := trivial
  wrap _ := trivial
  insert _ _ := trivial

/-- A source that clashes is a `uint32`, below its optional layers. -/
theorem Clashes.not_lacks (h : Clashes (absorb limits) d s) : ¬ s.form.Everywhere (Form.Lacks .uint32) := by
  induction h with
  | optional hsf _ ih =>
    rw [hsf]
    exact fun h => ih (Form.everywhere_optional.1 h).2
  | @option dst src merged options rest conflict hs hd hjoin hnests =>
    have hbare : src.bare.isPlain := hs
    obtain ⟨p, hform, hp⟩ := uint32_of_isOneOf hbare hjoin hnests.isOneOf
    have hform : src.form = .primitive p := hform
    rw [hform]
    exact fun h => h.root hp

end

/-! ## Runs -/

section

variable {limits : Limits} {dst src : Schema}

/-- Without a clash in the run, absorbing succeeds and gives a valid tree. -/
theorem settled_of_unclashed (hd : dst.form.Everywhere Form.Valid) (hs : src.form.Everywhere Form.Valid)
    (hfree : ∀ d s, Reaches limits dst src d s → ¬ Clashes (absorb limits) d s) :
    ∃ r, absorb limits dst src = .ok r ∧ Settled dst src r := by
  induction hn : rank dst src using Nat.strongRecOn generalizing dst src with
  | _ n ih =>
    subst hn
    have hdo := hd.mono fun _ h => h.1
    have hso := hs.mono fun _ h => h.1
    have hcall : ∀ d s, Calls limits (absorb limits) dst src d s → d.form.Everywhere Form.Valid →
        s.form.Everywhere Form.Valid → ∃ r, absorb limits d s = .ok r ∧ Settled d s r := fun d s hc hd' hs' =>
      ih _ (hc.rank_lt_of_absorb hdo hso).2.2 hd' hs' (fun d' s' h => hfree d' s' (.call hc h)) rfl
    have hsettles : ∀ d s r, Calls limits (absorb limits) dst src d s → absorb limits d s = .ok r → Settles d s r := by
      intro d s r hc hr hd' hs'
      obtain ⟨r', hr', h⟩ := hcall d s hc hd' hs'
      rw [hr] at hr'
      cases hr'
      exact h
    rw [absorb_eq_step hdo hso]
    cases hstep : absorbStep limits (absorb limits) dst src with
    | ok r =>
      have h := step_of_ok (A := fun d s r => absorb limits d s = .ok r ∧ Settles d s r) src hstep
        fun d s r hc hr => ⟨hr, hsettles d s r hc hr⟩
      exact ⟨r, rfl, h.settled hd hs (hfree dst src (.here dst src))⟩
    | error f =>
      rcases absorbStep_error src hstep with ⟨d, s, g, hc, hg, -⟩ | h
      · obtain ⟨hd', hs'⟩ := hc.everywhere (closed_valid limits) (fun d s r hc hr => (hsettles d s r hc hr).keeps) hd hs
        obtain ⟨r, hr, -⟩ := hcall d s hc hd' hs'
        rw [hg] at hr
        cases hr
      · exact (not_refused h (hd.mono fun _ h => h.2) (hs.mono fun _ h => h.2)).elim

theorem valid_of_reaches {d s : Schema} (h : Reaches limits dst src d s) (hd : dst.form.Everywhere Form.Valid)
    (hs : src.form.Everywhere Form.Valid)
    (hfree : ∀ d s, Reaches limits dst src d s → ¬ Clashes (absorb limits) d s) :
    d.form.Everywhere Form.Valid ∧ s.form.Everywhere Form.Valid := by
  induction h with
  | here => exact ⟨hd, hs⟩
  | call hc _ ih =>
    obtain ⟨hd', hs'⟩ := hc.everywhere (closed_valid limits) (fun d s r hc hr hd' hs' => by
      obtain ⟨r', hr', h⟩ := settled_of_unclashed hd' hs' fun d' s' h => hfree d' s' (.call hc h)
      rw [hr] at hr'
      cases hr'
      exact h.valid) hd hs
    exact ih hd' hs' fun d' s' h => hfree d' s' (.call hc h)

theorem Schema.valid_of (ho : dst.Ordered) (hw : dst.WellFormed) : dst.form.Everywhere Form.Valid :=
  Schema.throughout_iff_everywhere.1 (ho.and hw)

/-- While well-formed trees are absorbed, all absorbing at every depth succeeds with a well-formed tree,
exactly when none of it clashes; and none of it does when no node of either tree is a `uint32`. -/
theorem wellFormed_absorb_iff (hdo : dst.Ordered) (hso : src.Ordered) (hdw : dst.WellFormed) (hsw : src.WellFormed) :
    ((∀ d s, Reaches limits dst src d s → ∃ r, absorb limits d s = .ok r ∧ r.WellFormed) ↔
      ∀ d s, Reaches limits dst src d s → ¬ Clashes (absorb limits) d s) ∧
    (dst.Lacks .uint32 → src.Lacks .uint32 → ∀ d s, Reaches limits dst src d s → ¬ Clashes (absorb limits) d s) := by
  have hd := Schema.valid_of hdo hdw
  have hs := Schema.valid_of hso hsw
  refine ⟨⟨fun h d s hreach hclash => ?_, fun hfree d s hreach => ?_⟩, fun hdl hsl d s hreach hclash => ?_⟩
  · obtain ⟨r, hr, hwf⟩ := h d s hreach
    obtain ⟨hdo', hso'⟩ := hreach.everywhere (stable_ordered limits) (hd.mono fun _ h => h.1) (hs.mono fun _ h => h.1)
    rw [absorb_eq_step hdo' hso'] at hr
    exact hclash.not_wellFormed hr (Schema.throughout_iff_everywhere.1 hwf)
  · obtain ⟨hd', hs'⟩ := valid_of_reaches hreach hd hs hfree
    obtain ⟨r, hr, h⟩ := settled_of_unclashed hd' hs' fun d' s' h => hfree d' s' (hreach.trans h)
    exact ⟨r, hr, Schema.throughout_iff_everywhere.2 (h.valid.mono fun _ h => h.2)⟩
  · have hlacks := hreach.everywhere (stable_lacks_uint32 limits) (Schema.throughout_iff_everywhere.1 hdl)
      (Schema.throughout_iff_everywhere.1 hsl)
    exact hclash.not_lacks hlacks.2

theorem ordered_ofType (t : BaseType) : (Schema.ofType t).Ordered := .of_primitive rfl trivial

theorem wellFormed_ofType (t : BaseType) : (Schema.ofType t).WellFormed := .of_primitive rfl trivial

theorem lacks_ofType {t u : BaseType} (h : u ≠ t) : (Schema.ofType u).Lacks t :=
  .of_primitive rfl (show (Primitive.ofType u).baseType ≠ t by rwa [Primitive.baseType_ofType])

theorem wellFormed_absorb_int64_string :
    ∃ r, absorb {} (Schema.ofType .int64) (Schema.ofType .string) = .ok r ∧ r.WellFormed := by
  obtain ⟨hiff, hfree⟩ := @wellFormed_absorb_iff {} _ _ (ordered_ofType .int64) (ordered_ofType .string)
    (wellFormed_ofType _) (wellFormed_ofType _)
  exact hiff.2 (hfree (lacks_ofType (by decide)) (lacks_ofType (by decide))) _ _ (.here _ _)

end

/-! ### A clash -/

theorem address_uint64 :
    (Schema.ofType .uint64).address = "116c6264cac62d4486e645f3009606c839ce6408c296f666a94cf1243e4a55cf" := by
  unfold Schema.address
  decide +kernel

theorem address_int64 :
    (Schema.ofType .int64).address = "232c87baa86e5b51570535aed581887e74fd4747d86abfd5a8c25cd51e3bb587" := by
  unfold Schema.address
  decide +kernel

theorem address_string :
    (Schema.ofType .string).address = "2e271e3a4eb120698b1acbef7c290bf1d739ebeeb10f0be96425b38207c745dc" := by
  unfold Schema.address
  decide +kernel

/-- Two numbers that do not join, next to each other. -/
def numbers : Catalogue :=
  [("116c6264cac62d4486e645f3009606c839ce6408c296f666a94cf1243e4a55cf", Schema.ofType .uint64),
    ("232c87baa86e5b51570535aed581887e74fd4747d86abfd5a8c25cd51e3bb587", Schema.ofType .int64)]

/-- A text as the one option. -/
def textOption : Catalogue :=
  [("2e271e3a4eb120698b1acbef7c290bf1d739ebeeb10f0be96425b38207c745dc", Schema.ofType .string)]

theorem fresh_numbers_text : Catalogue.Fresh (numbers ++ textOption) := by
  refine ⟨by unfold Table.Sorted; decide, ?_⟩
  simp only [numbers, textOption, List.cons_append, List.nil_append, List.mem_cons, List.not_mem_nil, or_false,
    forall_eq_or_imp, forall_eq]
  exact ⟨address_uint64.symm, address_int64.symm, address_string.symm⟩

theorem exists_ofType_of_mem_numbers_text {t : Schema} (ht : t ∈ Table.values (numbers ++ textOption)) :
    ∃ u, t = Schema.ofType u := by
  simp only [Table.values, numbers, textOption, List.cons_append, List.nil_append, List.map_cons, List.map_nil,
    List.mem_cons, List.not_mem_nil, or_false] at ht
  rcases ht with rfl | rfl | rfl
  · exact ⟨.uint64, rfl⟩
  · exact ⟨.int64, rfl⟩
  · exact ⟨.string, rfl⟩

theorem canon_numbers : ({ form := .oneOf numbers true } : Schema).canon = .message [(5, .message
    [(1, .set [(Schema.ofType .uint64).canon, (Schema.ofType .int64).canon]), (2, .bool true)])] := rfl

theorem address_numbers : ({ form := .oneOf numbers true } : Schema).address =
    "2aeffe1d45f302f4bd0c3d9b9cb6e31b07d5ade3cf34153fd7804d040e0b20ca" := by
  unfold Schema.address Canon.digest
  rw [canon_numbers]
  simp only [Canon.preimage, Canon.fieldDigests, Canon.itemDigests, sortedConcat_eq_insertionSort]
  decide +kernel

/-- Two types that do not join, recorded in the order of their addresses. -/
theorem conflict_ofType {t u : BaseType} (h : (Schema.ofType t).address < (Schema.ofType u).address) :
    (Schema.ofType t).conflict (Schema.ofType u) =
      { form := .oneOf [((Schema.ofType t).address, Schema.ofType t), ((Schema.ofType u).address, Schema.ofType u)] true } := by
  have hbare : ∀ t, (Schema.ofType t).bare = Schema.ofType t := fun _ => rfl
  have hfirst : Catalogue.insert [] (Schema.ofType t) = [((Schema.ofType t).address, Schema.ofType t)] :=
    Catalogue.insert_of_new rfl
  have hnew : Table.find? [((Schema.ofType t).address, Schema.ofType t)] (Schema.ofType u).address = none := by
    simp [Table.find?, String.ne_of_lt h]
  unfold Schema.conflict Catalogue.ofList
  rw [hbare, hbare, List.foldl_cons, List.foldl_cons, List.foldl_nil, hfirst, Catalogue.insert_of_new hnew,
    Table.insert_eq_append (by simpa using h)]
  rfl

theorem conflict_numbers : (Schema.ofType .uint64).conflict (Schema.ofType .int64) = { form := .oneOf numbers true } := by
  rw [conflict_ofType (by rw [address_uint64, address_int64]; decide), address_uint64, address_int64]
  rfl

/-- The two numbers and the text, none of which joins another. -/
def numbersAndText : Schema := { form := .oneOf (numbers ++ textOption) true }

theorem throughout_numbersAndText {P : Schema → Prop} (h : P numbersAndText) (htype : ∀ t, P (Schema.ofType t)) :
    numbersAndText.Throughout P := by
  refine .intro h fun t ht => ?_
  obtain ⟨u, rfl⟩ := exists_ofType_of_mem_numbers_text ht
  exact .of_primitive rfl (htype u)

theorem ordered_numbersAndText : numbersAndText.Ordered :=
  throughout_numbersAndText fresh_numbers_text.1 fun _ => trivial

theorem exclusive_numbers_text : Catalogue.Exclusive (numbers ++ textOption) := by
  constructor
  · intro t ht
    obtain ⟨u, rfl⟩ := exists_ofType_of_mem_numbers_text ht
    rfl
  · simp only [Table.values, numbers, textOption, List.cons_append, List.nil_append, List.map_cons, List.map_nil]
    decide

theorem nests_text : textOption.Nests { form := .oneOf numbers true } :=
  ⟨rfl, nofun, by rw [address_numbers]; decide⟩

/-- Both numbers join a `uint32`, so both are taken out, and what the first of them became then has to take
in the second. -/
theorem joinOption_uint32 : joinOption (absorb {}) (numbers ++ textOption) (Schema.ofType .uint32).bare =
    .ok ({ form := .oneOf numbers true }, textOption) := by
  have hfirst : absorb {} (Schema.ofType .uint32) (Schema.ofType .uint64) = .ok (Schema.ofType .uint64) :=
    absorb_primitive (p := Primitive.ofType .uint32) (q := Primitive.ofType .uint64) rfl rfl
  have hsecond : absorb {} (Schema.ofType .uint64) (Schema.ofType .int64) = .ok { form := .oneOf numbers true } :=
    (absorb_primitive (p := Primitive.ofType .uint64) (q := Primitive.ofType .int64) rfl rfl).trans
      (congrArg Except.ok conflict_numbers)
  have hgathers : Gathers (fun d s r => absorb {} d s = .ok r) (Schema.ofType .uint32) (numbers ++ textOption)
      { form := .oneOf numbers true } textOption :=
    .round (List.cons_ne_nil _ _) (.cons hfirst (.cons hsecond (.nil _))) (.done rfl)
  exact (Joins.primitive rfl hgathers).joinOption_eq

/-- A `uint32` that joins with both numbers is absorbed next to a text: the numbers become alternatives
within the alternatives. -/
theorem not_wellFormed_absorb_uint32 :
    (numbersAndText.Ordered ∧ numbersAndText.Keyed ∧ numbersAndText.WellFormed) ∧
      ((Schema.ofType .uint32).Ordered ∧ (Schema.ofType .uint32).Keyed ∧ (Schema.ofType .uint32).WellFormed) ∧
      ∃ r, absorb {} numbersAndText (Schema.ofType .uint32) = .ok r ∧ ¬ r.WellFormed := by
  have hkeyed : numbersAndText.Keyed := throughout_numbersAndText fresh_numbers_text fun _ => trivial
  have hwf : numbersAndText.WellFormed := throughout_numbersAndText exclusive_numbers_text fun _ => trivial
  have hplain : (Schema.ofType .uint32).isPlain := rfl
  have hdst : numbersAndText.form = .oneOf (numbers ++ textOption) true := rfl
  have hstep := @absorbStep_of_option {} _ _ _ _ _ _ _ hplain hdst joinOption_uint32
  have habsorb := (absorb_eq_step (Schema.throughout_iff_everywhere.1 ordered_numbersAndText)
    (ordered_of_primitive rfl)).trans hstep
  refine ⟨⟨ordered_numbersAndText, hkeyed, hwf⟩, ⟨ordered_ofType _, .of_primitive rfl trivial, wellFormed_ofType _⟩, _, habsorb, ?_⟩
  intro hr
  exact (Clashes.option hplain hdst joinOption_uint32 nests_text).not_wellFormed hstep
    (Schema.throughout_iff_everywhere.1 hr)

end ApiShape

/-
Options and their classes. A variant takes in the options that agree with it, and then sums up the classes of
all of them; the options that are left keep their classes.
-/
import ApiShape.Proofs.Absorb.Metadata
import ApiShape.Proofs.Evidence.Maps
import ApiShape.Proofs.Instance.Canonical
import ApiShape.Proofs.WellFormed.Absorb

namespace ApiShape

variable {types : List BaseType} {limits : Limits} {g g' vs bag : Multiset Form} {s t r : Schema} {f c : Form}

/-! ## Bags that fall into classes -/

theorem agreeing_add (g g' : Multiset Form) (f : Form) : agreeing (g + g') f = agreeing g f + agreeing g' f :=
  Multiset.filter_add _ _ _

theorem agreeing_eq_self (h : ∀ c ∈ g, c.agrees f = true) : agreeing g f = g := Multiset.filter_eq_self.2 h

theorem agreeing_eq_zero (h : ∀ c ∈ g, c.agrees f = false) : agreeing g f = 0 := by
  refine Multiset.filter_eq_nil.2 fun c hc => ?_
  rw [h c hc]
  exact Bool.false_ne_true

theorem mem_sum_bags {α : Type} {bags : List (Multiset α)} {a : α} : a ∈ bags.sum ↔ ∃ bag ∈ bags, a ∈ bag := by
  rw [← Multiset.sum_coe]
  exact Multiset.mem_join

/-- The class of a summary among summaries that stand apart. -/
theorem agreeing_sum (hT : BaseType.Coherent types) {l : List (Multiset Form × Form)} (hw : Witnessed types (l.map Prod.fst).sum)
    (hsummary : ∀ x ∈ l, Summary limits x.1 x.2) (hapart : l.Pairwise (fun x y => x.2.agrees y.2 = false)) :
    ∀ x ∈ l, agreeing (l.map Prod.fst).sum x.2 = x.1 := by
  intro x hx
  obtain ⟨l₁, l₂, rfl⟩ := List.append_of_mem hx
  have hbag : ∀ y ∈ l₁ ++ x :: l₂, Witnessed types y.1 := fun y hy c hc =>
    hw c (mem_sum_bags.2 ⟨y.1, List.mem_map_of_mem hy, hc⟩)
  -- What agrees with `x` and is below another summary makes the two summaries agree.
  have hnone : ∀ l' ⊆ l₁ ++ x :: l₂, (∀ y ∈ l', y.2.agrees x.2 = false) → agreeing (l'.map Prod.fst).sum x.2 = 0 := by
    intro l' hsub hfalse
    refine agreeing_eq_zero fun c hc => eq_false_of_ne_true fun hagrees => ?_
    obtain ⟨bag, hbags, hc⟩ := mem_sum_bags.1 hc
    obtain ⟨y, hy, rfl⟩ := List.mem_map.1 hbags
    have hyw := hbag y (hsub hy)
    have hbelow := (hsummary y (hsub hy)).below_of_mem hyw c hc
    have hxy := hbelow.agrees hT (hyw.typed hc) ((hsummary y (hsub hy)).typed hT hyw) ((hsummary x hx).typed hT (hbag x hx)) hagrees
    rw [hfalse y hy] at hxy
    cases hxy
  obtain ⟨-, hpairs, hcross⟩ := List.pairwise_append.1 hapart
  have hleft := hnone l₁ (List.subset_append_left _ _) fun y hy => hcross y hy x List.mem_cons_self
  have hright := hnone l₂ (List.subset_append_of_subset_right _ (List.subset_cons_self _ _)) fun y hy => by
    rw [Form.agrees_comm]
    exact (List.pairwise_cons.1 hpairs).1 y hy
  rw [List.map_append, List.map_cons, List.sum_append, List.sum_cons, agreeing_add, agreeing_add, hleft, hright,
    zero_add, add_zero]
  exact agreeing_eq_self ((hsummary x hx).agrees hT (hbag x hx))

/-- A node whose variants sum up classes offers all of them. -/
theorem Offers.of_classes (hT : BaseType.Coherent types) {l : List (Multiset Form × Form)}
    (hw : Witnessed types (l.map Prod.fst).sum) (hsummary : ∀ x ∈ l, Summary limits x.1 x.2) (hs : s.Regular)
    (hvariants : s.variants.Perm (l.map Prod.snd)) : Offers limits (l.map Prod.fst).sum s := by
  have hapart : l.Pairwise (fun x y => x.2.agrees y.2 = false) := by
    have hpairs := (List.Perm.pairwise_iff (fun h => by rwa [Form.agrees_comm]) hvariants).1 hs.pairwise
    exact List.pairwise_map.1 hpairs
  refine ⟨hs, fun c hc => ?_, fun v hv => ?_⟩
  · obtain ⟨bag, hbag, hcbag⟩ := mem_sum_bags.1 hc
    obtain ⟨x, hx, rfl⟩ := List.mem_map.1 hbag
    refine ⟨x.2, hvariants.mem_iff.2 (List.mem_map_of_mem hx), ?_⟩
    exact (hsummary x hx).agrees hT (fun d hd => hw d (mem_sum_bags.2 ⟨x.1, hbag, hd⟩)) c hcbag
  · obtain ⟨x, hx, rfl⟩ := List.mem_map.1 (hvariants.mem_iff.1 hv)
    rw [agreeing_sum hT hw hsummary hapart x hx]
    exact hsummary x hx

/-- A bag is made up of the classes of the variants that cover it. -/
theorem Offers.sum_agreeing (hT : BaseType.Coherent types) (hvs : Witnessed types vs) (h : Offers limits vs s) :
    (s.variants.map (agreeing vs)).sum = vs := by
  classical
  have hnodup : s.variants.Nodup := h.regular.pairwise.imp_of_mem fun {f f'} hf _ hfalse heq => by
    rw [← heq, Form.agrees_self (h.regular.isPlain f hf)] at hfalse
    cases hfalse
  have hone : ∀ c ∈ vs, ∃ v ∈ s.variants, c.agrees v = true ∧ ∀ w ∈ s.variants, w ≠ v → c.agrees w = false := by
    intro c hc
    obtain ⟨v, hv, hcv⟩ := h.covers c hc
    exact ⟨v, hv, hcv, fun w hw hne => eq_false_of_ne_true fun hcw => hne (h.unique hT hvs hw hv hc hcw hcv)⟩
  clear hvs h
  induction vs using Multiset.induction_on with
  | empty => exact List.sum_eq_zero fun x hx => by obtain ⟨_, _, rfl⟩ := List.mem_map.1 hx; rfl
  | cons c vs ih =>
    obtain ⟨v, hv, hcv, hothers⟩ := hone c (Multiset.mem_cons_self c vs)
    have hcons : ∀ w ∈ s.variants, agreeing (c ::ₘ vs) w = (if w = v then {c} else 0) + agreeing vs w := by
      intro w hw
      rw [← Multiset.singleton_add, agreeing_add]
      by_cases hwv : w = v
      · rw [if_pos hwv, hwv, agreeing_eq_self (by simpa using hcv)]
      · rw [if_neg hwv, agreeing_eq_zero (by simpa using hothers w hw hwv)]
    have hfirst : (s.variants.map (fun w => if w = v then ({c} : Multiset Form) else 0)).sum = {c} := by
      rw [List.sum_map_eq_nsmul_single v _ fun w hne _ => if_neg hne, List.count_eq_one_of_mem hnodup hv, one_nsmul, if_pos rfl]
    rw [List.map_congr_left hcons, List.sum_map_add, hfirst, ih fun d hd => hone d (Multiset.mem_cons_of_mem hd),
      Multiset.singleton_add]

/-! ## Plain nodes -/

theorem Schema.variants_of_isPlain (h : s.form.isPlain = true) : s.variants = [s.form] ∧ s.core = s := by
  have hcore : s.core = s := by
    rcases s.core_cases with ⟨inner, hform, -⟩ | ⟨-, hcore⟩
    · rw [hform] at h
      cases h
    · exact hcore
  refine ⟨?_, hcore⟩
  unfold variants
  rw [hcore]
  cases hform : s.form <;> first | rfl | (rw [hform] at h; cases h)

theorem Schema.Regular.of_isPlain (h : s.form.isPlain = true) (hmetadata : s.metadata = none) : s.Regular := by
  have hcore := (variants_of_isPlain h).2
  refine ⟨hmetadata, by rw [hcore, hmetadata], ?_, fun options conflict hform => ?_⟩
  · rw [hcore]
    unfold isOptional
    cases hform : s.form <;> first | rfl | (rw [hform] at h; cases h)
  · rw [hcore] at hform
    rw [hform] at h
    cases h

/-- A plain node that offers a bag sums it up. -/
theorem Offers.summary_of_isPlain (h : Offers limits vs s) (hplain : s.form.isPlain = true) : Summary limits vs s.form := by
  have hvariants := (Schema.variants_of_isPlain hplain).1
  have hsummary := h.summary s.form (by rw [hvariants]; exact List.mem_cons_self)
  rwa [agreeing_eq_self fun c hc => ?_] at hsummary
  obtain ⟨f, hf, hcf⟩ := h.covers c hc
  rw [hvariants] at hf
  rwa [List.mem_singleton.1 hf] at hcf

theorem Offers.of_isPlain (hT : BaseType.Coherent types) (hvs : Witnessed types vs) (h : Summary limits vs s.form)
    (hmetadata : s.metadata = none) : Offers limits vs s := by
  have hplain := h.isPlain hvs
  have hclasses := Offers.of_classes hT (l := [(vs, s.form)]) (s := s) (by simpa using hvs)
    (fun x hx => by rw [List.mem_singleton.1 hx]; exact h) (.of_isPlain hplain hmetadata)
    (by rw [(Schema.variants_of_isPlain hplain).1]; exact .refl _)
  simpa using hclasses

/-- An option as it is stored, or a variant on its way to be one: bare, and the summary of a bag. -/
structure Sole (limits : Limits) (bag : Multiset Form) (s : Schema) : Prop where
  bare : s.IsBare
  summary : Summary limits bag s.form

theorem Sole.offers (hT : BaseType.Coherent types) (hbag : Witnessed types bag) (h : Sole limits bag s) : Offers limits bag s :=
  .of_isPlain hT hbag h.summary h.bare.metadata

/-- Two nodes that agree are absorbed into one. -/
theorem Sole.pool (hT : BaseType.Coherent types) (hg : Witnessed types g) (hg' : Witnessed types g')
    (h : Pools types limits s t r) (hs : Sole limits g s) (ht : Sole limits g' t) (hagrees : s.form.agrees t.form = true) :
    Sole limits (g + g') r := by
  obtain ⟨hoffers, hwraps⟩ := h g g' hg hg' (hs.offers hT hg) (ht.offers hT hg')
  have hplain := hwraps.joined hagrees
  have hflat : ∀ {u : Schema}, u.form.isPlain = true → u.inside.nullable = u.nullable := by
    intro u hu
    rw [Schema.nullable_inside, (Schema.variants_of_isPlain hu).2, Bool.or_self]
  refine ⟨⟨eq_false_of_ne_true fun hnull => ?_, hoffers.regular.metadata⟩, hoffers.summary_of_isPlain hplain⟩
  have hside := hwraps.nullable.1 ((hflat hplain).trans hnull)
  rw [hflat (hs.summary.isPlain hg), hflat (ht.summary.isPlain hg'), hs.bare.nullable, ht.bare.nullable] at hside
  cases hside.elim id id

/-! ## Folds of plain nodes -/

/-- Nodes that agree with the first are all absorbed into it. -/
theorem Folds.sole (hT : BaseType.Coherent types) {acc : Schema} {l : List (Multiset Form × Schema)}
    (h : Folds (Pools types limits) acc (l.map Prod.snd) r) (hg : Witnessed types g) (hacc : Sole limits g acc)
    (hl : ∀ x ∈ l, Witnessed types x.1 ∧ Sole limits x.1 x.2 ∧ acc.form.agrees x.2.form = true) :
    Sole limits (g + (l.map Prod.fst).sum) r := by
  induction l generalizing acc g with
  | nil =>
    cases h
    simpa using hacc
  | cons x rest ih =>
    cases h with
    | @cons _ _ mid _ _ hmid h =>
      obtain ⟨hxw, hx, hagrees⟩ := hl x List.mem_cons_self
      have hmidSole := hacc.pool hT hg hxw hmid hx hagrees
      have hmidw := hg.add hxw
      have hbelow := hacc.summary.mono hT hg hmidw hmidSole.summary fun c hc => Multiset.mem_add.2 (.inl hc)
      have hresult := ih h hmidw hmidSole fun y hy => by
        obtain ⟨hyw, hys, hyagrees⟩ := hl y (List.mem_cons_of_mem _ hy)
        exact ⟨hyw, hys, hbelow.agrees hT (hacc.summary.typed hT hg) (hmidSole.summary.typed hT hmidw)
          (hys.summary.typed hT hyw) hyagrees⟩
      rwa [add_assoc, ← List.sum_cons, ← List.map_cons (f := Prod.fst)] at hresult

theorem Collects.sole (hT : BaseType.Coherent types) {l : List (Multiset Form × Schema)}
    (h : Collects (Pools types limits) (l.map Prod.snd) (Option.some r))
    (hl : ∀ x ∈ l, Witnessed types x.1 ∧ Sole limits x.1 x.2)
    (hagrees : ∀ x ∈ l, ∀ y ∈ l, x.2.form.agrees y.2.form = true) : Sole limits (l.map Prod.fst).sum r := by
  cases l with
  | nil => cases h
  | cons x rest =>
    cases h with
    | some h =>
      obtain ⟨hxw, hx⟩ := hl x List.mem_cons_self
      exact h.sole hT hxw hx fun y hy => ⟨(hl y (List.mem_cons_of_mem _ hy)).1, (hl y (List.mem_cons_of_mem _ hy)).2,
        hagrees x List.mem_cons_self y (List.mem_cons_of_mem _ hy)⟩

/-! ## Options that go together -/

variable {options rest : Catalogue} {variant merged : Schema} {bagOf : Schema → Multiset Form}

theorem Catalogue.sum_take (p : Schema → Bool) (c : Catalogue) (bagOf : Schema → Multiset Form) :
    ((Catalogue.take p c).1.map bagOf).sum + ((Table.values (Catalogue.take p c).2).map bagOf).sum =
      ((Table.values c).map bagOf).sum := by
  have hperm := ((List.filter_append_perm (fun row : String × Schema => p row.2) c).map Prod.snd).map bagOf
  rw [List.map_append, List.map_append] at hperm
  rw [← List.sum_append]
  exact hperm.sum_eq

section

variable (hT : BaseType.Coherent types)
  (hoptions : ∀ o ∈ Table.values options, Witnessed types (bagOf o) ∧ Sole limits (bagOf o) o)

include hT hoptions

/-- By induction on the rounds: the bag of the variant grows by those of the options taken. -/
theorem Gathers.sole {acc : Schema} (h : Gathers (Pools types limits) acc options r rest) (hg : Witnessed types g)
    (hacc : Sole limits g acc) : ∃ g', Witnessed types g' ∧ Sole limits g' r ∧ g ≤ g' ∧
      g' + ((Table.values rest).map bagOf).sum = g + ((Table.values options).map bagOf).sum := by
  induction h generalizing g with
  | done => exact ⟨g, hg, hacc, le_refl g, rfl⟩
  | @round acc mid r options rest _ hfolds _ ih =>
    have hsum := Catalogue.sum_take (fun o => o.joinable acc) options bagOf
    have htakenw : Witnessed types ((Catalogue.take (fun o => o.joinable acc) options).1.map bagOf).sum := by
      intro c hc
      obtain ⟨bag, hbag, hcbag⟩ := mem_sum_bags.1 hc
      obtain ⟨o, ho, rfl⟩ := List.mem_map.1 hbag
      exact (hoptions o (Catalogue.mem_taken.1 ho).1).1 c hcbag
    have hmid := Folds.sole hT (l := (Catalogue.take (fun o => o.joinable acc) options).1.map (fun o => (bagOf o, o)))
      (by rw [List.map_map, Function.comp_def, List.map_id']; exact hfolds) hg hacc fun x hx => by
        obtain ⟨o, ho, rfl⟩ := List.mem_map.1 hx
        obtain ⟨hmem, hjoinable⟩ := Catalogue.mem_taken.1 ho
        refine ⟨(hoptions o hmem).1, (hoptions o hmem).2, ?_⟩
        exact Schema.agrees_of_joinable hjoinable
    rw [List.map_map, Function.comp_def] at hmid
    obtain ⟨g', hg', hr, hle, htotal⟩ := ih (fun o ho => hoptions o (Catalogue.mem_values_left.1 ho).1) (hg.add htakenw) hmid
    refine ⟨g', hg', hr, (Multiset.le_add_right _ _).trans hle, ?_⟩
    rw [htotal, add_assoc, hsum]

/-- A variant sums up its own bag and those of the options that it takes in. -/
theorem Joins.sole (h : Joins (Pools types limits) options variant merged rest) (hg : Witnessed types g)
    (hv : Sole limits g variant) : ∃ g', Witnessed types g' ∧ Sole limits g' merged ∧ g ≤ g' ∧
      g' + ((Table.values rest).map bagOf).sum = g + ((Table.values options).map bagOf).sum := by
  have hsame : ∀ p : Schema → Bool, p variant = true → (∀ t u, p t = true → p u = true → t.agrees u = true) →
      Collects (Pools types limits) ((Catalogue.take p options).1 ++ [variant]) (Option.some merged) →
      ∃ g', Witnessed types g' ∧ Sole limits g' merged ∧ g ≤ g' ∧
        g' + ((Table.values (Catalogue.take p options).2).map bagOf).sum = g + ((Table.values options).map bagOf).sum := by
    intro p hp hagrees hcollects
    have hsum := Catalogue.sum_take p options bagOf
    have hmember : ∀ x ∈ (Catalogue.take p options).1.map (fun o => (bagOf o, o)) ++ [(g, variant)],
        Witnessed types x.1 ∧ Sole limits x.1 x.2 ∧ p x.2 = true := by
      intro x hx
      rcases List.mem_append.1 hx with hx | hx
      · obtain ⟨o, ho, rfl⟩ := List.mem_map.1 hx
        obtain ⟨hmem, hpo⟩ := Catalogue.mem_taken.1 ho
        exact ⟨(hoptions o hmem).1, (hoptions o hmem).2, hpo⟩
      · rw [List.mem_singleton.1 hx]
        exact ⟨hg, hv, hp⟩
    have hmerged := Collects.sole hT (l := (Catalogue.take p options).1.map (fun o => (bagOf o, o)) ++ [(g, variant)])
      (r := merged) (by rw [List.map_append, List.map_map, Function.comp_def, List.map_id']; exact hcollects)
      (fun x hx => ⟨(hmember x hx).1, (hmember x hx).2.1⟩) fun x hx y hy =>
        hagrees _ _ (hmember x hx).2.2 (hmember y hy).2.2
    rw [List.map_append, List.map_map, Function.comp_def, List.sum_append, List.map_singleton, List.sum_singleton] at hmerged
    refine ⟨_, fun c hc => ?_, hmerged, Multiset.le_add_left _ _, ?_⟩
    · rcases Multiset.mem_add.1 hc with hc | hc
      · obtain ⟨bag, hbag, hcbag⟩ := mem_sum_bags.1 hc
        obtain ⟨o, ho, rfl⟩ := List.mem_map.1 hbag
        exact (hoptions o (Catalogue.mem_taken.1 ho).1).1 c hcbag
      · exact hg c hc
    · rw [← hsum, add_comm _ g, add_assoc]
  cases h with
  | record hrecord h => exact hsame _ hrecord (fun t u => Schema.agrees_of_isRecord) h
  | list hlist h => exact hsame _ hlist (fun t u => Schema.agrees_of_isList) h
  | primitive _ h => exact Gathers.sole hT hoptions h hg hv

end

/-- What holds of every part of a catalogue holds of the options that are left. -/
theorem Gathers.keeps_left {A : Schema → Schema → Schema → Prop} {acc : Schema} {P : Catalogue → Prop}
    (hP : ∀ (c : Catalogue) p, P c → P (c.filter p)) (h : Gathers A acc options r rest) (hoptions : P options) : P rest := by
  induction h with
  | done => exact hoptions
  | round _ _ _ ih => exact ih (hP _ _ hoptions)

theorem Joins.keeps_left {A : Schema → Schema → Schema → Prop} {P : Catalogue → Prop}
    (hP : ∀ (c : Catalogue) p, P c → P (c.filter p)) (h : Joins A options variant merged rest) (hoptions : P options) :
    P rest := by
  cases h with
  | record | list => exact hP _ _ hoptions
  | primitive _ h => exact h.keeps_left hP hoptions

/-- What a variant has become agrees with none of the options that are left. -/
theorem Joins.apart {A : Schema → Schema → Schema → Prop} (h : Joins A options variant merged rest)
    (hbelow : variant.form.StandsBelow merged.form) : ∀ t ∈ Table.values rest, merged.agrees t = false := by
  cases h with
  | record hrecord =>
    have hmerged : merged.isRecord = true := by
      unfold Schema.isRecord at hrecord ⊢
      revert hrecord hbelow
      generalize variant.form = f, merged.form = f'
      rintro ⟨⟩ <;> simp
    exact fun t ht => agrees_of_isRecord_eq hmerged (Catalogue.mem_values_left.1 ht).2
  | list hlist =>
    have hmerged : merged.isList = true := by
      unfold Schema.isList at hlist ⊢
      revert hlist hbelow
      generalize variant.form = f, merged.form = f'
      rintro ⟨⟩ <;> simp
    exact fun t ht => agrees_of_isList_eq hmerged (Catalogue.mem_values_left.1 ht).2
  | primitive hform h =>
    have hmerged : merged.isPrimitive = true := by
      unfold Schema.isPrimitive
      rw [hform] at hbelow
      generalize merged.form = f' at hbelow
      cases hbelow
      rfl
    exact fun t ht => agrees_of_joinable_eq hmerged (h.left t ht).2

/-! ## Addresses -/

/-- Nodes that are kept apart have different canonical objects. -/
theorem Form.agrees_of_canon (h : s.canon = t.canon) (hs : s.form.isPlain = true) (ht : t.form.isPlain = true) :
    s.form.agrees t.form = true := by
  have hfield := (Schema.canon_inj h).1
  generalize s.form = f, t.form = f' at hfield hs ht
  cases f with
  | primitive p =>
    cases f' with
    | primitive q =>
      obtain ⟨htype, hkind, -⟩ := Primitive.canon_inj (Prod.ext_iff.1 hfield).2
      refine Primitive.joinable_iff.2 ⟨?_, .inr (.inr hkind)⟩
      rw [htype, BaseType.join_self]
      rfl
    | record | list => cases (Prod.ext_iff.1 hfield).1
    | absent | optional | oneOf => cases ht
  | record =>
    cases f' with
    | record => rfl
    | primitive | list => cases (Prod.ext_iff.1 hfield).1
    | absent | optional | oneOf => cases ht
  | list =>
    cases f' with
    | list => rfl
    | primitive | record => cases (Prod.ext_iff.1 hfield).1
    | absent | optional | oneOf => cases ht
  | absent | optional | oneOf => cases hs

theorem Catalogue.insert_perm {rest : Catalogue} {merged : Schema} (hf : rest.Fresh)
    (hnew : Table.find? rest merged.address = none) :
    (Table.values (Catalogue.insert rest merged)).Perm (merged :: Table.values rest) := by
  have herase : Table.erase rest merged.address = rest := Table.erase_eq_self fun row hrow heq =>
    Table.find?_eq_none.1 hnew row.2 (heq ▸ hrow)
  have hperm := (hf.1.insert_perm merged.address merged).map Prod.snd
  rw [herase] at hperm
  rw [Catalogue.insert_of_new hnew]
  exact hperm

/-! ## Alternatives -/

section

variable {dst : Schema} {conflict : Bool}

/-- The options of a node sum up their classes, which make up the whole bag. -/
theorem Offers.sole_options (hT : BaseType.Coherent types) (hvs : Witnessed types vs) (h : Offers limits vs s)
    (hform : s.core.form = .oneOf options conflict) :
    conflict = true ∧ Catalogue.Reduced options ∧ options ≠ [] ∧
      (∀ o ∈ Table.values options, Sole limits (agreeing vs o.form) o) ∧
        ((Table.values options).map (fun o => agreeing vs o.form)).sum = vs := by
  obtain ⟨hconflict, hne, hreduced⟩ := h.regular.alternatives options conflict hform
  have hvariants : s.variants = (Table.values options).map Schema.form := by
    unfold Schema.variants
    rw [hform]
  have hsum := h.sum_agreeing hT hvs
  rw [hvariants, List.map_map] at hsum
  refine ⟨hconflict, hreduced, hne, fun o ho => ⟨hreduced.bare o ho, h.summary o.form ?_⟩, hsum⟩
  rw [hvariants]
  exact List.mem_map_of_mem ho

/-- A node whose options are what a variant has become, and others that it is apart from. -/
structure Extends (types : List BaseType) (limits : Limits) (bagOf : Schema → Multiset Form) (g : Multiset Form)
    (rest : Catalogue) (merged : Schema) : Prop where
  witnessed : Witnessed types g
  sole : Sole limits g merged
  left : ∀ o ∈ Table.values rest, Witnessed types (bagOf o) ∧ Sole limits (bagOf o) o
  fresh : rest.Fresh
  exclusive : rest.Exclusive
  apart : ∀ o ∈ Table.values rest, merged.agrees o = false
  new : Table.find? rest merged.address = none

/-- The variant and the options that were left offer their bags together. -/
theorem Extends.offers (hT : BaseType.Coherent types) (h : Extends types limits bagOf g rest merged) (hne : rest ≠ [])
    (hform : s.form = .oneOf (Catalogue.insert rest merged) true) (hmetadata : s.metadata = none) :
    Offers limits (g + ((Table.values rest).map bagOf).sum) s := by
  have hperm := Catalogue.insert_perm h.fresh h.new
  have hcore := Schema.core_of_isOptional_eq (Schema.isOptional_of_oneOf hform)
  have hplain : merged.isPlain = true := h.sole.summary.isPlain h.witnessed
  have hmember : ∀ o ∈ Table.values (Catalogue.insert rest merged), o = merged ∨ o ∈ Table.values rest := fun o ho =>
    List.mem_cons.1 (hperm.mem_iff.1 ho)
  have hlength : (Catalogue.insert rest merged).length = rest.length + 1 := by
    simpa [Table.values] using hperm.length_eq
  have hpos : 0 < rest.length := List.length_pos_iff.2 hne
  -- the root, and the options under their addresses, apart from one another
  have hregular : s.Regular := by
    refine ⟨hmetadata, by rw [hcore, hmetadata], ?_, fun options conflict hoptions => ?_⟩
    · rw [hcore]
      exact Schema.isOptional_of_oneOf hform
    · rw [hcore, hform] at hoptions
      cases hoptions
      refine ⟨rfl, fun hnil => ?_, ⟨h.fresh.insert merged, by omega, ?_, fun o ho => ?_⟩⟩
      · rw [hnil] at hlength
        simp at hlength
      · exact h.exclusive.insert_of_new h.fresh.1 hplain h.apart h.new
      · rcases hmember o ho with rfl | ho
        · exact h.sole.bare
        · exact (h.left o ho).2.bare
  have hvariants : s.variants = (Table.values (Catalogue.insert rest merged)).map Schema.form := by
    unfold Schema.variants
    rw [hcore, hform]
  -- each option sums up a bag of its own
  have hclass : ∀ x ∈ (g, merged.form) :: (Table.values rest).map (fun o => (bagOf o, o.form)),
      Witnessed types x.1 ∧ Summary limits x.1 x.2 := by
    intro x hx
    rcases List.mem_cons.1 hx with rfl | hx
    · exact ⟨h.witnessed, h.sole.summary⟩
    · obtain ⟨o, ho, rfl⟩ := List.mem_map.1 hx
      exact ⟨(h.left o ho).1, (h.left o ho).2.summary⟩
  have hoffers := Offers.of_classes hT (s := s) (l := (g, merged.form) :: (Table.values rest).map (fun o => (bagOf o, o.form)))
    (fun c hc => by
      obtain ⟨bag, hbag, hcbag⟩ := mem_sum_bags.1 hc
      obtain ⟨x, hx, rfl⟩ := List.mem_map.1 hbag
      exact (hclass x hx).1 c hcbag) (fun x hx => (hclass x hx).2) hregular (by
      rw [hvariants, List.map_cons, List.map_map, Function.comp_def]
      exact hperm.map Schema.form)
  rwa [List.map_cons, List.sum_cons, List.map_map, Function.comp_def] at hoffers

/-- A single option takes the place of the alternatives. -/
theorem Extends.withOptions (hT : BaseType.Coherent types) (h : Extends types limits bagOf g rest merged)
    (hmetadata : dst.metadata = none) :
    Offers limits (g + ((Table.values rest).map bagOf).sum) (dst.withOptions (Catalogue.insert rest merged) true) ∧
      (dst.withOptions (Catalogue.insert rest merged) true).isOptional = false ∧
        (dst.withOptions (Catalogue.insert rest merged) true).nullable = dst.nullable := by
  by_cases hne : rest = []
  · subst hne
    have hinsert : Catalogue.insert [] merged = [(merged.address, merged)] := rfl
    have hplain := h.sole.summary.isPlain h.witnessed
    rw [hinsert]
    refine ⟨?_, ?_, ?_⟩
    · show Offers limits (g + 0) _
      rw [add_zero]
      exact .of_isPlain hT h.witnessed h.sole.summary hmetadata
    · exact Schema.isOptional_of_isPlain hplain
    · show (dst.nullable || merged.nullable) = dst.nullable
      rw [h.sole.bare.nullable, Bool.or_false]
  · have hform : (dst.withOptions (Catalogue.insert rest merged) true).form = .oneOf (Catalogue.insert rest merged) true :=
      withOptions_insert hne h.new
    have hmetadata' : (dst.withOptions (Catalogue.insert rest merged) true).metadata = none := by
      rw [metadata_withOptions, hmetadata]
    refine ⟨h.offers hT hne hform hmetadata', Schema.isOptional_of_oneOf hform, ?_⟩
    · unfold Schema.withOptions at hform ⊢
      split at hform
      · rename_i key sole heq
        have hlength := (Catalogue.insert_perm h.fresh h.new).length_eq
        rw [heq] at hlength
        exact absurd (by simpa [Table.values] using hlength) hne
      · rfl

end

end ApiShape

/-
Absorbing adds bags. One step offers the shapes of both trees when the calls that it makes do, whichever way
the trees are told apart: by cases on the step, with the classes of options for alternatives.
-/
import ApiShape.Proofs.Absorb.Compared
import ApiShape.Proofs.Evidence.Options

namespace ApiShape

variable {types : List BaseType} {limits : Limits} {g g' vs vs' : Multiset Form} {s t r dst src : Schema}

/-! ## Layers of results -/

theorem Schema.nullable_inside_of_isPlain (h : s.form.isPlain = true) : s.inside.nullable = s.nullable := by
  rw [Schema.nullable_inside, (Schema.variants_of_isPlain h).2, Bool.or_self]

/-- The layers of a result without an optional layer, when neither side has one and the source is not nullable. -/
theorem Wraps.of_present (hd : dst.isOptional = false) (hs : src.isOptional = false) (hnull : src.nullable = false)
    (hr : r.isOptional = false) (hrnull : r.nullable = dst.nullable)
    (hjoined : dst.form.agrees src.form = true → r.form.isPlain = true) : Wraps dst src r where
  optional := by simp [hd, hs, hr]
  nullable := by
    rw [Schema.inside_of_isOptional_eq hd, Schema.inside_of_isOptional_eq hs, Schema.inside_of_isOptional_eq hr, hrnull, hnull]
    simp
  bare h := by rw [hr] at h; cases h
  joined := hjoined

theorem Wraps.isOptional_eq (h : Wraps dst src r) (hd : dst.isOptional = false) (hs : src.isOptional = false) :
    r.isOptional = false := by
  refine eq_false_of_ne_true fun hr => ?_
  rcases h.optional.1 hr with hopt | hopt
  · rw [hd] at hopt
    cases hopt
  · rw [hs] at hopt
    cases hopt

/-! ## Steps -/

/-- The absorber gives this result, which offers the shapes of both trees. -/
def YieldsPool (types : List BaseType) (limits : Limits) (absorb : Absorber) (d s r : Schema) : Prop :=
  absorb d s = .ok r ∧ Pools types limits d s r

section

variable {absorb : Absorber} (hT : BaseType.Coherent types)

include hT

/-- Two shapes that do not agree are kept side by side. -/
theorem Schema.conflict_offers (hvs : Witnessed types vs) (hvs' : Witnessed types vs') (hd : Offers limits vs dst)
    (hs : Offers limits vs' src) (hdplain : dst.form.isPlain = true) (hsplain : src.form.isPlain = true)
    (hagrees : dst.form.agrees src.form = false)
    (hcanon : dst.bare.address = src.bare.address → dst.bare.canon = src.bare.canon) :
    Offers limits (vs + vs') (dst.conflict src) := by
  have hrest : Catalogue.insert [] dst.bare = [(dst.bare.address, dst.bare)] := rfl
  have hextends : Extends types limits (fun _ => vs) vs' (Catalogue.insert [] dst.bare) src.bare :=
    { witnessed := hvs'
      sole := ⟨⟨rfl, rfl⟩, hs.summary_of_isPlain hsplain⟩
      left := fun o ho => by
        rw [hrest] at ho
        obtain rfl := List.mem_singleton.1 ho
        exact ⟨hvs, ⟨rfl, rfl⟩, hd.summary_of_isPlain hdplain⟩
      fresh := Catalogue.Fresh.nil.insert _
      exclusive := Catalogue.Exclusive.nil.insert_of_new .nil hdplain (fun t ht => absurd ht List.not_mem_nil) rfl
      apart := fun o ho => by
        rw [hrest] at ho
        obtain rfl := List.mem_singleton.1 ho
        rw [agrees_comm]
        exact hagrees
      new := by
        rw [hrest]
        refine if_neg fun haddress => ?_
        have hsame := Form.agrees_of_canon (hcanon haddress) hdplain hsplain
        rw [show dst.bare.form.agrees src.bare.form = dst.form.agrees src.form from rfl, hagrees] at hsame
        cases hsame }
  have hoffers := hextends.offers hT (s := dst.conflict src) (fun h => by rw [hrest] at h; cases h)
    (Schema.form_conflict dst src) hd.regular.metadata
  rw [hrest] at hoffers
  simpa [Table.values, add_comm] using hoffers

/-- A variant among the options of a node. -/
theorem Joins.offers {options rest : Catalogue} {conflict : Bool} {merged : Schema} (hvs : Witnessed types vs)
    (hvs' : Witnessed types vs') (hd : Offers limits vs dst) (hs : Offers limits vs' src) (hsplain : src.form.isPlain = true)
    (hdf : dst.form = .oneOf options conflict) (h : Joins (Pools types limits) options src.bare merged rest)
    (hcanon : ∀ stored ∈ Table.values rest, stored.address = merged.address → stored.canon = merged.canon) :
    Offers limits (vs + vs') ((dst.orNullable src.nullable).withOptions (Catalogue.insert rest merged) conflict) ∧
      ((dst.orNullable src.nullable).withOptions (Catalogue.insert rest merged) conflict).isOptional = false ∧
        ((dst.orNullable src.nullable).withOptions (Catalogue.insert rest merged) conflict).nullable =
          (dst.nullable || src.nullable) := by
  have hcore := Schema.core_of_isOptional_eq (Schema.isOptional_of_oneOf hdf)
  obtain ⟨rfl, hreduced, -, hsole, hsum⟩ := hd.sole_options hT hvs (hcore.symm ▸ hdf)
  have hvariant : Sole limits vs' src.bare := ⟨⟨rfl, rfl⟩, hs.summary_of_isPlain hsplain⟩
  have hoptions : ∀ o ∈ Table.values options, Witnessed types (agreeing vs o.form) ∧ Sole limits (agreeing vs o.form) o :=
    fun o ho => ⟨hvs.agreeing o.form, hsole o ho⟩
  obtain ⟨g', hg', hmerged, hle, htotal⟩ := h.sole hT hoptions hvs' hvariant
  have hleft : rest.Fresh ∧ rest.Exclusive := h.keeps_left (P := fun c => c.Fresh ∧ c.Exclusive)
    (fun c p hc => ⟨hc.1.filter p, hc.2.filter p⟩) ⟨hreduced.fresh, hreduced.exclusive⟩
  have hapart := h.apart (hvariant.summary.mono hT hvs' hg' hmerged.summary fun c hc => Multiset.mem_of_le hle hc)
  have hmergedPlain := hmerged.summary.isPlain hg'
  have hnew : Table.find? rest merged.address = none := by
    refine Table.find?_eq_none.2 fun stored hstored => ?_
    have hmem := Table.mem_values_of_mem hstored
    have hplain := hleft.2.plain stored hmem
    have hagrees := Form.agrees_of_canon (hcanon stored hmem (hleft.1.2 _ hstored).symm) hplain hmergedPlain
    rw [Form.agrees_comm, show merged.form.agrees stored.form = false from hapart stored hmem] at hagrees
    cases hagrees
  have hextends : Extends types limits (fun o => agreeing vs o.form) g' rest merged :=
    { witnessed := hg'
      sole := hmerged
      left := fun o ho => hoptions o (h.left o ho)
      fresh := hleft.1
      exclusive := hleft.2
      apart := hapart
      new := hnew }
  have hmetadata : (dst.orNullable src.nullable).metadata = none := hd.regular.metadata
  have hresult := hextends.withOptions hT hmetadata
  rw [htotal, hsum, add_comm] at hresult
  exact hresult

/-- Two shapes of one kind, of which one is absorbed into the other. -/
theorem Pools.of_summary {form : Form} (hd : dst.form.isPlain = true) (hs : src.form.isPlain = true) (hbare : src.IsBare)
    (h : ∀ vs vs', Witnessed types vs → Witnessed types vs' → Summary limits vs dst.form → Summary limits vs' src.form →
      Summary limits (vs + vs') form) (e : Examples) :
    Pools types limits dst src ({ dst with form := form }.mergeExamples e) := by
  intro vs vs' hvs hvs' hdo hso
  have hsummary := h vs vs' hvs hvs' (hdo.summary_of_isPlain hd) (hso.summary_of_isPlain hs)
  have hplain := hsummary.isPlain (hvs.add hvs')
  refine ⟨Offers.of_isPlain hT (hvs.add hvs') hsummary hdo.regular.metadata, ?_⟩
  exact .of_present (Schema.isOptional_of_isPlain hd) (Schema.isOptional_of_isPlain hs) hbare.nullable
    (Schema.isOptional_of_isPlain hplain) rfl fun _ => hplain

theorem Pools.conflict (hd : dst.form.isPlain = true) (hs : src.form.isPlain = true) (hbare : src.IsBare)
    (hagrees : dst.form.agrees src.form = false)
    (hcanon : dst.bare.address = src.bare.address → dst.bare.canon = src.bare.canon) :
    Pools types limits dst src (dst.conflict src) := by
  intro vs vs' hvs hvs' hdo hso
  refine ⟨Schema.conflict_offers hT hvs hvs' hdo hso hd hs hagrees hcanon, ?_⟩
  refine .of_present (Schema.isOptional_of_isPlain hd) (Schema.isOptional_of_isPlain hs) hbare.nullable rfl ?_
    fun h => ?_
  · show (dst.nullable || src.nullable) = dst.nullable
    rw [hbare.nullable, Bool.or_false]
  · rw [hagrees] at h
    cases h

omit hT in
/-- The optional layer of the destination stays around what its interior has become. -/
theorem Pools.inner {inner : Schema} (hdf : dst.form = .optional inner) (hopt : inner.isOptional = false)
    (hsopt : src.isOptional = false) (h : Pools types limits inner src r) :
    Pools types limits dst src { dst.orNullable r.nullable with form := .optional { r with nullable := false } } := by
  intro vs vs' hvs hvs' hd hs
  have hcore := Schema.core_of_optional hdf
  have hinner := hd.relayer hd.regular.relayered_core
  rw [hcore] at hinner
  obtain ⟨hoffers, hwraps⟩ := h vs vs' hvs hvs' hinner hs
  have hr := hwraps.isOptional_eq hopt hsopt
  refine ⟨hoffers.relayer ⟨?_, fun _ => hd.regular.metadata, fun hr => hr.metadata⟩, ?_, ?_, fun _ => rfl, fun h => ?_⟩
  · rw [Schema.core_of_isOptional_eq hr]
    rfl
  · exact ⟨fun _ => .inl (Schema.isOptional_of_optional hdf), fun _ => rfl⟩
  · have hnull := hwraps.nullable
    rw [Schema.inside_of_isOptional_eq hr, Schema.inside_of_isOptional_eq hopt] at hnull
    rw [Schema.nullable_inside dst, hcore]
    show ((false || (dst.nullable || r.nullable)) = true) ↔ _
    simp only [Bool.false_or, Bool.or_eq_true, hnull]
    tauto
  · rw [hdf] at h
    cases h

/-- A step on a plain source. -/
theorem PlainStep.pools (h : PlainStep (YieldsPool types limits absorb) limits dst src r) (hs : src.isPlain = true)
    (hbare : src.IsBare) (hcanon : ∀ a b, Compares absorb dst src a b → a.address = b.address → a.canon = b.canon) :
    Pools types limits dst src r := by
  have hpools : ∀ d s r, YieldsPool types limits absorb d s r → Pools types limits d s r := fun _ _ _ h => h.2
  have hsplain : src.form.isPlain = true := hs
  have hsopt := Schema.isOptional_of_isPlain hs
  cases h with
  | record hdf hsf h =>
    refine .of_summary hT (by rw [hdf]; rfl) hsplain hbare (fun vs vs' hvs hvs' hd hs => ?_) _
    rw [hdf] at hd
    rw [hsf] at hs
    exact (h.mono hpools).summary hT hvs hvs' hd hs
  | list hdf hsf h =>
    refine .of_summary hT (by rw [hdf]; rfl) hsplain hbare (fun vs vs' hvs hvs' hd hs => ?_) _
    rw [hdf] at hd
    rw [hsf] at hs
    exact (h.mono hpools).summary hT hvs hvs' hd hs
  | primitive hdf hsf hj =>
    refine .of_summary hT (by rw [hdf]; rfl) hsplain hbare (fun vs vs' hvs hvs' hd hs => ?_) _
    rw [hdf] at hd
    rw [hsf] at hs
    exact hd.join hT hvs hvs' hj hs
  | conflict hdp hagrees =>
    exact .conflict hT hdp hsplain hbare hagrees (hcanon _ _ (.conflict hdp hs hagrees))
  | inner hdf hopt h => exact .inner hdf hopt hsopt h.2
  | absent hdf => exact fun _ _ _ _ hd _ => absurd hdf hd.regular.form_ne_absent
  | option hdf h =>
    intro vs vs' hvs hvs' hd hsrc
    obtain ⟨hoffers, hopt, hnull⟩ := Joins.offers hT hvs hvs' hd hsrc hsplain hdf (h.mono hpools) fun stored hstored =>
      hcanon stored _ (.option hs hdf (h.mono fun _ _ _ h => h.1) hstored)
    refine ⟨hoffers, .of_present (Schema.isOptional_of_oneOf hdf) hsopt hbare.nullable hopt ?_ fun hagrees => ?_⟩
    · rw [hnull, hbare.nullable, Bool.or_false]
    · rw [hdf] at hagrees
      cases hagrees

omit hT in
/-- What surrounds the shape of a plain source does not matter to its options. -/
theorem Pools.of_bare (hs : src.isPlain = true) (h : Pools types limits (dst.orNullable src.nullable) src.bare r) :
    Pools types limits dst src r := by
  intro vs vs' hvs hvs' hd hsrc
  have hsplain : src.form.isPlain = true := hs
  obtain ⟨hoffers, hwraps⟩ := h vs vs' hvs hvs' (hd.relayer (dst.relayered_orNullable _)) (hsrc.relayer src.relayered_bare)
  refine ⟨hoffers, hwraps.optional, ?_, hwraps.bare, hwraps.joined⟩
  rw [hwraps.nullable, dst.nullable_inside_orNullable, Schema.nullable_inside_of_isPlain (s := src.bare) hsplain,
    Schema.nullable_inside_of_isPlain hsplain]
  simp

omit hT in
/-- The optional layer of the source goes around the result. -/
theorem Pools.makeOptional {inner : Schema} (hsf : src.form = .optional inner)
    (h : Pools types limits (dst.orNullable src.nullable) inner r) (e : Examples) :
    Pools types limits dst src (r.makeOptional.mergeExamples e) := by
  intro vs vs' hvs hvs' hd hs
  have hcore := Schema.core_of_optional hsf
  have hinner := hs.relayer hs.regular.relayered_core
  have hpresent := hs.regular.present
  rw [hcore] at hinner hpresent
  obtain ⟨hoffers, hwraps⟩ := h vs vs' hvs hvs' (hd.relayer (dst.relayered_orNullable _)) hinner
  have hcoreNull : (r.makeOptional.mergeExamples e).core.nullable = r.makeOptional.core.nullable :=
    Schema.nullable_core_congr (r.makeOptional.form_mergeExamples e) rfl
  refine ⟨hoffers.relayer (r.relayered_makeOptional.trans (Schema.relayered_mergeExamples _ _)), ?_, ?_, fun _ => ?_, fun h => ?_⟩
  · exact ⟨fun _ => .inr (Schema.isOptional_of_optional hsf), fun _ => r.isOptional_makeOptional⟩
  · have hflat : (r.makeOptional.mergeExamples e).inside.nullable = r.inside.nullable := by
      rw [← hoffers.regular.inside_makeOptional, Schema.nullable_inside, Schema.nullable_inside, hcoreNull]
      rfl
    rw [hflat, hwraps.nullable, dst.nullable_inside_orNullable, Schema.inside_of_isOptional_eq hpresent,
      Schema.nullable_inside src, hcore]
    simp only [Bool.or_eq_true]
    tauto
  · rw [hcoreNull]
    cases hopt : r.isOptional with
    | true =>
      rw [Schema.makeOptional_of_isOptional hopt]
      exact hwraps.bare hopt
    | false =>
      rw [Schema.core_makeOptional hopt]
      rfl
  · rw [hsf, Form.agrees_comm] at h
    cases h

omit hT in
/-- Alternatives change places with a destination that is none. -/
theorem Pools.swap {options : Catalogue} {conflict : Bool} {e : Examples} (hsf : src.form = .oneOf options conflict)
    (h : Pools types limits { dst.orNullable src.nullable with form := .oneOf options conflict, examples := e } dst.bare r) :
    Pools types limits dst src r := by
  intro vs vs' hvs hvs' hd hs
  have hsopt := Schema.isOptional_of_oneOf hsf
  have hfirst := hs.relayer (t := { dst.orNullable src.nullable with form := .oneOf options conflict, examples := e })
    ⟨by rw [Schema.core_of_isOptional_eq hsopt, hsf]; rfl, fun _ => hd.regular.metadata, fun _ => hd.regular.metadata⟩
  obtain ⟨hoffers, hwraps⟩ := h vs' vs hvs' hvs hfirst (hd.relayer dst.relayered_bare)
  rw [add_comm]
  refine ⟨hoffers, ?_, ?_, hwraps.bare, fun h => ?_⟩
  · rw [hwraps.optional, hsopt]
    exact or_comm
  · rw [hwraps.nullable]
    show ((dst.nullable || src.nullable) || (dst.nullable || src.nullable)) = true ∨ dst.bare.inside.nullable = true ↔ _
    rw [Schema.inside_of_isOptional_eq hsopt, ← dst.nullable_inside_bare]
    simp only [Bool.or_self, Bool.or_eq_true]
    tauto
  · rw [hsf, Form.agrees_comm] at h
    cases h

/-- Options absorbed one after the other. -/
theorem Folds.offers {acc : Schema} {l : List (Multiset Form × Schema)}
    (h : Folds (Pools types limits) acc (l.map Prod.snd) r) (hg : Witnessed types g) (hacc : Offers limits g acc)
    (hopt : acc.isOptional = false) (hl : ∀ x ∈ l, Witnessed types x.1 ∧ Sole limits x.1 x.2) :
    Offers limits (g + (l.map Prod.fst).sum) r ∧ r.isOptional = false ∧ r.nullable = acc.nullable := by
  induction l generalizing acc g with
  | nil =>
    cases h
    exact ⟨by simpa using hacc, hopt, rfl⟩
  | cons x rest ih =>
    cases h with
    | @cons _ _ mid _ _ hmid h =>
      obtain ⟨hxw, hx⟩ := hl x List.mem_cons_self
      obtain ⟨hoffers, hwraps⟩ := hmid g x.1 hg hxw hacc (hx.offers hT hxw)
      have hxplain := hx.summary.isPlain hxw
      have hxopt := Schema.isOptional_of_isPlain hxplain
      have hmidopt := hwraps.isOptional_eq hopt hxopt
      have hmidnull : mid.nullable = acc.nullable := by
        have hnull := hwraps.nullable
        rw [Schema.inside_of_isOptional_eq hmidopt, Schema.inside_of_isOptional_eq hopt,
          Schema.inside_of_isOptional_eq hxopt, hx.bare.nullable] at hnull
        simpa using hnull
      obtain ⟨hresult, hropt, hrnull⟩ := ih h (hg.add hxw) hoffers hmidopt fun y hy => hl y (List.mem_cons_of_mem _ hy)
      rw [add_assoc, ← List.sum_cons, ← List.map_cons (f := Prod.fst)] at hresult
      exact ⟨hresult, hropt, hrnull.trans hmidnull⟩

/-- The options of the source are absorbed among those of the destination. -/
theorem Pools.alternatives {options srcOptions : Catalogue} {conflict srcConflict : Bool} {e : Examples}
    (hsf : src.form = .oneOf srcOptions srcConflict) (hdf : dst.form = .oneOf options conflict)
    (h : Folds (Pools types limits) { (dst.orNullable src.nullable).mergeExamples e with
      form := .oneOf options (conflict || srcConflict) } (Table.values srcOptions) r) : Pools types limits dst src r := by
  intro vs vs' hvs hvs' hd hs
  have hsopt := Schema.isOptional_of_oneOf hsf
  have hdopt := Schema.isOptional_of_oneOf hdf
  obtain ⟨rfl, -, -, hsole, hsum⟩ := hs.sole_options hT hvs' ((Schema.core_of_isOptional_eq hsopt).symm ▸ hsf)
  obtain ⟨rfl, -⟩ := hd.sole_options hT hvs ((Schema.core_of_isOptional_eq hdopt).symm ▸ hdf)
  have hfirst := hd.relayer (t := { (dst.orNullable src.nullable).mergeExamples e with form := .oneOf options (true || true) })
    (.of_form hdf.symm id)
  obtain ⟨hoffers, hropt, hrnull⟩ := Folds.offers hT (l := (Table.values srcOptions).map (fun o => (agreeing vs' o.form, o)))
    (by rw [List.map_map, Function.comp_def, List.map_id']; exact h) hvs hfirst rfl fun x hx => by
      obtain ⟨o, ho, rfl⟩ := List.mem_map.1 hx
      exact ⟨hvs'.agreeing o.form, hsole o ho⟩
  rw [List.map_map, Function.comp_def, hsum] at hoffers
  refine ⟨hoffers, ?_, ?_, fun h => ?_, fun h => ?_⟩
  · simp [hropt, hsopt, hdopt]
  · rw [Schema.inside_of_isOptional_eq hropt, Schema.inside_of_isOptional_eq hdopt, Schema.inside_of_isOptional_eq hsopt, hrnull]
    exact Bool.or_eq_true _ _ ▸ Iff.rfl
  · rw [hropt] at h
    cases h
  · rw [hsf, Form.agrees_comm] at h
    cases h

/-- One step offers the shapes of both trees when its calls do. -/
theorem Step.pools (h : Step (YieldsPool types limits absorb) limits dst src r)
    (hcanon : ∀ a b, Compares absorb dst src a b → a.address = b.address → a.canon = b.canon) :
    Pools types limits dst src r := by
  induction h with
  | optional hsf _ ih => exact .makeOptional hsf (ih fun a b hab => hcanon a b (.optional hsf hab)) _
  | absent hsf => exact fun _ _ _ _ _ hs => absurd hsf hs.regular.form_ne_absent
  | swap hsf _ h => exact .swap hsf h.2
  | alternatives hsf hdf _ h => exact .alternatives hT hsf hdf (h.mono fun _ _ _ h => h.2)
  | plain hs h => exact .of_bare hs (PlainStep.pools hT h hs ⟨rfl, rfl⟩ fun a b hab => hcanon a b (hab.of_bare hs))

end

end ApiShape

/-
The shapes of a bag fall into classes, one for each variant of a node that covers them. A variant joins with
whatever one of its class joins with, so that the classes of two nodes that cover one bag are the same.
-/
import ApiShape.Proofs.Evidence.Basic

namespace ApiShape

/-! ## Shapes that stand for others -/

/-- The second shape is of the kind of the first, with a type and a format that are at least as wide. -/
inductive Form.StandsBelow : Form → Form → Prop
  | primitive {p q : Primitive} : p.Below q → Form.StandsBelow (.primitive p) (.primitive q)
  | record (fields fields' : Table Schema) (mapping mapping' : Option Mapping) :
      Form.StandsBelow (.record fields mapping) (.record fields' mapping')
  | list (elems elems' : List Schema) : Form.StandsBelow (.list elems) (.list elems')

/-- The type of a primitive is among the given ones. -/
def Form.Typed (types : List BaseType) (f : Form) : Prop := ∀ p, f = .primitive p → p.baseType ∈ types

namespace Form

variable {types : List BaseType} {f g h : Form}

theorem StandsBelow.refl (hf : f.isPlain = true) : f.StandsBelow f := by
  cases f with
  | primitive p => exact .primitive (.refl p)
  | record => exact .record _ _ _ _
  | list => exact .list _ _
  | absent | optional | oneOf => cases hf

theorem StandsBelow.isPlain (h : f.StandsBelow g) : f.isPlain = true ∧ g.isPlain = true := by
  cases h <;> exact ⟨rfl, rfl⟩

theorem Observed.isPlain (h : f.Observed types) : f.isPlain = true := by
  cases f <;> first | rfl | exact h.elim

theorem Observed.typed (h : f.Observed types) : f.Typed types := by
  rintro p rfl
  exact h.type

/-- What stands for a shape agrees with whatever the shape agrees with. -/
theorem StandsBelow.agrees (hT : BaseType.Coherent types) (hfg : f.StandsBelow g) (hf : f.Typed types) (hg : g.Typed types)
    (hh : h.Typed types) (hagrees : f.agrees h = true) : g.agrees h = true := by
  cases hfg with
  | primitive hpq =>
    cases h with
    | primitive u => exact Primitive.joinable_of_below hT hpq (hf _ rfl) (hg _ rfl) (hh _ rfl) hagrees
    | record | list | absent | optional | oneOf => cases hagrees
  | record | list => cases h <;> first | rfl | cases hagrees

theorem StandsBelow.agrees_self (hT : BaseType.Coherent types) (hfg : f.StandsBelow g) (hf : f.Typed types) (hg : g.Typed types) :
    f.agrees g = true := by
  rw [agrees_comm]
  exact hfg.agrees hT hf hg hf (Form.agrees_self hfg.isPlain.1)

end Form

/-! ## Bags of shapes of witnesses -/

/-- The shapes of a bag are those of witnesses. -/
def Witnessed (types : List BaseType) (g : Multiset Form) : Prop := ∀ c ∈ g, c.Witness types

section

variable {types : List BaseType} {limits : Limits} {g g' vs : Multiset Form} {f u c : Form}

theorem Witnessed.of_le (h : Witnessed types g) (hle : g' ≤ g) : Witnessed types g' :=
  fun c hc => h c (Multiset.mem_of_le hle hc)

theorem Witnessed.add (h : Witnessed types g) (h' : Witnessed types g') : Witnessed types (g + g') :=
  fun c hc => (Multiset.mem_add.1 hc).elim (h c) (h' c)

theorem Witnessed.agreeing (h : Witnessed types g) (f : Form) : Witnessed types (agreeing g f) :=
  h.of_le (Multiset.filter_le _ _)

theorem Witnessed.typed (h : Witnessed types g) (hc : c ∈ g) : c.Typed types := (h c hc).observed.typed

theorem Witnessed.isPlain (h : Witnessed types g) (hc : c ∈ g) : c.isPlain = true := (h c hc).observed.isPlain

theorem mem_primitives {p : Primitive} : p ∈ g.filterMap Form.primitive? ↔ .primitive p ∈ g := by
  rw [Multiset.mem_filterMap]
  constructor
  · rintro ⟨c, hc, hcp⟩
    cases c <;> cases hcp
    exact hc
  · exact fun hp => ⟨_, hp, rfl⟩

theorem Witnessed.primitives (h : Witnessed types g) : ∀ p ∈ g.filterMap Form.primitive?, p.Observed types :=
  fun _ hp => (h _ (mem_primitives.1 hp)).observed

theorem mem_agreeing : c ∈ agreeing g f ↔ c ∈ g ∧ c.agrees f = true := by
  unfold agreeing
  exact Multiset.mem_filter

theorem mem_variantsSeen {seen : Multiset Schema} : c ∈ variantsSeen seen ↔ ∃ s ∈ seen, c ∈ s.variants := by
  unfold variantsSeen
  simp

/-! ### Joined primitives -/

section

variable {ps : Multiset Primitive} {j : Primitive} {w : Form}

theorem Primitive.JoinOf.below_form (hT : BaseType.Coherent types) (h : JoinOf ps j) (hps : ∀ p ∈ ps, p.Observed types)
    (hw : w.Typed types) (hall : ∀ p ∈ ps, (Form.primitive p).StandsBelow w) : (Form.primitive j).StandsBelow w := by
  obtain ⟨p, hp⟩ := h.exists_mem
  cases hall p hp with
  | @primitive _ u _ =>
    refine .primitive (h.least hT hps (hw u rfl) fun q hq => ?_)
    cases hall q hq with
    | primitive hq => exact hq

/-- Primitives that were joined stand below one and the same of several shapes that do not agree. -/
theorem Primitive.JoinOf.connected (hT : BaseType.Coherent types) {W : Form → Prop}
    (happart : ∀ w w', W w → W w' → w.agrees w' = true → w = w') (htyped : ∀ w, W w → w.Typed types) (h : JoinOf ps j)
    (hps : ∀ p ∈ ps, p.Observed types) (hcovers : ∀ p ∈ ps, ∃ w, W w ∧ (Form.primitive p).StandsBelow w) :
    ∃ w, W w ∧ ∀ p ∈ ps, (Form.primitive p).StandsBelow w := by
  induction h with
  | single p =>
    obtain ⟨w, hw, hpw⟩ := hcovers p (Multiset.mem_singleton_self p)
    refine ⟨w, hw, fun q hq => ?_⟩
    rwa [Multiset.mem_singleton.1 hq]
  | @join ps qs p q j hp hq hj ihp ihq =>
    have hpobs := fun x hx => hps x (Multiset.mem_add.2 (.inl hx))
    have hqobs := fun x hx => hps x (Multiset.mem_add.2 (.inr hx))
    obtain ⟨w, hw, hpall⟩ := ihp hpobs fun x hx => hcovers x (Multiset.mem_add.2 (.inl hx))
    obtain ⟨w', hw', hqall⟩ := ihq hqobs fun x hx => hcovers x (Multiset.mem_add.2 (.inr hx))
    have hpt : (Form.primitive p).Typed types := by rintro _ ⟨⟩; exact (hp.observed hT hpobs).type
    have hqt : (Form.primitive q).Typed types := by rintro _ ⟨⟩; exact (hq.observed hT hqobs).type
    -- Both sides join, and so do the shapes above them, which are one shape then.
    have hpq : (Form.primitive p).agrees (.primitive q) = true := by
      show (p.join q).isSome = true
      rw [hj]
      rfl
    have hwq := (hp.below_form hT hpobs (htyped w hw) hpall).agrees hT hpt (htyped w hw) hqt hpq
    rw [Form.agrees_comm] at hwq
    have hww := (hq.below_form hT hqobs (htyped w' hw') hqall).agrees hT hqt (htyped w' hw') (htyped w hw) hwq
    rw [Form.agrees_comm] at hww
    obtain rfl := happart w w' hw hw' hww
    exact ⟨w, hw, fun x hx => (Multiset.mem_add.1 hx).elim (hpall x) (hqall x)⟩

end

/-! ### Summaries -/

namespace Summary

theorem card_pos (h : Summary limits g f) : 0 < g.card := by
  cases h with
  | single => simp
  | merged hseveral => omega

theorem exists_mem (h : Summary limits g f) : ∃ c, c ∈ g := Multiset.card_pos_iff_exists_mem.1 h.card_pos

theorem eq_single (h : Summary limits g f) (hcard : g.card < 2) : g = {f} := by
  cases h with
  | single => rfl
  | merged hseveral => omega

theorem typed (hT : BaseType.Coherent types) (hg : Witnessed types g) (h : Summary limits g f) : f.Typed types := by
  cases h with
  | single => exact hg.typed (Multiset.mem_singleton_self f)
  | merged _ _ hsums =>
    rintro p rfl
    cases hsums with
    | primitive hp => exact (hp.observed hT hg.primitives).type

/-- A summary stands above each of its witnesses. -/
theorem below_of_mem (hg : Witnessed types g) (h : Summary limits g f) : ∀ c ∈ g, c.StandsBelow f := by
  intro c hc
  cases h with
  | single =>
    obtain rfl := Multiset.mem_singleton.1 hc
    exact .refl (hg.isPlain (Multiset.mem_singleton_self c))
  | merged _ hagrees hsums =>
    have hcf := hagrees c hc
    cases hsums with
    | primitive hp =>
      obtain ⟨q, rfl, -⟩ := Form.agrees_primitive hcf
      exact .primitive (hp.below_of_mem q (mem_primitives.2 hc))
    | record | map =>
      obtain ⟨fields, mapping, rfl⟩ := Form.agrees_record hcf
      exact .record _ _ _ _
    | list =>
      obtain ⟨elems, rfl⟩ := Form.agrees_list hcf
      exact .list _ _

theorem isPlain (hg : Witnessed types g) (h : Summary limits g f) : f.isPlain = true := by
  obtain ⟨c, hc⟩ := h.exists_mem
  exact (h.below_of_mem hg c hc).isPlain.2

theorem agrees (hT : BaseType.Coherent types) (hg : Witnessed types g) (h : Summary limits g f) :
    ∀ c ∈ g, c.agrees f = true := fun c hc => (h.below_of_mem hg c hc).agrees_self hT (hg.typed hc) (h.typed hT hg)

/-- The summary is the least of the shapes that stand for the whole bag. -/
theorem least (hT : BaseType.Coherent types) (hg : Witnessed types g) (h : Summary limits g f) (hu : u.Typed types)
    (hbelow : ∀ c ∈ g, c.StandsBelow u) : f.StandsBelow u := by
  cases h with
  | single => exact hbelow f (Multiset.mem_singleton_self f)
  | merged hseveral hagrees hsums =>
    obtain ⟨c, hc⟩ := Multiset.card_pos_iff_exists_mem.1 (show 0 < g.card by omega)
    have hcu := hbelow c hc
    have hcf := hagrees c hc
    cases hsums with
    | primitive hp => exact hp.below_form hT hg.primitives hu fun p hp => hbelow _ (mem_primitives.1 hp)
    | record | map =>
      obtain ⟨fields, mapping, rfl⟩ := Form.agrees_record hcf
      cases hcu
      exact .record _ _ _ _
    | list =>
      obtain ⟨elems, rfl⟩ := Form.agrees_list hcf
      cases hcu
      exact .list _ _

theorem mono (hT : BaseType.Coherent types) (hg : Witnessed types g) (hg' : Witnessed types g')
    (h : Summary limits g f) (h' : Summary limits g' u) (hsub : ∀ c ∈ g, c ∈ g') : f.StandsBelow u :=
  h.least hT hg (h'.typed hT hg') fun c hc => h'.below_of_mem hg' c (hsub c hc)

/-! ### Connected bags -/

/-- Shapes that were absorbed into one stand below one and the same of several shapes that do not agree. -/
theorem connected (hT : BaseType.Coherent types) (hg : Witnessed types g) (h : Summary limits g f) {W : Form → Prop}
    (happart : ∀ w w', W w → W w' → w.agrees w' = true → w = w') (htyped : ∀ w, W w → w.Typed types)
    (hcovers : ∀ c ∈ g, ∃ w, W w ∧ c.StandsBelow w) : ∃ w, W w ∧ ∀ c ∈ g, c.StandsBelow w := by
  cases h with
  | single =>
    obtain ⟨w, hw, hfw⟩ := hcovers f (Multiset.mem_singleton_self f)
    refine ⟨w, hw, fun c hc => ?_⟩
    rwa [Multiset.mem_singleton.1 hc]
  | merged hseveral hagrees hsums =>
    -- Records, and lists, all agree with one another: the shape above one of them is above all.
    have hkind : (∀ c ∈ g, ∀ c' ∈ g, ∀ w w', c.StandsBelow w → c'.StandsBelow w' → w.agrees w' = true) →
        ∃ w, W w ∧ ∀ c ∈ g, c.StandsBelow w := by
      intro hall
      obtain ⟨c, hc⟩ := Multiset.card_pos_iff_exists_mem.1 (show 0 < g.card by omega)
      obtain ⟨w, hw, hcw⟩ := hcovers c hc
      refine ⟨w, hw, fun c' hc' => ?_⟩
      obtain ⟨w', hw', hcw'⟩ := hcovers c' hc'
      rwa [happart w w' hw hw' (hall c hc c' hc' w w' hcw hcw')]
    cases hsums with
    | primitive hp =>
      obtain ⟨w, hw, hall⟩ := hp.connected hT happart htyped hg.primitives fun p hp => hcovers _ (mem_primitives.1 hp)
      refine ⟨w, hw, fun c hc => ?_⟩
      obtain ⟨q, rfl, -⟩ := Form.agrees_primitive (hagrees c hc)
      exact hall q (mem_primitives.2 hc)
    | record | map =>
      refine hkind fun c hc c' hc' w w' hcw hcw' => ?_
      obtain ⟨fields, mapping, rfl⟩ := Form.agrees_record (hagrees c hc)
      obtain ⟨fields', mapping', rfl⟩ := Form.agrees_record (hagrees c' hc')
      cases hcw
      cases hcw'
      rfl
    | list =>
      refine hkind fun c hc c' hc' w w' hcw hcw' => ?_
      obtain ⟨elems, rfl⟩ := Form.agrees_list (hagrees c hc)
      obtain ⟨elems', rfl⟩ := Form.agrees_list (hagrees c' hc')
      cases hcw
      cases hcw'
      rfl

end Summary

/-! ## The variants of a node -/

namespace Schema.Regular

variable {s : Schema}

/-- A node is plain, or has several alternatives, below one optional layer at most. -/
theorem cases (h : s.Regular) : (s.core.form.isPlain = true ∧ s.variants = [s.core.form]) ∨
    ∃ options, s.core.form = .oneOf options true ∧ Catalogue.Reduced options ∧ options ≠ [] ∧
      s.variants = (Table.values options).map Schema.form := by
  have hpresent := h.present
  have halternatives := h.alternatives
  unfold Schema.variants
  unfold Schema.isOptional at hpresent
  cases hform : s.core.form with
  | primitive | record | list => exact .inl ⟨rfl, rfl⟩
  | absent | optional => rw [hform] at hpresent; cases hpresent
  | oneOf options conflict =>
    obtain ⟨rfl, hne, hreduced⟩ := halternatives options conflict hform
    exact .inr ⟨options, rfl, hreduced, hne, rfl⟩

theorem isPlain (h : s.Regular) : ∀ f ∈ s.variants, f.isPlain = true := by
  intro f hf
  rcases h.cases with ⟨hplain, hvariants⟩ | ⟨options, -, hreduced, -, hvariants⟩
  · rw [hvariants] at hf
    rwa [List.mem_singleton.1 hf]
  · rw [hvariants] at hf
    obtain ⟨t, ht, rfl⟩ := List.mem_map.1 hf
    exact hreduced.exclusive.plain t ht

theorem pairwise (h : s.Regular) : s.variants.Pairwise (fun f f' => f.agrees f' = false) := by
  rcases h.cases with ⟨-, hvariants⟩ | ⟨options, -, hreduced, -, hvariants⟩
  · rw [hvariants]
    exact List.pairwise_singleton _ _
  · rw [hvariants, List.pairwise_map]
    exact hreduced.exclusive.apart.imp fun hab => hab

/-- The variants of a node stand apart. -/
theorem apart (h : s.Regular) {f f' : Form} (hf : f ∈ s.variants) (hf' : f' ∈ s.variants) (hagrees : f.agrees f' = true) :
    f = f' := by
  by_contra hne
  have : Std.Symm (fun f f' : Form => f.agrees f' = false) := ⟨fun _ _ h => by rwa [Form.agrees_comm]⟩
  have hfalse := h.pairwise.forall hf hf' hne
  rw [hagrees] at hfalse
  cases hfalse

end Schema.Regular

/-- In a list of shapes that stand apart only one agrees with any of them. -/
theorem filter_agrees_eq {l : List Form} (hl : l.Pairwise (fun f f' => f.agrees f' = false)) {v : Form} (hv : v ∈ l)
    (hplain : v.isPlain = true) : l.filter (fun f => f.agrees v = true) = [v] := by
  induction l with
  | nil => cases hv
  | cons f rest ih =>
    obtain ⟨hf, hrest⟩ := List.pairwise_cons.1 hl
    rw [List.filter_cons]
    rcases List.mem_cons.1 hv with rfl | hv
    · have hnone : rest.filter (fun f => f.agrees v = true) = [] := by
        refine List.filter_eq_nil_iff.2 fun f hmem => ?_
        rw [Form.agrees_comm, hf f hmem]
        exact Bool.false_ne_true
      rw [hnone, if_pos (by simpa using Form.agrees_self hplain)]
    · rw [hf v hv]
      simpa using ih hrest hv

namespace Offers

variable {s s' : Schema}

/-- A node offers its own shapes. -/
theorem of_regular (limits : Limits) (h : s.Regular) : Offers limits (s.variants : Multiset Form) s where
  regular := h
  covers c hc := ⟨c, Multiset.mem_coe.1 hc, Form.agrees_self (h.isPlain c (Multiset.mem_coe.1 hc))⟩
  summary v hv := by
    have heq : agreeing (s.variants : Multiset Form) v = {v} := by
      unfold agreeing
      rw [Multiset.filter_coe, filter_agrees_eq h.pairwise hv (h.isPlain v hv)]
      rfl
    rw [heq]
    exact .single v

theorem below (hvs : Witnessed types vs) (h : Offers limits vs s) {v : Form} (hv : v ∈ s.variants) (hc : c ∈ vs)
    (hagrees : c.agrees v = true) : c.StandsBelow v :=
  (h.summary v hv).below_of_mem (hvs.agreeing v) c (mem_agreeing.2 ⟨hc, hagrees⟩)

section

variable (hT : BaseType.Coherent types) (hvs : Witnessed types vs)

include hT hvs

theorem typed (h : Offers limits vs s) : ∀ v ∈ s.variants, v.Typed types := fun v hv =>
  (h.summary v hv).typed hT (hvs.agreeing v)

/-- A shape below a variant agrees with it. -/
theorem agrees_of_below (h : Offers limits vs s) {v : Form} (hv : v ∈ s.variants) (hc : c ∈ vs) (hbelow : c.StandsBelow v) :
    c.agrees v = true := hbelow.agrees_self hT (hvs.typed hc) (h.typed hT hvs v hv)

/-- No shape of the bag agrees with two variants. -/
theorem unique (h : Offers limits vs s) {v w : Form} (hv : v ∈ s.variants) (hw : w ∈ s.variants) (hc : c ∈ vs)
    (hcv : c.agrees v = true) (hcw : c.agrees w = true) : v = w := by
  refine h.regular.apart hv hw ?_
  have hvt := h.typed hT hvs v hv
  have hwt := h.typed hT hvs w hw
  have hwc := (h.below hvs hv hc hcv).agrees hT (hvs.typed hc) hvt hwt hcw
  exact hwc

/-- Shapes that were absorbed into one are in the class of one variant. -/
theorem connected (h : Offers limits vs s) {g : Multiset Form} {f : Form} (hg : Summary limits g f) (hsub : ∀ c ∈ g, c ∈ vs) :
    ∃ v ∈ s.variants, ∀ c ∈ g, c.agrees v = true := by
  have hgw : Witnessed types g := fun c hc => hvs c (hsub c hc)
  obtain ⟨v, hv, hall⟩ := hg.connected hT hgw (W := fun v => v ∈ s.variants) (fun w w' hw hw' => h.regular.apart hw hw')
    (fun w hw => h.typed hT hvs w hw) fun c hc => by
      obtain ⟨w, hw, hcw⟩ := h.covers c (hsub c hc)
      exact ⟨w, hw, h.below hvs hw (hsub c hc) hcw⟩
  exact ⟨v, hv, fun c hc => h.agrees_of_below hT hvs hv (hsub c hc) (hall c hc)⟩

/-- Two nodes that offer the shapes of one bag have the same classes. -/
theorem agreeing_eq (h : Offers limits vs s) (h' : Offers limits vs s') {v : Form} (hv : v ∈ s.variants) :
    ∃ v' ∈ s'.variants, agreeing vs v' = agreeing vs v := by
  obtain ⟨v', hv', hall⟩ := h'.connected hT hvs (h.summary v hv) fun c hc => (mem_agreeing.1 hc).1
  obtain ⟨w, hw, hall'⟩ := h.connected hT hvs (h'.summary v' hv') fun c hc => (mem_agreeing.1 hc).1
  obtain ⟨c, hc⟩ := (h.summary v hv).exists_mem
  obtain ⟨hcvs, hcv⟩ := mem_agreeing.1 hc
  -- The class of `v` is within that of `v'`, which is within that of `w`, so that `w` is `v`.
  obtain rfl := h.unique hT hvs hv hw hcvs hcv (hall' c (mem_agreeing.2 ⟨hcvs, hall c hc⟩))
  refine ⟨v', hv', Multiset.filter_congr fun c hc => ⟨fun hcv' => ?_, fun hcv => ?_⟩⟩
  · exact hall' c (mem_agreeing.2 ⟨hc, hcv'⟩)
  · exact hall c (mem_agreeing.2 ⟨hc, hcv⟩)

end

end Offers

end

end ApiShape

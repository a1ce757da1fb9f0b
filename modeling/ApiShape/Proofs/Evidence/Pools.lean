/-
Absorbing as adding bags: a result that offers the shapes of both sides stands for the nodes of both. Here
are the parts of a shape, which are absorbed on their own: single nodes, folds of nodes, and slots that may
be empty.
-/
import ApiShape.Proofs.Absorb.Step
import ApiShape.Proofs.Evidence.Nodes

namespace ApiShape

/-! ## Results that offer the shapes of both sides -/

/-- What surrounds the result comes from both sides; shapes that agree become one. -/
structure Wraps (d s r : Schema) : Prop where
  optional : r.isOptional = true ↔ d.isOptional = true ∨ s.isOptional = true
  nullable : r.inside.nullable = true ↔ d.inside.nullable = true ∨ s.inside.nullable = true
  bare : r.isOptional = true → r.core.nullable = false
  joined : d.form.agrees s.form = true → r.form.isPlain = true

/-- The result offers the shapes of both trees, whichever bags they stand for. -/
def Pools (types : List BaseType) (limits : Limits) (d s r : Schema) : Prop :=
  ∀ vs vs', Witnessed types vs → Witnessed types vs' → Offers limits vs d → Offers limits vs' s →
    Offers limits (vs + vs') r ∧ Wraps d s r

/-- A node stands for a bag, and there is none for an empty bag. -/
structure Fills (limits : Limits) (seen : Multiset Schema) (slot : Option Schema) : Prop where
  empty : slot = none ↔ seen = 0
  stands : ∀ s, slot = some s → Stands limits seen False s

section

variable {types : List BaseType} {limits : Limits} {seen seen' : Multiset Schema} {missing missing' : Prop}
  {d s r : Schema}

theorem variantsSeen_add (seen seen' : Multiset Schema) :
    variantsSeen (seen + seen') = variantsSeen seen + variantsSeen seen' := Multiset.add_bind _ _ _

theorem witness_add (hw : ∀ t ∈ seen, t.Witness types) (hw' : ∀ t ∈ seen', t.Witness types) :
    ∀ t ∈ seen + seen', t.Witness types := fun t ht => (Multiset.mem_add.1 ht).elim (hw t) (hw' t)

/-! ## Nodes -/

theorem Wraps.flags (h : Wraps d s r) (hw : ∀ t ∈ seen, t.Witness types) (hw' : ∀ t ∈ seen', t.Witness types)
    (hd : Stands limits seen missing d) (hs : Stands limits seen' missing' s) :
    Flags (seen + seen') (missing ∨ missing') r where
  optional := by
    rw [h.optional, hd.isOptional_iff hw, hs.isOptional_iff hw']
    simp only [Multiset.mem_add, or_and_right, exists_or]
    exact or_or_or_comm
  nullable := by
    rw [← Schema.nullable_inside_of_bare h.bare, h.nullable, hd.nullable_inside_iff hw, hs.nullable_inside_iff hw']
    simp only [Multiset.mem_add, or_and_right, exists_or]
  bare := h.bare

/-- Absorbing a node into another stands for the nodes of both. -/
theorem Stands.pool (h : Pools types limits d s r) (hw : ∀ t ∈ seen, t.Witness types)
    (hw' : ∀ t ∈ seen', t.Witness types) (hd : Stands limits seen missing d) (hs : Stands limits seen' missing' s) :
    Stands limits (seen + seen') (missing ∨ missing') r := by
  obtain ⟨hoffers, hwraps⟩ := h _ _ (.of_seen hw) (.of_seen hw') (hd.offers hw) (hs.offers hw')
  rw [← variantsSeen_add] at hoffers
  refine .of_several ?_ (hwraps.flags hw hw' hd hs) hoffers
  have hpos := Multiset.card_pos.2 hd.outline.nonempty
  have hpos' := Multiset.card_pos.2 hs.outline.nonempty
  rw [Multiset.card_add]
  omega

theorem Stands.pool_present (h : Pools types limits d s r) (hw : ∀ t ∈ seen, t.Witness types)
    (hw' : ∀ t ∈ seen', t.Witness types) (hd : Stands limits seen False d) (hs : Stands limits seen' False s) :
    Stands limits (seen + seen') False r := by
  have hpool := Stands.pool h hw hw' hd hs
  rwa [or_self] at hpool

/-! ## Folds -/

variable {l : List Schema} {bags : List (Multiset Schema)}

theorem Folds.stands {acc : Schema} (h : Folds (Pools types limits) acc l r) (hw : ∀ t ∈ seen, t.Witness types)
    (hws : ∀ bag ∈ bags, ∀ t ∈ bag, t.Witness types) (hacc : Stands limits seen False acc)
    (hl : List.Forall₂ (fun bag t => Stands limits bag False t) bags l) : Stands limits (seen + bags.sum) False r := by
  induction h generalizing seen bags with
  | nil =>
    cases hl
    rwa [List.sum_nil, add_zero]
  | cons hmid _ ih =>
    cases hl with
    | @cons bag _ bags _ hs hl =>
      have hbag := hws bag List.mem_cons_self
      rw [List.sum_cons, ← add_assoc]
      exact ih (witness_add hw hbag) (fun b hb => hws b (List.mem_cons_of_mem _ hb)) (.pool_present hmid hw hbag hacc hs) hl

theorem Collects.fills {rep : Option Schema} (h : Collects (Pools types limits) l rep)
    (hws : ∀ bag ∈ bags, ∀ t ∈ bag, t.Witness types)
    (hl : List.Forall₂ (fun bag t => Stands limits bag False t) bags l) : Fills limits bags.sum rep := by
  cases h with
  | none =>
    cases hl
    exact ⟨⟨fun _ => rfl, fun _ => rfl⟩, fun _ h => (by cases h)⟩
  | some h =>
    cases hl with
    | @cons bag _ bags _ hfirst hl =>
      have hstands := h.stands (hws bag List.mem_cons_self) (fun b hb => hws b (List.mem_cons_of_mem _ hb)) hfirst hl
      rw [List.sum_cons]
      refine ⟨⟨fun h => (by cases h), fun h => absurd h hstands.outline.nonempty⟩, ?_⟩
      rintro _ ⟨⟩
      exact hstands

/-! ## Slots -/

theorem Slot.fills {dst src slot : Option Schema} (h : Slot (Pools types limits) dst src slot)
    (hw : ∀ t ∈ seen, t.Witness types) (hw' : ∀ t ∈ seen', t.Witness types) (hd : Fills limits seen dst)
    (hs : Fills limits seen' src) : Fills limits (seen + seen') slot := by
  cases h with
  | both h =>
    have hstands := Stands.pool_present h hw hw' (hd.stands _ rfl) (hs.stands _ rfl)
    refine ⟨⟨fun h => (by cases h), fun h => absurd h hstands.outline.nonempty⟩, ?_⟩
    rintro _ ⟨⟩
    exact hstands
  | adopted => rwa [hd.empty.1 rfl, zero_add]
  | kept => rwa [hs.empty.1 rfl, add_zero]

end

end ApiShape

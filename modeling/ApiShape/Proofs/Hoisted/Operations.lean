/-
No operation moves nullability or optionality inwards: hoisted trees stay hoisted when they are absorbed,
converted to maps, searched for maps, and accumulated, also where a conversion stops on the way.
-/
import ApiShape.Proofs.Accumulate.Basic
import ApiShape.Proofs.Hoisted.Absorb
import ApiShape.Proofs.Inference
import ApiShape.Proofs.Traversal

namespace ApiShape

theorem Schema.hoisted_iff {s : Schema} : s.Hoisted ↔ s.form.Everywhere Form.Hoisted :=
  Schema.throughout_iff_everywhere

namespace Schema.Hoisted

variable {limits : Limits} {s d r : Schema}

theorem of_form {t : Schema} (h : s.Hoisted) (hform : t.form = s.form) : t.Hoisted := by
  rw [hoisted_iff] at h ⊢
  rwa [hform]

theorem absorb (hd : d.Hoisted) (hs : s.Hoisted) (h : ApiShape.absorb limits d s = .ok r) : r.Hoisted := by
  rw [hoisted_iff] at hd hs ⊢
  exact (absorbWithin_hoists h hd hs).1

/-- Also when the fields do not go together, and the record is left without them. -/
theorem convertToMap {σ : Type} (h : s.Hoisted) (limits : Limits) (st : σ) :
    (s.convertToMap limits st).value.Hoisted := by
  rw [hoisted_iff] at h ⊢
  exact (closed_hoisted limits).convertToMap (fun _ => trivial) (fun _ _ _ _ hr => (absorbWithin_hoists hr).keeps) h st

end Schema.Hoisted

/-! ## Traversals -/

/-- A visitor that keeps trees hoisted, and keeps a node fit to stand below an optional layer. -/
structure Visitor.KeepsHoisted {σ : Type} (visitor : Visitor σ) : Prop where
  hoisted (st : σ) (s : Schema) : s.Hoisted → (visitor st s).value.Hoisted
  inner (st : σ) (s : Schema) : s.IsInner → (visitor st s).value.IsInner

section

variable {σ : Type} {visitor : Visitor σ}

/-- A traversal keeps the kind of the node that it is at. -/
theorem isOptional_walk (f : Form) (st : σ) (nullable : Bool) (metadata : Option Metadata) (examples : Examples) :
    Schema.isOptional ⟨(f.walk visitor st).value, nullable, metadata, examples⟩ =
      Schema.isOptional ⟨f, nullable, metadata, examples⟩ := by
  cases f with
  | record fields mapping =>
    unfold Form.walk
    dsimp only
    split <;> rfl
  | _ => rfl

theorem Schema.IsInner.walk (hv : visitor.KeepsHoisted) {s : Schema} (h : s.IsInner) (st : σ) :
    (s.walk visitor st).value.IsInner := by
  obtain ⟨form, nullable, metadata, examples⟩ := s
  have hs : Schema.IsInner ⟨(form.walk visitor st).value, nullable, metadata, examples⟩ :=
    ⟨by rw [isOptional_walk, h.present], h.nonnull⟩
  unfold Schema.walk
  dsimp only
  split
  · exact hs
  · exact hv.inner _ _ hs

/-- The options that a traversal changes are collected again, and no example makes one nullable. -/
theorem Form.Hoisted.walk (hv : visitor.KeepsHoisted) {f : Form} (h : f.Hoisted) (st : σ) :
    (f.walk visitor st).value.Hoisted := by
  cases f with
  | optional inner => exact Schema.IsInner.walk hv h st
  | oneOf options conflict =>
    unfold Form.walk
    rw [walkOptions_eq]
    exact Catalogue.ofList_values (R := Schema.IsInner) (fun _ _ ht => ⟨ht.present, ht.nonnull⟩)
      ((visitAll_passes (Schema.walk visitor) (Table.values options) st).values (fun t ht st => (h t ht).walk hv st) h)
  | record fields mapping =>
    unfold Form.walk
    dsimp only
    split <;> trivial
  | _ => trivial

/-- A traversal keeps a tree hoisted, wherever it stops. -/
theorem Schema.Hoisted.walk (hv : visitor.KeepsHoisted) {s : Schema} (h : s.Hoisted) :
    ∀ st, (s.walk visitor st).value.Hoisted :=
  Schema.Throughout.walk (Q := Form.Hoisted) (fun _ st hf => hf.walk hv st) hv.hoisted h

end

/-- A conversion to a map, also one that fails, leaves a record in place of a record. -/
theorem Schema.IsInner.convertToMap {σ : Type} {s : Schema} (h : s.IsInner) (limits : Limits) (st : σ) :
    (s.convertToMap limits st).value.IsInner := by
  unfold Schema.convertToMap
  split
  · split
    · exact ⟨rfl, h.nonnull⟩
    · exact ⟨rfl, h.nonnull⟩
  · exact h

theorem inferMap_keepsHoisted (limits : Limits) : (inferMap limits).KeepsHoisted where
  hoisted count s h := by
    rcases inferMap_value limits count s with heq | heq
    · rwa [heq]
    · rw [heq]
      exact h.convertToMap limits count
  inner count s h := by
    rcases inferMap_value limits count s with heq | heq
    · rwa [heq]
    · rw [heq]
      exact h.convertToMap limits count

/-! ## All operations -/

/--
Hoisted trees stay hoisted: what absorbing one into another gives, what is left of one that is converted to a
map or searched for maps, whether that succeeds or fails, and what accumulating catalogues of them gives.
-/
theorem operations_keep_hoisted (limits : Limits) :
    (∀ d s r : Schema, d.Hoisted → s.Hoisted → absorb limits d s = .ok r → r.Hoisted) ∧
    (∀ (σ : Type) (st : σ) (s : Schema), s.Hoisted → (s.convertToMap limits st).value.Hoisted) ∧
    (∀ s : Schema, s.Hoisted → (s.inferMaps limits).value.Hoisted) ∧
    ∀ (dst src c : Catalogue) (discarded : Nat), (∀ s ∈ Table.values dst, s.Hoisted) →
      (∀ s ∈ Table.values src, s.Hoisted) → Catalogue.accumulate limits dst src = .ok (c, discarded) →
        ∀ s ∈ Table.values c, s.Hoisted := by
  refine ⟨fun d s r hd hs h => hd.absorb hs h, fun σ st s hs => hs.convertToMap limits st,
    fun s hs => hs.walk (inferMap_keepsHoisted limits) 0, fun dst src c discarded hd hs h => ?_⟩
  exact Catalogue.accumulate_values (fun d s r hr hd hs => hd.absorb hs hr) (fun s e hs => hs.of_form rfl) h hd hs

/-- A nullable text that an optional integer conflicts with: the options stay inside, the null goes outside. -/
theorem operations_keep_hoisted_optional : ∃ r,
    absorb {} (Schema.ofOptional (Schema.ofType .int64)) ((Schema.ofType .string).orNullable true) = .ok r ∧
      r = (Schema.ofOptional ((Schema.ofType .int64).conflict (Schema.ofType .string))).orNullable true ∧ r.Hoisted := by
  have htype : ∀ t b, ((Schema.ofType t).orNullable b).Hoisted := fun t b => .of_primitive rfl trivial
  have hd : (Schema.ofOptional (Schema.ofType .int64)).Hoisted := by
    refine .intro ⟨rfl, rfl⟩ fun t ht => ?_
    obtain rfl := List.mem_singleton.1 ht
    exact htype .int64 false
  exact ⟨_, rfl, rfl, (operations_keep_hoisted {}).1 _ _ _ hd (htype .string true) rfl⟩

end ApiShape

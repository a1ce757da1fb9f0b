/-
Fresh keys under traversals: a visitor that keeps them on each node keeps them on the tree, also
where it stops, and storing everything under its address again changes nothing in a keyed tree.
-/
import ApiShape.Proofs.Keys.Basic
import ApiShape.Proofs.Traversal

namespace ApiShape

section

variable {σ : Type} {visitor : Visitor σ}

/-- A visitor that keeps the keys of a tree fresh. -/
def Visitor.KeepsKeys (visitor : Visitor σ) : Prop := ∀ st s, s.Keyed → (visitor st s).value.Keyed

theorem Form.Fresh.walk {f : Form} (st : σ) : (f.walk visitor st).value.Fresh := by
  cases f with
  | oneOf options conflict => exact Catalogue.fresh_ofList _
  | record fields mapping =>
    unfold Form.walk
    dsimp only
    split
    · trivial
    · trivial
  | _ => trivial

/-- A traversal keeps the keys fresh, wherever it stops. -/
theorem Schema.Keyed.walk (hv : visitor.KeepsKeys) {s : Schema} (h : s.Keyed) :
    ∀ st, (s.walk visitor st).value.Keyed :=
  Schema.Throughout.walk (Q := Form.Fresh) (fun _ st _ => Form.Fresh.walk st) hv h

/-- Applying a visitor to the nodes of a catalogue gives a keyed one, wherever it stops. -/
theorem Catalogue.Keyed.update (hv : visitor.KeepsKeys) {c : Catalogue} (h : c.Keyed) (st : σ) :
    (Catalogue.update visitor st c).value.Keyed :=
  Catalogue.keyed_ofList ((visitAll_passes visitor _ st).values (fun s hs st => hv st s (h.2 s hs)) h.2)

theorem Catalogue.Keyed.walk (hv : visitor.KeepsKeys) {c : Catalogue} (h : c.Keyed) (st : σ) :
    (Catalogue.walk visitor st c).value.Keyed :=
  h.update (fun st _ hs => hs.walk hv st) st

theorem Endpoint.Keyed.walk (hv : visitor.KeepsKeys) {e : Endpoint} (h : e.Keyed) (st : σ) :
    (e.walk visitor st).value.Keyed := by
  have hargs := h.1.walk hv st
  unfold Endpoint.walk
  dsimp only
  split
  · exact ⟨hargs, h.2⟩
  · exact ⟨hargs, h.2.walk hv _⟩

end

/-! ## Traversals that change nothing -/

section

variable {σ : Type} {visitor : Visitor σ} {st : σ}

/-- A traversal that changes no node gives back a keyed tree: its options keep their keys. -/
theorem Schema.Keyed.walk_unchanged {s : Schema} (h : s.Keyed)
    (hv : s.Throughout (fun t => visitor st t = ⟨st, t, none⟩)) : s.walk visitor st = ⟨st, s, none⟩ := by
  induction s using Schema.inductionOn with
  | step s ih =>
    have ih : ∀ t ∈ s.form.children, t.walk visitor st = ⟨st, t, none⟩ := fun t ht =>
      ih t ht (h.child t ht) (hv.child t ht)
    have hroot := h.root
    have hvisit := hv.root
    obtain ⟨form, nullable, metadata, examples⟩ := s
    suffices hform : form.walk visitor st = ⟨st, form, none⟩ by
      unfold Schema.walk
      rw [hform]
      exact hvisit
    cases form with
    | primitive p => rfl
    | absent => rfl
    | list elems =>
      have ih : ∀ t ∈ elems, t.walk visitor st = ⟨st, t, none⟩ := ih
      unfold Form.walk
      rw [walkElems_unchanged ih]
      rfl
    | optional inner =>
      unfold Form.walk
      rw [ih inner List.mem_cons_self]
      rfl
    | oneOf options conflict =>
      have hfresh : Catalogue.Fresh options := hroot
      have ih : ∀ t ∈ Table.values options, t.walk visitor st = ⟨st, t, none⟩ := ih
      unfold Form.walk
      rw [walkOptions_eq, visitAll_unchanged ih, Visit.map, hfresh.ofList_values]
    | record fields mapping =>
      unfold Form.walk
      rw [walkFields_unchanged fun t ht => ih t (List.mem_append_left _ ht)]
      dsimp only
      rw [walkMapping_unchanged]
      · rfl
      · rintro m rfl t ht
        exact ih t (List.mem_append_right _ ht)

theorem Catalogue.Keyed.walk_unchanged {c : Catalogue} (h : c.Keyed)
    (hv : ∀ s ∈ Table.values c, s.Throughout (fun t => visitor st t = ⟨st, t, none⟩)) :
    Catalogue.walk visitor st c = ⟨st, c, none⟩ := by
  unfold Catalogue.walk Catalogue.update
  rw [visitAll_unchanged fun s hs => (h.2 s hs).walk_unchanged (hv s hs), Visit.map, h.1.ofList_values]

theorem Endpoint.Keyed.walk_unchanged {e : Endpoint} (h : e.Keyed)
    (hargs : ∀ s ∈ Table.values e.args, s.Throughout (fun t => visitor st t = ⟨st, t, none⟩))
    (hresponses : ∀ s ∈ Table.values e.responses, s.Throughout (fun t => visitor st t = ⟨st, t, none⟩)) :
    e.walk visitor st = ⟨st, e, none⟩ := by
  unfold Endpoint.walk
  rw [h.1.walk_unchanged hargs]
  dsimp only
  rw [h.2.walk_unchanged hresponses]
  rfl

end

/-! ## Addresses -/

theorem throughout_idle (s : Schema) : s.Throughout (fun t => idle () t = ⟨(), t, none⟩) := by
  induction s using Schema.inductionOn with
  | step s ih => exact .intro rfl ih

/-- Storing the options of a keyed tree under their addresses again changes nothing. -/
theorem Schema.Keyed.walk_idle {s : Schema} (h : s.Keyed) : s.walk idle () = ⟨(), s, none⟩ :=
  h.walk_unchanged (throughout_idle s)

theorem Endpoint.Keyed.walk_idle {e : Endpoint} (h : e.Keyed) : e.walk idle () = ⟨(), e, none⟩ :=
  h.walk_unchanged (fun s _ => throughout_idle s) fun s _ => throughout_idle s

end ApiShape

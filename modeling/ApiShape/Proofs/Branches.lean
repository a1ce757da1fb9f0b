/-
The children of a node in a traversal, whatever the shape of the node: they are visited one after the other until a
visit fails, the fault gets the step on the way to the child, and the node is left with what the visits left of the
children (`Form.walk_eq`).
-/
import ApiShape.Proofs.Schema.Routes
import ApiShape.Proofs.Traversal

namespace ApiShape

/-! ## Visits one after the other -/

namespace Visit

variable {σ α β γ : Type}

theorem map_map (f : α → β) (g : β → γ) (v : Visit σ α) : (v.map f).map g = v.map (g ∘ f) := rfl

end Visit

section

variable {σ : Type} {visitor : Visitor σ} {st : σ}

/-- Visits children one after the other, whatever the ways to them, until a visit fails. -/
def visitBranches (visitor : Visitor σ) (st : σ) : List (Edge × Schema) → Visit σ (List Schema)
  | [] => ⟨st, [], none⟩
  | (e, s) :: rest =>
    let v := (s.walk visitor st).under e.wrap
    match v.fault with
    | some _ => ⟨v.state, v.value :: rest.map (·.2), v.fault⟩
    | none => (visitBranches visitor v.state rest).map (v.value :: ·)

theorem visitBranches_of_fault {e : Edge} {s : Schema} {f : Fault} (h : (s.walk visitor st).fault = some f)
    (rest : List (Edge × Schema)) : visitBranches visitor st ((e, s) :: rest) =
      ⟨(s.walk visitor st).state, (s.walk visitor st).value :: rest.map (·.2), some (e.wrap f)⟩ := by
  unfold visitBranches
  dsimp only [Visit.under]
  rw [h]
  rfl

theorem visitBranches_of_done {e : Edge} {s : Schema} (h : (s.walk visitor st).fault = none)
    (rest : List (Edge × Schema)) : visitBranches visitor st ((e, s) :: rest) =
      (visitBranches visitor (s.walk visitor st).state rest).map ((s.walk visitor st).value :: ·) := by
  rw [visitBranches]
  dsimp only [Visit.under]
  rw [h]
  rfl

theorem length_visitBranches (visitor : Visitor σ) (bs : List (Edge × Schema)) :
    ∀ st, (visitBranches visitor st bs).value.length = bs.length := by
  induction bs with
  | nil => exact fun st => rfl
  | cons b rest ih =>
    intro st
    obtain ⟨e, s⟩ := b
    cases h : (s.walk visitor st).fault with
    | some f =>
      rw [visitBranches_of_fault h]
      simp
    | none =>
      rw [visitBranches_of_done h]
      exact congrArg Nat.succ (ih _)

/-- Nodes after some children are not visited when the visit of one of these fails. -/
theorem visitBranches_append_of_fault {bs : List (Edge × Schema)} {f : Fault} :
    ∀ {st}, (visitBranches visitor st bs).fault = some f → ∀ bs', visitBranches visitor st (bs ++ bs') =
      ⟨(visitBranches visitor st bs).state, (visitBranches visitor st bs).value ++ bs'.map (·.2), some f⟩ := by
  induction bs with
  | nil => exact fun h => nomatch h
  | cons b rest ih =>
    intro st hf bs'
    obtain ⟨e, s⟩ := b
    rw [List.cons_append]
    cases h : (s.walk visitor st).fault with
    | some g =>
      rw [visitBranches_of_fault h] at hf ⊢
      rw [visitBranches_of_fault h, List.map_append]
      exact congrArg (Visit.mk _ _) hf
    | none =>
      rw [visitBranches_of_done h] at hf ⊢
      rw [visitBranches_of_done h, ih hf]
      rfl

/-- Nodes after some children are visited from the state that these leave. -/
theorem visitBranches_append_of_done {bs : List (Edge × Schema)} :
    ∀ {st}, (visitBranches visitor st bs).fault = none → ∀ bs', visitBranches visitor st (bs ++ bs') =
      (visitBranches visitor (visitBranches visitor st bs).state bs').map ((visitBranches visitor st bs).value ++ ·) := by
  induction bs with
  | nil => exact fun _ bs' => rfl
  | cons b rest ih =>
    intro st hf bs'
    obtain ⟨e, s⟩ := b
    rw [List.cons_append]
    cases h : (s.walk visitor st).fault with
    | some g =>
      rw [visitBranches_of_fault h] at hf
      cases hf
    | none =>
      rw [visitBranches_of_done h] at hf ⊢
      rw [visitBranches_of_done h, ih hf]
      rfl

/-! ## The children of each shape -/

/-- Fields are children under their names, which stay with them. -/
theorem walkFields_eq (visitor : Visitor σ) (rows : List (String × Schema)) : ∀ st,
    walkFields visitor st rows = (visitBranches visitor st (rows.map (fun row => (.field row.1, row.2)))).map (Table.withValues rows) := by
  induction rows with
  | nil => exact fun st => rfl
  | cons row rest ih =>
    intro st
    obtain ⟨name, s⟩ := row
    rw [walkFields, List.map_cons]
    dsimp only [Visit.under]
    cases h : (s.walk visitor st).fault with
    | some f =>
      have hrest : Table.withValues rest (Table.values rest) = rest := by
        simpa using Table.withValues_values rest []
      rw [visitBranches_of_fault h, List.map_map]
      exact congrArg (fun rows => Visit.mk _ ((name, (s.walk visitor st).value) :: rows) _) hrest.symm
    | none =>
      rw [visitBranches_of_done h, Visit.map_map]
      dsimp only [Option.map]
      rw [ih, Visit.map_map]
      rfl

theorem walkElems_eq (visitor : Visitor σ) (elems : List Schema) : ∀ st i,
    walkElems visitor st i elems = visitBranches visitor st ((elems.zipIdx i).map (fun elem => (.elem elem.2, elem.1))) := by
  induction elems with
  | nil => exact fun st i => rfl
  | cons s rest ih =>
    intro st i
    rw [walkElems, List.zipIdx_cons, List.map_cons]
    dsimp only [Visit.under]
    cases h : (s.walk visitor st).fault with
    | some f =>
      rw [visitBranches_of_fault h, List.map_map]
      exact congrArg (fun rest => Visit.mk _ ((s.walk visitor st).value :: rest) _) (List.zipIdx_map_fst (i + 1) rest).symm
    | none =>
      rw [visitBranches_of_done h]
      dsimp only [Option.map]
      rw [ih]

theorem walkOptions_eq_branches (visitor : Visitor σ) (rows : List (String × Schema)) : ∀ st,
    walkOptions visitor st rows = visitBranches visitor st (rows.map (fun row => (.layer, row.2))) := by
  induction rows with
  | nil => exact fun st => rfl
  | cons row rest ih =>
    intro st
    obtain ⟨key, s⟩ := row
    rw [walkOptions, List.map_cons]
    dsimp only
    cases h : (s.walk visitor st).fault with
    | some f =>
      rw [visitBranches_of_fault h, List.map_map]
      rfl
    | none =>
      rw [visitBranches_of_done h]
      dsimp only
      rw [ih]

theorem walkSlot_eq (visitor : Visitor σ) (st : σ) (slot : Option Schema) (e : Edge) :
    (walkSlot visitor st slot).under e.wrap =
      (visitBranches visitor st (slot.toList.map (fun s => (e, s)))).map (fun l => slot.map l.headD) := by
  cases slot with
  | none => rfl
  | some s =>
    show ((s.walk visitor st).map some).under e.wrap = (visitBranches visitor st [(e, s)]).map _
    cases h : (s.walk visitor st).fault with
    | some f =>
      rw [visitBranches_of_fault h]
      dsimp only [Visit.under, Visit.map]
      rw [h]
      rfl
    | none =>
      rw [visitBranches_of_done h]
      dsimp only [Visit.under, Visit.map]
      rw [h]
      rfl

/-- A mapping is visited as the children in its slots. -/
theorem walkMapping_eq (visitor : Visitor σ) (st : σ) (m : Mapping) : walkMapping visitor st (some m) =
    (visitBranches visitor st m.branches).map (fun l => some (m.withSlots l)) := by
  obtain ⟨key, value⟩ := m
  have hkey := walkSlot_eq visitor st key (.field keyStep)
  have hlength := length_visitBranches visitor (key.toList.map fun s => (Edge.field keyStep, s)) st
  rw [List.length_map] at hlength
  unfold walkMapping Mapping.branches
  dsimp only
  rw [show Fault.inField keyStep = Edge.wrap (.field keyStep) from rfl, hkey]
  dsimp only [Visit.map]
  cases h : (visitBranches visitor st (key.toList.map fun s => (Edge.field keyStep, s))).fault with
  | some f =>
    -- the key failed, so that the value is left as it is
    rw [visitBranches_append_of_fault h]
    dsimp only
    rw [Mapping.withSlots_append hlength]
    cases value <;> rfl
  | none =>
    have hvalue := walkSlot_eq visitor (visitBranches visitor st (key.toList.map fun s => (Edge.field keyStep, s))).state
      value (.field valueStep)
    rw [visitBranches_append_of_done h, show Fault.inField valueStep = Edge.wrap (.field valueStep) from rfl]
    dsimp only [Visit.map]
    rw [hvalue]
    dsimp only [Visit.map]
    rw [Mapping.withSlots_append hlength]

/-- All children are visited alike; the node is left with what the visits left of them, and its options are then
collected. -/
theorem Form.walk_eq (f : Form) (visitor : Visitor σ) (st : σ) :
    f.walk visitor st = (visitBranches visitor st f.branches).map (fun l => (f.withChildren l).collected) := by
  cases f with
  | primitive | absent => rfl
  | list elems =>
    rw [Form.walk, walkElems_eq]
    rfl
  | optional inner =>
    rw [Form.walk]
    show (inner.walk visitor st).map Form.optional = (visitBranches visitor st [(.layer, inner)]).map _
    cases h : (inner.walk visitor st).fault with
    | some f =>
      rw [visitBranches_of_fault h]
      exact congrArg (Visit.mk _ _) h
    | none =>
      rw [visitBranches_of_done h]
      exact congrArg (Visit.mk _ _) h
  | oneOf options conflict =>
    have hlength := length_visitBranches visitor (options.map (fun row => (Edge.layer, row.2))) st
    rw [List.length_map] at hlength
    rw [Form.walk, walkOptions_eq_branches]
    unfold Visit.map
    dsimp only [Form.withChildren, Form.collected, Form.branches]
    rw [Table.values_withValues, ← hlength, List.take_length]
  | record fields mapping =>
    have hlength := length_visitBranches visitor (fields.map (fun row => (Edge.field row.1, row.2))) st
    rw [List.length_map] at hlength
    rw [Form.walk, walkFields_eq]
    dsimp only [Form.branches, Visit.map]
    cases h : (visitBranches visitor st (fields.map (fun row => (Edge.field row.1, row.2)))).fault with
    | some f =>
      -- a field failed, so that the mapping is left as it is
      rw [visitBranches_append_of_fault h]
      dsimp only
      rw [Form.withChildren_record mapping hlength]
      cases mapping with
      | none => rfl
      | some m =>
        dsimp only [Option.elim, Option.map, Form.collected]
        rw [m.branches_slots, m.withSlots_slots]
    | none =>
      rw [visitBranches_append_of_done h]
      dsimp only [Visit.map]
      rw [Form.withChildren_record mapping hlength]
      cases mapping with
      | none => rfl
      | some m =>
        rw [walkMapping_eq]
        rfl

/-! ## Nodes -/

theorem Schema.walk_of_fault {s : Schema} {f : Fault} (h : (visitBranches visitor st s.form.branches).fault = some f) :
    s.walk visitor st = ⟨(visitBranches visitor st s.form.branches).state,
      (s.withChildren (visitBranches visitor st s.form.branches).value).collected, some f⟩ := by
  obtain ⟨form, nullable, metadata, examples⟩ := s
  rw [Schema.walk, Form.walk_eq]
  dsimp only [Visit.map] at h ⊢
  rw [h]
  rfl

theorem Schema.walk_of_done {s : Schema} (h : (visitBranches visitor st s.form.branches).fault = none) :
    s.walk visitor st = visitor (visitBranches visitor st s.form.branches).state
      (s.withChildren (visitBranches visitor st s.form.branches).value).collected := by
  obtain ⟨form, nullable, metadata, examples⟩ := s
  rw [Schema.walk, Form.walk_eq]
  dsimp only [Visit.map] at h ⊢
  rw [h]
  rfl

/-- The children are all visited without a fault, or they are up to one whose visit fails. -/
theorem visitBranches_cases (visitor : Visitor σ) (bs : List (Edge × Schema)) : ∀ st,
    ((visitBranches visitor st bs).fault = none ∧ Passes (Schema.walk visitor) st (bs.map (·.2))
      (visitBranches visitor st bs).state (visitBranches visitor st bs).value false) ∨
    ∃ before e c after mid values f, bs = before ++ (e, c) :: after ∧
      Passes (Schema.walk visitor) st (before.map (·.2)) mid values false ∧ (c.walk visitor mid).fault = some f ∧
      visitBranches visitor st bs =
        ⟨(c.walk visitor mid).state, values ++ (c.walk visitor mid).value :: after.map (·.2), some (e.wrap f)⟩ := by
  induction bs with
  | nil => exact fun st => .inl ⟨rfl, .done st⟩
  | cons b rest ih =>
    intro st
    obtain ⟨e, s⟩ := b
    cases h : (s.walk visitor st).fault with
    | some f => exact .inr ⟨[], e, s, rest, st, [], f, rfl, .done st, h, visitBranches_of_fault h rest⟩
    | none =>
      rw [visitBranches_of_done h]
      rcases ih (s.walk visitor st).state with
        ⟨hfault, hpasses⟩ | ⟨before, e', c, after, mid, values, f, rfl, hpasses, hf, hv⟩
      · exact .inl ⟨hfault, .next h hpasses⟩
      · rw [hv]
        exact .inr ⟨(e, s) :: before, e', c, after, mid, _ :: values, f, rfl, .next h hpasses, hf, rfl⟩

end

end ApiShape

/-
What a traversal leaves in the places of the children of a node: for each of them what visiting it
left behind, or the child itself where the traversal had stopped before. A traversal that changes no
node gives back the tree, provided that its keys are fresh.
-/
import ApiShape.Proofs.Catalogue
import ApiShape.Proofs.Schema.Nodes
import ApiShape.Traversal

namespace ApiShape

section

variable {σ : Type} {visit visitor : Visitor σ} {R : Schema → Prop}

/-! ## Nodes visited in order -/

/-- What is left of nodes that are visited in order: those up to the one that fails are visited, and those
after it are as they were. The flag says whether one failed. -/
inductive Passes (visit : Visitor σ) : σ → List Schema → σ → List Schema → Bool → Prop
  | done (st : σ) : Passes visit st [] st [] false
  | failed {st : σ} {s : Schema} (rest : List Schema) : (visit st s).fault.isSome = true →
      Passes visit st (s :: rest) (visit st s).state ((visit st s).value :: rest) true
  | next {st st' : σ} {s : Schema} {rest rest' : List Schema} {stopped : Bool} : (visit st s).fault = none →
      Passes visit (visit st s).state rest st' rest' stopped →
      Passes visit st (s :: rest) st' ((visit st s).value :: rest') stopped

namespace Passes

variable {st mid st' : σ} {l l' k k' : List Schema} {stopped : Bool}

theorem length_eq (h : Passes visit st l st' l' stopped) : l'.length = l.length := by
  induction h with
  | done => rfl
  | failed => rfl
  | next _ _ ih => exact congrArg Nat.succ ih

/-- Nodes that all have what their visits keep have it afterwards, wherever the pass stopped. -/
theorem values (h : Passes visit st l st' l' stopped) (hv : ∀ s ∈ l, ∀ st, R (visit st s).value)
    (hl : ∀ s ∈ l, R s) : ∀ s ∈ l', R s := by
  induction h with
  | done => exact nofun
  | failed rest _ =>
    exact List.forall_mem_cons.2 ⟨hv _ List.mem_cons_self _, fun t ht => hl t (List.mem_cons_of_mem _ ht)⟩
  | next _ _ ih =>
    exact List.forall_mem_cons.2 ⟨hv _ List.mem_cons_self _, ih (fun t ht => hv t (List.mem_cons_of_mem _ ht))
      fun t ht => hl t (List.mem_cons_of_mem _ ht)⟩

/-- After a pass that did not stop every node has what a visit without a fault gives. -/
theorem visited (h : Passes visit st l st' l' false)
    (hv : ∀ s ∈ l, ∀ st, (visit st s).fault = none → R (visit st s).value) : ∀ s ∈ l', R s := by
  generalize hstopped : false = stopped at h
  induction h with
  | done => exact nofun
  | failed => cases hstopped
  | next hfault _ ih =>
    exact List.forall_mem_cons.2 ⟨hv _ List.mem_cons_self _ hfault,
      ih (fun t ht => hv t (List.mem_cons_of_mem _ ht)) hstopped⟩

theorem append (h : Passes visit st l mid l' false) (hk : Passes visit mid k st' k' stopped) :
    Passes visit st (l ++ k) st' (l' ++ k') stopped := by
  generalize hstopped : false = b at h
  induction h with
  | done => exact hk
  | failed => cases hstopped
  | next hfault _ ih => exact .next hfault (ih hk hstopped)

theorem append_rest (h : Passes visit st l st' l' true) (rest : List Schema) :
    Passes visit st (l ++ rest) st' (l' ++ rest) true := by
  generalize hstopped : true = b at h
  induction h with
  | done => cases hstopped
  | failed others hfault => exact .failed (others ++ rest) hfault
  | next hfault _ ih => exact .next hfault (ih hstopped)

end Passes

/-! ## Children -/

theorem visitAll_passes (visitor : Visitor σ) (l : List Schema) : ∀ st, Passes visitor st l (visitAll visitor st l).state
    (visitAll visitor st l).value (visitAll visitor st l).fault.isSome := by
  induction l with
  | nil => exact fun st => .done st
  | cons s rest ih =>
    intro st
    unfold visitAll
    dsimp only
    cases hf : (visitor st s).fault with
    | some f => exact .failed rest (by rw [hf]; rfl)
    | none => exact .next hf (ih _)

theorem walkFields_passes (visitor : Visitor σ) (rows : List (String × Schema)) : ∀ st, Passes (Schema.walk visitor) st (Table.values rows)
    (walkFields visitor st rows).state (Table.values (walkFields visitor st rows).value)
    (walkFields visitor st rows).fault.isSome := by
  induction rows with
  | nil => exact fun st => .done st
  | cons row rest ih =>
    intro st
    obtain ⟨name, s⟩ := row
    unfold walkFields
    dsimp only [Visit.under]
    cases hf : (s.walk visitor st).fault with
    | some f => exact .failed (Table.values rest) (by rw [hf]; rfl)
    | none => exact .next hf (ih _)

theorem walkElems_passes (visitor : Visitor σ) (elems : List Schema) : ∀ st i, Passes (Schema.walk visitor) st elems
    (walkElems visitor st i elems).state (walkElems visitor st i elems).value
    (walkElems visitor st i elems).fault.isSome := by
  induction elems with
  | nil => exact fun st _ => .done st
  | cons s rest ih =>
    intro st i
    unfold walkElems
    dsimp only [Visit.under]
    cases hf : (s.walk visitor st).fault with
    | some f => exact .failed rest (by rw [hf]; rfl)
    | none => exact .next hf (ih _ _)

/-- Options are visited as the nodes of a list are: their keys play no part. -/
theorem walkOptions_eq (visitor : Visitor σ) (rows : List (String × Schema)) :
    ∀ st, walkOptions visitor st rows = visitAll (Schema.walk visitor) st (Table.values rows) := by
  induction rows with
  | nil => exact fun st => rfl
  | cons row rest ih =>
    intro st
    obtain ⟨key, s⟩ := row
    show _ = visitAll (Schema.walk visitor) st (s :: Table.values rest)
    unfold walkOptions visitAll
    dsimp only
    rw [ih]

theorem walkSlot_passes (visitor : Visitor σ) (slot : Option Schema) (st : σ) : Passes (Schema.walk visitor) st slot.toList
    (walkSlot visitor st slot).state (walkSlot visitor st slot).value.toList
    (walkSlot visitor st slot).fault.isSome := by
  cases slot with
  | none => exact .done st
  | some s =>
    show Passes _ st [s] (s.walk visitor st).state [(s.walk visitor st).value] (s.walk visitor st).fault.isSome
    cases hf : (s.walk visitor st).fault with
    | some f => exact .failed [] (by rw [hf]; rfl)
    | none => exact .next hf (.done _)

theorem walkMapping_passes (visitor : Visitor σ) (mapping : Option Mapping) (st : σ) :
    Passes (Schema.walk visitor) st (mapping.elim [] Mapping.slots) (walkMapping visitor st mapping).state
      ((walkMapping visitor st mapping).value.elim [] Mapping.slots) (walkMapping visitor st mapping).fault.isSome := by
  rcases mapping with _ | ⟨key, value⟩
  · exact .done st
  · have hkey := walkSlot_passes visitor key st
    unfold walkMapping
    dsimp only [Visit.under]
    cases hf : (walkSlot visitor st key).fault with
    | some f =>
      rw [hf] at hkey
      exact hkey.append_rest value.toList
    | none =>
      rw [hf] at hkey
      have hboth := hkey.append (walkSlot_passes visitor value _)
      rwa [← Option.isSome_map (f := Fault.inField valueStep)] at hboth

/-- The children of a node are visited in order; options are then collected again. -/
theorem Form.walk_passes (f : Form) (visitor : Visitor σ) (st : σ) : ∃ nodes,
    Passes (Schema.walk visitor) st f.children (f.walk visitor st).state nodes (f.walk visitor st).fault.isSome ∧
      ((f.walk visitor st).value.children = nodes ∨
        (f.walk visitor st).value.children = Table.values (Catalogue.ofList nodes)) := by
  cases f with
  | primitive p => exact ⟨[], .done st, .inl rfl⟩
  | absent => exact ⟨[], .done st, .inl rfl⟩
  | list elems => exact ⟨_, walkElems_passes visitor elems st 0, .inl rfl⟩
  | optional inner => exact ⟨_, walkSlot_passes visitor (some inner) st, .inl rfl⟩
  | oneOf options conflict =>
    unfold Form.walk
    rw [walkOptions_eq]
    exact ⟨_, visitAll_passes (Schema.walk visitor) (Table.values options) st, .inr rfl⟩
  | record fields mapping =>
    have hfields := walkFields_passes visitor fields st
    unfold Form.walk
    dsimp only
    split
    · rename_i f hf
      rw [hf] at hfields ⊢
      exact ⟨_, hfields.append_rest (mapping.elim [] Mapping.slots), .inl rfl⟩
    · rename_i hf
      rw [hf] at hfields
      exact ⟨_, hfields.append (walkMapping_passes visitor mapping _), .inl rfl⟩

/-- The children that a traversal leaves behind have what visited children and children have. -/
theorem Form.walk_children (hmerge : ∀ s e, R s → R (Schema.mergeExamples s e)) {f : Form}
    (hwalk : ∀ t ∈ f.children, ∀ st, R (t.walk visitor st).value) (hf : ∀ t ∈ f.children, R t) (st : σ) :
    ∀ t ∈ (f.walk visitor st).value.children, R t := by
  obtain ⟨nodes, hpasses, hchildren | hchildren⟩ := f.walk_passes visitor st
  · rw [hchildren]
    exact hpasses.values hwalk hf
  · rw [hchildren]
    exact Catalogue.ofList_values hmerge (hpasses.values hwalk hf)

/-- The children that a traversal without a fault leaves behind have what visits without a fault give. -/
theorem Form.walk_children_visited (hmerge : ∀ s e, R s → R (Schema.mergeExamples s e)) {f : Form} {st : σ}
    (hwalk : ∀ t ∈ f.children, ∀ st, (t.walk visitor st).fault = none → R (t.walk visitor st).value)
    (hfault : (f.walk visitor st).fault = none) : ∀ t ∈ (f.walk visitor st).value.children, R t := by
  obtain ⟨nodes, hpasses, hchildren⟩ := f.walk_passes visitor st
  rw [hfault] at hpasses
  have hnodes : ∀ t ∈ nodes, R t := hpasses.visited hwalk
  rcases hchildren with hchildren | hchildren
  · rwa [hchildren]
  · rw [hchildren]
    exact Catalogue.ofList_values hmerge hnodes

/-! ## Trees -/

/-- A traversal keeps a property of shapes throughout a tree, wherever it stops: nodes have it after their children
were visited, and the visitor keeps it. -/
theorem Schema.Throughout.walk {Q : Form → Prop} (hroot : ∀ f st, Q f → Q (Form.walk visitor st f).value)
    (hv : ∀ st s, Schema.Throughout (fun t => Q t.form) s → Schema.Throughout (fun t => Q t.form) (visitor st s).value)
    {s : Schema} (h : s.Throughout (fun t => Q t.form)) :
    ∀ st, Schema.Throughout (fun t => Q t.form) (s.walk visitor st).value := by
  induction s using Schema.inductionOn with
  | step s ih =>
    intro st
    have hchildren : ∀ t ∈ (s.form.walk visitor st).value.children, Schema.Throughout (fun t => Q t.form) t :=
      Form.walk_children (fun t e ht => ht.congr rfl id) (fun t ht => ih t ht (h.child t ht)) h.child st
    obtain ⟨form, nullable, metadata, examples⟩ := s
    have hs : Schema.Throughout (fun t => Q t.form) ⟨(form.walk visitor st).value, nullable, metadata, examples⟩ :=
      .intro (hroot form st h.root) hchildren
    unfold Schema.walk
    dsimp only
    split
    · exact hs
    · exact hv _ _ hs

/-- A traversal without a fault gives a property of shapes to a whole tree, whatever the tree was before, when the
visitor gives it to every node whose children have it. -/
theorem Schema.throughout_of_walk {Q : Form → Prop}
    (hv : ∀ st s, (∀ t ∈ s.children, t.Throughout (fun t => Q t.form)) → (visitor st s).fault = none →
      Schema.Throughout (fun t => Q t.form) (visitor st s).value) (s : Schema) :
    ∀ st, (s.walk visitor st).fault = none → Schema.Throughout (fun t => Q t.form) (s.walk visitor st).value := by
  induction s using Schema.inductionOn with
  | step s ih =>
    intro st hfault
    obtain ⟨form, nullable, metadata, examples⟩ := s
    unfold Schema.walk at hfault ⊢
    dsimp only at hfault ⊢
    cases hform : (form.walk visitor st).fault with
    | some f =>
      rw [hform] at hfault
      cases hfault
    | none =>
      rw [hform] at hfault
      exact hv _ _ (Form.walk_children_visited (fun t e ht => ht.congr rfl id) ih hform) hfault

/-! ## Traversals without effect -/

variable {st : σ}

theorem walkFields_unchanged {rows : List (String × Schema)}
    (h : ∀ t ∈ Table.values rows, t.walk visitor st = ⟨st, t, none⟩) :
    walkFields visitor st rows = ⟨st, rows, none⟩ := by
  induction rows with
  | nil => rfl
  | cons row rest ih =>
    obtain ⟨name, s⟩ := row
    unfold walkFields
    rw [h s List.mem_cons_self]
    dsimp only [Visit.under, Option.map]
    rw [ih fun t ht => h t (List.mem_cons_of_mem _ ht)]
    rfl

theorem walkElems_unchanged {elems : List Schema} (h : ∀ t ∈ elems, t.walk visitor st = ⟨st, t, none⟩) (i : Nat) :
    walkElems visitor st i elems = ⟨st, elems, none⟩ := by
  induction elems generalizing i with
  | nil => rfl
  | cons s rest ih =>
    unfold walkElems
    rw [h s List.mem_cons_self]
    dsimp only [Visit.under, Option.map]
    rw [ih fun t ht => h t (List.mem_cons_of_mem _ ht)]
    rfl

theorem walkSlot_unchanged {slot : Option Schema} (h : ∀ t ∈ slot, t.walk visitor st = ⟨st, t, none⟩) :
    walkSlot visitor st slot = ⟨st, slot, none⟩ := by
  cases slot with
  | none => rfl
  | some s =>
    unfold walkSlot
    rw [h s rfl]
    rfl

theorem walkMapping_unchanged {mapping : Option Mapping}
    (h : ∀ m, mapping = some m → ∀ t ∈ m.slots, t.walk visitor st = ⟨st, t, none⟩) :
    walkMapping visitor st mapping = ⟨st, mapping, none⟩ := by
  cases mapping with
  | none => rfl
  | some m =>
    obtain ⟨key, value⟩ := m
    unfold walkMapping
    rw [walkSlot_unchanged fun t ht => h _ rfl t (Mapping.mem_slots.2 (.inl ht))]
    dsimp only [Visit.under, Option.map]
    rw [walkSlot_unchanged fun t ht => h _ rfl t (Mapping.mem_slots.2 (.inr ht))]
    rfl

theorem visitAll_unchanged {l : List Schema} (h : ∀ s ∈ l, visitor st s = ⟨st, s, none⟩) :
    visitAll visitor st l = ⟨st, l, none⟩ := by
  induction l with
  | nil => rfl
  | cons s rest ih =>
    unfold visitAll
    rw [h s List.mem_cons_self]
    dsimp only [Visit.under, Option.map]
    rw [ih fun t ht => h t (List.mem_cons_of_mem _ ht)]
    rfl

end

end ApiShape

/-
Routes through a tree: the indices of the children on the way from the root down to a node. A node can be looked up
and replaced at its route, and what a report calls the way there is read off the route (`Schema.stepsTo`).
-/
import ApiShape.Absorb.Mapping
import ApiShape.Proofs.Catalogue
import ApiShape.Proofs.Schema.Nodes

namespace ApiShape

/-! ## Branches -/

/-- The way from a node to one of its children, as reports name it. -/
inductive Edge where
  | field (name : String)
  | elem (index : Nat)
  /-- To an interior or to an option, which reports leave out. -/
  | layer

namespace Edge

/-- What the fault of a child is at the node above it. -/
def wrap : Edge → Fault → Fault
  | .field name, f => .inField name f
  | .elem i, f => .atIndex i f
  | .layer, f => f

/-- The names that an edge adds to the path of a fault: wrappers and options add none. -/
def steps : Edge → List String
  | .field name => [name]
  | .elem i => [Fault.indexStep i]
  | .layer => []

theorem path_wrap (e : Edge) (f : Fault) : (e.wrap f).path = e.steps ++ f.path := by
  cases e <;> rfl

theorem root_wrap (e : Edge) (f : Fault) : (e.wrap f).root = f.root := by
  cases e <;> rfl

end Edge

/-- The key before the value, as a traversal takes them. -/
def Mapping.branches (m : Mapping) : List (Edge × Schema) :=
  m.key.toList.map (fun s => (.field keyStep, s)) ++ m.value.toList.map (fun s => (.field valueStep, s))

/-- The children of a node with the ways to them: fields in the order of their names, then the key and the value of a
mapping; elements in order; options in the order of their keys. -/
def Form.branches : Form → List (Edge × Schema)
  | .primitive _ => []
  | .record fields mapping => fields.map (fun row => (.field row.1, row.2)) ++ mapping.elim [] Mapping.branches
  | .list elems => elems.zipIdx.map (fun elem => (.elem elem.2, elem.1))
  | .absent => []
  | .optional inner => [(.layer, inner)]
  | .oneOf options _ => options.map (fun row => (.layer, row.2))

theorem Form.branches_children (f : Form) : f.branches.map (·.2) = f.children := by
  cases f with
  | primitive | absent | optional => rfl
  | list elems => simp [Form.branches, Form.children, Function.comp_def, List.zipIdx_map_fst]
  | oneOf options conflict => simp [Form.branches, Form.children, Table.values, Function.comp_def]
  | record fields mapping =>
    cases mapping <;>
      simp [Form.branches, Form.children, Table.values, Mapping.branches, Mapping.slots, Function.comp_def]

/-! ## Other children in the places of the children -/

/-- The keys of a table with other values, in the same order. -/
def Table.withValues {α : Type} (t : Table α) (l : List α) : Table α := t.zipWith (fun row a => (row.1, a)) l

/-- A mapping with the given trees in the slots it has, key first. -/
def Mapping.withSlots (m : Mapping) (l : List Schema) : Mapping where
  key := m.key.map l.headD
  value := m.value.map (l.drop m.key.toList.length).headD

/-- A shape with other children, one for each that it has. -/
def Form.withChildren : Form → List Schema → Form
  | .primitive p, _ => .primitive p
  | .record fields mapping, l => .record (Table.withValues fields l) (mapping.map (·.withSlots (l.drop fields.length)))
  | .list _, l => .list l
  | .absent, _ => .absent
  | .optional inner, l => .optional (l.headD inner)
  | .oneOf options conflict, l => .oneOf (Table.withValues options l) conflict

section

variable {α : Type} {t : Table α} {l l' : List α}

theorem Table.values_withValues (t : Table α) (l : List α) : Table.values (t.withValues l) = l.take t.length := by
  induction t generalizing l with
  | nil => rfl
  | cons row rest ih =>
    cases l with
    | nil => rfl
    | cons a l => exact congrArg (List.cons a) (ih l)

theorem Table.withValues_values (t : Table α) (rest : List α) : t.withValues (Table.values t ++ rest) = t := by
  induction t with
  | nil => rfl
  | cons row tail ih => exact congrArg (List.cons row) ih

theorem Table.withValues_append (h : l.length = t.length) (l' : List α) : t.withValues (l ++ l') = t.withValues l := by
  induction t generalizing l with
  | nil =>
    obtain rfl := List.eq_nil_of_length_eq_zero h
    rfl
  | cons row rest ih =>
    cases l with
    | nil => cases h
    | cons a l => exact congrArg (List.cons (row.1, a)) (ih (Nat.succ.inj h))

theorem Table.withValues_withValues (h : t.length ≤ l.length) : (t.withValues l).withValues l' = t.withValues l' := by
  induction t generalizing l l' with
  | nil => rfl
  | cons row rest ih =>
    cases l with
    | nil => cases h
    | cons a l =>
      cases l' with
      | nil => rfl
      | cons b l' => exact congrArg (List.cons (row.1, b)) (ih (Nat.le_of_succ_le_succ h))

end

theorem Table.length_withValues {α : Type} {t : Table α} {l : List α} (h : t.length ≤ l.length) :
    (t.withValues l).length = t.length := by
  simp [Table.withValues, h]

theorem Mapping.branches_slots (m : Mapping) : m.branches.map (·.2) = m.slots := by
  obtain ⟨_ | key, _ | value⟩ := m <;> rfl

theorem Mapping.slots_withSlots {m : Mapping} {l : List Schema} (h : l.length = m.slots.length) :
    (m.withSlots l).slots = l := by
  obtain ⟨_ | key, _ | value⟩ := m <;> rcases l with _ | ⟨a, _ | ⟨b, _ | l⟩⟩ <;>
    simp_all [Mapping.slots, Mapping.withSlots]

theorem Mapping.withSlots_append {key value : Option Schema} {l : List Schema} (h : l.length = key.toList.length)
    (l' : List Schema) : Mapping.withSlots ⟨key, value⟩ (l ++ l') = ⟨key.map l.headD, value.map l'.headD⟩ := by
  obtain _ | key := key <;> rcases l with _ | ⟨a, _ | ⟨b, l⟩⟩ <;> simp_all [Mapping.withSlots]

theorem Mapping.withSlots_slots (m : Mapping) : m.withSlots m.slots = m := by
  obtain ⟨_ | key, _ | value⟩ := m <;> rfl

theorem Mapping.withSlots_withSlots (m : Mapping) {l l' : List Schema} (h : l'.length = m.slots.length) :
    (m.withSlots l).withSlots l' = m.withSlots l' := by
  obtain ⟨_ | key, _ | value⟩ := m <;> rcases l' with _ | ⟨a, _ | ⟨b, _ | l⟩⟩ <;>
    simp_all [Mapping.slots, Mapping.withSlots]

namespace Form

variable {f : Form} {l l' : List Schema}

/-- As many children as before are the children afterwards. -/
theorem children_withChildren (h : l.length = f.children.length) : (f.withChildren l).children = l := by
  cases f with
  | primitive | absent => exact (List.eq_nil_of_length_eq_zero h).symm
  | list elems => rfl
  | optional inner =>
    obtain ⟨a, rfl⟩ := List.length_eq_one_iff.1 h
    rfl
  | oneOf options conflict =>
    have hlength : l.length = options.length := by simpa [children, Table.values] using h
    simp only [withChildren, children, Table.values_withValues]
    rw [← hlength, List.take_length]
  | record fields mapping =>
    cases mapping with
    | none =>
      have hlength : l.length = fields.length := by simpa [children, Table.values] using h
      simp only [withChildren, children, Table.values_withValues, Option.map, Option.elim]
      rw [← hlength, List.take_length, List.append_nil]
    | some m =>
      have hlength : l.length = fields.length + m.slots.length := by simpa [children, Table.values] using h
      simp only [withChildren, children, Table.values_withValues, Option.map, Option.elim]
      rw [Mapping.slots_withSlots (by rw [List.length_drop]; omega), List.take_append_drop]

theorem withChildren_record {fields : Table Schema} (mapping : Option Mapping) (h : l.length = fields.length) :
    (Form.record fields mapping).withChildren (l ++ l') =
      .record (fields.withValues l) (mapping.map (·.withSlots l')) := by
  rw [withChildren, Table.withValues_append h, ← h, List.drop_left]

theorem withChildren_children (f : Form) : f.withChildren f.children = f := by
  cases f with
  | primitive | absent | list | optional => rfl
  | oneOf options conflict =>
    have hvalues := Table.withValues_values options []
    rw [List.append_nil] at hvalues
    exact congrArg (Form.oneOf · conflict) hvalues
  | record fields mapping =>
    have hlength : (Table.values fields).length = fields.length := List.length_map _
    rw [children, withChildren, Table.withValues_values, List.drop_append, ← hlength, List.drop_length, Nat.sub_self]
    cases mapping with
    | none => rfl
    | some m => exact congrArg (fun m => Form.record fields (some m)) m.withSlots_slots

/-- Children that are replaced twice are those of the second time. -/
theorem withChildren_withChildren (h : l.length = f.children.length) (h' : l'.length = f.children.length) :
    (f.withChildren l).withChildren l' = f.withChildren l' := by
  cases f with
  | primitive | absent | list => rfl
  | optional inner =>
    obtain ⟨a, rfl⟩ := List.length_eq_one_iff.1 h'
    rfl
  | oneOf options conflict =>
    have hlength : l.length = options.length := by simpa [children, Table.values] using h
    simp only [withChildren]
    rw [Table.withValues_withValues (Nat.le_of_eq hlength.symm)]
  | record fields mapping =>
    have hle : fields.length ≤ l.length := by simp [h, children, Table.values]
    simp only [withChildren]
    rw [Table.withValues_withValues hle, Table.length_withValues hle]
    cases mapping with
    | none => rfl
    | some m =>
      have hlength : l'.length = fields.length + m.slots.length := by simpa [children, Table.values] using h'
      simp only [Option.map]
      rw [Mapping.withSlots_withSlots m (by rw [List.length_drop]; omega)]

end Form

/-- The shape with its options, if it has any, collected again in the order in which they stand. -/
def Form.collected : Form → Form
  | .oneOf options conflict => .oneOf (Catalogue.ofList (Table.values options)) conflict
  | f => f

/-! ## Nodes at routes -/

/-- The indices of the children on the way down from the root. -/
abbrev Route := List Nat

namespace Schema

/-- The node with other children. -/
def withChildren (s : Schema) (l : List Schema) : Schema := { s with form := s.form.withChildren l }

/-- The node with another child at an index. -/
def setChild (s : Schema) (i : Nat) (t : Schema) : Schema := s.withChildren (s.children.set i t)

/-- The node at a route, if the route stays in the tree. -/
def at? (s : Schema) : Route → Option Schema
  | [] => some s
  | i :: r => s.children[i]?.bind (fun t => t.at? r)

/-- The tree with another node at a route. -/
def put (s : Schema) : Route → Schema → Schema
  | [], t => t
  | i :: r, t => s.children[i]?.elim s (fun c => s.setChild i (c.put r t))

/-- The steps of a report on the way to a node. -/
def stepsTo (s : Schema) : Route → List String
  | [] => []
  | i :: r => s.form.branches[i]?.elim [] (fun b => b.1.steps ++ b.2.stepsTo r)

/-- The node with its options, if it has any, collected again in the order in which they stand. -/
def collected (s : Schema) : Schema := { s with form := s.form.collected }

/-- The tree with the options of all nodes above a route collected again, innermost first. -/
def collectAbove (s : Schema) : Route → Schema
  | [] => s
  | i :: r => s.children[i]?.elim s (fun c => (s.setChild i (c.collectAbove r)).collected)

variable {s t c : Schema} {i j : Nat} {r q : Route} {l l' : List Schema}

theorem children_withChildren (h : l.length = s.children.length) : (s.withChildren l).children = l :=
  Form.children_withChildren h

theorem withChildren_children (s : Schema) : s.withChildren s.children = s := by
  obtain ⟨form, nullable, metadata, examples⟩ := s
  exact congrArg (fun f => (⟨f, nullable, metadata, examples⟩ : Schema)) form.withChildren_children

theorem withChildren_withChildren (h : l.length = s.children.length) (h' : l'.length = s.children.length) :
    (s.withChildren l).withChildren l' = s.withChildren l' := by
  unfold withChildren
  rw [Form.withChildren_withChildren h h']

theorem collected_withChildren {options : Catalogue} {conflict : Bool} (h : s.form = .oneOf options conflict)
    (hl : l.length = options.length) :
    (s.withChildren l).collected = { s with form := .oneOf (Catalogue.ofList l) conflict } := by
  obtain ⟨form, nullable, metadata, examples⟩ := s
  obtain rfl : form = .oneOf options conflict := h
  unfold withChildren collected
  dsimp only [Form.withChildren, Form.collected]
  rw [Table.values_withValues, ← hl, List.take_length]

theorem children_setChild (s : Schema) (i : Nat) (t : Schema) : (s.setChild i t).children = s.children.set i t :=
  children_withChildren (List.length_set ..)

theorem setChild_setChild (s : Schema) (i : Nat) (t u : Schema) : (s.setChild i t).setChild i u = s.setChild i u := by
  unfold setChild
  rw [children_withChildren (List.length_set ..), List.set_set,
    withChildren_withChildren (List.length_set ..) (List.length_set ..)]

theorem setChild_self (h : s.children[i]? = some c) : s.setChild i c = s := by
  obtain ⟨hlt, hget⟩ := List.getElem?_eq_some_iff.1 h
  unfold setChild
  rw [← hget, List.set_getElem_self hlt]
  exact s.withChildren_children

theorem children_setChild_self (h : s.children[i]? = some c) (t : Schema) : (s.setChild i t).children[i]? = some t := by
  have hlt : i < s.children.length := (List.getElem?_eq_some_iff.1 h).1
  rw [children_setChild, List.getElem?_set_self hlt]

theorem at?_cons (h : s.children[i]? = some c) (r : Route) : s.at? (i :: r) = c.at? r := by
  rw [at?, h, Option.bind_some]

theorem put_cons (h : s.children[i]? = some c) (r : Route) (t : Schema) :
    s.put (i :: r) t = s.setChild i (c.put r t) := by
  rw [put, h, Option.elim_some]

theorem at?_put (h : (s.at? r).isSome) (t : Schema) : (s.put r t).at? r = some t := by
  induction r generalizing s with
  | nil => rfl
  | cons i r ih =>
    cases hc : s.children[i]? with
    | none =>
      rw [at?, hc] at h
      cases h
    | some c =>
      rw [at?_cons hc] at h
      rw [put_cons hc, at?_cons (children_setChild_self hc _), ih h]

theorem collectAbove_cons (h : s.children[i]? = some c) (r : Route) :
    s.collectAbove (i :: r) = (s.setChild i (c.collectAbove r)).collected := by
  rw [collectAbove, h, Option.elim_some]

theorem stepsTo_cons {e : Edge} (h : s.form.branches[i]? = some (e, c)) (r : Route) :
    s.stepsTo (i :: r) = e.steps ++ c.stepsTo r := by
  rw [stepsTo, h, Option.elim_some]

theorem children_of_branches {e : Edge} (h : s.form.branches[i]? = some (e, c)) : s.children[i]? = some c := by
  unfold children
  rw [← s.form.branches_children, List.getElem?_map, h]
  rfl

/-! ### Some children replaced -/

/-- The node with `values` in the places of its first children and `t` in that of the next one. -/
def fill (s : Schema) (values : List Schema) (t : Schema) : Schema :=
  s.withChildren (values ++ t :: s.children.drop (values.length + 1))

section

variable {values : List Schema} (h : values.length < s.children.length)

include h

theorem length_fill (t : Schema) :
    (values ++ t :: s.children.drop (values.length + 1)).length = s.children.length := by
  rw [List.length_append, List.length_cons, List.length_drop]
  omega

theorem children_fill (t : Schema) :
    (s.fill values t).children = values ++ t :: s.children.drop (values.length + 1) :=
  children_withChildren (length_fill h t)

theorem getElem?_children_fill (t : Schema) : (s.fill values t).children[values.length]? = some t := by
  simp [children_fill h]

theorem setChild_fill (t u : Schema) : (s.fill values t).setChild values.length u = s.fill values u := by
  have hset : (s.fill values t).children.set values.length u = values ++ u :: s.children.drop (values.length + 1) := by
    simp [children_fill h]
  unfold setChild
  rw [hset]
  exact withChildren_withChildren (length_fill h t) (length_fill h u)

theorem at?_fill (t : Schema) (r : Route) : (s.fill values t).at? (values.length :: r) = t.at? r :=
  at?_cons (getElem?_children_fill h t) r

theorem at?_fill_of_lt (t : Schema) {j : Nat} (hj : j < values.length) : (s.fill values t).at? [j] = values[j]? := by
  rw [at?, children_fill h, List.getElem?_append_left hj]
  cases values[j]? <;> rfl

theorem at?_fill_of_gt (t : Schema) {j : Nat} (hj : values.length < j) (r : Route) :
    (s.fill values t).at? (j :: r) = s.at? (j :: r) := by
  obtain ⟨k, rfl⟩ := Nat.exists_eq_add_of_lt hj
  rw [at?, at?, children_fill h, List.getElem?_append_right (by omega)]
  congr 1
  rw [show values.length + k + 1 - values.length = k + 1 by omega, List.getElem?_cons_succ, List.getElem?_drop]
  congr 1
  omega

theorem put_fill (t : Schema) (r : Route) (u : Schema) :
    (s.fill values t).put (values.length :: r) u = s.fill values (t.put r u) := by
  rw [put_cons (getElem?_children_fill h t), setChild_fill h]

theorem collected_fill {options : Catalogue} {conflict : Bool} (hform : s.form = .oneOf options conflict) (t : Schema) :
    (s.fill values t).collected = { s with
      form := .oneOf (Catalogue.ofList (values ++ t :: (Table.values options).drop (values.length + 1))) conflict } := by
  have hchildren : s.children = Table.values options := by
    unfold children
    rw [hform]
    rfl
  have hlength : (Table.values options).length = options.length := List.length_map _
  unfold fill
  rw [collected_withChildren hform ((length_fill h t).trans (by rw [hchildren, hlength])), hchildren]

theorem collectAbove_fill (t : Schema) (r : Route) :
    (s.fill values t).collectAbove (values.length :: r) = (s.fill values (t.collectAbove r)).collected := by
  rw [collectAbove_cons (getElem?_children_fill h t), setChild_fill h]

end

end Schema

end ApiShape

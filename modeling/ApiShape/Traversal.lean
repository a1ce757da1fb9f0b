/-
Traversal of a tree from the leaves up, with a visitor that may change each node and may fail. A
traversal that stops leaves the tree behind as far as it got: what was visited keeps its changes,
what was not is untouched, and every set of options is collected again under its addresses.
-/
import ApiShape.Absorb.Mapping
import ApiShape.Catalogue

namespace ApiShape

/-- What a visit leaves behind: the state of the visitor, the value visited, and the fault that
stopped the visit, if any. -/
structure Visit (σ α : Type) where
  state : σ
  value : α
  fault : Option Fault := none

/-- What is done to a node after its children. -/
abbrev Visitor (σ : Type) := σ → Schema → Visit σ Schema

namespace Visit

variable {σ α β : Type}

/-- The visit with its value put into its place in a larger one. -/
def map (f : α → β) (v : Visit σ α) : Visit σ β := ⟨v.state, f v.value, v.fault⟩

/-- Adds a step to the path of the fault. -/
def under (step : Fault → Fault) (v : Visit σ α) : Visit σ α := { v with fault := v.fault.map step }

end Visit

/-- Visits the values in order until one fails. -/
def visitAll {σ : Type} (visitor : Visitor σ) (st : σ) : List Schema → Visit σ (List Schema)
  | [] => ⟨st, [], none⟩
  | s :: rest =>
    let v := visitor st s
    match v.fault with
    | some _ => ⟨v.state, v.value :: rest, v.fault⟩
    | none => (visitAll visitor v.state rest).map (v.value :: ·)

mutual

/-- Visits a node after its children, unless the visit of a child failed. -/
def Schema.walk {σ : Type} (visitor : Visitor σ) (st : σ) : Schema → Visit σ Schema
  | ⟨form, nullable, metadata, examples⟩ =>
    let v := form.walk visitor st
    let s : Schema := ⟨v.value, nullable, metadata, examples⟩
    match v.fault with
    | some _ => ⟨v.state, s, v.fault⟩
    | none => visitor v.state s

/-- Visits the children of a node: fields by name, then map key and value; elements and options in
order. -/
def Form.walk {σ : Type} (visitor : Visitor σ) (st : σ) : Form → Visit σ Form
  | .primitive p => ⟨st, .primitive p, none⟩
  | .record fields mapping =>
    let v := walkFields visitor st fields
    match v.fault with
    | some _ => ⟨v.state, .record v.value mapping, v.fault⟩
    | none => (walkMapping visitor v.state mapping).map (.record v.value)
  | .list elems => (walkElems visitor st 0 elems).map .list
  | .absent => ⟨st, .absent, none⟩
  | .optional inner => (inner.walk visitor st).map .optional
  | .oneOf options conflict =>
    (walkOptions visitor st options).map (fun nodes => .oneOf (Catalogue.ofList nodes) conflict)

/-- The fields of a record in the order of their names, each a step of the path. -/
def walkFields {σ : Type} (visitor : Visitor σ) (st : σ) :
    List (String × Schema) → Visit σ (List (String × Schema))
  | [] => ⟨st, [], none⟩
  | (name, s) :: rest =>
    let v := (s.walk visitor st).under (.inField name)
    match v.fault with
    | some _ => ⟨v.state, (name, v.value) :: rest, v.fault⟩
    | none => (walkFields visitor v.state rest).map ((name, v.value) :: ·)

/-- The elements of a list in order, numbered from `index`. -/
def walkElems {σ : Type} (visitor : Visitor σ) (st : σ) (index : Nat) :
    List Schema → Visit σ (List Schema)
  | [] => ⟨st, [], none⟩
  | s :: rest =>
    let v := (s.walk visitor st).under (.atIndex index)
    match v.fault with
    | some _ => ⟨v.state, v.value :: rest, v.fault⟩
    | none => (walkElems visitor v.state (index + 1) rest).map (v.value :: ·)

/-- The nodes of a catalogue in key order, visited until one fails. -/
def walkOptions {σ : Type} (visitor : Visitor σ) (st : σ) :
    List (String × Schema) → Visit σ (List Schema)
  | [] => ⟨st, [], none⟩
  | (_, s) :: rest =>
    let v := s.walk visitor st
    match v.fault with
    | some _ => ⟨v.state, v.value :: Table.values rest, v.fault⟩
    | none => (walkOptions visitor v.state rest).map (v.value :: ·)

/-- The key of a mapping and then, unless that failed, its value. -/
def walkMapping {σ : Type} (visitor : Visitor σ) (st : σ) :
    Option Mapping → Visit σ (Option Mapping)
  | none => ⟨st, none, none⟩
  | some ⟨key, value⟩ =>
    let k := (walkSlot visitor st key).under (.inField keyStep)
    match k.fault with
    | some _ => ⟨k.state, some ⟨k.value, value⟩, k.fault⟩
    | none =>
      ((walkSlot visitor k.state value).under (.inField valueStep)).map
        (fun v => some ⟨k.value, v⟩)

/-- The key or the value of a mapping, if there is one. -/
def walkSlot {σ : Type} (visitor : Visitor σ) (st : σ) : Option Schema → Visit σ (Option Schema)
  | none => ⟨st, none, none⟩
  | some s => (s.walk visitor st).map some

end

namespace Catalogue

/-- Applies a visitor to every node itself, and stores the nodes under their addresses again. -/
def update {σ : Type} (visitor : Visitor σ) (st : σ) (c : Catalogue) : Visit σ Catalogue :=
  (visitAll visitor st (Table.values c)).map ofList

/-- Traverses every node, and stores the nodes under their addresses again. -/
def walk {σ : Type} (visitor : Visitor σ) (st : σ) (c : Catalogue) : Visit σ Catalogue :=
  update (fun st s => s.walk visitor st) st c

end Catalogue

/-! ## Addresses -/

/-- Leaves every node as it is. -/
def idle : Visitor Unit := fun st s => ⟨st, s, none⟩

/-- Stores every option of the tree under its address again. -/
def Schema.rewriteKeys (s : Schema) : Schema := (s.walk idle ()).value

end ApiShape

/-
Catalogues: nodes stored under their addresses. Nodes with one address are one entry, whose
examples are merged. A node is never changed in place: it is taken out, changed, and inserted
again under the address it then has.
-/
import ApiShape.Fault
import ApiShape.Schema.Canonical

namespace ApiShape

/-- Nodes by address. `Fresh` says that the keys are the addresses. -/
abbrev Catalogue := Table Schema

namespace Catalogue

/--
Stores a node under its address. When the address is taken, the stored node stays and takes over
the examples.
-/
def insert (c : Catalogue) (s : Schema) : Catalogue :=
  match Table.find? c s.address with
  | some stored => Table.insert c s.address (stored.mergeExamples s.examples)
  | none => Table.insert c s.address s

/-- The catalogue of nodes inserted in order. -/
def ofList (nodes : List Schema) : Catalogue := nodes.foldl insert []

/-- The nodes that satisfy `p`, in key order, and the catalogue without them. -/
def take (p : Schema → Bool) (c : Catalogue) : List Schema × Catalogue :=
  (Table.values (c.filter (fun row => p row.2)), c.filter (fun row => !p row.2))

/-- Stores every node under the address it has now. -/
def rehash (c : Catalogue) : Catalogue := ofList (Table.values c)

/-- The first entry, in key order, whose key is not the address of its node. -/
def checkKeys : Catalogue → Except Fault Unit
  | [] => .ok ()
  | (key, s) :: rest =>
    if key = s.address then checkKeys rest else .error (.staleKey key s.address)

end Catalogue

end ApiShape

/-
Well-formed trees: no optional layer directly around another, and options that cannot be taken for one
another. What inserting an option, leaving options out and collapsing do to well-formed alternatives.
-/
import ApiShape.Proofs.Absorb.Stable

namespace ApiShape

/-! ## Nodes that agree -/

theorem Form.agrees_comm (f g : Form) : f.agrees g = g.agrees f := by
  cases f <;> cases g <;> first | rfl | exact Primitive.joinable_comm _ _

theorem agrees_comm (s t : Schema) : s.agrees t = t.agrees s := s.form.agrees_comm t.form

/-! ## Exclusive options -/

/-- Options that stand side by side: primitives, records and lists, of which no two agree. So at most one
is a record, at most one is a list, and no two primitives join. -/
structure Catalogue.Exclusive (options : Catalogue) : Prop where
  plain : ∀ t ∈ Table.values options, t.isPlain
  apart : (Table.values options).Pairwise (fun s t => s.agrees t = false)

namespace Catalogue.Exclusive

variable {options : Catalogue} {s : Schema}

theorem nil : Exclusive [] := ⟨nofun, .nil⟩

theorem filter (h : Exclusive options) (p : String × Schema → Bool) : Exclusive (options.filter p) where
  plain t ht := by
    obtain ⟨key, hrow⟩ := Table.mem_values.1 ht
    exact h.plain t (Table.mem_values_of_mem (List.mem_filter.1 hrow).1)
  apart := h.apart.sublist (List.filter_sublist.map _)

/-- An option that agrees with none of the others can be added. -/
theorem insert_of_new (h : Exclusive options) (hsorted : Table.Sorted options) (hs : s.isPlain)
    (hapart : ∀ t ∈ Table.values options, s.agrees t = false)
    (hfind : Table.find? options s.address = none) : Exclusive (Catalogue.insert options s) where
  plain t ht := by
    rw [Catalogue.insert_of_new hfind] at ht
    rcases Table.mem_of_mem_values_insert ht with rfl | ht
    · exact hs
    · exact h.plain t ht
  apart := by
    have hperm := (hsorted.insert_perm s.address s).map Prod.snd
    rw [Catalogue.insert_of_new hfind]
    refine (List.Perm.pairwise_iff (fun h => by rwa [agrees_comm]) hperm).2 ?_
    rw [List.map_cons, List.pairwise_cons]
    exact ⟨fun t ht => hapart t (mem_values_erase ht), (h.filter _).apart⟩

/-- A stored option takes over the examples of one with its address, and stays in its place. -/
theorem insert_of_stored {stored : Schema} (h : Exclusive options) (hsorted : Table.Sorted options)
    (hfind : Table.find? options s.address = some stored) : Exclusive (Catalogue.insert options s) where
  plain t ht := by
    rw [Catalogue.insert_of_stored hfind] at ht
    rcases Table.mem_of_mem_values_insert ht with rfl | ht
    · exact h.plain stored (Table.mem_values_of_mem (Table.mem_of_find? hfind))
    · exact h.plain t ht
  apart := by
    have hsymm : ∀ {a b : Schema}, a.agrees b = false → b.agrees a = false := fun h => by rwa [agrees_comm]
    have hperm := (hsorted.insert_perm s.address (stored.mergeExamples s.examples)).map Prod.snd
    have hstored := (hsorted.perm_of_find? hfind).map Prod.snd
    have hapart := (List.Perm.pairwise_iff hsymm hstored).1 h.apart
    rw [List.map_cons, List.pairwise_cons] at hapart
    rw [Catalogue.insert_of_stored hfind]
    refine (List.Perm.pairwise_iff hsymm hperm).2 ?_
    rw [List.map_cons, List.pairwise_cons]
    exact hapart

theorem insert (h : Exclusive options) (hsorted : Table.Sorted options) (hs : s.isPlain)
    (hapart : ∀ t ∈ Table.values options, s.agrees t = false) : Exclusive (Catalogue.insert options s) := by
  cases hfind : Table.find? options s.address with
  | none => exact h.insert_of_new hsorted hs hapart hfind
  | some stored => exact h.insert_of_stored hsorted hfind

end Catalogue.Exclusive

/-! ## Well-formed trees -/

/-- What has to hold of a shape at each node: no optional layer is directly around another, and
alternatives are exclusive. -/
def Form.WellFormed : Form → Prop
  | .optional inner => inner.isOptional = false
  | .oneOf options _ => Catalogue.Exclusive options
  | _ => True

/-- At every depth, optional layers are single and alternatives are exclusive. -/
def Schema.WellFormed (s : Schema) : Prop := s.Throughout (fun t => t.form.WellFormed)

theorem closed_wellFormed (limits : Limits) : Closed limits Form.WellFormed where
  text := trivial
  primitive _ _ _ := trivial
  list _ := trivial
  optional h _ := h
  record _ _ _ _ := trivial
  emptyMap _ := trivial
  map _ := trivial
  empty _ := Catalogue.Exclusive.nil
  filter p h := Catalogue.Exclusive.filter h p
  flag h := h

end ApiShape

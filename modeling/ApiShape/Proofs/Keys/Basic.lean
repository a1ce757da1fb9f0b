/-
Trees and catalogues whose keys are the addresses of what they hold (`Keyed`), at every depth.
Whatever goes through the insertion of a catalogue is keyed again, so that the operations on
catalogues, absorbing and accumulating all keep it.
-/
import ApiShape.Endpoint
import ApiShape.Proofs.Accumulate.Basic
import ApiShape.Proofs.Inference

namespace ApiShape

/-! ## Fresh keys -/

/-- Every node is stored under its address, in the order of addresses. -/
def Catalogue.Fresh (c : Catalogue) : Prop := Table.Sorted c ∧ ∀ row ∈ c, row.1 = row.2.address

/-- The keys of alternatives are fresh; other shapes have none. -/
def Form.Fresh : Form → Prop
  | .oneOf options _ => Catalogue.Fresh options
  | _ => True

/-- The keys of all alternatives in a tree are fresh. -/
def Schema.Keyed (s : Schema) : Prop := s.Throughout (fun t => t.form.Fresh)

/-- The keys of a catalogue and of all alternatives in its nodes are fresh. -/
def Catalogue.Keyed (c : Catalogue) : Prop := c.Fresh ∧ ∀ s ∈ Table.values c, s.Keyed

/-- Arguments and responses are keyed. -/
def Endpoint.Keyed (e : Endpoint) : Prop := e.args.Keyed ∧ e.responses.Keyed

theorem Schema.keyed_iff {s : Schema} : s.Keyed ↔ s.form.Everywhere Form.Fresh :=
  Schema.throughout_iff_everywhere

theorem Schema.Keyed.of_form {s t : Schema} (h : s.Keyed) (hform : t.form = s.form) : t.Keyed := by
  rw [Schema.keyed_iff] at h ⊢
  rwa [hform]

/-- Trees with two addresses have two digests. -/
theorem Schema.digest_ne_of_address_ne {s t : Schema} (h : s.address ≠ t.address) : s.canon.digest ≠ t.canon.digest := by
  unfold Schema.address at h
  exact fun heq => h (congrArg Digest.hex heq)

/-- The check of the keys of one catalogue passes exactly when they are the addresses. -/
theorem Catalogue.checkKeys_eq_ok {c : Catalogue} :
    c.checkKeys = .ok () ↔ ∀ row ∈ c, row.1 = row.2.address := by
  induction c with
  | nil => simp [Catalogue.checkKeys]
  | cons row rest ih =>
    obtain ⟨key, s⟩ := row
    unfold Catalogue.checkKeys
    split
    · rename_i heq
      rw [ih]
      simp [heq]
    · rename_i hne
      exact ⟨nofun, fun h => absurd (h (key, s) List.mem_cons_self) hne⟩

/-! ## Operations on catalogues -/

namespace Catalogue

variable {c : Catalogue} {s : Schema}

theorem Fresh.nil : Fresh [] := ⟨Table.Sorted.nil, nofun⟩

theorem Fresh.insert (h : c.Fresh) (s : Schema) : (insert c s).Fresh := by
  constructor
  · unfold Catalogue.insert
    split
    · exact h.1.insert
    · exact h.1.insert
  · intro row hrow
    rcases mem_of_mem_insert hrow with hrow | rfl | ⟨stored, hstored, rfl⟩
    · exact h.2 row hrow
    · rfl
    · rw [Schema.address_mergeExamples]
      exact h.2 _ hstored

theorem Fresh.filter (h : c.Fresh) (p : String × Schema → Bool) : Fresh (c.filter p) :=
  ⟨h.1.filter p, fun row hrow => h.2 row (List.mem_filter.1 hrow).1⟩

theorem Keyed.insert (h : c.Keyed) (hs : s.Keyed) : (insert c s).Keyed := by
  refine ⟨h.1.insert s, fun t ht => ?_⟩
  rcases of_mem_values_insert ht with ht | rfl | ⟨stored, hstored, rfl⟩
  · exact h.2 t ht
  · exact hs
  · exact (h.2 stored hstored).of_form rfl

theorem Keyed.erase (h : c.Keyed) (k : String) : Keyed (Table.erase c k) :=
  ⟨h.1.filter _, fun t ht => h.2 t (mem_values_erase ht)⟩

theorem Keyed.left (h : c.Keyed) (p : Schema → Bool) : Keyed (take p c).2 :=
  ⟨h.1.filter _, fun t ht => h.2 t (mem_values_left.1 ht).1⟩

theorem Keyed.taken (h : c.Keyed) (p : Schema → Bool) : ∀ t ∈ (take p c).1, t.Keyed :=
  fun t ht => h.2 t (mem_taken.1 ht).1

theorem Keyed.foldl_insert {nodes : List Schema} (h : c.Keyed) (hnodes : ∀ s ∈ nodes, s.Keyed) :
    Keyed (nodes.foldl Catalogue.insert c) := by
  induction nodes generalizing c with
  | nil => exact h
  | cons s rest ih =>
    exact ih (h.insert (hnodes s List.mem_cons_self)) fun s hs => hnodes s (List.mem_cons_of_mem _ hs)

theorem Keyed.nil : Keyed [] := ⟨.nil, nofun⟩

/-- Collecting keyed nodes gives a keyed catalogue, whatever keys they were stored under. -/
theorem keyed_ofList {nodes : List Schema} (h : ∀ s ∈ nodes, s.Keyed) : Keyed (ofList nodes) :=
  Keyed.nil.foldl_insert h

theorem fresh_ofList (nodes : List Schema) : Fresh (ofList nodes) := by
  suffices h : ∀ c : Catalogue, c.Fresh → Fresh (nodes.foldl Catalogue.insert c) from h [] .nil
  induction nodes with
  | nil => exact fun c hc => hc
  | cons node rest ih => exact fun c hc => ih _ (hc.insert node)

/-- Nodes in the order of their addresses go to the end, one after the other. -/
theorem foldl_insert_values {rest : Catalogue} :
    ∀ {c : Catalogue}, Fresh (c ++ rest) → (Table.values rest).foldl Catalogue.insert c = c ++ rest := by
  induction rest with
  | nil => exact fun _ => (List.append_nil _).symm
  | cons row rest ih =>
    intro c h
    have hkey : row.1 = row.2.address := h.2 row (List.mem_append_right _ List.mem_cons_self)
    have hlt : ∀ r ∈ c, r.1 < row.2.address := by
      intro r hr
      rw [← hkey]
      exact (List.pairwise_append.1 h.1).2.2 r hr row List.mem_cons_self
    have hnew : Table.find? c row.2.address = none :=
      Table.find?_eq_none.2 fun a ha => String.lt_irrefl row.2.address (hlt (row.2.address, a) ha)
    have hstep : Catalogue.insert c row.2 = c ++ [row] := by
      rw [insert_of_new hnew, Table.insert_eq_append hlt, ← hkey]
    have h : Fresh ((c ++ [row]) ++ rest) := by rwa [List.append_assoc]
    unfold Table.values at ih ⊢
    rw [List.map_cons, List.foldl_cons, hstep, ih h, List.append_assoc]
    rfl

/-- Collecting the nodes of a catalogue with fresh keys again gives the same catalogue. -/
theorem Fresh.ofList_values (h : c.Fresh) : ofList (Table.values c) = c := by
  have h : Fresh ([] ++ c) := h
  exact foldl_insert_values h

end Catalogue

/-! ## Absorbing -/

/-- Absorbing looks at the keys of alternatives only to insert, take out and fold. -/
theorem stable_fresh (limits : Limits) : Stable limits Form.Fresh where
  text := trivial
  primitive _ _ _ := trivial
  list _ := trivial
  optional _ _ := trivial
  record _ _ _ _ := trivial
  emptyMap _ := trivial
  map _ := trivial
  empty _ := Catalogue.Fresh.nil
  filter p h := Catalogue.Fresh.filter h p
  flag h := h
  wrap _ := trivial
  insert s h := Catalogue.Fresh.insert h s

namespace Schema.Keyed

variable {limits : Limits} {s d r : Schema}

theorem absorb (hd : d.Keyed) (hs : s.Keyed) (h : ApiShape.absorb limits d s = .ok r) : r.Keyed := by
  rw [keyed_iff] at hd hs ⊢
  exact (stable_fresh limits).absorbWithin h hd hs

theorem makeOptional (h : s.Keyed) : s.makeOptional.Keyed := by
  rw [keyed_iff] at h ⊢
  exact (stable_fresh {}).makeOptional h

/-- Also when the fields do not go together, and the record is left without them. -/
theorem convertToMap {σ : Type} (h : s.Keyed) (limits : Limits) (st : σ) :
    (s.convertToMap limits st).value.Keyed := by
  rw [keyed_iff] at h ⊢
  have hQ := stable_fresh limits
  exact hQ.toClosed.convertToMap (fun _ => trivial) (fun _ _ _ _ => hQ.absorbWithin) h st

/-- Also when the conversion fails. -/
theorem inferMap (h : s.Keyed) (limits : Limits) (count : Nat) :
    (ApiShape.inferMap limits count s).value.Keyed := by
  rcases inferMap_value limits count s with heq | heq
  · rwa [heq]
  · rw [heq]
    exact h.convertToMap limits count

end Schema.Keyed

/-! ## Accumulating -/

theorem Catalogue.Keyed.accumulate {limits : Limits} {dst src c : Catalogue} {discarded : Nat}
    (hd : dst.Keyed) (hs : src.Keyed) (h : Catalogue.accumulate limits dst src = .ok (c, discarded)) :
    c.Keyed := by
  have hkeyed : ∀ s ∈ Table.values c, s.Keyed := Catalogue.accumulate_values
    (fun d s r hr hd hs => Schema.Keyed.absorb hd hs hr) (fun s e hs => hs.of_form rfl) h hd.2 hs.2
  obtain ⟨dsts, srcs, acc, -, -, -, rfl, -⟩ := Catalogue.accumulate_eq_ok h
  exact ⟨Catalogue.fresh_ofList _, hkeyed⟩

theorem Endpoint.Keyed.accumulate {limits : Limits} {dst src e : Endpoint} {tally : Tally}
    (hd : dst.Keyed) (hs : src.Keyed) (h : Endpoint.accumulate limits dst src = .ok (e, tally)) :
    e.Keyed := by
  obtain ⟨⟨args, _⟩, hargs, h⟩ := bind_eq_ok.1 h
  obtain ⟨⟨responses, _⟩, hresponses, h⟩ := bind_eq_ok.1 h
  cases h
  exact ⟨hd.1.accumulate hs.1 hargs, hd.2.accumulate hs.2 hresponses⟩

end ApiShape

/-
Entries of catalogues: what inserting, collecting and taking out do to the nodes of a catalogue.
Nothing is lost but examples and duplicates.
-/
import ApiShape.Catalogue
import ApiShape.Proofs.Table

namespace ApiShape

/-! ## Addresses -/

/-- Examples are no part of what the address identifies. -/
theorem Schema.canon_mergeExamples (s : Schema) (e : Examples) : (s.mergeExamples e).canon = s.canon := by
  cases s
  simp [Schema.canon, Schema.mergeExamples]

@[simp] theorem Schema.address_mergeExamples (s : Schema) (e : Examples) :
    (s.mergeExamples e).address = s.address := by
  unfold Schema.address
  rw [Schema.canon_mergeExamples]

namespace Catalogue

variable {c : Catalogue} {s t : Schema}

/-! ## Insertion -/

theorem insert_of_stored {stored : Schema} (h : Table.find? c s.address = some stored) :
    insert c s = Table.insert c s.address (stored.mergeExamples s.examples) := by
  unfold insert
  rw [h]

theorem insert_of_new (h : Table.find? c s.address = none) :
    insert c s = Table.insert c s.address s := by
  unfold insert
  rw [h]

/-- The rows after an insertion: the old ones, and the node itself or the one stored before it. -/
theorem mem_of_mem_insert {row : String × Schema} (h : row ∈ insert c s) :
    row ∈ c ∨ row = (s.address, s) ∨
      ∃ stored, (s.address, stored) ∈ c ∧ row = (s.address, stored.mergeExamples s.examples) := by
  cases hfind : Table.find? c s.address with
  | none =>
    rw [insert_of_new hfind] at h
    rcases Table.mem_of_mem_insert h with h | h
    · exact .inr (.inl h)
    · exact .inl h
  | some stored =>
    rw [insert_of_stored hfind] at h
    rcases Table.mem_of_mem_insert h with h | h
    · exact .inr (.inr ⟨stored, Table.mem_of_find? hfind, h⟩)
    · exact .inl h

/-- Every node after an insertion has the shape of an old one or of the new one. -/
theorem of_mem_values_insert (h : t ∈ Table.values (insert c s)) :
    t ∈ Table.values c ∨ t = s ∨ ∃ stored ∈ Table.values c, t = stored.mergeExamples s.examples := by
  obtain ⟨k, hk⟩ := Table.mem_values.1 h
  rcases mem_of_mem_insert hk with h | h | ⟨stored, hstored, h⟩
  · exact .inl (Table.mem_values_of_mem h)
  · exact .inr (.inl (congrArg Prod.snd h))
  · exact .inr (.inr ⟨stored, Table.mem_values_of_mem hstored, congrArg Prod.snd h⟩)

/-- Every old node is there after an insertion, up to its examples. -/
theorem mem_values_insert_of_mem (h : t ∈ Table.values c) :
    t ∈ Table.values (insert c s) ∨ t.mergeExamples s.examples ∈ Table.values (insert c s) := by
  obtain ⟨k, hk⟩ := Table.mem_values.1 h
  cases hfind : Table.find? c s.address with
  | none =>
    rw [insert_of_new hfind]
    rcases Table.mem_insert_or_find? s.address s hk with h | ⟨-, h⟩
    · exact .inl (Table.mem_values_of_mem h)
    · rw [hfind] at h
      cases h
  | some stored =>
    rw [insert_of_stored hfind]
    rcases Table.mem_insert_or_find? s.address (stored.mergeExamples s.examples) hk with h | ⟨-, h⟩
    · exact .inl (Table.mem_values_of_mem h)
    · rw [hfind] at h
      cases h
      exact .inr (Table.mem_values_of_mem Table.mem_insert_self)

/-- The new node is there after an insertion, or else an old one with its address. -/
theorem mem_values_insert_self :
    s ∈ Table.values (insert c s) ∨
      ∃ stored, Table.find? c s.address = some stored ∧
        stored.mergeExamples s.examples ∈ Table.values (insert c s) := by
  cases hfind : Table.find? c s.address with
  | none =>
    rw [insert_of_new hfind]
    exact .inl (Table.mem_values_of_mem Table.mem_insert_self)
  | some stored =>
    rw [insert_of_stored hfind]
    exact .inr ⟨stored, rfl, Table.mem_values_of_mem Table.mem_insert_self⟩

section

variable {R : Schema → Prop} (hmerge : ∀ s t, R s → R t → R (Schema.mergeExamples s t.examples))

include hmerge

/-- What all nodes have, and the new one, and the merge of two that have it, all nodes have after an insertion. -/
theorem insert_values_of_merge (hc : ∀ t ∈ Table.values c, R t) (hs : R s) : ∀ t ∈ Table.values (insert c s), R t := by
  intro t ht
  rcases of_mem_values_insert ht with ht | rfl | ⟨stored, hstored, rfl⟩
  · exact hc t ht
  · exact hs
  · exact hmerge _ _ (hc stored hstored) hs

/-- Collecting nodes gives nodes of theirs, or merges of them where there were duplicates. -/
theorem ofList_values_of_merge {nodes : List Schema} (hnodes : ∀ s ∈ nodes, R s) :
    ∀ s ∈ Table.values (ofList nodes), R s := by
  suffices h : ∀ c : Catalogue, (∀ s ∈ Table.values c, R s) →
      ∀ s ∈ Table.values (nodes.foldl insert c), R s from h [] nofun
  induction nodes with
  | nil => exact fun c hc => hc
  | cons node rest ih =>
    exact fun c hc => ih (fun s hs => hnodes s (List.mem_cons_of_mem _ hs)) (insert c node)
      (insert_values_of_merge hmerge hc (hnodes node List.mem_cons_self))

end

section

variable {R : Schema → Prop} (hmerge : ∀ s e, R s → R (Schema.mergeExamples s e))

include hmerge

/-- What all nodes have, and the new one, all nodes have after an insertion. -/
theorem insert_values (hc : ∀ t ∈ Table.values c, R t) (hs : R s) : ∀ t ∈ Table.values (insert c s), R t :=
  insert_values_of_merge (fun s t h _ => hmerge s t.examples h) hc hs

/-- Collecting nodes gives nodes of theirs, with more examples where there were duplicates. -/
theorem ofList_values {nodes : List Schema} (hnodes : ∀ s ∈ nodes, R s) :
    ∀ s ∈ Table.values (ofList nodes), R s :=
  ofList_values_of_merge (fun s t h _ => hmerge s t.examples h) hnodes

end

theorem sorted_insert (h : Table.Sorted c) : Table.Sorted (insert c s) := by
  unfold insert
  split
  · exact h.insert
  · exact h.insert

theorem sorted_ofList (nodes : List Schema) : Table.Sorted (ofList nodes) := by
  suffices ∀ c : Catalogue, Table.Sorted c → Table.Sorted (nodes.foldl insert c) from this [] Table.Sorted.nil
  induction nodes with
  | nil => exact fun c h => h
  | cons s rest ih => exact fun c h => ih _ (sorted_insert h)

/-! ## Collections -/

/-- What nodes with one address become: the first of them, with the examples of the others as well. -/
def mergeAll : List Schema → Option Schema
  | [] => none
  | first :: rest => some (rest.foldl (fun s t => s.mergeExamples t.examples) first)

theorem mergeAll_append_singleton (nodes : List Schema) (t : Schema) :
    mergeAll (nodes ++ [t]) = some ((mergeAll nodes).elim t (fun s => s.mergeExamples t.examples)) := by
  cases nodes with
  | nil => rfl
  | cons first rest =>
    show some ((rest ++ [t]).foldl _ first) = _
    rw [List.foldl_append]
    rfl

theorem find?_insert (c : Catalogue) (s : Schema) (k : String) : Table.find? (insert c s) k =
    if s.address = k then some ((Table.find? c k).elim s (fun stored => stored.mergeExamples s.examples))
    else Table.find? c k := by
  by_cases hk : s.address = k
  · rw [if_pos hk]
    subst hk
    cases hfind : Table.find? c s.address with
    | none => rw [insert_of_new hfind, Table.find?_insert, if_pos rfl, Option.elim_none]
    | some stored => rw [insert_of_stored hfind, Table.find?_insert, if_pos rfl, Option.elim_some]
  · rw [if_neg hk]
    unfold insert
    split <;> rw [Table.find?_insert, if_neg hk]

/-- Collecting merges the nodes that have one address, and no others. -/
theorem find?_ofList (nodes : List Schema) (k : String) :
    Table.find? (ofList nodes) k = mergeAll (nodes.filter (fun s => s.address = k)) := by
  -- the catalogue so far holds what the nodes before have become
  suffices h : ∀ (c : Catalogue) (before : List Schema),
      Table.find? c k = mergeAll (before.filter (fun s => s.address = k)) →
        Table.find? (nodes.foldl insert c) k = mergeAll ((before ++ nodes).filter (fun s => s.address = k)) from
    h [] [] rfl
  induction nodes with
  | nil =>
    intro c before hc
    rw [List.append_nil]
    exact hc
  | cons s rest ih =>
    intro c before hc
    have hinsert : Table.find? (insert c s) k = mergeAll ((before ++ [s]).filter (fun s => s.address = k)) := by
      rw [find?_insert, List.filter_append, hc]
      by_cases hk : s.address = k
      · rw [if_pos hk, List.filter_cons_of_pos (by simp [hk]), List.filter_nil, mergeAll_append_singleton]
      · rw [if_neg hk, List.filter_cons_of_neg (by simp [hk]), List.filter_nil, List.append_nil]
    rw [List.append_cons]
    exact ih (insert c s) (before ++ [s]) hinsert

/-! ## Taking out -/

variable {p : Schema → Bool}

theorem mem_taken : t ∈ (take p c).1 ↔ t ∈ Table.values c ∧ p t := by
  simp [take, Table.values]

theorem mem_values_left : t ∈ Table.values (take p c).2 ↔ t ∈ Table.values c ∧ p t = false := by
  simp [take, Table.values]

theorem mem_values_erase {k : String} (h : t ∈ Table.values (Table.erase c k)) : t ∈ Table.values c := by
  obtain ⟨j, hj⟩ := Table.mem_values.1 h
  exact Table.mem_values_of_mem (List.mem_filter.1 hj).1

end Catalogue

end ApiShape

/-
Collections of nodes. What a catalogue holds depends on which nodes were inserted: there is one entry for each of their
addresses, and it is the first node with that address, with the examples that a selection from all of them keeps. The
order of the nodes decides which of them comes first and the values of examples, and in how many batches they come
makes no difference.
-/
import ApiShape.Proofs.Keys.Basic
import ApiShape.Proofs.Retained

namespace ApiShape

namespace Catalogue

variable {nodes nodes' : List Schema} {s s' : Schema} {key : String}

/-- The nodes with one address, in their order. -/
def addressed (nodes : List Schema) (key : String) : List Schema := nodes.filter (fun s => s.address = key)

/-- What nodes with one address become. A single one stays what it is. Of several the first one stays, but for its
examples: they are what is kept of the examples of all. -/
inductive Collapsed : List Schema → Schema → Prop
  | single (s : Schema) : Collapsed [s] s
  | several {first : Schema} {rest : List Schema} {e : Examples} (hrest : rest ≠ [])
      (hkept : Examples.Retained ((first :: rest).map (·.examples)) e) :
      Collapsed (first :: rest) { first with examples := e }

/-! ## Nodes with one address -/

theorem foldl_mergeExamples (first : Schema) (rest : List Schema) :
    rest.foldl (fun s t => s.mergeExamples t.examples) first =
      { first with examples := (rest.map (·.examples)).foldl Examples.merge first.examples } := by
  induction rest generalizing first with
  | nil =>
    cases first
    rfl
  | cons s rest ih => exact ih (first.mergeExamples s.examples)

theorem mergeAll_eq_none : mergeAll nodes = none ↔ nodes = [] := by
  cases nodes <;> simp [mergeAll]

/-- Merging nodes one after the other collapses them. -/
theorem collapsed_of_mergeAll (hsorted : ∀ t ∈ nodes, Table.Sorted t.examples) (h : mergeAll nodes = some s) :
    Collapsed nodes s := by
  cases nodes with
  | nil => cases h
  | cons first rest =>
    obtain rfl := Option.some.inj h
    -- a node on its own is stored as it is, with more examples than a merge would keep
    by_cases hrest : rest = []
    · subst hrest
      exact .single first
    · rw [foldl_mergeExamples]
      exact .several hrest (Examples.retained_foldl_merge (hsorted first List.mem_cons_self)
        (mt List.map_eq_nil_iff.1 hrest))

theorem Collapsed.unique (h : Collapsed nodes s) (h' : Collapsed nodes s') : s = s' := by
  cases h with
  | single =>
    cases h' with
    | single => rfl
    | several hrest _ => exact absurd rfl hrest
  | several hrest hkept =>
    cases h' with
    | single => exact absurd rfl hrest
    | several _ hkept' => rw [hkept.unique hkept']

theorem Collapsed.ne_nil (h : Collapsed nodes s) : nodes ≠ [] := by
  cases h <;> exact List.cons_ne_nil _ _

theorem collapsed_iff (hsorted : ∀ t ∈ nodes, Table.Sorted t.examples) :
    Collapsed nodes s ↔ mergeAll nodes = some s := by
  refine ⟨fun h => ?_, collapsed_of_mergeAll hsorted⟩
  cases hall : mergeAll nodes with
  | none => exact absurd (mergeAll_eq_none.1 hall) h.ne_nil
  | some t => rw [(collapsed_of_mergeAll hsorted hall).unique h]

/-- In another order the nodes become one with examples under the same keys. -/
theorem Collapsed.keys_eq (h : Collapsed nodes s) (h' : Collapsed nodes' s') (hperm : nodes'.Perm nodes) :
    Table.keys s'.examples = Table.keys s.examples := by
  -- both orders have as many nodes, so that one node on its own never stands against several
  have hlength := hperm.length_eq
  cases h with
  | single =>
    cases h' with
    | single => rw [List.singleton_perm_singleton.1 hperm]
    | several hrest _ => exact absurd (List.length_eq_zero_iff.1 (by simpa using hlength)) hrest
  | several hrest hkept =>
    cases h' with
    | single => exact absurd (List.length_eq_zero_iff.1 (by simpa using hlength.symm)) hrest
    | several _ hkept' => exact hkept'.keys_eq hkept (Examples.seen_perm (hperm.map _))

/-! ## Collections -/

theorem mem_ofList_iff (hsorted : ∀ t ∈ nodes, Table.Sorted t.examples) :
    (key, s) ∈ ofList nodes ↔ Collapsed (addressed nodes key) s := by
  rw [(sorted_ofList nodes).mem_iff, find?_ofList]
  exact (collapsed_iff fun t ht => hsorted t (List.mem_filter.1 ht).1).symm

theorem mem_keys_ofList : key ∈ Table.keys (ofList nodes) ↔ ∃ t ∈ nodes, t.address = key := by
  rw [Table.mem_keys]
  simp only [(sorted_ofList nodes).mem_iff, find?_ofList]
  rw [← Option.ne_none_iff_exists', ne_eq, mergeAll_eq_none, List.filter_eq_nil_iff]
  simp

theorem keys_ofList_perm (hperm : nodes'.Perm nodes) : Table.keys (ofList nodes') = Table.keys (ofList nodes) :=
  Table.Sorted.keys_eq (sorted_ofList nodes') (sorted_ofList nodes) fun key => by
    simp only [mem_keys_ofList, hperm.mem_iff]

/--
Collecting nodes gives one entry for each address that one of them has, in the order of addresses. It holds what the
nodes with that address collapse to: a single one as it is, and otherwise the first one, with the examples kept of
all. So the order of the nodes decides neither the keys of the catalogue nor the keys of the examples in it, nodes
inserted later might as well have been collected with the others, and storing the nodes again changes nothing.
-/
theorem collect_by_address (nodes : List Schema) (hsorted : ∀ s ∈ nodes, Table.Sorted s.examples) :
    Table.Sorted (ofList nodes) ∧
    (∀ key, key ∈ Table.keys (ofList nodes) ↔ ∃ s ∈ nodes, s.address = key) ∧
    (∀ key s, (key, s) ∈ ofList nodes ↔ Collapsed (addressed nodes key) s) ∧
    (∀ nodes', nodes'.Perm nodes → Table.keys (ofList nodes') = Table.keys (ofList nodes) ∧
      ∀ key s s', (key, s) ∈ ofList nodes → (key, s') ∈ ofList nodes' →
        Table.keys s'.examples = Table.keys s.examples) ∧
    (∀ more, more.foldl insert (ofList nodes) = ofList (nodes ++ more)) ∧
    rehash (ofList nodes) = ofList nodes := by
  refine ⟨sorted_ofList nodes, fun _ => mem_keys_ofList, fun _ _ => mem_ofList_iff hsorted, fun nodes' hperm => ?_,
    fun more => List.foldl_append.symm, (fresh_ofList nodes).ofList_values⟩
  refine ⟨keys_ofList_perm hperm, fun key s s' hs hs' => ?_⟩
  have hsorted' : ∀ s ∈ nodes', Table.Sorted s.examples := fun s hs => hsorted s (hperm.mem_iff.1 hs)
  exact ((mem_ofList_iff hsorted).1 hs).keys_eq ((mem_ofList_iff hsorted').1 hs') (hperm.filter _)

/-- Two nodes with one address are one entry. -/
theorem ofList_pair (h : s'.address = s.address) : ofList [s, s'] = [(s.address, s.mergeExamples s'.examples)] := by
  have hfind : Table.find? [(s.address, s)] s'.address = some s := by
    rw [Table.find?, if_pos h.symm]
  show insert [(s.address, s)] s' = _
  rw [insert_of_stored hfind, h, Table.insert, if_neg (String.lt_irrefl _), if_pos rfl]

/-- Two integers with the keys `b`, `c` and `d`, and `a` and `b`, are one entry. Either order keeps `a` and `b`, with the
value that the first of the two has for `b`. -/
theorem collect_by_address_integers : ∃ n₁ n₂ s s',
    n₁ = (((Schema.ofType .int32).withExample "b" "1").withExample "c" "2").withExample "d" "3" ∧
    n₂ = ((Schema.ofType .int32).withExample "a" "4").withExample "b" "5" ∧
    ofList [n₁, n₂] = [(n₁.address, s)] ∧ s.examples = [("a", "4"), ("b", "1")] ∧
    ofList [n₂, n₁] = [(n₁.address, s')] ∧ s'.examples = [("a", "4"), ("b", "5")] ∧
    Collapsed (addressed [n₁, n₂] n₁.address) s ∧ Table.keys s'.examples = Table.keys s.examples := by
  obtain ⟨n₁, hn₁⟩ :
      ∃ n, n = (((Schema.ofType .int32).withExample "b" "1").withExample "c" "2").withExample "d" "3" := ⟨_, rfl⟩
  obtain ⟨n₂, hn₂⟩ : ∃ n, n = ((Schema.ofType .int32).withExample "a" "4").withExample "b" "5" := ⟨_, rfl⟩
  have hsorted : ∀ s ∈ [n₁, n₂], Table.Sorted s.examples := by
    subst hn₁ hn₂
    refine List.forall_mem_cons.2 ⟨?_, List.forall_mem_singleton.2 ?_⟩
    all_goals unfold Table.Sorted; decide
  have haddress : n₂.address = n₁.address := by
    subst hn₁ hn₂
    unfold Schema.address
    rfl
  have hfirst := ofList_pair haddress
  have hsecond := ofList_pair haddress.symm
  rw [haddress] at hsecond
  obtain ⟨-, -, hmem, hperm, -⟩ := collect_by_address [n₁, n₂] hsorted
  refine ⟨n₁, n₂, _, _, hn₁, hn₂, hfirst, ?_, hsecond, ?_, ?_, ?_⟩
  · subst hn₁ hn₂
    rfl
  · subst hn₁ hn₂
    rfl
  · exact (hmem _ _).1 (hfirst ▸ List.mem_cons_self)
  · exact (hperm _ (List.Perm.swap _ _ _)).2 _ _ _ (hfirst ▸ List.mem_cons_self) (hsecond ▸ List.mem_cons_self)

end Catalogue

end ApiShape

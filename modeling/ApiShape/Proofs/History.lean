/-
Examples over a history of primitives. While primitives that are observed one after the other never conflict, the
examples of the accumulated node are those that a selection from the examples of all observations keeps: the examples
dropped on the way make no difference, and the order of the observations decides values at most.
-/
import ApiShape.Proofs.Retained
import ApiShape.Proofs.WellFormed.Absorb

namespace ApiShape

/-- None of the trees that come about while `rest` is absorbed into `first`, one node after the other, is
alternatives: no call records a conflict. -/
def Agreeing (limits : Limits) (first : Schema) (rest : List Schema) : Prop :=
  ∀ done, done <+: rest → ∀ acc, done.foldlM (absorb limits) first = .ok acc → acc.isOneOf = false

section

variable {limits : Limits} {first d s r : Schema} {rest : List Schema}

theorem agreeing_nil (h : first.isOneOf = false) : Agreeing limits first [] := by
  intro done hdone acc hacc
  rw [List.prefix_nil.1 hdone] at hacc
  cases hacc
  exact h

/-- A history agrees when its first two observations do, and what they become agrees with the others. -/
theorem agreeing_cons (h : absorb limits first s = .ok r) :
    Agreeing limits first (s :: rest) ↔ first.isOneOf = false ∧ Agreeing limits r rest := by
  constructor
  · refine fun hrun => ⟨hrun [] List.nil_prefix first rfl, fun done hdone acc hacc => ?_⟩
    refine hrun (s :: done) (List.cons_prefix_cons.2 ⟨rfl, hdone⟩) acc ?_
    rw [List.foldlM_cons]
    exact bind_eq_ok.2 ⟨r, h, hacc⟩
  · rintro ⟨hfirst, hrun⟩ done hdone acc hacc
    cases done with
    | nil =>
      cases hacc
      exact hfirst
    | cons t done =>
      obtain ⟨rfl, hprefix⟩ := List.cons_prefix_cons.1 hdone
      rw [List.foldlM_cons] at hacc
      obtain ⟨mid, hmid, hacc⟩ := bind_eq_ok.1 hacc
      cases h.symm.trans hmid
      exact hrun done hprefix acc hacc

theorem Schema.form_of_isPrimitive (h : s.isPrimitive) : ∃ p, s.form = .primitive p := by
  unfold isPrimitive at h
  split at h
  case h_1 p hform => exact ⟨p, hform⟩
  case h_2 => cases h

/-- One primitive absorbed into another: unless the two conflict, the node stays a primitive and takes over the
examples. -/
theorem absorb_of_isPrimitive (limits : Limits) (hd : d.isPrimitive) (hs : s.isPrimitive) :
    ∃ r, absorb limits d s = .ok r ∧
      (r.isOneOf = false → r.isPrimitive ∧ r.examples = Examples.merge d.examples s.examples) := by
  obtain ⟨p, hp⟩ := Schema.form_of_isPrimitive hd
  obtain ⟨q, hq⟩ := Schema.form_of_isPrimitive hs
  rw [absorb_primitive hp hq]
  cases p.join q with
  | some j => exact ⟨_, rfl, fun _ => ⟨rfl, rfl⟩⟩
  | none => exact ⟨_, rfl, nofun⟩

/-- A run that never conflicts merges the examples of all nodes, one after the other. -/
theorem Agreeing.examples (h : Agreeing limits first rest) (hfirst : first.isPrimitive)
    (hrest : ∀ s ∈ rest, s.isPrimitive) : ∃ r, rest.foldlM (absorb limits) first = .ok r ∧ r.isPrimitive ∧
      r.examples = (rest.map (·.examples)).foldl Examples.merge first.examples := by
  induction rest generalizing first with
  | nil => exact ⟨first, rfl, hfirst, rfl⟩
  | cons s rest ih =>
    obtain ⟨hs, hrest⟩ := List.forall_mem_cons.1 hrest
    -- without a conflict after the first step the node is a primitive again, as the rest of the run needs it to be
    obtain ⟨mid, hmid, hkeeps⟩ := absorb_of_isPrimitive limits hfirst hs
    obtain ⟨-, hmids⟩ := (agreeing_cons hmid).1 h
    obtain ⟨hprimitive, hexamples⟩ := hkeeps (hmids [] List.nil_prefix mid rfl)
    obtain ⟨r, hr, hrprimitive, hrexamples⟩ := ih hmids hprimitive hrest
    refine ⟨r, ?_, hrprimitive, ?_⟩
    · rw [List.foldlM_cons]
      exact bind_eq_ok.2 ⟨mid, hmid, hr⟩
    · rw [hrexamples, hexamples]
      rfl

end

/--
Two or more primitives that are absorbed one after the other without a conflict leave a primitive with the examples
that a selection from all of theirs keeps: those with the smallest keys that any of the primitives has, each with the
value of the first primitive that has the key. Any other order of the primitives that does not conflict either leaves
the same keys.
-/
theorem examples_of_history (limits : Limits) {first : Schema} {rest : List Schema} (hrest : rest ≠ [])
    (hprimitive : ∀ s ∈ first :: rest, s.isPrimitive) (hsorted : ∀ s ∈ first :: rest, Table.Sorted s.examples)
    (hrun : Agreeing limits first rest) :
    ∃ r, rest.foldlM (absorb limits) first = .ok r ∧ r.isPrimitive ∧
      Examples.Retained ((first :: rest).map (·.examples)) r.examples ∧
      ∀ first' rest', (first' :: rest').Perm (first :: rest) → Agreeing limits first' rest' →
        ∃ r', rest'.foldlM (absorb limits) first' = .ok r' ∧ Table.keys r'.examples = Table.keys r.examples := by
  -- shown for all orders at once, of which the given one is the first
  have hretained : ∀ first' rest', (first' :: rest').Perm (first :: rest) → Agreeing limits first' rest' →
      ∃ r, rest'.foldlM (absorb limits) first' = .ok r ∧ r.isPrimitive ∧
        Examples.Retained ((first' :: rest').map (·.examples)) r.examples := by
    intro first' rest' hperm hrun'
    have hprimitive' : ∀ s ∈ first' :: rest', s.isPrimitive := fun s hs => hprimitive s (hperm.mem_iff.1 hs)
    obtain ⟨hfirst, hothers⟩ := List.forall_mem_cons.1 hprimitive'
    obtain ⟨r, hr, hrprimitive, hexamples⟩ := hrun'.examples hfirst hothers
    have hlong : rest'.map (·.examples) ≠ [] := by
      intro hnil
      have hlength := hperm.length_eq
      rw [List.map_eq_nil_iff.1 hnil] at hlength
      exact hrest (List.length_eq_zero_iff.1 (by simpa using hlength.symm))
    refine ⟨r, hr, hrprimitive, ?_⟩
    rw [hexamples]
    exact Examples.retained_foldl_merge (hsorted first' (hperm.mem_iff.1 List.mem_cons_self)) hlong
  obtain ⟨r, hr, hrprimitive, hkept⟩ := hretained first rest (.refl _) hrun
  refine ⟨r, hr, hrprimitive, hkept, fun first' rest' hperm hrun' => ?_⟩
  obtain ⟨r', hr', -, hkept'⟩ := hretained first' rest' hperm hrun'
  exact ⟨r', hr', hkept'.keys_eq hkept (Examples.seen_perm (hperm.map _))⟩

/-- A number of the type with the examples. -/
def Schema.numbered (t : BaseType) (examples : Examples) : Schema := { Schema.ofType t with examples := examples }

/-- Three numbers with the keys `b` to `d`, `a` and `b`, and `c`: the first two keep the keys `a` and `b`, with the
first value for `b`, and the third cannot bring `c` back. The other way round the values differ, but not the keys. -/
theorem examples_of_history_numbers : ∃ r r',
    [Schema.numbered .int64 [("a", "4"), ("b", "5")], Schema.numbered .double [("c", "6")]].foldlM (absorb {})
      (Schema.numbered .int32 [("b", "1"), ("c", "2"), ("d", "3")]) = .ok r ∧
    r.examples = [("a", "4"), ("b", "1")] ∧
    [Schema.numbered .int64 [("a", "4"), ("b", "5")],
      Schema.numbered .int32 [("b", "1"), ("c", "2"), ("d", "3")]].foldlM (absorb {})
      (Schema.numbered .double [("c", "6")]) = .ok r' ∧
    r'.examples = [("a", "4"), ("b", "5")] ∧
    Examples.Retained [[("b", "1"), ("c", "2"), ("d", "3")], [("a", "4"), ("b", "5")], [("c", "6")]] r.examples ∧
    Table.keys r'.examples = Table.keys r.examples := by
  have hrun : Agreeing {} (Schema.numbered .int32 [("b", "1"), ("c", "2"), ("d", "3")])
      [Schema.numbered .int64 [("a", "4"), ("b", "5")], Schema.numbered .double [("c", "6")]] :=
    (agreeing_cons rfl).2 ⟨rfl, (agreeing_cons rfl).2 ⟨rfl, agreeing_nil rfl⟩⟩
  have hrun' : Agreeing {} (Schema.numbered .double [("c", "6")])
      [Schema.numbered .int64 [("a", "4"), ("b", "5")], Schema.numbered .int32 [("b", "1"), ("c", "2"), ("d", "3")]] :=
    (agreeing_cons rfl).2 ⟨rfl, (agreeing_cons rfl).2 ⟨rfl, agreeing_nil rfl⟩⟩
  have hsorted : ∀ s ∈ [Schema.numbered .int32 [("b", "1"), ("c", "2"), ("d", "3")],
      Schema.numbered .int64 [("a", "4"), ("b", "5")], Schema.numbered .double [("c", "6")]],
      Table.Sorted s.examples := by
    refine List.forall_mem_cons.2 ⟨?_, List.forall_mem_cons.2 ⟨?_, List.forall_mem_singleton.2 ?_⟩⟩
    all_goals unfold Table.Sorted; decide
  obtain ⟨r, hr, -, hkept, hperm⟩ := examples_of_history {} (List.cons_ne_nil _ _) (by decide) hsorted hrun
  obtain ⟨r', hr', hkeys⟩ := hperm _ _ (List.reverse_perm [_, _, _]) hrun'
  refine ⟨r, r', hr, ?_, hr', ?_, hkept, hkeys⟩
  · cases hr
    rfl
  · cases hr'
    rfl

end ApiShape

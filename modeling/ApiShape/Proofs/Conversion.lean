/-
What is left of a record whose conversion to a map fails. The fields are given up before they are absorbed into one
another, so that a conversion which stops at one of them leaves a record without any. A search for maps stops there,
and the empty record stands in the tree, or in the endpoint, that it leaves behind.
-/
import ApiShape.Endpoint
import ApiShape.Proofs.Inference
import ApiShape.Proofs.Postorder

namespace ApiShape

/-! ## Conversions -/

section

variable {absorb : Absorber} {fields : Table Schema} {f : Fault}

/-- Values are missing only when one of two or more does not go together with those before, and the fault names it. -/
theorem mapValueOf_fault (h : mapValueOf absorb fields = .error f) :
    2 ≤ fields.length ∧ ∃ name ∈ Table.keys fields, ∃ g, f = .inField name g := by
  -- fields that are absent have no value, so that only some of the fields are absorbed into one another
  have hlength := List.length_filterMap_le (fun row : String × Schema => row.2.asMapValue.map (row.1, ·)) fields
  have hmem : ∀ row ∈ fields.filterMap (fun row => row.2.asMapValue.map (row.1, ·)), row.1 ∈ Table.keys fields := by
    intro row hrow
    obtain ⟨field, hfield, hvalue⟩ := List.mem_filterMap.1 hrow
    obtain ⟨value, -, rfl⟩ := Option.map_eq_some_iff.1 hvalue
    exact List.mem_map.2 ⟨field, hfield, rfl⟩
  unfold mapValueOf at h
  split at h
  · cases h
  · rename_i name first rest heq
    rw [heq] at hlength hmem
    rcases bind_eq_error.1 h with h | ⟨value, -, h⟩
    · obtain ⟨before, row, after, acc, rfl, -, hrow⟩ := foldlM_eq_error h
      obtain ⟨g, -, rfl⟩ := mapError_eq_error.1 hrow
      refine ⟨?_, row.1, hmem row (by simp), g, rfl⟩
      simp only [List.length_cons, List.length_append] at hlength
      omega
    · cases h

theorem mappingOf_fault (h : mappingOf absorb fields = .error f) :
    2 ≤ fields.length ∧ ∃ name ∈ Table.keys fields, ∃ g, f = .inField name g := by
  unfold mappingOf at h
  rcases bind_eq_error.1 h with h | ⟨value, -, h⟩
  · exact mapValueOf_fault h
  · cases h

end

/-- A failed conversion of a record that is not a map: the fields are gone, and the record is not a map still. -/
structure Emptied (s : Schema) (f : Fault) (left : Schema) : Prop where
  /-- There were two fields or more, and one of them is to blame. -/
  fields : ∃ fields, s.form = .record fields none ∧ 2 ≤ fields.length ∧
    ∃ name ∈ Table.keys fields, ∃ g, f = .inField name g
  left : left = { s with form := .record [] none }

section

variable {limits : Limits} {s : Schema} {fields : Table Schema} {count : Nat} {f : Fault}

theorem emptied_of_convertToMap (hform : s.form = .record fields none)
    (h : (s.convertToMap limits count).fault = some f) : Emptied s f (s.convertToMap limits count).value := by
  unfold Schema.convertToMap at h ⊢
  rw [hform] at h ⊢
  dsimp only at h ⊢
  cases hmapping : mappingOf (absorb limits) fields with
  | ok m =>
    rw [hmapping] at h
    cases h
  | error g =>
    rw [hmapping] at h
    obtain rfl : g = f := Option.some.inj h
    exact ⟨⟨fields, hform, mappingOf_fault hmapping⟩, rfl⟩

/-- The search converts records above the thresholds only, none of which is a map. -/
theorem emptied_of_inferMap (h : (inferMap limits count s).fault = some f) :
    s.shouldBeMap limits = true ∧ Emptied s f (inferMap limits count s).value := by
  unfold inferMap at h ⊢
  by_cases hmap : s.shouldBeMap limits = true
  · rw [if_pos hmap] at h ⊢
    dsimp only at h ⊢
    cases hfault : (s.convertToMap limits count).fault with
    | none =>
      rw [hfault] at h
      cases h
    | some g =>
      rw [hfault] at h
      dsimp only at h ⊢
      refine ⟨hmap, ?_⟩
      -- what is no record, or is a map already, is above no threshold
      unfold Schema.shouldBeMap at hmap
      split at hmap
      · rename_i fields mapping hform
        cases mapping with
        | some m => cases hmap
        | none => exact emptied_of_convertToMap hform h
      · cases hmap
  · rw [if_neg hmap] at h
    cases h

end

/-! ## Trees -/

/-- A search for maps in a tree that a failed conversion stopped: the call that failed left its record, in its place,
without fields. -/
structure StoppedAt (limits : Limits) (count : Nat) (s : Schema) (stop : Stop Nat) : Prop where
  explains : stop.Explains (inferMap limits) count s (s.walk (inferMap limits) count)
  above : stop.node.shouldBeMap limits = true
  emptied : ∃ own left, (stop.call (inferMap limits)).fault = some own ∧ Emptied stop.node own left ∧
    (stop.left (inferMap limits)).at? stop.route = some left

theorem exists_stoppedAt {limits : Limits} {s : Schema} {count : Nat} {f : Fault}
    (h : (s.walk (inferMap limits) count).fault = some f) : ∃ stop, StoppedAt limits count s stop := by
  rcases s.walk_cases (inferMap limits) count with ⟨hnone, -⟩ | ⟨stop, hstop⟩
  · rw [h] at hnone
    cases hnone
  · obtain ⟨own, -, hown, -, -, -⟩ := hstop.fault
    obtain ⟨habove, hemptied⟩ := emptied_of_inferMap hown
    refine ⟨stop, hstop, habove, own, _, hown, hemptied, Schema.at?_put ?_ _⟩
    obtain ⟨node, hnode, -⟩ := Option.map_eq_some_iff.1 hstop.node
    rw [hnode]
    rfl

/-! ## Endpoints -/

section

variable {σ : Type} {visitor : Visitor σ} {f : Fault}

/-- A traversal of a catalogue that stops: the nodes before one of them are visited, the visit of that one failed, those
after it are as they were, and all of them are stored again. -/
theorem Catalogue.walk_of_fault {st : σ} {c : Catalogue} (h : (Catalogue.walk visitor st c).fault = some f) :
    ∃ before s after mid values, Table.values c = before ++ s :: after ∧
      Passes (Schema.walk visitor) st before mid values false ∧ (s.walk visitor mid).fault = some f ∧
      (Catalogue.walk visitor st c).value = ofList (values ++ (s.walk visitor mid).value :: after) := by
  unfold Catalogue.walk Catalogue.update at h ⊢
  replace h : (visitAll (Schema.walk visitor) st (Table.values c)).fault = some f := h
  show ∃ before s after mid values, _ ∧ _ ∧ _ ∧ ofList (visitAll (Schema.walk visitor) st (Table.values c)).value = _
  -- the nodes are visited in the order of their addresses, but what follows holds of any list of them
  generalize Table.values c = l at h ⊢
  suffices hsplit : ∃ before s after mid values, l = before ++ s :: after ∧
      Passes (Schema.walk visitor) st before mid values false ∧ (s.walk visitor mid).fault = some f ∧
      (visitAll (Schema.walk visitor) st l).value = values ++ (s.walk visitor mid).value :: after by
    obtain ⟨before, s, after, mid, values, hl, hpasses, hf, hvalue⟩ := hsplit
    exact ⟨before, s, after, mid, values, hl, hpasses, hf, congrArg ofList hvalue⟩
  induction l generalizing st with
  | nil => cases h
  | cons s rest ih =>
    unfold visitAll at h ⊢
    dsimp only at h ⊢
    cases hs : (s.walk visitor st).fault with
    | some g =>
      rw [hs] at h
      exact ⟨[], s, rest, st, [], rfl, .done st, hs.trans h, rfl⟩
    | none =>
      rw [hs] at h
      obtain ⟨before, t, after, mid, values, rfl, hpasses, hf, hvalue⟩ := ih h
      refine ⟨s :: before, t, after, mid, _, rfl, .next hs hpasses, hf, ?_⟩
      exact congrArg ((s.walk visitor st).value :: ·) hvalue

end

/-- A search for maps in a catalogue that a failed conversion stopped at one of the nodes: those before it were
searched, those after it were not, and it is stored again with the record that lost its fields. -/
def Catalogue.StoppedIn (limits : Limits) (count : Nat) (c : Catalogue) (f : Fault) (left : Catalogue) : Prop :=
  ∃ before s after mid values, Table.values c = before ++ s :: after ∧
    Passes (Schema.walk (inferMap limits)) count before mid values false ∧
    (s.walk (inferMap limits) mid).fault = some f ∧ (∃ stop, StoppedAt limits mid s stop) ∧
    left = ofList (values ++ (s.walk (inferMap limits) mid).value :: after)

section

variable {limits : Limits} {f : Fault}

theorem Catalogue.stoppedIn_of_fault {count : Nat} {c : Catalogue}
    (h : (Catalogue.walk (inferMap limits) count c).fault = some f) :
    c.StoppedIn limits count f (Catalogue.walk (inferMap limits) count c).value := by
  obtain ⟨before, s, after, mid, values, hvalues, hpasses, hf, hleft⟩ := Catalogue.walk_of_fault h
  exact ⟨before, s, after, mid, values, hvalues, hpasses, hf, exists_stoppedAt hf, hleft⟩

/-- The arguments are searched before the responses. -/
theorem Endpoint.stoppedIn_of_fault {e : Endpoint} (h : (e.inferMaps limits).fault = some f) :
    e.args.StoppedIn limits 0 f (e.inferMaps limits).value.args ∧ (e.inferMaps limits).value.responses = e.responses ∨
    ∃ count, (e.inferMaps limits).value.args = (Catalogue.walk (inferMap limits) 0 e.args).value ∧
      e.responses.StoppedIn limits count f (e.inferMaps limits).value.responses := by
  unfold Endpoint.inferMaps Endpoint.walk at h ⊢
  dsimp only at h ⊢
  cases hargs : (Catalogue.walk (inferMap limits) 0 e.args).fault with
  | some g =>
    rw [hargs] at h
    exact .inl ⟨Catalogue.stoppedIn_of_fault (hargs.trans h), rfl⟩
  | none =>
    rw [hargs] at h
    exact .inr ⟨_, rfl, Catalogue.stoppedIn_of_fault h⟩

end

/--
A conversion of a record that fails leaves it without its fields: there were two or more, the fault names one of them,
and what is left is neither the old record nor a map. A search for maps in a tree that fails did so in such a
conversion, which leaves the record empty in its place, and one in an endpoint in a tree of the arguments or of the
responses, which is stored again with what the search left of it.
-/
theorem failed_conversions_lose_fields (limits : Limits) :
    (∀ (s : Schema) (fields : Table Schema) (count : Nat) (f : Fault), s.form = .record fields none →
      (s.convertToMap limits count).fault = some f → Emptied s f (s.convertToMap limits count).value) ∧
    (∀ (s : Schema) (count : Nat) (f : Fault), (s.walk (inferMap limits) count).fault = some f →
      ∃ stop, StoppedAt limits count s stop) ∧
    ∀ (e : Endpoint) (f : Fault), (e.inferMaps limits).fault = some f →
      e.args.StoppedIn limits 0 f (e.inferMaps limits).value.args ∧ (e.inferMaps limits).value.responses = e.responses ∨
      ∃ count, (e.inferMaps limits).value.args = (Catalogue.walk (inferMap limits) 0 e.args).value ∧
        e.responses.StoppedIn limits count f (e.inferMaps limits).value.responses :=
  ⟨fun _ _ _ _ => emptied_of_convertToMap, fun _ _ _ => exists_stoppedAt, fun _ _ => Endpoint.stoppedIn_of_fault⟩

/-- An integer below two optional layers, as a field that may be missing. -/
def Schema.layeredInteger : Schema :=
  { form := .optional { form := .optional { form := .optional (Schema.ofType .int32) } } }

/-- A record of an integer below three optional layers and of an integer as it is. -/
def Schema.mixedIntegers : Schema :=
  { form := .record [("a", Schema.layeredInteger), ("b", Schema.ofType .int32)] none }

/-- The first field makes the values optional twice, so that the second one does not go together with it. Conversion and
search fail, and both fields are gone. -/
theorem failed_conversion_forgets_fields :
    Schema.mixedIntegers.form = .record [("a", Schema.layeredInteger), ("b", Schema.ofType .int32)] none ∧
    (Schema.mixedIntegers.convertToMap {} 0).fault = some (.inField "b" (.invalidVariant "optional" "optional")) ∧
    (Schema.mixedIntegers.convertToMap {} 0).value.form = .record [] none ∧
    (Schema.mixedIntegers.inferMaps { mapInference := { maxFields := 1 } }).fault =
      some (.inField "b" (.invalidVariant "optional" "optional")) ∧
    (Schema.mixedIntegers.inferMaps { mapInference := { maxFields := 1 } }).value.form = .record [] none :=
  ⟨rfl, rfl, rfl, rfl, rfl⟩

/-- The same record loses its fields wherever it is converted: by itself, in a search of the tree, and in a search of an
endpoint with it as the argument. -/
theorem failed_conversions_lose_fields_integers : ∃ (limits : Limits) (e : Endpoint),
    Emptied Schema.mixedIntegers (.inField "b" (.invalidVariant "optional" "optional"))
      (Schema.mixedIntegers.convertToMap limits 0).value ∧
    (∃ stop, StoppedAt limits 0 Schema.mixedIntegers stop) ∧ Table.values e.args = [Schema.mixedIntegers] ∧
    (e.args.StoppedIn limits 0 (.inField "b" (.invalidVariant "optional" "optional")) (e.inferMaps limits).value.args ∧
        (e.inferMaps limits).value.responses = e.responses ∨
      ∃ count, (e.inferMaps limits).value.args = (Catalogue.walk (inferMap limits) 0 e.args).value ∧
        e.responses.StoppedIn limits count (.inField "b" (.invalidVariant "optional" "optional"))
          (e.inferMaps limits).value.responses) := by
  obtain ⟨hconvert, htree, hendpoint⟩ := failed_conversions_lose_fields { mapInference := { maxFields := 1 } }
  exact ⟨_, { id := ⟨"api", "GET", "/"⟩, args := [("key", Schema.mixedIntegers)] }, hconvert _ _ 0 _ rfl rfl,
    htree _ 0 _ rfl, rfl, hendpoint _ _ rfl⟩

end ApiShape

/-
Records that stay below the thresholds of maps. Absorbing converts a record as soon as it grows past them, so
that trees below the thresholds give a tree below them. One search for maps brings a whole tree below the
thresholds, since the trees that a conversion absorbs into one another were searched before it; a second
search finds nothing.
-/
import ApiShape.Proofs.Keys.Walk

namespace ApiShape

/-! ## Below the thresholds -/

/-- No record in the tree, at any depth, is one that should be a map. -/
def Schema.WithinThresholds (limits : Limits) (s : Schema) : Prop :=
  s.Throughout (fun t => t.shouldBeMap limits = false)

/-- No record above the thresholds in any entry. -/
def Catalogue.WithinThresholds (limits : Limits) (c : Catalogue) : Prop :=
  ∀ s ∈ Table.values c, s.WithinThresholds limits

/-- No record above the thresholds in arguments and responses. -/
def Endpoint.WithinThresholds (limits : Limits) (e : Endpoint) : Prop :=
  e.args.WithinThresholds limits ∧ e.responses.WithinThresholds limits

/-- A shape that is no record above the thresholds. -/
def Form.WithinThresholds (limits : Limits) : Form → Prop
  | .record fields mapping => limits.mapInference.exceeded fields mapping = false
  | _ => True

theorem Form.withinThresholds_iff {limits : Limits} {s : Schema} :
    s.form.WithinThresholds limits ↔ s.shouldBeMap limits = false := by
  unfold Schema.shouldBeMap
  cases s.form <;> simp [Form.WithinThresholds]

theorem Schema.withinThresholds_iff {limits : Limits} {s : Schema} :
    s.WithinThresholds limits ↔ s.form.Everywhere (Form.WithinThresholds limits) := by
  rw [← Schema.throughout_iff_everywhere]
  exact ⟨fun h => h.mono fun _ => Form.withinThresholds_iff.2, fun h => h.mono fun _ => Form.withinThresholds_iff.1⟩

/-- A map is below the thresholds, whatever fields it has kept. -/
theorem exceeded_some (t : MapThresholds) (fields : Table Schema) (m : Mapping) : t.exceeded fields (some m) = false :=
  rfl

/-- Absorbing checks the thresholds after every change of the fields of a record, and looks at no other shape. -/
theorem stable_withinThresholds (limits : Limits) : Stable limits (Form.WithinThresholds limits) where
  text := trivial
  primitive _ _ _ := trivial
  list _ := trivial
  optional _ _ := trivial
  record _ _ _ hexceeded := hexceeded
  emptyMap m := exceeded_some _ _ m
  map _ := exceeded_some _ _ _
  empty _ := trivial
  filter _ _ := trivial
  flag _ := trivial
  wrap _ := trivial
  insert _ _ := trivial

/--
Absorbing leaves no record that should be a map, at any depth, when neither of the two trees has one.
-/
theorem withinThresholds_absorb {limits : Limits} {d s r : Schema} (hd : d.WithinThresholds limits)
    (hs : s.WithinThresholds limits) (h : absorb limits d s = .ok r) : r.WithinThresholds limits := by
  rw [Schema.withinThresholds_iff] at hd hs ⊢
  exact (stable_withinThresholds limits).absorbWithin h hd hs

/-- Two records, each in a list, whose fields are all optional once they are put together: they become a map. -/
theorem withinThresholds_absorb_lists :
    ∃ r, absorb { mapInference := { maxOptionalFields := 1 } }
        (Schema.ofElems [Schema.ofFields [("id", Schema.ofType .int32)]])
        (Schema.ofElems [Schema.ofFields [("size", Schema.ofType .int64)]]) = .ok r ∧
      r = Schema.ofElems [{ form := .record [] (some ⟨some (Schema.ofType .string), some (Schema.ofType .int64)⟩) }] ∧
        r.WithinThresholds { mapInference := { maxOptionalFields := 1 } } := by
  have hlist : ∀ name t, (Schema.ofElems [Schema.ofFields [(name, Schema.ofType t)]]).WithinThresholds
      { mapInference := { maxOptionalFields := 1 } } := by
    refine fun name t => .intro rfl fun u hu => ?_
    obtain rfl := List.mem_singleton.1 hu
    refine .intro ?_ fun v hv => ?_
    · have hrequired : (Schema.ofType t).isOptional = false := rfl
      cases hdigit : startsWithDigit name <;>
        simp [Schema.shouldBeMap, Schema.ofFields, MapThresholds.exceeded, hdigit, hrequired]
    · obtain rfl := List.mem_singleton.1 hv
      exact .of_primitive rfl rfl
  exact ⟨_, rfl, rfl, withinThresholds_absorb (hlist "id" .int32) (hlist "size" .int64) rfl⟩

/-! ## Searching for maps -/

section

variable {limits : Limits}

/-- A record whose fields are below the thresholds is below them once it is converted. -/
theorem withinThresholds_convertToMap {σ : Type} {st : σ} {s : Schema} (hmap : s.shouldBeMap limits = true)
    (hchildren : ∀ t ∈ s.children, t.WithinThresholds limits) (hfault : (s.convertToMap limits st).fault = none) :
    (s.convertToMap limits st).value.WithinThresholds limits := by
  unfold Schema.shouldBeMap at hmap
  unfold Schema.children at hchildren
  unfold Schema.convertToMap at hfault ⊢
  cases hform : s.form with
  | record fields mapping =>
    rw [hform] at hchildren hfault
    dsimp only at hfault ⊢
    have hfields : ∀ t ∈ Table.values fields, t.form.Everywhere (Form.WithinThresholds limits) := fun t ht =>
      Schema.withinThresholds_iff.1 (hchildren t (List.mem_append_left _ ht))
    -- The value of the map is what the fields are absorbed into, and absorbing keeps trees below the thresholds.
    have hQ := stable_withinThresholds limits
    cases hm : mappingOf (absorb limits) fields with
    | error f =>
      rw [hm] at hfault
      cases hfault
    | ok m => exact Schema.withinThresholds_iff.2 (hQ.everywhere_mappingOf (fun _ _ _ _ => hQ.absorbWithin) hm hfields)
  | primitive | list | absent | optional | oneOf =>
    rw [hform] at hmap
    cases hmap

/-- A visit without a fault leaves a node below the thresholds when its children are. -/
theorem withinThresholds_inferMap (count : Nat) (s : Schema) (hchildren : ∀ t ∈ s.children, t.WithinThresholds limits)
    (hfault : (inferMap limits count s).fault = none) : (inferMap limits count s).value.WithinThresholds limits := by
  unfold inferMap at hfault ⊢
  split at hfault
  · rename_i hmap
    rw [if_pos hmap]
    dsimp only at hfault ⊢
    cases hconvert : (s.convertToMap limits count).fault with
    | some f =>
      rw [hconvert] at hfault
      exact absurd (hconvert.symm.trans hfault) (Option.some_ne_none f)
    | none => exact withinThresholds_convertToMap hmap hchildren hconvert
  · rename_i hmap
    rw [if_neg hmap]
    exact .intro (eq_false_of_ne_true hmap) hchildren

/-- A node below the thresholds is passed by without a change. -/
theorem Schema.WithinThresholds.unchanged {s : Schema} (h : s.WithinThresholds limits) (count : Nat) :
    s.Throughout (fun t => inferMap limits count t = ⟨count, t, none⟩) :=
  Schema.Throughout.mono h fun t ht => by
    unfold inferMap
    rw [if_neg (by rw [ht]; exact Bool.false_ne_true)]

theorem Schema.withinThresholds_of_walk {s : Schema} {count : Nat} (hfault : (s.walk (inferMap limits) count).fault = none) :
    (s.walk (inferMap limits) count).value.WithinThresholds limits := by
  rw [Schema.withinThresholds_iff, ← Schema.throughout_iff_everywhere]
  refine Schema.throughout_of_walk (fun count s hchildren hfault => ?_) s count hfault
  have hchildren : ∀ t ∈ s.children, t.WithinThresholds limits := fun t ht =>
    (hchildren t ht).mono fun _ => Form.withinThresholds_iff.1
  exact (withinThresholds_inferMap count s hchildren hfault).mono fun _ => Form.withinThresholds_iff.2

theorem Catalogue.withinThresholds_of_walk {c : Catalogue} {count : Nat}
    (hfault : (Catalogue.walk (inferMap limits) count c).fault = none) :
    (Catalogue.walk (inferMap limits) count c).value.WithinThresholds limits := by
  have hpasses := visitAll_passes (Schema.walk (inferMap limits)) (Table.values c) count
  rw [show (visitAll (Schema.walk (inferMap limits)) count (Table.values c)).fault = none from hfault] at hpasses
  exact Catalogue.ofList_values (fun s e hs => hs.congr rfl id)
    (hpasses.visited fun s _ st => Schema.withinThresholds_of_walk)

theorem inferMap_keepsKeys (limits : Limits) : (inferMap limits).KeepsKeys := fun count _ hs => hs.inferMap limits count

end

/--
One search for maps is enough. After a search that succeeds no record in the tree, or in the fields of the
endpoint, is one that should be a map, and a second search converts nothing and gives back what is there.
-/
theorem inferMaps_once (limits : Limits) :
    (∀ s : Schema, s.Keyed → (s.inferMaps limits).fault = none →
      (s.inferMaps limits).value.WithinThresholds limits ∧
        (s.inferMaps limits).value.inferMaps limits = ⟨0, (s.inferMaps limits).value, none⟩) ∧
    ∀ e : Endpoint, e.Keyed → (e.inferMaps limits).fault = none →
      (e.inferMaps limits).value.WithinThresholds limits ∧
        (e.inferMaps limits).value.inferMaps limits = ⟨0, (e.inferMaps limits).value, none⟩ := by
  refine ⟨fun s hkeyed hfault => ?_, fun e hkeyed hfault => ?_⟩
  · have hwithin := Schema.withinThresholds_of_walk hfault
    exact ⟨hwithin, (hkeyed.walk (inferMap_keepsKeys limits) 0).walk_unchanged (hwithin.unchanged 0)⟩
  · have hkept := hkeyed.walk (inferMap_keepsKeys limits) 0
    have hwithin : (e.inferMaps limits).value.WithinThresholds limits := by
      unfold Endpoint.inferMaps Endpoint.walk at hfault ⊢
      dsimp only at hfault ⊢
      cases hargs : (Catalogue.walk (inferMap limits) 0 e.args).fault with
      | some f =>
        rw [hargs] at hfault
        cases hfault
      | none =>
        rw [hargs] at hfault
        exact ⟨Catalogue.withinThresholds_of_walk hargs, Catalogue.withinThresholds_of_walk hfault⟩
    exact ⟨hwithin, hkept.walk_unchanged (fun s hs => (hwithin.1 s hs).unchanged 0) fun s hs => (hwithin.2 s hs).unchanged 0⟩

/-- Two records below the threshold in one above it: the outer one becomes a map, and so does what the inner ones
are absorbed into. -/
theorem inferMaps_once_nested : ∃ s : Schema,
    s = Schema.ofFields [("eu", Schema.ofFields [("id", Schema.ofType .int32)]),
      ("us", Schema.ofFields [("size", Schema.ofType .int64)])] ∧ s.Keyed ∧
    (s.inferMaps { mapInference := { maxFields := 1 } }).fault = none ∧
    (s.inferMaps { mapInference := { maxFields := 1 } }).state = 1 ∧
    (s.inferMaps { mapInference := { maxFields := 1 } }).value.WithinThresholds { mapInference := { maxFields := 1 } } ∧
    (s.inferMaps { mapInference := { maxFields := 1 } }).value.inferMaps { mapInference := { maxFields := 1 } } =
      ⟨0, (s.inferMaps { mapInference := { maxFields := 1 } }).value, none⟩ := by
  have hinner : ∀ name t, (Schema.ofFields [(name, Schema.ofType t)]).Keyed := by
    refine fun name t => .intro trivial fun u hu => ?_
    obtain rfl := List.mem_singleton.1 hu
    exact .of_primitive rfl trivial
  have hkeyed : (Schema.ofFields [("eu", Schema.ofFields [("id", Schema.ofType .int32)]),
      ("us", Schema.ofFields [("size", Schema.ofType .int64)])]).Keyed := by
    refine .intro trivial fun t ht => ?_
    rcases List.mem_cons.1 ht with rfl | ht
    · exact hinner "id" .int32
    · obtain rfl := List.mem_singleton.1 ht
      exact hinner "size" .int64
  obtain ⟨hwithin, hagain⟩ := (inferMaps_once { mapInference := { maxFields := 1 } }).1 _ hkeyed rfl
  exact ⟨_, rfl, hkeyed, rfl, rfl, hwithin, hagain⟩

end ApiShape

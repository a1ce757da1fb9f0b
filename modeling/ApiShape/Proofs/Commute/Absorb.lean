/-
Absorbing two elementary trees, either into the other: both succeed, and the results have one digest. The
fields that both have commute by induction, the others become optional on either side, and optional
layers and nullability go to the outside in both orders.
-/
import ApiShape.Proofs.Absorb.Nullable
import ApiShape.Proofs.Absorb.Record
import ApiShape.Proofs.Commute.Basic
import ApiShape.Proofs.Commute.Elementary
import ApiShape.Proofs.Instance.Absorb
import ApiShape.Proofs.WellFormed.Absorb

namespace ApiShape

/-! ## Numbers of fields -/

theorem length_insert_le (t : Table Schema) (k : String) (s : Schema) : (Table.insert t k s).length ≤ t.length + 1 := by
  induction t with
  | nil => exact Nat.le_refl _
  | cons row rest ih =>
    unfold Table.insert
    split
    · exact Nat.le_refl _
    · split
      · exact Nat.le_succ _
      · exact Nat.succ_le_succ ih

theorem length_addMissing_le (dst src : Table Schema) : (addMissing dst src).length ≤ dst.length + src.length := by
  suffices ∀ (rows t : Table Schema),
      (rows.foldl (fun t row => Table.insert t row.1 row.2.makeOptional) t).length ≤ t.length + rows.length by
    have hfilter := List.length_filter_le (fun row => !Table.contains dst row.1) src
    have := this (src.filter fun row => !Table.contains dst row.1) dst
    unfold addMissing
    omega
  intro rows
  induction rows with
  | nil => exact fun t => Nat.le_refl _
  | cons row rest ih =>
    intro t
    have hinsert := length_insert_le t row.1 row.2.makeOptional
    have := ih (Table.insert t row.1 row.2.makeOptional)
    rw [List.foldl_cons, List.length_cons]
    omega

/-! ## Commuting pairs -/

/-- Two trees, absorbed in both orders, with results that are hashed in one way. -/
structure Commutes (limits : Limits) (A B r r' : Schema) : Prop where
  left : absorb limits A B = .ok r
  right : absorb limits B A = .ok r'
  same : r.SameDigest r'
  metadata : r.metadata = none
  bare : A.isOptional = false → B.isOptional = false → r.isOptional = false ∧ r'.isOptional = false

namespace Commutes

variable {limits : Limits} {A B r r' : Schema}

theorem symm (h : Commutes limits A B r r') : Commutes limits B A r' r where
  left := h.right
  right := h.left
  same := ⟨⟨h.same.form.number.symm, h.same.form.digest.symm⟩, h.same.nullable.symm, h.same.metadata.symm⟩
  metadata := h.same.metadata.symm.trans h.metadata
  bare hB hA := (h.bare hA hB).symm

/-- Nullability on either side goes to both results. -/
theorem orNullable (h : Commutes limits A B r r') (b c : Bool) :
    Commutes limits (A.orNullable b) (B.orNullable c) (r.orNullable (b || c)) (r'.orNullable (b || c)) where
  left := by
    rw [absorb_orNullable, absorb_src_orNullable, h.left, Bool.or_comm]
    exact congrArg Except.ok (Schema.orNullable_orNullable r c b)
  right := by
    rw [absorb_orNullable, absorb_src_orNullable, h.right]
    exact congrArg Except.ok (Schema.orNullable_orNullable r' b c)
  same := h.same.orNullable _
  metadata := h.metadata
  bare := h.bare

end Commutes

/-! ## Records -/

section

variable {limits : Limits} {f g : Table Schema}

theorem exists_absorbShared {absorb : Absorber} {src : Table Schema} :
    ∀ {dst : Table Schema}, (∀ name d s, (name, d) ∈ dst → Table.find? src name = some s → ∃ r, absorb d s = .ok r) →
      ∃ shared, absorbShared absorb src dst = .ok shared
  | [], _ => ⟨[], rfl⟩
  | (name, d) :: rest, h => by
    obtain ⟨shared, hshared⟩ := exists_absorbShared fun name d s hmem hs => h name d s (List.mem_cons_of_mem _ hmem) hs
    have hfield : ∃ r, absorbField absorb src name d = .ok r := by
      unfold absorbField
      split
      · rename_i s hs
        obtain ⟨r, hr⟩ := h name d s List.mem_cons_self hs
        exact ⟨r, mapError_eq_ok.2 hr⟩
      · exact ⟨_, rfl⟩
    obtain ⟨r, hr⟩ := hfield
    exact ⟨(name, r) :: shared, bind_eq_ok.2 ⟨r, hr, bind_eq_ok.2 ⟨shared, hshared, rfl⟩⟩⟩

/-- The fields that two records have after one of them absorbed the other. -/
def Merged (limits : Limits) (f g merged : Table Schema) : Prop :=
  ∃ shared, Fields (fun d s r => absorb limits d s = .ok r) g f shared ∧ merged = addMissing shared g

theorem Merged.sorted {merged : Table Schema} (h : Merged limits f g merged) (hf : Table.Sorted f) :
    Table.Sorted merged := by
  obtain ⟨shared, hshared, rfl⟩ := h
  exact (hf.of_keys hshared.keys).foldl_insert

theorem Merged.length_le {merged : Table Schema} (h : Merged limits f g merged) : merged.length ≤ f.length + g.length := by
  obtain ⟨shared, hshared, rfl⟩ := h
  have hkeys := congrArg List.length hshared.keys
  unfold Table.keys at hkeys
  rw [List.length_map, List.length_map] at hkeys
  have := length_addMissing_le shared g
  omega

/-- A merged field is absorbed from both sides, or it is the field of one side made optional. -/
theorem Merged.find?_eq_some {merged : Table Schema} {name : String} {r : Schema} (h : Merged limits f g merged)
    (hg : Table.Sorted g) : Table.find? merged name = some r ↔
      (∃ a b, Table.find? f name = some a ∧ Table.find? g name = some b ∧ absorb limits a b = .ok r) ∨
      (∃ a, Table.find? f name = some a ∧ Table.find? g name = none ∧ r = a.makeOptional) ∨
      ∃ b, Table.find? f name = none ∧ Table.find? g name = some b ∧ r = b.makeOptional := by
  obtain ⟨shared, hshared, rfl⟩ := h
  rw [find?_addMissing hg]
  cases hf : Table.find? f name with
  | none =>
    rw [hshared.find?_eq_none hf]
    cases Table.find? g name <;> simp [eq_comm]
  | some a =>
    obtain ⟨x, hx, hfield⟩ := hshared.find?_eq_some hf
    rw [hx]
    cases hfield with
    | shared hs hr =>
      rw [hs]
      simp [hr]
    | missing hs =>
      rw [hs]
      simp [eq_comm]

theorem exists_merged (hf : Table.Sorted f)
    (h : ∀ name a b, Table.find? f name = some a → Table.find? g name = some b → ∃ r, absorb limits a b = .ok r)
    (hallow : limits.mapInference.Allow (f.length + g.length)) :
    ∃ merged, Merged limits f g merged ∧ absorbRecord limits (absorb limits) f none g none = .ok (.record merged none) := by
  obtain ⟨shared, hshared⟩ : ∃ shared, absorbShared (absorb limits) g f = .ok shared :=
    exists_absorbShared fun name a b ha hb => h name a b (hf.find?_eq ha) hb
  have hmerged : Merged limits f g (addMissing shared g) := ⟨shared, fields_of_ok hshared fun _ _ _ _ _ _ hr => hr, rfl⟩
  refine ⟨_, hmerged, ?_⟩
  unfold absorbRecord
  rw [if_neg (by simp)]
  refine bind_eq_ok.2 ⟨addMissing shared g, bind_eq_ok.2 ⟨shared, hshared, rfl⟩, ?_⟩
  rw [if_neg]
  · rfl
  · rw [(hallow.mono hmerged.length_le).exceeded]
    simp

/-- Each field merged in one order has its counterpart in the other order. -/
theorem Merged.counterpart {merged merged' : Table Schema} (h : Merged limits f g merged) (h' : Merged limits g f merged')
    (hf : Table.Sorted f) (hg : Table.Sorted g)
    (hfields : ∀ name a b, Table.find? f name = some a → Table.find? g name = some b → ∃ r r', Commutes limits a b r r')
    (row : String × Schema) (hrow : row ∈ merged) :
    ∃ row' ∈ merged', row.1 = row'.1 ∧ row.2.canon.digest = row'.2.canon.digest := by
  obtain ⟨name, r⟩ := row
  have hfind := (h.sorted hf).find?_eq hrow
  have hother : ∀ r', Table.find? merged' name = some r' → r.canon.digest = r'.canon.digest →
      ∃ row' ∈ merged', name = row'.1 ∧ r.canon.digest = row'.2.canon.digest := fun r' hr' heq =>
    ⟨(name, r'), Table.mem_of_find? hr', rfl, heq⟩
  rcases (h.find?_eq_some hg).1 hfind with ⟨a, b, ha, hb, hr⟩ | ⟨a, ha, hb, rfl⟩ | ⟨b, ha, hb, rfl⟩
  · obtain ⟨r₁, r', hcommutes⟩ := hfields name a b ha hb
    obtain rfl : r₁ = r := Except.ok.inj (hcommutes.left.symm.trans hr)
    exact hother r' ((h'.find?_eq_some hf).2 (.inl ⟨b, a, hb, ha, hcommutes.right⟩)) hcommutes.same.digest
  · exact hother _ ((h'.find?_eq_some hf).2 (.inr (.inr ⟨a, hb, ha, rfl⟩))) rfl
  · exact hother _ ((h'.find?_eq_some hf).2 (.inr (.inl ⟨b, hb, ha, rfl⟩))) rfl

/-- Two records in either order: fields by name, or slots after the conversions. -/
theorem absorbRecord_commutes (hf : Table.Sorted f) (hg : Table.Sorted g)
    (hallow : limits.mapInference.Allow (f.length + g.length))
    (hfields : ∀ name a b, Table.find? f name = some a → Table.find? g name = some b → ∃ r r', Commutes limits a b r r') :
    ∃ merged merged', absorbRecord limits (absorb limits) f none g none = .ok (.record merged none) ∧
      absorbRecord limits (absorb limits) g none f none = .ok (.record merged' none) ∧
        (Form.record merged none).SameDigest (.record merged' none) := by
  have hfields' : ∀ name b a, Table.find? g name = some b → Table.find? f name = some a → ∃ r r', Commutes limits b a r r' := by
    intro name b a hb ha
    obtain ⟨r, r', h⟩ := hfields name a b ha hb
    exact ⟨r', r, h.symm⟩
  obtain ⟨merged, h, habsorb⟩ := exists_merged hf (fun name a b ha hb => by
    obtain ⟨r, r', h⟩ := hfields name a b ha hb
    exact ⟨r, h.left⟩) hallow
  obtain ⟨merged', h', habsorb'⟩ := exists_merged hg (fun name b a hb ha => by
    obtain ⟨r, r', h⟩ := hfields' name b a hb ha
    exact ⟨r, h.left⟩) (by rwa [Nat.add_comm])
  refine ⟨merged, merged', habsorb, habsorb', .record ?_ rfl⟩
  refine forall₂_of_sorted (R := fun s t => s.canon.digest = t.canon.digest) (h.sorted hf) (h'.sorted hg)
    (h.counterpart h' hf hg hfields) fun row hrow => ?_
  obtain ⟨row', hrow', heq, -⟩ := h'.counterpart h hg hf hfields' row hrow
  exact ⟨row', hrow', heq.symm⟩

end

/-! ## Lists -/

/-- Lists of at most one element commute when their elements do. -/
theorem absorbElems_commutes {limits : Limits} {f g : List Schema} (hf : f.length ≤ 1) (hg : g.length ≤ 1)
    (helems : ∀ a ∈ f, ∀ b ∈ g, ∃ r r', Commutes limits a b r r') :
    ∃ elems elems', absorbElems (absorb limits) f g = .ok elems ∧ absorbElems (absorb limits) g f = .ok elems' ∧
      (Form.list elems).SameDigest (.list elems') := by
  rcases f with _ | ⟨a, _ | ⟨a', f⟩⟩
  · rcases g with _ | ⟨b, _ | ⟨b', g⟩⟩
    · exact ⟨[], [], rfl, rfl, .refl _⟩
    · exact ⟨[b], [b], rfl, rfl, .refl _⟩
    · simp at hg
  · rcases g with _ | ⟨b, _ | ⟨b', g⟩⟩
    · exact ⟨[a], [a], rfl, rfl, .refl _⟩
    · obtain ⟨r, r', h⟩ := helems a List.mem_cons_self b List.mem_cons_self
      have helem : ∀ {a b r}, absorb limits a b = .ok r → absorbElems (absorb limits) [a] [b] = .ok [r] := by
        intro a b r hr
        have hstep : absorbElem (absorb limits) (some a) (b, 0) = .ok (some r) :=
          mapError_eq_ok.2 (map_eq_ok.2 ⟨r, hr, rfl⟩)
        exact bind_eq_ok.2 ⟨some a, rfl, bind_eq_ok.2 ⟨some r, bind_eq_ok.2 ⟨some r, hstep, rfl⟩, rfl⟩⟩
      exact ⟨[r], [r'], helem h.left, helem h.right, .list (.cons h.same.digest .nil)⟩
    · simp at hg
  · simp at hf

/-! ## Trees -/

section

variable {limits : Limits} {A B r : Schema}

theorem absorb_of_isBare (hA : A.Ordered) (hB : B.Ordered) (hplain : B.isPlain) (hbare : B.IsBare) :
    absorb limits A B = absorbPlain limits (absorb limits) A B := by
  rw [absorb_eq_step (Schema.throughout_iff_everywhere.1 hA) (Schema.throughout_iff_everywhere.1 hB),
    absorbStep_of_isPlain hplain, hbare.nullable, Schema.orNullable_false, hbare.bare_eq]

/-- Plain bare trees commute when the nodes below them do. -/
theorem exists_commutes_of_isPlain (hA : A.isPlain) (hB : B.isPlain) (hAb : A.IsBare) (hBb : B.IsBare)
    (hAe : A.Elementary) (hBe : B.Elementary) (hAo : A.Ordered) (hBo : B.Ordered) (hAl : A.Labelled) (hBl : B.Labelled)
    (hallow : limits.mapInference.Allow (A.fieldCount + B.fieldCount))
    (hkids : ∀ a ∈ A.children, ∀ b ∈ B.children, ∃ r r', Commutes limits a b r r') :
    ∃ r r', Commutes limits A B r r' := by
  have hleft : absorb limits A B = absorbPlain limits (absorb limits) A B := absorb_of_isBare hAo hBo hB hBb
  have hright : absorb limits B A = absorbPlain limits (absorb limits) B A := absorb_of_isBare hBo hAo hA hAb
  have hconflict : absorbPlain limits (absorb limits) A B = .ok (A.conflict B) →
      absorbPlain limits (absorb limits) B A = .ok (B.conflict A) → ∃ r r', Commutes limits A B r r' := fun h h' =>
    ⟨_, _, hleft.trans h, hright.trans h', Schema.conflict_sameDigest (hAb.metadata.trans hBb.metadata.symm),
      hAb.metadata, fun _ _ => ⟨rfl, rfl⟩⟩
  have hAe := hAe.root.1
  have hBe := hBe.root.1
  have hAsorted := hAo.root
  have hBsorted := hBo.root
  have hAl := hAl.root
  have hBl := hBl.root
  obtain ⟨f, nullable, metadata, examples⟩ := A
  obtain ⟨g, nullable', metadata', examples'⟩ := B
  obtain ⟨rfl, rfl⟩ := hAb
  obtain ⟨rfl, rfl⟩ := hBb
  cases f with
  | primitive p =>
    cases g with
    | primitive q =>
      cases hj : p.join q with
      | some j =>
        obtain ⟨j', hj', halike⟩ := Primitive.join_comm_alike hAl hBl (hAe.trans hBe.symm) hj
        have hresult : ∀ {p q j : Primitive} {e e' : Examples}, p.join q = some j → absorbPlain limits (absorb limits)
            ⟨.primitive p, false, none, e⟩ ⟨.primitive q, false, none, e'⟩ =
              .ok ⟨.primitive j, false, none, Examples.merge e e'⟩ := by
          intro p q j e e' hj
          unfold absorbPlain
          dsimp only
          rw [hj]
          rfl
        have hsame : (Form.primitive j).SameDigest (.primitive j') := ⟨rfl, halike.digest⟩
        exact ⟨_, _, hleft.trans (hresult hj), hright.trans (hresult hj'), ⟨hsame, rfl, rfl⟩, rfl, fun _ _ => ⟨rfl, rfl⟩⟩
      | none =>
        have hj' : q.join p = none := by
          have hjoinable := Primitive.joinable_comm p q
          unfold Primitive.joinable at hjoinable
          rw [hj] at hjoinable
          exact Option.not_isSome_iff_eq_none.1 (by rw [← hjoinable]; simp)
        refine hconflict ?_ ?_
        · unfold absorbPlain
          dsimp only
          rw [hj]
        · unfold absorbPlain
          dsimp only
          rw [hj']
    | record | list => exact hconflict rfl rfl
    | absent | optional | oneOf => cases hB
  | record f m =>
    cases g with
    | record g m' =>
      obtain rfl : m = none := hAe
      obtain rfl : m' = none := hBe
      have hlength := Nat.add_le_add (length_le_fieldCount (s := ⟨.record f none, false, none, examples⟩) rfl)
        (length_le_fieldCount (s := ⟨.record g none, false, none, examples'⟩) rfl)
      obtain ⟨merged, merged', h, h', hsame⟩ := absorbRecord_commutes hAsorted hBsorted (hallow.mono hlength)
        fun name a b ha hb => hkids a (List.mem_append_left _ (Table.mem_values_of_mem (Table.mem_of_find? ha))) b
          (List.mem_append_left _ (Table.mem_values_of_mem (Table.mem_of_find? hb)))
      exact ⟨⟨.record merged none, false, none, Examples.merge examples examples'⟩,
        ⟨.record merged' none, false, none, Examples.merge examples' examples⟩,
        hleft.trans (bind_eq_ok.2 ⟨_, h, rfl⟩), hright.trans (bind_eq_ok.2 ⟨_, h', rfl⟩),
        ⟨hsame, rfl, rfl⟩, rfl, fun _ _ => ⟨rfl, rfl⟩⟩
    | primitive | list => exact hconflict rfl rfl
    | absent | optional | oneOf => cases hB
  | list f =>
    cases g with
    | list g =>
      obtain ⟨elems, elems', h, h', hsame⟩ := absorbElems_commutes hAe hBe hkids
      exact ⟨⟨.list elems, false, none, Examples.merge examples examples'⟩,
        ⟨.list elems', false, none, Examples.merge examples' examples⟩,
        hleft.trans (bind_eq_ok.2 ⟨_, h, rfl⟩), hright.trans (bind_eq_ok.2 ⟨_, h', rfl⟩),
        ⟨hsame, rfl, rfl⟩, rfl, fun _ _ => ⟨rfl, rfl⟩⟩
    | primitive | record => exact hconflict rfl rfl
    | absent | optional | oneOf => cases hB
  | absent | optional | oneOf => cases hA

/-! ### Optional layers -/

/-- An optional layer of the destination stays around what its interior becomes. -/
theorem absorb_optional_dst {x y : Schema} (examples : Examples) (hx : x.Ordered) (hy : y.Ordered)
    (hopt : x.isOptional = false) (hplain : y.isPlain) (hy' : y.metadata = none) (h : absorb limits x y = .ok r)
    (hr : r.metadata = none) (hr' : r.isOptional = false) :
    ∃ R, absorb limits ⟨.optional x, false, none, examples⟩ y = .ok R ∧ R.isOptional = true ∧
      R.SameDigest r.makeOptional := by
  have hbare : y.bare.orNullable y.nullable = y := Schema.ext_fields rfl (Bool.false_or _) hy'.symm rfl
  rw [← hbare, absorb_src_orNullable] at h
  obtain ⟨r, hinner, rfl⟩ := map_eq_ok.1 h
  have ho : (⟨.optional x, false, none, examples⟩ : Schema).form.Everywhere Form.Ordered :=
    Form.everywhere_optional.2 ⟨trivial, Schema.throughout_iff_everywhere.1 hx⟩
  rw [absorb_eq_step ho (Schema.throughout_iff_everywhere.1 hy), absorbStep_of_isPlain hplain]
  unfold absorbPlain
  rw [Schema.form_orNullable]
  dsimp only
  rw [if_neg (by simp [hopt]), hinner]
  refine ⟨_, rfl, rfl, ?_⟩
  rw [Schema.makeOptional_orNullable]
  unfold Schema.makeOptional
  rw [show r.isOptional = false from hr']
  refine ⟨.optional (Schema.SameDigest.digest ⟨.refl _, rfl, hr⟩), ?_, hr.symm⟩
  show (false || y.nullable || r.nullable) = (r.nullable || y.nullable)
  rw [Bool.false_or, Bool.or_comm]

/-- An optional layer of the source goes around the result. -/
theorem absorb_optional_src {x y : Schema} {metadata : Option Metadata} {examples : Examples} (hx : x.Ordered)
    (hy : y.Ordered) (h : absorb limits x y = .ok r) :
    absorb limits x ⟨.optional y, false, metadata, examples⟩ = .ok (r.makeOptional.mergeExamples examples) := by
  have hxo := Schema.throughout_iff_everywhere.1 hx
  have hyo := Schema.throughout_iff_everywhere.1 hy
  rw [absorb_eq_step hxo hyo] at h
  have ho : (⟨.optional y, false, metadata, examples⟩ : Schema).form.Everywhere Form.Ordered :=
    Form.everywhere_optional.2 ⟨trivial, hyo⟩
  rw [absorb_eq_step hxo ho]
  unfold absorbStep
  rw [Schema.orNullable_false, h]
  rfl

/-- Elementary trees as they are absorbed: in order, labelled, and with fewer fields than the thresholds. -/
structure Schema.Comparable (limits : Limits) (A B : Schema) : Prop where
  elementary : A.Elementary ∧ B.Elementary
  ordered : A.Ordered ∧ B.Ordered
  labelled : A.Labelled ∧ B.Labelled
  allow : limits.mapInference.Allow (A.fieldCount + B.fieldCount)

namespace Schema.Comparable

theorem symm (h : Comparable limits A B) : Comparable limits B A where
  elementary := h.elementary.symm
  ordered := h.ordered.symm
  labelled := h.labelled.symm
  allow := by rw [Nat.add_comm]; exact h.allow

theorem dst_child (h : Comparable limits A B) {a : Schema} (ha : a ∈ A.children) : Comparable limits a B where
  elementary := ⟨h.elementary.1.child a ha, h.elementary.2⟩
  ordered := ⟨h.ordered.1.child a ha, h.ordered.2⟩
  labelled := ⟨h.labelled.1.child a ha, h.labelled.2⟩
  allow := h.allow.mono (Nat.add_le_add_right (h.elementary.1.fieldCount_le ha) _)

theorem src_child (h : Comparable limits A B) {b : Schema} (hb : b ∈ B.children) : Comparable limits A b :=
  (h.symm.dst_child hb).symm

/-- Nullability and examples play no part. -/
theorem congr (h : Comparable limits A B) (A' : Schema) (hform : A'.form = A.form) (hmetadata : A'.metadata = A.metadata) :
    Comparable limits A' B where
  elementary := ⟨h.elementary.1.congr hform fun h => by rwa [hform, hmetadata], h.elementary.2⟩
  ordered := ⟨h.ordered.1.congr hform fun h => by rwa [hform], h.ordered.2⟩
  labelled := ⟨h.labelled.1.congr hform fun h => by rwa [hform], h.labelled.2⟩
  allow := by rw [fieldCount_eq A', hform, ← fieldCount_eq]; exact h.allow

end Schema.Comparable

/-- An optional destination commutes with a plain tree when its interior does. -/
theorem exists_commutes_of_optional {x : Schema} {examples : Examples} (hx : x.isPlain) (hB : B.isPlain)
    (h : Schema.Comparable limits ⟨.optional x, false, none, examples⟩ B)
    (hinner : ∃ r r', Commutes limits x B r r') :
    ∃ r r', Commutes limits ⟨.optional x, false, none, examples⟩ B r r' := by
  obtain ⟨r, r', hcommutes⟩ := hinner
  have hxo := (h.dst_child (List.mem_singleton.2 rfl)).ordered.1
  have hxopt := Schema.isOptional_of_isPlain hx
  obtain ⟨hr, hr'⟩ := hcommutes.bare hxopt (Schema.isOptional_of_isPlain hB)
  obtain ⟨R, hR, hRopt, hRsame⟩ := absorb_optional_dst examples hxo h.ordered.2 hxopt hB
    h.elementary.2.root.2 hcommutes.left hcommutes.metadata hr
  refine ⟨R, _, hR, absorb_optional_src h.ordered.2 hxo hcommutes.right, ?_, ?_, nofun⟩
  · exact (hRsame.trans (hcommutes.same.makeOptional hr hr')).trans (.mergeExamples _ _)
  · rw [hRsame.metadata, Schema.metadata_makeOptional, hcommutes.metadata]

/-- Two optional nodes commute when their interiors do. -/
theorem exists_commutes_of_optionals {x y : Schema} {examples examples' : Examples} (hx : x.isPlain) (hy : y.isPlain)
    (h : Schema.Comparable limits ⟨.optional x, false, none, examples⟩ ⟨.optional y, false, none, examples'⟩)
    (hinner : ∃ r r', Commutes limits x y r r') :
    ∃ r r', Commutes limits ⟨.optional x, false, none, examples⟩ ⟨.optional y, false, none, examples'⟩ r r' := by
  obtain ⟨r, r', hcommutes⟩ := hinner
  have hxB := h.dst_child (List.mem_singleton.2 rfl)
  have hxy := hxB.src_child (List.mem_singleton.2 rfl)
  have hxopt := Schema.isOptional_of_isPlain hx
  have hyopt := Schema.isOptional_of_isPlain hy
  obtain ⟨hr, hr'⟩ := hcommutes.bare hxopt hyopt
  obtain ⟨R, hR, hRopt, hRsame⟩ := absorb_optional_dst examples hxy.ordered.1 hxy.ordered.2 hxopt hy
    hxy.elementary.2.root.2 hcommutes.left hcommutes.metadata hr
  obtain ⟨R', hR', hRopt', hRsame'⟩ := absorb_optional_dst examples' hxy.ordered.2 hxy.ordered.1 hyopt hx
    hxy.elementary.1.root.2 hcommutes.right (hcommutes.same.metadata.symm.trans hcommutes.metadata) hr'
  refine ⟨_, _, absorb_optional_src h.ordered.1 hxy.ordered.2 hR, absorb_optional_src h.ordered.2 hxy.ordered.1 hR',
    ?_, ?_, nofun⟩
  · rw [Schema.makeOptional_of_isOptional hRopt, Schema.makeOptional_of_isOptional hRopt']
    have hsame := (hRsame.trans (hcommutes.same.makeOptional hr hr')).trans hRsame'.symm
    exact ((Schema.SameDigest.mergeExamples R _).symm.trans hsame).trans (.mergeExamples R' _)
  · rw [Schema.makeOptional_of_isOptional hRopt]
    show R.metadata = none
    rw [hRsame.metadata, Schema.metadata_makeOptional, hcommutes.metadata]

/-- Elementary trees below the thresholds commute. -/
theorem exists_commutes (h : Schema.Comparable limits A B) : ∃ r r', Commutes limits A B r r' := by
  induction hn : A.size + B.size using Nat.strongRecOn generalizing A B with
  | _ n ih =>
    subst hn
    have hsmaller : ∀ {a b : Schema}, Schema.Comparable limits a b → a.size + b.size < A.size + B.size →
        ∃ r r', Commutes limits a b r r' := fun h hlt => ih _ hlt h rfl
    have hAmeta := h.elementary.1.root.2
    have hBmeta := h.elementary.2.root.2
    obtain ⟨f, n, m, e⟩ := A
    obtain ⟨g, n', m', e'⟩ := B
    cases hAmeta
    cases hBmeta
    -- The nullability of both trees is put back at the end.
    have hcore : Schema.Comparable limits ⟨f, false, none, e⟩ ⟨g, false, none, e'⟩ :=
      ((h.congr ⟨f, false, none, e⟩ rfl rfl).symm.congr ⟨g, false, none, e'⟩ rfl rfl).symm
    suffices hbare : ∃ r r', Commutes limits ⟨f, false, none, e⟩ ⟨g, false, none, e'⟩ r r' by
      obtain ⟨r, r', hbare⟩ := hbare
      have hnull := hbare.orNullable n n'
      rw [show (⟨f, false, none, e⟩ : Schema).orNullable n = ⟨f, n, none, e⟩ from Schema.ext_fields rfl (Bool.false_or n) rfl rfl,
        show (⟨g, false, none, e'⟩ : Schema).orNullable n' = ⟨g, n', none, e'⟩ from
          Schema.ext_fields rfl (Bool.false_or n') rfl rfl] at hnull
      exact ⟨_, _, hnull⟩
    have hdst : ∀ {a : Schema}, a ∈ f.children → a.size < (⟨f, n, none, e⟩ : Schema).size := fun ha =>
      size_lt_of_mem_children (s := ⟨f, n, none, e⟩) ha
    have hsrc : ∀ {b : Schema}, b ∈ g.children → b.size < (⟨g, n', none, e'⟩ : Schema).size := fun hb =>
      size_lt_of_mem_children (s := ⟨g, n', none, e'⟩) hb
    have hsize : ∀ b, (⟨f, b, none, e⟩ : Schema).size = (⟨f, n, none, e⟩ : Schema).size := fun b => by rw [size_eq, size_eq]
    have hsize' : ∀ b, (⟨g, b, none, e'⟩ : Schema).size = (⟨g, n', none, e'⟩ : Schema).size := fun b => by rw [size_eq, size_eq]
    rcases hcore.elementary.1.cases with hA | ⟨x, hf, hx⟩
    · rcases hcore.elementary.2.cases with hB | ⟨y, hg, hy⟩
      · refine exists_commutes_of_isPlain hA hB ⟨rfl, rfl⟩ ⟨rfl, rfl⟩ hcore.elementary.1 hcore.elementary.2 hcore.ordered.1
          hcore.ordered.2 hcore.labelled.1 hcore.labelled.2 hcore.allow fun a ha b hb => ?_
        exact hsmaller ((hcore.dst_child ha).src_child hb) (Nat.add_lt_add (hdst ha) (hsrc hb))
      · cases hg
        have hmem : y ∈ (Form.optional y).children := List.mem_singleton.2 rfl
        obtain ⟨r, r', hcommutes⟩ := exists_commutes_of_optional hy hA hcore.symm
          (hsmaller (hcore.symm.dst_child hmem) (by rw [Nat.add_comm, hsize]; exact Nat.add_lt_add_left (hsrc hmem) _))
        exact ⟨r', r, hcommutes.symm⟩
    · cases hf
      have hmem : x ∈ (Form.optional x).children := List.mem_singleton.2 rfl
      rcases hcore.elementary.2.cases with hB | ⟨y, hg, hy⟩
      · exact exists_commutes_of_optional hx hB hcore
          (hsmaller (hcore.dst_child hmem) (by rw [hsize']; exact Nat.add_lt_add_right (hdst hmem) _))
      · cases hg
        have hmem' : y ∈ (Form.optional y).children := List.mem_singleton.2 rfl
        exact exists_commutes_of_optionals hx hy hcore
          (hsmaller ((hcore.dst_child hmem).src_child hmem') (Nat.add_lt_add (hdst hmem) (hsrc hmem')))

/-- Two elementary trees are absorbed with success in either order, and the results have one digest. -/
theorem absorb_comm (hA : A.Elementary) (hB : B.Elementary) (hAo : A.Ordered) (hBo : B.Ordered) (hAl : A.Labelled)
    (hBl : B.Labelled) (hallow : limits.mapInference.Allow (A.fieldCount + B.fieldCount)) :
    ∃ r r', absorb limits A B = .ok r ∧ absorb limits B A = .ok r' ∧ r.canon.digest = r'.canon.digest := by
  obtain ⟨r, r', h⟩ := exists_commutes ⟨⟨hA, hB⟩, ⟨hAo, hBo⟩, ⟨hAl, hBl⟩, hallow⟩
  exact ⟨r, r', h.left, h.right, h.same.digest⟩

end

/-- Two observations of one record: a field that conflicts, and a field that one of them lacks. -/
def account : Schema :=
  Schema.ofFields [("id", Schema.ofType .int32), ("name", Schema.ofOptional (Schema.ofElems [Schema.ofType .string]))]

/-- A record without a name, whose `id` is a text. -/
def visitor : Schema := Schema.ofFields [("id", Schema.ofType .string)]

theorem throughout_account {P : Schema → Prop} (hroot : P account)
    (hname : P (Schema.ofOptional (Schema.ofElems [Schema.ofType .string])))
    (hlist : P (Schema.ofElems [Schema.ofType .string])) (htype : ∀ t, P (Schema.ofType t)) : account.Throughout P := by
  refine .intro hroot fun s hs => ?_
  rcases List.mem_cons.1 hs with rfl | hs
  · exact .of_primitive rfl (htype _)
  · obtain rfl := List.mem_singleton.1 hs
    refine .intro hname fun s hs => ?_
    obtain rfl := List.mem_singleton.1 hs
    refine .intro hlist fun s hs => ?_
    obtain rfl := List.mem_singleton.1 hs
    exact .of_primitive rfl (htype _)

theorem throughout_visitor {P : Schema → Prop} (hroot : P visitor) (htype : ∀ t, P (Schema.ofType t)) :
    visitor.Throughout P := by
  refine .intro hroot fun s hs => ?_
  obtain rfl := List.mem_singleton.1 hs
  exact .of_primitive rfl (htype _)

/-- The pair meets at a conflict of two types, and one side lacks a field that is optional on the other. -/
theorem absorb_comm_account_visitor :
    (account.Elementary ∧ visitor.Elementary ∧ account.Ordered ∧ visitor.Ordered ∧ account.Labelled ∧ visitor.Labelled ∧
      ({} : Limits).mapInference.Allow (account.fieldCount + visitor.fieldCount)) ∧
      ∃ r r', absorb {} account visitor = .ok r ∧ absorb {} visitor account = .ok r' ∧
        r.canon.digest = r'.canon.digest := by
  have helementary : account.Elementary :=
    throughout_account ⟨rfl, rfl⟩ ⟨rfl, rfl⟩ ⟨Nat.le_refl 1, rfl⟩ fun t => ⟨rfl, rfl⟩
  have helementary' : visitor.Elementary := throughout_visitor ⟨rfl, rfl⟩ fun t => ⟨rfl, rfl⟩
  have hsorted : Table.Sorted [("id", Schema.ofType .int32),
      ("name", Schema.ofOptional (Schema.ofElems [Schema.ofType .string]))] := by
    unfold Table.Sorted
    decide
  have hordered : account.Ordered := throughout_account hsorted trivial trivial fun _ => trivial
  have hordered' : visitor.Ordered := throughout_visitor (List.pairwise_singleton _ _) fun _ => trivial
  have hlabelled : account.Labelled := throughout_account trivial trivial trivial fun _ => .nil
  have hlabelled' : visitor.Labelled := throughout_visitor trivial fun _ => .nil
  have hallow : ({} : Limits).mapInference.Allow (account.fieldCount + visitor.fieldCount) := by
    constructor <;> decide
  exact ⟨⟨helementary, helementary', hordered, hordered', hlabelled, hlabelled', hallow⟩,
    absorb_comm helementary helementary' hordered hordered' hlabelled hlabelled' hallow⟩

/-! ## Three trees -/

theorem address_int32 :
    (Schema.ofType .int32).address = "713d7bd16b8b929c73ba04fc93318ed6dad809ecc2295b5936b9c7359614fe8e" := by
  unfold Schema.address
  decide +kernel

theorem address_uint64_conflict_int32 : ((Schema.ofType .uint64).conflict (Schema.ofType .int32)).address =
    "34d4d965c532fee3687ce3046865249ad4f52880e99de5c1fe9434e4e41581c7" := by
  have hcanon : ((Schema.ofType .uint64).conflict (Schema.ofType .int32)).canon = .message [(5, .message
      [(1, .set [(Schema.ofType .uint64).canon, (Schema.ofType .int32).canon]), (2, .bool true)])] := by
    rw [conflict_ofType (by rw [address_uint64, address_int32]; decide)]
    rfl
  unfold Schema.address Canon.digest
  rw [hcanon]
  simp only [Canon.preimage, Canon.fieldDigests, Canon.itemDigests, sortedConcat_eq_insertionSort]
  decide +kernel

/--
A `uint32` joins the integers of either sign, which do not join each other. The two kinds of integers that are left
depend on the one that it is absorbed with first.
-/
theorem absorb_order_integers : ∃ r r',
    [Schema.ofType .uint32, Schema.ofType .uint64].foldlM (absorb {}) (Schema.ofType .int32) = .ok r ∧
      [Schema.ofType .uint64, Schema.ofType .int32].foldlM (absorb {}) (Schema.ofType .uint32) = .ok r' ∧
        r.canon.digest ≠ r'.canon.digest := by
  have hswap : ((Schema.ofType .int64).conflict (Schema.ofType .uint64)).SameDigest
      ((Schema.ofType .uint64).conflict (Schema.ofType .int64)) := Schema.conflict_sameDigest rfl
  refine ⟨(Schema.ofType .int64).conflict (Schema.ofType .uint64),
    (Schema.ofType .uint64).conflict (Schema.ofType .int32), rfl, rfl, ?_⟩
  rw [hswap.digest]
  apply Schema.digest_ne_of_address_ne
  rw [conflict_numbers, address_numbers, address_uint64_conflict_int32]
  decide

/-- A primitive with an observed value. -/
def Schema.ofScalar (v : Scalar) : Schema := ofPrimitive { value := v }

/--
Two integers that differ are kept as no value. The first of them is rounded when it is widened to a float, and then
agrees with one that the second agrees with too, so that a value is kept when the float comes between them.
-/
theorem absorb_order_rounding : ∃ r r',
    [Schema.ofScalar (.int32 16777216), Schema.ofScalar (.float (Binary.ofInt 16777216))].foldlM (absorb {})
        (Schema.ofScalar (.int32 16777217)) = .ok r ∧
      [Schema.ofScalar (.float (Binary.ofInt 16777216)), Schema.ofScalar (.int32 16777216)].foldlM (absorb {})
          (Schema.ofScalar (.int32 16777217)) = .ok r' ∧
        r.canon.digest ≠ r'.canon.digest := by
  refine ⟨Schema.ofType .float, Schema.ofScalar (.float (Binary.ofInt 16777216)), rfl, rfl, ?_⟩
  apply Schema.digest_ne_of_address_ne
  decide +kernel

end ApiShape

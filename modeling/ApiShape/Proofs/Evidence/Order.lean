/-
The order of accumulation. Without a collision of addresses a run only adds the bag of its source to that of its
destination, so that what witnesses are accumulated to has a digest that their order does not decide.
-/
import ApiShape.Proofs.Evidence.Absorb
import ApiShape.Proofs.Evidence.Unique

namespace ApiShape

variable {types : List BaseType} {limits : Limits} {dst src r r' first first' : Schema} {rest rest' : List Schema}

/-! ## Runs -/

/-- A run without a collision offers the shapes of both trees. -/
theorem absorbWithin_pools (hT : BaseType.Coherent types) {depth : Nat} (h : absorbWithin limits depth dst src = .ok r)
    (hfree : CollisionFree limits depth dst src) : Pools types limits dst src r := by
  induction depth generalizing dst src r with
  | zero => cases h
  | succ depth ih =>
    have hstep : Step (YieldsPool types limits (absorbWithin limits depth)) limits dst src r :=
      step_of_ok src h fun d s r hc hr => ⟨hr, ih hr (hfree.call hc)⟩
    exact hstep.pools hT fun a b hab => hfree.canon_eq hab

/-- What witnesses are accumulated to stands for all of them. -/
theorem stands_of_foldlM (hT : BaseType.Coherent types) (hw : ∀ s ∈ first :: rest, s.Witness types)
    (h : rest.foldlM (absorb limits) first = .ok r)
    (hfree : ∀ d s, FoldCalls (absorb limits) first rest d s → CollisionFree limits (depthBound d s) d s) :
    Stands limits (first :: rest : List Schema) False r := by
  have hfolds : Folds (Pools types limits) first rest r :=
    folds_of_foldlM h fun d s r hc hr => absorbWithin_pools hT hr (hfree d s hc)
  have hfirst : ∀ t ∈ ({first} : Multiset Schema), t.Witness types := fun t ht =>
    hw t (by rw [Multiset.mem_singleton.1 ht]; exact List.mem_cons_self)
  have hbags : ∀ bag ∈ rest.map (fun s => ({s} : Multiset Schema)), ∀ t ∈ bag, t.Witness types := fun bag hbag t ht => by
    obtain ⟨s, hs, rfl⟩ := List.mem_map.1 hbag
    exact hw t (by rw [Multiset.mem_singleton.1 ht]; exact List.mem_cons_of_mem _ hs)
  have halone : List.Forall₂ (fun bag t => Stands limits bag False t) (rest.map (fun s => ({s} : Multiset Schema))) rest := by
    rw [List.forall₂_map_left_iff, List.forall₂_same]
    exact fun s _ => .alone limits s
  have hstands := hfolds.stands hfirst hbags (.alone limits first) halone
  rwa [sum_singletons, Multiset.singleton_add, Multiset.cons_coe] at hstands

/-! ## Order -/

/--
Order independence of accumulation. Among coherent base types, on which the join is a least upper bound, and
values that are exact in every type that they can be joined to, two orders of the same witnesses that both
succeed give trees of one digest, unless two nodes of different shape whose addresses were compared on the way
have the same address.
-/
theorem digest_absorb_perm (hT : BaseType.Coherent types) (hperm : (first :: rest).Perm (first' :: rest'))
    (hw : ∀ s ∈ first :: rest, s.Witness types) (h : rest.foldlM (absorb limits) first = .ok r)
    (h' : rest'.foldlM (absorb limits) first' = .ok r')
    (hfree : ∀ d s, FoldCalls (absorb limits) first rest d s → CollisionFree limits (depthBound d s) d s)
    (hfree' : ∀ d s, FoldCalls (absorb limits) first' rest' d s → CollisionFree limits (depthBound d s) d s) :
    r.canon.digest = r'.canon.digest := by
  have hstands := stands_of_foldlM hT hw h hfree
  have hstands' := stands_of_foldlM hT (fun s hs => hw s (hperm.mem_iff.2 hs)) h' hfree'
  rw [← Multiset.coe_eq_coe.2 hperm] at hstands'
  exact hstands.digest_eq hT (fun t ht => hw t ht) hstands'

/-- The pairs of a fold are the first one and those of the rest. -/
theorem FoldCalls.of_cons {absorb : Absorber} {acc s d t : Schema} (h : FoldCalls absorb acc (s :: rest) d t) :
    d = acc ∧ t = s ∨ ∃ mid, absorb acc s = .ok mid ∧ FoldCalls absorb mid rest d t := by
  obtain ⟨pre, post, hl, hpre⟩ := h
  cases pre with
  | nil =>
    cases hl
    cases hpre
    exact .inl ⟨rfl, rfl⟩
  | cons x pre =>
    cases hl
    rw [List.foldlM_cons] at hpre
    obtain ⟨mid, hmid, hpre⟩ := bind_eq_ok.1 hpre
    exact .inr ⟨mid, hmid, pre, post, rfl, hpre⟩

/-- Primitives that join are absorbed without a look at any address. -/
theorem collisionFree_of_joinable (limits : Limits) (depth : Nat) {p q : Primitive} (h : p.joinable q = true) :
    CollisionFree limits depth (Schema.ofPrimitive p) (Schema.ofPrimitive q) := by
  intro a b hcompared
  cases hcompared with
  | here hab =>
    cases hab with
    | optional hs => cases hs
    | conflict _ _ hagrees =>
      rw [show (Schema.ofPrimitive p).agrees (Schema.ofPrimitive q) = p.joinable q from rfl, h] at hagrees
      cases hagrees
    | option _ hd => cases hd
  | call hc =>
    cases hc with
    | optional hs => cases hs
    | swap hs => cases hs
    | alternatives hs => cases hs
    | plain _ hc =>
      cases hc with
      | record hd => cases hd
      | list hd => cases hd
      | inner hd => cases hd
      | option hd => cases hd

/-- Numbers of three types in two orders. -/
theorem digest_absorb_perm_numbers : ∃ r r',
    [Schema.ofType .int64, Schema.ofType .double].foldlM (absorb {}) (Schema.ofType .int32) = .ok r ∧
      [Schema.ofType .int32, Schema.ofType .int64].foldlM (absorb {}) (Schema.ofType .double) = .ok r' ∧
        r.canon.digest = r'.canon.digest := by
  -- Two numbers that are absorbed one after the other, each of a type that joins.
  have hfree : ∀ t u v m : BaseType, absorb {} (Schema.ofType t) (Schema.ofType u) = .ok (Schema.ofType m) →
      (Primitive.ofType t).joinable (Primitive.ofType u) = true → (Primitive.ofType m).joinable (Primitive.ofType v) = true →
        ∀ d s, FoldCalls (absorb {}) (Schema.ofType t) [Schema.ofType u, Schema.ofType v] d s →
          CollisionFree {} (depthBound d s) d s := by
    intro t u v m hrun htu hmv d s h
    rcases h.of_cons with ⟨rfl, rfl⟩ | ⟨mid, hmid, h⟩
    · exact collisionFree_of_joinable {} _ htu
    · obtain rfl := Except.ok.inj (hmid.symm.trans hrun)
      rcases h.of_cons with ⟨rfl, rfl⟩ | ⟨_, -, pre, post, hnil, -⟩
      · exact collisionFree_of_joinable {} _ hmv
      · cases pre <;> cases hnil
  have hw : ∀ s ∈ [Schema.ofType .int32, Schema.ofType .int64, Schema.ofType .double],
      s.Witness [.bool, .bytes, .string, .int32, .int64, .uint64, .float, .double] := by
    intro s hs
    simp only [List.mem_cons, List.not_mem_nil, or_false] at hs
    rcases hs with rfl | rfl | rfl <;> exact .ofType (by decide)
  exact ⟨Schema.ofType .double, Schema.ofType .double, rfl, rfl,
    digest_absorb_perm BaseType.coherent_of_no_uint32 (List.perm_append_singleton _ [Schema.ofType .int32, Schema.ofType .int64])
      hw rfl rfl (hfree _ _ _ .int64 rfl (by decide) (by decide)) (hfree _ _ _ .double rfl (by decide) (by decide))⟩

end ApiShape

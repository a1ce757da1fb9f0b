/-
A bag decides the digest of whatever sums it up: two nodes that stand for one bag have one digest. The
induction is on the first of two summaries; the other one is of the same kind, and their parts stand for the
same nodes.
-/
import ApiShape.Proofs.Evidence.Nodes
import ApiShape.Proofs.Schema.Identity

namespace ApiShape

variable {types : List BaseType} {limits : Limits} {vs g : Multiset Form} {seen : Multiset Schema} {missing : Prop}
  {s s' : Schema} {f f' : Form}

/-! ## Layers -/

/-- The digest of a node with the shape below its layers and their flags. -/
theorem Schema.Regular.digest_eq (h : s.Regular) (h' : s'.Regular) (hcore : s.core.form.SameDigest s'.core.form)
    (hopt : s.isOptional = s'.isOptional) (hnull : s.nullable = s'.nullable) (hbare : s.isOptional = true → s.core.nullable = false)
    (hbare' : s'.isOptional = true → s'.core.nullable = false) : s.canon.digest = s'.canon.digest := by
  have hmetadata : s.metadata = s'.metadata := h.metadata.trans h'.metadata.symm
  cases hs : s.isOptional with
  | false =>
    rw [core_of_isOptional_eq hs, core_of_isOptional_eq (hopt ▸ hs)] at hcore
    exact Schema.digest_congr hcore hnull hmetadata
  | true =>
    have hs' : s'.isOptional = true := hopt ▸ hs
    have hinner : s.core.canon.digest = s'.core.canon.digest :=
      Schema.digest_congr hcore ((hbare hs).trans (hbare' hs').symm) (h.inner.trans h'.inner.symm)
    have hform : ∀ {t : Schema}, t.Regular → t.isOptional = true → t.form = .optional t.core := by
      intro t ht htopt
      rcases t.core_cases with ⟨inner, hform, hcore⟩ | ⟨-, hcore⟩
      · rw [hform, hcore]
      · rw [← hcore, ht.present] at htopt
        cases htopt
    exact Schema.digest_congr (by rw [hform h hs, hform h' hs']; exact .optional hinner) hnull hmetadata

theorem Schema.IsBare.digest_eq (h : s.IsBare) (h' : s'.IsBare) (hform : s.form.SameDigest s'.form) :
    s.canon.digest = s'.canon.digest :=
  Schema.digest_congr hform (h.nullable.trans h'.nullable.symm) (h.metadata.trans h'.metadata.symm)

/-! ## Nodes that offer one bag -/

section

variable (hT : BaseType.Coherent types)

include hT

/-- Alternatives stand for several classes, a plain shape for one. -/
theorem Offers.isPlain_core (hvs : Witnessed types vs) (h : Offers limits vs s) (h' : Offers limits vs s')
    (hplain : s.core.form.isPlain = true) : s'.core.form.isPlain = true := by
  rcases h'.regular.cases with ⟨hplain', -⟩ | ⟨options, hform, hreduced, hne, hvariants⟩
  · exact hplain'
  · have hsingle : s.variants = [s.core.form] := by
      rcases h.regular.cases with ⟨-, hvariants⟩ | ⟨_, hform, -⟩
      · exact hvariants
      · rw [hform] at hplain
        cases hplain
    have hclass : ∀ v ∈ s'.variants, agreeing vs v = agreeing vs s.core.form := by
      intro v hv
      obtain ⟨w, hw, heq⟩ := h'.agreeing_eq hT hvs h hv
      rw [hsingle] at hw
      rw [← heq, List.mem_singleton.1 hw]
    match options, hne, hreduced.length, hvariants with
    | [_], _, hlength, _ => exact absurd rfl hlength
    | a :: b :: rest, _, _, hvariants =>
      -- The first two options are one variant then, but they stand apart.
      have ha : a.2.form ∈ s'.variants := by rw [hvariants]; exact List.mem_cons_self
      have hb : b.2.form ∈ s'.variants := by rw [hvariants]; exact List.mem_cons_of_mem _ List.mem_cons_self
      obtain ⟨c, hc⟩ := (h'.summary _ ha).exists_mem
      have hcb : c ∈ agreeing vs b.2.form := by rwa [hclass _ hb, ← hclass _ ha]
      obtain ⟨hcvs, hca⟩ := mem_agreeing.1 hc
      have heq := h'.unique hT hvs ha hb hcvs hca (mem_agreeing.1 hcb).2
      have hapart := h'.regular.pairwise
      rw [hvariants] at hapart
      have hfalse : a.2.form.agrees b.2.form = false := (List.pairwise_cons.1 hapart).1 _ List.mem_cons_self
      rw [← heq, Form.agrees_self (h'.regular.isPlain _ ha)] at hfalse
      cases hfalse

/-- Two nodes that offer one bag have the same classes, and one digest when the summaries of the classes do. -/
theorem Offers.sameDigest_core (hvs : Witnessed types vs) (h : Offers limits vs s) (h' : Offers limits vs s')
    (hkids : ∀ v ∈ s.variants, ∀ v', Summary limits (agreeing vs v) v' → v.SameDigest v') :
    s.core.form.SameDigest s'.core.form := by
  have hclass : ∀ v ∈ s.variants, ∀ v' ∈ s'.variants, agreeing vs v' = agreeing vs v → v.SameDigest v' := by
    intro v hv v' hv' heq
    refine hkids v hv v' ?_
    rw [← heq]
    exact h'.summary v' hv'
  rcases h.regular.cases with ⟨hplain, hvariants⟩ | ⟨options, hform, hreduced, -, hvariants⟩
  · have hplain' := h.isPlain_core hT hvs h' hplain
    have hvariants' : s'.variants = [s'.core.form] := by
      rcases h'.regular.cases with ⟨-, hvariants⟩ | ⟨_, hform, -⟩
      · exact hvariants
      · rw [hform] at hplain'
        cases hplain'
    have hv : s.core.form ∈ s.variants := by rw [hvariants]; exact List.mem_cons_self
    obtain ⟨v', hv', heq⟩ := h.agreeing_eq hT hvs h' hv
    have hdigest := hclass _ hv v' hv' heq
    rw [hvariants'] at hv'
    rwa [List.mem_singleton.1 hv'] at hdigest
  · -- the other node is alternatives too, or both would be plain
    obtain ⟨options', hform', hreduced', hvariants'⟩ : ∃ options', s'.core.form = .oneOf options' true ∧
        Catalogue.Reduced options' ∧ s'.variants = (Table.values options').map Schema.form := by
      rcases h'.regular.cases with ⟨hplain', -⟩ | ⟨options', hform', hreduced', -, hvariants'⟩
      · have hplain := h'.isPlain_core hT hvs h hplain'
        rw [hform] at hplain
        cases hplain
      · exact ⟨options', hform', hreduced', hvariants'⟩
    rw [hform, hform']
    refine .oneOf true hreduced.fresh hreduced'.fresh (fun t ht => ?_) fun t' ht' => ?_
    · have hv : t.form ∈ s.variants := by rw [hvariants]; exact List.mem_map_of_mem ht
      obtain ⟨v', hv', heq⟩ := h.agreeing_eq hT hvs h' hv
      have hdigest := hclass _ hv v' hv' heq
      rw [hvariants'] at hv'
      obtain ⟨t', ht', rfl⟩ := List.mem_map.1 hv'
      exact ⟨t', ht', (hreduced.bare t ht).digest_eq (hreduced'.bare t' ht') hdigest⟩
    · have hv' : t'.form ∈ s'.variants := by rw [hvariants']; exact List.mem_map_of_mem ht'
      obtain ⟨v, hv, heq⟩ := h'.agreeing_eq hT hvs h hv'
      have hdigest := hclass v hv _ hv' heq.symm
      rw [hvariants] at hv
      obtain ⟨t, ht, rfl⟩ := List.mem_map.1 hv
      exact ⟨t, ht, (hreduced.bare t ht).digest_eq (hreduced'.bare t' ht') hdigest⟩

/-- Two nodes that stand for one bag have one digest when the summaries of its classes do. -/
theorem Stands.digest_of_summaries (hw : ∀ t ∈ seen, t.Witness types) (h : Stands limits seen missing s)
    (h' : Stands limits seen missing s') (hkids : 2 ≤ seen.card → ∀ v ∈ s.variants, ∀ v',
      Summary limits (agreeing (variantsSeen seen) v) v' → v.SameDigest v') : s.canon.digest = s'.canon.digest := by
  rcases h.cases with ⟨t, rfl, hs⟩ | hseveral
  · obtain ⟨hmissing, hpresent⟩ := h'.outline.alone t rfl
    rcases hs with ⟨hm, rfl⟩ | ⟨hm, rfl⟩
    · rw [hmissing hm]
    · rw [hpresent hm]
  · have hflags := h.outline.flags hseveral
    have hflags' := h'.outline.flags hseveral
    refine (h.outline.regular hseveral).digest_eq (h'.outline.regular hseveral) ?_ ?_ ?_ hflags.bare hflags'.bare
    · exact (h.offers hw).sameDigest_core hT (.of_seen hw) (h'.offers hw) (hkids hseveral)
    · exact Bool.eq_iff_iff.2 (hflags.optional.trans hflags'.optional.symm)
    · exact Bool.eq_iff_iff.2 (hflags.nullable.trans hflags'.nullable.symm)

end

/-! ## Summaries of one bag -/

/-- Two records with the names seen have one digest when their fields do. -/
theorem Sums.record_digest {fields fields' : Table Schema} (hs : Table.Sorted fields) (hs' : Table.Sorted fields')
    (hseen : ∀ name, Table.find? fields name = none ↔ fieldsSeen g name = 0)
    (hseen' : ∀ name, Table.find? fields' name = none ↔ fieldsSeen g name = 0)
    (hkids : ∀ name t t', Table.find? fields name = some t → Table.find? fields' name = some t' →
      t.canon.digest = t'.canon.digest) : (Form.record fields none).SameDigest (.record fields' none) := by
  have hrow : ∀ {t t' : Table Schema}, Table.Sorted t → (∀ name, Table.find? t name = none ↔ fieldsSeen g name = 0) →
      (∀ name, Table.find? t' name = none ↔ fieldsSeen g name = 0) → ∀ row ∈ t, ∃ u, Table.find? t' row.1 = some u := by
    intro t t' ht hseen hseen' row hrow
    refine Option.ne_none_iff_exists'.1 fun hnone => ?_
    have hfind := ht.find?_eq (k := row.1) (a := row.2) hrow
    rw [(hseen row.1).2 ((hseen' row.1).1 hnone)] at hfind
    cases hfind
  refine .record (forall₂_of_sorted (R := fun t t' => t.canon.digest = t'.canon.digest) hs hs' (fun row hmem => ?_)
    fun row' hmem => ?_) rfl
  · obtain ⟨t', ht'⟩ := hrow hs hseen hseen' row hmem
    exact ⟨_, Table.mem_of_find? ht', rfl, hkids row.1 row.2 t' (hs.find?_eq hmem) ht'⟩
  · obtain ⟨t, ht⟩ := hrow hs' hseen' hseen row' hmem
    exact ⟨_, Table.mem_of_find? ht, rfl⟩

theorem slot_rel {slot slot' : Option Schema} {p : Prop} (h : slot = none ↔ p) (h' : slot' = none ↔ p)
    (hkids : ∀ t t', slot = some t → slot' = some t' → t.canon.digest = t'.canon.digest) :
    Option.Rel (fun t t' => t.canon.digest = t'.canon.digest) slot slot' := by
  cases slot with
  | none =>
    rw [h'.2 (h.1 rfl)]
    exact .none
  | some t =>
    cases slot' with
    | none => cases h.2 (h'.1 rfl)
    | some t' => exact .some (hkids t t' rfl rfl)

/-- Summaries of one bag have one digest. -/
theorem Summary.sameDigest (hT : BaseType.Coherent types) (h : Summary limits g f) (hg : Witnessed types g)
    (h' : Summary limits g f') : f.SameDigest f' := by
  induction h generalizing f' with
  | single f =>
    obtain rfl := Multiset.singleton_inj.1 (h'.eq_single (by simp))
    exact .refl f
  | @merged g f hseveral hagrees hsums houtline hparts ih =>
    cases h' with
    | single => simp at hseveral
    | merged _ hagrees' hsums' houtline' hparts' =>
      have hnode : ∀ {seen missing t t'}, Part g f seen missing t → Part g f' seen missing t' →
          t.canon.digest = t'.canon.digest := by
        intro seen missing t t' hp hp'
        exact Stands.digest_of_summaries hT (hp.witness hT hg) ⟨houtline _ _ _ hp, hparts _ _ _ hp⟩
          ⟨houtline' _ _ _ hp', hparts' _ _ _ hp'⟩ fun hcard v hv v' hv' =>
            ih _ _ _ hp hcard v hv ((Witnessed.of_seen (hp.witness hT hg)).agreeing v) hv'
      obtain ⟨c, hc⟩ := Multiset.card_pos_iff_exists_mem.1 (show 0 < g.card by omega)
      have hkind := hagrees c hc
      have hkind' := hagrees' c hc
      cases hsums with
      | primitive hp =>
        obtain ⟨q, rfl, -⟩ := Form.agrees_primitive hkind
        cases hsums' with
        | primitive hp' => exact ⟨rfl, (hp.alike hT hp' hg.primitives).digest⟩
        | record | map | list => cases hkind'
      | record hs hseen hnot =>
        obtain ⟨_, _, rfl⟩ := Form.agrees_record hkind
        cases hsums' with
        | record hs' hseen' =>
          exact Sums.record_digest hs hs' hseen hseen' fun name t t' ht ht' => hnode (.field ht) (.field ht')
        | map htaken => exact absurd htaken hnot
        | primitive | list => cases hkind'
      | map htaken hkey hvalue =>
        obtain ⟨_, _, rfl⟩ := Form.agrees_record hkind
        cases hsums' with
        | map _ hkey' hvalue' =>
          refine .record .nil (digest_canonMapping (R := fun t t' => t.canon.digest = t'.canon.digest) ?_ ?_
            fun _ _ _ _ heq => heq)
          · exact slot_rel hkey hkey' fun t t' ht ht' => hnode (.key ht) (.key ht')
          · exact slot_rel hvalue hvalue' fun t t' ht ht' => hnode (.value ht) (.value ht')
        | record _ _ hnot => exact absurd htaken hnot
        | primitive | list => cases hkind'
      | @list elems hlength hnil =>
        obtain ⟨_, rfl⟩ := Form.agrees_list hkind
        cases hsums' with
        | @list elems' hlength' hnil' =>
          match elems, elems', hlength, hlength' with
          | [], [], _, _ => exact .refl _
          | [], _ :: _, _, _ => cases hnil'.2 (hnil.1 rfl)
          | _ :: _, [], _, _ => cases hnil.2 (hnil'.1 rfl)
          | [t], [t'], _, _ => exact .list (.cons (hnode (.element t) (.element t')) .nil)
        | primitive | record | map => cases hkind'

/-- Nodes that stand for one bag have one digest. -/
theorem Stands.digest_eq (hT : BaseType.Coherent types) (hw : ∀ t ∈ seen, t.Witness types)
    (h : Stands limits seen missing s) (h' : Stands limits seen missing s') : s.canon.digest = s'.canon.digest :=
  h.digest_of_summaries hT hw h' fun hcard v hv _ hv' =>
    (h.summary hcard v hv).sameDigest hT ((Witnessed.of_seen hw).agreeing v) hv'

end ApiShape

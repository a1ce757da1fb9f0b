/-
The digest of a tree identifies its structure. Trees of one structure have one digest, and trees with
one digest have one structure unless two of the byte strings that were hashed for them collide.
-/
import ApiShape.Proofs.Digest.Agree
import ApiShape.Proofs.Keys.Basic
import ApiShape.Proofs.Schema.Alike
import Mathlib.Data.List.Perm.Basic

namespace ApiShape

/-! ## Lists in order -/

/-- A weaker relation has to hold for members only. -/
theorem forall₂_imp_mem {α β : Type} {R S : α → β → Prop} {l : List α} {l' : List β} (h : List.Forall₂ R l l')
    (hRS : ∀ a ∈ l, ∀ b ∈ l', R a b → S a b) : List.Forall₂ S l l' := by
  induction h with
  | nil => exact .nil
  | cons hab _ ih =>
    exact .cons (hRS _ List.mem_cons_self _ List.mem_cons_self hab)
      (ih fun a ha b hb => hRS a (List.mem_cons_of_mem _ ha) b (List.mem_cons_of_mem _ hb))

theorem optionRel_imp_mem {α β : Type} {R S : α → β → Prop} {a : Option α} {b : Option β} (h : Option.Rel R a b)
    (hRS : ∀ x ∈ a, ∀ y ∈ b, R x y → S x y) : Option.Rel S a b := by
  cases h with
  | none => exact .none
  | some h => exact .some (hRS _ rfl _ rfl h)

/-! ## One structure, one digest -/

section

open Canon

theorem isZero_eq_of_normalized {x y : Binary64} (h : x.normalized = y.normalized) : x.isZero = y.isZero := by
  rcases (Binary.normalized_eq_iff (by decide)).1 h with h | ⟨hx, hy⟩
  · unfold Binary.isZero
    rw [Binary.code_eq_of_same h]
  · have hzero : ∀ z : Binary64, z.isNaN = true → z.isZero = false := by
      intro z hz
      have hcode : BinaryFormat.double.infinityCode < z.code := of_decide_eq_true hz
      exact decide_eq_false (by omega)
    rw [hzero x hx, hzero y hy]

theorem optionalField_float_congr {x y : Binary64} (h : x.normalized = y.normalized) :
    fieldDigests (optionalField 1 (.float x)) = fieldDigests (optionalField 1 (.float y)) := by
  have hfield : ∀ z : Binary64, optionalField 1 (.float z) = if z.isZero then [] else [(1, .float z)] := fun _ => rfl
  rw [hfield, hfield, isZero_eq_of_normalized h]
  split
  · rfl
  · have hpre : (Canon.float x).preimage = (Canon.float y).preimage := by
      unfold preimage
      rw [h]
    rw [fieldDigests_eq, fieldDigests_eq]
    simp only [List.map_cons, List.map_nil, digest, hpre]

theorem Scalar.Alike.canonField {s t : Scalar} (h : s.Alike t) : s.canonField.1 = t.canonField.1 ∧
    fieldDigests (optionalField 1 s.canonField.2) = fieldDigests (optionalField 1 t.canonField.2) := by
  unfold Scalar.Alike at h
  split at h
  · exact ⟨rfl, optionalField_float_congr (Binary.normalized_convert_eq_iff.2 h)⟩
  · exact ⟨rfl, optionalField_float_congr ((Binary.normalized_eq_iff (by decide)).2 h)⟩
  · rw [h]
    exact ⟨rfl, rfl⟩

theorem digest_message_congr {l l' : List (Nat × Canon)} (h : fieldDigests l = fieldDigests l') :
    (Canon.message l).digest = (Canon.message l').digest := by
  unfold digest preimage
  rw [h]

theorem fieldDigests_append (l l' : List (Nat × Canon)) : fieldDigests (l ++ l') = fieldDigests l ++ fieldDigests l' := by
  rw [fieldDigests_eq, fieldDigests_eq, fieldDigests_eq, List.map_append]

theorem fieldDigests_singleton {n : Nat} {c d : Canon} (h : c.digest = d.digest) :
    fieldDigests [(n, c)] = fieldDigests [(n, d)] := by
  rw [fieldDigests_eq, fieldDigests_eq]
  simp only [List.map_cons, List.map_nil, h]

theorem Primitive.Alike.digest {p q : Primitive} (h : p.Alike q) : p.canon.digest = q.canon.digest := by
  obtain ⟨hnumber, hvalue⟩ := h.value.canonField
  unfold Primitive.canon
  refine digest_message_congr ?_
  simp only [fieldDigests_append, h.formatKind, h.formats, h.typeHint, hnumber]
  rw [fieldDigests_singleton (digest_message_congr hvalue)]

theorem fieldDigests_members {n : Nat} {c d : Canon} {b : Bool} (h : c.digest = d.digest) :
    fieldDigests (canonMembers n c b) = fieldDigests (canonMembers n d b) := by
  cases b
  · exact fieldDigests_singleton h
  · rfl

variable {s t : Schema}

/-- Shapes that are hashed in one way: in one field, and with one digest. -/
structure Form.SameDigest (f g : Form) : Prop where
  number : f.canonField.1 = g.canonField.1
  digest : f.canonField.2.digest = g.canonField.2.digest

/-- The form of a node decides its digest together with what surrounds it. -/
theorem Schema.digest_congr (hform : s.form.SameDigest t.form) (hnull : s.nullable = t.nullable)
    (hmetadata : s.metadata = t.metadata) : s.canon.digest = t.canon.digest := by
  obtain ⟨form, nullable, metadata, examples⟩ := s
  obtain ⟨form', nullable', metadata', examples'⟩ := t
  cases hnull
  cases hmetadata
  obtain ⟨hnumber, hdigest⟩ := hform
  unfold Schema.canon
  refine digest_message_congr ?_
  rw [fieldDigests_eq, fieldDigests_eq, List.map_cons, List.map_cons]
  dsimp only at hnumber hdigest
  rw [hnumber, hdigest]

theorem canonElems_eq (elems : List Schema) : canonElems elems = elems.map Schema.canon := by
  induction elems with
  | nil => rfl
  | cons s rest ih =>
    unfold canonElems
    rw [ih]
    rfl

theorem canonFields_eq (fields : Table Schema) :
    canonFields fields = fields.map (fun row => (Canon.text row.1, row.2.canon)) := by
  induction fields with
  | nil => rfl
  | cons row rest ih =>
    obtain ⟨name, s⟩ := row
    unfold canonFields
    rw [ih]
    rfl

theorem rowDigests_canonFields {fields fields' : Table Schema}
    (h : List.Forall₂ (fun r r' => r.1 = r'.1 ∧ r.2.canon.digest = r'.2.canon.digest) fields fields') :
    rowDigests (canonFields fields) = rowDigests (canonFields fields') := by
  rw [rowDigests_eq, rowDigests_eq, canonFields_eq, canonFields_eq]
  induction h with
  | nil => rfl
  | cons hrow _ ih =>
    simp only [List.map_cons, hrow.1, hrow.2]
    exact congrArg _ ih

theorem itemDigests_canonElems {elems elems' : List Schema}
    (h : List.Forall₂ (fun s t => s.canon.digest = t.canon.digest) elems elems') :
    itemDigests (canonElems elems) = itemDigests (canonElems elems') := by
  rw [itemDigests_eq, itemDigests_eq, canonElems_eq, canonElems_eq]
  induction h with
  | nil => rfl
  | cons hrow _ ih =>
    simp only [List.map_cons, hrow]
    exact congrArg _ ih

/-- Options under fresh keys are determined, up to their digests, by the set of their digests. -/
theorem itemDigests_canonOptions {options options' : Catalogue} (hf : options.Fresh) (hf' : options'.Fresh)
    (hsub : ∀ s ∈ Table.values options, ∃ t ∈ Table.values options', s.canon.digest = t.canon.digest)
    (hsup : ∀ t ∈ Table.values options', ∃ s ∈ Table.values options, s.canon.digest = t.canon.digest) :
    itemDigests (canonOptions options) = itemDigests (canonOptions options') := by
  have hkeys : ∀ {c c' : Catalogue}, c.Fresh → c'.Fresh →
      (∀ s ∈ Table.values c, ∃ t ∈ Table.values c', s.canon.digest = t.canon.digest) →
      Table.keys c ⊆ Table.keys c' := by
    intro c c' hc hc' h key hkey
    obtain ⟨row, hrow, rfl⟩ := List.mem_map.1 hkey
    obtain ⟨t, ht, heq⟩ := h row.2 (Table.mem_values_of_mem hrow)
    obtain ⟨key', hrow'⟩ := Table.mem_values.1 ht
    have haddress : row.1 = key' := by
      rw [hc.2 row hrow, show key' = t.address from hc'.2 _ hrow']
      unfold Schema.address
      rw [heq]
    exact haddress ▸ List.mem_map.2 ⟨(key', t), hrow', rfl⟩
  have heq := hf.1.keys_eq hf'.1 fun key =>
    ⟨@hkeys _ _ hf hf' hsub key, @hkeys _ _ hf' hf (fun t ht => (hsup t ht).imp fun _ h => ⟨h.1, h.2.symm⟩) key⟩
  have hhex : ∀ {c : Catalogue}, c.Fresh →
      Table.keys c = ((Table.values c).map (fun s => s.canon.digest)).map Digest.hex := by
    intro c hc
    unfold Table.keys Table.values
    rw [List.map_map, List.map_map]
    refine List.map_congr_left fun row hrow => ?_
    rw [hc.2 row hrow]
    unfold Schema.address
    rfl
  rw [hhex hf, hhex hf'] at heq
  have hdigests := List.map_injective_iff.2 (fun _ _ => Digest.hex_inj) heq
  rw [canonOptions_eq, canonOptions_eq, itemDigests_eq, itemDigests_eq, canonElems_eq, canonElems_eq]
  simpa only [List.map_map, Function.comp_def] using congrArg (List.map Digest.bytes) hdigests

theorem fieldDigests_canonSlot {R : Schema → Schema → Prop} {n : Nat} {slot slot' : Option Schema}
    (h : Option.Rel R slot slot') (hkids : ∀ u ∈ slot, ∀ v ∈ slot', R u v → u.canon.digest = v.canon.digest) :
    fieldDigests (canonSlot n slot) = fieldDigests (canonSlot n slot') := by
  cases h with
  | none => rfl
  | some h => exact fieldDigests_singleton (hkids _ rfl _ rfl h)

theorem digest_canonMapping {R : Schema → Schema → Prop} {m m' : Mapping} (hkey : Option.Rel R m.key m'.key)
    (hvalue : Option.Rel R m.value m'.value)
    (hkids : ∀ u ∈ m.slots, ∀ v ∈ m'.slots, R u v → u.canon.digest = v.canon.digest) :
    fieldDigests (canonMapping (some m)) = fieldDigests (canonMapping (some m')) := by
  obtain ⟨key, value⟩ := m
  obtain ⟨key', value'⟩ := m'
  refine fieldDigests_singleton (digest_message_congr ?_)
  rw [fieldDigests_append, fieldDigests_append]
  rw [fieldDigests_canonSlot hkey fun u hu v hv => hkids u (Mapping.mem_slots.2 (.inl hu)) v (Mapping.mem_slots.2 (.inl hv)),
    fieldDigests_canonSlot hvalue fun u hu v hv => hkids u (Mapping.mem_slots.2 (.inr hu)) v (Mapping.mem_slots.2 (.inr hv))]

namespace Form.SameDigest

theorem refl (f : Form) : f.SameDigest f := ⟨rfl, rfl⟩

theorem record {fields fields' : Table Schema} {mapping mapping' : Option Mapping}
    (hfields : List.Forall₂ (fun r r' => r.1 = r'.1 ∧ r.2.canon.digest = r'.2.canon.digest) fields fields')
    (hmapping : fieldDigests (canonMapping mapping) = fieldDigests (canonMapping mapping')) :
    (Form.record fields mapping).SameDigest (.record fields' mapping') := by
  have hempty : fields.isEmpty = fields'.isEmpty := by cases hfields <;> rfl
  have hdict : (Canon.dict (canonFields fields)).digest = (Canon.dict (canonFields fields')).digest := by
    unfold Canon.digest preimage
    rw [rowDigests_canonFields hfields]
  refine ⟨rfl, digest_message_congr ?_⟩
  rw [fieldDigests_append, fieldDigests_append, hempty, fieldDigests_members hdict, hmapping]

theorem list {elems elems' : List Schema}
    (h : List.Forall₂ (fun s t => s.canon.digest = t.canon.digest) elems elems') :
    (Form.list elems).SameDigest (.list elems') := by
  have hempty : elems.isEmpty = elems'.isEmpty := by cases h <;> rfl
  have hlist : (Canon.list (canonElems elems)).digest = (Canon.list (canonElems elems')).digest := by
    unfold Canon.digest preimage
    rw [itemDigests_canonElems h]
  refine ⟨rfl, digest_message_congr ?_⟩
  rw [hempty, fieldDigests_members hlist]

theorem optional {inner inner' : Schema} (h : inner.canon.digest = inner'.canon.digest) :
    (Form.optional inner).SameDigest (.optional inner') :=
  ⟨rfl, digest_message_congr (fieldDigests_singleton h)⟩

/-- Alternatives under fresh keys are hashed as the set of the digests of their options. -/
theorem oneOf {options options' : Catalogue} (conflict : Bool) (hf : options.Fresh) (hf' : options'.Fresh)
    (hsub : ∀ s ∈ Table.values options, ∃ t ∈ Table.values options', s.canon.digest = t.canon.digest)
    (hsup : ∀ t ∈ Table.values options', ∃ s ∈ Table.values options, s.canon.digest = t.canon.digest) :
    (Form.oneOf options conflict).SameDigest (.oneOf options' conflict) := by
  have hitems := itemDigests_canonOptions hf hf' hsub hsup
  have hempty : options.isEmpty = options'.isEmpty := by
    cases options <;> cases options' <;> first | rfl | cases hitems
  have hset : (Canon.set (canonOptions options)).digest = (Canon.set (canonOptions options')).digest := by
    unfold Canon.digest preimage
    rw [hitems]
  refine ⟨rfl, digest_message_congr ?_⟩
  rw [fieldDigests_append, fieldDigests_append, hempty, fieldDigests_members hset]

end Form.SameDigest

/-- The shape of a node is hashed in a field that the structure determines, digest included. -/
theorem Form.Alike.sameDigest {f g : Form} (h : f.Alike g) (hf : f.Fresh) (hg : g.Fresh)
    (hkids : ∀ u ∈ f.children, ∀ v ∈ g.children, u.Alike v → u.canon.digest = v.canon.digest) : f.SameDigest g := by
  cases f with
  | primitive p =>
    obtain ⟨q, rfl, hp⟩ := Form.alike_primitive.1 h
    exact ⟨rfl, hp.digest⟩
  | record fields mapping =>
    obtain ⟨fields', mapping', rfl, hfields, hmapping⟩ := Form.alike_record.1 h
    refine .record (forall₂_imp_mem hfields fun r hr r' hr' h => ⟨h.1, hkids _
      (List.mem_append_left _ (Table.mem_values_of_mem hr)) _
        (List.mem_append_left _ (Table.mem_values_of_mem hr')) h.2⟩) ?_
    cases hmapping with
    | none => rfl
    | some hslots =>
      exact digest_canonMapping hslots.1 hslots.2 fun u hu v hv =>
        hkids u (List.mem_append_right _ hu) v (List.mem_append_right _ hv)
  | list elems =>
    obtain ⟨elems', rfl, helems⟩ := Form.alike_list.1 h
    exact .list (forall₂_imp_mem helems hkids)
  | absent =>
    rw [Form.alike_absent.1 h]
    exact .refl _
  | optional inner =>
    obtain ⟨inner', rfl, hinner⟩ := Form.alike_optional.1 h
    exact .optional (hkids _ List.mem_cons_self _ List.mem_cons_self hinner)
  | oneOf options conflict =>
    obtain ⟨options', rfl, hsub, hsup⟩ := Form.alike_oneOf.1 h
    exact .oneOf conflict hf hg (fun s hs => (hsub s hs).imp fun t ht => ⟨ht.1, hkids s hs t ht.1 ht.2⟩)
      fun t ht => (hsup t ht).imp fun s hs => ⟨hs.1, hkids s hs.1 t ht hs.2⟩

/-- Trees of one structure have one digest. -/
theorem Schema.Alike.digest (h : s.Alike t) (hs : s.Keyed) (ht : t.Keyed) : s.canon.digest = t.canon.digest := by
  induction s using Schema.inductionOn generalizing t with
  | step s ih =>
    obtain ⟨hform, hnull, hmetadata⟩ := Schema.alike_iff.1 h
    exact Schema.digest_congr (hform.sameDigest hs.root ht.root fun u hu v hv huv =>
      ih u hu huv (hs.child u hu) (ht.child v hv)) hnull hmetadata

end

/-! ## One digest, one structure -/

section

open Canon

variable {H : List Bytes} (hH : ¬Sha256.Collides H)

include hH

theorem Location.eq_of_matches {l l' : Location} (hrank : l.rank = l'.rank) (h : Matches H l.canon l'.canon) :
    l = l' := by
  have hkey := (Agree.of_message hH h).text hH
  cases l <;> cases l' <;> first | rfl | (cases hrank; done) | exact congrArg _ hkey

theorem Position.eq_of_matches {p q : Position} (h : Matches H p.canon q.canon) : p = q := by
  obtain ⟨location, responseCode⟩ := p
  obtain ⟨location', responseCode'⟩ := q
  have hagree := Agree.of_message hH h
  have hrank : ∀ l : Location, l.rank ≠ 8 := by
    intro l
    cases l <;> simp [Location.rank]
  obtain ⟨hranks, hmatch⟩ := hagree.of_only (k := location'.rank) (d := location'.canon) List.mem_cons_self
    fun e he => (List.mem_cons.1 he).resolve_right fun he => hrank location (Agree.number_of_mem_members he)
  have hcodes := hagree.fieldsOf 8
  simp only [fieldsOf_cons, if_neg (hrank _), fieldsOf_optionalField, if_pos] at hcodes
  have hlocation : location = location' := Location.eq_of_matches hH hranks hmatch
  rw [hlocation, Int32.toInt_inj.1 (hcodes.int hH)]

theorem Metadata.eq_of_matches {m n : Metadata} (h : Matches H m.canon n.canon) : m = n := by
  obtain ⟨http⟩ := m
  obtain ⟨http'⟩ := n
  have hagree := Agree.of_message hH h
  cases http with
  | none =>
    cases http' with
    | none => rfl
    | some q =>
      obtain ⟨c, hc, -⟩ := hagree.sup 1 q.canon (List.mem_singleton_self _)
      cases hc
  | some p =>
    cases http' with
    | none =>
      obtain ⟨d, hd, -⟩ := hagree.sub 1 p.canon (List.mem_singleton_self _)
      cases hd
    | some q => rw [Position.eq_of_matches hH hagree.single.2]

/-- The value of a primitive is read back from its field, up to what floating-point texts identify. -/
theorem Scalar.alike_of_agree {s t : Scalar} (hnumber : s.canonField.1 = t.canonField.1)
    (h : Agree H (optionalField 1 s.canonField.2) (optionalField 1 t.canonField.2)) : s.Alike t := by
  cases s <;> cases t <;> first | (cases hnumber; done) | skip
  case bool.bool => exact congrArg Scalar.bool (h.bool)
  case bytes.bytes => exact congrArg Scalar.bytes (h.raw hH)
  case string.string => exact congrArg Scalar.string (h.text hH)
  case int32.int32 => exact congrArg Scalar.int32 (Int32.toInt_inj.1 (h.int hH))
  case int64.int64 => exact congrArg Scalar.int64 (Int64.toInt_inj.1 (h.int hH))
  case uint32.uint32 => exact congrArg Scalar.uint32 (UInt32.toNat_inj.1 (Int.ofNat.inj (h.int hH)))
  case uint64.uint64 => exact congrArg Scalar.uint64 (UInt64.toNat_inj.1 (Int.ofNat.inj (h.int hH)))
  case float.float => exact Binary.normalized_convert_eq_iff.1 (h.float hH)
  case double.double => exact (Binary.normalized_eq_iff (by decide)).1 (h.float hH)

/-- Labels in order are read back from the set they are hashed as. -/
theorem Labels.eq_of_agree {l l' : Labels} (hl : l.Pairwise (· < ·)) (hl' : l'.Pairwise (· < ·)) {n : Nat}
    (h : Agree H (canonMembers n (.set (l.map .text)) l.isEmpty) (canonMembers n (.set (l'.map .text)) l'.isEmpty)) :
    l = l' := by
  obtain ⟨hempty, hnil | hmatch⟩ := h.members
  · rw [hnil] at hempty
    rw [List.isEmpty_iff.1 hnil, List.isEmpty_iff.1 hempty.symm]
  · have hsub : ∀ {l l' : Labels}, Matches H (.set (l.map .text)) (.set (l'.map .text)) → ∀ x ∈ l, x ∈ l' := by
      intro l l' hmatch x hx
      obtain ⟨d, hmem, hx⟩ := hmatch.set hH (.text x) (List.mem_map_of_mem hx)
      obtain ⟨y, hy, rfl⟩ := List.mem_map.1 hmem
      rw [hx.text hH]
      exact hy
    exact List.Pairwise.eq_of_mem_iff hl hl' fun x => ⟨hsub hmatch x, hsub hmatch.symm x⟩

omit hH in
theorem Primitive.canon_eq (p : Primitive) : p.canon = .message
    (optionalField 1 (.text p.typeHint) ++ optionalField 2 (.text p.formatKind) ++
      canonMembers 3 (.set (p.formats.map .text)) p.formats.isEmpty ++
        [(p.value.canonField.1, .message (optionalField 1 p.value.canonField.2))]) := rfl

/-- The fields of a primitive are found by their numbers, and the number of the value tells its type. -/
theorem Primitive.alike_of_matches {p q : Primitive} (hp : p.formats.Pairwise (· < ·))
    (hq : q.formats.Pairwise (· < ·)) (h : Matches H p.canon q.canon) : p.Alike q := by
  rw [Primitive.canon_eq, Primitive.canon_eq] at h
  have hagree := Agree.of_message hH h
  have hne : ∀ (s : Scalar) {n : Nat}, n < 4 → s.canonField.1 ≠ n := fun s _ hn heq => by
    have := Scalar.canonField_fst s
    omega
  have hhint := hagree.fieldsOf 1
  have hkind := hagree.fieldsOf 2
  have hformats := hagree.fieldsOf 3
  simp only [fieldsOf_append, fieldsOf_optionalField, fieldsOf_canonMembers, fieldsOf_cons, fieldsOf_nil, if_pos,
    if_neg (hne _ (show 1 < 4 by decide)), if_neg (hne _ (show 2 < 4 by decide)), if_neg (hne _ (show 3 < 4 by decide)),
    List.append_nil, List.nil_append, reduceIte, Nat.reduceEqDiff] at hhint hkind hformats
  have hvalue := hagree.of_only (n := p.value.canonField.1) (k := q.value.canonField.1)
    (d := .message (optionalField 1 q.value.canonField.2)) (List.mem_append_right _ (List.mem_singleton_self _))
    fun e he => by
      rcases List.mem_append.1 he with he | he
      · rcases List.mem_append.1 he with he | he
        · rcases List.mem_append.1 he with he | he
          · exact absurd (Agree.number_of_mem_members he) (hne _ (by decide))
          · exact absurd (Agree.number_of_mem_members he) (hne _ (by decide))
        · exact absurd (Agree.number_of_mem_members he) (hne _ (by decide))
      · exact List.mem_singleton.1 he
  exact
    { value := Scalar.alike_of_agree hH hvalue.1 (Agree.of_message hH hvalue.2)
      formatKind := hkind.text hH
      formats := Labels.eq_of_agree hH hp hq hformats
      typeHint := hhint.text hH }

variable {s t : Schema}

/-- What surrounds a node is read back, and its shape is in fields that match. -/
theorem Schema.matches_form (h : Matches H s.canon t.canon) :
    (s.form.canonField.1 = t.form.canonField.1 ∧ Matches H s.form.canonField.2 t.form.canonField.2) ∧
      s.nullable = t.nullable ∧ s.metadata = t.metadata := by
  obtain ⟨form, nullable, metadata, examples⟩ := s
  obtain ⟨form', nullable', metadata', examples'⟩ := t
  unfold Schema.canon at h
  have hagree := Agree.of_message hH h
  have hle : ∀ f : Form, f.canonField.1 ≤ 5 := by
    intro f
    cases f <;> simp [Form.canonField]
  have hne : ∀ (f : Form) {n : Nat}, 5 < n → f.canonField.1 ≠ n := fun f _ hn heq => by
    have := hle f
    omega
  have hform := hagree.of_only (n := form.canonField.1) (c := form.canonField.2) (k := form'.canonField.1)
    (d := form'.canonField.2) List.mem_cons_self fun e he => by
      rcases List.mem_cons.1 he with he | he
      · exact he
      · rcases List.mem_append.1 he with he | he
        · cases metadata' with
          | none => cases he
          | some m => exact absurd (Prod.ext_iff.1 (List.mem_singleton.1 he)).1 (hne form (Nat.lt_succ_self 5))
        · exact absurd (Agree.number_of_mem_members he) (hne form (by decide))
  have hskip : ∀ (f : Form) {n : Nat} (rest : List (Nat × Canon)), 5 < n →
      fieldsOf n (f.canonField :: rest) = fieldsOf n rest := fun f n rest hn => by
    unfold fieldsOf
    rw [List.filter_cons_of_neg (by simpa using hne f hn)]
  have hmeta := hagree.fieldsOf 6
  have hnull := hagree.fieldsOf 7
  rw [hskip _ _ (by decide), hskip _ _ (by decide)] at hmeta hnull
  refine ⟨hform, Agree.bool (H := H) (n := 7) ?_, ?_⟩
  · cases metadata <;> cases metadata' <;> simpa using hnull
  · have hmeta : Agree H (metadata.elim [] fun m => [(6, m.canon)]) (metadata'.elim [] fun m => [(6, m.canon)]) := by
      cases metadata <;> cases metadata' <;> simpa using hmeta
    cases metadata with
    | none =>
      cases metadata' with
      | none => rfl
      | some n =>
        obtain ⟨c, hc, -⟩ := hmeta.sup 6 n.canon (List.mem_singleton_self _)
        cases hc
    | some m =>
      cases metadata' with
      | none =>
        obtain ⟨d, hd, -⟩ := hmeta.sub 6 m.canon (List.mem_singleton_self _)
        cases hd
      | some n => exact congrArg some (Metadata.eq_of_matches hH hmeta.single.2)

omit hH in
theorem canonElems_matches {elems elems' : List Schema}
    (h : List.Forall₂ (Matches H) (canonElems elems) (canonElems elems')) :
    List.Forall₂ (fun s t => Matches H s.canon t.canon) elems elems' := by
  rw [canonElems_eq, canonElems_eq, List.forall₂_map_left_iff, List.forall₂_map_right_iff] at h
  exact h

/-- Every field of a record matches the field of that name of the other record. -/
theorem canonFields_matches {fields fields' : Table Schema}
    (h : Matches H (.dict (canonFields fields)) (.dict (canonFields fields'))) :
    ∀ row ∈ fields, ∃ row' ∈ fields', row.1 = row'.1 ∧ Matches H row.2.canon row'.2.canon := by
  intro row hrow
  have hmem : (Canon.text row.1, row.2.canon) ∈ canonFields fields := by
    rw [canonFields_eq]
    exact List.mem_map.2 ⟨row, hrow, rfl⟩
  obtain ⟨row', hrow', hkey, hvalue⟩ := h.dict hH _ hmem
  rw [canonFields_eq] at hrow'
  obtain ⟨field, hfield, rfl⟩ := List.mem_map.1 hrow'
  exact ⟨field, hfield, hkey.text hH, hvalue⟩

/-- Every option matches one of the other options. -/
theorem canonOptions_matches {options options' : Table Schema}
    (h : Matches H (.set (canonOptions options)) (.set (canonOptions options'))) :
    ∀ s ∈ Table.values options, ∃ t ∈ Table.values options', Matches H s.canon t.canon := by
  intro s hs
  rw [canonOptions_eq, canonOptions_eq, canonElems_eq, canonElems_eq] at h
  obtain ⟨d, hd, hmatch⟩ := h.set hH s.canon (List.mem_map_of_mem hs)
  obtain ⟨t, ht, rfl⟩ := List.mem_map.1 hd
  exact ⟨t, ht, hmatch⟩

omit hH in
/-- Tables in order with related rows on both sides are related row by row. -/
theorem forall₂_of_sorted {fields fields' : Table Schema} {R : Schema → Schema → Prop} (hs : Table.Sorted fields)
    (hs' : Table.Sorted fields') (hsub : ∀ row ∈ fields, ∃ row' ∈ fields', row.1 = row'.1 ∧ R row.2 row'.2)
    (hsup : ∀ row' ∈ fields', ∃ row ∈ fields, row.1 = row'.1) :
    List.Forall₂ (fun r r' => r.1 = r'.1 ∧ R r.2 r'.2) fields fields' := by
  have hkeys : Table.keys fields = Table.keys fields' := by
    refine hs.keys_eq hs' fun k => ⟨fun hk => ?_, fun hk => ?_⟩
    · obtain ⟨row, hrow, rfl⟩ := List.mem_map.1 hk
      obtain ⟨row', hrow', heq, -⟩ := hsub row hrow
      exact List.mem_map.2 ⟨row', hrow', heq.symm⟩
    · obtain ⟨row', hrow', rfl⟩ := List.mem_map.1 hk
      obtain ⟨row, hrow, heq⟩ := hsup row' hrow'
      exact List.mem_map.2 ⟨row, hrow, heq⟩
  have hpairs : List.Forall₂ (fun r r' => r.1 = r'.1) fields fields' := by
    have hpairs : List.Forall₂ Eq (Table.keys fields) (Table.keys fields') := by rw [List.forall₂_eq_eq_eq, hkeys]
    unfold Table.keys at hpairs
    rwa [List.forall₂_map_left_iff, List.forall₂_map_right_iff] at hpairs
  refine forall₂_imp_mem hpairs fun row hrow row' hrow' heq => ⟨heq, ?_⟩
  obtain ⟨row'', hrow'', heq', hR⟩ := hsub row hrow
  obtain ⟨name, t⟩ := row'
  obtain ⟨name', t'⟩ := row''
  have hname : name = name' := heq.symm.trans heq'
  subst hname
  have htt' : t = t' := Option.some.inj ((hs'.find?_eq hrow').symm.trans (hs'.find?_eq hrow''))
  exact htt' ▸ hR

omit hH in
theorem slot_of_agree {n : Nat} {slot slot' : Option Schema} (h : Agree H (canonSlot n slot) (canonSlot n slot')) :
    Option.Rel (fun s t => Matches H s.canon t.canon) slot slot' := by
  cases slot with
  | none =>
    cases slot' with
    | none => exact .none
    | some t =>
      obtain ⟨c, hc, -⟩ := h.sup n t.canon (List.mem_singleton_self _)
      cases hc
  | some s =>
    cases slot' with
    | none =>
      obtain ⟨d, hd, -⟩ := h.sub n s.canon (List.mem_singleton_self _)
      cases hd
    | some t => exact .some h.single.2

/-- The field of the mapping stands on both sides or on none, and its slots match. -/
theorem mapping_of_agree {mapping mapping' : Option Mapping}
    (h : Agree H (canonMapping mapping) (canonMapping mapping')) :
    Option.Rel (fun m m' => Option.Rel (fun s t => Matches H s.canon t.canon) m.key m'.key ∧
      Option.Rel (fun s t => Matches H s.canon t.canon) m.value m'.value) mapping mapping' := by
  rcases mapping with _ | ⟨key, value⟩ <;> rcases mapping' with _ | ⟨key', value'⟩
  · exact .none
  · obtain ⟨c, hc, -⟩ := h.sup 2 _ (List.mem_singleton_self _)
    cases hc
  · obtain ⟨d, hd, -⟩ := h.sub 2 _ (List.mem_singleton_self _)
    cases hd
  · have hslots := Agree.of_message hH h.single.2
    have hfield : ∀ n k (slot : Option Schema), fieldsOf n (canonSlot k slot) = if k = n then canonSlot k slot else [] := by
      intro n k slot
      cases slot <;> simp [canonSlot]
    have hkey := hslots.fieldsOf 1
    have hvalue := hslots.fieldsOf 2
    rw [fieldsOf_append, fieldsOf_append, hfield, hfield, hfield, hfield] at hkey hvalue
    exact .some ⟨slot_of_agree (by simpa using hkey), slot_of_agree (by simpa using hvalue)⟩

/-- Shapes in fields that match are alike when their members that match are. -/
theorem Form.alike_of_matches {f g : Form} (hf : f.Ordered) (hg : g.Ordered) (hfl : f.Labelled) (hgl : g.Labelled)
    (hnumber : f.canonField.1 = g.canonField.1) (h : Matches H f.canonField.2 g.canonField.2)
    (hkids : ∀ u ∈ f.children, ∀ v ∈ g.children, Matches H u.canon v.canon → u.Alike v) : f.Alike g := by
  cases f with
  | primitive p =>
    cases g <;> first | cases hnumber; done | skip
    exact Form.alike_primitive.2 ⟨_, rfl, Primitive.alike_of_matches hH hfl hgl h⟩
  | record fields mapping =>
    cases g <;> first | cases hnumber; done | skip
    rename_i fields' mapping'
    have hagree := Agree.of_message hH h
    have hfieldsOf : ∀ n (m : Option Mapping), fieldsOf n (canonMapping m) = if n = 2 then canonMapping m else [] := by
      intro n m
      rcases m with _ | ⟨key, value⟩
      · simp [canonMapping]
      · simp [canonMapping, eq_comm]
    have hfields := hagree.fieldsOf 1
    have hmapping := hagree.fieldsOf 2
    simp only [fieldsOf_append, fieldsOf_canonMembers, hfieldsOf] at hfields hmapping
    have hmapping : Agree H (canonMapping mapping) (canonMapping mapping') := by simpa using hmapping
    refine Form.alike_record.2 ⟨fields', mapping', rfl, ?_, ?_⟩
    · have hmembers : Agree H (canonMembers 1 (.dict (canonFields fields)) fields.isEmpty)
          (canonMembers 1 (.dict (canonFields fields')) fields'.isEmpty) := by simpa using hfields
      obtain ⟨hempty, hnil | hmatch⟩ := hmembers.members
      · rw [hnil] at hempty
        rw [List.isEmpty_iff.1 hnil, List.isEmpty_iff.1 hempty.symm]
        exact .nil
      · have hrows := forall₂_of_sorted (R := fun s t => Matches H s.canon t.canon) hf hg
          (canonFields_matches hH hmatch) fun row' hrow' => by
            obtain ⟨row, hrow, heq, -⟩ := canonFields_matches hH hmatch.symm row' hrow'
            exact ⟨row, hrow, heq.symm⟩
        exact forall₂_imp_mem hrows fun r hr r' hr' h => ⟨h.1, hkids _
          (List.mem_append_left _ (Table.mem_values_of_mem hr)) _
            (List.mem_append_left _ (Table.mem_values_of_mem hr')) h.2⟩
    · have hslots := mapping_of_agree hH hmapping
      cases hslots with
      | none => exact .none
      | some hslots =>
        have hkids := fun u hu v hv => hkids u (List.mem_append_right (Table.values fields) hu) v
          (List.mem_append_right (Table.values fields') hv)
        exact .some
          ⟨optionRel_imp_mem hslots.1 fun u hu v hv =>
              hkids u (Mapping.mem_slots.2 (.inl hu)) v (Mapping.mem_slots.2 (.inl hv)),
            optionRel_imp_mem hslots.2 fun u hu v hv =>
              hkids u (Mapping.mem_slots.2 (.inr hu)) v (Mapping.mem_slots.2 (.inr hv))⟩
  | list elems =>
    cases g <;> first | cases hnumber; done | skip
    rename_i elems'
    refine Form.alike_list.2 ⟨elems', rfl, ?_⟩
    obtain ⟨hempty, hnil | hmatch⟩ := (Agree.of_message hH h).members
    · rw [hnil] at hempty
      rw [List.isEmpty_iff.1 hnil, List.isEmpty_iff.1 hempty.symm]
      exact .nil
    · exact forall₂_imp_mem (canonElems_matches (hmatch.list hH)) hkids
  | absent =>
    cases g <;> first | cases hnumber; done | skip
    · exact Form.alike_absent.2 rfl
    · cases (Agree.of_message hH h).single.1
  | optional inner =>
    cases g <;> first | cases hnumber; done | skip
    · cases (Agree.of_message hH h).single.1
    · rename_i inner'
      have hinner := (Agree.of_message hH h).single.2
      exact Form.alike_optional.2 ⟨inner', rfl, hkids _ List.mem_cons_self _ List.mem_cons_self hinner⟩
  | oneOf options conflict =>
    cases g <;> first | cases hnumber; done | skip
    rename_i options' conflict'
    have hagree := Agree.of_message hH h
    have hmembers := hagree.fieldsOf 1
    have hflag := hagree.fieldsOf 2
    simp only [fieldsOf_append, fieldsOf_canonMembers, fieldsOf_optionalField] at hmembers hflag
    have hflag : Agree H (optionalField 2 (.bool conflict)) (optionalField 2 (.bool conflict')) := by simpa using hflag
    obtain rfl := hflag.bool
    have hmembers : Agree H (canonMembers 1 (.set (canonOptions options)) options.isEmpty)
        (canonMembers 1 (.set (canonOptions options')) options'.isEmpty) := by simpa using hmembers
    refine Form.alike_oneOf.2 ⟨options', rfl, ?_⟩
    obtain ⟨hempty, hnil | hmatch⟩ := hmembers.members
    · rw [hnil] at hempty
      rw [List.isEmpty_iff.1 hnil, List.isEmpty_iff.1 hempty.symm]
      exact ⟨nofun, nofun⟩
    · have hsub := canonOptions_matches hH hmatch
      have hsup := canonOptions_matches hH hmatch.symm
      exact ⟨fun s hs => (hsub s hs).imp fun t ht => ⟨ht.1, hkids s hs t ht.1 ht.2⟩,
        fun t ht => (hsup t ht).imp fun s hs => ⟨hs.1, hkids s hs.1 t ht hs.2.symm⟩⟩

/-- Trees that match are alike. -/
theorem Schema.alike_of_matches (hs : s.Ordered) (ht : t.Ordered) (hsl : s.Labelled) (htl : t.Labelled)
    (h : Matches H s.canon t.canon) : s.Alike t := by
  induction s using Schema.inductionOn generalizing t with
  | step s ih =>
    obtain ⟨⟨hnumber, hform⟩, hnull, hmetadata⟩ := Schema.matches_form hH h
    refine Schema.alike_iff.2 ⟨?_, hnull, hmetadata⟩
    refine Form.alike_of_matches hH hs.root ht.root hsl.root htl.root hnumber hform fun u hu v hv huv => ?_
    exact ih u hu (hs.child u hu) (ht.child v hv) (hsl.child u hu) (htl.child v hv) huv

end

/-! ## Printed values -/

/-- The text that is printed for a value identifies the value among those of its type. -/
theorem Scalar.eq_of_text? {s t : Scalar} {text : String} (htype : s.baseType = t.baseType) (hs : s.text? = some text)
    (ht : t.text? = some text) : s = t := by
  have hnat : ∀ {m n : Nat}, toString m = toString n → m = n := fun {m n} h =>
    Int.ofNat.inj (toString_int_inj (i := m) (j := n) h)
  have h : s.text? = t.text? := hs.trans ht.symm
  cases s <;> cases t <;> first | (cases htype; done) | (cases hs; done) | replace h := Option.some.inj h
  case bool.bool v w => cases v <;> cases w <;> first | rfl | exact absurd h (by decide)
  case bytes.bytes => exact congrArg Scalar.bytes (Bytes.hex_inj h)
  case string.string => exact congrArg Scalar.string h
  case int32.int32 => exact congrArg Scalar.int32 (Int32.toInt_inj.1 (toString_int_inj h))
  case int64.int64 => exact congrArg Scalar.int64 (Int64.toInt_inj.1 (toString_int_inj h))
  case uint32.uint32 => exact congrArg Scalar.uint32 (UInt32.toNat_inj.1 (hnat h))
  case uint64.uint64 => exact congrArg Scalar.uint64 (UInt64.toNat_inj.1 (hnat h))

/-! ## Identity -/

/-- The digest of a tree identifies its structure: trees that are alike have one digest, and trees with
one digest are alike unless two of the byte strings hashed for them collide. -/
theorem Schema.digest_identifies {s t : Schema} (hs : s.Keyed) (ht : t.Keyed) (hso : s.Ordered) (hto : t.Ordered)
    (hsl : s.Labelled) (htl : t.Labelled) :
    (s.Alike t → s.canon.digest = t.canon.digest) ∧
      (s.canon.digest = t.canon.digest → s.Alike t ∨ Sha256.Collides (s.canon.hashed ++ t.canon.hashed)) := by
  refine ⟨fun h => h.digest hs ht, fun h => ?_⟩
  by_cases hH : Sha256.Collides (s.canon.hashed ++ t.canon.hashed)
  · exact .inr hH
  · exact .inl (Schema.alike_of_matches hH hso hto hsl htl
      ⟨h, List.subset_append_left _ _, List.subset_append_right _ _⟩)

/-- A zero of a floating-point type. -/
def positiveZero : Schema := Schema.ofType .double

/-- The other one, with an example. -/
def negativeZero : Schema :=
  { form := .primitive { value := .double (Binary.ofCode true 0) }, examples := [("a", "-0.0")] }

/-- A text or a number as alternatives. -/
def textOr (number : Schema) : Schema :=
  { form := .oneOf [((Schema.ofType .string).address, Schema.ofType .string), (number.address, number)] true }

theorem throughout_textOr {P : Schema → Prop} {number : Schema} (hroot : P (textOr number))
    (htext : P (Schema.ofType .string)) (hnumber : number.Throughout P) : (textOr number).Throughout P := by
  refine .intro hroot fun t ht => ?_
  simp only [textOr, Schema.children, Form.children, Table.values, List.map_cons, List.map_nil, List.mem_cons,
    List.not_mem_nil, or_false] at ht
  rcases ht with rfl | rfl
  · exact .of_primitive rfl htext
  · exact hnumber

theorem alike_zeros : positiveZero.Alike negativeZero := by
  refine Schema.alike_iff.2 ⟨Form.alike_primitive.2 ⟨_, rfl, ?_, rfl, rfl, rfl⟩, rfl, rfl⟩
  exact .inl (by decide)

/-- Options that are alike make alternatives that are alike. -/
theorem alike_textOr {m n : Schema} (h : m.Alike n) : (textOr m).Alike (textOr n) := by
  refine Schema.alike_iff.2 ⟨Form.alike_oneOf.2 ⟨_, rfl, ?_⟩, rfl, rfl⟩
  have htext : (Schema.ofType .string).Alike (Schema.ofType .string) :=
    Schema.alike_iff.2 ⟨Form.alike_primitive.2 ⟨_, rfl, rfl, rfl, rfl, rfl⟩, rfl, rfl⟩
  simp [Table.values, htext, h]

theorem ordered_textOr {number : Schema} (hnumber : number.Ordered)
    (hlt : (Schema.ofType .string).address < number.address) : (textOr number).Ordered :=
  throughout_textOr (by simpa [textOr, Form.Ordered, Table.Sorted] using hlt) trivial hnumber

theorem keyed_textOr {number : Schema} (hnumber : number.Keyed)
    (hlt : (Schema.ofType .string).address < number.address) : (textOr number).Keyed :=
  throughout_textOr (by simpa [textOr, Form.Fresh, Catalogue.Fresh, Table.Sorted] using hlt) trivial hnumber

/-- Alternatives with one zero and with the other one have one digest. -/
theorem digest_identifies_zeros :
    ((textOr positiveZero).Keyed ∧ (textOr negativeZero).Keyed ∧ (textOr positiveZero).Ordered ∧
      (textOr negativeZero).Ordered ∧ (textOr positiveZero).Labelled ∧ (textOr negativeZero).Labelled) ∧
      (textOr positiveZero).Alike (textOr negativeZero) ∧
        (textOr positiveZero).canon.digest = (textOr negativeZero).canon.digest := by
  have hlt : (Schema.ofType .string).address < positiveZero.address := by decide +kernel
  have hlt' : (Schema.ofType .string).address < negativeZero.address := by
    have haddress : negativeZero.address = positiveZero.address := by
      unfold Schema.address
      rw [alike_zeros.digest (.of_primitive rfl trivial) (.of_primitive rfl trivial)]
    rwa [haddress]
  have hkeyed : (textOr positiveZero).Keyed := keyed_textOr (.of_primitive rfl trivial) hlt
  have hkeyed' : (textOr negativeZero).Keyed := keyed_textOr (.of_primitive rfl trivial) hlt'
  have hordered : (textOr positiveZero).Ordered := ordered_textOr (.of_primitive rfl trivial) hlt
  have hordered' : (textOr negativeZero).Ordered := ordered_textOr (.of_primitive rfl trivial) hlt'
  have hlabelled : (textOr positiveZero).Labelled := throughout_textOr trivial .nil (.of_primitive rfl .nil)
  have hlabelled' : (textOr negativeZero).Labelled := throughout_textOr trivial .nil (.of_primitive rfl .nil)
  have halike := alike_textOr alike_zeros
  obtain ⟨hdigest, -⟩ := Schema.digest_identifies hkeyed hkeyed' hordered hordered' hlabelled hlabelled'
  exact ⟨⟨hkeyed, hkeyed', hordered, hordered', hlabelled, hlabelled'⟩, halike, hdigest halike⟩

end ApiShape

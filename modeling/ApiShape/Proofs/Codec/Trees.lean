/-
Trees, catalogues and endpoints are read back as they were written. The keys of alternatives and of catalogues
are dropped by reading and computed again, which gives the same keys when they are fresh. The nodes of a tree
lie deeper in its JSON value than the tree, so that the depth of the value is enough to read all of them.
-/
import ApiShape.Proofs.Codec.Values
import ApiShape.Proofs.Schema.Alike

namespace ApiShape

open JsonValue

/-! ## What is written -/

theorem encodeRows_eq (rows : Table Schema) : encodeRows rows = rows.map (fun row => (row.1, row.2.encode)) := by
  induction rows with
  | nil => rfl
  | cons row rest ih =>
    obtain ⟨key, s⟩ := row
    rw [encodeRows, ih]
    rfl

theorem encodeElems_eq (elems : List Schema) : encodeElems elems = elems.map Schema.encode := by
  induction elems with
  | nil => rfl
  | cons s rest ih =>
    rw [encodeElems, ih]
    rfl

theorem encodeSlot_eq (slot : Option Schema) : encodeSlot slot = slot.map Schema.encode := by
  cases slot <;> rfl

/-- A mapping is written as a record of two fields. -/
def Mapping.encode (m : Mapping) : JsonValue :=
  .object (writtenRows [("key", m.key.map Schema.encode), ("value", m.value.map Schema.encode)])

theorem encodeMapping_eq (mapping : Option Mapping) : encodeMapping mapping = mapping.map Mapping.encode := by
  rcases mapping with _ | ⟨key, value⟩
  · rfl
  · simp [encodeMapping, Mapping.encode, encodeSlot_eq]

theorem Schema.encode_eq (s : Schema) : s.encode = .object (writtenRows [("value", some s.form.encode),
    ("nullable", if !s.nullable then none else some (.bool true)), ("meta", s.metadata.map Metadata.encode),
    ("exampleValues", if s.examples.isEmpty then none else some (Examples.encode s.examples))]) := by
  obtain ⟨form, nullable, metadata, examples⟩ := s
  simp [Schema.encode, rowUnless_eq, rowIfAny]

theorem Schema.encode_ne_null (s : Schema) : s.encode ≠ .null := by
  rw [Schema.encode_eq]
  nofun

namespace Form

theorem encode_record (fields : Table Schema) (mapping : Option Mapping) : (Form.record fields mapping).encode =
    .object [("struct", .object (writtenRows [
      ("fields", if fields.isEmpty then none else some (.object (fields.map (fun row => (row.1, row.2.encode))))),
      ("mapType", mapping.map Mapping.encode)]))] := by
  simp [Form.encode, rowUnless_eq, encodeRows_eq, encodeMapping_eq]

theorem encode_list (elems : List Schema) : (Form.list elems).encode =
    .object [("list", .object (writtenRows [
      ("elems", if elems.isEmpty then none else some (.array (elems.map Schema.encode)))]))] := by
  simp [Form.encode, rowUnless_eq, encodeElems_eq]

theorem encode_oneOf (options : Table Schema) (conflict : Bool) : (Form.oneOf options conflict).encode =
    .object [("oneOf", .object (writtenRows [
      ("options", some (.object (options.map (fun row => (row.1, row.2.encode))))),
      ("potentialConflict", some (.bool conflict))]))] := by
  rw [Form.encode, encodeRows_eq]
  rfl

end Form

/-! ## Depth -/

namespace JsonValue

variable {v : JsonValue}

theorem depth_lt_array {items : List JsonValue} (h : v ∈ items) : v.depth < (array items).depth := by
  refine Nat.lt_succ_of_le (show v.depth ≤ itemsDepth items from ?_)
  induction items with
  | nil => cases h
  | cons w rest ih =>
    unfold itemsDepth
    rcases List.mem_cons.1 h with rfl | h
    · exact Nat.le_max_left _ _
    · exact (ih h).trans (Nat.le_max_right _ _)

theorem depth_lt_object {rows : List (String × JsonValue)} {key : String} (h : (key, v) ∈ rows) :
    v.depth < (object rows).depth := by
  refine Nat.lt_succ_of_le (show v.depth ≤ rowsDepth rows from ?_)
  induction rows with
  | nil => cases h
  | cons row rest ih =>
    obtain ⟨name, w⟩ := row
    unfold rowsDepth
    rcases List.mem_cons.1 h with h | h
    · cases h
      exact Nat.le_max_left _ _
    · exact (ih h).trans (Nat.le_max_right _ _)

/-- The value of a field that is written lies deeper than the record. -/
theorem depth_lt_written {fields : List (String × Option JsonValue)} (name : String) (h : (name, some v) ∈ fields) :
    v.depth < (object (writtenRows fields)).depth :=
  depth_lt_object (mem_writtenRows.2 h)

end JsonValue

theorem Mapping.depth_lt {m : Mapping} {t : Schema} (h : t ∈ m.slots) : t.encode.depth < m.encode.depth := by
  rcases Mapping.mem_slots.1 h with h | h
  · exact depth_lt_written "key" (by simp [h])
  · exact depth_lt_written "value" (by simp [h])

/-- The children of a node lie deeper in the written value than its shape. -/
theorem Form.depth_lt {f : Form} {t : Schema} (h : t ∈ f.children) : t.encode.depth < f.encode.depth := by
  have hrow : ∀ {rows : Table Schema}, t ∈ Table.values rows →
      t.encode.depth < (object (rows.map (fun row => (row.1, row.2.encode)))).depth := by
    intro rows ht
    obtain ⟨key, ht⟩ := Table.mem_values.1 ht
    exact depth_lt_object (List.mem_map_of_mem (f := fun row : String × Schema => (row.1, row.2.encode)) ht)
  cases f with
  | primitive p => cases h
  | absent => cases h
  | optional inner =>
    obtain rfl := List.mem_singleton.1 h
    exact (depth_lt_object List.mem_cons_self).trans (depth_lt_object List.mem_cons_self)
  | list elems =>
    have hne : elems.isEmpty = false := by
      cases elems with
      | nil => cases h
      | cons => rfl
    have helem : t.encode.depth < (array (elems.map Schema.encode)).depth := depth_lt_array (List.mem_map_of_mem h)
    rw [encode_list]
    exact (helem.trans (depth_lt_written "elems" (by simp [hne]))).trans (depth_lt_object List.mem_cons_self)
  | oneOf options conflict =>
    rw [encode_oneOf]
    exact ((hrow h).trans (depth_lt_written "options" List.mem_cons_self)).trans (depth_lt_object List.mem_cons_self)
  | record fields mapping =>
    rw [encode_record]
    refine lt_trans ?_ (depth_lt_object List.mem_cons_self)
    rcases List.mem_append.1 h with h | h
    · have hne : fields.isEmpty = false := by
        cases fields with
        | nil => cases h
        | cons => rfl
      exact (hrow h).trans (depth_lt_written "fields" (by simp [hne]))
    · cases mapping with
      | none => cases h
      | some m => exact (Mapping.depth_lt h).trans (depth_lt_written "mapType" (by simp))

theorem Schema.depth_lt {s t : Schema} (h : t ∈ s.children) : t.encode.depth < s.encode.depth := by
  rw [s.encode_eq]
  exact (Form.depth_lt h).trans (depth_lt_written "value" List.mem_cons_self)

/-! ## Shapes -/

/-- The floating-point payload of a primitive is a finite number. -/
def Form.FinitePayload : Form → Prop
  | .primitive p => p.value.FinitePayload
  | _ => True

/-- What reading a shape again relies on: keys that are computed are those that were written, tables are filled
in order, and numbers have a text. -/
structure Form.Rereadable (f : Form) : Prop where
  fresh : f.Fresh
  ordered : f.Ordered
  labelled : f.Labelled
  finite : f.FinitePayload

section

variable {decode : JsonValue → Option Schema}

theorem Mapping.decodeWith?_encode {m : Mapping} (h : ∀ t ∈ m.slots, decode t.encode = some t) :
    Mapping.decodeWith? decode m.encode = some m := by
  have hslot : ∀ slot : Option Schema, (∀ t ∈ slot, t ∈ m.slots) →
      defaulted none (orNull decode) (slot.map Schema.encode) = some slot := fun slot hslot =>
    defaulted_orNull fun t ht => ⟨t.encode_ne_null, h t (hslot t ht)⟩
  have hfields : fields? ["key", "value"] m.encode = some [m.key.map Schema.encode, m.value.map Schema.encode] :=
    fields?_writtenRows _ (show ["key", "value"].Nodup by decide)
  unfold Mapping.decodeWith?
  rw [hfields]
  show (do
    let key ← defaulted none (orNull decode) _
    let value ← defaulted none (orNull decode) _
    return (⟨key, value⟩ : Mapping)) = some m
  rw [hslot m.key fun t ht => Mapping.mem_slots.2 (.inl ht), hslot m.value fun t ht => Mapping.mem_slots.2 (.inr ht)]
  cases m
  rfl

theorem Mapping.encode_ne_null (m : Mapping) : m.encode ≠ .null := nofun

/-- Alternatives, and the fields of an endpoint, are stored again under the addresses they were stored under. -/
theorem Catalogue.decodeWith?_encode {c : Catalogue} (hfresh : c.Fresh) (h : ∀ t ∈ Table.values c, decode t.encode = some t) :
    Catalogue.decodeWith? decode (.object (c.map (fun row => (row.1, row.2.encode)))) = some c := by
  unfold Catalogue.decodeWith?
  rw [table?_object Schema.encode hfresh.1 h, Option.map_some, hfresh.ofList_values]

theorem Form.decodeWith?_list {elems : List Schema} (h : ∀ t ∈ elems, decode t.encode = some t) :
    Form.decodeWith? decode (Form.list elems).encode = some (.list elems) := by
  have hfields := fields?_writtenRows [("elems", if elems.isEmpty then none else some (.array (elems.map Schema.encode)))]
    (List.nodup_singleton "elems")
  have helems : defaulted [] (items? decode) (if elems.isEmpty then none else some (.array (elems.map Schema.encode))) =
      some elems := defaulted_unless (fun hnil => (List.isEmpty_iff.1 hnil).symm) (items?_array h)
  rw [encode_list]
  -- From here only what `fields?` finds counts, not the rows it finds it in.
  generalize object (writtenRows _) = v at hfields ⊢
  show (fields? ["elems"] v >>= _) = _
  rw [show fields? ["elems"] v = _ from hfields]
  show (do return Form.list (← defaulted [] (items? decode) _)) = _
  rw [helems]
  rfl

theorem Form.decodeWith?_oneOf {options : Catalogue} {conflict : Bool} (hfresh : options.Fresh)
    (h : ∀ t ∈ Table.values options, decode t.encode = some t) :
    Form.decodeWith? decode (Form.oneOf options conflict).encode = some (.oneOf options conflict) := by
  have hfields := fields?_writtenRows [("options", some (.object (options.map (fun row => (row.1, row.2.encode))))),
    ("potentialConflict", some (.bool conflict))] (show ["options", "potentialConflict"].Nodup by decide)
  rw [encode_oneOf]
  generalize object (writtenRows _) = v at hfields ⊢
  show (fields? ["options", "potentialConflict"] v >>= _) = _
  rw [show fields? ["options", "potentialConflict"] v = _ from hfields]
  show (do
    let options ← Catalogue.decodeWith? decode _
    return Form.oneOf options conflict) = _
  rw [Catalogue.decodeWith?_encode hfresh h]
  rfl

/-- A record is read again although both of its fields may be left out. -/
theorem Form.decodeWith?_record {fields : Table Schema} {mapping : Option Mapping} (hsorted : Table.Sorted fields)
    (hfields : ∀ t ∈ Table.values fields, decode t.encode = some t)
    (hmapping : ∀ m ∈ mapping, ∀ t ∈ m.slots, decode t.encode = some t) :
    Form.decodeWith? decode (Form.record fields mapping).encode = some (.record fields mapping) := by
  have hread := fields?_writtenRows [
    ("fields", if fields.isEmpty then none else some (.object (fields.map (fun row => (row.1, row.2.encode))))),
    ("mapType", mapping.map Mapping.encode)] (show ["fields", "mapType"].Nodup by decide)
  have hrows : defaulted [] (table? decode)
      (if fields.isEmpty then none else some (.object (fields.map (fun row => (row.1, row.2.encode))))) = some fields :=
    defaulted_unless (fun hnil => (List.isEmpty_iff.1 hnil).symm) (table?_object Schema.encode hsorted hfields)
  have hslots : defaulted none (orNull (Mapping.decodeWith? decode)) (mapping.map Mapping.encode) = some mapping :=
    defaulted_orNull fun m hm => ⟨m.encode_ne_null, Mapping.decodeWith?_encode (hmapping m hm)⟩
  rw [encode_record]
  generalize object (writtenRows _) = v at hread ⊢
  show (fields? ["fields", "mapType"] v >>= _) = _
  rw [show fields? ["fields", "mapType"] v = _ from hread]
  show (do
    let fields ← defaulted [] (table? decode) _
    let mapping ← defaulted none (orNull (Mapping.decodeWith? decode)) _
    return Form.record fields mapping) = _
  rw [hrows, hslots]
  rfl

/-- A shape is read as it was written when its children are. -/
theorem Form.decodeWith?_encode {f : Form} (hf : f.Rereadable) (h : ∀ t ∈ f.children, decode t.encode = some t) :
    Form.decodeWith? decode f.encode = some f := by
  cases f with
  | primitive p =>
    show (Primitive.decode? p.encode).map _ = _
    rw [Primitive.decode?_encode hf.labelled hf.finite]
    rfl
  | absent => rfl
  | optional inner =>
    show (decode inner.encode).map _ = _
    rw [h inner List.mem_cons_self]
    rfl
  | list elems => exact decodeWith?_list h
  | oneOf options conflict => exact decodeWith?_oneOf hf.fresh h
  | record fields mapping =>
    refine decodeWith?_record hf.ordered (fun t ht => h t (List.mem_append_left _ ht)) fun m hm t ht => ?_
    obtain rfl : mapping = some m := hm
    exact h t (List.mem_append_right _ ht)

end

/-! ## Trees -/

/-- Every table at every node has its keys in order, as tables filled by insertion have: fields or options, examples
and formats. -/
def Schema.Arranged (s : Schema) : Prop :=
  s.Throughout (fun t => t.form.Ordered ∧ t.form.Labelled ∧ Table.Sorted t.examples)

/-- Every floating-point payload in the tree is a finite number. -/
def Schema.FiniteValues (s : Schema) : Prop := s.Throughout (fun t => t.form.FinitePayload)

/-- Every entry is arranged. -/
def Catalogue.Arranged (c : Catalogue) : Prop := ∀ s ∈ Table.values c, s.Arranged

/-- Every entry has finite payloads only. -/
def Catalogue.FiniteValues (c : Catalogue) : Prop := ∀ s ∈ Table.values c, s.FiniteValues

/-- Arguments and responses are arranged. -/
def Endpoint.Arranged (e : Endpoint) : Prop := e.args.Arranged ∧ e.responses.Arranged

/-- Arguments and responses have finite payloads only. -/
def Endpoint.FiniteValues (e : Endpoint) : Prop := e.args.FiniteValues ∧ e.responses.FiniteValues

/-- A tree that is read again as it was written. -/
def Schema.Rereadable (s : Schema) : Prop := s.Throughout (Schema.ReadAs Form.Rereadable)

theorem Schema.rereadable_iff {s : Schema} : s.Rereadable ↔ s.Keyed ∧ s.Arranged ∧ s.FiniteValues := by
  constructor
  · intro h
    exact ⟨h.mono fun _ ht => ht.1.fresh, h.mono fun _ ht => ⟨ht.1.ordered, ht.1.labelled, ht.2⟩, h.mono fun _ ht => ht.1.finite⟩
  · rintro ⟨hkeyed, harranged, hfinite⟩
    exact (hkeyed.and (harranged.and hfinite)).mono fun _ ht => ⟨⟨ht.1, ht.2.1.1, ht.2.1.2.1, ht.2.2⟩, ht.2.1.2.2⟩

/-- Any depth that is not less than that of the written value is enough to read it. -/
theorem Schema.Rereadable.decodeWithin?_encode {s : Schema} (h : s.Rereadable) :
    ∀ depth, s.encode.depth ≤ depth → Schema.decodeWithin? depth s.encode = some s := by
  induction s using Schema.inductionOn with
  | step s ih =>
    intro depth hdepth
    obtain ⟨hroot, hexamples⟩ := h.root
    cases depth with
    | zero =>
      rw [s.encode_eq] at hdepth
      exact absurd hdepth (Nat.not_succ_le_zero _)
    | succ depth =>
      -- A node takes one level of depth, and its children lie at least one level deeper.
      have hform := Form.decodeWith?_encode hroot fun t ht =>
        ih t ht (h.child t ht) depth (Nat.le_of_lt_succ ((Schema.depth_lt ht).trans_le hdepth))
      have hnullable : defaulted false bool? (if !s.nullable then none else some (.bool true)) = some s.nullable := by
        cases s.nullable <;> rfl
      have hmetadata : defaulted none (orNull Metadata.decode?) (s.metadata.map Metadata.encode) = some s.metadata :=
        defaulted_orNull fun m _ => ⟨nofun, m.decode?_encode⟩
      have hexamples : defaulted [] Examples.decode? (if s.examples.isEmpty then none else some (Examples.encode s.examples)) =
          some s.examples :=
        defaulted_unless (fun hnil => (List.isEmpty_iff.1 hnil).symm) (Examples.decode?_encode hexamples)
      have hfields := fields?_writtenRows [("value", some s.form.encode),
        ("nullable", if !s.nullable then none else some (.bool true)), ("meta", s.metadata.map Metadata.encode),
        ("exampleValues", if s.examples.isEmpty then none else some (Examples.encode s.examples))]
        (show ["value", "nullable", "meta", "exampleValues"].Nodup by decide)
      rw [s.encode_eq]
      unfold Schema.decodeWithin?
      rw [show fields? ["value", "nullable", "meta", "exampleValues"] _ = _ from hfields]
      show (do
        let form ← Form.decodeWith? (Schema.decodeWithin? depth) _
        let isNullable ← defaulted false bool? _
        let metadata ← defaulted none (orNull Metadata.decode?) _
        let examples ← defaulted [] Examples.decode? _
        return (⟨form, isNullable, metadata, examples⟩ : Schema)) = some s
      rw [hform, hnullable, hmetadata, hexamples]
      cases s
      rfl

theorem Schema.decode?_encode {s : Schema} (hkeyed : s.Keyed) (harranged : s.Arranged) (hfinite : s.FiniteValues) :
    Schema.decode? s.encode = some s :=
  (Schema.rereadable_iff.2 ⟨hkeyed, harranged, hfinite⟩).decodeWithin?_encode _ (Nat.le_refl _)

theorem Catalogue.decode?_encode {c : Catalogue} (hkeyed : c.Keyed) (harranged : c.Arranged) (hfinite : c.FiniteValues) :
    Catalogue.decode? c.encode = some c := by
  unfold Catalogue.decode? Catalogue.encode
  rw [encodeRows_eq]
  exact Catalogue.decodeWith?_encode hkeyed.1 fun s hs =>
    Schema.decode?_encode (hkeyed.2 s hs) (harranged s hs) (hfinite s hs)

/-! ## Endpoints -/

theorem EndpointId.decode?_encode (id : EndpointId) : EndpointId.decode? id.encode = some id := by
  have hfields := fields?_writtenRows [("host", some (.text id.host)), ("operation", some (.text id.operation)),
    ("pathTemplate", some (.text id.pathTemplate))] (show ["host", "operation", "pathTemplate"].Nodup by decide)
  unfold EndpointId.decode?
  rw [show fields? ["host", "operation", "pathTemplate"] id.encode = _ from hfields]
  rfl

theorem Endpoint.decode?_encode {e : Endpoint} (hkeyed : e.Keyed) (harranged : e.Arranged) (hfinite : e.FiniteValues) :
    Endpoint.decode? e.encode = some e := by
  have hfields := fields?_writtenRows [("meta", some e.id.encode), ("args", some (Catalogue.encode e.args)),
    ("responses", some (Catalogue.encode e.responses))] (show ["meta", "args", "responses"].Nodup by decide)
  unfold Endpoint.decode?
  rw [show fields? ["meta", "args", "responses"] e.encode = _ from hfields]
  show (do
    let id ← EndpointId.decode? e.id.encode
    let args ← Catalogue.decode? (Catalogue.encode e.args)
    let responses ← Catalogue.decode? (Catalogue.encode e.responses)
    return (⟨id, args, responses⟩ : Endpoint)) = some e
  rw [EndpointId.decode?_encode, Catalogue.decode?_encode hkeyed.1 harranged.1 hfinite.1,
    Catalogue.decode?_encode hkeyed.2 harranged.2 hfinite.2]
  rfl

/--
Reading gives back exactly what was written: every tree, catalogue and endpoint with fresh keys, tables in order and
finite floating-point payloads is read from its JSON value as the same tree, catalogue or endpoint.
-/
theorem decode_inverts_encode :
    (∀ s : Schema, s.Keyed → s.Arranged → s.FiniteValues → Schema.decode? s.encode = some s) ∧
    (∀ c : Catalogue, c.Keyed → c.Arranged → c.FiniteValues → Catalogue.decode? c.encode = some c) ∧
    ∀ e : Endpoint, e.Keyed → e.Arranged → e.FiniteValues → Endpoint.decode? e.encode = some e :=
  ⟨fun _ => Schema.decode?_encode, fun _ => Catalogue.decode?_encode, fun _ => Endpoint.decode?_encode⟩

/-- A nullable record with the key of a map and with metadata, whose fields, one of them optional, are alternatives
that hold a number with formats and an example. -/
theorem decode_inverts_encode_record : ∃ number width s : Schema,
    number = { form := .primitive ⟨.float ⟨0x3FC00000#32⟩, "size", ["em", "px"], ""⟩, examples := [("first", "1.5")] } ∧
    width = { form := .oneOf [(number.address, number)] true } ∧
    s = ⟨.record [("id", Schema.ofOptional width), ("width", width)] (some ⟨some number, none⟩), true,
      some ⟨some ⟨.body "json", 200⟩⟩, []⟩ ∧
    Schema.decode? s.encode = some s ∧
    Catalogue.decode? (Catalogue.encode [(s.address, s)]) = some [(s.address, s)] ∧
    Endpoint.decode? (Endpoint.encode ⟨⟨"localhost", "GET", "/items"⟩, [], [(s.address, s)]⟩) =
      some ⟨⟨"localhost", "GET", "/items"⟩, [], [(s.address, s)]⟩ := by
  obtain ⟨number, hnumber⟩ : ∃ s : Schema, s =
      { form := .primitive ⟨.float ⟨0x3FC00000#32⟩, "size", ["em", "px"], ""⟩, examples := [("first", "1.5")] } := ⟨_, rfl⟩
  obtain ⟨width, hwidth⟩ : ∃ s : Schema, s = { form := .oneOf [(number.address, number)] true } := ⟨_, rfl⟩
  obtain ⟨s, hs⟩ : ∃ s : Schema, s = ⟨.record [("id", Schema.ofOptional width), ("width", width)] (some ⟨some number, none⟩),
      true, some ⟨some ⟨.body "json", 200⟩⟩, []⟩ := ⟨_, rfl⟩
  have hnumber' : number.Rereadable := by
    subst hnumber
    exact .intro ⟨⟨trivial, trivial, show ["em", "px"].Pairwise (· < ·) by decide,
      show Binary.isFinite (⟨0x3FC00000#32⟩ : Binary32) = true by decide⟩, List.pairwise_singleton _ _⟩ nofun
  have hwidth' : width.Rereadable := by
    subst hwidth
    exact .intro ⟨⟨⟨List.pairwise_singleton _ _, List.forall_mem_singleton.2 rfl⟩, List.pairwise_singleton _ _, trivial,
      trivial⟩, .nil⟩ (List.forall_mem_singleton.2 hnumber')
  have hoptional : (Schema.ofOptional width).Rereadable :=
    .intro ⟨⟨trivial, trivial, trivial, trivial⟩, .nil⟩ (List.forall_mem_singleton.2 hwidth')
  have hs' : s.Rereadable := by
    subst hs
    exact .intro ⟨⟨trivial, List.pairwise_map.1 (show ["id", "width"].Pairwise (· < ·) by decide), trivial, trivial⟩, .nil⟩
      (List.forall_mem_cons.2 ⟨hoptional, List.forall_mem_cons.2 ⟨hwidth', List.forall_mem_singleton.2 hnumber'⟩⟩)
  obtain ⟨hkeyed, harranged, hfinite⟩ := Schema.rereadable_iff.1 hs'
  have hc : Catalogue.Keyed [(s.address, s)] ∧ Catalogue.Arranged [(s.address, s)] ∧ Catalogue.FiniteValues [(s.address, s)] :=
    ⟨⟨⟨List.pairwise_singleton _ _, List.forall_mem_singleton.2 rfl⟩, List.forall_mem_singleton.2 hkeyed⟩,
      List.forall_mem_singleton.2 harranged, List.forall_mem_singleton.2 hfinite⟩
  exact ⟨number, width, s, hnumber, hwidth, hs, decode_inverts_encode.1 s hkeyed harranged hfinite,
    decode_inverts_encode.2.1 _ hc.1 hc.2.1 hc.2.2,
    decode_inverts_encode.2.2 _ ⟨.nil, hc.1⟩ ⟨nofun, hc.2.1⟩ ⟨nofun, hc.2.2⟩⟩

/-! ## Reading again -/

/-- What reading settles of a shape: fresh keys, and tables and formats in order. -/
theorem Form.readable_arranged : Readable (fun f => f.Fresh ∧ f.Ordered ∧ f.Labelled) where
  primitive h := ⟨trivial, trivial, Primitive.labelled_of_decode? h⟩
  record _ hsorted := ⟨trivial, hsorted, trivial⟩
  list _ := ⟨trivial, trivial, trivial⟩
  absent := ⟨trivial, trivial, trivial⟩
  optional _ := ⟨trivial, trivial, trivial⟩
  oneOf nodes _ := ⟨Catalogue.fresh_ofList nodes, Catalogue.sorted_ofList nodes, trivial⟩

theorem Schema.arranged_of_decode? {v : JsonValue} {s : Schema} (h : Schema.decode? v = some s) : s.Arranged :=
  (Schema.throughout_of_decodeWithin? Form.readable_arranged h).mono fun _ ht => ⟨ht.1.2.1, ht.1.2.2, ht.2⟩

theorem Catalogue.arranged_of_decode? {v : JsonValue} {c : Catalogue} (h : Catalogue.decode? v = some c) : c.Arranged := by
  -- Options and entries that fall together are merged, which leaves their examples in order.
  have hmerge : ∀ (s : Schema) (e : Examples), s.Arranged → (s.mergeExamples e).Arranged := fun s e hs =>
    hs.congr rfl fun ⟨hordered, hlabelled, hexamples⟩ => ⟨hordered, hlabelled, Examples.sorted_merge hexamples e⟩
  exact (Catalogue.of_decodeWith? (R := Schema.Arranged) (fun _ _ => Schema.arranged_of_decode?) hmerge h).2

/-- A tree that is read, from a value in any layout, is the same when it is written and read again, if its numbers
are finite. -/
theorem Schema.decode?_again {v : JsonValue} {s : Schema} (h : Schema.decode? v = some s) (hfinite : s.FiniteValues) :
    Schema.decode? s.encode = some s :=
  Schema.decode?_encode (Schema.keyed_of_decode? h) (Schema.arranged_of_decode? h) hfinite

theorem Catalogue.decode?_again {v : JsonValue} {c : Catalogue} (h : Catalogue.decode? v = some c)
    (hfinite : c.FiniteValues) : Catalogue.decode? c.encode = some c :=
  Catalogue.decode?_encode (Catalogue.keyed_of_decode? h) (Catalogue.arranged_of_decode? h) hfinite

theorem Endpoint.decode?_again {v : JsonValue} {e : Endpoint} (h : Endpoint.decode? v = some e)
    (hfinite : e.FiniteValues) : Endpoint.decode? e.encode = some e :=
  Endpoint.decode?_encode (Endpoint.keyed_of_decode? h)
    (Endpoint.of_decode? nofun (fun _ _ => Catalogue.arranged_of_decode?) h) hfinite

end ApiShape

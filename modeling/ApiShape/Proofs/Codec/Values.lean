/-
Values, primitives and metadata are read back as they were written. A record is written without the fields
that hold their defaults: reading it finds each field that was written, and the default for each other one
(`fields?_writtenRows`).
-/
import ApiShape.Codec.Encode
import ApiShape.Proofs.Decode
import ApiShape.Proofs.Numeric.Decimal
import ApiShape.Proofs.Primitive.Join

namespace ApiShape

/-! ## Lists of values -/

theorem mapM_map_eq_some {α β γ : Type} {f : β → Option γ} {g : α → β} {h : α → γ} {l : List α}
    (hf : ∀ a ∈ l, f (g a) = some (h a)) : (l.map g).mapM f = some (l.map h) := by
  induction l with
  | nil => rfl
  | cons a rest ih =>
    rw [List.map_cons, List.mapM_cons, hf a List.mem_cons_self, ih fun b hb => hf b (List.mem_cons_of_mem _ hb)]
    rfl

namespace JsonValue

section

variable {α : Type} {decode : JsonValue → Option α} {encode : α → JsonValue}

theorem items?_array {l : List α} (h : ∀ a ∈ l, decode (encode a) = some a) :
    items? decode (.array (l.map encode)) = some l := by
  show (l.map encode).mapM decode = some l
  rw [mapM_map_eq_some (h := id) h, List.map_id]

theorem table?_object (encode : α → JsonValue) {t : Table α} (hsorted : Table.Sorted t)
    (h : ∀ a ∈ Table.values t, decode (encode a) = some a) :
    table? decode (.object (t.map (fun row => (row.1, encode row.2)))) = some t := by
  have hrows : (t.map (fun row => (row.1, encode row.2))).mapM (fun row => (decode row.2).map (row.1, ·)) = some (t.map id) := by
    refine mapM_map_eq_some fun row hrow => ?_
    rw [h row.2 (Table.mem_values_of_mem hrow)]
    rfl
  unfold table?
  dsimp only
  rw [hrows, List.map_id, Option.map_some, hsorted.ofRows_eq]

/-! ## Fields of records -/

/-- The rows of a record: those of the fields that have a value. -/
def writtenRows (fields : List (String × Option JsonValue)) : List (String × JsonValue) :=
  fields.flatMap (fun field => rowIfAny field.1 field.2)

@[simp] theorem writtenRows_nil : writtenRows [] = [] := rfl

@[simp] theorem writtenRows_cons (name : String) (v : Option JsonValue) (rest : List (String × Option JsonValue)) :
    writtenRows ((name, v) :: rest) = rowIfAny name v ++ writtenRows rest := rfl

theorem mem_writtenRows {fields : List (String × Option JsonValue)} {name : String} {v : JsonValue} :
    (name, v) ∈ writtenRows fields ↔ (name, some v) ∈ fields := by
  induction fields with
  | nil => simp
  | cons field rest ih =>
    obtain ⟨key, w⟩ := field
    rw [writtenRows_cons, List.mem_append, List.mem_cons, ih]
    cases w <;> simp [rowIfAny]

theorem rowUnless_eq (omitted : Bool) (name : String) (v : JsonValue) :
    rowUnless omitted name v = rowIfAny name (if omitted then none else some v) := by
  cases omitted <;> rfl

theorem filter_rowIfAny (name key : String) (v : Option JsonValue) :
    (rowIfAny name v).filter (fun row => row.1 = key) = if name = key then rowIfAny name v else [] := by
  cases v with
  | none => simp [rowIfAny]
  | some v => by_cases h : name = key <;> simp [rowIfAny, h]

/-- The rows with one key are those of its field. -/
theorem filter_writtenRows {fields : List (String × Option JsonValue)} {key : String} {v : Option JsonValue}
    (hnames : (fields.map (·.1)).Nodup) (h : (key, v) ∈ fields) :
    (writtenRows fields).filter (fun row => row.1 = key) = rowIfAny key v := by
  induction fields with
  | nil => cases h
  | cons field rest ih =>
    obtain ⟨name, w⟩ := field
    obtain ⟨hnew, hrest⟩ := List.nodup_cons.1 hnames
    rw [writtenRows_cons, List.filter_append, filter_rowIfAny]
    rcases List.mem_cons.1 h with h | h
    · cases h
      have hnone : (writtenRows rest).filter (fun row => row.1 = key) = [] := by
        refine List.filter_eq_nil_iff.2 fun ⟨name, w⟩ hrow heq => hnew ?_
        obtain rfl : name = key := of_decide_eq_true heq
        exact List.mem_map_of_mem (f := (·.1)) (mem_writtenRows.1 hrow)
      rw [if_pos rfl, hnone, List.append_nil]
    · have hne : name ≠ key := by
        rintro rfl
        exact hnew (List.mem_map_of_mem (f := (·.1)) h)
      rw [if_neg hne, List.nil_append, ih hrest h]

/-- Reading a record finds what was written of each of its fields. -/
theorem fields?_writtenRows (fields : List (String × Option JsonValue)) (hnames : (fields.map (·.1)).Nodup) :
    fields? (fields.map (·.1)) (.object (writtenRows fields)) = some (fields.map (·.2)) := by
  refine mapM_map_eq_some fun field hfield => ?_
  unfold only?
  rw [filter_writtenRows hnames hfield]
  cases field.2 <;> rfl

/-- What is left out when it is the default is found again. -/
theorem defaulted_unless {default a : α} {v : JsonValue} {omitted : Bool} (homitted : omitted = true → default = a)
    (hv : decode v = some a) : defaulted default decode (if omitted then none else some v) = some a := by
  cases omitted with
  | true => exact congrArg some (homitted rfl)
  | false => exact hv

theorem orNull_of_ne_null {v : JsonValue} {a : α} (hnull : v ≠ .null) (hv : decode v = some a) :
    orNull decode v = some (some a) := by
  unfold orNull
  split
  · exact absurd rfl hnull
  · rw [hv]
    rfl

theorem defaulted_orNull {slot : Option α} (h : ∀ a ∈ slot, encode a ≠ .null ∧ decode (encode a) = some a) :
    defaulted none (orNull decode) (slot.map encode) = some slot := by
  cases slot with
  | none => rfl
  | some a => exact orNull_of_ne_null (h a rfl).1 (h a rfl).2

end

/-! ## Numbers -/

theorem signed?_integer {bits : Nat} {i : Int} (hlow : -(twoPow (bits - 1)) ≤ i) (hhigh : i < twoPow (bits - 1)) :
    signed? bits (integer i) = some i := by
  show (if (_ ≤ i && i ≤ _) = true then some i else none) = some i
  rw [if_pos]
  simp only [Bool.and_eq_true, decide_eq_true_eq]
  omega

theorem natural?_integer {bits n : Nat} (h : n < twoPow bits) : natural? bits (integer n) = some n := by
  show (if (_ ≤ (n : Int) && (n : Int) ≤ _) = true then some (n : Int) else none).map Int.toNat = some n
  rw [if_pos]
  · rfl
  · simp only [Bool.and_eq_true, decide_eq_true_eq]
    omega

theorem binary?_encode {fmt : BinaryFormat} (hfmt : 2 ≤ fmt.exponentBits) (layout : DecimalLayout) {x : Binary fmt}
    (h : x.isFinite = true) : binary? fmt (x.encode layout) = some x := by
  unfold Binary.encode
  rw [if_pos h]
  exact layout.toBinary?_ofBinary hfmt h

end JsonValue

open JsonValue

/-! ## Scalars and primitives -/

/-- A floating-point payload is a finite number. -/
def Scalar.FinitePayload : Scalar → Prop
  | .float x => x.isFinite = true
  | .double x => x.isFinite = true
  | _ => True

theorem BaseType.ofName?_name (t : BaseType) : BaseType.ofName? t.name = some t := by
  cases t <;> decide

/-- A payload is read again at its type; the floating-point ones by their shortest decimals. -/
theorem Scalar.decodePayload?_encodePayload {s : Scalar} (h : s.FinitePayload) :
    Scalar.decodePayload? s.encodePayload s.baseType = some s := by
  cases s with
  | bool v => rfl
  | string v => rfl
  | bytes v =>
    have hbyte : ∀ b ∈ v, (fun v => (natural? 8 v).map Nat.toUInt8) (integer (UInt8.toNat b)) = some b := by
      intro b _
      dsimp only
      rw [natural?_integer (b.toNat_lt)]
      exact congrArg some UInt8.ofNat_toNat
    show (items? _ (.array (v.map _))).map Scalar.bytes = _
    rw [items?_array hbyte]
    rfl
  | int32 v =>
    show (signed? 32 (integer v.toInt)).map _ = _
    rw [signed?_integer (v.le_toInt) (v.toInt_lt)]
    exact congrArg (fun v => some (Scalar.int32 v)) v.ofInt_toInt
  | int64 v =>
    show (signed? 64 (integer v.toInt)).map _ = _
    rw [signed?_integer (v.le_toInt) (v.toInt_lt)]
    exact congrArg (fun v => some (Scalar.int64 v)) v.ofInt_toInt
  | uint32 v =>
    show (natural? 32 (integer v.toNat)).map _ = _
    rw [natural?_integer (v.toNat_lt)]
    exact congrArg (fun v => some (Scalar.uint32 v)) UInt32.ofNat_toNat
  | uint64 v =>
    show (natural? 64 (integer v.toNat)).map _ = _
    rw [natural?_integer (v.toNat_lt)]
    exact congrArg (fun v => some (Scalar.uint64 v)) UInt64.ofNat_toNat
  | float x =>
    show (binary? .single (x.encode .single)).map _ = _
    rw [binary?_encode (by decide) _ h]
    rfl
  | double x =>
    show (binary? .double (x.encode .double)).map _ = _
    rw [binary?_encode (by decide) _ h]
    rfl

theorem Scalar.decode?_encode {s : Scalar} (h : s.FinitePayload) : Scalar.decode? s.encode = some s := by
  show (BaseType.ofName? s.baseType.name).bind (Scalar.decodePayload? s.encodePayload) = some s
  rw [BaseType.ofName?_name]
  exact Scalar.decodePayload?_encodePayload h

theorem Primitive.fields?_encode (p : Primitive) :
    fields? ["value", "formatKind", "formats", "typeHint"] p.encode =
      some [some p.value.encode, if p.formatKind.isEmpty then none else some (.text p.formatKind),
        if p.formats.isEmpty then none else some (.array (p.formats.map .text)),
        if p.typeHint.isEmpty then none else some (.text p.typeHint)] := by
  have hrows : p.encode = .object (writtenRows [("value", some p.value.encode),
      ("formatKind", if p.formatKind.isEmpty then none else some (.text p.formatKind)),
      ("formats", if p.formats.isEmpty then none else some (.array (p.formats.map .text))),
      ("typeHint", if p.typeHint.isEmpty then none else some (.text p.typeHint))]) := by
    simp [Primitive.encode, rowUnless_eq, rowIfAny]
  rw [hrows]
  exact fields?_writtenRows _ (show ["value", "formatKind", "formats", "typeHint"].Nodup by decide)

/-- Formats in order are the set that reading makes of them. -/
theorem Primitive.decode?_encode {p : Primitive} (hformats : p.formats.Pairwise (· < ·)) (hvalue : p.value.FinitePayload) :
    Primitive.decode? p.encode = some p := by
  have htext : ∀ s : String, defaulted "" text? (if s.isEmpty then none else some (.text s)) = some s := fun s =>
    defaulted_unless (fun h => (String.isEmpty_iff.1 h).symm) rfl
  have hitems : defaulted [] (items? text?) (if p.formats.isEmpty then none else some (.array (p.formats.map .text))) =
      some p.formats :=
    defaulted_unless (fun h => (List.isEmpty_iff.1 h).symm) (items?_array fun _ _ => rfl)
  unfold Primitive.decode?
  rw [p.fields?_encode]
  show (do
    let value ← Scalar.decode? p.value.encode
    let formatKind ← defaulted "" text? _
    let formats ← defaulted [] (items? text?) _
    let typeHint ← defaulted "" text? _
    return (⟨value, formatKind, Labels.ofList formats, typeHint⟩ : Primitive)) = some p
  rw [Scalar.decode?_encode hvalue, htext, hitems, htext]
  show some (⟨p.value, p.formatKind, Labels.ofList p.formats, p.typeHint⟩ : Primitive) = some p
  rw [Labels.ofList_eq hformats]

/-- The formats of a primitive that is read are in order, whatever order the value has them in. -/
theorem Primitive.labelled_of_decode? {v : JsonValue} {p : Primitive} (h : Primitive.decode? v = some p) :
    p.formats.Pairwise (· < ·) := by
  obtain ⟨fields, -, h⟩ := Option.bind_eq_some_iff.1 h
  split at h
  · obtain ⟨_, -, h⟩ := Option.bind_eq_some_iff.1 h
    obtain ⟨_, -, h⟩ := Option.bind_eq_some_iff.1 h
    obtain ⟨formats, -, h⟩ := Option.bind_eq_some_iff.1 h
    obtain ⟨_, -, h⟩ := Option.bind_eq_some_iff.1 h
    cases h
    exact Labels.pairwise_union .nil formats
  · cases h

/-! ## Metadata -/

theorem Location.decodeKey?_object (name key : String) :
    Location.decodeKey? name (.object [(name, .text key)]) = some key := by
  have hfields : fields? [name] (.object [(name, .text key)]) = some [some (.text key)] :=
    fields?_writtenRows [(name, some (.text key))] (List.nodup_singleton name)
  unfold Location.decodeKey?
  rw [hfields]
  rfl

theorem Location.decode?_encode (l : Location) : Location.decode? l.encode = some l := by
  cases l with
  | path key => exact congrArg (Option.map Location.path) (decodeKey?_object "key" key)
  | query key => exact congrArg (Option.map Location.query) (decodeKey?_object "key" key)
  | header key => exact congrArg (Option.map Location.header) (decodeKey?_object "key" key)
  | cookie key => exact congrArg (Option.map Location.cookie) (decodeKey?_object "key" key)
  | body contentType => exact congrArg (Option.map Location.body) (decodeKey?_object "content_type" contentType)
  | auth scheme => exact congrArg (Option.map Location.auth) (decodeKey?_object "scheme" scheme)
  | empty => rfl

theorem Position.decode?_encode (p : Position) : Position.decode? p.encode = some p := by
  have hfields : fields? ["location", "responseCode"] p.encode =
      some [some p.location.encode, some (integer p.responseCode.toInt)] :=
    fields?_writtenRows [("location", some p.location.encode),
      ("responseCode", some (integer p.responseCode.toInt))] (show ["location", "responseCode"].Nodup by decide)
  unfold Position.decode?
  rw [hfields]
  show (do
    let location ← Location.decode? p.location.encode
    let code ← signed? 32 (integer p.responseCode.toInt)
    return (⟨location, Int32.ofInt code⟩ : Position)) = some p
  rw [Location.decode?_encode, signed?_integer p.responseCode.le_toInt p.responseCode.toInt_lt]
  show some (⟨p.location, Int32.ofInt p.responseCode.toInt⟩ : Position) = some p
  rw [Int32.ofInt_toInt]

theorem Metadata.decode?_encode (m : Metadata) : Metadata.decode? m.encode = some m := by
  have hfields : fields? ["http"] m.encode = some [m.http.map Position.encode] := by
    have hrows : m.encode = .object (writtenRows [("http", m.http.map Position.encode)]) := by simp [Metadata.encode]
    rw [hrows]
    exact fields?_writtenRows _ (List.nodup_singleton "http")
  have hhttp : defaulted none (orNull Position.decode?) (m.http.map Position.encode) = some m.http :=
    defaulted_orNull fun p _ => ⟨nofun, p.decode?_encode⟩
  unfold Metadata.decode?
  rw [hfields]
  show (do return (⟨← defaulted none (orNull Position.decode?) _⟩ : Metadata)) = some m
  rw [hhttp]
  rfl

/-! ## Examples -/

theorem Examples.decode?_encode {e : Examples} (h : Table.Sorted e) : Examples.decode? e.encode = some e := by
  have hvalue : ∀ s ∈ Table.values e, Examples.decodeValue? (.object [("value", .text s)]) = some s := by
    intro s _
    have hfields : fields? ["value"] (.object [("value", .text s)]) = some [some (.text s)] :=
      fields?_writtenRows [("value", some (.text s))] (List.nodup_singleton "value")
    unfold Examples.decodeValue?
    rw [hfields]
    rfl
  exact table?_object (fun s => .object [("value", .text s)]) h hvalue

end ApiShape

/-
What holds of every tree, catalogue and endpoint that is read from a JSON value: its tables have their
keys in order and its keys are fresh, in whatever order and under whatever keys the rows stand.
-/
import ApiShape.Codec.Decode
import ApiShape.Proofs.Keys.Walk

namespace ApiShape

open JsonValue

section

variable {α : Type} {decode : JsonValue → Option α} {R : α → Prop}

/-! ## Parts of values -/

theorem of_mapM_eq_some {β γ : Type} {f : β → Option γ} {l : List β} {r : List γ}
    (h : l.mapM f = some r) : ∀ b ∈ r, ∃ a ∈ l, f a = some b := by
  induction l generalizing r with
  | nil =>
    cases h
    exact nofun
  | cons a rest ih =>
    rw [List.mapM_cons] at h
    obtain ⟨b, hb, h⟩ := Option.bind_eq_some_iff.1 h
    obtain ⟨bs, hbs, h⟩ := Option.bind_eq_some_iff.1 h
    cases h
    intro c hc
    rcases List.mem_cons.1 hc with rfl | hc
    · exact ⟨a, List.mem_cons_self, hb⟩
    · obtain ⟨a', ha', hf⟩ := ih hbs c hc
      exact ⟨a', List.mem_cons_of_mem _ ha', hf⟩

theorem items?_all {v : JsonValue} {l : List α} (h : v.items? decode = some l)
    (hR : ∀ v a, decode v = some a → R a) : ∀ a ∈ l, R a := by
  unfold items? at h
  split at h
  · intro a ha
    obtain ⟨v, -, hv⟩ := of_mapM_eq_some h a ha
    exact hR v a hv
  · cases h

theorem table?_all {v : JsonValue} {t : Table α} (h : v.table? decode = some t)
    (hR : ∀ v a, decode v = some a → R a) : ∀ a ∈ Table.values t, R a := by
  unfold table? at h
  split at h
  · obtain ⟨rows, hrows, rfl⟩ := Option.map_eq_some_iff.1 h
    intro a ha
    obtain ⟨key, hrow⟩ := Table.mem_values.1 ha
    obtain ⟨⟨_, v⟩, -, hv⟩ := of_mapM_eq_some hrows (key, a) (Table.mem_of_mem_ofRows hrow)
    obtain ⟨a, ha, heq⟩ := Option.map_eq_some_iff.1 hv
    cases heq
    exact hR v _ ha
  · cases h

theorem sorted_of_table? {v : JsonValue} {t : Table α} (h : v.table? decode = some t) : Table.Sorted t := by
  unfold table? at h
  split at h
  · obtain ⟨rows, -, rfl⟩ := Option.map_eq_some_iff.1 h
    exact Table.Sorted.nil.foldl_insert (f := id)
  · cases h

theorem required_all {v : Option JsonValue} {a : α} (h : required decode v = some a)
    (hR : ∀ v a, decode v = some a → R a) : R a := by
  cases v with
  | none => cases h
  | some v => exact hR v a h

theorem defaulted_all {default : α} {v : Option JsonValue} {a : α} (h : defaulted default decode v = some a)
    (hdefault : R default) (hR : ∀ v a, decode v = some a → R a) : R a := by
  cases v with
  | none =>
    cases h
    exact hdefault
  | some v => exact hR v a h

theorem orNull_all {v : JsonValue} {slot : Option α} (h : orNull decode v = some slot)
    (hR : ∀ v a, decode v = some a → R a) : ∀ a ∈ slot, R a := by
  unfold orNull at h
  split at h
  · cases h
    exact nofun
  · obtain ⟨a, ha, rfl⟩ := Option.map_eq_some_iff.1 h
    rintro _ ⟨⟩
    exact hR _ a ha

end

theorem Examples.sorted_merge {e : Examples} (h : Table.Sorted e) (other : Examples) :
    Table.Sorted (Examples.merge e other) := by
  unfold Examples.merge
  refine List.Pairwise.sublist (List.take_sublist _ _) ?_
  induction other generalizing e with
  | nil => exact h
  | cons row rest ih => exact ih h.insertNew

/-! ## Trees -/

/-- What a property of shapes has to allow in order to hold of everything that is read. -/
structure Readable (Q : Form → Prop) : Prop where
  primitive {v : JsonValue} {p : Primitive} : Primitive.decode? v = some p → Q (.primitive p)
  record {fields : Table Schema} (mapping : Option Mapping) : Table.Sorted fields → Q (.record fields mapping)
  list (elems : List Schema) : Q (.list elems)
  absent : Q .absent
  optional (inner : Schema) : Q (.optional inner)
  oneOf (nodes : List Schema) (conflict : Bool) : Q (.oneOf (Catalogue.ofList nodes) conflict)

section

variable {Q : Form → Prop} {R : Schema → Prop} {decode : JsonValue → Option Schema}
  (hdecode : ∀ v s, decode v = some s → R s)

include hdecode

theorem Catalogue.of_decodeWith? (hmerge : ∀ s e, R s → R (Schema.mergeExamples s e)) {v : JsonValue} {c : Catalogue}
    (h : Catalogue.decodeWith? decode v = some c) :
    (∃ nodes, c = Catalogue.ofList nodes) ∧ ∀ s ∈ Table.values c, R s := by
  obtain ⟨t, ht, rfl⟩ := Option.map_eq_some_iff.1 h
  exact ⟨⟨_, rfl⟩, Catalogue.ofList_values hmerge (table?_all ht hdecode)⟩

theorem Mapping.of_decodeWith? {v : JsonValue} {m : Mapping} (h : Mapping.decodeWith? decode v = some m) :
    ∀ t ∈ m.slots, R t := by
  obtain ⟨fields, -, h⟩ := Option.bind_eq_some_iff.1 h
  split at h
  · obtain ⟨key, hkey, h⟩ := Option.bind_eq_some_iff.1 h
    obtain ⟨value, hvalue, h⟩ := Option.bind_eq_some_iff.1 h
    cases h
    have hslot : ∀ v (slot : Option Schema), orNull decode v = some slot → ∀ s ∈ slot, R s :=
      fun v slot hv => orNull_all hv hdecode
    have hkey := defaulted_all hkey nofun hslot
    have hvalue := defaulted_all hvalue nofun hslot
    intro t ht
    rcases Mapping.mem_slots.1 ht with ht | ht
    · exact hkey t ht
    · exact hvalue t ht
  · cases h

/-- A shape that is read has what it may have, and its children are nodes that were read. -/
theorem Form.of_decodeWith? (hmerge : ∀ s e, R s → R (Schema.mergeExamples s e)) (hQ : Readable Q) {v : JsonValue} {f : Form}
    (h : Form.decodeWith? decode v = some f) : Q f ∧ ∀ t ∈ f.children, R t := by
  obtain ⟨variant, -, h⟩ := Option.bind_eq_some_iff.1 h
  split at h
  · obtain ⟨p, hp, rfl⟩ := Option.map_eq_some_iff.1 h
    exact ⟨hQ.primitive hp, nofun⟩
  · obtain ⟨values, -, h⟩ := Option.bind_eq_some_iff.1 h
    split at h
    · obtain ⟨fields, hfields, h⟩ := Option.bind_eq_some_iff.1 h
      obtain ⟨mapping, hmapping, h⟩ := Option.bind_eq_some_iff.1 h
      cases h
      obtain ⟨hsorted, hfields⟩ := defaulted_all
        (R := fun t => Table.Sorted t ∧ ∀ s ∈ Table.values t, R s) hfields ⟨.nil, nofun⟩
        fun v t hv => ⟨sorted_of_table? hv, table?_all hv hdecode⟩
      have hmapping := defaulted_all (R := fun m => ∀ m' ∈ m, ∀ t ∈ m'.slots, R t) hmapping nofun
        fun v m hv => orNull_all hv fun v m hv => Mapping.of_decodeWith? hdecode hv
      refine ⟨hQ.record mapping hsorted, fun t ht => ?_⟩
      rcases List.mem_append.1 ht with ht | ht
      · exact hfields t ht
      · cases mapping with
        | none => cases ht
        | some m => exact hmapping m rfl t ht
    · cases h
  · obtain ⟨values, -, h⟩ := Option.bind_eq_some_iff.1 h
    split at h
    · obtain ⟨elems, helems, h⟩ := Option.bind_eq_some_iff.1 h
      cases h
      exact ⟨hQ.list elems, defaulted_all (R := fun l => ∀ s ∈ l, R s) helems nofun fun v l hv => items?_all hv hdecode⟩
    · cases h
  · obtain ⟨inside, -, h⟩ := Option.bind_eq_some_iff.1 h
    split at h
    · obtain ⟨inner, hinner, rfl⟩ := Option.map_eq_some_iff.1 h
      exact ⟨hQ.optional inner, List.forall_mem_singleton.2 (hdecode _ inner hinner)⟩
    · split at h
      · cases h
        exact ⟨hQ.absent, nofun⟩
      · cases h
    · cases h
  · obtain ⟨values, -, h⟩ := Option.bind_eq_some_iff.1 h
    split at h
    · obtain ⟨options, hoptions, h⟩ := Option.bind_eq_some_iff.1 h
      obtain ⟨conflict, -, h⟩ := Option.bind_eq_some_iff.1 h
      cases h
      obtain ⟨⟨nodes, rfl⟩, hoptions⟩ := required_all hoptions fun v c hv => Catalogue.of_decodeWith? hdecode hmerge hv
      exact ⟨hQ.oneOf nodes conflict, hoptions⟩
    · cases h
  · cases h

end

/-- A node whose examples are in order, with a shape that has `Q`. -/
def Schema.ReadAs (Q : Form → Prop) (s : Schema) : Prop := Q s.form ∧ Table.Sorted s.examples

theorem Schema.Throughout.mergeExamples_readAs {Q : Form → Prop} {s : Schema} (h : s.Throughout (Schema.ReadAs Q)) (e : Examples) :
    (s.mergeExamples e).Throughout (Schema.ReadAs Q) :=
  h.congr rfl fun ⟨hform, hsorted⟩ => ⟨hform, Examples.sorted_merge hsorted e⟩

/-- A readable property of shapes holds throughout a tree that is read, and the examples of each node are in order. -/
theorem Schema.throughout_of_decodeWithin? {Q : Form → Prop} (hQ : Readable Q) {depth : Nat} {v : JsonValue}
    {s : Schema} (h : Schema.decodeWithin? depth v = some s) : s.Throughout (Schema.ReadAs Q) := by
  induction depth generalizing v s with
  | zero => cases h
  | succ depth ih =>
    obtain ⟨values, -, h⟩ := Option.bind_eq_some_iff.1 h
    split at h
    · obtain ⟨form, hform, h⟩ := Option.bind_eq_some_iff.1 h
      obtain ⟨_, -, h⟩ := Option.bind_eq_some_iff.1 h
      obtain ⟨_, -, h⟩ := Option.bind_eq_some_iff.1 h
      obtain ⟨examples, hexamples, h⟩ := Option.bind_eq_some_iff.1 h
      cases h
      obtain ⟨hroot, hchildren⟩ := required_all hform fun v f hv =>
        Form.of_decodeWith? (fun v s hv => ih hv) (fun s e hs => hs.mergeExamples_readAs e) hQ hv
      have hexamples : Table.Sorted examples :=
        defaulted_all (R := fun e => Table.Sorted e) hexamples .nil fun v e hv => sorted_of_table? hv
      exact .intro ⟨hroot, hexamples⟩ hchildren
    · cases h

theorem readable_fresh : Readable Form.Fresh where
  primitive _ := trivial
  record _ _ := trivial
  list _ := trivial
  absent := trivial
  optional _ := trivial
  oneOf nodes _ := Catalogue.fresh_ofList nodes

/-- A tree that is read is keyed, whatever keys its options stand under in the text. -/
theorem Schema.keyed_of_decode? {v : JsonValue} {s : Schema} (h : Schema.decode? v = some s) : s.Keyed :=
  (Schema.throughout_of_decodeWithin? readable_fresh h).mono fun _ ht => ht.1

theorem Catalogue.keyed_of_decode? {v : JsonValue} {c : Catalogue} (h : Catalogue.decode? v = some c) :
    c.Keyed := by
  obtain ⟨⟨nodes, rfl⟩, hnodes⟩ := Catalogue.of_decodeWith? (R := Schema.Keyed) (fun _ _ => Schema.keyed_of_decode?)
    (fun s e hs => hs.of_form rfl) h
  exact ⟨Catalogue.fresh_ofList nodes, hnodes⟩

/-- What every catalogue that is read has, and an empty one, the catalogues of an endpoint that is read have. -/
theorem Endpoint.of_decode? {P : Catalogue → Prop} (hempty : P []) (hP : ∀ v c, Catalogue.decode? v = some c → P c)
    {v : JsonValue} {e : Endpoint} (h : Endpoint.decode? v = some e) : P e.args ∧ P e.responses := by
  obtain ⟨values, -, h⟩ := Option.bind_eq_some_iff.1 h
  split at h
  · obtain ⟨id, -, h⟩ := Option.bind_eq_some_iff.1 h
    obtain ⟨args, hargs, h⟩ := Option.bind_eq_some_iff.1 h
    obtain ⟨responses, hresponses, h⟩ := Option.bind_eq_some_iff.1 h
    cases h
    exact ⟨defaulted_all hargs hempty hP, defaulted_all hresponses hempty hP⟩
  · cases h

theorem Endpoint.keyed_of_decode? {v : JsonValue} {e : Endpoint} (h : Endpoint.decode? v = some e) :
    e.Keyed :=
  Endpoint.of_decode? .nil (fun _ _ => Catalogue.keyed_of_decode?) h

end ApiShape

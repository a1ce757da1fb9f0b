/-
Shapes that are absorbed into one. A record taken as a map has the values of all its fields in one node, and
so have several records; records, lists and primitives that are absorbed into one another sum up both bags.
-/
import ApiShape.Proofs.Evidence.Records
import Mathlib.Algebra.BigOperators.Group.List.Basic

namespace ApiShape

variable {types : List BaseType} {limits : Limits} {g g' : Multiset Form} {seen seen' : Multiset Schema}
  {missing : Prop} {s t : Schema} {f c : Form} {name : String}

/-! ## Values -/

/-- The rows of a table under the given names, which are all of its names. -/
theorem Table.Sorted.sum_find? {α : Type} {names : List String} {fields : Table α} (hsorted : Table.Sorted fields)
    (hnodup : names.Nodup) (hsub : ∀ row ∈ fields, row.1 ∈ names) :
    (names.map (fun name => ((Table.find? fields name).toList : Multiset α))).sum = (Table.values fields : Multiset α) := by
  induction fields with
  | nil =>
    refine List.sum_eq_zero fun x hx => ?_
    obtain ⟨_, _, rfl⟩ := List.mem_map.1 hx
    rfl
  | cons row rest ih =>
    obtain ⟨key, a⟩ := row
    obtain ⟨hkey, hrest⟩ := List.pairwise_cons.1 hsorted
    have hnone : Table.find? rest key = none := by
      refine Table.find?_eq_none.2 fun b hb => ?_
      exact absurd (hkey _ hb) (String.lt_irrefl _)
    -- The first row is the only one under its name.
    have hsplit : ∀ name, ((Table.find? ((key, a) :: rest) name).toList : Multiset α) =
        (if name = key then {a} else 0) + ((Table.find? rest name).toList : Multiset α) := by
      intro name
      by_cases h : key = name
      · subst h
        simp [Table.find?, hnone]
      · simp [Table.find?, h, Ne.symm h]
    have hfirst : (names.map (fun name => if name = key then ({a} : Multiset α) else 0)).sum = {a} := by
      rw [List.sum_map_eq_nsmul_single key _ fun name hne _ => if_neg hne,
        List.count_eq_one_of_mem hnodup (hsub _ List.mem_cons_self), one_nsmul, if_pos rfl]
    rw [List.map_congr_left fun name _ => hsplit name, List.sum_map_add, hfirst,
      ih hrest fun row hrow => hsub row (List.mem_cons_of_mem _ hrow)]
    rfl

theorem Form.valueNodes_of_isMap_eq (h : c.isMap = false) : c.valueNodes = (Table.values c.fields).map Schema.inside := by
  cases c with
  | record fields mapping =>
    cases mapping with
    | none => rfl
    | some => cases h
  | primitive | list | absent | optional | oneOf => rfl

theorem Form.Witness.sorted (h : c.Witness types) : Table.Sorted c.fields := by
  cases c with
  | record => exact h.observed.1
  | primitive | list | absent | optional | oneOf => exact .nil

/-- The fields of records hold what the records have as values of maps. -/
theorem sum_fieldsSeen {names : List String} (hg : Witnessed types g) (hmap : ∀ c ∈ g, c.isMap = false)
    (hnodup : names.Nodup) (hsub : ∀ c ∈ g, ∀ row ∈ c.fields, row.1 ∈ names) :
    (names.map (fun name => (fieldsSeen g name).map Schema.inside)).sum = valuesSeen g := by
  induction g using Multiset.induction_on with
  | empty =>
    refine List.sum_eq_zero fun x hx => ?_
    obtain ⟨_, _, rfl⟩ := List.mem_map.1 hx
    rfl
  | cons c g ih =>
    have hcons : ∀ name, (fieldsSeen (c ::ₘ g) name).map Schema.inside =
        (((Table.find? c.fields name).toList : Multiset Schema)).map Schema.inside + (fieldsSeen g name).map Schema.inside := by
      intro name
      unfold fieldsSeen
      cases hfind : Table.find? c.fields name with
      | none => 
        rw [Multiset.filterMap_cons_none (f := fun c => Table.find? c.fields name) c g hfind]
        exact (zero_add _).symm
      | some s =>
        rw [Multiset.filterMap_cons_some (fun c => Table.find? c.fields name) c g hfind, Multiset.map_cons]
        rfl
    have hc := (hg c (Multiset.mem_cons_self c g)).sorted.sum_find? hnodup (hsub c (Multiset.mem_cons_self c g))
    have hmapped : (names.map (fun name => (((Table.find? c.fields name).toList : Multiset Schema)).map Schema.inside)).sum =
        (c.valueNodes : Multiset Schema) := by
      have hsum := map_list_sum (Multiset.mapAddMonoidHom Schema.inside)
        (names.map (fun name => ((Table.find? c.fields name).toList : Multiset Schema)))
      rw [List.map_map, hc] at hsum
      rw [Form.valueNodes_of_isMap_eq (hmap c (Multiset.mem_cons_self c g)), ← Multiset.map_coe]
      exact hsum.symm
    rw [List.map_congr_left fun name _ => hcons name, List.sum_map_add, hmapped,
      ih (fun d hd => hg d (Multiset.mem_cons_of_mem hd)) (fun d hd => hmap d (Multiset.mem_cons_of_mem hd))
        fun d hd => hsub d (Multiset.mem_cons_of_mem hd)]
    exact (Multiset.cons_bind _ _ _).symm

/-- The values of a record that describes the records of a bag. -/
theorem FieldsOf.mapValue {fields : Table Schema} {value : Option Schema} (hg : Witnessed types g)
    (h : FieldsOf limits g fields) (hmap : ∀ c ∈ g, c.isMap = false) (hv : MapValue (Pools types limits) fields value) :
    Fills limits (valuesSeen g) value := by
  have hstands : ∀ row ∈ fields, Stands limits (fieldsSeen g row.1) (Lacks g row.1) row.2 := fun row hrow =>
    h.stands row.1 row.2 (h.sorted.find?_eq hrow)
  have hregular : ∀ row ∈ fields, row.2.Regular := fun row hrow => ((hstands row hrow).offers (hg.fieldsSeen row.1)).regular
  have hvalues : mapValues fields = fields.map (fun row => row.2.inside) := by
    unfold mapValues
    rw [← List.filterMap_eq_map]
    exact List.filterMap_congr fun row hrow => (hregular row hrow).asMapValue
  have habsent : anyAbsent fields = false := by
    refine List.any_eq_false.2 fun row hrow => ?_
    have hne := (hregular row hrow).form_ne_absent
    unfold Schema.isAbsent
    cases hform : row.2.form <;> first | exact absurd hform hne | exact Bool.false_ne_true
  have hnodup : (Table.keys fields).Nodup := h.sorted.keys_pairwise.imp String.ne_of_lt
  have hsum : (fields.map (fun row => (fieldsSeen g row.1).map Schema.inside)).sum = valuesSeen g := by
    rw [← sum_fieldsSeen hg hmap hnodup fun c hc row hrow => ?_]
    · unfold Table.keys
      rw [List.map_map]
      rfl
    · have hfind := (hg c hc).sorted.find?_eq (k := row.1) (a := row.2) hrow
      obtain ⟨s, hs⟩ := Option.ne_none_iff_exists'.1 fun hnone => by
        rw [fieldsSeen_eq_zero.1 ((h.unseen row.1).1 hnone) c hc] at hfind
        cases hfind
      exact List.mem_map.2 ⟨_, Table.mem_of_find? hs, rfl⟩
  have hcollects : ∀ rep, Collects (Pools types limits) (mapValues fields) rep → Fills limits (valuesSeen g) rep := by
    intro rep hrep
    rw [hvalues] at hrep
    rw [← hsum]
    refine hrep.fills (fun bag hbag t ht => ?_) ?_
    · obtain ⟨row, -, rfl⟩ := List.mem_map.1 hbag
      obtain ⟨u, hu, rfl⟩ := Multiset.mem_map.1 ht
      exact (hg.fieldsSeen row.1 u hu).inside
    · rw [List.forall₂_map_left_iff, List.forall₂_map_right_iff, List.forall₂_same]
      exact fun row hrow => (hstands row hrow).inside (hg.fieldsSeen row.1)
  cases hv with
  | @values value hrep =>
    rw [habsent, Schema.orNullable_false]
    exact hcollects _ hrep
  | null _ h => rw [habsent] at h; cases h
  | empty hrep => exact hcollects _ hrep

/-! ## Keys -/

/-- A primitive that is its own join sums up any number of copies of it. -/
theorem Summary.replicate {p : Primitive} (limits : Limits) (hself : p.join p = some p) {n : Nat} (hn : 0 < n) :
    Summary limits (Multiset.replicate n (.primitive p)) (.primitive p) := by
  have hjoin : ∀ n, 0 < n → Primitive.JoinOf (Multiset.replicate n p) p := by
    intro n hn
    induction n, hn using Nat.le_induction with
    | base => exact .single p
    | succ n _ ih =>
      rw [Multiset.replicate_succ, ← Multiset.singleton_add]
      exact .join (.single p) ih hself
  by_cases hone : n = 1
  · rw [hone, Multiset.replicate_one]
    exact .single _
  · refine .of_stands (by rw [Multiset.card_replicate]; omega) (fun c hc => ?_) (.primitive ?_) fun _ _ _ hp => (by cases hp)
    · rw [Multiset.eq_of_mem_replicate hc]
      exact Primitive.joinable_self p
    · rw [← Multiset.map_replicate, Multiset.filterMap_map]
      exact (Multiset.filterMap_some _).symm ▸ hjoin n hn

/-- The name of a field is a text. -/
theorem Stands.replicate_string (limits : Limits) {n : Nat} (hn : 0 < n) :
    Stands limits (Multiset.replicate n (Schema.ofType .string)) False (Schema.ofType .string) := by
  by_cases hone : n = 1
  · rw [hone, Multiset.replicate_one]
    exact .alone limits _
  · have hvariants : variantsSeen (Multiset.replicate n (Schema.ofType .string)) =
        Multiset.replicate n (.primitive (Primitive.ofType .string)) := by
      unfold variantsSeen
      rw [Multiset.bind_congr (g := fun _ => {.primitive (Primitive.ofType .string)}) fun t ht => ?_,
        Multiset.bind_singleton, Multiset.map_const', Multiset.card_replicate]
      rw [Multiset.eq_of_mem_replicate ht]
      rfl
    have hagreeing : agreeing (Multiset.replicate n (.primitive (Primitive.ofType .string)))
        (.primitive (Primitive.ofType .string)) = Multiset.replicate n (.primitive (Primitive.ofType .string)) := by
      refine Multiset.filter_eq_self.2 fun c hc => ?_
      rw [Multiset.eq_of_mem_replicate hc]
      exact Primitive.joinable_self _
    refine .of_several (by rw [Multiset.card_replicate]; omega) ⟨?_, ?_, fun h => (by cases h)⟩ ⟨?_, fun c hc => ?_, fun v hv => ?_⟩
    · simp [Multiset.mem_replicate, Schema.ofType, Schema.ofPrimitive, Schema.isOptional]
    · simp [Multiset.mem_replicate, Schema.ofType, Schema.ofPrimitive, Schema.inside, Schema.core]
    · exact ⟨rfl, rfl, rfl, fun _ _ h => (by cases h)⟩
    · rw [hvariants] at hc
      rw [Multiset.eq_of_mem_replicate hc]
      exact ⟨_, List.mem_cons_self, Primitive.joinable_self _⟩
    · obtain rfl := List.mem_singleton.1 hv
      rw [hvariants]
      show Summary limits (agreeing _ (.primitive (Primitive.ofType .string))) _
      rw [hagreeing]
      exact .replicate limits (by decide) hn

theorem keysSeen_of_records (h : ∀ c ∈ g, ∃ fields, c = .record fields none) :
    keysSeen g = Multiset.replicate g.card (Schema.ofType .string) := by
  unfold keysSeen
  rw [Multiset.bind_congr (g := fun _ => {Schema.ofType .string}) fun c hc => ?_, Multiset.bind_singleton, Multiset.map_const']
  obtain ⟨fields, rfl⟩ := h c hc
  rfl

theorem fills_keys (hpos : 0 < g.card) (h : ∀ c ∈ g, ∃ fields, c = .record fields none) :
    Fills limits (keysSeen g) (some (Schema.ofType .string)) := by
  rw [keysSeen_of_records h]
  refine ⟨⟨fun h => (by cases h), fun h => ?_⟩, ?_⟩
  · rw [← Multiset.card_eq_zero, Multiset.card_replicate] at h
    omega
  · rintro _ ⟨⟩
    exact .replicate_string limits hpos

/-! ## Records -/

theorem Form.record_of_agrees {fields : Table Schema} {mapping : Option Mapping} (h : c.agrees (.record fields mapping) = true)
    (hmap : c.isMap = false) : ∃ fields, c = .record fields none := by
  obtain ⟨fields', mapping', rfl⟩ := Form.agrees_record h
  cases mapping' with
  | none => exact ⟨fields', rfl⟩
  | some => cases hmap

theorem Form.agrees_record_of {fields fields' : Table Schema} {mapping mapping' : Option Mapping}
    (h : c.agrees (.record fields mapping) = true) : c.agrees (.record fields' mapping') = true := by
  obtain ⟨_, _, rfl⟩ := Form.agrees_record h
  rfl

theorem Form.agrees_list_of {elems elems' : List Schema} (h : c.agrees (.list elems) = true) :
    c.agrees (.list elems') = true := by
  obtain ⟨_, rfl⟩ := Form.agrees_list h
  rfl

/-- A map with the keys and the values of a bag sums it up. -/
theorem Summary.of_fills {key value : Option Schema} (hseveral : 2 ≤ g.card)
    (hrecords : ∀ c ∈ g, c.agrees (.record [] none) = true) (htaken : TakenAsMap limits g)
    (hkey : Fills limits (keysSeen g) key) (hvalue : Fills limits (valuesSeen g) value) :
    Summary limits g (.record [] (some ⟨key, value⟩)) := by
  refine .of_stands hseveral (fun c hc => Form.agrees_record_of (hrecords c hc)) (.map htaken hkey.empty hvalue.empty) ?_
  intro seen missing s hp
  cases hp with
  | key h => exact hkey.stands s h
  | value h => exact hvalue.stands s h

section

variable (hT : BaseType.Coherent types) (hg : Witnessed types g) (hg' : Witnessed types g')

include hT hg

theorem Summary.records {fields : Table Schema} (h : Summary limits g (.record fields none)) :
    ∀ c ∈ g, ∃ fields, c = .record fields none := fun c hc =>
  Form.record_of_agrees (h.agrees hT hg c hc) ((h.fieldsOf hg).2 c hc)

/-- A record taken as a map has the keys and the values of its bag. -/
theorem AsMap.fills {fields kept : Table Schema} {mapping : Option Mapping} {m : Mapping}
    (h : AsMap (Pools types limits) fields mapping kept m) (hs : Summary limits g (.record fields mapping)) :
    kept = [] ∧ Fills limits (keysSeen g) m.key ∧ Fills limits (valuesSeen g) m.value := by
  cases h with
  | map =>
    obtain ⟨hnil, -, hkey, hvalue⟩ := hs.map hg
    exact ⟨hnil, hkey, hvalue⟩
  | record hvalue =>
    obtain ⟨hfields, hmap⟩ := hs.fieldsOf hg
    exact ⟨rfl, fills_keys hs.card_pos (hs.records hT hg), hfields.mapValue hg hmap hvalue⟩

include hg'

/-- One record absorbed into another sums up both bags. -/
theorem RecordStep.summary {df sf : Table Schema} {dm sm : Option Mapping} {form : Form}
    (h : RecordStep (Pools types limits) limits df dm sf sm form) (hd : Summary limits g (.record df dm))
    (hs : Summary limits g' (.record sf sm)) : Summary limits (g + g') form := by
  have hboth := hg.add hg'
  have hpos := hd.card_pos
  have hpos' := hs.card_pos
  have hseveral : 2 ≤ (g + g').card := by
    rw [Multiset.card_add]
    omega
  have hrecords : ∀ c ∈ g + g', c.agrees (.record [] none) = true := fun c hc =>
    (Multiset.mem_add.1 hc).elim (fun hc => Form.agrees_record_of (hd.agrees hT hg c hc))
      fun hc => Form.agrees_record_of (hs.agrees hT hg' c hc)
  cases h with
  | maps hsome hdm hsm hkey hvalue =>
    obtain ⟨rfl, hdkey, hdvalue⟩ := hdm.fills hT hg hd
    obtain ⟨-, hskey, hsvalue⟩ := hsm.fills hT hg' hs
    have htaken : TakenAsMap limits (g + g') := by
      rcases hsome with hsome | hsome
      · obtain ⟨m, rfl⟩ := Option.isSome_iff_exists.1 hsome
        exact (hd.map hg).2.1.of_le (Multiset.le_add_right _ _)
      · obtain ⟨m, rfl⟩ := Option.isSome_iff_exists.1 hsome
        exact (hs.map hg').2.1.of_le (Multiset.le_add_left _ _)
    refine .of_fills hseveral hrecords htaken ?_ ?_
    · rw [keysSeen_add]
      exact hkey.fills (hg.keysSeen hT) (hg'.keysSeen hT) hdkey hskey
    · rw [valuesSeen_add]
      exact hvalue.fills hg.valuesSeen hg'.valuesSeen hdvalue hsvalue
  | fields hdm hsm hfields hexceeded =>
    subst hdm hsm
    obtain ⟨hdfields, hdmap⟩ := hd.fieldsOf hg
    obtain ⟨hsfields, hsmap⟩ := hs.fieldsOf hg'
    have hall := hdfields.addMissing hg hg' hpos hpos' hsfields hfields
    have hwithin := (hall.exceeded_iff hboth limits.mapInference).1 hexceeded
    refine .of_stands hseveral (fun c hc => Form.agrees_record_of (hrecords c hc)) (.record hall.sorted hall.unseen ?_) ?_
    · rintro (⟨c, hc, hmap⟩ | ⟨-, hnot⟩)
      · rcases Multiset.mem_add.1 hc with hc | hc
        · rw [hdmap c hc] at hmap
          cases hmap
        · rw [hsmap c hc] at hmap
          cases hmap
      · exact hnot hwithin
    · intro seen missing s hp
      cases hp with
      | field hfind => exact hall.stands _ s hfind
  | grown hdm hsm hfields hexceeded hvalue =>
    subst hdm hsm
    obtain ⟨hdfields, hdmap⟩ := hd.fieldsOf hg
    obtain ⟨hsfields, hsmap⟩ := hs.fieldsOf hg'
    have hall := hdfields.addMissing hg hg' hpos hpos' hsfields hfields
    have hmap : ∀ c ∈ g + g', c.isMap = false := fun c hc => (Multiset.mem_add.1 hc).elim (hdmap c) (hsmap c)
    refine .of_fills hseveral hrecords (.inr ⟨hseveral, fun hwithin => ?_⟩) ?_ (hall.mapValue hboth hmap hvalue)
    · rw [(hall.exceeded_iff hboth limits.mapInference).2 hwithin] at hexceeded
      cases hexceeded
    · exact fills_keys (by omega) fun c hc => Form.record_of_agrees (hrecords c hc) (hmap c hc)

/-- One list absorbed into another sums up both bags. -/
theorem Collects.summary {de se : List Schema} {rep : Option Schema}
    (h : Collects (Pools types limits) (de ++ se) rep) (hd : Summary limits g (.list de)) (hs : Summary limits g' (.list se)) :
    Summary limits (g + g') (.list rep.toList) := by
  obtain ⟨bags, hbags, hsum⟩ := hd.elems
  obtain ⟨bags', hbags', hsum'⟩ := hs.elems
  have hpos := hd.card_pos
  have hpos' := hs.card_pos
  have hlists : ∀ c ∈ g + g', c.agrees (.list rep.toList) = true := fun c hc =>
    (Multiset.mem_add.1 hc).elim (fun hc => Form.agrees_list_of (hd.agrees hT hg c hc))
      fun hc => Form.agrees_list_of (hs.agrees hT hg' c hc)
  have hfills : Fills limits (elemsSeen (g + g')) rep := by
    rw [elemsSeen_add, ← hsum, ← hsum', ← List.sum_append]
    refine h.fills (fun bag hbag t ht => ?_) (List.rel_append hbags hbags')
    refine (hg.add hg').elemsSeen t ?_
    rw [elemsSeen_add, ← hsum, ← hsum', ← List.sum_append]
    exact Multiset.mem_of_le (List.single_le_sum (fun _ _ => Multiset.zero_le _) bag hbag) ht
  refine .of_stands (by rw [Multiset.card_add]; omega) hlists (.list ?_ ?_) fun seen missing s hp => ?_
  · cases rep <;> simp
  · rw [← hfills.empty]
    cases rep <;> simp
  · cases rep with
    | none => cases hp
    | some r =>
      cases hp with
      | element => exact hfills.stands _ rfl

/-- One primitive joined with another sums up both bags. -/
theorem Summary.join {p q j : Primitive} (h : p.join q = some j) (hd : Summary limits g (.primitive p))
    (hs : Summary limits g' (.primitive q)) : Summary limits (g + g') (.primitive j) := by
  have hboth := hg.add hg'
  have hpos := hd.card_pos
  have hpos' := hs.card_pos
  have hj : Primitive.JoinOf ((g + g').filterMap Form.primitive?) j := by
    rw [Multiset.filterMap_add]
    exact .join hd.primitive hs.primitive h
  have hobserved := hj.observed hT hboth.primitives
  refine .of_stands (by rw [Multiset.card_add]; omega) (fun c hc => ?_) (.primitive hj) fun _ _ _ hp => (by cases hp)
  have hprimitive : ∃ q, c = .primitive q := (Multiset.mem_add.1 hc).elim
    (fun hc => (Form.agrees_primitive (hd.agrees hT hg c hc)).imp fun _ h => h.1)
    fun hc => (Form.agrees_primitive (hs.agrees hT hg' c hc)).imp fun _ h => h.1
  obtain ⟨q, rfl⟩ := hprimitive
  have hq := mem_primitives.2 hc
  show q.joinable j = true
  rw [Primitive.joinable_comm]
  exact Primitive.joinable_below hT (hj.below_of_mem q hq) (hboth.primitives q hq).type hobserved.type

end

end ApiShape

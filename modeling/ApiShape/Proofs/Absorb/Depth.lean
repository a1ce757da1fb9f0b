/-
The depth limit never ends a run: every pair that a step calls has a smaller `rank`, and the limit
computed from two trees is above their rank. Absorbing is therefore its own step, applied to itself
(`absorb_eq_step`), and a step fails only where it refuses the source (`refused_of_absorb`).

The rank is the weight of both trees first. A call that keeps the whole weight stays on one level, where
it takes away an optional layer, changes the two sides, or meets the option that the source agrees with.
-/
import ApiShape.Proofs.Absorb.Congr
import ApiShape.Proofs.Absorb.Weight

namespace ApiShape

/-! ## Rank -/

/-- How many more calls a pair can make on its level while the whole weight is kept. -/
def stage (dst : Schema) : Schema → Nat
  | ⟨.optional inner, _, _, _⟩ => stage dst inner
  | ⟨.absent, _, _, _⟩ => 0
  | ⟨.oneOf _ _, _, _, _⟩ => if dst.isOneOf then 3 else 4
  | _ =>
    match dst.form with
    | .optional _ => 2
    | .oneOf _ _ => 1
    | _ => 0
termination_by structural src => src

/-- What every call of a step decreases: the weight of both trees, and the stage while the weight is kept. -/
def rank (dst src : Schema) : Nat := 5 * (dst.weight + src.weight) + stage dst src

section

variable {dst src : Schema}

theorem stage_optional {inner : Schema} (hs : src.form = .optional inner) : stage dst src = stage dst inner := by
  obtain ⟨form, nullable, metadata, examples⟩ := src
  cases hs
  rfl

theorem stage_oneOf {options : Catalogue} {conflict : Bool} (hs : src.form = .oneOf options conflict) :
    stage dst src = if dst.isOneOf then 3 else 4 := by
  obtain ⟨form, nullable, metadata, examples⟩ := src
  cases hs
  rfl

theorem stage_plain (hs : src.isPlain) :
    stage dst src = match dst.form with
      | .optional _ => 2
      | .oneOf _ _ => 1
      | _ => 0 := by
  obtain ⟨form, nullable, metadata, examples⟩ := src
  cases form <;> first | rfl | cases hs

theorem stage_le (dst src : Schema) : stage dst src ≤ 4 := by
  induction src using Schema.inductionOn with
  | step src ih =>
    obtain ⟨form, nullable, metadata, examples⟩ := src
    cases form with
    | optional inner => exact ih inner (by simp [Schema.children, Form.children])
    | absent => exact Nat.zero_le _
    | oneOf options conflict =>
      rw [stage_oneOf rfl]
      split <;> omega
    | primitive | record | list =>
      rw [stage_plain rfl]
      split <;> omega

theorem stage_plain_le (hs : src.isPlain) : stage dst src ≤ 2 := by
  rw [stage_plain hs]
  split <;> omega

theorem stage_orNullable (b : Bool) : stage (dst.orNullable b) src = stage dst src := by
  induction src using Schema.inductionOn with
  | step src ih =>
    obtain ⟨form, nullable, metadata, examples⟩ := src
    cases form with
    | optional inner => exact ih inner (by simp [Schema.children, Form.children])
    | absent | oneOf | primitive | record | list => rfl

/-- Below alternatives, no stage is as high as that of the swap. -/
theorem stage_of_isOneOf_le (hd : dst.isOneOf) (src : Schema) : stage dst src ≤ 3 := by
  induction src using Schema.inductionOn with
  | step src ih =>
    obtain ⟨form, nullable, metadata, examples⟩ := src
    cases form with
    | optional inner => exact ih inner (by simp [Schema.children, Form.children])
    | absent => exact Nat.zero_le _
    | oneOf options conflict =>
      exact Nat.le_of_eq (by rw [stage_oneOf rfl, if_pos hd])
    | primitive | record | list =>
      rw [stage_plain rfl]
      split <;> omega

theorem stage_of_agrees (h : dst.agrees src) : stage dst src = 0 := by
  obtain ⟨hd, hs⟩ := Schema.isPlain_of_agrees h
  rw [stage_plain hs]
  unfold Schema.isPlain Form.isPlain at hd
  cases hform : dst.form <;> first | rfl | (rw [hform] at hd; cases hd)

theorem rank_lt_of_weight_lt {d s : Schema} (h : d.weight + s.weight < dst.weight + src.weight) :
    rank d s < rank dst src := by
  have := stage_le d s
  unfold rank
  omega

theorem rank_lt_of_stage_lt {d s : Schema} (h : d.weight + s.weight ≤ dst.weight + src.weight)
    (hstage : stage d s < stage dst src) : rank d s < rank dst src := by
  unfold rank
  omega

theorem rank_lt_depthBound (dst src : Schema) : rank dst src < depthBound dst src := by
  have hd := dst.weight_le_size
  have hs := src.weight_le_size
  have hstage := stage_le dst src
  have hone := size_eq dst
  have hone' := size_eq src
  have hsquare : (dst.size + src.size + 2) * 4 ≤ (dst.size + src.size + 2) * (dst.size + src.size + 2) :=
    Nat.mul_le_mul_left _ (by omega)
  unfold rank depthBound
  omega

end

/-! ## The weight of calls -/

/-- Two trees with their tables in order that weigh at most `n` together. -/
def Under (n : Nat) (d s : Schema) : Prop :=
  d.form.Everywhere Form.Ordered ∧ s.form.Everywhere Form.Ordered ∧ d.weight + s.weight ≤ n

theorem Under.mono {n m : Nat} {d s : Schema} (h : Under n d s) (hle : n ≤ m) : Under m d s :=
  ⟨h.1, h.2.1, Nat.le_trans h.2.2 hle⟩

/-- Two trees that weigh less than `n`, or weigh `n` and agree. -/
def Meets (n : Nat) (d s : Schema) : Prop := Under n d s ∧ (d.weight + s.weight < n ∨ d.agrees s)

theorem Meets.mono {n m : Nat} {d s : Schema} (h : Meets n d s) (hle : n ≤ m) : Meets m d s :=
  ⟨h.1.mono hle, h.2.imp_left fun hlt => Nat.lt_of_lt_of_le hlt hle⟩

section

variable {limits : Limits} {absorb : Absorber} (habsorb : ∀ d s r, absorb d s = .ok r → Bounded d s r)

include habsorb

theorem folds_of_bounded {acc r : Schema} {l : List Schema} (h : l.foldlM absorb acc = .ok r) :
    Folds Bounded acc l r :=
  folds_of_foldlM h fun d s r _ hr => habsorb d s r hr

theorem FoldCalls.under {acc d s : Schema} {l : List Schema} (h : FoldCalls absorb acc l d s)
    (hacc : acc.form.Everywhere Form.Ordered) (hl : ∀ s ∈ l, s.form.Everywhere Form.Ordered) :
    Under (acc.weight + totalWeight l) d s := by
  obtain ⟨pre, post, rfl, hpre⟩ := h
  have hpre := folds_of_bounded habsorb hpre
  have hmem : ∀ s ∈ pre, s.form.Everywhere Form.Ordered := fun s hs => hl s (List.mem_append_left _ hs)
  have hweight := hpre.weight_le hacc hmem
  refine ⟨(hpre.mono fun _ _ _ => Bounded.keeps).everywhere hacc hmem, hl s (by simp), ?_⟩
  simp only [totalWeight_append, totalWeight_cons]
  omega

/-- Only the first pair of a fold whose members agree can have the whole weight. -/
theorem FoldCalls.meets {acc first d s : Schema} {rest : List Schema} (h : FoldCalls absorb acc (first :: rest) d s)
    (hacc : acc.form.Everywhere Form.Ordered) (hl : ∀ s ∈ first :: rest, s.form.Everywhere Form.Ordered)
    (hagrees : acc.agrees first) : Meets (acc.weight + totalWeight (first :: rest)) d s := by
  refine ⟨h.under habsorb hacc hl, ?_⟩
  obtain ⟨pre, post, hsplit, hpre⟩ := h
  cases pre with
  | nil =>
    -- the first pair, which agrees
    cases hpre
    cases hsplit
    exact .inr hagrees
  | cons a pre =>
    -- a later pair: absorbing the first one lost weight
    obtain ⟨rfl, rfl⟩ : first = a ∧ rest = pre ++ s :: post := by simpa using hsplit
    obtain ⟨mid, hmid, hpre⟩ := bind_eq_ok.1 (List.foldlM_cons (m := Except Fault) ▸ hpre)
    obtain ⟨hordered, -, hlt⟩ := habsorb acc first mid hmid hacc (hl first List.mem_cons_self)
    have hpre := (folds_of_bounded habsorb hpre).weight_le hordered
      fun s hs => hl s (List.mem_cons_of_mem _ (List.mem_append_left _ hs))
    have hlt := hlt hagrees
    simp only [totalWeight_append, totalWeight_cons]
    left
    omega

theorem CollectCalls.under {d s : Schema} {l : List Schema} (h : CollectCalls absorb l d s)
    (hl : ∀ s ∈ l, s.form.Everywhere Form.Ordered) : Under (totalWeight l) d s := by
  obtain ⟨first, rest, rfl, h⟩ := h
  exact h.under habsorb (hl first List.mem_cons_self) fun s hs => hl s (List.mem_cons_of_mem _ hs)

theorem CollectCalls.meets {d s : Schema} {l : List Schema} (h : CollectCalls absorb l d s)
    (hl : ∀ s ∈ l, s.form.Everywhere Form.Ordered) (hagree : ∀ a ∈ l, ∀ b ∈ l, a.agrees b) :
    Meets (totalWeight l) d s := by
  obtain ⟨first, rest, rfl, h⟩ := h
  cases rest with
  | nil =>
    obtain ⟨pre, post, hsplit, -⟩ := h
    cases pre <;> cases hsplit
  | cons second rest =>
    exact h.meets habsorb (hl first List.mem_cons_self) (fun s hs => hl s (List.mem_cons_of_mem _ hs))
      (hagree first List.mem_cons_self second (by simp))

theorem mapValues_under {fields : Table Schema} {d s : Schema} (h : CollectCalls absorb (mapValues fields) d s)
    (hfields : ∀ t ∈ Table.values fields, t.form.Everywhere Form.Ordered) :
    Under (totalWeight (Table.values fields)) d s :=
  (h.under habsorb fun _ ht => .of_mem_mapValues hfields ht).mono (totalWeight_mapValues_le fields)

/-- A record hands on fields and slots, and they weigh less than the records. -/
theorem RecordCalls.under {df sf : Table Schema} {dm sm : Option Mapping} {d s : Schema}
    (h : RecordCalls limits absorb df dm sf sm d s)
    (hd : (Form.record df dm).Everywhere Form.Ordered) (hs : (Form.record sf sm).Everywhere Form.Ordered) :
    Under ((Form.record df dm).weight + (Form.record sf sm).weight - 1) d s := by
  obtain ⟨hsorted, hdf, -⟩ := Form.everywhere_record.1 hd
  obtain ⟨-, hsf, -⟩ := Form.everywhere_record.1 hs
  have hfields : ∀ (fields : Table Schema) mapping,
      totalWeight (Table.values fields) + 1 ≤ (Form.record fields mapping).weight := by
    intro fields mapping
    cases mapping with
    | none =>
      rw [weight_record]
      omega
    | some m =>
      rw [weight_map]
      omega
  have hpos := hfields df dm
  have hpos' := hfields sf sm
  have hasMap : ∀ {fields kept : Table Schema} {mapping : Option Mapping} {m : Mapping},
      asMap absorb fields mapping = .ok (kept, m) → (Form.record fields mapping).Everywhere Form.Ordered →
        (Form.record kept (some m)).Everywhere Form.Ordered ∧
          slotWeight m.key + slotWeight m.value + 1 ≤ (Form.record fields mapping).weight := by
    intro fields kept mapping m h hr
    have h : AsMap Bounded fields mapping kept m := asMap_of_ok h fun d s r _ hr => habsorb d s r hr
    have hweight := h.weight_le (Form.everywhere_record.1 hr).2.1
    refine ⟨(h.mono fun _ _ _ => Bounded.keeps).everywhere (stable_ordered limits).toClosed hr, ?_⟩
    rw [weight_map] at hweight
    omega
  cases h with
  | field hdm hsm hmem hfind =>
    have hmem := Table.mem_values_of_mem hmem
    have hmem' := Table.mem_values_of_mem (Table.mem_of_find? hfind)
    have := weight_le_totalWeight hmem
    have := weight_le_totalWeight hmem'
    exact ⟨hdf d hmem, hsf s hmem', by omega⟩
  | grown hdm hsm hfields _ hc =>
    obtain ⟨shared, hshared, rfl⟩ := absorbRecordFields_eq_ok hfields
    have hshared : Fields Bounded sf df shared := fields_of_ok hshared fun _ d s r _ _ hr => habsorb d s r hr
    have hweight := totalWeight_addMissing_le hshared hsorted hdf hsf
    have hkept := (hshared.mono fun _ _ _ => Bounded.keeps).everywhere (stable_ordered limits).toClosed hdf hsf
    exact (mapValues_under habsorb hc ((stable_ordered limits).addMissing hkept hsf)).mono (by omega)
  | dstMap _ hc => exact (mapValues_under habsorb hc.2 hdf).mono (by omega)
  | srcMap _ hc => exact (mapValues_under habsorb hc.2 hsf).mono (by omega)
  | key _ hdm hsm hk hk' =>
    obtain ⟨hm, hweight⟩ := hasMap hdm hd
    obtain ⟨hm', hweight'⟩ := hasMap hsm hs
    rw [hk] at hweight
    rw [hk'] at hweight'
    simp only [slotWeight] at hweight hweight'
    exact ⟨(Form.everywhere_record.1 hm).2.2 _ rfl d (Mapping.mem_slots.2 (.inl hk)),
      (Form.everywhere_record.1 hm').2.2 _ rfl s (Mapping.mem_slots.2 (.inl hk')), by omega⟩
  | value _ hdm hsm hv hv' =>
    obtain ⟨hm, hweight⟩ := hasMap hdm hd
    obtain ⟨hm', hweight'⟩ := hasMap hsm hs
    rw [hv] at hweight
    rw [hv'] at hweight'
    simp only [slotWeight] at hweight hweight'
    exact ⟨(Form.everywhere_record.1 hm).2.2 _ rfl d (Mapping.mem_slots.2 (.inr hv)),
      (Form.everywhere_record.1 hm').2.2 _ rfl s (Mapping.mem_slots.2 (.inr hv')), by omega⟩

/-- The pairs of a round are those of a fold that starts with a joinable option, and later rounds have less to take in. -/
theorem GatherCalls.meets (limits : Limits) {acc d s : Schema} {options : Catalogue} (h : GatherCalls absorb acc options d s)
    (hacc : acc.form.Everywhere Form.Ordered) (hoptions : (Form.oneOf options true).Everywhere Form.Ordered) :
    Meets (acc.weight + totalWeight (Table.values options)) d s := by
  induction h with
  | @here acc d s options h =>
    have hsplit := Catalogue.totalWeight_take (fun o => o.joinable acc) options
    have htaken := hoptions.taken (p := fun o => o.joinable acc)
    have hjoinable : ∀ o ∈ (Catalogue.take (fun o => o.joinable acc) options).1, o.joinable acc :=
      fun o ho => (Catalogue.mem_taken.1 ho).2
    cases htake : (Catalogue.take (fun o => o.joinable acc) options).1 with
    | nil =>
      rw [htake] at h
      obtain ⟨pre, post, hnil, -⟩ := h
      cases pre <;> cases hnil
    | cons first rest =>
      rw [htake] at h htaken hjoinable hsplit
      have hagrees := Schema.agrees_of_joinable (hjoinable first List.mem_cons_self)
      exact (h.meets habsorb hacc htaken hagrees).mono (by omega)
  | @next acc acc' d s options htaken hfold hcalls ih =>
    have hsplit := Catalogue.totalWeight_take (fun o => o.joinable acc) options
    have hfold := folds_of_bounded habsorb hfold
    have hacc' := (hfold.mono fun _ _ _ => Bounded.keeps).everywhere hacc hoptions.taken
    have hweight := hfold.weight_le hacc hoptions.taken
    exact (ih hacc' ((stable_ordered limits).left _ hoptions)).mono (by omega)

/-- A variant only meets options that agree with it, or nodes that weigh less together. -/
theorem OptionCalls.meets (limits : Limits) {options : Catalogue} {variant d s : Schema} (h : OptionCalls absorb options variant d s)
    (hv : variant.form.Everywhere Form.Ordered) (hoptions : (Form.oneOf options true).Everywhere Form.Ordered) :
    Meets (variant.weight + totalWeight (Table.values options)) d s := by
  have hsame : ∀ p : Schema → Bool, ∀ t ∈ (Catalogue.take p options).1 ++ [variant],
      t.form.Everywhere Form.Ordered := by
    intro p t ht
    rcases List.mem_append.1 ht with ht | ht
    · exact hoptions.taken t ht
    · rwa [List.mem_singleton.1 ht]
  have hkind : ∀ {p : Schema → Bool}, p variant → ∀ t ∈ (Catalogue.take p options).1 ++ [variant], p t := by
    intro p hp t ht
    rcases List.mem_append.1 ht with ht | ht
    · exact (Catalogue.mem_taken.1 ht).2
    · rwa [List.mem_singleton.1 ht]
  have hweight : ∀ p : Schema → Bool, totalWeight ((Catalogue.take p options).1 ++ [variant]) ≤
      variant.weight + totalWeight (Table.values options) := by
    intro p
    have := Catalogue.totalWeight_take p options
    simp only [totalWeight_append, totalWeight_cons, totalWeight_nil]
    omega
  cases h with
  | record hrecord h =>
    exact (h.meets habsorb (hsame _) fun a ha b hb =>
      Schema.agrees_of_isRecord (hkind hrecord a ha) (hkind hrecord b hb)).mono (hweight _)
  | list hlist h =>
    exact (h.meets habsorb (hsame _) fun a ha b hb =>
      Schema.agrees_of_isList (hkind hlist a ha) (hkind hlist b hb)).mono (hweight _)
  | primitive _ h => exact h.meets habsorb limits hv hoptions

/-! ## The rank of calls -/

/-- Of the pairs for a plain source only two kinds may keep the whole weight: one without the optional layer of the
destination, and an option that agrees with the source. -/
theorem PlainCalls.rank_lt {dst src d s : Schema} (h : PlainCalls limits absorb dst src d s) (hsrc : src.isPlain)
    (hd : dst.form.Everywhere Form.Ordered) (hs : src.form.Everywhere Form.Ordered) :
    d.form.Everywhere Form.Ordered ∧ s.form.Everywhere Form.Ordered ∧ rank d s < rank dst src := by
  cases h with
  | @record df sf dm sm d s hdf hsf h =>
    have hweight : dst.weight = dst.form.weight ∧ src.weight = src.form.weight := ⟨weight_eq _, weight_eq _⟩
    rw [hdf] at hd hweight
    rw [hsf] at hs hweight
    obtain ⟨hd', hs', hle⟩ := h.under habsorb hd hs
    have hpos : 0 < (Form.record df dm).weight := Nat.succ_pos _
    exact ⟨hd', hs', rank_lt_of_weight_lt (by omega)⟩
  | list hdf hsf h =>
    have hweight : dst.weight = dst.form.weight ∧ src.weight = src.form.weight := ⟨weight_eq _, weight_eq _⟩
    rw [hdf] at hd hweight
    rw [hsf] at hs hweight
    have helems := fun t ht => (List.mem_append.1 ht).elim ((Form.everywhere_list.1 hd).2 t)
      ((Form.everywhere_list.1 hs).2 t)
    obtain ⟨hd', hs', hle⟩ := h.under habsorb helems
    simp only [weight_list, totalWeight_append] at hweight hle
    exact ⟨hd', hs', rank_lt_of_weight_lt (by omega)⟩
  | inner hdf hopt =>
    -- the weight stays, but the optional layer is gone
    have hweight : dst.weight = d.weight := by
      rw [weight_eq, hdf]
      rfl
    rw [hdf] at hd
    refine ⟨(Form.everywhere_optional.1 hd).2, hs, rank_lt_of_stage_lt (by omega) ?_⟩
    rw [stage_plain hsrc, stage_plain hsrc, hdf]
    unfold Schema.isOptional at hopt
    cases hform : d.form <;> simp_all
  | option hdf h =>
    have hweight : dst.weight = dst.form.weight := weight_eq _
    rw [hdf] at hd hweight
    rw [weight_oneOf] at hweight
    obtain ⟨hroot, hoptions⟩ := Form.everywhere_oneOf.1 hd
    obtain ⟨⟨hd', hs', hle⟩, hlt⟩ := h.meets habsorb limits hs
      (Form.everywhere_oneOf.2 ⟨(stable_ordered limits).flag hroot, hoptions⟩)
    rw [weight_bare] at hle hlt
    refine ⟨hd', hs', ?_⟩
    rcases hlt with hlt | hagrees
    · exact rank_lt_of_weight_lt (by omega)
    · -- the weight may stay with an option that agrees, which is on the last stage
      refine rank_lt_of_stage_lt (by omega) ?_
      rw [stage_of_agrees hagrees, stage_plain hsrc, hdf]
      exact Nat.one_pos

/-- Every pair that a step calls has a smaller rank, and has its tables in order. -/
theorem Calls.rank_lt {dst src d s : Schema} (h : Calls limits absorb dst src d s)
    (hd : dst.form.Everywhere Form.Ordered) (hs : src.form.Everywhere Form.Ordered) :
    d.form.Everywhere Form.Ordered ∧ s.form.Everywhere Form.Ordered ∧ rank d s < rank dst src := by
  induction h with
  | @optional dst src inner d s hsf _ ih =>
    rw [hsf] at hs
    obtain ⟨hd', hs', hlt⟩ := ih hd (Form.everywhere_optional.1 hs).2
    refine ⟨hd', hs', Nat.lt_of_lt_of_le hlt (Nat.le_of_eq ?_)⟩
    unfold rank
    rw [stage_optional hsf, weight_orNullable, weight_eq src, hsf, stage_orNullable]
    rfl
  | @swap dst src options conflict hsf hdf =>
    have hweight : src.weight = (Form.oneOf options conflict).weight := by rw [weight_eq, hsf]
    rw [hsf] at hs
    refine ⟨hs, hd, rank_lt_of_stage_lt ?_ ?_⟩
    · rw [weight_bare, weight_eq, ← hweight]
      omega
    · -- the sides change places once, since the source is then no alternatives
      rw [stage_oneOf hsf, hdf]
      exact Nat.lt_succ_of_le (stage_of_isOneOf_le rfl _)
  | @alternatives dst src d s options srcOptions conflict srcConflict hsf hdf hplain h =>
    have hweight : dst.weight = dst.form.weight ∧ src.weight = src.form.weight := ⟨weight_eq _, weight_eq _⟩
    rw [hdf] at hd hweight
    rw [hsf] at hs hweight
    obtain ⟨hroot, hoptions⟩ := Form.everywhere_oneOf.1 hd
    have hs'plain : s.isPlain := by
      obtain ⟨pre, post, hsplit, -⟩ := h
      exact hplain s (by simp [hsplit])
    obtain ⟨hd', hs', hle⟩ := h.under habsorb
      (Form.everywhere_oneOf.2 ⟨(stable_ordered limits).flag hroot, hoptions⟩) (Form.everywhere_oneOf.1 hs).2
    -- the flag of a conflict weighs nothing
    have hle : d.weight + s.weight ≤ (Form.oneOf options conflict).weight + totalWeight (Table.values srcOptions) := hle
    rw [weight_oneOf, weight_oneOf] at hweight
    rw [weight_oneOf] at hle
    refine ⟨hd', hs', rank_lt_of_stage_lt (by omega) ?_⟩
    have hone : dst.isOneOf := by
      unfold Schema.isOneOf
      rw [hdf]
    rw [stage_oneOf hsf, if_pos hone]
    exact Nat.lt_succ_of_le (stage_plain_le hs'plain)
  | @plain dst src d s hsrc h =>
    obtain ⟨hd', hs', hlt⟩ := h.rank_lt habsorb hsrc hd hs
    refine ⟨hd', hs', Nat.lt_of_lt_of_le hlt (Nat.le_of_eq ?_)⟩
    unfold rank
    have hbare : stage (dst.orNullable src.nullable) src.bare = _ := stage_plain hsrc
    rw [weight_orNullable, weight_bare, stage_plain hsrc, hbare, Schema.form_orNullable]

end

/-! ## Absorbing without a limit -/

section

variable {limits : Limits}

/-- Any depth above the rank of two trees gives the same. -/
theorem absorbWithin_eq {depth depth' : Nat} {dst src : Schema} (hd : dst.form.Everywhere Form.Ordered)
    (hs : src.form.Everywhere Form.Ordered) (h : rank dst src < depth) (h' : rank dst src < depth') :
    absorbWithin limits depth dst src = absorbWithin limits depth' dst src := by
  induction depth generalizing depth' dst src with
  | zero => omega
  | succ depth ih =>
    cases depth' with
    | zero => omega
    | succ depth' =>
      refine absorbStep_congr src fun d s hc => ?_
      obtain ⟨hd', hs', hlt⟩ := hc.rank_lt (fun _ _ _ => bounded_of_absorbWithin) hd hs
      exact ih hd' hs' (by omega) (by omega)

theorem absorbWithin_eq_absorb {depth : Nat} {dst src : Schema} (hd : dst.form.Everywhere Form.Ordered)
    (hs : src.form.Everywhere Form.Ordered) (h : rank dst src < depth) :
    absorbWithin limits depth dst src = absorb limits dst src :=
  absorbWithin_eq hd hs h (rank_lt_depthBound dst src)

/-- Absorbing is one step over absorbing itself. -/
theorem absorb_eq_step {dst src : Schema} (hd : dst.form.Everywhere Form.Ordered)
    (hs : src.form.Everywhere Form.Ordered) :
    absorb limits dst src = absorbStep limits (absorb limits) dst src := by
  rw [← absorbWithin_eq_absorb hd hs (Nat.lt_succ_self _)]
  refine absorbStep_congr src fun d s hc => ?_
  obtain ⟨hd', hs', hlt⟩ := hc.rank_lt (fun _ _ _ => bounded_of_absorbWithin) hd hs
  exact absorbWithin_eq_absorb hd' hs' hlt

theorem bounded_of_absorb {dst src r : Schema} (h : absorb limits dst src = .ok r) : Bounded dst src r :=
  bounded_of_absorbWithin h

theorem Calls.rank_lt_of_absorb {dst src d s : Schema} (h : Calls limits (absorb limits) dst src d s)
    (hd : dst.form.Everywhere Form.Ordered) (hs : src.form.Everywhere Form.Ordered) :
    d.form.Everywhere Form.Ordered ∧ s.form.Everywhere Form.Ordered ∧ rank d s < rank dst src :=
  h.rank_lt (fun _ _ _ => bounded_of_absorb) hd hs

end

end ApiShape

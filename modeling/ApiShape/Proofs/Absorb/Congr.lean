/-
A step depends on the absorber it is given only at the pairs that it calls: two absorbers that agree
there give the same step, faults included.
-/
import ApiShape.Proofs.Absorb.Calls

namespace ApiShape

section

variable {absorb absorb' : Absorber}

/-! ## Folds -/

theorem foldlM_congr_calls {l : List Schema} {acc : Schema}
    (h : ∀ d s, FoldCalls absorb acc l d s → absorb d s = absorb' d s) :
    l.foldlM absorb acc = l.foldlM absorb' acc := by
  induction l generalizing acc with
  | nil => rfl
  | cons s rest ih =>
    rw [List.foldlM_cons, List.foldlM_cons, ← h acc s ⟨[], rest, rfl, rfl⟩]
    refine bind_congr_ok fun mid hmid => ih fun d s' ⟨pre, post, hrest, hpre⟩ => ?_
    refine h d s' ⟨s :: pre, post, by rw [hrest]; rfl, ?_⟩
    rw [List.foldlM_cons]
    exact bind_eq_ok.2 ⟨mid, hmid, hpre⟩

theorem absorbFields_congr {rows : List (String × Schema)} {acc : Schema}
    (h : ∀ d s, FoldCalls absorb acc (rows.map (·.2)) d s → absorb d s = absorb' d s) :
    absorbFields absorb acc rows = absorbFields absorb' acc rows := by
  induction rows generalizing acc with
  | nil => rfl
  | cons row rest ih =>
    unfold absorbFields at ih ⊢
    rw [List.foldlM_cons, List.foldlM_cons, ← h acc row.2 ⟨[], rest.map (·.2), rfl, rfl⟩]
    refine bind_congr_ok fun mid hmid => ih fun d s' ⟨pre, post, hrest, hpre⟩ => ?_
    refine h d s' ⟨row.2 :: pre, post, by rw [List.map_cons, hrest]; rfl, ?_⟩
    rw [List.foldlM_cons]
    exact bind_eq_ok.2 ⟨mid, mapError_eq_ok.1 hmid, hpre⟩

/-! ## Records -/

theorem mapValueOf_congr {fields : Table Schema}
    (h : ∀ d s, CollectCalls absorb (mapValues fields) d s → absorb d s = absorb' d s) :
    mapValueOf absorb fields = mapValueOf absorb' fields := by
  have hvalues := map_filterMap_asMapValue fields
  unfold mapValueOf
  split
  · rfl
  · rename_i name first rest heq
    rw [heq] at hvalues
    rw [absorbFields_congr fun d s hc => h d s ⟨first, _, hvalues.symm, hc⟩]

theorem mappingOf_congr {fields : Table Schema}
    (h : ∀ d s, CollectCalls absorb (mapValues fields) d s → absorb d s = absorb' d s) :
    mappingOf absorb fields = mappingOf absorb' fields := by
  unfold mappingOf
  rw [mapValueOf_congr h]

theorem asMap_congr {fields : Table Schema} {mapping : Option Mapping}
    (h : ∀ d s, MapCalls absorb fields mapping d s → absorb d s = absorb' d s) :
    asMap absorb fields mapping = asMap absorb' fields mapping := by
  cases mapping with
  | some m => rfl
  | none =>
    unfold asMap
    dsimp only
    rw [mappingOf_congr fun d s hc => h d s ⟨rfl, hc⟩]

theorem absorbSlot_congr {dst src : Option Schema}
    (h : ∀ d s, dst = some d → src = some s → absorb d s = absorb' d s) :
    absorbSlot absorb dst src = absorbSlot absorb' dst src := by
  rcases dst with _ | d
  · rfl
  · rcases src with _ | s
    · rfl
    · unfold absorbSlot
      dsimp only
      rw [h d s rfl rfl]

theorem absorbShared_congr {src dst : Table Schema}
    (h : ∀ name d s, (name, d) ∈ dst → Table.find? src name = some s → absorb d s = absorb' d s) :
    absorbShared absorb src dst = absorbShared absorb' src dst := by
  induction dst with
  | nil => rfl
  | cons row rest ih =>
    obtain ⟨name, d⟩ := row
    have hfield : absorbField absorb src name d = absorbField absorb' src name d := by
      unfold absorbField
      split
      · rename_i s hs
        rw [h name d s List.mem_cons_self hs]
      · rfl
    unfold absorbShared
    rw [hfield, ih fun name d s hmem => h name d s (List.mem_cons_of_mem _ hmem)]

/-- The conversions come first, since the pairs of the slots depend on what they give. -/
theorem absorbRecord_congr {limits : Limits} {df sf : Table Schema} {dm sm : Option Mapping}
    (h : ∀ d s, RecordCalls limits absorb df dm sf sm d s → absorb d s = absorb' d s) :
    absorbRecord limits absorb df dm sf sm = absorbRecord limits absorb' df dm sf sm := by
  unfold absorbRecord
  split
  · rename_i hmap
    have hmap : dm.isSome ∨ sm.isSome := by simpa using hmap
    rw [← asMap_congr fun d s hc => h d s (.dstMap ?_ hc)]
    · refine bind_congr_ok fun ⟨kept, m⟩ hdm => ?_
      dsimp only
      rw [← asMap_congr fun d s hc => h d s (.srcMap ?_ hc)]
      · refine bind_congr_ok fun ⟨kept', m'⟩ hsm => ?_
        dsimp only
        unfold absorbMapping
        rw [absorbSlot_congr fun d s hd hs => h d s (.key hmap hdm hsm hd hs),
          absorbSlot_congr fun d s hd hs => h d s (.value hmap hdm hsm hd hs)]
      · exact hmap.resolve_right fun hs => by rw [hc.1] at hs; cases hs
    · exact hmap.resolve_left fun hd => by rw [hc.1] at hd; cases hd
  · rename_i hmap
    obtain ⟨rfl, rfl⟩ : dm = none ∧ sm = none := by simpa using hmap
    have hfields : absorbRecordFields absorb df sf = absorbRecordFields absorb' df sf := by
      unfold absorbRecordFields
      rw [absorbShared_congr fun name d s hmem hs => h d s (.field rfl rfl hmem hs)]
    rw [← hfields]
    refine bind_congr_ok fun fields hok => ?_
    split
    · rename_i hexceeded
      rw [mappingOf_congr fun d s hc => h d s (.grown rfl rfl hok hexceeded hc)]
    · rfl

/-! ## Lists -/

theorem absorbElem_congr {l : List Schema} {k : Nat} {acc : Schema}
    (h : ∀ d s, FoldCalls absorb acc l d s → absorb d s = absorb' d s) :
    (l.zipIdx k).foldlM (absorbElem absorb) (some acc) =
      (l.zipIdx k).foldlM (absorbElem absorb') (some acc) := by
  induction l generalizing k acc with
  | nil => rfl
  | cons s rest ih =>
    have hstep : absorbElem absorb (some acc) (s, k) = absorbElem absorb' (some acc) (s, k) := by
      unfold absorbElem
      dsimp only
      rw [h acc s ⟨[], rest, rfl, rfl⟩]
    rw [List.zipIdx_cons, List.foldlM_cons, List.foldlM_cons, ← hstep]
    refine bind_congr_ok fun mid hmid => ?_
    obtain ⟨r, hr, rfl⟩ := map_eq_ok.1 (mapError_eq_ok.1 hmid)
    refine ih fun d s' ⟨pre, post, hrest, hpre⟩ => ?_
    refine h d s' ⟨s :: pre, post, by rw [hrest]; rfl, ?_⟩
    rw [List.foldlM_cons]
    exact bind_eq_ok.2 ⟨r, hr, hpre⟩

/-- The elements of `dst` come first, since the pairs of those of `src` depend on what they give. -/
theorem absorbElems_congr {dst src : List Schema}
    (h : ∀ d s, CollectCalls absorb (dst ++ src) d s → absorb d s = absorb' d s) :
    absorbElems absorb dst src = absorbElems absorb' dst src := by
  cases dst with
  | nil =>
    cases src with
    | nil => rfl
    | cons first rest =>
      have hfold := absorbElem_congr (k := 1) fun d s hc => h d s ⟨first, rest, rfl, hc⟩
      exact congrArg (· >>= fun rep => pure rep.toList) hfold
  | cons first rest =>
    have hdst : (rest.zipIdx 1).foldlM (absorbElem absorb) (some first) =
        (rest.zipIdx 1).foldlM (absorbElem absorb') (some first) :=
      absorbElem_congr fun d s ⟨pre, post, hrest, hpre⟩ =>
        h d s ⟨first, rest ++ src, rfl, pre, post ++ src, by rw [hrest]; simp, hpre⟩
    unfold absorbElems
    rw [List.zipIdx_cons, List.foldlM_cons, List.foldlM_cons]
    dsimp only [absorbElem]
    change ((rest.zipIdx 1).foldlM (absorbElem absorb) (some first) >>= _) =
      ((rest.zipIdx 1).foldlM (absorbElem absorb') (some first) >>= _)
    rw [← hdst]
    refine bind_congr_ok fun mid hmid => ?_
    obtain ⟨r, rfl, hr⟩ := absorbElem_fold_eq_ok.1 hmid
    rw [absorbElem_congr fun d s ⟨pre, post, hsrc, hpre⟩ =>
      h d s ⟨first, rest ++ src, rfl, rest ++ pre, post, by rw [hsrc]; simp,
        foldlM_append_eq_ok.2 ⟨r, hr, hpre⟩⟩]

/-! ## Options -/

theorem absorbSameKind_congr {options : List Schema} {variant : Schema}
    (h : ∀ d s, CollectCalls absorb (options ++ [variant]) d s → absorb d s = absorb' d s) :
    absorbSameKind absorb options variant = absorbSameKind absorb' options variant := by
  cases options with
  | nil => rfl
  | cons first rest => exact foldlM_congr_calls fun d s hc => h d s ⟨first, _, rfl, hc⟩

theorem gather_congr {rounds : Nat} {acc : Schema} {options : Catalogue}
    (h : ∀ d s, GatherCalls absorb acc options d s → absorb d s = absorb' d s) :
    gather absorb rounds acc options = gather absorb' rounds acc options := by
  induction rounds generalizing acc options with
  | zero =>
    unfold gather
    rfl
  | succ rounds ih =>
    unfold gather
    split
    · rfl
    · rename_i taken rest hne heq
      have htaken : (Catalogue.take (fun o => o.joinable acc) options).1 ≠ [] := by
        rw [heq]
        exact fun hnil => hne hnil
      rw [← foldlM_congr_calls fun d s hc => h d s (.here (by rw [heq]; exact hc))]
      refine bind_congr_ok fun acc' hacc => ih fun d s hc => h d s ?_
      exact .next htaken (by rw [heq]; exact hacc) (by rw [heq]; exact hc)

theorem joinOption_congr {options : Catalogue} {variant : Schema} (hv : variant.isPlain)
    (h : ∀ d s, OptionCalls absorb options variant d s → absorb d s = absorb' d s) :
    joinOption absorb options variant = joinOption absorb' options variant := by
  unfold joinOption
  split
  · rename_i hform
    dsimp only
    rw [absorbSameKind_congr fun d s hc => h d s (.record (by unfold Schema.isRecord; rw [hform]) hc)]
  · rename_i hform
    dsimp only
    rw [absorbSameKind_congr fun d s hc => h d s (.list (by unfold Schema.isList; rw [hform]) hc)]
  · rename_i hrecord hlist
    obtain ⟨p, hform⟩ := isPrimitive_of_isPlain hv hrecord hlist
    exact gather_congr fun d s hc => h d s (.primitive hform hc)

theorem absorbVariant_congr {dst variant : Schema} {options : Catalogue} {conflict : Bool}
    (hv : variant.isPlain) (h : ∀ d s, OptionCalls absorb options variant.bare d s → absorb d s = absorb' d s) :
    absorbVariant absorb dst options conflict variant = absorbVariant absorb' dst options conflict variant := by
  unfold absorbVariant absorbOption
  have hvariant : variant.bare.isPlain := hv
  rw [joinOption_congr hvariant h]

/-! ## Steps -/

theorem absorbPlain_congr {limits : Limits} {dst src : Schema} (hs : src.isPlain)
    (h : ∀ d s, PlainCalls limits absorb dst src d s → absorb d s = absorb' d s) :
    absorbPlain limits absorb dst src = absorbPlain limits absorb' dst src := by
  unfold absorbPlain
  split
  · rename_i df dm hd
    split
    · rename_i sf sm hs
      rw [absorbRecord_congr fun d s hc => h d s (.record hd hs hc)]
    · rfl
  · rename_i de hd
    split
    · rename_i se hs
      rw [absorbElems_congr fun d s hc => h d s (.list hd hs hc)]
    · rfl
  · rename_i inner hd
    split
    · rfl
    · rename_i hopt
      rw [h inner src (.inner hd (by simpa using hopt))]
  · rfl
  · rename_i options conflict hd
    exact absorbVariant_congr hs fun d s hc => h d s (.option hd hc)
  · rfl

theorem absorbAlternatives_congr {dst : Schema} {options srcOptions : Catalogue} {conflict srcConflict : Bool}
    (h : (∀ t ∈ Table.values srcOptions, t.isPlain) → ∀ d s,
      FoldCalls absorb { dst with form := .oneOf options (conflict || srcConflict) } (Table.values srcOptions) d s →
        absorb d s = absorb' d s) :
    absorbAlternatives absorb dst options conflict srcOptions srcConflict =
      absorbAlternatives absorb' dst options conflict srcOptions srcConflict := by
  unfold absorbAlternatives
  refine bind_congr_ok fun _ hcheck => foldlM_congr_calls (h fun t ht => ?_)
  exact checkOption_eq_ok.1 (forM_eq_ok.1 hcheck t ht)

/-- Absorbers that agree on the pairs a step calls give one result, or one fault. -/
theorem absorbStep_congr {limits : Limits} (src : Schema) :
    ∀ {dst : Schema}, (∀ d s, Calls limits absorb dst src d s → absorb d s = absorb' d s) →
      absorbStep limits absorb dst src = absorbStep limits absorb' dst src := by
  induction src using Schema.inductionOn with
  | step src ih =>
    intro dst h
    obtain ⟨form, nullable, metadata, examples⟩ := src
    cases form with
    | optional inner =>
      unfold absorbStep
      rw [ih inner (by simp [Schema.children, Form.children]) fun d s hc => h d s (.optional rfl hc)]
    | absent => rfl
    | oneOf srcOptions srcConflict =>
      unfold absorbStep
      split
      · rename_i options conflict hd
        exact absorbAlternatives_congr fun hplain d s hc => h d s (.alternatives rfl hd hplain hc)
      · rename_i hd
        refine h _ _ (.swap rfl ?_)
        unfold Schema.isOneOf
        split
        · exact absurd ‹_› (hd _ _)
        · rfl
    | primitive p => exact absorbPlain_congr rfl fun d s hc => h d s (.plain rfl hc)
    | record fields mapping => exact absorbPlain_congr rfl fun d s hc => h d s (.plain rfl hc)
    | list elems => exact absorbPlain_congr rfl fun d s hc => h d s (.plain rfl hc)

end

end ApiShape

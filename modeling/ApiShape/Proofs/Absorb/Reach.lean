/-
The pairs that absorbing one tree into another comes to (`Reaches`), at any depth of the recursion, and
the properties of shapes that all of them have.
-/
import ApiShape.Proofs.Absorb.Depth

namespace ApiShape

/-- While `src` is absorbed into `dst`, `s` is absorbed into `d`. -/
inductive Reaches (limits : Limits) : Schema → Schema → Schema → Schema → Prop
  | here (d s : Schema) : Reaches limits d s d s
  | call {dst src d s d' s' : Schema} : Calls limits (absorb limits) dst src d s → Reaches limits d s d' s' →
      Reaches limits dst src d' s'

section

variable {limits : Limits}

theorem Reaches.trans {dst src d s d' s' : Schema} (h : Reaches limits dst src d s) (h' : Reaches limits d s d' s') :
    Reaches limits dst src d' s' := by
  induction h with
  | here => exact h'
  | call hc _ ih => exact .call hc (ih h')

end

/-! ## Properties of shapes -/

section

variable {limits : Limits} {absorb : Absorber} {Q : Form → Prop}

theorem FoldCalls.everywhere {acc d s : Schema} {l : List Schema} (h : FoldCalls absorb acc l d s)
    (hA : ∀ d s r, FoldCalls absorb acc l d s → absorb d s = .ok r → Keeps Q d s r)
    (hacc : acc.form.Everywhere Q) (hl : ∀ s ∈ l, s.form.Everywhere Q) :
    d.form.Everywhere Q ∧ s.form.Everywhere Q := by
  obtain ⟨pre, post, rfl, hpre⟩ := h
  have hfolds : Folds (Keeps Q) acc pre d := folds_of_foldlM hpre fun d' s' r ⟨pre', post', hsplit, hpre'⟩ hr =>
    hA d' s' r ⟨pre', post' ++ s :: post, by rw [hsplit]; simp, hpre'⟩ hr
  exact ⟨hfolds.everywhere hacc fun t ht => hl t (List.mem_append_left _ ht), hl s (by simp)⟩

theorem CollectCalls.everywhere {d s : Schema} {l : List Schema} (h : CollectCalls absorb l d s)
    (hA : ∀ d s r, CollectCalls absorb l d s → absorb d s = .ok r → Keeps Q d s r)
    (hl : ∀ s ∈ l, s.form.Everywhere Q) : d.form.Everywhere Q ∧ s.form.Everywhere Q := by
  obtain ⟨first, rest, rfl, h⟩ := h
  exact h.everywhere (fun d s r hc => hA d s r ⟨first, rest, rfl, hc⟩) (hl first List.mem_cons_self)
    fun t ht => hl t (List.mem_cons_of_mem _ ht)

/-- Slots are met after the conversions and grown fields after the fields, which is where the results of calls come in. -/
theorem RecordCalls.everywhere (hQ : Closed limits Q) {df sf : Table Schema} {dm sm : Option Mapping}
    {d s : Schema} (h : RecordCalls limits absorb df dm sf sm d s)
    (hA : ∀ d s r, RecordCalls limits absorb df dm sf sm d s → absorb d s = .ok r → Keeps Q d s r)
    (hd : (Form.record df dm).Everywhere Q) (hs : (Form.record sf sm).Everywhere Q) :
    d.form.Everywhere Q ∧ s.form.Everywhere Q := by
  obtain ⟨-, hdf, -⟩ := Form.everywhere_record.1 hd
  obtain ⟨-, hsf, -⟩ := Form.everywhere_record.1 hs
  have hdstMap : ∀ {kept m}, dm.isSome ∨ sm.isSome → asMap absorb df dm = .ok (kept, m) →
      ∀ t ∈ m.slots, t.form.Everywhere Q := by
    intro kept m hmap h
    have h : AsMap (Keeps Q) df dm kept m := asMap_of_ok h fun d s r hc => hA d s r
      (.dstMap (hmap.resolve_left fun hd => by rw [hc.1] at hd; cases hd) hc)
    exact (Form.everywhere_record.1 (h.everywhere hQ hd)).2.2 m rfl
  have hsrcMap : ∀ {kept m}, dm.isSome ∨ sm.isSome → asMap absorb sf sm = .ok (kept, m) →
      ∀ t ∈ m.slots, t.form.Everywhere Q := by
    intro kept m hmap h
    have h : AsMap (Keeps Q) sf sm kept m := asMap_of_ok h fun d s r hc => hA d s r
      (.srcMap (hmap.resolve_right fun hs => by rw [hc.1] at hs; cases hs) hc)
    exact (Form.everywhere_record.1 (h.everywhere hQ hs)).2.2 m rfl
  cases h with
  | field _ _ hmem hfind =>
    exact ⟨hdf d (Table.mem_values_of_mem hmem), hsf s (Table.mem_values_of_mem (Table.mem_of_find? hfind))⟩
  | grown hdm hsm hfields hexceeded hc =>
    obtain ⟨shared, hshared, rfl⟩ := absorbRecordFields_eq_ok hfields
    have hshared : Fields (Keeps Q) sf df shared := fields_of_ok hshared fun _ d s r hmem hfind =>
      hA d s r (.field hdm hsm hmem hfind)
    have hadded := hQ.addMissing (hshared.everywhere hQ hdf hsf) hsf
    exact hc.everywhere (fun d s r hc => hA d s r (.grown hdm hsm hfields hexceeded hc))
      fun _ ht => .of_mem_mapValues hadded ht
  | dstMap hsm hc =>
    exact hc.2.everywhere (fun d s r hc' => hA d s r (.dstMap hsm ⟨hc.1, hc'⟩)) fun _ ht => .of_mem_mapValues hdf ht
  | srcMap hdm hc =>
    exact hc.2.everywhere (fun d s r hc' => hA d s r (.srcMap hdm ⟨hc.1, hc'⟩)) fun _ ht => .of_mem_mapValues hsf ht
  | key hmap hdm hsm hk hk' =>
    exact ⟨hdstMap hmap hdm d (Mapping.mem_slots.2 (.inl hk)), hsrcMap hmap hsm s (Mapping.mem_slots.2 (.inl hk'))⟩
  | value hmap hdm hsm hv hv' =>
    exact ⟨hdstMap hmap hdm d (Mapping.mem_slots.2 (.inr hv)), hsrcMap hmap hsm s (Mapping.mem_slots.2 (.inr hv'))⟩

theorem GatherCalls.everywhere (hQ : Closed limits Q) {acc d s : Schema} {options : Catalogue}
    (h : GatherCalls absorb acc options d s)
    (hA : ∀ d s r, GatherCalls absorb acc options d s → absorb d s = .ok r → Keeps Q d s r)
    (hacc : acc.form.Everywhere Q) (hoptions : (Form.oneOf options true).Everywhere Q) :
    d.form.Everywhere Q ∧ s.form.Everywhere Q := by
  induction h with
  | here h => exact h.everywhere (fun d s r hc => hA d s r (.here hc)) hacc hoptions.taken
  | next htaken hfold _ ih =>
    have hfolds : Folds (Keeps Q) _ _ _ := folds_of_foldlM hfold fun d s r hc => hA d s r (.here hc)
    exact ih (fun d s r hc => hA d s r (.next htaken hfold hc)) (hfolds.everywhere hacc hoptions.taken)
      (hQ.left _ hoptions)

theorem OptionCalls.everywhere (hQ : Closed limits Q) {options : Catalogue} {variant d s : Schema}
    (h : OptionCalls absorb options variant d s)
    (hA : ∀ d s r, OptionCalls absorb options variant d s → absorb d s = .ok r → Keeps Q d s r)
    (hv : variant.form.Everywhere Q) (hoptions : (Form.oneOf options true).Everywhere Q) :
    d.form.Everywhere Q ∧ s.form.Everywhere Q := by
  have hsame : ∀ p : Schema → Bool, ∀ t ∈ (Catalogue.take p options).1 ++ [variant], t.form.Everywhere Q := by
    intro p t ht
    rcases List.mem_append.1 ht with ht | ht
    · exact hoptions.taken t ht
    · rwa [List.mem_singleton.1 ht]
  cases h with
  | record hrecord h => exact h.everywhere (fun d s r hc => hA d s r (.record hrecord hc)) (hsame _)
  | list hlist h => exact h.everywhere (fun d s r hc => hA d s r (.list hlist hc)) (hsame _)
  | primitive hform h => exact h.everywhere hQ (fun d s r hc => hA d s r (.primitive hform hc)) hv hoptions

theorem PlainCalls.everywhere (hQ : Closed limits Q) {dst src d s : Schema}
    (h : PlainCalls limits absorb dst src d s)
    (hA : ∀ d s r, PlainCalls limits absorb dst src d s → absorb d s = .ok r → Keeps Q d s r)
    (hd : dst.form.Everywhere Q) (hs : src.form.Everywhere Q) : d.form.Everywhere Q ∧ s.form.Everywhere Q := by
  cases h with
  | record hdf hsf h =>
    rw [hdf] at hd
    rw [hsf] at hs
    exact h.everywhere hQ (fun d s r hc => hA d s r (.record hdf hsf hc)) hd hs
  | list hdf hsf h =>
    rw [hdf] at hd
    rw [hsf] at hs
    exact h.everywhere (fun d s r hc => hA d s r (.list hdf hsf hc)) fun t ht =>
      (List.mem_append.1 ht).elim ((Form.everywhere_list.1 hd).2 t) ((Form.everywhere_list.1 hs).2 t)
  | inner hdf hopt =>
    rw [hdf] at hd
    exact ⟨(Form.everywhere_optional.1 hd).2, hs⟩
  | option hdf h =>
    rw [hdf] at hd
    obtain ⟨hroot, hoptions⟩ := Form.everywhere_oneOf.1 hd
    exact h.everywhere hQ (fun d s r hc => hA d s r (.option hdf hc)) hs
      (Form.everywhere_oneOf.2 ⟨hQ.flag hroot, hoptions⟩)

/-- A property of shapes that the results of the calls keep holds of the trees in every call. -/
theorem Calls.everywhere (hQ : Closed limits Q) {dst src d s : Schema} (h : Calls limits absorb dst src d s)
    (hA : ∀ d s r, Calls limits absorb dst src d s → absorb d s = .ok r → Keeps Q d s r)
    (hd : dst.form.Everywhere Q) (hs : src.form.Everywhere Q) : d.form.Everywhere Q ∧ s.form.Everywhere Q := by
  induction h with
  | optional hsf _ ih =>
    rw [hsf] at hs
    exact ih (fun d s r hc => hA d s r (.optional hsf hc)) hd (Form.everywhere_optional.1 hs).2
  | swap hsf hdf =>
    rw [hsf] at hs
    exact ⟨hs, hd⟩
  | alternatives hsf hdf hplain h =>
    rw [hdf] at hd
    rw [hsf] at hs
    obtain ⟨hroot, hoptions⟩ := Form.everywhere_oneOf.1 hd
    exact h.everywhere (fun d s r hc => hA d s r (.alternatives hsf hdf hplain hc))
      (Form.everywhere_oneOf.2 ⟨hQ.flag hroot, hoptions⟩) (Form.everywhere_oneOf.1 hs).2
  | plain hsrc h => exact h.everywhere hQ (fun d s r hc => hA d s r (.plain hsrc hc)) hd hs

/-- A stable property of both trees holds of all pairs that absorbing one into the other comes to. -/
theorem Reaches.everywhere (hQ : Stable limits Q) {dst src d s : Schema} (h : Reaches limits dst src d s)
    (hd : dst.form.Everywhere Q) (hs : src.form.Everywhere Q) : d.form.Everywhere Q ∧ s.form.Everywhere Q := by
  induction h with
  | here => exact ⟨hd, hs⟩
  | call hc _ ih =>
    obtain ⟨hd', hs'⟩ := hc.everywhere hQ.toClosed (fun _ _ _ _ hr => hQ.absorbWithin hr) hd hs
    exact ih hd' hs'

end

end ApiShape

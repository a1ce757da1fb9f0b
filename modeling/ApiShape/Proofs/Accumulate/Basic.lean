/-
One more entry in an accumulator: it is absorbed into the entry with its metadata, or it is discarded, or it
is recorded as it is (`Added`). What absorbing keeps of nodes, the accumulated entries keep.
-/
import ApiShape.Accumulate
import ApiShape.Proofs.Catalogue
import ApiShape.Proofs.Outcome

namespace ApiShape

/-! ## One entry -/

namespace Accumulator

variable {limits : Limits} {a a' : Accumulator} {m : Metadata} {s : Schema}

@[simp] theorem entries_noteCookie (a : Accumulator) (m : Metadata) : (a.noteCookie m).entries = a.entries := by
  unfold noteCookie
  split
  · split <;> rfl
  · rfl

@[simp] theorem discarded_noteCookie (a : Accumulator) (m : Metadata) : (a.noteCookie m).discarded = a.discarded := by
  unfold noteCookie
  split
  · split <;> rfl
  · rfl

/-- What an accumulator becomes with one more entry. -/
inductive Added (limits : Limits) (a : Accumulator) (m : Metadata) (s : Schema) : Accumulator → Prop
  | merged {stored r : Schema} : Table.find? a.entries m.address = some stored → absorb limits stored s = .ok r →
      Added limits a m s { a with entries := Table.insert a.entries m.address r }
  | discarded : Table.find? a.entries m.address = none → a.isFull limits m = true →
      Added limits a m s { a with discarded := a.discarded + 1 }
  | recorded : Table.find? a.entries m.address = none → a.isFull limits m = false →
      Added limits a m s { a.noteCookie m with entries := Table.insert a.entries m.address s }

/-- An entry that is taken in is a case of `Added`. -/
theorem added_of_add (h : a.add limits (m, s) = .ok a') : Added limits a m s a' := by
  unfold add at h
  simp only at h
  split at h
  · rename_i stored hstored
    split at h
    · rename_i r hr
      cases h
      exact .merged hstored hr
    · cases h
  · rename_i hnone
    split at h
    · rename_i hfull
      cases h
      exact .discarded hnone hfull
    · rename_i hfull
      cases h
      rw [entries_noteCookie]
      exact .recorded hnone (eq_false_of_ne_true hfull)

/-- Only absorbing into the entry with the same metadata can fail, and the report names the metadata. -/
theorem add_eq_error {e : Fault} (h : a.add limits (m, s) = .error e) :
    ∃ stored f, Table.find? a.entries m.address = some stored ∧ absorb limits stored s = .error f ∧
      e = .inField m.label f := by
  unfold add at h
  simp only at h
  split at h
  · rename_i stored hstored
    split at h
    · cases h
    · rename_i f hf
      cases h
      exact ⟨stored, f, hstored, hf, rfl⟩
  · split at h <;> cases h

/-! ## Invariants of nodes -/

section

variable {P : Schema → Prop} (hP : ∀ d s r, absorb limits d s = .ok r → P d → P s → P r)

include hP

theorem Added.values (h : Added limits a m s a') (ha : ∀ t ∈ Table.values a.entries, P t) (hs : P s) :
    ∀ t ∈ Table.values a'.entries, P t := by
  intro t ht
  cases h with
  | merged hstored hr =>
    rcases Table.mem_of_mem_values_insert ht with rfl | ht
    · exact hP _ _ _ hr (ha _ (Table.mem_values_of_mem (Table.mem_of_find? hstored))) hs
    · exact ha t ht
  | discarded => exact ha t ht
  | recorded =>
    rcases Table.mem_of_mem_values_insert ht with rfl | ht
    · exact hs
    · exact ha t ht

theorem foldlM_add_values {entries : List (Metadata × Schema)} (hentries : ∀ e ∈ entries, P e.2) :
    ∀ {a a' : Accumulator}, entries.foldlM (add limits) a = .ok a' → (∀ t ∈ Table.values a.entries, P t) →
      ∀ t ∈ Table.values a'.entries, P t := by
  induction entries with
  | nil =>
    intro a a' h ha
    cases h
    exact ha
  | cons e rest ih =>
    intro a a' h ha
    rw [List.foldlM_cons] at h
    obtain ⟨mid, hmid, h⟩ := bind_eq_ok.1 h
    exact ih (fun e he => hentries e (List.mem_cons_of_mem _ he)) h
      ((added_of_add hmid).values hP ha (hentries e List.mem_cons_self))

end

end Accumulator

/-! ## All entries -/

namespace Catalogue

variable {limits : Limits} {dst src c : Catalogue} {discarded : Nat}

theorem placed_eq_ok {c : Catalogue} {l : List (Metadata × Schema)} (h : c.placed = .ok l) :
    l.map (·.2) = Table.values c ∧ ∀ e ∈ l, e.2.placed? = some e.1 := by
  induction c generalizing l with
  | nil =>
    cases h
    exact ⟨rfl, fun _ he => absurd he List.not_mem_nil⟩
  | cons row rest ih =>
    obtain ⟨key, s⟩ := row
    unfold Catalogue.placed at h
    split at h
    · rename_i m hm
      obtain ⟨l, hl, rfl⟩ := map_eq_ok.1 h
      obtain ⟨hvalues, hall⟩ := ih hl
      exact ⟨congrArg (List.cons s) hvalues, List.forall_mem_cons.2 ⟨hm, hall⟩⟩
    · cases h

theorem of_mem_byMetadata {entries : List (Metadata × Schema)} (h : c.byMetadata = .ok entries) :
    ∀ e ∈ entries, e.2 ∈ Table.values c := by
  obtain ⟨placed, hplaced, rfl⟩ := map_eq_ok.1 h
  intro e he
  rw [← (placed_eq_ok hplaced).1]
  exact List.mem_map_of_mem (List.mem_mergeSort.1 he)

theorem accumulate_eq_ok (h : accumulate limits dst src = .ok (c, discarded)) :
    ∃ dsts srcs acc, dst.byMetadata = .ok dsts ∧ src.byMetadata = .ok srcs ∧
      (dsts ++ srcs).foldlM (Accumulator.add limits) {} = .ok acc ∧ c = ofList (Table.values acc.entries) ∧
        discarded = acc.discarded := by
  obtain ⟨dsts, hdsts, h⟩ := bind_eq_ok.1 h
  obtain ⟨srcs, hsrcs, h⟩ := bind_eq_ok.1 h
  obtain ⟨acc, hacc, h⟩ := bind_eq_ok.1 h
  cases h
  exact ⟨dsts, srcs, acc, hdsts, hsrcs, hacc, rfl, rfl⟩

/-- What absorbing keeps, and taking over examples, all accumulated nodes have when all entries had it. -/
theorem accumulate_values {P : Schema → Prop} (hP : ∀ d s r, absorb limits d s = .ok r → P d → P s → P r)
    (hmerge : ∀ s e, P s → P (Schema.mergeExamples s e)) (h : accumulate limits dst src = .ok (c, discarded))
    (hd : ∀ s ∈ Table.values dst, P s) (hs : ∀ s ∈ Table.values src, P s) : ∀ s ∈ Table.values c, P s := by
  obtain ⟨dsts, srcs, acc, hdsts, hsrcs, hacc, rfl, -⟩ := accumulate_eq_ok h
  refine ofList_values hmerge (Accumulator.foldlM_add_values hP (fun e he => ?_) hacc nofun)
  rcases List.mem_append.1 he with he | he
  · exact hd _ (of_mem_byMetadata hdsts e he)
  · exact hs _ (of_mem_byMetadata hsrcs e he)

end Catalogue

end ApiShape

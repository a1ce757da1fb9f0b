/-
Absorbing leaves the metadata of the destination alone: whatever becomes of its node on the way, wrapped,
taken for one of several or exchanged with the source, the result carries the metadata it had.
-/
import ApiShape.Proofs.Absorb.Nullable
import ApiShape.Proofs.Absorb.Step

namespace ApiShape

/-- The result has the metadata of the destination. -/
def KeepsMetadata (d _s r : Schema) : Prop := r.metadata = d.metadata

section

variable {limits : Limits} {dst src r : Schema}

theorem metadata_withOptions (dst : Schema) (options : Catalogue) (conflict : Bool) :
    (dst.withOptions options conflict).metadata = dst.metadata := by
  unfold Schema.withOptions
  split <;> rfl

theorem PlainStep.metadata (h : PlainStep KeepsMetadata limits dst src r) : r.metadata = dst.metadata := by
  cases h with
  | option => exact metadata_withOptions _ _ _
  | record | list | primitive | conflict | inner | absent => rfl

theorem Step.metadata (h : Step KeepsMetadata limits dst src r) : r.metadata = dst.metadata := by
  induction h with
  | optional _ _ ih => exact (Schema.metadata_makeOptional _).trans ih
  | absent => rfl
  | swap _ _ h => exact h
  | @alternatives dst _ _ _ _ _ _ _ _ _ h =>
    exact h.invariant (P := fun t => t.metadata = dst.metadata) (S := fun _ => True)
      (fun d s r hr hd _ => Eq.trans hr hd) rfl fun _ _ => trivial
  | plain _ h => exact h.metadata

theorem absorbWithin_metadata {depth : Nat} (h : absorbWithin limits depth dst src = .ok r) : r.metadata = dst.metadata := by
  induction depth generalizing dst src r with
  | zero => cases h
  | succ depth ih => exact (step_of_ok src h fun d s r _ hr => ih hr).metadata

theorem absorb_metadata (h : absorb limits dst src = .ok r) : r.metadata = dst.metadata := absorbWithin_metadata h

theorem foldlM_absorb_metadata {l : List Schema} (h : l.foldlM (absorb limits) dst = .ok r) : r.metadata = dst.metadata := by
  induction l generalizing dst with
  | nil =>
    cases h
    rfl
  | cons s rest ih =>
    rw [List.foldlM_cons] at h
    obtain ⟨mid, hmid, h⟩ := bind_eq_ok.1 h
    exact (ih h).trans (absorb_metadata hmid)

end

end ApiShape

/-
Which examples are kept of all that were observed. A merge forgets all but the smallest keys, and what it forgets
plays no part later: as many smaller keys are there from then on. A run of merges therefore keeps what one selection
from all sets keeps (`Examples.Retained`), and which keys these are does not depend on the order of the sets.
-/
import ApiShape.Proofs.Table
import ApiShape.Schema.Examples
import Mathlib.Data.Finset.Card
import Mathlib.Data.Finset.Dedup
import Mathlib.Data.List.Sort

namespace ApiShape

namespace Table

variable {α : Type} {t t' : Table α} {k : String} {a : α}

/-! ## Tables as sets of rows -/

theorem Sorted.mem_iff (h : Sorted t) : (k, a) ∈ t ↔ find? t k = some a := ⟨h.find?_eq, mem_of_find?⟩

theorem Sorted.take (h : Sorted t) (n : Nat) : Sorted (t.take n) := h.sublist (List.take_sublist n t)

/-- Tables with the same rows are one table. -/
theorem Sorted.ext (h : Sorted t) (h' : Sorted t') (hfind : ∀ k, find? t k = find? t' k) : t = t' := by
  have : Std.Antisymm (fun a b : String × α => a.1 < b.1) := ⟨fun _ _ hab hba => absurd hba (String.lt_asymm hab)⟩
  have : Std.Irrefl (fun a b : String × α => a.1 < b.1) := ⟨fun _ => String.lt_irrefl _⟩
  refine List.Pairwise.eq_of_mem_iff h h' fun ⟨k, a⟩ => ?_
  rw [h.mem_iff, h'.mem_iff, hfind]

/-- A row stands among the first `n` when fewer than `n` rows have smaller keys. -/
theorem Sorted.mem_take_iff (h : Sorted t) {n : Nat} {row : String × α} :
    row ∈ t.take n ↔ row ∈ t ∧ (t.filter (fun other => other.1 < row.1)).length < n := by
  induction t generalizing n with
  | nil => simp
  | cons first rest ih =>
    have hfirst : ∀ other ∈ rest, first.1 < other.1 := fun other => List.rel_of_pairwise_cons h
    cases n with
    | zero => simp
    | succ n =>
      rw [List.take_succ_cons, List.mem_cons, List.mem_cons]
      by_cases hrow : row = first
      · subst hrow
        have hnone : (row :: rest).filter (fun other => other.1 < row.1) = [] := by
          refine List.filter_eq_nil_iff.2 fun other hother => ?_
          rcases List.mem_cons.1 hother with rfl | hother
          · simp
          · simpa using String.lt_asymm (hfirst other hother)
        rw [hnone]
        exact iff_of_true (.inl rfl) ⟨.inl rfl, Nat.succ_pos n⟩
      · rw [or_iff_right hrow, or_iff_right hrow, ih (List.Pairwise.of_cons h)]
        refine and_congr_right fun hmem => ?_
        rw [List.filter_cons_of_pos (by simpa using hfirst row hmem), List.length_cons, Nat.succ_lt_succ_iff]

/-! ## Adding rows with new keys -/

/-- The rows of a table, and of others the first one for each new key. -/
def addNew (t : Table α) (rows : List (String × α)) : Table α :=
  rows.foldl (fun t row => insertNew t row.1 row.2) t

theorem addNew_append (t : Table α) (rows rows' : List (String × α)) :
    addNew t (rows ++ rows') = addNew (addNew t rows) rows' :=
  List.foldl_append

theorem Sorted.addNew (h : Sorted t) (rows : List (String × α)) : Sorted (addNew t rows) := by
  induction rows generalizing t with
  | nil => exact h
  | cons row rest ih => exact ih h.insertNew

theorem find?_append (rows rows' : List (String × α)) (k : String) :
    find? (rows ++ rows') k = (find? rows k).or (find? rows' k) := by
  induction rows with
  | nil => rfl
  | cons row rest ih =>
    rw [List.cons_append, find?, find?, ih]
    split
    · rfl
    · rfl

theorem find?_addNew (t : Table α) (rows : List (String × α)) (k : String) :
    find? (addNew t rows) k = (find? t k).or (find? rows k) := by
  induction rows generalizing t with
  | nil => exact (Option.or_none).symm
  | cons row rest ih =>
    show find? (addNew (insertNew t row.1 row.2) rest) k = _
    rw [ih, find?_insertNew, find?]
    by_cases hrow : row.1 = k
    · rw [if_pos hrow, if_pos hrow, hrow]
      cases find? t k <;> rfl
    · rw [if_neg hrow, if_neg hrow]

theorem Sorted.addNew_nil (h : Sorted t) : Table.addNew [] t = t :=
  (Sorted.nil.addNew t).ext h fun k => find?_addNew [] t k

/-- Where a new row goes: before the first larger key, and nowhere if its key is there. -/
theorem Sorted.insertNew_cons {row : String × α} (h : Sorted (row :: t)) (k : String) (a : α) :
    Table.insertNew (row :: t) k a =
      if k < row.1 then (k, a) :: row :: t else if k = row.1 then row :: t else row :: Table.insertNew t k a := by
  obtain ⟨j, b⟩ := row
  unfold Table.insertNew contains
  rw [find?]
  by_cases hlt : k < j
  · have hnone : find? t k = none := find?_eq_none.2 fun c hc =>
      String.lt_asymm hlt (List.rel_of_pairwise_cons h hc)
    rw [if_pos hlt, if_neg (String.ne_of_lt hlt).symm, hnone, Table.insert, if_pos hlt]
    rfl
  · by_cases heq : k = j
    · rw [if_neg hlt, if_pos heq, if_pos heq.symm]
      rfl
    · rw [if_neg hlt, if_neg heq, if_neg (Ne.symm heq), Table.insert, if_neg hlt, if_neg heq]
      split <;> rfl

/-- What lies beyond the first `n` rows does not come to stand among them through a new row. -/
theorem Sorted.take_insertNew (h : Sorted t) (n : Nat) (k : String) (a : α) :
    (Table.insertNew (t.take n) k a).take n = (Table.insertNew t k a).take n := by
  induction t generalizing n with
  | nil => rw [List.take_nil]
  | cons row rest ih =>
    cases n with
    | zero => rw [List.take_zero, List.take_zero]
    | succ n =>
      have hcut : Sorted (row :: rest.take n) := h.take (n + 1)
      rw [List.take_succ_cons, hcut.insertNew_cons, h.insertNew_cons]
      split
      · -- the new row comes first and pushes out the last of those that were kept
        have hagain : ((row :: rest).take (n + 1)).take n = (row :: rest).take n := by
          rw [List.take_take, Nat.min_eq_left (Nat.le_succ n)]
        exact congrArg ((k, a) :: ·) hagain
      · split
        · rw [List.take_succ_cons, List.take_succ_cons, List.take_take, Nat.min_self]
        · rw [List.take_succ_cons, List.take_succ_cons, ih (List.Pairwise.of_cons h)]

theorem Sorted.take_addNew (h : Sorted t) (n : Nat) (rows : List (String × α)) :
    (Table.addNew (t.take n) rows).take n = (Table.addNew t rows).take n := by
  -- two tables that agree on the first rows go on to agree on them
  suffices hsame : ∀ u : Table α, Sorted u → u.take n = t.take n →
      (Table.addNew u rows).take n = (Table.addNew t rows).take n from
    hsame (t.take n) (h.take n) (by rw [List.take_take, Nat.min_self])
  induction rows generalizing t with
  | nil => exact fun u _ hu => hu
  | cons row rest ih =>
    intro u hsorted hu
    refine ih h.insertNew (Table.insertNew u row.1 row.2) hsorted.insertNew ?_
    rw [← hsorted.take_insertNew, hu, h.take_insertNew]

end Table

namespace Examples

variable {sets sets' : List Examples} {e e' : Examples} {key value : String}

/-! ## Selection from all sets -/

/-- The example for a key in the first of the sets that has one. -/
def earliest (sets : List Examples) (key : String) : Option String := sets.findSome? (fun e => Table.find? e key)

/-- The keys of all sets. -/
def seen (sets : List Examples) : Finset String := (sets.flatMap Table.keys).toFinset

/-- What is kept of several sets: the examples with the smallest keys of all, each of them from the first set that
has the key. -/
structure Retained (sets : List Examples) (e : Examples) : Prop where
  sorted : Table.Sorted e
  mem_iff : ∀ key value, (key, value) ∈ e ↔
    earliest sets key = some value ∧ ((seen sets).filter (· < key)).card < capacity

theorem find?_flatten (sets : List Examples) (key : String) : Table.find? sets.flatten key = earliest sets key := by
  induction sets with
  | nil => rfl
  | cons e rest ih =>
    rw [List.flatten_cons, Table.find?_append, ih]
    unfold earliest
    rw [List.findSome?_cons]
    cases Table.find? e key <;> rfl

theorem mem_seen : key ∈ seen sets ↔ ∃ value, earliest sets key = some value := by
  simp only [← find?_flatten]
  constructor
  · intro h
    obtain ⟨e, he, hkey⟩ := List.mem_flatMap.1 (List.mem_toFinset.1 h)
    obtain ⟨value, hvalue⟩ := Table.mem_keys.1 hkey
    refine Option.ne_none_iff_exists'.1 fun hnone => ?_
    exact Table.find?_eq_none.1 hnone value (List.mem_flatten.2 ⟨e, he, hvalue⟩)
  · rintro ⟨value, hvalue⟩
    obtain ⟨e, he, hrow⟩ := List.mem_flatten.1 (Table.mem_of_find? hvalue)
    exact List.mem_toFinset.2 (List.mem_flatMap.2 ⟨e, he, Table.mem_keys.2 ⟨value, hrow⟩⟩)

theorem seen_perm (h : sets.Perm sets') : seen sets = seen sets' :=
  List.toFinset_eq_of_perm _ _ (h.flatMap_right _)

/-- Cutting the union of all sets down to the smallest keys is a selection. -/
theorem retained_take_addNew (sets : List Examples) : Retained sets ((Table.addNew [] sets.flatten).take capacity) := by
  have hsorted : Table.Sorted (Table.addNew [] sets.flatten) := Table.Sorted.nil.addNew _
  have hfind : ∀ key, Table.find? (Table.addNew [] sets.flatten) key = earliest sets key := fun key =>
    (Table.find?_addNew [] sets.flatten key).trans (find?_flatten sets key)
  -- the union has one row for each key, so that counting rows before a key is counting keys
  have hsmaller : ∀ key, ((Table.addNew [] sets.flatten).filter (fun row => row.1 < key)).length =
      ((seen sets).filter (· < key)).card := by
    intro key
    have hnodup : (Table.keys ((Table.addNew [] sets.flatten).filter (fun row => row.1 < key))).Nodup :=
      (hsorted.filter _).keys_pairwise.imp fun hlt => String.ne_of_lt hlt
    rw [← List.length_map (·.1)]
    refine (List.toFinset_card_of_nodup hnodup).symm.trans (congrArg Finset.card ?_)
    ext k
    rw [List.mem_toFinset, Finset.mem_filter, mem_seen, Table.mem_keys]
    simp only [List.mem_filter, hsorted.mem_iff, hfind, decide_eq_true_eq, exists_and_right]
  refine ⟨hsorted.take _, fun key value => ?_⟩
  rw [hsorted.mem_take_iff, hsorted.mem_iff, hfind, hsmaller]

/-! ## Runs of merges -/

/-- The smallest keys after a run are those of the union: merging cuts nothing off that would be among them. -/
theorem take_foldl_merge (h : Table.Sorted e) (rest : List Examples) :
    (rest.foldl merge e).take capacity = (Table.addNew e rest.flatten).take capacity := by
  induction rest generalizing e with
  | nil => rfl
  | cons other rest ih =>
    have hadd := h.addNew other
    calc (rest.foldl merge (merge e other)).take capacity
        = (Table.addNew ((Table.addNew e other).take capacity) rest.flatten).take capacity := ih (hadd.take capacity)
      _ = (Table.addNew (Table.addNew e other) rest.flatten).take capacity := hadd.take_addNew capacity _
      _ = (Table.addNew e (other :: rest).flatten).take capacity := by rw [List.flatten_cons, Table.addNew_append]

/-- A run of merges keeps what a selection from all sets keeps, once there is something to merge. -/
theorem retained_foldl_merge (h : Table.Sorted e) {rest : List Examples} (hrest : rest ≠ []) :
    Retained (e :: rest) (rest.foldl merge e) := by
  -- the last merge has cut its result, which therefore is its own selection
  have hlength : (rest.foldl merge e).length ≤ capacity := by
    obtain ⟨before, last, rfl⟩ := (List.eq_nil_or_concat' rest).resolve_left hrest
    rw [List.foldl_append]
    exact length_merge_le _ _
  have hselect := retained_take_addNew (e :: rest)
  rwa [List.flatten_cons, Table.addNew_append, h.addNew_nil, ← take_foldl_merge h, List.take_of_length_le hlength]
    at hselect

example : [[("a", "4"), ("b", "5")], [("c", "6")]].foldl merge [("b", "1"), ("c", "2"), ("d", "3")] =
    [("a", "4"), ("b", "1")] := by decide

namespace Retained

theorem mem_keys (h : Retained sets e) :
    key ∈ Table.keys e ↔ key ∈ seen sets ∧ ((seen sets).filter (· < key)).card < capacity := by
  simp only [Table.mem_keys, mem_seen, h.mem_iff, exists_and_right]

/-- What is kept of several sets is one table. -/
theorem unique (h : Retained sets e) (h' : Retained sets e') : e = e' := by
  refine h.sorted.ext h'.sorted fun key => Option.ext fun value => ?_
  rw [← h.sorted.mem_iff, ← h'.sorted.mem_iff, h.mem_iff, h'.mem_iff]

/-- Which keys are kept depends on the keys of the sets only. -/
theorem keys_eq (h : Retained sets e) (h' : Retained sets' e') (hseen : seen sets = seen sets') :
    Table.keys e = Table.keys e' :=
  h.sorted.keys_eq h'.sorted fun key => by rw [h.mem_keys, h'.mem_keys, hseen]

end Retained

end Examples

end ApiShape

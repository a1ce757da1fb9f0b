/-
Rows, look-ups and order of tables: what inserting and erasing do to the members of a table, and
that the order of the keys survives. Rows that stand in order are collected as they are.
-/
import ApiShape.Table
import Mathlib.Data.List.Sort

namespace ApiShape

namespace Table

variable {α : Type} {t : Table α} {k k' : String} {a b : α}

theorem mem_values : a ∈ values t ↔ ∃ k, (k, a) ∈ t := by
  simp [values]

theorem mem_values_of_mem (h : (k, a) ∈ t) : a ∈ values t := mem_values.2 ⟨k, h⟩

theorem mem_keys : k ∈ keys t ↔ ∃ a, (k, a) ∈ t := by
  simp [keys]

/-! ## Rows after an insertion -/

theorem mem_of_mem_insert {row : String × α} (h : row ∈ insert t k a) : row = (k, a) ∨ row ∈ t := by
  induction t with
  | nil => exact .inl (by simpa [insert] using h)
  | cons row' rest ih =>
    obtain ⟨j, b⟩ := row'
    unfold insert at h
    split at h
    · exact List.mem_cons.1 h
    · split at h
      · rcases List.mem_cons.1 h with h | h
        · exact .inl h
        · exact .inr (List.mem_cons_of_mem _ h)
      · rcases List.mem_cons.1 h with h | h
        · exact .inr (h ▸ List.mem_cons_self)
        · exact (ih h).imp_right (List.mem_cons_of_mem _)

theorem mem_insert_self : (k, a) ∈ insert t k a := by
  induction t with
  | nil => simp [insert]
  | cons row rest ih =>
    unfold insert
    split
    · exact List.mem_cons_self
    · split
      · exact List.mem_cons_self
      · exact List.mem_cons_of_mem _ ih

/-- An insertion replaces at most the row that a look-up finds, and drops no other. -/
theorem mem_insert_or_find? (k : String) (a : α) (h : (k', b) ∈ t) :
    (k', b) ∈ insert t k a ∨ k' = k ∧ find? t k = some b := by
  induction t with
  | nil => cases h
  | cons row rest ih =>
    obtain ⟨j, c⟩ := row
    unfold insert find?
    split
    · exact .inl (List.mem_cons_of_mem _ h)
    · split
      · rename_i heq
        rcases List.mem_cons.1 h with h | h
        · cases h
          exact .inr ⟨heq.symm, if_pos heq.symm⟩
        · exact .inl (List.mem_cons_of_mem _ h)
      · rename_i hne
        rw [if_neg (Ne.symm hne)]
        rcases List.mem_cons.1 h with h | h
        · exact .inl (h ▸ List.mem_cons_self)
        · exact (ih h).imp_left (List.mem_cons_of_mem _)

theorem mem_of_mem_values_insert (h : b ∈ values (insert t k a)) : b = a ∨ b ∈ values t := by
  obtain ⟨j, hj⟩ := mem_values.1 h
  rcases mem_of_mem_insert hj with h | h
  · exact .inl (congrArg Prod.snd h)
  · exact .inr (mem_values_of_mem h)

/-- The rows after adding others one by one are old ones or added ones. -/
theorem mem_of_mem_foldl_insert {β : Type} {f : β → α} {row : String × α} :
    ∀ {rows : List (String × β)} {t : Table α},
      row ∈ rows.foldl (fun t row => insert t row.1 (f row.2)) t →
        row ∈ t ∨ ∃ b, (row.1, b) ∈ rows ∧ row.2 = f b
  | [], _, h => .inl h
  | added :: rest, t, h => by
    rw [List.foldl_cons] at h
    rcases mem_of_mem_foldl_insert h with h | ⟨b, hb, h⟩
    · rcases mem_of_mem_insert h with rfl | h
      · exact .inr ⟨added.2, List.mem_cons_self, rfl⟩
      · exact .inl h
    · exact .inr ⟨b, List.mem_cons_of_mem _ hb, h⟩

theorem mem_of_mem_ofRows {rows : List (String × α)} {row : String × α} (h : row ∈ ofRows rows) : row ∈ rows := by
  rcases mem_of_mem_foldl_insert (f := id) h with h | ⟨b, hb, h⟩
  · cases h
  · obtain ⟨key, a⟩ := row
    cases h
    exact hb

/-! ## Look-ups -/

theorem mem_of_find? (h : find? t k = some a) : (k, a) ∈ t := by
  induction t with
  | nil => cases h
  | cons row rest ih =>
    obtain ⟨j, b⟩ := row
    unfold find? at h
    split at h
    · rename_i heq
      cases h
      rw [heq]
      exact List.mem_cons_self
    · exact List.mem_cons_of_mem _ (ih h)

theorem find?_eq_none : find? t k = none ↔ ∀ a, (k, a) ∉ t := by
  induction t with
  | nil => simp [find?]
  | cons row rest ih =>
    obtain ⟨j, b⟩ := row
    unfold find?
    split
    · rename_i heq
      subst heq
      exact ⟨fun h => absurd h (Option.some_ne_none b), fun h => absurd List.mem_cons_self (h b)⟩
    · rename_i hne
      rw [ih]
      simp [Ne.symm hne]

/-! ## Order -/

theorem Sorted.nil : Sorted ([] : Table α) := List.Pairwise.nil

theorem Sorted.keys_pairwise (h : Sorted t) : (keys t).Pairwise (· < ·) := List.pairwise_map.2 h

/-- Two tables in order, each with the keys of the other, have the same keys. -/
theorem Sorted.keys_eq {β : Type} {u : Table β} (h : Sorted t) (h' : Sorted u)
    (hkeys : ∀ k, k ∈ keys t ↔ k ∈ keys u) : keys t = keys u :=
  List.Pairwise.eq_of_mem_iff h.keys_pairwise h'.keys_pairwise hkeys

/-- Only the keys count. -/
theorem Sorted.of_keys {β : Type} {t' : Table β} (h : Sorted t) (hkeys : keys t' = keys t) : Sorted t' := by
  have h := h.keys_pairwise
  rw [← hkeys] at h
  exact List.pairwise_map.1 h

theorem Sorted.filter (p : String × α → Bool) (h : Sorted t) : Sorted (t.filter p) :=
  List.Pairwise.filter p h

theorem Sorted.find?_eq (h : Sorted t) (hmem : (k, a) ∈ t) : find? t k = some a := by
  induction t with
  | nil => cases hmem
  | cons row rest ih =>
    obtain ⟨j, b⟩ := row
    unfold find?
    rcases List.mem_cons.1 hmem with hmem | hmem
    · cases hmem
      rw [if_pos rfl]
    · have hlt : j < k := List.rel_of_pairwise_cons h hmem
      rw [if_neg (String.ne_of_lt hlt)]
      exact ih (List.Pairwise.of_cons h) hmem

/-- Inserting keeps the keys in order. -/
theorem Sorted.insert (h : Sorted t) : Sorted (insert t k a) := by
  induction t with
  | nil => exact List.pairwise_singleton _ _
  | cons row rest ih =>
    obtain ⟨j, b⟩ := row
    unfold Table.insert
    split
    · rename_i hlt
      refine List.Pairwise.cons ?_ h
      intro row' hrow'
      rcases List.mem_cons.1 hrow' with rfl | hrow'
      · exact hlt
      · exact String.lt_trans hlt (List.rel_of_pairwise_cons h hrow')
    · rename_i hnlt
      split
      · rename_i heq
        subst heq
        exact List.Pairwise.cons (fun row' hrow' => List.rel_of_pairwise_cons h hrow')
          (List.Pairwise.of_cons h)
      · rename_i hne
        have hlt : j < k := by
          refine String.not_le.1 fun hle => hne ?_
          exact String.le_antisymm hle (String.not_lt.1 hnlt)
        refine List.Pairwise.cons ?_ (ih (List.Pairwise.of_cons h))
        intro row' hrow'
        rcases mem_of_mem_insert hrow' with rfl | hrow'
        · exact hlt
        · exact List.rel_of_pairwise_cons h hrow'

theorem Sorted.insertNew (h : Sorted t) : Sorted (insertNew t k a) := by
  unfold Table.insertNew
  split
  · exact h
  · exact h.insert

theorem Sorted.foldl_insert {β : Type} {f : β → α} {rows : List (String × β)} (h : Sorted t) :
    Sorted (rows.foldl (fun t row => Table.insert t row.1 (f row.2)) t) := by
  induction rows generalizing t with
  | nil => exact h
  | cons row rest ih => exact ih h.insert

theorem erase_cons (row : String × α) (rest : Table α) (k : String) :
    erase (row :: rest) k = if row.1 = k then erase rest k else row :: erase rest k := by
  unfold erase
  rw [List.filter_cons]
  by_cases h : row.1 = k
  · simp [h]
  · simp [h]

theorem erase_eq_self (h : ∀ row ∈ t, row.1 ≠ k) : erase t k = t :=
  List.filter_eq_self.2 fun row hrow => by simpa using h row hrow

theorem Sorted.erase_of_cons (h : Sorted ((k, a) :: t)) : erase t k = t :=
  erase_eq_self fun _ hrow => Ne.symm (String.ne_of_lt (List.rel_of_pairwise_cons h hrow))

/-- A table has the row of a key besides the rows that erasing it leaves. -/
theorem Sorted.perm_of_find? (h : Sorted t) (hfind : find? t k = some a) : t.Perm ((k, a) :: erase t k) := by
  induction t with
  | nil => cases hfind
  | cons row rest ih =>
    obtain ⟨j, b⟩ := row
    unfold find? at hfind
    rw [erase_cons]
    split at hfind
    · rename_i heq
      cases hfind
      subst heq
      rw [if_pos rfl, h.erase_of_cons]
    · rename_i hne
      rw [if_neg hne]
      exact ((ih (List.Pairwise.of_cons h) hfind).cons (j, b)).trans (.swap _ _ _)

/-- A row under a new key is added to the others, wherever it goes. -/
theorem Sorted.insert_perm (h : Sorted t) (k : String) (a : α) : (Table.insert t k a).Perm ((k, a) :: erase t k) := by
  induction t with
  | nil => exact .refl _
  | cons row rest ih =>
    obtain ⟨j, b⟩ := row
    unfold Table.insert
    rw [erase_cons]
    split
    · rename_i hkj
      have hrest : erase rest k = rest := erase_eq_self fun row hrow =>
        Ne.symm (String.ne_of_lt (String.lt_trans hkj (List.rel_of_pairwise_cons h hrow)))
      rw [if_neg (Ne.symm (String.ne_of_lt hkj)), hrest]
    · split
      · rename_i heq
        subst heq
        rw [if_pos rfl, h.erase_of_cons]
      · rename_i hne
        rw [if_neg (Ne.symm hne)]
        exact ((ih (List.Pairwise.of_cons h)).cons (j, b)).trans (.swap _ _ _)

theorem find?_filter (p : String → Bool) (t : Table α) (k : String) :
    find? (t.filter (fun row => p row.1)) k = if p k then find? t k else none := by
  induction t with
  | nil => simp [find?]
  | cons row rest ih =>
    obtain ⟨j, b⟩ := row
    rw [List.filter_cons]
    by_cases hj : j = k
    · subst hj
      by_cases hp : p j
      · simp [hp, find?]
      · simp [hp, ih]
    · by_cases hp : p j
      · simp [hp, find?, hj, ih]
      · simp [hp, find?, hj, ih]

/-- A look-up after adding the rows of a table finds the added row before an old one. -/
theorem Sorted.find?_foldl_insert {β : Type} {f : β → α} {rows : Table β} (h : Sorted rows) (k : String) :
    find? (rows.foldl (fun t row => Table.insert t row.1 (f row.2)) t) k = ((find? rows k).map f).or (find? t k) := by
  induction rows generalizing t with
  | nil => rfl
  | cons row rest ih =>
    obtain ⟨j, b⟩ := row
    rw [List.foldl_cons, ih (List.Pairwise.of_cons h), find?_insert, find?]
    by_cases hj : j = k
    · have hrest : find? rest k = none := find?_eq_none.2 fun a ha =>
        String.lt_irrefl k (hj ▸ List.rel_of_pairwise_cons h ha)
      rw [if_pos hj, if_pos hj, hrest]
      rfl
    · rw [if_neg hj, if_neg hj]

/-- A key above all others goes to the end. -/
theorem insert_eq_append (h : ∀ row ∈ t, row.1 < k) : insert t k a = t ++ [(k, a)] := by
  induction t with
  | nil => rfl
  | cons row rest ih =>
    obtain ⟨j, b⟩ := row
    have hlt : j < k := h (j, b) List.mem_cons_self
    unfold insert
    rw [if_neg (String.lt_asymm hlt), if_neg (Ne.symm (String.ne_of_lt hlt)),
      ih fun row hrow => h row (List.mem_cons_of_mem _ hrow)]
    rfl

/-- Rows that stand in order are the table of themselves. -/
theorem Sorted.ofRows_eq (h : Sorted t) : ofRows t = t := by
  suffices hfold : ∀ acc : Table α, Sorted (acc ++ t) → t.foldl (fun t row => Table.insert t row.1 row.2) acc = acc ++ t from
    hfold [] h
  induction t with
  | nil => exact fun acc _ => (List.append_nil acc).symm
  | cons row rest ih =>
    intro acc hacc
    have hlast : ∀ r ∈ acc, r.1 < row.1 := fun r hr => (List.pairwise_append.1 hacc).2.2 r hr row List.mem_cons_self
    rw [List.foldl_cons, insert_eq_append hlast, ih (List.Pairwise.of_cons h), List.append_assoc]
    · rfl
    · rwa [List.append_assoc]

end Table

end ApiShape

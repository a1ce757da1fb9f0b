/-
Tables: rows kept in increasing order of a text key, at most one row per key. Inserting, erasing
and merging go through the order, so a table read twice is read in the same order. Text keys
compare code point by code point, which is also the order of their UTF-8 bytes.
-/

namespace ApiShape

/-- Rows in strictly increasing order of their key. -/
abbrev Table (α : Type) := List (String × α)

namespace Table

variable {α : Type}

/-- Every key is smaller than the keys of the rows after it. -/
def Sorted (t : Table α) : Prop := t.Pairwise (fun a b => a.1 < b.1)

/-- The keys, in increasing order. -/
def keys (t : Table α) : List String := t.map (·.1)

/-- The values, in the order of their keys. -/
def values (t : Table α) : List α := t.map (·.2)

/-- The value under a key. -/
def find? : Table α → String → Option α
  | [], _ => none
  | (k', a) :: rest, k => if k' = k then some a else find? rest k

/-- Whether there is a row with the key. -/
def contains (t : Table α) (k : String) : Bool := (find? t k).isSome

/-- Puts `a` under `k`, replacing the row that is there. -/
def insert : Table α → String → α → Table α
  | [], k, a => [(k, a)]
  | (k', a') :: rest, k, a =>
    if k < k' then (k, a) :: (k', a') :: rest
    else if k = k' then (k, a) :: rest
    else (k', a') :: insert rest k a

/-- Puts `a` under `k` unless a row is there already. -/
def insertNew (t : Table α) (k : String) (a : α) : Table α :=
  if contains t k then t else insert t k a

/-- The table without the row of a key. -/
def erase (t : Table α) (k : String) : Table α := t.filter (fun row => row.1 ≠ k)

/-- The table of a list of rows in any order; of several rows with one key the last is kept. -/
def ofRows (rows : List (String × α)) : Table α := rows.foldl (fun t row => insert t row.1 row.2) []

theorem find?_insert (t : Table α) (k k' : String) (a : α) :
    find? (insert t k a) k' = if k = k' then some a else find? t k' := by
  induction t with
  | nil => simp [insert, find?]
  | cons row rest ih =>
    obtain ⟨j, b⟩ := row
    by_cases hlt : k < j
    · simp [insert, find?, hlt]
    · by_cases heq : k = j
      · subst heq
        by_cases hk : k = k' <;> simp [insert, find?, hk]
      · by_cases hj : j = k'
        · subst hj
          simp [insert, find?, hlt, heq]
        · simp [insert, find?, hlt, heq, hj, ih]

theorem find?_insertNew (t : Table α) (k k' : String) (a : α) :
    find? (insertNew t k a) k' = if k = k' then some ((find? t k).getD a) else find? t k' := by
  unfold insertNew contains
  cases h : find? t k with
  | none => simp [find?_insert]
  | some b =>
    by_cases hk : k = k'
    · subst hk; simp [h]
    · simp [hk]

end Table

/-- Texts in strictly increasing order. -/
abbrev Labels := List String

namespace Labels

/-- Puts a text in its place, unless it is there already. -/
def insert : Labels → String → Labels
  | [], s => [s]
  | s' :: rest, s =>
    if s < s' then s :: s' :: rest
    else if s = s' then s' :: rest
    else s' :: insert rest s

/-- The set of texts given in any order. -/
def ofList (texts : List String) : Labels := texts.foldl insert []

/-- The texts of both sets. -/
def union (a b : Labels) : Labels := b.foldl insert a

end Labels

end ApiShape

/-
The encoding that is hashed can be read back. As long as no two of the byte strings that are hashed
for two objects collide, objects with one digest have members with one digest, and equal scalars:
chunks have a fixed length, and field numbers a text of their own.
-/
import ApiShape.Digest.Canon
import ApiShape.Proofs.Numeric.Normalized
import Mathlib.Data.List.Sort

namespace ApiShape

/-! ## Bytes -/

theorem Bytes.ofText_inj {s t : String} (h : Bytes.ofText s = Bytes.ofText t) : s = t := by
  unfold Bytes.ofText at h
  have hbytes : s.toUTF8 = t.toUTF8 := ByteArray.ext (Array.toList_inj.1 h)
  exact String.toByteArray_inj.1 hbytes

theorem hexDigit_inj {m n : Nat} (hm : m < 16) (hn : n < 16) (h : Bytes.hexDigit m = Bytes.hexDigit n) : m = n := by
  have hall : ∀ m n : Fin 16, Bytes.hexDigit m.val = Bytes.hexDigit n.val → m = n := by decide
  exact congrArg Fin.val (hall ⟨m, hm⟩ ⟨n, hn⟩ h)

/-- Two digits say which byte it is. -/
theorem Bytes.hex_inj {a b : Bytes} (h : a.hex = b.hex) : a = b := by
  replace h := String.ofList_injective h
  induction a generalizing b with
  | nil =>
    cases b with
    | nil => rfl
    | cons y b => simp at h
  | cons x a ih =>
    cases b with
    | nil => simp at h
    | cons y b =>
      simp only [List.flatMap_cons, List.cons_append, List.nil_append, List.cons.injEq] at h
      obtain ⟨hhigh, hlow, hrest⟩ := h
      have hx := x.toNat_lt
      have hy := y.toNat_lt
      have hhigh := hexDigit_inj (by omega) (by omega) hhigh
      have hlow := hexDigit_inj (by omega) (by omega) hlow
      have hbyte : x = y := UInt8.toNat_inj.1 (by omega)
      rw [hbyte, ih hrest]

/-- Chunks of one length are read back from their concatenation. -/
theorem eq_of_flatten_eq {n : Nat} (hn : 0 < n) {a b : List Bytes} (ha : ∀ c ∈ a, c.length = n)
    (hb : ∀ c ∈ b, c.length = n) (h : a.flatten = b.flatten) : a = b := by
  induction a generalizing b with
  | nil =>
    cases b with
    | nil => rfl
    | cons y b =>
      have hlen := congrArg List.length h
      have hy := hb y List.mem_cons_self
      simp only [List.flatten_nil, List.length_nil, List.flatten_cons, List.length_append] at hlen
      omega
  | cons x a ih =>
    have hx := ha x List.mem_cons_self
    cases b with
    | nil =>
      have hlen := congrArg List.length h
      simp only [List.flatten_nil, List.length_nil, List.flatten_cons, List.length_append] at hlen
      omega
    | cons y b =>
      rw [List.flatten_cons, List.flatten_cons] at h
      obtain ⟨hxy, hrest⟩ := List.append_inj h (by rw [hx, hb y List.mem_cons_self])
      rw [hxy, ih (fun c hc => ha c (List.mem_cons_of_mem _ hc)) (fun c hc => hb c (List.mem_cons_of_mem _ hc)) hrest]

/-- The order of byte strings is the lexicographic order of lists. -/
theorem Bytes.le_iff {a b : Bytes} : a.le b = true ↔ @LE.le (List UInt8) _ a b := by
  induction a generalizing b with
  | nil => simp [Bytes.le]
  | cons x a ih =>
    cases b with
    | nil => simp [Bytes.le]
    | cons y b =>
      rw [List.cons_le_cons_iff, ← ih]
      simp [Bytes.le]

/-- Sorting by insertion gives the same order, and closed terms evaluate. -/
theorem sortedConcat_eq_insertionSort (chunks : List Bytes) :
    Canon.sortedConcat chunks = (chunks.insertionSort (fun a b => a.le b = true)).flatten := by
  have : Std.Total (fun a b : Bytes => a.le b = true) := ⟨fun a b => by
    rw [Bytes.le_iff, Bytes.le_iff]
    exact List.le_total a b⟩
  have : IsTrans Bytes (fun a b => a.le b = true) := ⟨fun a b c => by
    rw [Bytes.le_iff, Bytes.le_iff, Bytes.le_iff]
    exact List.le_trans⟩
  have : Std.Antisymm (fun a b : Bytes => a.le b = true) := ⟨fun a b => by
    rw [Bytes.le_iff, Bytes.le_iff]
    exact List.le_antisymm⟩
  rw [← List.mergeSort_eq_insertionSort]
  simp [Canon.sortedConcat]

/-- Sorting forgets the order of chunks and nothing else. -/
theorem perm_of_sortedConcat_eq {n : Nat} (hn : 0 < n) {a b : List Bytes} (ha : ∀ c ∈ a, c.length = n)
    (hb : ∀ c ∈ b, c.length = n) (h : Canon.sortedConcat a = Canon.sortedConcat b) : a.Perm b := by
  unfold Canon.sortedConcat at h
  have hsorted := eq_of_flatten_eq hn (fun c hc => ha c (List.mem_mergeSort.1 hc))
    (fun c hc => hb c (List.mem_mergeSort.1 hc)) h
  exact ((List.mergeSort_perm a _).symm.trans (by rw [hsorted])).trans (List.mergeSort_perm b _)

/-! ## Digests -/

theorem Digest.ext_bytes {d e : Digest} (h : d.bytes = e.bytes) : d = e := by
  obtain ⟨bytes, _⟩ := d
  obtain ⟨bytes', _⟩ := e
  cases h
  rfl

theorem Digest.hex_inj {d e : Digest} (h : d.hex = e.hex) : d = e := Digest.ext_bytes (Bytes.hex_inj h)

/-- Two of the byte strings have one digest. -/
def Sha256.Collides (hashed : List Bytes) : Prop :=
  ∃ x ∈ hashed, ∃ y ∈ hashed, x ≠ y ∧ Sha256.digest x = Sha256.digest y

namespace Canon

/-! ## What is hashed -/

mutual

/-- The byte strings that are hashed for an object: its own, and those of its members. -/
def hashed : Canon → List Bytes
  | .list items => preimage (.list items) :: itemsHashed items
  | .set items => preimage (.set items) :: itemsHashed items
  | .dict rows => preimage (.dict rows) :: rowsHashed rows
  | .message fields => preimage (.message fields) :: fieldsHashed fields
  | c => [preimage c]

/-- The byte strings hashed for the items of a container. -/
def itemsHashed : List Canon → List Bytes
  | [] => []
  | c :: rest => c.hashed ++ itemsHashed rest

/-- The byte strings hashed for the rows of a dictionary. -/
def rowsHashed : List (Canon × Canon) → List Bytes
  | [] => []
  | (k, v) :: rest => k.hashed ++ v.hashed ++ rowsHashed rest

/-- Field numbers are hashed as integers. -/
def fieldsHashed : List (Nat × Canon) → List Bytes
  | [] => []
  | (n, v) :: rest => intPreimage n :: v.hashed ++ fieldsHashed rest

end

theorem preimage_mem_hashed (c : Canon) : c.preimage ∈ c.hashed := by
  cases c <;> simp [hashed]

theorem hashed_item {c : Canon} {items : List Canon} (h : c ∈ items) : c.hashed ⊆ itemsHashed items := by
  induction items with
  | nil => cases h
  | cons d rest ih =>
    unfold itemsHashed
    rcases List.mem_cons.1 h with rfl | h
    · exact List.subset_append_left _ _
    · exact List.subset_append_of_subset_right _ (ih h)

theorem hashed_row {k v : Canon} {rows : List (Canon × Canon)} (h : (k, v) ∈ rows) :
    k.hashed ⊆ rowsHashed rows ∧ v.hashed ⊆ rowsHashed rows := by
  induction rows with
  | nil => cases h
  | cons row rest ih =>
    obtain ⟨k', v'⟩ := row
    unfold rowsHashed
    rcases List.mem_cons.1 h with h | h
    · cases h
      simp
    · exact ⟨List.subset_append_of_subset_right _ (ih h).1, List.subset_append_of_subset_right _ (ih h).2⟩

theorem hashed_field {n : Nat} {v : Canon} {fields : List (Nat × Canon)} (h : (n, v) ∈ fields) :
    intPreimage n ∈ fieldsHashed fields ∧ v.hashed ⊆ fieldsHashed fields := by
  induction fields with
  | nil => cases h
  | cons field rest ih =>
    obtain ⟨n', v'⟩ := field
    unfold fieldsHashed
    rcases List.mem_cons.1 h with h | h
    · cases h
      simp
    · exact ⟨by simp [(ih h).1], List.subset_append_of_subset_right _ (ih h).2⟩

/-! ## Digests of members -/

theorem itemDigests_eq (items : List Canon) : itemDigests items = items.map (fun c => c.digest.bytes) := by
  induction items with
  | nil => rfl
  | cons c rest ih =>
    unfold itemDigests
    rw [ih]
    rfl

theorem rowDigests_eq (rows : List (Canon × Canon)) :
    rowDigests rows = rows.map (fun row => row.1.digest.bytes ++ row.2.digest.bytes) := by
  induction rows with
  | nil => rfl
  | cons row rest ih =>
    unfold rowDigests
    rw [ih]
    rfl

theorem fieldDigests_eq (fields : List (Nat × Canon)) : fieldDigests fields =
    fields.map (fun f => (Sha256.digest (intPreimage f.1)).bytes ++ f.2.digest.bytes) := by
  induction fields with
  | nil => rfl
  | cons field rest ih =>
    unfold fieldDigests
    rw [ih]
    rfl

theorem length_itemDigests {items : List Canon} : ∀ c ∈ itemDigests items, c.length = 32 := by
  simp [itemDigests_eq, Digest.length_bytes]

theorem length_rowDigests {rows : List (Canon × Canon)} : ∀ c ∈ rowDigests rows, c.length = 64 := by
  intro c hc
  rw [rowDigests_eq] at hc
  obtain ⟨row, -, rfl⟩ := List.mem_map.1 hc
  rw [List.length_append, Digest.length_bytes, Digest.length_bytes]

theorem length_fieldDigests {fields : List (Nat × Canon)} : ∀ c ∈ fieldDigests fields, c.length = 64 := by
  intro c hc
  rw [fieldDigests_eq] at hc
  obtain ⟨field, -, rfl⟩ := List.mem_map.1 hc
  rw [List.length_append, Digest.length_bytes, Digest.length_bytes]

/-- Two digests are read back from their concatenation. -/
theorem digests_of_append {d d' e e' : Digest} (h : d.bytes ++ d'.bytes = e.bytes ++ e'.bytes) : d = e ∧ d' = e' := by
  obtain ⟨hfst, hsnd⟩ := List.append_inj h (by rw [d.length_bytes, e.length_bytes])
  exact ⟨Digest.ext_bytes hfst, Digest.ext_bytes hsnd⟩

/-! ## Objects with one digest -/

theorem intPreimage_inj {i j : Int} (h : intPreimage i = intPreimage j) : i = j :=
  toString_int_inj (Bytes.ofText_inj (List.cons.inj h).2)

/-- Two objects with one digest, hashed with nothing but byte strings of `H`. -/
structure Matches (H : List Bytes) (c d : Canon) : Prop where
  digest : c.digest = d.digest
  left : c.hashed ⊆ H
  right : d.hashed ⊆ H

variable {H : List Bytes}

theorem Matches.symm {c d : Canon} (h : Matches H c d) : Matches H d c := ⟨h.digest.symm, h.right, h.left⟩

namespace Matches

variable (hH : ¬Sha256.Collides H)

include hH

theorem eq_of_digest_eq {x y : Bytes} (hx : x ∈ H) (hy : y ∈ H) (h : Sha256.digest x = Sha256.digest y) : x = y := by
  by_contra hne
  exact hH ⟨x, hx, y, hy, hne, h⟩

theorem preimage {c d : Canon} (h : Matches H c d) : c.preimage = d.preimage :=
  eq_of_digest_eq hH (h.left c.preimage_mem_hashed) (h.right d.preimage_mem_hashed) h.digest

theorem int {i j : Int} (h : Matches H (.int i) (.int j)) : i = j := intPreimage_inj (h.preimage hH)

theorem float {x y : Binary64} (h : Matches H (.float x) (.float y)) : x.normalized = y.normalized :=
  Bytes.ofText_inj (List.cons.inj (h.preimage hH)).2

theorem text {s t : String} (h : Matches H (.text s) (.text t)) : s = t :=
  Bytes.ofText_inj (List.cons.inj (h.preimage hH)).2

theorem raw {a b : Bytes} (h : Matches H (.raw a) (.raw b)) : a = b := (List.cons.inj (h.preimage hH)).2

/-- Sequences match member by member. -/
theorem list {l l' : List Canon} (h : Matches H (.list l) (.list l')) : List.Forall₂ (Matches H) l l' := by
  have hpre := (List.cons.inj (h.preimage hH)).2
  have hdigests := eq_of_flatten_eq (by decide) length_itemDigests length_itemDigests hpre
  rw [itemDigests_eq, itemDigests_eq] at hdigests
  have hleft : ∀ c ∈ l, c.hashed ⊆ H := fun c hc _ hx => h.left (List.mem_cons_of_mem _ (hashed_item hc hx))
  have hright : ∀ d ∈ l', d.hashed ⊆ H := fun d hd _ hx => h.right (List.mem_cons_of_mem _ (hashed_item hd hx))
  clear h hpre
  induction l generalizing l' with
  | nil =>
    cases l' with
    | nil => exact .nil
    | cons d rest' => cases hdigests
  | cons c rest ih =>
    cases l' with
    | nil => cases hdigests
    | cons d rest' =>
      obtain ⟨hhead, htail⟩ := List.cons.inj hdigests
      refine .cons ⟨Digest.ext_bytes hhead, hleft c List.mem_cons_self, hright d List.mem_cons_self⟩ ?_
      exact ih htail (fun c hc => hleft c (List.mem_cons_of_mem _ hc)) fun d hd => hright d (List.mem_cons_of_mem _ hd)

/-- Every member of a set matches one of the other set. -/
theorem set {l l' : List Canon} (h : Matches H (.set l) (.set l')) : ∀ c ∈ l, ∃ d ∈ l', Matches H c d := by
  have hpre := (List.cons.inj (h.preimage hH)).2
  have hchunks := (List.append_inj hpre (by unfold count; rw [Bytes.length_bigEndian, Bytes.length_bigEndian])).2
  have hperm := perm_of_sortedConcat_eq (by decide) length_itemDigests length_itemDigests hchunks
  intro c hc
  have hchunk : c.digest.bytes ∈ itemDigests l' := by
    rw [← hperm.mem_iff, itemDigests_eq]
    exact List.mem_map_of_mem hc
  rw [itemDigests_eq] at hchunk
  obtain ⟨d, hd, heq⟩ := List.mem_map.1 hchunk
  exact ⟨d, hd, Digest.ext_bytes heq.symm, fun _ hx => h.left (List.mem_cons_of_mem _ (hashed_item hc hx)),
    fun _ hx => h.right (List.mem_cons_of_mem _ (hashed_item hd hx))⟩

/-- Every row of a dictionary matches one of the other dictionary. -/
theorem dict {l l' : List (Canon × Canon)} (h : Matches H (.dict l) (.dict l')) :
    ∀ row ∈ l, ∃ row' ∈ l', Matches H row.1 row'.1 ∧ Matches H row.2 row'.2 := by
  have hpre := (List.cons.inj (h.preimage hH)).2
  have hchunks := (List.append_inj hpre (by unfold count; rw [Bytes.length_bigEndian, Bytes.length_bigEndian])).2
  have hperm := perm_of_sortedConcat_eq (by decide) length_rowDigests length_rowDigests hchunks
  intro row hrow
  have hchunk : row.1.digest.bytes ++ row.2.digest.bytes ∈ rowDigests l' := by
    rw [← hperm.mem_iff, rowDigests_eq]
    exact List.mem_map.2 ⟨row, hrow, rfl⟩
  rw [rowDigests_eq] at hchunk
  obtain ⟨row', hrow', heq⟩ := List.mem_map.1 hchunk
  obtain ⟨hkey, hvalue⟩ := digests_of_append heq
  obtain ⟨hleftKey, hleftValue⟩ := hashed_row (k := row.1) (v := row.2) hrow
  obtain ⟨hrightKey, hrightValue⟩ := hashed_row (k := row'.1) (v := row'.2) hrow'
  exact ⟨row', hrow',
    ⟨hkey.symm, fun _ hx => h.left (List.mem_cons_of_mem _ (hleftKey hx)),
      fun _ hx => h.right (List.mem_cons_of_mem _ (hrightKey hx))⟩,
    ⟨hvalue.symm, fun _ hx => h.left (List.mem_cons_of_mem _ (hleftValue hx)),
      fun _ hx => h.right (List.mem_cons_of_mem _ (hrightValue hx))⟩⟩

/-- Every field of a message matches the field of that number of the other message. -/
theorem message {l l' : List (Nat × Canon)} (h : Matches H (.message l) (.message l')) :
    ∀ n c, (n, c) ∈ l → ∃ d, (n, d) ∈ l' ∧ Matches H c d := by
  have hpre := (List.cons.inj (h.preimage hH)).2
  have hperm := perm_of_sortedConcat_eq (by decide) length_fieldDigests length_fieldDigests hpre
  intro n c hfield
  have hchunk : (Sha256.digest (intPreimage n)).bytes ++ c.digest.bytes ∈ fieldDigests l' := by
    rw [← hperm.mem_iff, fieldDigests_eq]
    exact List.mem_map.2 ⟨(n, c), hfield, rfl⟩
  rw [fieldDigests_eq] at hchunk
  obtain ⟨⟨k, d⟩, hfield', heq⟩ := List.mem_map.1 hchunk
  obtain ⟨hnumber, hvalue⟩ := digests_of_append heq
  obtain ⟨hn, hc⟩ := hashed_field hfield
  obtain ⟨hk, hd⟩ := hashed_field hfield'
  -- The numbers are told apart by their texts, which are hashed on both sides.
  have hint : (k : Int) = n := intPreimage_inj
    (eq_of_digest_eq hH (h.right (List.mem_cons_of_mem _ hk)) (h.left (List.mem_cons_of_mem _ hn)) hnumber)
  obtain rfl : k = n := by exact_mod_cast hint
  exact ⟨d, hfield', hvalue.symm, fun _ hx => h.left (List.mem_cons_of_mem _ (hc hx)),
    fun _ hx => h.right (List.mem_cons_of_mem _ (hd hx))⟩

end Matches

end Canon

end ApiShape

/-
Accumulating catalogues is grouping by metadata. The nodes with one metadata, those of the first catalogue
before those of the second, are absorbed into the first of them, and the results are stored under their own
addresses. Sorting by metadata decides which cookie names the cap lets in, and leaves the order within a group.
-/
import ApiShape.Proofs.Accumulate.Groups
import ApiShape.Proofs.Schema.Identity
import ApiShape.Proofs.WellFormed.Absorb

namespace ApiShape

/-! ## The order of metadata -/

section

variable {p q r : Position}

theorem Position.le_iff : p.le q = true ↔ p.location.rank < q.location.rank ∨ p.location.rank = q.location.rank ∧
    (p.location.key < q.location.key ∨ p.location.key = q.location.key ∧ p.responseCode.toInt ≤ q.responseCode.toInt) := by
  simp [Position.le]

theorem Position.le_trans (hpq : p.le q = true) (hqr : q.le r = true) : p.le r = true := by
  rw [Position.le_iff] at hpq hqr ⊢
  rcases hpq with hpq | ⟨hpq, hpq'⟩
  · exact .inl (by omega)
  · rcases hqr with hqr | ⟨hqr, hqr'⟩
    · exact .inl (by omega)
    · refine .inr ⟨hpq.trans hqr, ?_⟩
      rcases hpq' with hpq' | ⟨hpq', hcode⟩
      · rcases hqr' with hqr' | ⟨hqr', -⟩
        · exact .inl (String.lt_trans hpq' hqr')
        · exact .inl (hqr' ▸ hpq')
      · rcases hqr' with hqr' | ⟨hqr', hcode'⟩
        · exact .inl (hpq' ▸ hqr')
        · exact .inr ⟨hpq'.trans hqr', by omega⟩

theorem Position.le_total (p q : Position) : p.le q = true ∨ q.le p = true := by
  rw [Position.le_iff, Position.le_iff]
  rcases Nat.lt_trichotomy p.location.rank q.location.rank with hrank | hrank | hrank
  · exact .inl (.inl hrank)
  · by_cases hlt : p.location.key < q.location.key
    · exact .inl (.inr ⟨hrank, .inl hlt⟩)
    · by_cases hgt : q.location.key < p.location.key
      · exact .inr (.inr ⟨hrank.symm, .inl hgt⟩)
      · have hkey : p.location.key = q.location.key := String.le_antisymm (String.not_lt.1 hgt) (String.not_lt.1 hlt)
        rcases Int.le_total p.responseCode.toInt q.responseCode.toInt with hcode | hcode
        · exact .inl (.inr ⟨hrank, .inr ⟨hkey, hcode⟩⟩)
        · exact .inr (.inr ⟨hrank.symm, .inr ⟨hkey.symm, hcode⟩⟩)
  · exact .inr (.inl hrank)

theorem Metadata.le_trans (l m n : Metadata) (hlm : l.le m = true) (hmn : m.le n = true) : l.le n = true := by
  unfold Metadata.le at *
  cases hl : l.http <;> cases hm : m.http <;> cases hn : n.http <;> simp_all
  exact Position.le_trans hlm hmn

theorem Metadata.le_total (m n : Metadata) : (m.le n || n.le m) = true := by
  unfold Metadata.le
  cases m.http <;> cases n.http <;> simp [Position.le_total]

theorem Metadata.le_refl (m : Metadata) : m.le m = true := by
  simpa using m.le_total m

end

/-- Sorting keeps the order of members that all compare as equal. -/
theorem filter_mergeSort {α : Type} {le : α → α → Bool} (htrans : ∀ a b c, le a b = true → le b c = true → le a c = true)
    (htotal : ∀ a b, (le a b || le b a) = true) {l : List α} {p : α → Bool}
    (hp : (l.filter p).Pairwise (fun a b => le a b = true)) : (l.mergeSort le).filter p = l.filter p := by
  have hsub := (List.sublist_mergeSort htrans htotal hp List.filter_sublist).filter p
  rw [List.filter_filter] at hsub
  simp only [Bool.and_self] at hsub
  exact (hsub.eq_of_length ((List.mergeSort_perm l le).filter p).length_eq.symm).symm

/-! ## Groups of catalogues -/

/-- The name of the cookie that a node was observed as. -/
def Schema.cookie? (s : Schema) : Option String := s.metadata.bind Metadata.cookie?

/-- The metadata of what is observed at some place of a request. -/
def Location.metadata (location : Location) : Metadata := { http := some { location := location } }

/-- A primitive that was observed at some place of a request. -/
def Schema.observed (location : Location) (t : BaseType) : Schema :=
  { Schema.ofType t with metadata := some location.metadata }

namespace Catalogue

/-- The metadata of the nodes, in order. -/
def metadata (c : Catalogue) : List Metadata := ((Table.values c).filterMap Schema.metadata).mergeSort Metadata.le

/-- The cookie names held, each once. -/
def cookies (c : Catalogue) : List String := Metadata.cookieNames c.metadata

/-- The cookie names that are let in when one catalogue is accumulated into another. -/
def admittedCookies (limits : Limits) (dst src : Catalogue) : List String :=
  (Metadata.cookieNames (dst.metadata ++ src.metadata)).take limits.maxCookies

/-- The nodes of both catalogues with the given metadata, those of the first one first. -/
def group (m : Metadata) (dst src : Catalogue) : List Schema :=
  (Table.values dst ++ Table.values src).filter (fun s => s.metadata = some m)

/-- Metadata that is accumulated: it occurs, and if it is that of a cookie, the name of the cookie is let in. -/
structure Recorded (limits : Limits) (dst src : Catalogue) (m : Metadata) : Prop where
  occurs : ∃ s ∈ Table.values dst ++ Table.values src, s.metadata = some m
  allowed : ∀ name, m.cookie? = some name → name ∈ admittedCookies limits dst src

/-- The metadata that occurs has addresses of its own. -/
def Separated (dst src : Catalogue) : Prop :=
  ∀ m ∈ dst.metadata ++ src.metadata, ∀ n ∈ dst.metadata ++ src.metadata, m.address = n.address → m = n

/-- Addresses tell different metadata apart: those of the metadata, and those of what becomes of the groups. -/
structure Distinguished (limits : Limits) (dst src : Catalogue) : Prop where
  metadata : Separated dst src
  nodes : ∀ m n s t, Recorded limits dst src m → Recorded limits dst src n →
    absorbAll limits (group m dst src) = .ok (some s) → absorbAll limits (group n dst src) = .ok (some t) →
      s.address = t.address → s.metadata = t.metadata

/-- What accumulating leaves: for each metadata one node, its group absorbed into the first of it. -/
structure GroupedFrom (limits : Limits) (dst src c : Catalogue) : Prop where
  fresh : c.Fresh
  entry : ∀ m, Recorded limits dst src m → ∃ s, absorbAll limits (group m dst src) = .ok (some s) ∧ s.metadata = some m ∧
    (s.address, s) ∈ c ∧ ∀ row ∈ c, row.2.metadata = some m → row = (s.address, s)
  only : ∀ row ∈ c, ∃ m, Recorded limits dst src m ∧ row.2.metadata = some m

section

variable {limits : Limits} {c dst src : Catalogue} {m : Metadata} {f : Fault}

theorem mem_metadata : m ∈ c.metadata ↔ ∃ s ∈ Table.values c, s.metadata = some m := by
  rw [metadata, List.mem_mergeSort, List.mem_filterMap]

theorem mem_metadata_append :
    m ∈ dst.metadata ++ src.metadata ↔ ∃ s ∈ Table.values dst ++ Table.values src, s.metadata = some m := by
  rw [List.mem_append, mem_metadata, mem_metadata]
  constructor
  · rintro (⟨s, hs, hm⟩ | ⟨s, hs, hm⟩)
    · exact ⟨s, List.mem_append_left _ hs, hm⟩
    · exact ⟨s, List.mem_append_right _ hs, hm⟩
  · rintro ⟨s, hs, hm⟩
    exact (List.mem_append.1 hs).imp (fun hs => ⟨s, hs, hm⟩) fun hs => ⟨s, hs, hm⟩

/-- Addresses tell metadata apart unless two of the byte strings hashed for them collide. -/
theorem distinguished_of_not_collides {H : List Bytes} (hH : ¬Sha256.Collides H)
    (hmetadata : ∀ m ∈ dst.metadata ++ src.metadata, m.canon.hashed ⊆ H)
    (hnodes : ∀ m s, absorbAll limits (group m dst src) = .ok (some s) → s.canon.hashed ⊆ H) :
    Distinguished limits dst src where
  metadata m hm n hn h := Metadata.eq_of_matches hH ⟨Digest.hex_inj h, hmetadata m hm, hmetadata n hn⟩
  nodes m n s t _ _ hs ht h := by
    unfold Schema.address at h
    exact (Schema.matches_form hH ⟨Digest.hex_inj h, hnodes m s hs, hnodes n t ht⟩).2.2

/-! ### Entries with their metadata -/

theorem metadata_of_placed? {s : Schema} (h : s.placed? = some m) : s.metadata = some m := by
  unfold Schema.placed? at h
  split at h
  · rename_i n hn
    split at h
    · cases h
      exact hn
    · cases h
  · cases h

theorem placed_eq_error (h : c.placed = .error f) :
    ∃ key s, (key, s) ∈ c ∧ s.placed? = none ∧ f = .missingMetadata key := by
  induction c with
  | nil => cases h
  | cons row rest ih =>
    obtain ⟨key, s⟩ := row
    unfold placed at h
    split at h
    · obtain ⟨key', s', hmem, hs', rfl⟩ := ih (map_eq_error.1 h)
      exact ⟨key', s', List.mem_cons_of_mem _ hmem, hs', rfl⟩
    · rename_i hs
      cases h
      exact ⟨key, s, List.mem_cons_self, hs, rfl⟩

/-- The entries in the order in which they are accumulated: their metadata sorted, their groups in key order. -/
theorem byMetadata_eq_ok {entries : List (Metadata × Schema)} (h : c.byMetadata = .ok entries) :
    entries.map (·.1) = c.metadata ∧
      (∀ m, groupOf m entries = (Table.values c).filter (fun s => s.metadata = some m)) ∧
        (entries.map (·.2)).Perm (Table.values c) ∧ ∀ e ∈ entries, e.2.metadata = some e.1 := by
  obtain ⟨l, hl, rfl⟩ := map_eq_ok.1 h
  obtain ⟨hvalues, hplaced⟩ := placed_eq_ok hl
  have hmetadata : ∀ e ∈ l, e.2.metadata = some e.1 := fun e he => metadata_of_placed? (hplaced e he)
  refine ⟨?_, fun m => ?_, ?_, fun e he => hmetadata e (List.mem_mergeSort.1 he)⟩
  · rw [List.map_mergeSort (s := Metadata.le) fun _ _ _ _ => rfl, metadata, ← hvalues, List.filterMap_map,
      ← List.filterMap_eq_map]
    exact congrArg (List.mergeSort · Metadata.le) (List.filterMap_congr fun e he => (hmetadata e he).symm)
  · -- Entries with one metadata are in order already, so that sorting leaves them where they are.
    have hsame : (l.filter (fun e => e.1 = m)).Pairwise (fun a b => a.1.le b.1 = true) := by
      refine List.pairwise_iff_forall_sublist.2 fun {a b} hab => ?_
      have ha : a.1 = m := of_decide_eq_true (List.mem_filter.1 (hab.subset List.mem_cons_self)).2
      have hb : b.1 = m := of_decide_eq_true (List.mem_filter.1 (hab.subset (by simp))).2
      rw [ha, hb]
      exact m.le_refl
    unfold groupOf
    rw [filter_mergeSort (fun a b c : Metadata × Schema => Metadata.le_trans a.1 b.1 c.1)
      (fun a b => Metadata.le_total a.1 b.1) hsame, ← hvalues, List.filter_map]
    congr 1
    refine List.filter_congr fun e he => ?_
    simp [hmetadata e he]
  · rw [← hvalues]
    exact (List.mergeSort_perm l _).map _

/-- Entries are those of both catalogues, in the order in which they are accumulated. -/
structure EntriesOf (dst src : Catalogue) (entries : List (Metadata × Schema)) : Prop where
  keys : entries.map (·.1) = dst.metadata ++ src.metadata
  groups : ∀ m, groupOf m entries = group m dst src
  nodes : (entries.map (·.2)).Perm (Table.values dst ++ Table.values src)
  metadata : ∀ e ∈ entries, e.2.metadata = some e.1

theorem entriesOf_of_byMetadata {dsts srcs : List (Metadata × Schema)} (hd : dst.byMetadata = .ok dsts)
    (hs : src.byMetadata = .ok srcs) : EntriesOf dst src (dsts ++ srcs) := by
  obtain ⟨hdkeys, hdgroup, hdperm, hdmeta⟩ := byMetadata_eq_ok hd
  obtain ⟨hskeys, hsgroup, hsperm, hsmeta⟩ := byMetadata_eq_ok hs
  refine ⟨by rw [List.map_append, hdkeys, hskeys], fun m => ?_, ?_, fun e he => ?_⟩
  · rw [groupOf_append, hdgroup, hsgroup, group, List.filter_append]
  · rw [List.map_append]
    exact hdperm.append hsperm
  · exact (List.mem_append.1 he).elim (hdmeta e) (hsmeta e)

namespace EntriesOf

variable {entries : List (Metadata × Schema)}

theorem letIn_iff (h : EntriesOf dst src entries) : LetIn limits entries m ↔ Recorded limits dst src m := by
  constructor
  · rintro ⟨hoccurs, hallowed⟩
    rw [h.keys] at hoccurs hallowed
    exact ⟨mem_metadata_append.1 hoccurs, Metadata.allowedBy_eq_true.1 hallowed⟩
  · rintro ⟨hoccurs, hallowed⟩
    constructor
    · rw [h.keys]
      exact mem_metadata_append.2 hoccurs
    · rw [h.keys]
      exact Metadata.allowedBy_eq_true.2 hallowed

/-- Distinct addresses of the metadata are all that a run over the entries needs. -/
theorem apart (h : EntriesOf dst src entries) (hsep : Separated dst src) :
    ∀ m ∈ entries.map (·.1), ∀ n ∈ entries.map (·.1), m.address = n.address → m = n := by
  rw [h.keys]
  exact hsep

/-- Each row of an accumulator after all entries is the group of recorded metadata. -/
theorem group_of_row (h : EntriesOf dst src entries) {a : Accumulator} (ha : a.Tracks limits entries)
    {row : String × Schema} (hrow : row ∈ a.entries) :
    ∃ m, Recorded limits dst src m ∧ row.1 = m.address ∧ absorbAll limits (group m dst src) = .ok (some row.2) := by
  obtain ⟨m, hm, haddress⟩ := ha.only row hrow
  obtain ⟨s, hs, hfind⟩ := ha.found m hm
  rw [← haddress, ha.sorted.find?_eq hrow] at hfind
  cases hfind
  exact ⟨m, h.letIn_iff.1 hm, haddress, h.groups m ▸ hs⟩

end EntriesOf

theorem metadata_of_group {s : Schema} (h : absorbAll limits (group m dst src) = .ok (some s)) : s.metadata = some m :=
  metadata_of_absorbAll h fun _ ht => of_decide_eq_true (List.mem_filter.1 ht).2

/-! ### Collecting the results -/

/-- Nodes with addresses of their own are collected as they are. -/
theorem mem_ofList {nodes : List Schema} (h : nodes.Pairwise (fun s t => s.address ≠ t.address)) (row : String × Schema) :
    row ∈ ofList nodes ↔ ∃ s ∈ nodes, row = (s.address, s) := by
  suffices ∀ c : Catalogue, (∀ s ∈ nodes, Table.find? c s.address = none) →
      (row ∈ nodes.foldl insert c ↔ row ∈ c ∨ ∃ s ∈ nodes, row = (s.address, s)) by
    rw [ofList, this [] fun _ _ => rfl]
    simp
  induction nodes with
  | nil => simp
  | cons s rest ih =>
    intro c hc
    obtain ⟨hs, hrest⟩ := List.pairwise_cons.1 h
    have hnone := hc s List.mem_cons_self
    have hinsert : row ∈ insert c s ↔ row ∈ c ∨ row = (s.address, s) := by
      rw [insert_of_new hnone]
      constructor
      · exact fun hrow => (Table.mem_of_mem_insert hrow).symm
      · rintro (hrow | rfl)
        · refine (Table.mem_insert_or_find? s.address s hrow).resolve_right ?_
          rintro ⟨-, hfind⟩
          rw [hnone] at hfind
          cases hfind
        · exact Table.mem_insert_self
    rw [List.foldl_cons, ih hrest, hinsert, or_assoc]
    · simp
    · intro t ht
      rw [insert_of_new hnone, Table.find?_insert, if_neg (hs t ht)]
      exact hc t (List.mem_cons_of_mem _ ht)

/-- What an accumulator holds after all entries, collected under the addresses of the nodes. -/
theorem groupedFrom_of_tracks {entries : List (Metadata × Schema)} {a : Accumulator}
    (hentries : EntriesOf dst src entries) (hdist : Distinguished limits dst src) (ha : a.Tracks limits entries) :
    GroupedFrom limits dst src (ofList (Table.values a.entries)) := by
  -- Two rows with nodes of one address would be groups of one metadata, and so one row.
  have hdistinct : (Table.values a.entries).Pairwise (fun s t => s.address ≠ t.address) := by
    refine List.pairwise_map.2 (List.Pairwise.imp_of_mem (fun {row row'} hmem hmem' hlt heq => ?_) ha.sorted)
    obtain ⟨m, hm, hkey, hs⟩ := hentries.group_of_row ha hmem
    obtain ⟨n, hn, hkey', ht⟩ := hentries.group_of_row ha hmem'
    have hmetadata := hdist.nodes m n row.2 row'.2 hm hn hs ht heq
    rw [metadata_of_group hs, metadata_of_group ht] at hmetadata
    cases hmetadata
    rw [hkey, hkey'] at hlt
    exact String.lt_irrefl _ hlt
  have hmem := mem_ofList hdistinct
  refine ⟨fresh_ofList _, fun m hm => ?_, fun row hin => ?_⟩
  · obtain ⟨s, hs, hfind⟩ := ha.found m (hentries.letIn_iff.2 hm)
    rw [hentries.groups m] at hs
    refine ⟨s, hs, metadata_of_group hs, (hmem _).2 ⟨s, Table.mem_values_of_mem (Table.mem_of_find? hfind), rfl⟩, ?_⟩
    intro row hin hmeta
    obtain ⟨t, ht, rfl⟩ := (hmem row).1 hin
    obtain ⟨key, ht⟩ := Table.mem_values.1 ht
    obtain ⟨n, -, -, hn⟩ := hentries.group_of_row ha ht
    rw [metadata_of_group hn] at hmeta
    cases hmeta
    rw [hs] at hn
    cases hn
    rfl
  · obtain ⟨t, ht, rfl⟩ := (hmem row).1 hin
    obtain ⟨key, ht⟩ := Table.mem_values.1 ht
    obtain ⟨m, hm, -, hs⟩ := hentries.group_of_row ha ht
    exact ⟨m, hm, metadata_of_group hs⟩

/-! ### Accumulating -/

theorem byMetadata_eq_error (h : c.byMetadata = .error f) :
    ∃ key, f = .missingMetadata key ∧ ∃ s ∈ Table.values c, s.placed? = none := by
  obtain ⟨key, s, hmem, hs, rfl⟩ := placed_eq_error (map_eq_error.1 h)
  exact ⟨key, rfl, s, Table.mem_values_of_mem hmem, hs⟩

theorem placed_of_byMetadata {entries : List (Metadata × Schema)} (h : c.byMetadata = .ok entries) :
    ∀ s ∈ Table.values c, s.placed? ≠ none := by
  obtain ⟨l, hl, -⟩ := map_eq_ok.1 h
  obtain ⟨hvalues, hplaced⟩ := placed_eq_ok hl
  intro s hs hnone
  rw [← hvalues] at hs
  obtain ⟨e, he, rfl⟩ := List.mem_map.1 hs
  rw [hplaced e he] at hnone
  cases hnone

/-- Accumulating reports missing metadata by itself, without a field, when some node has no position. -/
theorem accumulate_missing_iff : (∃ key, accumulate limits dst src = .error (.missingMetadata key)) ↔
    ∃ s ∈ Table.values dst ++ Table.values src, s.placed? = none := by
  constructor
  · rintro ⟨key, h⟩
    rcases bind_eq_error.1 h with h | ⟨dsts, -, h⟩
    · obtain ⟨-, -, s, hs, hnone⟩ := byMetadata_eq_error h
      exact ⟨s, List.mem_append_left _ hs, hnone⟩
    · rcases bind_eq_error.1 h with h | ⟨srcs, -, h⟩
      · obtain ⟨-, -, s, hs, hnone⟩ := byMetadata_eq_error h
        exact ⟨s, List.mem_append_right _ hs, hnone⟩
      · rcases bind_eq_error.1 h with h | ⟨acc, -, h⟩
        · -- a fault of absorbing is wrapped in the field it came from
          obtain ⟨_, ⟨m, s⟩, _, a, -, -, hadd⟩ := foldlM_eq_error h
          obtain ⟨_, _, -, -, hwrapped⟩ := Accumulator.add_eq_error hadd
          cases hwrapped
        · cases h
  · rintro ⟨s, hs, hnone⟩
    cases hd : dst.byMetadata with
    | error f =>
      obtain ⟨key, rfl, -⟩ := byMetadata_eq_error hd
      exact ⟨key, by rw [accumulate, hd]; rfl⟩
    | ok dsts =>
      cases hsrc : src.byMetadata with
      | error f =>
        obtain ⟨key, rfl, -⟩ := byMetadata_eq_error hsrc
        exact ⟨key, by rw [accumulate, hd, hsrc]; rfl⟩
      | ok srcs =>
        rcases List.mem_append.1 hs with hs | hs
        · exact absurd hnone (placed_of_byMetadata hd s hs)
        · exact absurd hnone (placed_of_byMetadata hsrc s hs)

/-- With a position for every node, accumulating fails exactly when one group cannot be absorbed. -/
theorem accumulate_fails_iff (hplaced : ∀ s ∈ Table.values dst ++ Table.values src, s.placed? ≠ none)
    (hdist : Distinguished limits dst src) : (∃ f, accumulate limits dst src = .error f) ↔
      ∃ m, Recorded limits dst src m ∧ ∃ f, absorbAll limits (group m dst src) = .error f := by
  have hok : ∀ {c : Catalogue}, (∀ s ∈ Table.values c, s.placed? ≠ none) → ∃ entries, c.byMetadata = .ok entries := by
    intro c hc
    cases h : c.byMetadata with
    | ok entries => exact ⟨entries, rfl⟩
    | error f =>
      obtain ⟨-, -, s, hs, hnone⟩ := byMetadata_eq_error h
      exact absurd hnone (hc s hs)
  obtain ⟨dsts, hd⟩ := hok fun s hs => hplaced s (List.mem_append_left _ hs)
  obtain ⟨srcs, hs⟩ := hok fun s hs => hplaced s (List.mem_append_right _ hs)
  have hentries := entriesOf_of_byMetadata hd hs
  have hrun : accumulate limits dst src = ((dsts ++ srcs).foldlM (Accumulator.add limits) {}).map
      (fun acc => (ofList (Table.values acc.entries), acc.discarded)) := by
    rw [accumulate, hd, hs]
    rfl
  simp only [hrun, map_eq_error]
  rw [run_fails_iff (hentries.apart hdist.metadata)]
  exact exists_congr fun m => by rw [hentries.letIn_iff, hentries.groups]

/-- What accumulating leaves is what an accumulator holds after the entries of both catalogues. -/
theorem tracks_of_accumulate {discarded : Nat} (hsep : Separated dst src)
    (h : accumulate limits dst src = .ok (c, discarded)) :
    ∃ entries, EntriesOf dst src entries ∧ ∃ a : Accumulator, a.Tracks limits entries ∧
      c = ofList (Table.values a.entries) ∧ discarded = a.discarded := by
  obtain ⟨dsts, srcs, a, hd, hs, ha, hc, hdiscarded⟩ := accumulate_eq_ok h
  have hentries := entriesOf_of_byMetadata hd hs
  exact ⟨dsts ++ srcs, hentries, a, tracks_of_run (hentries.apart hsep) ha, hc, hdiscarded⟩

/-- Nodes that collide may lose one another, but whatever is left has metadata that was recorded. -/
theorem recorded_of_accumulate {discarded : Nat} (hsep : Separated dst src)
    (h : accumulate limits dst src = .ok (c, discarded)) :
    ∀ s ∈ Table.values c, ∃ m, Recorded limits dst src m ∧ s.metadata = some m := by
  obtain ⟨entries, hentries, a, ha, rfl, -⟩ := tracks_of_accumulate hsep h
  apply ofList_values
  · rintro s e ⟨m, hm, hmeta⟩
    exact ⟨m, hm, hmeta⟩
  · intro s hs
    obtain ⟨key, hrow⟩ := Table.mem_values.1 hs
    obtain ⟨m, hm, -, hgroup⟩ := hentries.group_of_row ha hrow
    exact ⟨m, hm, metadata_of_group hgroup⟩

theorem groupedFrom_of_accumulate {discarded : Nat} (hdist : Distinguished limits dst src)
    (h : accumulate limits dst src = .ok (c, discarded)) : GroupedFrom limits dst src c := by
  obtain ⟨entries, hentries, a, ha, rfl, -⟩ := tracks_of_accumulate hdist.metadata h
  exact groupedFrom_of_tracks hentries hdist ha

/--
Accumulating is grouping by metadata. It reports missing metadata exactly when a node has none; otherwise it fails
exactly when absorbing the nodes of one of the recorded groups into the first of them fails, and what it leaves is
exactly one node for each recorded metadata: its group absorbed, with that metadata, under its own address.
-/
theorem accumulate_by_metadata (hdist : Distinguished limits dst src) :
    ((∃ key, accumulate limits dst src = .error (.missingMetadata key)) ↔
      ∃ s ∈ Table.values dst ++ Table.values src, s.placed? = none) ∧
    ((∀ s ∈ Table.values dst ++ Table.values src, s.placed? ≠ none) →
      ((∃ f, accumulate limits dst src = .error f) ↔
        ∃ m, Recorded limits dst src m ∧ ∃ f, absorbAll limits (group m dst src) = .error f) ∧
      ∀ c discarded, accumulate limits dst src = .ok (c, discarded) → GroupedFrom limits dst src c) :=
  ⟨accumulate_missing_iff, fun hplaced => ⟨accumulate_fails_iff hplaced hdist,
    fun _ _ h => groupedFrom_of_accumulate hdist h⟩⟩

/-- Groups of one metadata give one node, so that only those of different metadata can be confused. -/
theorem Distinguished.of_ne (hsep : Separated dst src) (h : ∀ m n s t, Recorded limits dst src m → Recorded limits dst src n →
    absorbAll limits (group m dst src) = .ok (some s) → absorbAll limits (group n dst src) = .ok (some t) → m ≠ n →
      s.address ≠ t.address) : Distinguished limits dst src where
  metadata := hsep
  nodes m n s t hm hn hs ht haddress := by
    obtain rfl : m = n := Classical.byContradiction fun hne => h m n s t hm hn hs ht hne haddress
    rw [metadata_of_group hs, metadata_of_group ht]

end

/-! ### Two headers -/

/-- A catalogue with a primitive that was observed at some place. -/
def observation (location : Location) (t : BaseType) : Catalogue :=
  [((Schema.observed location t).address, Schema.observed location t)]

theorem canon_observed (location : Location) (t : BaseType) : (Schema.observed location t).canon =
    .message [(1, (Primitive.ofType t).canon), (6, location.metadata.canon)] := rfl

theorem address_host : (Schema.observed (.header "host") .string).address =
    "84e461129575e360a691b12614b961b62f4e8488fc11b1a5b208a8847ae0f7f3" := by
  unfold Schema.address Canon.digest
  rw [canon_observed]
  simp only [Canon.preimage, Canon.fieldDigests, sortedConcat_eq_insertionSort]
  decide +kernel

theorem address_accept : (Schema.observed (.header "accept") .int64).address =
    "c0c8268812ae346e9a01f0164f301d5b45df1c405a8943bf31107b45f659510d" := by
  unfold Schema.address Canon.digest
  rw [canon_observed]
  simp only [Canon.preimage, Canon.fieldDigests, sortedConcat_eq_insertionSort]
  decide +kernel

/-- Two headers, with a number and with a text. -/
def headers : Catalogue :=
  [("84e461129575e360a691b12614b961b62f4e8488fc11b1a5b208a8847ae0f7f3", Schema.observed (.header "host") .string),
    ("c0c8268812ae346e9a01f0164f301d5b45df1c405a8943bf31107b45f659510d", Schema.observed (.header "accept") .int64)]

theorem fresh_headers : headers.Fresh := by
  refine ⟨by unfold Table.Sorted; decide, ?_⟩
  simp only [headers, List.mem_cons, List.not_mem_nil, or_false, forall_eq_or_imp, forall_eq]
  exact ⟨address_host.symm, address_accept.symm⟩

/-- The header that was a number and a text. -/
def eitherAccept : Schema :=
  (Schema.observed (.header "accept") .int64).conflict (Schema.ofType .string)

theorem address_eitherAccept : eitherAccept.address =
    "cb63713ec6a5ddeb1fce08da0b3ad7c2b7b568934cc8b53fb77a9f2851dabcf0" := by
  have hform : eitherAccept.form = .oneOf [((Schema.ofType .int64).address, Schema.ofType .int64),
      ((Schema.ofType .string).address, Schema.ofType .string)] true :=
    congrArg Schema.form (conflict_ofType (t := .int64) (u := .string) (by rw [address_int64, address_string]; decide))
  have hcanon : eitherAccept.canon = .message [(5, .message [(1, .set [(Schema.ofType .int64).canon,
      (Schema.ofType .string).canon]), (2, .bool true)]), (6, (Location.header "accept").metadata.canon)] := by
    show Canon.message [eitherAccept.form.canonField, _] = _
    rw [hform]
    rfl
  unfold Schema.address Canon.digest
  rw [hcanon]
  simp only [Canon.preimage, Canon.fieldDigests, Canon.itemDigests, sortedConcat_eq_insertionSort]
  decide +kernel

theorem mem_metadata_headers {m : Metadata}
    (hm : m ∈ headers.metadata ++ (observation (.header "accept") .string).metadata) :
    m = (Location.header "host").metadata ∨ m = (Location.header "accept").metadata := by
  obtain ⟨s, hs, hmeta⟩ := mem_metadata_append.1 hm
  simp only [headers, observation, Table.values, List.map_cons, List.map_nil, List.cons_append, List.nil_append,
    List.mem_cons, List.not_mem_nil, or_false] at hs
  rcases hs with rfl | rfl | rfl
  · exact .inl (Option.some.inj hmeta).symm
  · exact .inr (Option.some.inj hmeta).symm
  · exact .inr (Option.some.inj hmeta).symm

theorem absorbAll_host : absorbAll {} (group (Location.header "host").metadata headers
    (observation (.header "accept") .string)) = .ok (some (Schema.observed (.header "host") .string)) := rfl

theorem absorbAll_accept : absorbAll {} (group (Location.header "accept").metadata headers
    (observation (.header "accept") .string)) = .ok (some eitherAccept) := rfl

/-- The addresses are computed and compared; nodes of one group have to be told apart only when they differ. -/
theorem distinguished_headers : Distinguished {} headers (observation (.header "accept") .string) := by
  have hmetadata : (Location.header "host").metadata.address ≠ (Location.header "accept").metadata.address := by
    decide +kernel
  have hnodes : (Schema.observed (.header "host") .string).address ≠ eitherAccept.address := by
    rw [address_host, address_eitherAccept]
    decide
  refine .of_ne (fun m hm n hn heq => ?_) fun m n s t hm hn hs ht hne => ?_
  · rcases mem_metadata_headers hm with rfl | rfl <;> rcases mem_metadata_headers hn with rfl | rfl
    · rfl
    · exact absurd heq hmetadata
    · exact absurd heq.symm hmetadata
    · rfl
  · rcases mem_metadata_headers (mem_metadata_append.2 hm.occurs) with rfl | rfl <;>
      rcases mem_metadata_headers (mem_metadata_append.2 hn.occurs) with rfl | rfl
    · exact absurd rfl hne
    · cases absorbAll_host.symm.trans hs
      cases absorbAll_accept.symm.trans ht
      exact hnodes
    · cases absorbAll_accept.symm.trans hs
      cases absorbAll_host.symm.trans ht
      exact hnodes.symm
    · exact absurd rfl hne

/-- A header that was a number and then is a text stays one entry, beside the entry of another header. -/
theorem accumulate_by_metadata_accept : headers.Fresh ∧ ∃ c discarded,
    accumulate {} headers (observation (.header "accept") .string) = .ok (c, discarded) ∧
      ∀ row, row ∈ c ↔ row = ((Schema.observed (.header "host") .string).address, Schema.observed (.header "host") .string) ∨
        row = (eitherAccept.address, eitherAccept) := by
  obtain ⟨-, hrest⟩ := accumulate_by_metadata distinguished_headers
  have hplaced : ∀ s ∈ Table.values headers ++ Table.values (observation (.header "accept") .string), s.placed? ≠ none := by
    simp [headers, observation, Table.values, Schema.placed?, Schema.observed, Location.metadata]
  obtain ⟨hfails, hok⟩ := hrest hplaced
  refine ⟨fresh_headers, ?_⟩
  cases h : accumulate {} headers (observation (.header "accept") .string) with
  | error f =>
    obtain ⟨m, hm, f, hf⟩ := hfails.1 ⟨f, h⟩
    rcases mem_metadata_headers (mem_metadata_append.2 hm.occurs) with rfl | rfl
    · cases absorbAll_host.symm.trans hf
    · cases absorbAll_accept.symm.trans hf
  | ok result =>
    obtain ⟨c, discarded⟩ := result
    have hc := hok c discarded h
    have hrecorded : ∀ {m : Metadata}, m.cookie? = none →
        (∃ s ∈ Table.values headers ++ Table.values (observation (.header "accept") .string), s.metadata = some m) →
          Recorded {} headers (observation (.header "accept") .string) m := fun hcookie hoccurs =>
      ⟨hoccurs, fun name hname => by rw [hcookie] at hname; cases hname⟩
    obtain ⟨s, hs, -, hsmem, hsonly⟩ := hc.entry _ (hrecorded rfl ⟨_, List.mem_cons_self, rfl⟩)
    obtain ⟨t, ht, -, htmem, htonly⟩ := hc.entry _ (hrecorded rfl ⟨_, List.mem_cons_of_mem _ List.mem_cons_self, rfl⟩)
    cases absorbAll_host.symm.trans hs
    cases absorbAll_accept.symm.trans ht
    refine ⟨c, discarded, rfl, fun row => ⟨fun hrow => ?_, ?_⟩⟩
    · obtain ⟨m, hm, hmeta⟩ := hc.only row hrow
      rcases mem_metadata_headers (mem_metadata_append.2 hm.occurs) with rfl | rfl
      · exact .inl (hsonly row hrow hmeta)
      · exact .inr (htonly row hrow hmeta)
    · rintro (rfl | rfl)
      · exact hsmem
      · exact htmem

end Catalogue

end ApiShape

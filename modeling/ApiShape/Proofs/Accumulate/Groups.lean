/-
What an accumulator holds after some of the entries, by metadata (`Accumulator.Tracks`): for each metadata that
was let in, the entries with it absorbed into the first of them, and nothing else. One more entry keeps this,
so that a whole run fails exactly when one of the groups does.
-/
import ApiShape.Proofs.Absorb.Metadata
import ApiShape.Proofs.Accumulate.Basic
import ApiShape.Proofs.Accumulate.Cookies

namespace ApiShape

/-! ## Groups -/

/-- Absorbs nodes into the first of them. -/
def absorbAll (limits : Limits) : List Schema → Except Fault (Option Schema)
  | [] => .ok none
  | first :: rest => (rest.foldlM (absorb limits) first).map some

section

variable {limits : Limits} {l : List Schema} {r : Schema} {f : Fault}

theorem absorbAll_cons (limits : Limits) (first : Schema) (rest : List Schema) :
    absorbAll limits (first :: rest) = (rest.foldlM (absorb limits) first).map some := rfl

theorem absorbAll_snoc (h : absorbAll limits l = .ok (some r)) (s : Schema) :
    absorbAll limits (l ++ [s]) = (absorb limits r s).map some := by
  cases l with
  | nil => cases h
  | cons first rest =>
    obtain ⟨_, hr, ⟨⟩⟩ := map_eq_ok.1 h
    rw [List.cons_append, absorbAll_cons, List.foldlM_append, hr]
    cases hs : absorb limits r s <;> simp [bind, Except.bind, hs, pure, Except.pure]

theorem absorbAll_append_of_error (h : absorbAll limits l = .error f) (l' : List Schema) :
    absorbAll limits (l ++ l') = .error f := by
  cases l with
  | nil => cases h
  | cons first rest =>
    have hrest := map_eq_error.1 h
    rw [List.cons_append, absorbAll_cons, List.foldlM_append, hrest]
    rfl

theorem metadata_of_absorbAll {o : Option Metadata} (h : absorbAll limits l = .ok (some r)) (hl : ∀ s ∈ l, s.metadata = o) :
    r.metadata = o := by
  cases l with
  | nil => cases h
  | cons first rest =>
    obtain ⟨_, hr, ⟨⟩⟩ := map_eq_ok.1 h
    exact (foldlM_absorb_metadata hr).trans (hl first List.mem_cons_self)

end

/-- The nodes among some entries that have the given metadata, in order. -/
def groupOf (m : Metadata) (entries : List (Metadata × Schema)) : List Schema :=
  (entries.filter (fun e => e.1 = m)).map (·.2)

section

variable {m n : Metadata} {s : Schema} {entries : List (Metadata × Schema)}

theorem groupOf_append (m : Metadata) (entries entries' : List (Metadata × Schema)) :
    groupOf m (entries ++ entries') = groupOf m entries ++ groupOf m entries' := by
  unfold groupOf
  rw [List.filter_append, List.map_append]

theorem groupOf_snoc_self (m : Metadata) (s : Schema) (entries : List (Metadata × Schema)) :
    groupOf m (entries ++ [(m, s)]) = groupOf m entries ++ [s] := by
  rw [groupOf_append]
  simp [groupOf]

theorem groupOf_snoc_of_ne (h : n ≠ m) : groupOf n (entries ++ [(m, s)]) = groupOf n entries := by
  rw [groupOf_append]
  simp [groupOf, Ne.symm h]

theorem groupOf_eq_nil (h : m ∉ entries.map (·.1)) : groupOf m entries = [] := by
  unfold groupOf
  rw [List.map_eq_nil_iff, List.filter_eq_nil_iff]
  intro e he heq
  exact h (List.mem_map.2 ⟨e, he, of_decide_eq_true heq⟩)

end

/-! ## Accumulators and groups -/

/-- Metadata among some entries that the cap lets in. -/
structure LetIn (limits : Limits) (entries : List (Metadata × Schema)) (m : Metadata) : Prop where
  occurs : m ∈ entries.map (·.1)
  allowed : m.allowedBy (Metadata.admitted limits.maxCookies (entries.map (·.1))) = true

/-- What an accumulator holds after the given entries. -/
structure Accumulator.Tracks (limits : Limits) (done : List (Metadata × Schema)) (a : Accumulator) : Prop where
  admits : a.Admits limits (done.map (·.1))
  sorted : Table.Sorted a.entries
  found : ∀ m, LetIn limits done m →
    ∃ s, absorbAll limits (groupOf m done) = .ok (some s) ∧ Table.find? a.entries m.address = some s
  only : ∀ row ∈ a.entries, ∃ m, LetIn limits done m ∧ row.1 = m.address
  discarded : a.discarded =
    done.countP (fun e => !e.1.allowedBy (Metadata.admitted limits.maxCookies (done.map (·.1))))

section

variable {limits : Limits} {done rest : List (Metadata × Schema)} {a a' : Accumulator} {m n : Metadata} {s : Schema}
  {f : Fault}

/-- Entries that come later change nothing for the metadata seen so far. -/
theorem letIn_append (h : m ∈ done.map (·.1)) : LetIn limits (done ++ rest) m ↔ LetIn limits done m := by
  have hallowed : m.allowedBy (Metadata.admitted limits.maxCookies (done.map (·.1) ++ rest.map (·.1))) =
      m.allowedBy (Metadata.admitted limits.maxCookies (done.map (·.1))) := Metadata.allowedBy_append h
  constructor
  · rintro ⟨-, hm⟩
    rw [List.map_append, hallowed] at hm
    exact ⟨h, hm⟩
  · rintro ⟨-, hm⟩
    rw [← hallowed, ← List.map_append] at hm
    exact ⟨by simp [h], hm⟩

theorem LetIn.of_snoc (h : LetIn limits (done ++ [(m, s)]) n) (hne : n ≠ m) : LetIn limits done n := by
  have hoccurs := h.occurs
  rw [List.map_append, List.mem_append] at hoccurs
  rcases hoccurs with hoccurs | hoccurs
  · exact (letIn_append hoccurs).1 h
  · exact absurd (List.mem_singleton.1 hoccurs) hne

theorem LetIn.snoc (h : LetIn limits done n) : LetIn limits (done ++ [(m, s)]) n := (letIn_append h.occurs).2 h

/-- The number of entries that are not let in, after one more of them. -/
theorem countP_snoc (done : List (Metadata × Schema)) (m : Metadata) (s : Schema) :
    (done ++ [(m, s)]).countP
        (fun e => !e.1.allowedBy (Metadata.admitted limits.maxCookies ((done ++ [(m, s)]).map (·.1)))) =
      done.countP (fun e => !e.1.allowedBy (Metadata.admitted limits.maxCookies (done.map (·.1)))) +
        if m.allowedBy (Metadata.admitted limits.maxCookies ((done ++ [(m, s)]).map (·.1))) then 0 else 1 := by
  rw [List.countP_append]
  congr 1
  · refine List.countP_congr fun e he => ?_
    rw [List.map_append, Metadata.allowedBy_append (List.mem_map.2 ⟨e, he, rfl⟩)]
  · rw [List.countP_singleton]
    cases m.allowedBy (Metadata.admitted limits.maxCookies ((done ++ [(m, s)]).map (·.1))) <;> rfl

namespace Accumulator.Tracks

/-- An entry is found only when its metadata was let in, and is found with its group. -/
theorem letIn_of_find? (h : Tracks limits done a) (hinj : ∀ n ∈ done.map (·.1), n.address = m.address → n = m)
    {stored : Schema} (hstored : Table.find? a.entries m.address = some stored) :
    LetIn limits done m ∧ absorbAll limits (groupOf m done) = .ok (some stored) := by
  obtain ⟨n, hn, haddress⟩ := h.only _ (Table.mem_of_find? hstored)
  obtain rfl := hinj n hn.occurs haddress.symm
  obtain ⟨s, hs, hfind⟩ := h.found n hn
  cases hfind.symm.trans hstored
  exact ⟨hn, hs⟩

/-- One more entry is absorbed into its group, begins one, or is left out; the other groups stay. -/
theorem add (h : Tracks limits done a) (hinj : ∀ n ∈ done.map (·.1), n.address = m.address → n = m)
    (ha : Added limits a m s a') : Tracks limits (done ++ [(m, s)]) a' := by
  have hmap : (done ++ [(m, s)]).map (·.1) = done.map (·.1) ++ [m] := by simp
  -- Metadata other than that of the entry keeps its group and its row.
  have hother : ∀ {t : Schema} {n : Metadata}, LetIn limits (done ++ [(m, s)]) n → n ≠ m →
      ∃ u, absorbAll limits (groupOf n (done ++ [(m, s)])) = .ok (some u) ∧
        Table.find? (Table.insert a.entries m.address t) n.address = some u ∧
          Table.find? a.entries n.address = some u := by
    intro t n hn hne
    have hn := hn.of_snoc hne
    obtain ⟨u, hu, hfind⟩ := h.found n hn
    rw [groupOf_snoc_of_ne hne, Table.find?_insert, if_neg fun heq => hne (hinj n hn.occurs heq.symm)]
    exact ⟨u, hu, hfind, hfind⟩
  have honly : ∀ {t : Schema}, LetIn limits (done ++ [(m, s)]) m → ∀ row ∈ Table.insert a.entries m.address t,
      ∃ n, LetIn limits (done ++ [(m, s)]) n ∧ row.1 = n.address := by
    intro t hm row hrow
    rcases Table.mem_of_mem_insert hrow with rfl | hrow
    · exact ⟨m, hm, rfl⟩
    · obtain ⟨n, hn, haddress⟩ := h.only row hrow
      exact ⟨n, hn.snoc, haddress⟩
  cases ha with
  | @merged stored r hstored hr =>
    obtain ⟨hm, hgroup⟩ := h.letIn_of_find? hinj hstored
    have hgroup' : absorbAll limits (groupOf m (done ++ [(m, s)])) = .ok (some r) := by
      rw [groupOf_snoc_self, absorbAll_snoc hgroup, hr]
      rfl
    have hnames : Metadata.cookieNames (done.map (·.1) ++ [m]) = Metadata.cookieNames (done.map (·.1)) :=
      Metadata.cookieNames_snoc_of_mem fun name hname => Metadata.mem_cookieNames.2 ⟨m, hm.occurs, hname⟩
    refine ⟨?_, h.sorted.insert, fun n hn => ?_, honly hm.snoc, ?_⟩
    · unfold Admits Metadata.admitted
      rw [hmap, hnames]
      exact h.admits
    · by_cases hne : n = m
      · subst hne
        exact ⟨r, hgroup', by simp [Table.find?_insert]⟩
      · obtain ⟨u, hu, hfind, -⟩ := hother hn hne
        exact ⟨u, hu, hfind⟩
    · rw [countP_snoc, if_pos hm.snoc.allowed]
      exact h.discarded
  | discarded hnone hfull =>
    obtain ⟨hadmits, hnot⟩ := h.admits.of_isFull hfull
    rw [← hmap] at hadmits hnot
    refine ⟨hadmits, h.sorted, fun n hn => ?_, fun row hrow => ?_, ?_⟩
    · have hne : n ≠ m := by
        rintro rfl
        rw [hn.allowed] at hnot
        cases hnot
      obtain ⟨u, hu, -, hfind⟩ := hother (t := s) hn hne
      exact ⟨u, hu, hfind⟩
    · obtain ⟨n, hn, haddress⟩ := h.only row hrow
      exact ⟨n, hn.snoc, haddress⟩
    · rw [countP_snoc, hnot, ← h.discarded]
      rfl
  | recorded hnone hfull =>
    obtain ⟨hadmits, hallowed⟩ := h.admits.noteCookie hfull
    rw [← hmap] at hadmits hallowed
    have hm : LetIn limits (done ++ [(m, s)]) m := ⟨by simp, hallowed⟩
    -- Metadata that is let in and occurred before would have been found.
    have hnew : m ∉ done.map (·.1) := by
      intro hoccurs
      obtain ⟨u, -, hfind⟩ := h.found m ((letIn_append hoccurs).1 hm)
      rw [hnone] at hfind
      cases hfind
    refine ⟨hadmits, h.sorted.insert, fun n hn => ?_, honly hm, ?_⟩
    · by_cases hne : n = m
      · subst hne
        rw [groupOf_snoc_self, groupOf_eq_nil hnew]
        exact ⟨s, rfl, by simp [Table.find?_insert]⟩
      · obtain ⟨u, hu, hfind, -⟩ := hother hn hne
        exact ⟨u, hu, hfind⟩
    · rw [countP_snoc, if_pos hallowed, ← h.discarded]
      exact discarded_noteCookie a m

theorem empty (limits : Limits) : Tracks limits [] {} where
  admits := by simp [Admits, Metadata.admitted, Metadata.cookieNames]
  sorted := .nil
  found m h := absurd h.occurs List.not_mem_nil
  only := nofun
  discarded := rfl

end Accumulator.Tracks

/-- A run over entries whose metadata have addresses of their own. -/
theorem tracks_of_run {entries : List (Metadata × Schema)}
    (hinj : ∀ m ∈ entries.map (·.1), ∀ n ∈ entries.map (·.1), m.address = n.address → m = n)
    (h : entries.foldlM (Accumulator.add limits) {} = .ok a) : a.Tracks limits entries := by
  suffices ∀ done a, Accumulator.Tracks limits done a →
      (∀ m ∈ (done ++ entries).map (·.1), ∀ n ∈ (done ++ entries).map (·.1), m.address = n.address → m = n) →
        ∀ a', entries.foldlM (Accumulator.add limits) a = .ok a' → a'.Tracks limits (done ++ entries) from
    this [] {} (.empty limits) hinj a h
  clear h hinj
  -- By induction on the entries that are left, with those that were taken beside them.
  induction entries with
  | nil =>
    rintro done a ha - a' ⟨⟩
    rwa [List.append_nil]
  | cons e rest ih =>
    intro done a ha hinj a' h
    rw [List.foldlM_cons] at h
    obtain ⟨mid, hmid, h⟩ := bind_eq_ok.1 h
    have hmid := ha.add (fun n hn => hinj n (by simp [List.mem_map.1 hn]) e.1 (by simp)) (Accumulator.added_of_add hmid)
    rw [List.append_cons] at hinj ⊢
    exact ih _ mid hmid hinj a' h

/-- A run fails exactly when absorbing the nodes of one of the groups does. -/
theorem run_fails_iff {entries : List (Metadata × Schema)}
    (hinj : ∀ m ∈ entries.map (·.1), ∀ n ∈ entries.map (·.1), m.address = n.address → m = n) :
    (∃ f, entries.foldlM (Accumulator.add limits) {} = .error f) ↔
      ∃ m, LetIn limits entries m ∧ ∃ f, absorbAll limits (groupOf m entries) = .error f := by
  constructor
  · rintro ⟨f, h⟩
    obtain ⟨done, ⟨m, s⟩, rest, a, rfl, hdone, hadd⟩ := foldlM_eq_error h
    obtain ⟨stored, g, hstored, hg, -⟩ := Accumulator.add_eq_error hadd
    -- Up to the entry that failed the accumulator has the groups, and the entry met its own group there.
    have htracks := tracks_of_run (fun m hm n hn => hinj m (by simp [List.mem_map.1 hm]) n (by simp [List.mem_map.1 hn])) hdone
    obtain ⟨hm, hgroup⟩ := htracks.letIn_of_find? (fun n hn => hinj n (by simp [List.mem_map.1 hn]) m (by simp)) hstored
    refine ⟨m, (letIn_append hm.occurs).2 hm, g, ?_⟩
    rw [List.append_cons, groupOf_append, groupOf_snoc_self]
    refine absorbAll_append_of_error ?_ _
    rw [absorbAll_snoc hgroup, hg]
    rfl
  · rintro ⟨m, hm, f, hf⟩
    cases h : entries.foldlM (Accumulator.add limits) {} with
    | error g => exact ⟨g, rfl⟩
    | ok a =>
      obtain ⟨s, hs, -⟩ := (tracks_of_run hinj h).found m hm
      rw [hf] at hs
      cases hs

end

end ApiShape

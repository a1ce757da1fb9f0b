/-
The cap on cookie names: which names a catalogue holds after accumulating another, how many entries are
discarded, and that a catalogue that starts out empty never holds more names than the cap, nor loses one.
That no name is too many rests on the addresses of metadata alone; that none is missing also on those of nodes,
since a node that collides with another one is not stored.
-/
import ApiShape.Proofs.Accumulate.Catalogue
import Mathlib.Data.List.Perm.Basic

namespace ApiShape

namespace Catalogue

section

variable {limits : Limits} {c d dst src : Catalogue} {discarded : Nat} {m : Metadata} {name : String}

theorem cookies_nil : cookies [] = [] := by
  simp [cookies, metadata, Metadata.cookieNames, Table.values]

theorem mem_cookies : name ∈ c.cookies ↔ ∃ m ∈ c.metadata, m.cookie? = some name := Metadata.mem_cookieNames

/-! ## One accumulation -/

theorem GroupedFrom.metadata (h : GroupedFrom limits dst src c) : m ∈ c.metadata ↔ Recorded limits dst src m := by
  rw [mem_metadata]
  constructor
  · rintro ⟨s, hs, hm⟩
    obtain ⟨key, hrow⟩ := Table.mem_values.1 hs
    obtain ⟨n, hn, hmeta⟩ := h.only _ hrow
    cases hm.symm.trans hmeta
    exact hn
  · intro hm
    obtain ⟨s, -, hmeta, hmem, -⟩ := h.entry m hm
    exact ⟨s, Table.mem_values_of_mem hmem, hmeta⟩

/-- No name is held that was not let in. -/
theorem admitted_of_accumulate (hsep : Separated dst src) (h : accumulate limits dst src = .ok (c, discarded))
    (hname : name ∈ c.cookies) : name ∈ admittedCookies limits dst src := by
  obtain ⟨m, hm, hcookie⟩ := mem_cookies.1 hname
  obtain ⟨s, hs, hmeta⟩ := mem_metadata.1 hm
  obtain ⟨n, hn, hmeta'⟩ := recorded_of_accumulate hsep h s hs
  cases hmeta.symm.trans hmeta'
  exact hn.allowed name hcookie

/-- The names that are held are those that were let in. -/
theorem GroupedFrom.cookies (h : GroupedFrom limits dst src c) :
    name ∈ c.cookies ↔ name ∈ admittedCookies limits dst src := by
  rw [mem_cookies]
  constructor
  · rintro ⟨m, hm, hname⟩
    exact (h.metadata.1 hm).allowed name hname
  · intro hname
    obtain ⟨m, hm, hcookie⟩ := Metadata.mem_cookieNames.1 (List.mem_of_mem_take hname)
    refine ⟨m, h.metadata.2 ⟨mem_metadata_append.1 hm, fun other hother => ?_⟩, hcookie⟩
    cases hcookie.symm.trans hother
    exact hname

theorem not_allowedBy (names : List String) (m : Metadata) :
    (!m.allowedBy names) = m.cookie?.any (fun name => name ∉ names) := by
  unfold Metadata.allowedBy
  cases m.cookie? with
  | none => rfl
  | some name => simp

/-- The entries that are discarded are those of the cookies that were not let in, on both sides. -/
theorem discarded_of_accumulate (hsep : Separated dst src) (h : accumulate limits dst src = .ok (c, discarded)) :
    discarded = (Table.values dst ++ Table.values src).countP
      (fun s => s.cookie?.any (fun name => name ∉ admittedCookies limits dst src)) := by
  obtain ⟨entries, hentries, a, ha, -, rfl⟩ := tracks_of_accumulate hsep h
  rw [ha.discarded, hentries.keys, ← hentries.nodes.countP_eq, List.countP_map]
  refine List.countP_congr fun e he => ?_
  rw [not_allowedBy, Function.comp_apply, Schema.cookie?, hentries.metadata e he]
  rfl

/-! ## A run from the empty catalogue -/

/-- What becomes of a catalogue when others are accumulated into it one after the other, each time under a condition
on the two; one that cannot be accumulated leaves it as it was. -/
inductive Run (limits : Limits) (apart : Catalogue → Catalogue → Prop) (c : Catalogue) : Catalogue → Prop
  | refl : Run limits apart c c
  | step {d : Catalogue} (src : Catalogue) : Run limits apart c d → apart d src →
      Run limits apart c (committed d ((accumulate limits d src).map (·.1)))

theorem Run.of_ok {apart : Catalogue → Catalogue → Prop} {e : Catalogue} (h : Run limits apart c d) (hd : apart d src)
    (hok : accumulate limits d src = .ok (e, discarded)) : Run limits apart c e := by
  have hrun := Run.step src h hd
  rwa [hok] at hrun

theorem length_cookies_le (h : ∀ name ∈ c.cookies, name ∈ admittedCookies limits dst src) :
    c.cookies.length ≤ limits.maxCookies := by
  have hsub := (List.subperm_of_subset (nodup_eraseDups _) h).length_le
  exact hsub.trans (List.length_take_le _ _)

/-- A step keeps the number of names below the cap. -/
theorem length_cookies_step (hsep : Separated d src) (hcap : d.cookies.length ≤ limits.maxCookies) :
    (committed d ((accumulate limits d src).map (·.1))).cookies.length ≤ limits.maxCookies := by
  cases h : accumulate limits d src with
  | error f => exact hcap
  | ok result => exact length_cookies_le fun name => admitted_of_accumulate hsep h

/-- A step keeps all names when there were not too many before. -/
theorem cookies_step (hdist : Distinguished limits d src) (hcap : d.cookies.length ≤ limits.maxCookies)
    (hname : name ∈ d.cookies) : name ∈ (committed d ((accumulate limits d src).map (·.1))).cookies := by
  cases h : accumulate limits d src with
  | error f => exact hname
  | ok result =>
    -- The names held come first, and there are not more of them than are let in.
    have hall : Metadata.admitted limits.maxCookies d.metadata = d.cookies := List.take_of_length_le hcap
    exact (groupedFrom_of_accumulate hdist h).cookies.2 ((Metadata.mem_admitted_append hname).2 (hall ▸ hname))

theorem Run.length_cookies (h : Run limits Separated c d) (hcap : c.cookies.length ≤ limits.maxCookies) :
    d.cookies.length ≤ limits.maxCookies := by
  induction h with
  | refl => exact hcap
  | step src _ hsep ih => exact length_cookies_step hsep ih

theorem Run.separated (h : Run limits (Distinguished limits) c d) : Run limits Separated c d := by
  induction h with
  | refl => exact .refl
  | step src _ hdist ih => exact .step src ih hdist.metadata

theorem Run.mem_cookies (h : Run limits (Distinguished limits) c d) (hcap : c.cookies.length ≤ limits.maxCookies)
    (hname : name ∈ c.cookies) : name ∈ d.cookies := by
  induction h with
  | refl => exact hname
  | step src hrun hdist ih => exact cookies_step hdist (hrun.separated.length_cookies hcap) ih

end

/--
The cap on cookie names. When metadata has addresses of its own, accumulating leaves none but the first names that
occur, up to the cap, the number it gives is that of the entries of other cookies, and over any run from the empty
catalogue there are never more names than the cap. When nodes have addresses of their own too, it leaves all of these
names, with all metadata of these cookies and all metadata of other places, and a run loses none of them.
-/
theorem cookie_cap (limits : Limits) :
    (∀ (dst src c : Catalogue) (discarded : Nat), accumulate limits dst src = .ok (c, discarded) →
      (Separated dst src →
        (∀ name ∈ c.cookies, name ∈ admittedCookies limits dst src) ∧
        discarded = (Table.values dst ++ Table.values src).countP
          (fun s => s.cookie?.any (fun name => name ∉ admittedCookies limits dst src))) ∧
      (Distinguished limits dst src →
        (∀ name ∈ admittedCookies limits dst src, name ∈ c.cookies) ∧
        ∀ m ∈ dst.metadata ++ src.metadata,
          (∀ name, m.cookie? = some name → name ∈ admittedCookies limits dst src) → m ∈ c.metadata)) ∧
    (∀ c : Catalogue, Run limits Separated [] c → c.cookies.length ≤ limits.maxCookies) ∧
    ∀ c d : Catalogue, Run limits Separated [] c → Run limits (Distinguished limits) c d →
      ∀ name ∈ c.cookies, name ∈ d.cookies := by
  have hlength : ∀ c : Catalogue, Run limits Separated [] c → c.cookies.length ≤ limits.maxCookies := fun c hc =>
    hc.length_cookies (by rw [cookies_nil]; exact Nat.zero_le _)
  refine ⟨fun dst src c discarded h => ⟨fun hsep => ?_, fun hdist => ?_⟩, hlength, fun c d hc hd name => ?_⟩
  · exact ⟨fun name => admitted_of_accumulate hsep h, discarded_of_accumulate hsep h⟩
  · have hgrouped := groupedFrom_of_accumulate hdist h
    refine ⟨fun name => hgrouped.cookies.2, fun m hm hallowed => ?_⟩
    exact hgrouped.metadata.2 ⟨mem_metadata_append.1 hm, hallowed⟩
  · exact hd.mem_cookies (hlength c hc)

/-! ### Two cookies -/

theorem metadata_observation (location : Location) (t : BaseType) : (observation location t).metadata = [location.metadata] := by
  simp [metadata, observation, Table.values, Schema.observed]

theorem byMetadata_nil : byMetadata [] = .ok [] := by
  simp [byMetadata, placed, Except.map]

/-- With room for a cookie, a single node is stored as it is. -/
theorem accumulate_observation {limits : Limits} {location : Location} {t : BaseType} (hcap : 0 < limits.maxCookies) :
    accumulate limits [] (observation location t) = .ok (observation location t, 0) := by
  have hentries : byMetadata (observation location t) = .ok [(location.metadata, Schema.observed location t)] := by
    simp [byMetadata, placed, observation, Schema.placed?, Schema.observed, Location.metadata, Except.map]
  have hroom : Accumulator.isFull limits {} location.metadata = false := by
    rw [← Bool.not_eq_true, Accumulator.isFull_eq_true]
    rintro ⟨_, -, -, hfull⟩
    exact absurd hcap (Nat.not_lt.2 hfull)
  have hstored : ofList [Schema.observed location t] = observation location t := by
    rw [ofList, List.foldl_cons, List.foldl_nil, insert_of_new rfl]
    rfl
  simp [accumulate, byMetadata_nil, hentries, Accumulator.add, hroom, Table.find?, Table.insert, Table.values, hstored,
    bind, Except.bind, pure, Except.pure]

theorem separated_observation (location : Location) (t : BaseType) : Separated [] (observation location t) := by
  have hnil : metadata [] = [] := by simp [metadata, Table.values]
  intro m hm n hn _
  rw [hnil, metadata_observation, List.nil_append, List.mem_singleton] at hm hn
  exact hm.trans hn.symm

/-- A catalogue with one cookie. -/
def session : Catalogue := observation (.cookie "session") .int64

/-- A catalogue with another one. -/
def theme : Catalogue := observation (.cookie "theme") .string

theorem metadata_session_theme :
    session.metadata ++ theme.metadata = [(Location.cookie "session").metadata, (Location.cookie "theme").metadata] := by
  rw [session, theme, metadata_observation, metadata_observation, List.singleton_append]

theorem separated_session_theme : Separated session theme := by
  have hne : (Location.cookie "session").metadata.address ≠ (Location.cookie "theme").metadata.address := by
    decide +kernel
  intro m hm n hn heq
  rw [metadata_session_theme, List.mem_pair] at hm hn
  rcases hm with rfl | rfl <;> rcases hn with rfl | rfl
  · rfl
  · exact absurd heq hne
  · exact absurd heq.symm hne
  · rfl

theorem admittedCookies_session_theme : admittedCookies { maxCookies := 1 } session theme = ["session"] := by
  rw [admittedCookies, metadata_session_theme]
  decide

/-- Under a cap of one name, only the first cookie is recorded. -/
theorem recorded_session_theme {m : Metadata} (h : Recorded { maxCookies := 1 } session theme m) :
    m = (Location.cookie "session").metadata := by
  have hmem := mem_metadata_append.2 h.occurs
  rw [metadata_session_theme, List.mem_pair] at hmem
  rcases hmem with rfl | rfl
  · rfl
  · have hname := h.allowed "theme" rfl
    rw [admittedCookies_session_theme] at hname
    exact absurd hname (by decide)

theorem distinguished_session_theme : Distinguished { maxCookies := 1 } session theme :=
  .of_ne separated_session_theme fun _ _ _ _ hm hn _ _ hne =>
    absurd ((recorded_session_theme hm).trans (recorded_session_theme hn).symm) hne

theorem accumulate_session_theme : ∃ c discarded, accumulate { maxCookies := 1 } session theme = .ok (c, discarded) := by
  cases h : accumulate { maxCookies := 1 } session theme with
  | error f =>
    have hplaced : ∀ s ∈ Table.values session ++ Table.values theme, s.placed? ≠ none := by
      simp [session, theme, observation, Table.values, Schema.placed?, Schema.observed, Location.metadata]
    obtain ⟨m, hm, f, hf⟩ := (accumulate_fails_iff hplaced distinguished_session_theme).1 ⟨f, h⟩
    obtain rfl := recorded_session_theme hm
    cases hf
  | ok result => exact ⟨result.1, result.2, rfl⟩

/-- A session cookie and then another cookie, under a cap of one name: the second one is discarded, the first one stays. -/
theorem cookie_cap_session_theme : ∃ c, accumulate { maxCookies := 1 } session theme = .ok (c, 1) ∧
    (∀ name, name ∈ c.cookies ↔ name = "session") ∧ Run { maxCookies := 1 } Separated [] c ∧ c.cookies.length ≤ 1 := by
  obtain ⟨hstep, hlength, hkept⟩ := cookie_cap { maxCookies := 1 }
  obtain ⟨c, discarded, h⟩ := accumulate_session_theme
  have hsession : Run { maxCookies := 1 } Separated [] session :=
    Run.refl.of_ok (separated_observation _ _) (accumulate_observation (by decide))
  have htheme : Run { maxCookies := 1 } Separated [] c := hsession.of_ok separated_session_theme h
  obtain ⟨hadmits, hdiscarded⟩ := (hstep _ _ c discarded h).1 separated_session_theme
  rw [admittedCookies_session_theme] at hadmits hdiscarded
  have hin : "session" ∈ session.cookies := by
    rw [mem_cookies, session, metadata_observation]
    exact ⟨_, List.mem_cons_self, rfl⟩
  have hdiscarded : discarded = 1 := hdiscarded.trans (by decide)
  subst hdiscarded
  refine ⟨c, h, fun name => ⟨fun hname => List.mem_singleton.1 (hadmits name hname), ?_⟩, htheme, hlength c htheme⟩
  rintro rfl
  exact hkept _ _ hsession (Run.refl.of_ok distinguished_session_theme h) "session" hin

end Catalogue

end ApiShape

/-
The cookie names that a cap lets in: the first of the names that occur, in the order in which entries are
taken. A name that occurs among some entries is let in or not whatever entries come after them, so that an
accumulator that has seen some of the entries decides about its names once and for all.
-/
import ApiShape.Accumulate
import Mathlib.Data.List.Basic

namespace ApiShape

/-! ## First occurrences -/

section

variable {a : String} {l : List String}

theorem eraseDups_snoc_of_mem (h : a ∈ l) : (l ++ [a]).eraseDups = l.eraseDups := by
  simp [List.eraseDups_append, List.removeAll, h]

theorem eraseDups_snoc_of_notMem (h : a ∉ l) : (l ++ [a]).eraseDups = l.eraseDups ++ [a] := by
  simp [List.eraseDups_append, List.removeAll, h, List.eraseDups_cons]

theorem nodup_eraseDups (l : List String) : l.eraseDups.Nodup := by
  cases l with
  | nil => exact List.nodup_nil
  | cons a rest =>
    rw [List.eraseDups_cons, List.nodup_cons]
    refine ⟨fun h => ?_, nodup_eraseDups _⟩
    simpa using (List.mem_filter.1 (List.mem_eraseDups.1 h)).2
termination_by l.length
decreasing_by
  have := List.length_filter_le (fun b => !b == a) rest
  rw [List.length_cons]
  omega

end

/-! ## Names that a cap lets in -/

namespace Metadata

/-- The cookie names in a list of metadata, each at its first occurrence. -/
def cookieNames (l : List Metadata) : List String := (l.filterMap cookie?).eraseDups

/-- The cookie names that a cap lets in. -/
def admitted (cap : Nat) (l : List Metadata) : List String := (cookieNames l).take cap

/-- Whether metadata is that of a cookie with one of the names, or of no cookie. -/
def allowedBy (names : List String) (m : Metadata) : Bool := m.cookie?.all names.contains

variable {cap : Nat} {names : List String} {l l' : List Metadata} {m : Metadata} {name : String}

theorem allowedBy_eq_true : m.allowedBy names = true ↔ ∀ name, m.cookie? = some name → name ∈ names := by
  unfold allowedBy
  cases m.cookie? with
  | none => simp
  | some name => simp

theorem mem_cookieNames : name ∈ cookieNames l ↔ ∃ m ∈ l, m.cookie? = some name := by
  rw [cookieNames, List.mem_eraseDups, List.mem_filterMap]

theorem cookieNames_append (l l' : List Metadata) :
    cookieNames (l ++ l') = cookieNames l ++ ((l'.filterMap cookie?).removeAll (l.filterMap cookie?)).eraseDups := by
  rw [cookieNames, List.filterMap_append, List.eraseDups_append, cookieNames]

theorem cookieNames_snoc_of_mem (h : ∀ name, m.cookie? = some name → name ∈ cookieNames l) :
    cookieNames (l ++ [m]) = cookieNames l := by
  unfold cookieNames at h ⊢
  rw [List.filterMap_append]
  cases hm : m.cookie? with
  | none => simp [hm]
  | some name =>
    rw [List.filterMap_cons_some hm]
    exact eraseDups_snoc_of_mem (List.mem_eraseDups.1 (h name hm))

theorem cookieNames_snoc_of_new (hm : m.cookie? = some name) (h : name ∉ cookieNames l) :
    cookieNames (l ++ [m]) = cookieNames l ++ [name] := by
  unfold cookieNames at h ⊢
  rw [List.filterMap_append, List.filterMap_cons_some hm]
  exact eraseDups_snoc_of_notMem fun hname => h (List.mem_eraseDups.2 hname)

/-- Entries that come later do not change which of the names so far are let in. -/
theorem mem_admitted_append (h : name ∈ cookieNames l) :
    name ∈ admitted cap (l ++ l') ↔ name ∈ admitted cap l := by
  have hlate : name ∉ ((l'.filterMap cookie?).removeAll (l.filterMap cookie?)).eraseDups := by
    have hname : name ∈ l.filterMap cookie? := List.mem_eraseDups.1 h
    rw [List.mem_eraseDups, List.removeAll, List.mem_filter, not_and]
    simp only [List.elem_eq_contains, List.contains_eq_mem, hname]
    simp
  rw [admitted, cookieNames_append, List.take_append, List.mem_append, admitted]
  exact or_iff_left fun hmem => hlate (List.mem_of_mem_take hmem)

theorem allowedBy_append (h : m ∈ l) : m.allowedBy (admitted cap (l ++ l')) = m.allowedBy (admitted cap l) := by
  have hmem : ∀ name, m.cookie? = some name → (name ∈ admitted cap (l ++ l') ↔ name ∈ admitted cap l) :=
    fun name hname => mem_admitted_append (mem_cookieNames.2 ⟨m, h, hname⟩)
  rw [Bool.eq_iff_iff, allowedBy_eq_true, allowedBy_eq_true]
  exact forall₂_congr hmem

end Metadata

/-! ## Names in an accumulator -/

namespace Accumulator

open Metadata

variable {limits : Limits} {a : Accumulator} {l : List Metadata} {m : Metadata}

/-- The accumulator has the names that the cap lets in. -/
def Admits (limits : Limits) (l : List Metadata) (a : Accumulator) : Prop :=
  a.cookies.reverse = admitted limits.maxCookies l

theorem Admits.mem (h : a.Admits limits l) (name : String) : name ∈ a.cookies ↔ name ∈ admitted limits.maxCookies l := by
  rw [← h, List.mem_reverse]

theorem Admits.length (h : a.Admits limits l) : a.cookies.length = min limits.maxCookies (cookieNames l).length := by
  rw [← List.length_reverse, h, admitted, List.length_take]

theorem isFull_eq_true : a.isFull limits m = true ↔
    ∃ name, m.cookie? = some name ∧ name ∉ a.cookies ∧ limits.maxCookies ≤ a.cookies.length := by
  unfold isFull
  cases m.cookie? with
  | none => simp
  | some name => simp

/-- An entry for which there is no room changes none of the names, and its name is not let in. -/
theorem Admits.of_isFull (h : a.Admits limits l) (hfull : a.isFull limits m = true) :
    a.Admits limits (l ++ [m]) ∧ m.allowedBy (admitted limits.maxCookies (l ++ [m])) = false := by
  obtain ⟨name, hm, hnew, hcap⟩ := isFull_eq_true.1 hfull
  rw [h.length] at hcap
  have hsame : admitted limits.maxCookies (l ++ [m]) = admitted limits.maxCookies l := by
    unfold admitted
    rw [cookieNames_append]
    exact List.take_append_of_le_length (by omega)
  refine ⟨h.trans hsame.symm, ?_⟩
  rw [hsame, ← Bool.not_eq_true, allowedBy_eq_true]
  exact fun hall => hnew ((h.mem name).2 (hall name hm))

/-- An entry for which there is room has its name noted. -/
theorem Admits.noteCookie (h : a.Admits limits l) (hfull : a.isFull limits m = false) :
    (a.noteCookie m).Admits limits (l ++ [m]) ∧ m.allowedBy (admitted limits.maxCookies (l ++ [m])) = true := by
  unfold Admits Accumulator.noteCookie
  rw [allowedBy_eq_true]
  cases hm : m.cookie? with
  | none =>
    refine ⟨?_, nofun⟩
    rw [admitted, cookieNames_snoc_of_mem (by simp [hm])]
    exact h
  | some name =>
    by_cases hname : name ∈ a.cookies
    · have hseen := List.mem_of_mem_take ((h.mem name).1 hname)
      have hsame : admitted limits.maxCookies (l ++ [m]) = admitted limits.maxCookies l := by
        unfold admitted
        rw [cookieNames_snoc_of_mem (by rintro _ hm'; cases hm.symm.trans hm'; exact hseen)]
      rw [hsame]
      refine ⟨?_, ?_⟩
      · simp only [List.contains_eq_mem, hname, decide_true, if_true]
        exact h
      · rintro _ ⟨⟩
        exact (h.mem name).1 hname
    · have hroom : a.cookies.length < limits.maxCookies := by
        by_contra hcap
        rw [isFull_eq_true.2 ⟨name, hm, hname, by omega⟩] at hfull
        cases hfull
      rw [h.length] at hroom
      -- With room left, all names so far are let in, so that the new one is new among all of them.
      have hall : admitted limits.maxCookies l = cookieNames l := List.take_of_length_le (by omega)
      have hnew : name ∉ cookieNames l := by rwa [← hall, ← h.mem name]
      have hsnoc : admitted limits.maxCookies (l ++ [m]) = cookieNames l ++ [name] := by
        rw [admitted, cookieNames_snoc_of_new hm hnew]
        exact List.take_of_length_le (by simp; omega)
      have h : a.cookies.reverse = cookieNames l := h.trans hall
      rw [hsnoc]
      refine ⟨?_, ?_⟩
      · simp only [List.contains_eq_mem, hname, decide_false, Bool.false_eq_true, if_false, List.reverse_cons, h]
      · rintro _ ⟨⟩
        simp

end Accumulator

end ApiShape

/-
How computations that may fail come to a result or to a fault: binds, maps and folds taken apart.
-/

namespace ApiShape

section

variable {ε ε' α β : Type}

theorem bind_eq_ok {x : Except ε α} {f : α → Except ε β} {b : β} :
    (x >>= f) = .ok b ↔ ∃ a, x = .ok a ∧ f a = .ok b := by
  cases x with
  | error e => exact ⟨fun h => (nomatch h), fun ⟨_, h, _⟩ => (nomatch h)⟩
  | ok a => exact ⟨fun h => ⟨a, rfl, h⟩, fun ⟨_, h, h'⟩ => by cases h; exact h'⟩

theorem bind_eq_error {x : Except ε α} {f : α → Except ε β} {e : ε} :
    (x >>= f) = .error e ↔ x = .error e ∨ ∃ a, x = .ok a ∧ f a = .error e := by
  cases x with
  | error e' =>
    constructor
    · intro h; cases h; exact .inl rfl
    · rintro (h | ⟨_, h, _⟩)
      · cases h; rfl
      · cases h
  | ok a =>
    constructor
    · exact fun h => .inr ⟨a, rfl, h⟩
    · rintro (h | ⟨_, h, h'⟩)
      · cases h
      · cases h; exact h'

theorem map_eq_ok {x : Except ε α} {f : α → β} {b : β} :
    x.map f = .ok b ↔ ∃ a, x = .ok a ∧ f a = b := by
  cases x <;> simp [Except.map]

theorem map_eq_error {x : Except ε α} {f : α → β} {e : ε} : x.map f = .error e ↔ x = .error e := by
  cases x <;> simp [Except.map]

theorem mapError_eq_ok {x : Except ε α} {f : ε → ε'} {a : α} : x.mapError f = .ok a ↔ x = .ok a := by
  cases x with
  | ok b =>
    show Except.ok b = .ok a ↔ Except.ok b = .ok a
    rw [Except.ok.injEq, Except.ok.injEq]
  | error e => exact ⟨nofun, nofun⟩

theorem mapError_eq_error {x : Except ε α} {f : ε → ε'} {e' : ε'} :
    x.mapError f = .error e' ↔ ∃ e, x = .error e ∧ f e = e' := by
  cases x with
  | ok a => exact ⟨nofun, nofun⟩
  | error e =>
    show Except.error (f e) = .error e' ↔ _
    simp

theorem pure_eq_ok {a b : α} : (pure a : Except ε α) = .ok b ↔ a = b := by
  simp [pure, Except.pure]

theorem pure_ne_error {a : α} {e : ε} : (pure a : Except ε α) ≠ .error e := nofun

/-- Two continuations that agree on the result of a computation. -/
theorem bind_congr_ok {x : Except ε α} {f g : α → Except ε β} (h : ∀ a, x = .ok a → f a = g a) :
    (x >>= f) = (x >>= g) := by
  cases x with
  | error e => rfl
  | ok a => exact h a rfl

/-- A fold that fails does so at one member, after the members before it were folded. -/
theorem foldlM_eq_error {f : β → α → Except ε β} {e : ε} :
    ∀ {l : List α} {init : β}, l.foldlM f init = .error e →
      ∃ pre a post b, l = pre ++ a :: post ∧ pre.foldlM f init = .ok b ∧ f b a = .error e
  | [], init, h => absurd h pure_ne_error
  | a :: l, init, h => by
    rw [List.foldlM_cons] at h
    rcases bind_eq_error.1 h with h | ⟨b, hb, h⟩
    · exact ⟨[], a, l, init, rfl, rfl, h⟩
    · obtain ⟨pre, a', post, b', rfl, hpre, hf⟩ := foldlM_eq_error h
      refine ⟨a :: pre, a', post, b', rfl, ?_, hf⟩
      rw [List.foldlM_cons]
      exact bind_eq_ok.2 ⟨b, hb, hpre⟩

theorem foldlM_append_eq_ok {f : β → α → Except ε β} {l l' : List α} {init b : β} :
    (l ++ l').foldlM f init = .ok b ↔ ∃ c, l.foldlM f init = .ok c ∧ l'.foldlM f c = .ok b := by
  rw [List.foldlM_append]
  exact bind_eq_ok

theorem forM_eq_ok {f : α → Except ε Unit} :
    ∀ {l : List α}, l.forM f = .ok () ↔ ∀ a ∈ l, f a = .ok ()
  | [] => by simp [pure, Except.pure]
  | a :: l => by
    rw [List.forM, bind_eq_ok]
    constructor
    · rintro ⟨_, ha, hl⟩ b hb
      rcases List.mem_cons.1 hb with rfl | hb
      · exact ha
      · exact forM_eq_ok.1 hl b hb
    · intro h
      exact ⟨(), h a List.mem_cons_self, forM_eq_ok.2 fun b hb => h b (List.mem_cons_of_mem _ hb)⟩

theorem forM_eq_error {f : α → Except ε Unit} {e : ε} :
    ∀ {l : List α}, l.forM f = .error e → ∃ a ∈ l, f a = .error e
  | [], h => absurd h pure_ne_error
  | a :: l, h => by
    rw [List.forM] at h
    rcases bind_eq_error.1 h with h | ⟨_, _, h⟩
    · exact ⟨a, List.mem_cons_self, h⟩
    · obtain ⟨b, hb, h⟩ := forM_eq_error h
      exact ⟨b, List.mem_cons_of_mem _ hb, h⟩

end

end ApiShape

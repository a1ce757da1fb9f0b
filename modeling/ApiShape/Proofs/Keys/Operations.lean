/-
No operation leaves a stale key behind: what each of them makes of keyed trees, catalogues and
endpoints is keyed, when it succeeds and when it fails.
-/
import ApiShape.Proofs.Decode

namespace ApiShape

theorem committed_of_ok {α : Type} {P : α → Prop} {before : α} {x : Except Fault α} (hbefore : P before)
    (h : ∀ a, x = .ok a → P a) : P (committed before x) := by
  cases x with
  | ok a => exact h a rfl
  | error f => exact hbefore

theorem Catalogue.Keyed.committed_accumulate {limits : Limits} {dst src : Catalogue} (hd : dst.Keyed)
    (hs : src.Keyed) : (committed dst ((Catalogue.accumulate limits dst src).map (·.1))).Keyed := by
  refine committed_of_ok hd fun c h => ?_
  obtain ⟨⟨c', discarded⟩, h', rfl⟩ := map_eq_ok.1 h
  exact hd.accumulate hs h'

theorem Endpoint.Keyed.committed_accumulate {limits : Limits} {dst src : Endpoint} (hd : dst.Keyed)
    (hs : src.Keyed) : (committed dst ((Endpoint.accumulate limits dst src).map (·.1))).Keyed := by
  refine committed_of_ok hd fun e h => ?_
  obtain ⟨⟨e', tally⟩, h', rfl⟩ := map_eq_ok.1 h
  exact hd.accumulate hs h'

/--
Every operation takes keyed inputs to keyed outputs, whether it succeeds or fails: what it leaves
in place, and what it takes out. Storing everything under its address again succeeds on a keyed
tree or endpoint and gives back exactly what was there.
-/
theorem operations_keep_keyed {σ : Type} (limits : Limits) :
    -- catalogues
    (∀ (c : Catalogue) (s : Schema), c.Keyed → s.Keyed → (Catalogue.insert c s).Keyed) ∧
    (∀ (c : Catalogue) (k : String), c.Keyed →
      Catalogue.Keyed (Table.erase c k) ∧ ∀ s, Table.find? c k = some s → s.Keyed) ∧
    (∀ (c : Catalogue) (p : Schema → Bool), c.Keyed →
      (Catalogue.take p c).2.Keyed ∧ ∀ s ∈ (Catalogue.take p c).1, s.Keyed) ∧
    (∀ (visitor : Visitor σ) (st : σ) (c : Catalogue), visitor.KeepsKeys → c.Keyed →
      (Catalogue.update visitor st c).value.Keyed) ∧
    (∀ c : Catalogue, (∀ s ∈ Table.values c, s.Keyed) → c.rehash.Keyed) ∧
    (∀ nodes : List Schema, (∀ s ∈ nodes, s.Keyed) → (Catalogue.ofList nodes).Keyed) ∧
    -- reading
    (∀ (v : JsonValue) (s : Schema), Schema.decode? v = some s → s.Keyed) ∧
    (∀ (v : JsonValue) (c : Catalogue), Catalogue.decode? v = some c → c.Keyed) ∧
    (∀ (v : JsonValue) (e : Endpoint), Endpoint.decode? v = some e → e.Keyed) ∧
    -- absorbing and accumulating
    (∀ d s : Schema, d.Keyed → s.Keyed → (committed d (absorb limits d s)).Keyed) ∧
    (∀ (st : σ) (s : Schema), s.Keyed → (s.convertToMap limits st).value.Keyed) ∧
    (∀ d s : Catalogue, d.Keyed → s.Keyed →
      (committed d ((Catalogue.accumulate limits d s).map (·.1))).Keyed) ∧
    (∀ d s : Endpoint, d.Keyed → s.Keyed →
      (committed d ((Endpoint.accumulate limits d s).map (·.1))).Keyed) ∧
    -- nodes
    (∀ s : Schema, s.Keyed → s.makeOptional.Keyed) ∧
    (∀ (s : Schema) (e : Examples), s.Keyed → (s.mergeExamples e).Keyed) ∧
    -- traversals
    (∀ s : Schema, s.Keyed → (s.inferMaps limits).value.Keyed) ∧
    (∀ e : Endpoint, e.Keyed → (e.inferMaps limits).value.Keyed) ∧
    (∀ (visitor : Visitor σ) (st : σ), visitor.KeepsKeys →
      (∀ s : Schema, s.Keyed → (s.walk visitor st).value.Keyed) ∧
      (∀ c : Catalogue, c.Keyed → (Catalogue.walk visitor st c).value.Keyed) ∧
      ∀ e : Endpoint, e.Keyed → (e.walk visitor st).value.Keyed) ∧
    (∀ s : Schema, s.Keyed → s.walk idle () = ⟨(), s, none⟩ ∧ s.rewriteKeys = s) ∧
    ∀ e : Endpoint, e.Keyed → e.walk idle () = ⟨(), e, none⟩ ∧ e.rewriteKeys = e := by
  have hinfer : (inferMap limits).KeepsKeys := fun count s hs => hs.inferMap limits count
  refine ⟨fun c s hc hs => hc.insert hs, fun c k hc => ⟨hc.erase k, fun s h => ?_⟩,
    fun c p hc => ⟨hc.left p, hc.taken p⟩, fun visitor st c hv hc => hc.update hv st,
    fun c hc => Catalogue.keyed_ofList hc, fun nodes hnodes => Catalogue.keyed_ofList hnodes,
    fun v s h => Schema.keyed_of_decode? h, fun v c h => Catalogue.keyed_of_decode? h,
    fun v e h => Endpoint.keyed_of_decode? h,
    fun d s hd hs => committed_of_ok hd fun r h => hd.absorb hs h,
    fun st s hs => hs.convertToMap limits st, fun d s hd hs => hd.committed_accumulate hs,
    fun d s hd hs => hd.committed_accumulate hs, fun s hs => hs.makeOptional,
    fun s e hs => hs.of_form rfl, fun s hs => hs.walk hinfer 0, fun e he => he.walk hinfer 0,
    fun visitor st hv => ⟨fun s hs => hs.walk hv st, fun c hc => hc.walk hv st, fun e he => he.walk hv st⟩,
    fun s hs => ⟨hs.walk_idle, ?_⟩, fun e he => ⟨he.walk_idle, ?_⟩⟩
  · exact hc.2 s (Table.mem_values_of_mem (Table.mem_of_find? h))
  · unfold Schema.rewriteKeys
    rw [hs.walk_idle]
  · unfold Endpoint.rewriteKeys
    rw [he.walk_idle]

/-- Storing two alternatives under their addresses again leaves them as they are. -/
theorem operations_keep_keyed_conflict :
    ((Schema.ofType .int64).conflict (Schema.ofType .string)).Keyed ∧
      ((Schema.ofType .int64).conflict (Schema.ofType .string)).rewriteKeys =
        (Schema.ofType .int64).conflict (Schema.ofType .string) := by
  have htype : ∀ t : BaseType, (Schema.ofType t).form.Everywhere Form.Fresh := fun t =>
    Form.everywhere_iff.2 ⟨trivial, nofun⟩
  have hkeyed : ((Schema.ofType .int64).conflict (Schema.ofType .string)).Keyed :=
    Schema.keyed_iff.2 ((stable_fresh {}).conflict (htype .int64) (htype .string))
  obtain ⟨-, -, -, -, -, -, -, -, -, -, -, -, -, -, -, -, -, -, h, -⟩ := operations_keep_keyed (σ := Unit) {}
  exact ⟨hkeyed, (h _ hkeyed).2⟩

end ApiShape

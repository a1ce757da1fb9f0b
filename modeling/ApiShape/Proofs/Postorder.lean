/-
The order of a traversal. A traversal is the same as calling the visitor at the routes of the tree in postorder, one
node after the other, until a call fails; the options above the node at which it stopped are then collected again,
innermost first.
-/
import ApiShape.Proofs.Branches

namespace ApiShape

/-! ## Postorder -/

/-- The routes to all nodes of a tree, those of the children in order before that of the node itself. -/
def Schema.postorder (s : Schema) : List Route :=
  s.children.zipIdx.attach.flatMap (fun c => c.1.1.postorder.map (c.1.2 :: ·)) ++ [[]]
termination_by s.size
decreasing_by exact size_lt_of_mem_children (List.fst_mem_of_mem_zipIdx c.2)

/-- The routes to all nodes below children that stand from index `i` on. -/
def routesFrom (i : Nat) (l : List Schema) : List Route := (l.zipIdx i).flatMap fun c => c.1.postorder.map (c.2 :: ·)

theorem postorder_eq (s : Schema) : s.postorder = routesFrom 0 s.children ++ [[]] := by
  rw [Schema.postorder, List.flatMap_subtype (g := fun c => c.1.postorder.map (c.2 :: ·)) fun _ _ => rfl,
    List.unattach_attach]
  rfl

theorem routesFrom_cons (i : Nat) (c : Schema) (l : List Schema) :
    routesFrom i (c :: l) = c.postorder.map (i :: ·) ++ routesFrom (i + 1) l := rfl

theorem routesFrom_append (i : Nat) (l l' : List Schema) :
    routesFrom i (l ++ l') = routesFrom i l ++ routesFrom (i + l.length) l' := by
  unfold routesFrom
  rw [List.zipIdx_append, List.flatMap_append]

theorem exists_of_mem_routesFrom {i : Nat} {l : List Schema} {q : Route} (h : q ∈ routesFrom i l) :
    ∃ j r, q = j :: r ∧ i ≤ j := by
  obtain ⟨⟨c, j⟩, hmem, hq⟩ := List.mem_flatMap.1 h
  obtain ⟨r, -, rfl⟩ := List.mem_map.1 hq
  exact ⟨j, r, rfl, List.le_snd_of_mem_zipIdx hmem⟩

theorem cons_mem_routesFrom {i j : Nat} {l : List Schema} {r : Route} :
    j :: r ∈ routesFrom i l ↔ i ≤ j ∧ ∃ c, l[j - i]? = some c ∧ r ∈ c.postorder := by
  unfold routesFrom
  simp only [List.mem_flatMap, List.mem_map, List.cons.injEq, Prod.exists, List.mk_mem_zipIdx_iff_le_and_getElem?_sub]
  constructor
  · rintro ⟨c, _, ⟨hle, hc⟩, _, hr, rfl, rfl⟩
    exact ⟨hle, c, hc, hr⟩
  · rintro ⟨hle, c, hc, hr⟩
    exact ⟨c, j, ⟨hle, hc⟩, r, hr, rfl, rfl⟩

/-- The postorder has the routes to all nodes. -/
theorem mem_postorder {s : Schema} {q : Route} : q ∈ s.postorder ↔ (s.at? q).isSome := by
  induction q generalizing s with
  | nil => simp [postorder_eq, Schema.at?]
  | cons i r ih =>
    rw [postorder_eq, List.mem_append, cons_mem_routesFrom]
    cases hc : s.children[i]? with
    | none => simp [Schema.at?, hc]
    | some c => simp [Schema.at?, hc, ih]

/-! ## Calls in order -/

section

variable {σ : Type} {visitor : Visitor σ} {st mid st' : σ} {s t s' c c' : Schema} {l l' : List Route} {i : Nat}

/-- Calling the visitor at routes in order, each time without a fault, takes one state and tree to others. A call is
given the node that the route leads to then, with its options collected again. -/
inductive Visits (visitor : Visitor σ) : σ → Schema → List Route → σ → Schema → Prop
  | nil (st : σ) (s : Schema) : Visits visitor st s [] st s
  | cons {st st' : σ} {s s' node : Schema} {r : Route} {rest : List Route} : s.at? r = some node →
      (visitor st node.collected).fault = none →
      Visits visitor (visitor st node.collected).state (s.put r (visitor st node.collected).value) rest st' s' →
      Visits visitor st s (r :: rest) st' s'

namespace Visits

theorem append (h : Visits visitor st s l mid t) (h' : Visits visitor mid t l' st' s') :
    Visits visitor st s (l ++ l') st' s' := by
  induction h with
  | nil => exact h'
  | cons hnode hfault _ ih => exact .cons hnode hfault (ih h')

/-- Calls in a child are calls in the tree. -/
theorem inChild (h : Visits visitor st c l st' c') (hc : s.children[i]? = some c) :
    Visits visitor st s (l.map (i :: ·)) st' (s.setChild i c') := by
  induction h generalizing s with
  | nil st c =>
    rw [Schema.setChild_self hc]
    exact .nil st s
  | @cons st st' c c' node r rest hnode hfault _ ih =>
    refine .cons ((Schema.at?_cons hc r).trans hnode) hfault ?_
    rw [Schema.put_cons hc]
    have hrest := ih (Schema.children_setChild_self hc (c.put r (visitor st node.collected).value))
    rwa [Schema.setChild_setChild] at hrest

end Visits

/-- Children that are visited one after the other without a fault are visited in the order of their routes. -/
theorem visits_children {cs cs' : List Schema} (h : Passes (Schema.walk visitor) st cs st' cs' false)
    (hwalk : ∀ c ∈ cs, ∀ st, (c.walk visitor st).fault = none →
      Visits visitor st c c.postorder (c.walk visitor st).state (c.walk visitor st).value) :
    ∀ {s : Schema} {before after : List Schema}, s.children = before ++ cs ++ after →
      Visits visitor st s (routesFrom before.length cs) st' (s.withChildren (before ++ cs' ++ after)) := by
  generalize hstopped : false = stopped at h
  induction h with
  | done st =>
    intro s before after hs
    rw [← hs, Schema.withChildren_children]
    exact .nil st s
  | failed => cases hstopped
  | @next st st' c cs cs' stopped hfault hpasses ih =>
    intro s before after hs
    have hc : s.children[before.length]? = some c := by simp [hs]
    obtain ⟨hhead, htail⟩ := List.forall_mem_cons.1 hwalk
    have hfirst := (hhead st hfault).inChild hc
    -- the other children are visited in the tree that has what is left of this one
    have hchildren : (s.setChild before.length (c.walk visitor st).value).children =
        (before ++ [(c.walk visitor st).value]) ++ cs ++ after := by
      rw [Schema.children_setChild, hs]
      simp
    have htree : (s.setChild before.length (c.walk visitor st).value).withChildren
        ((before ++ [(c.walk visitor st).value]) ++ cs' ++ after) =
          s.withChildren (before ++ (c.walk visitor st).value :: cs' ++ after) := by
      unfold Schema.setChild
      rw [Schema.withChildren_withChildren (List.length_set ..) (by simp [hs, hpasses.length_eq])]
      simp
    have hrest := ih htail hstopped hchildren
    rw [htree, List.length_append, List.length_singleton] at hrest
    rw [routesFrom_cons]
    exact hfirst.append hrest

end

/-! ## Where a traversal stops -/

/-- The call at which a traversal stopped. -/
structure Stop (σ : Type) where
  /-- The routes at which the visitor was called before, in order. -/
  visited : List Route
  route : Route
  /-- The routes that the traversal did not come to. -/
  pending : List Route
  /-- The state of the visitor before the call. -/
  state : σ
  /-- The tree before the call. -/
  tree : Schema
  /-- The node that the visitor was given. -/
  node : Schema

namespace Stop

variable {σ : Type}

/-- What the visitor does when it is called there. -/
def call (stop : Stop σ) (visitor : Visitor σ) : Visit σ Schema := visitor stop.state stop.node

/-- The tree with what the call left of its node. -/
def left (stop : Stop σ) (visitor : Visitor σ) : Schema := stop.tree.put stop.route (stop.call visitor).value

/-- What is behind a visit of a tree that failed. -/
structure Explains (stop : Stop σ) (visitor : Visitor σ) (st : σ) (s : Schema) (v : Visit σ Schema) : Prop where
  /-- The calls were made in postorder, up to this one. -/
  order : s.postorder = stop.visited ++ stop.route :: stop.pending
  /-- None of the calls before failed. -/
  calls : Visits visitor st s stop.visited stop.state stop.tree
  node : (stop.tree.at? stop.route).map Schema.collected = some stop.node
  /-- The fault is that of the visitor, below the steps to its node. -/
  fault : ∃ own f, (stop.call visitor).fault = some own ∧ v.fault = some f ∧
    f.path = s.stepsTo stop.route ++ own.path ∧ f.root = own.root
  state : v.state = (stop.call visitor).state
  value : v.value = (stop.left visitor).collectAbove stop.route
  /-- Later nodes are as they were, unless the node of the call is below them. -/
  pending : ∀ q ∈ stop.pending, ¬ q <+: stop.route → (stop.left visitor).at? q = s.at? q
  /-- Alternatives above the node keep all options: those visited, what is left of the one that the node is in, and
  those that were still to come, in the old order. -/
  options : ∀ (q : Route) (i : Nat) (r : Route) (t : Schema) (options : Catalogue) (conflict : Bool),
    stop.route = q ++ i :: r → s.at? q = some t → t.form = .oneOf options conflict →
      ∃ visited failing, visited.length = i ∧ (∀ j < i, (stop.left visitor).at? (q ++ [j]) = visited[j]?) ∧
        (stop.left visitor).at? (q ++ [i]) = some failing ∧
        v.value = ((stop.left visitor).put q { t with
          form := .oneOf (Catalogue.ofList
            (visited ++ failing.collectAbove r :: (Table.values options).drop (i + 1))) conflict }).collectAbove q

variable {visitor : Visitor σ} {st mid : σ} {s c : Schema} {v : Visit σ Schema} {stop : Stop σ} {k : Nat}

/-- The visit of the root itself failed. -/
theorem explains_root {own : Fault} {left : Schema} (hcalls : Visits visitor st s (routesFrom 0 s.children) mid left)
    (hown : (visitor mid left.collected).fault = some own) :
    Explains ⟨routesFrom 0 s.children, [], [], mid, left, left.collected⟩ visitor st s (visitor mid left.collected) where
  order := postorder_eq s
  calls := hcalls
  node := rfl
  fault := ⟨own, own, hown, hown, rfl, rfl⟩
  state := rfl
  value := rfl
  pending := nofun
  options q i r _ _ _ hroute := absurd hroute.symm (List.append_ne_nil_of_right_ne_nil q (List.cons_ne_nil i r))

/-- The stop as it is seen from the node above, where the children before left `values`. -/
def inChild (stop : Stop σ) (s : Schema) (values : List Schema) : Stop σ where
  visited := routesFrom 0 (s.children.take values.length) ++ stop.visited.map (values.length :: ·)
  route := values.length :: stop.route
  pending := stop.pending.map (values.length :: ·) ++
    (routesFrom (values.length + 1) (s.children.drop (values.length + 1)) ++ [[]])
  state := stop.state
  tree := s.fill values stop.tree
  node := stop.node

theorem left_inChild {values : List Schema} (h : values.length < s.children.length) :
    (stop.inChild s values).left visitor = s.fill values (stop.left visitor) :=
  Schema.put_fill h stop.tree stop.route _

/-- The visit of a child failed. -/
theorem Explains.inChild {values : List Schema} {e : Edge} {f : Fault} (h : stop.Explains visitor mid c v)
    (hbranch : s.form.branches[values.length]? = some (e, c)) (hf : v.fault = some f)
    (hcalls : Visits visitor st s (routesFrom 0 (s.children.take values.length)) mid (s.fill values c)) :
    (stop.inChild s values).Explains visitor st s
      ⟨v.state, (s.fill values v.value).collected, some (e.wrap f)⟩ := by
  have hc : s.children[values.length]? = some c := Schema.children_of_branches hbranch
  obtain ⟨hlt, hget⟩ := List.getElem?_eq_some_iff.1 hc
  have hleft : (stop.inChild s values).left visitor = s.fill values (stop.left visitor) := left_inChild hlt
  exact {
    order := by
      have hsplit : s.children = s.children.take values.length ++ c :: s.children.drop (values.length + 1) := by
        rw [← hget, ← List.drop_eq_getElem_cons hlt, List.take_append_drop]
      have hlength : 0 + (s.children.take values.length).length = values.length := by
        rw [List.length_take]
        omega
      rw [postorder_eq, hsplit, routesFrom_append, hlength, routesFrom_cons, h.order]
      simp [Stop.inChild]
    calls := by
      have hchild := h.calls.inChild (Schema.getElem?_children_fill hlt c)
      rw [Schema.setChild_fill hlt] at hchild
      exact hcalls.append hchild
    node := by
      show (Schema.at? (s.fill values stop.tree) (values.length :: stop.route)).map Schema.collected = _
      rw [Schema.at?_fill hlt]
      exact h.node
    fault := by
      obtain ⟨own, f', hown, hf', hpath, hroot⟩ := h.fault
      obtain rfl : f' = f := Option.some.inj (hf'.symm.trans hf)
      refine ⟨own, e.wrap f', hown, rfl, ?_, (e.root_wrap f').trans hroot⟩
      show _ = s.stepsTo (values.length :: stop.route) ++ own.path
      rw [e.path_wrap, Schema.stepsTo_cons hbranch, hpath, List.append_assoc]
    state := h.state
    value := by
      show (s.fill values v.value).collected = _
      rw [hleft, h.value]
      exact (Schema.collectAbove_fill hlt (stop.left visitor) stop.route).symm
    pending := by
      intro q hq hprefix
      rw [hleft]
      rcases List.mem_append.1 hq with hq | hq
      · -- a later node below the same child
        obtain ⟨q', hq', rfl⟩ := List.mem_map.1 hq
        rw [Schema.at?_fill hlt, Schema.at?_cons hc]
        exact h.pending q' hq' fun hle => hprefix ((List.prefix_cons_inj _).2 hle)
      · rcases List.mem_append.1 hq with hq | hq
        · -- a node below a later child
          obtain ⟨j, r, rfl, hj⟩ := exists_of_mem_routesFrom hq
          exact Schema.at?_fill_of_gt hlt _ hj r
        · -- the node above, which the call is below
          obtain rfl := List.mem_singleton.1 hq
          exact absurd List.nil_prefix hprefix
    options := by
      intro q i r t options conflict hroute ht hform
      rw [hleft]
      replace hroute : values.length :: stop.route = q ++ i :: r := hroute
      show ∃ visited failing, _ ∧ _ ∧ _ ∧ (s.fill values v.value).collected = _
      cases q with
      | nil =>
        -- the alternatives are the node above itself
        obtain ⟨rfl, rfl⟩ : values.length = i ∧ stop.route = r := by simpa using hroute
        obtain rfl : s = t := Option.some.inj ht
        refine ⟨values, stop.left visitor, rfl, fun j hj => Schema.at?_fill_of_lt hlt _ hj, Schema.at?_fill hlt _ [], ?_⟩
        rw [h.value]
        exact Schema.collected_fill hlt hform _
      | cons j q =>
        -- the alternatives are further down, where the stop below accounts for them
        obtain ⟨rfl, hbelow⟩ : values.length = j ∧ stop.route = q ++ i :: r := by simpa using hroute
        rw [Schema.at?_cons hc] at ht
        obtain ⟨visited, failing, hlength, hvisited, hfailing, hvalue⟩ :=
          h.options q i r t options conflict hbelow ht hform
        refine ⟨visited, failing, hlength, fun j hj => ?_, ?_, ?_⟩
        · exact (Schema.at?_fill hlt _ _).trans (hvisited j hj)
        · exact (Schema.at?_fill hlt _ _).trans hfailing
        · rw [hvalue, Schema.put_fill hlt, Schema.collectAbove_fill hlt] }

end Stop

/-! ## Traversals -/

section

variable {σ : Type} {visitor : Visitor σ}

/-- A traversal calls the visitor in postorder, at all nodes or up to the first call that fails. -/
theorem Schema.walk_cases (visitor : Visitor σ) (s : Schema) : ∀ st,
    ((s.walk visitor st).fault = none ∧
      Visits visitor st s s.postorder (s.walk visitor st).state (s.walk visitor st).value) ∨
    ∃ stop : Stop σ, stop.Explains visitor st s (s.walk visitor st) := by
  induction s using Schema.inductionOn with
  | step s ih =>
    intro st
    have hdone : ∀ c ∈ s.children, ∀ st, (c.walk visitor st).fault = none →
        Visits visitor st c c.postorder (c.walk visitor st).state (c.walk visitor st).value := by
      intro c hc st hfault
      rcases ih c hc st with ⟨-, hvisits⟩ | ⟨stop, hstop⟩
      · exact hvisits
      · obtain ⟨own, f, -, hf, -, -⟩ := hstop.fault
        rw [hfault] at hf
        cases hf
    have hchildren : s.form.branches.map (·.2) = s.children := s.form.branches_children
    rcases visitBranches_cases visitor s.form.branches st with
      ⟨hfault, hpasses⟩ | ⟨before, e, c, after, mid, values, f, hbranches, hpasses, hf, hv⟩
    · -- all children are done, and the call at the node itself is the last one
      rw [hchildren] at hpasses
      have hcalls := @visits_children _ _ _ _ _ _ hpasses hdone s [] [] (by simp)
      rw [Schema.walk_of_done hfault]
      rw [List.nil_append, List.append_nil] at hcalls
      cases hown : (visitor (visitBranches visitor st s.form.branches).state
          (s.withChildren (visitBranches visitor st s.form.branches).value).collected).fault with
      | some own => exact .inr ⟨_, Stop.explains_root hcalls hown⟩
      | none =>
        refine .inl ⟨rfl, ?_⟩
        rw [postorder_eq]
        exact hcalls.append (.cons rfl hown (.nil _ _))
    · -- it stopped below the child `c`, after those in `before`, which now are `values`
      have hsplit : s.children = before.map (·.2) ++ c :: after.map (·.2) := by
        rw [← hchildren, hbranches, List.map_append]
        rfl
      have hlength : (before.map (·.2)).length = values.length := hpasses.length_eq.symm
      have hmem : c ∈ s.children := by simp [hsplit]
      have hdrop : s.children.drop (values.length + 1) = after.map (·.2) := by
        rw [hsplit, ← hlength, List.append_cons, List.drop_left' (by simp)]
      have htake : s.children.take values.length = before.map (·.2) := by
        rw [hsplit, ← hlength, List.take_left]
      have hbefore : ∀ t ∈ before.map (·.2), t ∈ s.children := fun t ht => hsplit ▸ List.mem_append_left _ ht
      have hcalls := @visits_children _ _ _ _ _ _ hpasses (fun t ht => hdone t (hbefore t ht)) s []
        (c :: after.map (·.2)) (by simp [hsplit])
      obtain ⟨stop, hstop⟩ := (ih c hmem mid).resolve_left fun h => by simp [hf] at h
      have hbranch : s.form.branches[values.length]? = some (e, c) := by
        rw [hbranches, ← hlength, List.length_map]
        simp
      have hfill : ∀ t, s.fill values t = s.withChildren (values ++ t :: after.map (·.2)) := by
        intro t
        rw [Schema.fill, hdrop]
      refine .inr ⟨stop.inChild s values, ?_⟩
      rw [Schema.walk_of_fault (congrArg Visit.fault hv), hv, ← hfill]
      refine hstop.inChild hbranch hf ?_
      rw [htake, hfill]
      exact hcalls

/-- A traversal calls the visitor at all nodes in postorder, or up to the first call that fails. What it leaves then is
what the calls left, with the options above the last of them collected again; and collecting merges the nodes that have
one address, and no others. -/
theorem Schema.walk_in_postorder (visitor : Visitor σ) (st : σ) (s : Schema) :
    (∀ q, q ∈ s.postorder ↔ (s.at? q).isSome) ∧
    (((s.walk visitor st).fault = none ∧
        Visits visitor st s s.postorder (s.walk visitor st).state (s.walk visitor st).value) ∨
      ∃ stop : Stop σ, stop.Explains visitor st s (s.walk visitor st)) ∧
    ∀ nodes k, Table.find? (Catalogue.ofList nodes) k =
      Catalogue.mergeAll (nodes.filter (fun t => t.address = k)) :=
  ⟨fun _ => mem_postorder, s.walk_cases visitor st, Catalogue.find?_ofList⟩

end

end ApiShape

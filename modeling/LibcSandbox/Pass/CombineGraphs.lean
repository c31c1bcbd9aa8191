import LibcSandbox.GraphLib.Insert
import LibcSandbox.Pass.Convert
import Mathlib.Data.Set.Insert
import Mathlib.Logic.Relation

namespace LibcSandbox
open Relation
set_option autoImplicit true

variable {G : Graaf} {g : LibcCallgraph G}

def FuncBBGraphMeta.empty : FuncBBGraphMeta G := ⟨"", "", [], .empty, .empty, .empty⟩

/-- `funcBBToMetaMap`: the records by the names of their functions. -/
def FuncMap (G : Graaf) := String → Option (FuncBBGraphMeta G)

/-- `operator[]`, which makes an empty record where there is none. -/
def FuncMap.get (funcs : FuncMap G) (name : String) : FuncBBGraphMeta G :=
  (funcs name).getD .empty

/-- The body of the loop over the edges of `entry`. Nothing comes out where a lookup throws. -/
def insertCallee (funcs : FuncMap G) (entry : String) (finalGraph : LibcCallgraph G)
    (edge : String) : Option (LibcCallgraph G) :=
  if foundAtStart edge "user:" then do
    let functionCall := String.ofList (edge.toList.drop 5)
    let m := funcs.get functionCall
    let finalGraph ← finalGraph.insertGraph m.libcCallGraph m.entryNode m.exitNode
    let finalGraph := finalGraph.addEdge entry m.entryNode "control"
    let neighbors ← finalGraph.getNeighbors entry
    let front ← neighbors.head?
    return finalGraph.addEdge m.exitNode front "control"
  else some finalGraph

def insertCalleesOf (funcs : FuncMap G) (finalGraph : LibcCallgraph G) (entry : String) :
    Option (LibcCallgraph G) := do
  let edges ← finalGraph.getOutgoingEdges entry
  edges.foldlM (insertCallee funcs entry) finalGraph

/-- The first half of `CombineLibcgGraph`. -/
def insertCallees (funcs : FuncMap G) : Option (LibcCallgraph G) :=
  let finalGraph := (funcs.get "main").libcCallGraph
  finalGraph.getVertices.foldlM (insertCalleesOf funcs) finalGraph

/-- Both halves. The vertices of the final graph are merged like those of a function, along calls
too. -/
def combineLibcgGraph (funcs : FuncMap G) : Option (Merging G) := do
  let finalGraph ← insertCallees funcs
  mergeRounds [.control, .user] (finalGraph.getVertices.length + 1)
    ⟨finalGraph, (funcs.get "main").exitNode, []⟩

def FuncMap.graph (funcs : FuncMap G) (f : String) : LibcCallgraph G := (funcs.get f).libcCallGraph

def FuncMap.HasVertex (funcs : FuncMap G) (f v : String) : Prop :=
  ((funcs.graph f).vertexIdMap v).isSome

def FuncMap.Calls (funcs : FuncMap G) (f f' : String) : Prop :=
  ∃ s t, (funcs.graph f).Edge s ("user:" ++ f') t

/-- The graphs of the functions, whose vertices have different names. -/
structure FuncMap.Disjoint (funcs : FuncMap G) : Prop where
  inv : ∀ f, (funcs.graph f).Inv
  names : ∀ f f' v, funcs.HasVertex f v → funcs.HasVertex f' v → f = f'

theorem foundAtStart_user_iff : foundAtStart l "user:" = true ↔ ∃ f, l = "user:" ++ f := by
  rw [foundAtStart, List.isPrefixOf_iff_prefix]
  apply Iff.intro
  · intro h
    obtain ⟨cs, hcs⟩ := h
    refine ⟨String.ofList cs, ?_⟩
    have htail : (String.ofList cs).toList = cs := String.toList_ofList
    rw [← String.toList_inj, String.toList_append, htail, hcs]
  · intro h
    obtain ⟨f, rfl⟩ := h
    rw [String.toList_append]
    exact List.prefix_append _ _

theorem drop_user (f : String) : String.ofList (("user:" ++ f).toList.drop 5) = f := by
  rw [String.toList_append, ← String.toList_inj, String.toList_ofList]
  rfl

theorem user_inj (h : "user:" ++ f = "user:" ++ f') : f = f' := by
  rw [← drop_user f, h, drop_user]

theorem LibcCallgraph.Inv.edge_addEdge_cases (h : g.Inv) (s t l : String)
    (he : (g.addEdge s t l).Edge u l' v) : g.Edge u l' v ∨ l' = l ∧ u = s ∧ v = t := by
  cases hs : g.vertexIdMap s with
  | none =>
    simp only [LibcCallgraph.addEdge, hs] at he
    exact .inl he
  | some i =>
    cases ht : g.vertexIdMap t with
    | none =>
      simp only [LibcCallgraph.addEdge, hs, ht] at he
      exact .inl he
    | some j =>
      rw [← LibcCallgraph.label_eq_some_iff, h.label_addEdge (by rw [hs]; rfl) (by rw [ht]; rfl)]
        at he
      split at he
      next huv =>
        obtain ⟨rfl, rfl⟩ := huv
        rw [← LibcCallgraph.label_eq_some_iff]
        cases hl : g.label u v with
        | none =>
          rw [hl, Option.getD_none, Option.some.injEq] at he
          exact .inr ⟨he.symm, rfl, rfl⟩
        | some l =>
          rw [hl, Option.getD_some] at he
          exact .inl he
      next => exact .inl (LibcCallgraph.label_eq_some_iff.1 he)

theorem LibcCallgraph.Inv.edge_addEdge (h : g.Inv) (s t l u l' v : String)
    (he : (g.addEdge s t l).Edge u l' v) : g.Edge u l' v ∨ l' = l :=
  (h.edge_addEdge_cases s t l he).imp_right And.left

theorem LibcCallgraph.Inv.edge_addEdge_of_edge (h : g.Inv) (s t l : String) (he : g.Edge u l' v) :
    (g.addEdge s t l).Edge u l' v := by
  cases hs : g.vertexIdMap s with
  | none => simpa only [LibcCallgraph.addEdge, hs] using he
  | some i =>
    cases ht : g.vertexIdMap t with
    | none => simpa only [LibcCallgraph.addEdge, hs, ht] using he
    | some j =>
      rw [← LibcCallgraph.label_eq_some_iff, h.label_addEdge (by rw [hs]; rfl) (by rw [ht]; rfl)]
      have hl := LibcCallgraph.label_eq_some_iff.2 he
      split
      next huv =>
        rw [huv.1, huv.2] at hl
        rw [hl, Option.getD_some]
      next => exact hl

/-- A call has an end, so that there is a first neighbour to lead back to. -/
theorem insertCallee_some {funcs : FuncMap G} (hI : ∀ f, (funcs.graph f).Inv) (h : g.Inv)
    (f : String) (he : g.Edge entry l t) :
    ∃ g₁ front, Inserted g (funcs.graph f) g₁ ∧
      insertCallee funcs entry g ("user:" ++ f) =
        some ((g₁.addEdge entry (funcs.get f).entryNode "control").addEdge
          (funcs.get f).exitNode front "control") := by
  obtain ⟨g₁, h₁, hg₁⟩ := h.insertGraph (hI f) (funcs.get f).entryNode (funcs.get f).exitNode
  have hkept : (g₁.addEdge entry (funcs.get f).entryNode "control").Edge entry l t :=
    hg₁.inv.edge_addEdge_of_edge entry _ _ (hg₁.edge_of_edge he)
  obtain ⟨-, hneighbors, hmem⟩ :=
    (hg₁.inv.addEdge entry (funcs.get f).entryNode "control").outgoing entry
  have hout := (hmem l t).2 hkept
  obtain ⟨front, rest, hfront⟩ := List.exists_cons_of_ne_nil (List.ne_nil_of_mem hout)
  refine ⟨g₁, front.2, hg₁, ?_⟩
  rw [insertCallee, if_pos (foundAtStart_user_iff.2 ⟨f, rfl⟩), drop_user]
  rw [FuncMap.graph] at h₁
  simp only [h₁, Option.bind_eq_bind, Option.bind_some]
  rw [hneighbors, hfront]
  rfl

/-- The second graph has the edges of the first one. -/
structure Grown (g g' : LibcCallgraph G) : Prop where
  inv : g'.Inv
  edges : ∀ s l t, g.Edge s l t → g'.Edge s l t

theorem Grown.trans (h : Grown g g') (h' : Grown g' g'') : Grown g (g'' : LibcCallgraph G) :=
  ⟨h'.inv, fun s l t he => h'.edges s l t (h.edges s l t he)⟩

theorem Inserted.grown (h : Inserted g other g') (s t u v : String) :
    Grown g ((g'.addEdge s t "control").addEdge u v "control") where
  inv := (h.inv.addEdge s t "control").addEdge u v "control"
  edges := by
    intro x l y he
    have hfirst := h.inv.edge_addEdge_of_edge s t "control" (h.edge_of_edge he)
    exact (h.inv.addEdge s t "control").edge_addEdge_of_edge u v "control" hfirst

theorem grown_insertCallee {funcs : FuncMap G} (hI : ∀ f, (funcs.graph f).Inv) (h : g.Inv)
    (edge : String) (he : g.Edge entry l t) :
    ∃ g', insertCallee funcs entry g edge = some g' ∧ Grown g g' := by
  by_cases huser : ∃ f, edge = "user:" ++ f
  · obtain ⟨f, rfl⟩ := huser
    obtain ⟨g₁, front, hg₁, heq⟩ := insertCallee_some hI h f he
    exact ⟨_, heq, hg₁.grown ..⟩
  · refine ⟨g, ?_, h, fun s l t he => he⟩
    rw [insertCallee, if_neg fun hl => huser (foundAtStart_user_iff.1 hl)]

theorem grown_insertCallees {funcs : FuncMap G} (hI : ∀ f, (funcs.graph f).Inv) (h : g.Inv)
    (edges : List String) (he : g.Edge entry l t) :
    ∃ g', edges.foldlM (insertCallee funcs entry) g = some g' ∧ Grown g g' := by
  induction edges generalizing g with
  | nil => exact ⟨g, rfl, h, fun s l t he => he⟩
  | cons edge edges ih =>
    obtain ⟨g₁, h₁, hg₁⟩ := grown_insertCallee hI h edge he
    obtain ⟨g', h', hg'⟩ := ih hg₁.inv (hg₁.edges entry l t he)
    rw [List.foldlM_cons, h₁]
    exact ⟨g', h', hg₁.trans hg'⟩

theorem grown_insertCalleesOf {funcs : FuncMap G} (hI : ∀ f, (funcs.graph f).Inv) (h : g.Inv)
    (vertices : List String) :
    ∃ g', vertices.foldlM (insertCalleesOf funcs) g = some g' ∧ Grown g g' := by
  induction vertices generalizing g with
  | nil => exact ⟨g, rfl, h, fun s l t he => he⟩
  | cons entry vertices ih =>
    obtain ⟨hedges, -, hmem⟩ := h.outgoing entry
    have hfirst : ∃ g₁, insertCalleesOf funcs g entry = some g₁ ∧ Grown g g₁ := by
      rw [insertCalleesOf, hedges, Option.bind_eq_bind, Option.bind_some]
      cases hout : g.outgoing entry with
      | nil => exact ⟨g, rfl, h, fun s l t he => he⟩
      | cons e out =>
        have he : g.Edge entry e.1 e.2 := by
          rw [← hmem, hout]
          exact List.mem_cons_self
        exact grown_insertCallees hI h _ he
    obtain ⟨g₁, h₁, hg₁⟩ := hfirst
    obtain ⟨g', h', hg'⟩ := ih hg₁.inv
    rw [List.foldlM_cons, h₁]
    exact ⟨g', h', hg₁.trans hg'⟩

theorem grown_insertCallees_main {funcs : FuncMap G} (hI : ∀ f, (funcs.graph f).Inv) :
    ∃ g, insertCallees funcs = some g ∧ Grown (funcs.graph "main") g :=
  grown_insertCalleesOf hI (hI "main") _

/-- What is in the final graph once the graphs of some functions are. -/
structure HasInserted (funcs : FuncMap G) (done : Set String) (g : LibcCallgraph G) : Prop where
  inv : g.Inv
  main : "main" ∈ done
  called : ∀ f ∈ done, f = "main" ∨ funcs.Calls "main" f
  vertices : ∀ v, (g.vertexIdMap v).isSome ↔ ∃ f ∈ done, funcs.HasVertex f v
  edges : ∀ f ∈ done, ∀ s l t, (funcs.graph f).Edge s l t → g.Edge s l t
  calls : ∀ s f t, funcs.HasVertex "main" s → g.Edge s ("user:" ++ f) t →
    (funcs.graph "main").Edge s ("user:" ++ f) t

theorem hasInserted_main (h : FuncMap.Disjoint funcs) :
    HasInserted funcs {"main"} (funcs.graph "main") where
  inv := h.inv "main"
  main := rfl
  called := fun f hf => .inl hf
  vertices := fun v => by simp only [Set.mem_singleton_iff, exists_eq_left, FuncMap.HasVertex]
  edges := by
    intro f hf s l t he
    cases Set.mem_singleton_iff.1 hf
    exact he
  calls := fun s f t _ he => he

theorem HasInserted.addEdge (h : HasInserted funcs done g) (s t : String) :
    HasInserted funcs done (g.addEdge s t "control") where
  inv := h.inv.addEdge s t "control"
  main := h.main
  called := h.called
  vertices := fun v => by rw [g.vertexIdMap_addEdge, h.vertices]
  edges := fun f hf u l v he => h.inv.edge_addEdge_of_edge s t "control" (h.edges f hf u l v he)
  calls := by
    intro u f v hu he
    rcases h.inv.edge_addEdge s t "control" u _ v he with he | he
    · exact h.calls u f v hu he
    · have hlist := congrArg String.toList he
      rw [String.toList_append] at hlist
      simp at hlist

theorem HasInserted.insertGraph (hd : FuncMap.Disjoint funcs) (h : HasInserted funcs done g)
    (hf : funcs.Calls "main" f) (hg : Inserted g (funcs.graph f) g') :
    HasInserted funcs (insert f done) g' where
  inv := hg.inv
  main := Set.mem_insert_of_mem f h.main
  called := by
    intro f' hf'
    rcases Set.mem_insert_iff.1 hf' with rfl | hf'
    · exact .inr hf
    · exact h.called f' hf'
  vertices := by
    intro v
    rw [hg.vertices, h.vertices]
    simp only [Set.mem_insert_iff, exists_eq_or_imp]
    exact or_comm
  edges := by
    intro f' hf' s l t he
    rw [← LibcCallgraph.label_eq_some_iff, hg.labels]
    by_cases hdone : f' ∈ done
    · rw [LibcCallgraph.label_eq_some_iff.2 (h.edges f' hdone s l t he), Option.some_or]
    · -- The function is new, and so are its vertices.
      obtain rfl := (Set.mem_insert_iff.1 hf').resolve_right hdone
      have hno : g.label s t = none := by
        apply LibcCallgraph.label_absent
        left
        rw [← Option.not_isSome_iff_eq_none, h.vertices]
        intro hx
        obtain ⟨f, hf, hs⟩ := hx
        exact hdone (hd.names f f' s hs he.isSome.1 ▸ hf)
      rw [hno, Option.none_or, LibcCallgraph.label_eq_some_iff]
      exact he
  calls := by
    intro s f' t hs he
    rw [← LibcCallgraph.label_eq_some_iff, hg.labels, Option.or_eq_some_iff] at he
    rcases he with he | ⟨-, he⟩
    · exact h.calls s f' t hs (LibcCallgraph.label_eq_some_iff.1 he)
    · rw [LibcCallgraph.label_eq_some_iff] at he
      rw [hd.names "main" f s hs he.isSome.1]
      exact he

theorem HasInserted.insertCallee (hd : FuncMap.Disjoint funcs) (h : HasInserted funcs done g)
    (he : (funcs.graph "main").Edge entry ("user:" ++ f) t) :
    ∃ g', LibcSandbox.insertCallee funcs entry g ("user:" ++ f) = some g' ∧
      HasInserted funcs (insert f done) g' := by
  obtain ⟨g₁, front, hg₁, heq⟩ :=
    insertCallee_some hd.inv h.inv f (h.edges "main" h.main entry _ t he)
  have h₁ := h.insertGraph hd ⟨entry, t, he⟩ hg₁
  exact ⟨_, heq, (h₁.addEdge entry (funcs.get f).entryNode).addEdge (funcs.get f).exitNode front⟩

theorem HasInserted.insertCallees (hd : FuncMap.Disjoint funcs) (h : HasInserted funcs done g)
    (edges : List String)
    (hedges : ∀ f, "user:" ++ f ∈ edges → ∃ t, (funcs.graph "main").Edge entry ("user:" ++ f) t) :
    ∃ g' done', edges.foldlM (LibcSandbox.insertCallee funcs entry) g = some g' ∧
      HasInserted funcs done' g' ∧ done ⊆ done' ∧ ∀ f, "user:" ++ f ∈ edges → f ∈ done' := by
  induction edges generalizing g done with
  | nil => exact ⟨g, done, rfl, h, Set.Subset.rfl, fun f hf => by cases hf⟩
  | cons edge edges ih =>
    have hrest : ∀ f, "user:" ++ f ∈ edges →
        ∃ t, (funcs.graph "main").Edge entry ("user:" ++ f) t :=
      fun f hf => hedges f (List.mem_cons_of_mem _ hf)
    rw [List.foldlM_cons]
    by_cases huser : ∃ f, edge = "user:" ++ f
    · obtain ⟨f, rfl⟩ := huser
      obtain ⟨t, ht⟩ := hedges f List.mem_cons_self
      obtain ⟨g₁, h₁, hg₁⟩ := h.insertCallee hd ht
      obtain ⟨g', done', h', hg', hsub, hdone'⟩ := ih hg₁ hrest
      rw [h₁]
      refine ⟨g', done', h', hg', (Set.subset_insert f done).trans hsub, ?_⟩
      intro f' hf'
      rcases List.mem_cons.1 hf' with hf' | hf'
      · rw [user_inj hf']
        exact hsub (Set.mem_insert f done)
      · exact hdone' f' hf'
    · have hskip : LibcSandbox.insertCallee funcs entry g edge = some g := by
        rw [LibcSandbox.insertCallee, if_neg fun hl => huser (foundAtStart_user_iff.1 hl)]
      obtain ⟨g', done', h', hg', hsub, hdone'⟩ := ih h hrest
      rw [hskip]
      refine ⟨g', done', h', hg', hsub, ?_⟩
      intro f hf
      rcases List.mem_cons.1 hf with hf | hf
      · exact absurd ⟨f, hf.symm⟩ huser
      · exact hdone' f hf

theorem HasInserted.insertCalleesOf (hd : FuncMap.Disjoint funcs) (h : HasInserted funcs done g)
    (vertices : List String) (hvertices : ∀ s ∈ vertices, funcs.HasVertex "main" s) :
    ∃ g' done', vertices.foldlM (LibcSandbox.insertCalleesOf funcs) g = some g' ∧
      HasInserted funcs done' g' ∧ done ⊆ done' ∧
      ∀ s ∈ vertices, ∀ f t, (funcs.graph "main").Edge s ("user:" ++ f) t → f ∈ done' := by
  induction vertices generalizing g done with
  | nil => exact ⟨g, done, rfl, h, Set.Subset.rfl, fun s hs => by cases hs⟩
  | cons entry vertices ih =>
    rw [List.forall_mem_cons] at hvertices
    obtain ⟨hedges, -, hmem⟩ := h.inv.outgoing entry
    have hcalls : ∀ f, "user:" ++ f ∈ (g.outgoing entry).map Prod.fst →
        ∃ t, (funcs.graph "main").Edge entry ("user:" ++ f) t := by
      intro f hf
      obtain ⟨⟨l, t⟩, hx, hl⟩ := List.mem_map.1 hf
      exact ⟨t, h.calls entry f t hvertices.1 ((hmem _ t).1 (hl ▸ hx))⟩
    obtain ⟨g₁, done₁, h₁, hg₁, hsub₁, hdone₁⟩ := h.insertCallees hd
      ((g.outgoing entry).map Prod.fst) hcalls
    obtain ⟨g', done', h', hg', hsub, hdone'⟩ := ih hg₁ hvertices.2
    have hfirst : LibcSandbox.insertCalleesOf funcs g entry = some g₁ := by
      rw [LibcSandbox.insertCalleesOf, hedges]
      exact h₁
    rw [List.foldlM_cons, hfirst]
    refine ⟨g', done', h', hg', hsub₁.trans hsub, ?_⟩
    intro s hs f t he
    rcases List.mem_cons.1 hs with rfl | hs
    · apply hsub
      apply hdone₁
      exact List.mem_map_of_mem ((hmem _ t).2 (h.edges "main" h.main s _ t he))
    · exact hdone' s hs f t he

/-- Exactly main and the functions that main calls itself are inserted. -/
theorem insertCallees_some (hd : FuncMap.Disjoint funcs) :
    ∃ g, insertCallees funcs = some g ∧
      HasInserted funcs {f | f = "main" ∨ funcs.Calls "main" f} g := by
  have hvertices (s : String) : s ∈ (funcs.graph "main").getVertices ↔ funcs.HasVertex "main" s :=
    LibcCallgraph.mem_getVertices (hd.inv "main")
  obtain ⟨g, done, hg, h, -, hdone⟩ := (hasInserted_main hd).insertCalleesOf hd
    (funcs.graph "main").getVertices fun s hs => (hvertices s).1 hs
  have heq : done = {f | f = "main" ∨ funcs.Calls "main" f} := by
    ext f
    apply Iff.intro
    · exact h.called f
    · intro hf
      rcases hf with rfl | ⟨s, t, he⟩
      · exact h.main
      · exact hdone s ((hvertices s).2 he.isSome.1) f t he
  exact ⟨g, hg, heq ▸ h⟩

/-- All of a graph is there. -/
structure Covers (g other : LibcCallgraph G) : Prop where
  vertices : ∀ v, (other.vertexIdMap v).isSome → (g.vertexIdMap v).isSome
  edges : ∀ s l t, other.Edge s l t → g.Edge s l t

/-- Everything reachable is inserted if and only if what main does not call itself is empty. -/
theorem insertCallees_covers_iff {funcs : FuncMap G} (h : funcs.Disjoint) :
    ∃ finalGraph, insertCallees funcs = some finalGraph ∧
      ((∀ f, ReflTransGen funcs.Calls "main" f → Covers finalGraph (funcs.graph f)) ↔
        ∀ f, ReflTransGen funcs.Calls "main" f →
          f = "main" ∨ funcs.Calls "main" f ∨ ∀ v, ¬funcs.HasVertex f v) := by
  obtain ⟨g, hg, hinserted⟩ := insertCallees_some h
  refine ⟨g, hg, ?_⟩
  apply Iff.intro
  · intro hall f hf
    by_cases hempty : ∀ v, ¬funcs.HasVertex f v
    · exact .inr (.inr hempty)
    · obtain ⟨v, hv⟩ := not_forall_not.1 hempty
      obtain ⟨f', hf', hv'⟩ := (hinserted.vertices v).1 ((hall f hf).vertices v hv)
      rcases h.names f f' v hv hv' ▸ hf' with rfl | hcall
      · exact .inl rfl
      · exact .inr (.inl hcall)
  · intro hall f hf
    rcases hall f hf with hmain | hcall | hempty
    · exact ⟨fun v hv => (hinserted.vertices v).2 ⟨f, .inl hmain, hv⟩,
        hinserted.edges f (.inl hmain)⟩
    · exact ⟨fun v hv => (hinserted.vertices v).2 ⟨f, .inr hcall, hv⟩,
        hinserted.edges f (.inr hcall)⟩
    · exact ⟨fun v hv => absurd hv (hempty v), fun s l t he => absurd he.isSome.1 (hempty s)⟩

/-- A function that makes one call. -/
def callRecord (entryNode exitNode call : String) : FuncBBGraphMeta G where
  entryNode := entryNode
  exitNode := exitNode
  bbToLibcMap := []
  bbGraph := .empty
  bbExpandedGraph := .empty
  libcCallGraph := .ofLists [entryNode, exitNode] [(entryNode, call, exitNode)]

theorem callRecord_edge (s t l u l' v : String) :
    (callRecord s t l : FuncBBGraphMeta G).libcCallGraph.Edge u l' v ↔
      u = s ∧ l' = l ∧ v = t := by
  have hInv : (LibcCallgraph.empty : LibcCallgraph G).Inv := .empty
  have hno (u v : String) : (LibcCallgraph.empty : LibcCallgraph G).label u v = none :=
    LibcCallgraph.label_absent (.inl rfl)
  rw [← LibcCallgraph.label_eq_some_iff]
  simp only [callRecord, LibcCallgraph.ofLists, List.foldl_cons, List.foldl_nil]
  rw [((hInv.addVertex s false).addVertex t false).label_addEdge]
  · simp only [(hInv.addVertex s false).label_addVertex, hInv.label_addVertex, hno,
      Option.getD_none]
    split
    next huv => simp only [huv.1, huv.2, Option.some.injEq, true_and, and_true, eq_comm]
    next huv =>
      simp only [reduceCtorEq, false_iff, not_and]
      intro hu _ hv
      exact huv ⟨hu, hv⟩
  · simp only [LibcCallgraph.vertexIdMap_addVertex, true_or, or_true]
  · simp only [LibcCallgraph.vertexIdMap_addVertex, true_or]

/-- The records that are listed. -/
def FuncMap.ofList (records : List (String × FuncBBGraphMeta G)) : FuncMap G :=
  fun f => records.lookup f

theorem FuncMap.graph_ofList (records : List (String × FuncBBGraphMeta G)) (f : String) :
    (FuncMap.ofList records).graph f = .empty ∨
      ∃ m, (f, m) ∈ records ∧ (FuncMap.ofList records).graph f = m.libcCallGraph := by
  rw [FuncMap.graph, FuncMap.get, FuncMap.ofList]
  cases hf : records.lookup f with
  | none => exact .inl rfl
  | some m => exact .inr ⟨m, mem_of_lookup hf, rfl⟩

theorem FuncMap.ofList_disjoint {records : List (String × FuncBBGraphMeta G)}
    (hI : ∀ e ∈ records, e.2.libcCallGraph.Inv)
    (h : ∀ e ∈ records, ∀ e' ∈ records, ∀ v ∈ e.2.libcCallGraph.getVertices,
      v ∈ e'.2.libcCallGraph.getVertices → e.1 = e'.1) :
    (FuncMap.ofList records).Disjoint where
  inv := by
    intro f
    rcases FuncMap.graph_ofList records f with hf | ⟨m, hm, hf⟩
    · rw [hf]
      exact .empty
    · rw [hf]
      exact hI _ hm
  names := by
    intro f f' v hv hv'
    have hmem {f : String} (hv : (FuncMap.ofList records).HasVertex f v) :
        ∃ m, (f, m) ∈ records ∧ v ∈ m.libcCallGraph.getVertices := by
      rw [FuncMap.HasVertex] at hv
      rcases FuncMap.graph_ofList records f with hf | ⟨m, hm, hf⟩
      · rw [hf] at hv
        cases hv
      · rw [hf] at hv
        exact ⟨m, hm, (LibcCallgraph.mem_getVertices (hI _ hm)).2 hv⟩
    obtain ⟨m, hm, hv⟩ := hmem hv
    obtain ⟨m', hm', hv'⟩ := hmem hv'
    exact h _ hm _ hm' v hv hv'

/-- Main calls a function that calls none. -/
def shallowCalls : FuncMap listGraaf := .ofList
  [("main", callRecord "m1" "m2" "user:g"), ("g", callRecord "g1" "g2" "libc:puts")]

theorem shallowCalls_disjoint : shallowCalls.Disjoint := by
  apply FuncMap.ofList_disjoint
  · simp only [List.forall_mem_cons]
    exact ⟨LibcCallgraph.ofLists_inv _ _, LibcCallgraph.ofLists_inv _ _, by simp⟩
  · decide +kernel

theorem shallowCalls_main : shallowCalls.Calls "main" "g" :=
  ⟨"m1", "m2", (callRecord_edge ..).2 ⟨rfl, rfl, rfl⟩⟩

theorem shallowCalls_calls (h : shallowCalls.Calls f f') : f = "main" ∧ f' = "g" := by
  obtain ⟨s, t, he⟩ := h
  rcases FuncMap.graph_ofList _ f with hf | ⟨m, hm, hf⟩
  · rw [shallowCalls, hf] at he
    cases he.isSome.1
  · rw [shallowCalls, hf] at he
    simp only [List.mem_cons, List.not_mem_nil, or_false, Prod.mk.injEq] at hm
    rcases hm with ⟨rfl, rfl⟩ | ⟨rfl, rfl⟩
    · exact ⟨rfl, user_inj ((callRecord_edge ..).1 he).2.1⟩
    · have hfirst := congrArg (fun l => l.toList.head?) ((callRecord_edge ..).1 he).2.1
      simp at hfirst

theorem shallowCalls_covered :
    ∃ finalGraph, insertCallees shallowCalls = some finalGraph ∧
      Covers finalGraph (shallowCalls.graph "g") := by
  obtain ⟨g, hg, hcovers⟩ := insertCallees_covers_iff shallowCalls_disjoint
  refine ⟨g, hg, hcovers.2 ?_ "g" (.single shallowCalls_main)⟩
  intro f hf
  cases hf with
  | refl => exact .inl rfl
  | tail _ hlast =>
    obtain ⟨rfl, rfl⟩ := shallowCalls_calls hlast
    exact .inr (.inl shallowCalls_main)

/-- Main calls a function that calls another one. -/
def deepCalls : FuncMap listGraaf := .ofList
  [("main", callRecord "m1" "m2" "user:g"), ("g", callRecord "g1" "g2" "user:h"),
    ("h", callRecord "h1" "h2" "libc:puts")]

theorem deepCalls_disjoint : deepCalls.Disjoint := by
  apply FuncMap.ofList_disjoint
  · simp only [List.forall_mem_cons]
    exact ⟨LibcCallgraph.ofLists_inv _ _, LibcCallgraph.ofLists_inv _ _,
      LibcCallgraph.ofLists_inv _ _, by simp⟩
  · decide +kernel

theorem deepCalls_not_covered :
    deepCalls.Disjoint ∧ ReflTransGen deepCalls.Calls "main" "h" ∧
      ∃ finalGraph, insertCallees deepCalls = some finalGraph ∧
        ¬Covers finalGraph (deepCalls.graph "h") := by
  have hd := deepCalls_disjoint
  have hg : deepCalls.Calls "main" "g" := ⟨"m1", "m2", (callRecord_edge ..).2 ⟨rfl, rfl, rfl⟩⟩
  have hh : deepCalls.Calls "g" "h" := ⟨"g1", "g2", (callRecord_edge ..).2 ⟨rfl, rfl, rfl⟩⟩
  have hv : deepCalls.HasVertex "h" "h1" :=
    ((callRecord_edge "h1" "h2" "libc:puts" ..).2 ⟨rfl, rfl, rfl⟩).isSome.1
  obtain ⟨g, heq, hinserted⟩ := insertCallees_some hd
  refine ⟨hd, (ReflTransGen.single hg).tail hh, g, heq, fun hcovers => ?_⟩
  obtain ⟨f, hf, hv'⟩ := (hinserted.vertices "h1").1 (hcovers.vertices "h1" hv)
  obtain rfl := hd.names "h" f "h1" hv hv'
  rcases hf with hf | ⟨s, t, he⟩
  · exact absurd hf (by decide)
  · have hl : "user:" ++ "h" = "user:" ++ "g" := ((callRecord_edge ..).1 he).2.1
    exact absurd (user_inj hl) (by decide)

end LibcSandbox

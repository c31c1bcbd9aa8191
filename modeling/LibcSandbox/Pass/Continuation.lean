import LibcSandbox.Library.Machine
import LibcSandbox.Pass.CombineGraphs

namespace LibcSandbox
open Library
set_option autoImplicit true

variable {G : Graaf} {funcs : FuncMap G}

/-- The graph of some function has the edge. -/
def FuncMap.Edge (funcs : FuncMap G) (s l t : String) : Prop := ∃ f, (funcs.graph f).Edge s l t

/-- What can become of main's graph when the graphs of functions that are called are inserted and
"control" edges are added, in whatever order. The edges that are added to `caller` lead to entries
of functions that it calls, if it is not itself the exit of a function that is called. -/
inductive FuncMap.Extends (funcs : FuncMap G) (caller : String) : LibcCallgraph G → Prop
  | main : funcs.Extends caller (funcs.graph "main")
  | insertGraph : funcs.Extends caller g →
      g.insertGraph (funcs.graph f) (funcs.get f).entryNode (funcs.get f).exitNode = some g' →
      funcs.Extends caller g'
  | addEdge : funcs.Extends caller g →
      (u = caller → (∃ f t, funcs.Edge caller ("user:" ++ f) t ∧ v = (funcs.get f).entryNode) ∨
        ∃ s f t, funcs.Edge s ("user:" ++ f) t ∧ caller = (funcs.get f).exitNode) →
      funcs.Extends caller (g.addEdge u v "control")

/-- Such a graph with the vertices of `f` in it. -/
structure FuncMap.AtCall (funcs : FuncMap G) (caller f : String) (g : LibcCallgraph G) : Prop where
  graph : funcs.Extends caller g
  inserted : ∀ v, funcs.HasVertex f v → (g.vertexIdMap v).isSome

/-- Of the neighbours of the caller, the entry of the callee among them, `t` is named first. -/
def FuncMap.NamedFirst (funcs : FuncMap G) (caller f t : String) (g : LibcCallgraph G) : Prop :=
  ∃ rest, (g.addEdge caller (funcs.get f).entryNode "control").getNeighbors caller =
    some (t :: rest)

/-- The order names `t` first, whatever has been inserted by the time of the call. -/
def FuncMap.AlwaysFirst (funcs : FuncMap G) (caller f t : String) : Prop :=
  funcs.HasVertex f (funcs.get f).exitNode ∧
    ∀ g, funcs.AtCall caller f g → funcs.NamedFirst caller f t g

/-- There are graphs for which the order names `t` first. -/
def FuncMap.SometimesFirst (funcs : FuncMap G) (caller f t : String) : Prop :=
  ∃ g, funcs.AtCall caller f g ∧ funcs.NamedFirst caller f t g

/-- No edge with another label is in the way, to the entry or from the exit, and there is a way
back: an edge from the exit to `t` as it is, a call that leads from the one to the other, or a call
with that exit where `t` is named first. -/
structure FuncMap.Returns (funcs : FuncMap G) (inTheWay there : String → String → String → Prop)
    (first : String → String → String → Prop) (s f t : String) : Prop where
  entry : ∀ l, inTheWay s l (funcs.get f).entryNode → l = "control"
  exit : ∀ l, inTheWay (funcs.get f).exitNode l t → l = "control"
  back : there (funcs.get f).exitNode "control" t ∨
    (∃ f' u, there (funcs.get f).exitNode ("user:" ++ f') u ∧ t = (funcs.get f').entryNode) ∨
    ∃ caller f' u, there caller ("user:" ++ f') u ∧
      (funcs.get f).exitNode = (funcs.get f').exitNode ∧ first caller f' t

/-- An edge of main's graph for a call of a function whose entry and exit are in its graph. -/
structure FuncMap.CallEdge (funcs : FuncMap G) (s f t : String) : Prop where
  edge : (funcs.graph "main").Edge s ("user:" ++ f) t
  entry : funcs.HasVertex f (funcs.get f).entryNode
  exit : funcs.HasVertex f (funcs.get f).exitNode

/-- The way into the callee and the way back. -/
def FuncMap.Continues (funcs : FuncMap G) (g : LibcCallgraph G) (s f t : String) : Prop :=
  g.Edge s "control" (funcs.get f).entryNode ∧ g.Edge (funcs.get f).exitNode "control" t

variable {g g' g₁ : LibcCallgraph G}

theorem insertCallee_eq_some (hI : ∀ f, (funcs.graph f).Inv) (h : g.Inv)
    (hs : insertCallee funcs entry g ("user:" ++ f) = some g') :
    ∃ inserted front,
      g.insertGraph (funcs.graph f) (funcs.get f).entryNode (funcs.get f).exitNode =
        some inserted ∧
      Inserted g (funcs.graph f) inserted ∧ funcs.NamedFirst entry f front inserted ∧
      g' = (inserted.addEdge entry (funcs.get f).entryNode "control").addEdge
        (funcs.get f).exitNode front "control" := by
  obtain ⟨g₁, h₁, hg₁⟩ := h.insertGraph (hI f) (funcs.get f).entryNode (funcs.get f).exitNode
  have hg := h₁
  rw [FuncMap.graph] at hg
  rw [insertCallee, if_pos (foundAtStart_user_iff.2 ⟨f, rfl⟩), drop_user] at hs
  simp only [hg, Option.bind_eq_bind, Option.bind_some] at hs
  obtain ⟨neighbors, hneighbors, hs⟩ := Option.bind_eq_some_iff.1 hs
  cases neighbors with
  | nil => cases hs
  | cons front rest =>
    cases hs
    exact ⟨g₁, front, h₁, hg₁, ⟨rest, hneighbors⟩, rfl⟩

theorem insertCallee_skip (hf : ¬∃ f, edge = "user:" ++ f)
    (hs : insertCallee funcs entry g edge = some g') : g' = g := by
  rw [insertCallee, if_neg fun hl => hf (foundAtStart_user_iff.1 hl)] at hs
  exact (Option.some.inj hs).symm

theorem insertCalleesOf_eq_some (hs : insertCalleesOf funcs g entry = some g') :
    ∃ edges, g.getOutgoingEdges entry = some edges ∧
      edges.foldlM (insertCallee funcs entry) g = some g' :=
  Option.bind_eq_some_iff.1 hs

/-- What holds of the graph all through the insertion loop. -/
structure InLoop (funcs : FuncMap G) (g : LibcCallgraph G) : Prop where
  grown : Grown (funcs.graph "main") g
  edges : ∀ u l v, g.Edge u l v → funcs.Edge u l v ∨ l = "control"
  graph : ∀ caller, funcs.Extends caller g

theorem InLoop.main (hI : ∀ f, (funcs.graph f).Inv) : InLoop funcs (funcs.graph "main") :=
  ⟨⟨hI "main", fun _ _ _ he => he⟩, fun _ _ _ he => .inl ⟨"main", he⟩, fun _ => .main⟩

theorem Inserted.edge_cases (h : Inserted g (funcs.graph f) g') (he : g'.Edge u l v) :
    g.Edge u l v ∨ funcs.Edge u l v := by
  rw [← LibcCallgraph.label_eq_some_iff, h.labels, Option.or_eq_some_iff] at he
  rcases he with he | ⟨-, he⟩
  · exact .inl (LibcCallgraph.label_eq_some_iff.1 he)
  · exact .inr ⟨f, LibcCallgraph.label_eq_some_iff.1 he⟩

/-- What a call does in the loop, where some function's graph has the call. -/
structure CallDone (funcs : FuncMap G) (entry f : String) (g g₁ g' : LibcCallgraph G)
    (front : String) : Prop where
  inserted : Inserted g (funcs.graph f) g₁
  atCall : funcs.AtCall entry f g₁
  first : funcs.NamedFirst entry f front g₁
  edges : ∀ u l v, g₁.Edge u l v → funcs.Edge u l v ∨ l = "control"
  next : InLoop funcs g'
  eq : g' = (g₁.addEdge entry (funcs.get f).entryNode "control").addEdge
    (funcs.get f).exitNode front "control"

theorem InLoop.insertCallee (hI : ∀ f, (funcs.graph f).Inv) (h : InLoop funcs g)
    (he : funcs.Edge entry ("user:" ++ f) t)
    (hs : insertCallee funcs entry g ("user:" ++ f) = some g') :
    ∃ g₁ front, CallDone funcs entry f g g₁ g' front := by
  obtain ⟨g₁, front, h₁, hg₁, hfront, heq⟩ := insertCallee_eq_some hI h.grown.inv hs
  have hgraph (caller : String) : funcs.Extends caller g₁ := .insertGraph (h.graph caller) h₁
  have hedges : ∀ u l v, g₁.Edge u l v → funcs.Edge u l v ∨ l = "control" := by
    intro u l v he
    rcases hg₁.edge_cases he with he | he
    · exact h.edges u l v he
    · exact .inl he
  refine ⟨g₁, front, hg₁, ⟨hgraph entry, fun v hv => (hg₁.vertices v).2 (.inr hv)⟩, hfront, hedges,
    ?_, heq⟩
  rw [heq]
  refine ⟨h.grown.trans (hg₁.grown ..), fun u l v he => ?_, fun caller => ?_⟩
  · rcases (hg₁.inv.addEdge _ _ _).edge_addEdge _ _ _ u l v he with he | hl
    · rcases hg₁.inv.edge_addEdge _ _ _ u l v he with he | hl
      · exact hedges u l v he
      · exact .inr hl
    · exact .inr hl
  · refine .addEdge (.addEdge (hgraph caller) fun hu => .inl ?_) fun hu => .inr ?_
    · subst hu
      exact ⟨f, t, he, rfl⟩
    · exact ⟨entry, f, t, he, hu.symm⟩

theorem user_ne_control (f : String) : "user:" ++ f ≠ "control" := by
  intro he
  have hlist := congrArg String.toList he
  rw [String.toList_append] at hlist
  simp at hlist

theorem InLoop.edge_of_mem {edges : List String} (h : InLoop funcs g)
    (hedges : g.getOutgoingEdges entry = some edges) (hf : "user:" ++ f ∈ edges) :
    ∃ t, funcs.Edge entry ("user:" ++ f) t := by
  obtain ⟨hout, -, hmem⟩ := h.grown.inv.outgoing entry
  cases hedges.symm.trans hout
  obtain ⟨⟨l, t⟩, hx, rfl⟩ := List.mem_map.1 hf
  rcases h.edges entry _ t ((hmem _ t).1 hx) with he | hl
  · exact ⟨t, he⟩
  · exact absurd hl (user_ne_control f)

theorem InLoop.step (hI : ∀ f, (funcs.graph f).Inv) (h : InLoop funcs g)
    (hedge : ∀ f, edge = "user:" ++ f → ∃ t, funcs.Edge entry ("user:" ++ f) t)
    (hs : LibcSandbox.insertCallee funcs entry g edge = some g') :
    InLoop funcs g' ∧ Grown g g' := by
  by_cases hf : ∃ f, edge = "user:" ++ f
  · obtain ⟨f, rfl⟩ := hf
    obtain ⟨t, ht⟩ := hedge f rfl
    obtain ⟨g₁, front, hc⟩ := h.insertCallee hI ht hs
    refine ⟨hc.next, ?_⟩
    rw [hc.eq]
    exact hc.inserted.grown ..
  · rw [insertCallee_skip hf hs]
    exact ⟨h, h.grown.inv, fun _ _ _ he => he⟩

theorem InLoop.insertCalleesOf (hI : ∀ f, (funcs.graph f).Inv) (h : InLoop funcs g)
    (hs : LibcSandbox.insertCalleesOf funcs g entry = some g') :
    InLoop funcs g' ∧ Grown g g' := by
  obtain ⟨edges, hedges, hfold⟩ := insertCalleesOf_eq_some hs
  refine foldlM_invariant (I := fun g' => InLoop funcs g' ∧ Grown g g') ?_
    ⟨h, h.grown.inv, fun _ _ _ he => he⟩ hfold
  intro g₁ edge hedge g₂ h₁ hs
  obtain ⟨h₂, hgrown⟩ := h₁.1.step hI
    (fun f hf => h.edge_of_mem hedges (hf ▸ hedge)) hs
  exact ⟨h₂, h₁.2.trans hgrown⟩

/-- A "control" edge of the final graph that main does not have has come about in a call. -/
theorem callDone_of_control (hI : ∀ f, (funcs.graph f).Inv) (hg : insertCallees funcs = some g)
    (he : g.Edge u "control" v) (hmain : ¬(funcs.graph "main").Edge u "control" v) :
    ∃ caller f t g₀ g₁ g₂ front, funcs.Edge caller ("user:" ++ f) t ∧
      CallDone funcs caller f g₀ g₁ g₂ front ∧ ¬g₀.Edge u "control" v ∧
      g₂.Edge u "control" v := by
  obtain ⟨g₁, caller, -, g₂, h₁, hstep, hno, hyes⟩ := foldlM_origin (I := InLoop funcs)
    (Q := fun g => g.Edge u "control" v) (fun g _ _ g' h hs => (h.insertCalleesOf hI hs).1)
    (.main hI) hg he hmain
  obtain ⟨edges, hedges, hfold⟩ := insertCalleesOf_eq_some hstep
  obtain ⟨g₃, edge, hmem, g₄, h₃, hcall, hno, hyes⟩ := foldlM_origin (I := InLoop funcs)
    (Q := fun g => g.Edge u "control" v) (fun g edge hedge g' h hs =>
      (h.step hI (fun f hf => h₁.edge_of_mem hedges (hf ▸ hedge)) hs).1) h₁ hfold hyes hno
  by_cases hf : ∃ f, edge = "user:" ++ f
  · obtain ⟨f, rfl⟩ := hf
    obtain ⟨t, ht⟩ := h₁.edge_of_mem hedges hmem
    obtain ⟨g₅, front, hc⟩ := h₃.insertCallee hI ht hcall
    exact ⟨caller, f, t, g₃, g₅, g₄, front, ht, hc, hno, hyes⟩
  · rw [insertCallee_skip hf hcall] at hyes
    exact absurd hyes hno

/-- One that is continued has nothing in the way, and its way back is there or comes about in a
call. -/
theorem FuncMap.Continues.returns (h : funcs.Continues g s f t) (hI : ∀ f, (funcs.graph f).Inv)
    (hg : insertCallees funcs = some g) :
    funcs.Returns (funcs.graph "main").Edge funcs.Edge funcs.SometimesFirst s f t := by
  obtain ⟨hin, hback⟩ := h
  obtain ⟨g', hg', hmain⟩ := grown_insertCallees_main hI
  cases hg.symm.trans hg'
  refine ⟨fun l hl => (hmain.edges _ _ _ hl).label_eq hin,
    fun l hl => (hmain.edges _ _ _ hl).label_eq hback, ?_⟩
  by_cases hthere : (funcs.graph "main").Edge (funcs.get f).exitNode "control" t
  · exact .inl ⟨"main", hthere⟩
  · obtain ⟨caller, f', u, g₀, g₁, g₂, front, hcall, hc, hno, hyes⟩ :=
      callDone_of_control hI hg hback hthere
    rw [hc.eq] at hyes
    rcases (hc.inserted.inv.addEdge _ _ _).edge_addEdge_cases _ _ _ hyes with he | ⟨-, hexit, rfl⟩
    · rcases hc.inserted.inv.edge_addEdge_cases _ _ _ he with he | ⟨-, hexit, hentry⟩
      · exact .inl ((hc.inserted.edge_cases he).resolve_left hno)
      · exact .inr (.inl ⟨f', u, hexit ▸ hcall, hentry⟩)
    · exact .inr (.inr ⟨caller, f', u, hcall, hexit, g₁, hc.atCall, hc.first⟩)

/-- Between functions whose vertices have different names nothing can be in the way. -/
theorem FuncMap.CallEdge.returns_iff (h : funcs.CallEdge s f t) (hd : funcs.Disjoint)
    (hne : f ≠ "main") :
    funcs.Returns funcs.Edge (funcs.graph "main").Edge funcs.AlwaysFirst s f t ↔
      ∃ caller u, (funcs.graph "main").Edge caller ("user:" ++ f) u ∧
        funcs.AlwaysFirst caller f t := by
  have hexit (hmain : funcs.HasVertex "main" (funcs.get f).exitNode) : False :=
    hne (hd.names f "main" _ h.exit hmain)
  apply Iff.intro
  · intro hr
    rcases hr.back with he | ⟨f', u, he, -⟩ | ⟨caller, f', u, he, hsame, hfirst⟩
    · exact (hexit he.isSome.1).elim
    · exact (hexit he.isSome.1).elim
    · obtain rfl := hd.names f f' _ h.exit (hsame ▸ hfirst.1)
      exact ⟨caller, u, he, hfirst⟩
  · intro hx
    obtain ⟨caller, u, he, hfirst⟩ := hx
    refine ⟨fun l hl => ?_, fun l hl => ?_, .inr (.inr ⟨caller, f, u, he, rfl, hfirst⟩)⟩
    · obtain ⟨f', hl⟩ := hl
      have hs := hd.names f' "main" s hl.isSome.1 h.edge.isSome.1
      exact absurd ((hd.names f f' _ h.entry hl.isSome.2).trans hs) hne
    · obtain ⟨f', hl⟩ := hl
      have ht := hd.names f' "main" t hl.isSome.2 h.edge.isSome.2
      exact absurd ((hd.names f f' _ h.exit hl.isSome.1).trans ht) hne

theorem FuncMap.Extends.grown (hI : ∀ f, (funcs.graph f).Inv) (h : funcs.Extends caller g) :
    Grown (funcs.graph "main") g := by
  induction h with
  | main => exact ⟨hI "main", fun _ _ _ he => he⟩
  | @insertGraph g f g' _ hs ih =>
    obtain ⟨g₁, h₁, hg₁⟩ := ih.inv.insertGraph (hI f) (funcs.get f).entryNode (funcs.get f).exitNode
    cases h₁.symm.trans hs
    exact ih.trans ⟨hg₁.inv, fun _ _ _ => hg₁.edge_of_edge⟩
  | @addEdge g u v _ _ ih =>
    exact ih.trans ⟨ih.inv.addEdge u v _, fun _ _ _ => ih.inv.edge_addEdge_of_edge u v _⟩

end LibcSandbox

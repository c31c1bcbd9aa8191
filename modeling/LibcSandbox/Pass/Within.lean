import LibcSandbox.Pass.BlockGraph

namespace LibcSandbox
set_option autoImplicit true

variable {G : Graaf} {g g' other : LibcCallgraph G} {V V' L L' : String → Prop}

/-- A graph whose vertices and labels are all of some kind. -/
structure LibcCallgraph.Within (g : LibcCallgraph G) (V L : String → Prop) : Prop where
  inv : g.Inv
  vertices : ∀ v, (g.vertexIdMap v).isSome → V v
  labels : ∀ u l v, g.Edge u l v → L l

theorem LibcCallgraph.Within.addVertex (h : g.Within V L) (hs : V s) (b : Bool) :
    (g.addVertex s b).2.Within V L where
  inv := h.inv.addVertex s b
  vertices := by
    intro v hv
    rcases (g.vertexIdMap_addVertex s b v).1 hv with rfl | hv
    · exact hs
    · exact h.vertices v hv
  labels := by
    intro u l v he
    rw [← label_eq_some_iff, h.inv.label_addVertex, label_eq_some_iff] at he
    exact h.labels u l v he

theorem LibcCallgraph.Within.addEdge (h : g.Within V L) (s t : String) (hl : L l) :
    (g.addEdge s t l).Within V L where
  inv := h.inv.addEdge s t l
  vertices := by
    rw [vertexIdMap_addEdge]
    exact h.vertices
  labels := by
    intro u l' v he
    rcases h.inv.edge_addEdge s t l u l' v he with he | rfl
    · exact h.labels u l' v he
    · exact hl

theorem LibcCallgraph.Within.removeEdge (h : g.Within V L) (s t : String) :
    (g.removeEdge s t).Within V L where
  inv := h.inv.removeEdge s t
  vertices := by
    rw [vertexIdMap_removeEdge]
    exact h.vertices
  labels := by
    intro u l v he
    rw [← label_eq_some_iff, h.inv.label_removeEdge] at he
    split at he
    · cases he
    · exact h.labels u l v (label_eq_some_iff.1 he)

theorem LibcCallgraph.Within.combineVertex (h : g.Within V L) (lhs rhs : String) :
    (g.combineVertex lhs rhs).Within V L := by
  by_cases hp : (g.vertexIdMap lhs).isSome ∧ (g.vertexIdMap rhs).isSome
  · obtain ⟨hl, hr⟩ := hp
    refine ⟨h.inv.combineVertex lhs rhs, fun v hv => ?_, fun u l v he => ?_⟩
    · rw [vertexIdMap_combineVertex hl hr] at hv
      by_cases hv' : v = rhs
      · rw [hv', Function.update_self] at hv
        cases hv
      · rw [Function.update_of_ne hv'] at hv
        exact h.vertices v hv
    · obtain ⟨-, -, he | ⟨-, ⟨-, he⟩ | ⟨-, -, he⟩⟩⟩ := (h.inv.edge_combineVertex hl hr u l v).1 he
      · exact h.labels u l v he
      · exact h.labels rhs l v he
      · exact h.labels u l rhs he
  · have habsent : g.vertexIdMap lhs = none ∨ g.vertexIdMap rhs = none := by
      rw [not_and_or, Option.not_isSome_iff_eq_none, Option.not_isSome_iff_eq_none] at hp
      exact hp
    rw [combineVertex_absent habsent]
    exact h

theorem Inserted.within (h : Inserted g other g') (hg : g.Within V L) (ho : other.Within V L) :
    g'.Within V L where
  inv := h.inv
  vertices := by
    intro v hv
    rcases (h.vertices v).1 hv with hv | hv
    · exact hg.vertices v hv
    · exact ho.vertices v hv
  labels := by
    intro u l v he
    rw [← LibcCallgraph.label_eq_some_iff, h.labels, Option.or_eq_some_iff] at he
    rcases he with he | ⟨-, he⟩
    · exact hg.labels u l v (LibcCallgraph.label_eq_some_iff.1 he)
    · exact ho.labels u l v (LibcCallgraph.label_eq_some_iff.1 he)

theorem LibcCallgraph.Within.foldl_combine (h : g.Within V L) (ms : List (String × String)) :
    (ms.foldl combine g).Within V L := by
  induction ms generalizing g with
  | nil => exact h
  | cons m ms ih => exact ih (h.combineVertex m.1 m.2)

theorem LibcCallgraph.Within.expandCalls (h : g.Within V L) {libCalls : List String}
    (hV : ∀ c ∈ libCalls, ∀ k, V (callVertex bbName c k)) (hL : ∀ l ∈ libCalls, L l)
    (counter : Nat) (prevVertex vertexName : String) :
    (expandCalls bbName libCalls counter prevVertex vertexName g).2.2.Within V L := by
  induction libCalls generalizing g counter prevVertex vertexName with
  | nil => exact h
  | cons libCall libCalls ih =>
    rw [List.forall_mem_cons] at hV hL
    exact ih ((h.addVertex (hV.1 counter) false).addEdge _ _ hL.1) hV.2 hL.2 _ _ _

theorem LibcCallgraph.Within.moveNeighbors (h : g.Within V L) (hL : L "control")
    (bbName prevVertex : String) (neighbors : List String) :
    (moveNeighbors bbName prevVertex neighbors g).Within V L := by
  induction neighbors generalizing g with
  | nil => exact h
  | cons vertex neighbors ih => exact ih ((h.removeEdge bbName vertex).addEdge prevVertex vertex hL)

theorem LibcCallgraph.Within.expandBlock {m m' : FuncBBGraphMeta G}
    (h : m.bbExpandedGraph.Within V L) (hV : ∀ c ∈ e.2, ∀ k, V (callVertex e.1 c k))
    (hL : ∀ l ∈ e.2, L l) (hcontrol : L "control") (hm : expandBlock m e = some m') :
    m'.bbExpandedGraph.Within V L := by
  obtain ⟨-, hn, -⟩ := h.inv.outgoing e.1
  rw [LibcSandbox.expandBlock, hn] at hm
  cases hm
  exact (h.expandCalls hV hL 1 e.1 "").moveNeighbors hcontrol _ _ _

theorem expandBBGraph_within {m m' : FuncBBGraphMeta G} (h : m.bbGraph.Within V L)
    (hV : ∀ e ∈ m.bbToLibcMap, ∀ c ∈ e.2, ∀ k, V (callVertex e.1 c k))
    (hL : ∀ e ∈ m.bbToLibcMap, ∀ l ∈ e.2, L l) (hcontrol : L "control")
    (hm : expandBBGraph m = some m') : m'.bbExpandedGraph.Within V L := by
  rw [expandBBGraph] at hm
  generalize hstart : { m with bbExpandedGraph := m.bbGraph } = m₀ at hm
  have h₀ : m₀.bbExpandedGraph.Within V L := hstart ▸ h
  generalize m.bbToLibcMap = es at hV hL hm
  clear hstart
  induction es generalizing m₀ with
  | nil =>
    cases hm
    exact h₀
  | cons e es ih =>
    rw [List.forall_mem_cons] at hV hL
    rw [List.foldlM_cons, Option.bind_eq_bind, Option.bind_eq_some_iff] at hm
    obtain ⟨m₁, hm₁, hm⟩ := hm
    exact ih m₁ (h₀.expandBlock hV.1 hL.1 hcontrol hm₁) hV.2 hL.2 hm

theorem convertBBGraphToLibcCallGraph_within {m m' : FuncBBGraphMeta G}
    (h : m.bbExpandedGraph.Within V L)
    (hm : convertBBGraphToLibcCallGraph m = some (m', ms)) : m'.libcCallGraph.Within V L := by
  obtain ⟨m'', ms', heq, -, hgraph, -⟩ := convertBBGraphToLibcCallGraph_some h.inv
  cases hm.symm.trans heq
  rw [hgraph]
  exact h.foldl_combine _

theorem generateCallGraph_within (r : FileToMapReader) (f : DefinedFunction)
    (hV : ∀ bb ∈ f.blocks, V bb.getName) (hcontrol : L "control") :
    (r.generateCallGraph f : FuncBBGraphMeta G).bbGraph.Within V L := by
  have h := generateCallGraph_bbGraph (G := G) r f
  refine ⟨h.inv, fun v hv => ?_, fun u l v he => ?_⟩
  · obtain ⟨bb, hbb, rfl⟩ := List.mem_map.1 ((h.vertices v).1 hv)
    exact hV bb hbb
  · rw [((h.edges u l v).1 he).1]
    exact hcontrol

end LibcSandbox

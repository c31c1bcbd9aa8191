import LibcSandbox.GraphLib.Quotient
import LibcSandbox.Pass.CombineGraphs

namespace LibcSandbox
set_option autoImplicit true

variable {G : Graaf} {g : LibcCallgraph G} {s s' : Merging G}

theorem mergeRounds_mono (h : mergeRounds kinds rounds s = some s') (hle : rounds ≤ rounds') :
    mergeRounds kinds rounds' s = some s' := by
  induction rounds generalizing rounds' s with
  | zero => cases h
  | succ rounds ih =>
    obtain ⟨rounds', rfl⟩ := Nat.exists_eq_add_one_of_ne_zero (Nat.ne_zero_of_lt hle)
    rw [mergeRounds, Option.bind_eq_bind, Option.bind_eq_some_iff] at h
    obtain ⟨⟨noMergeFound, s₁⟩, h₁, h⟩ := h
    rw [mergeRounds, h₁, Option.bind_eq_bind, Option.bind_some]
    cases noMergeFound with
    | true => exact h
    | false => exact ih h (Nat.le_of_succ_le_succ hle)

theorem mergeRounds_ends (h : g.Inv) (kinds : List EdgeKind) (exitNode : String) :
    ∃ s : Merging G,
      (∀ rounds, g.getVertices.length + 1 ≤ rounds →
        mergeRounds kinds rounds ⟨g, exitNode, []⟩ = some s) ∧
      ∀ e ∈ G.getEdges s.graph.graph, ∀ kind ∈ kinds, kind.holds e.2 = false := by
  obtain ⟨s, ms, hs, hms⟩ := mergedBy_mergeRounds kinds (s := ⟨g, exitNode, []⟩) h
    (Nat.lt_add_one _)
  refine ⟨s, fun rounds hrounds => mergeRounds_mono hs hrounds, ?_⟩
  intro e he kind hk
  obtain ⟨⟨i, j⟩, l⟩ := e
  rw [G.mem_getEdges] at he
  obtain ⟨u, hu⟩ := Option.isSome_iff_exists.1 (hms.inv.ends i j l he).1
  obtain ⟨v, -, hedge⟩ := hms.inv.edge_of_getEdge ((hms.inv.names u i).2 hu) he
  exact mergeRounds_done (s := ⟨g, exitNode, []⟩) h hs kind hk hedge

/-- Both loops end, with nothing left to merge. -/
theorem mergeLoops_end (h : g.Inv) (exitNode : String) :
    (∃ s : Merging G,
      (∀ rounds, g.getVertices.length + 1 ≤ rounds →
        mergeRounds [.control] rounds ⟨g, exitNode, []⟩ = some s) ∧
      ∀ e ∈ G.getEdges s.graph.graph, e.2 ≠ "control") ∧
    ∃ s : Merging G,
      (∀ rounds, g.getVertices.length + 1 ≤ rounds →
        mergeRounds [.control, .user] rounds ⟨g, exitNode, []⟩ = some s) ∧
      ∀ e ∈ G.getEdges s.graph.graph, e.2 ≠ "control" ∧ ∀ f, e.2 ≠ "user:" ++ f := by
  obtain ⟨s₁, hs₁, hnone₁⟩ := mergeRounds_ends h [.control] exitNode
  obtain ⟨s₂, hs₂, hnone₂⟩ := mergeRounds_ends h [.control, .user] exitNode
  refine ⟨⟨s₁, hs₁, fun e he => ?_⟩, s₂, hs₂, fun e he => ⟨?_, ?_⟩⟩
  · exact of_decide_eq_false (hnone₁ e he .control List.mem_cons_self)
  · exact of_decide_eq_false (hnone₂ e he .control List.mem_cons_self)
  · intro f hf
    have huser := hnone₂ e he .user (List.mem_cons_of_mem _ List.mem_cons_self)
    have hcall : isUser e.2 = true := foundAtStart_user_iff.2 ⟨f, hf⟩
    exact Bool.false_ne_true (huser.symm.trans hcall)

theorem chainGraph_ends :
    ∃ s : Merging listGraaf, mergeRounds [.control] 4 ⟨chainGraph, "c", []⟩ = some s ∧
      ∀ e ∈ listGraaf.getEdges s.graph.graph, e.2 ≠ "control" := by
  have hI : chainGraph.Inv := LibcCallgraph.ofLists_inv _ _
  obtain ⟨⟨s, hs, hnone⟩, -⟩ := mergeLoops_end hI "c"
  exact ⟨s, hs 4 (by decide +kernel), hnone⟩

/-- A relation between the states before and after the neighbours of a vertex are merged. -/
structure LoopRelation (R : Merging G → Merging G → Prop) : Prop where
  refl : ∀ s, R s s
  trans : ∀ {s s' s''}, R s s' → R s' s'' → R s s''
  merge : ∀ {s : Merging G} {vertex} (neighbors : List String), s.graph.Inv →
    (s.graph.vertexIdMap vertex).isSome → R s (neighbors.foldl (merge vertex) s)

variable {R : Merging G → Merging G → Prop}

theorem inv_foldl_merge (h : s.graph.Inv) (vertex : String) (neighbors : List String) :
    (neighbors.foldl (merge vertex) s).graph.Inv := by
  induction neighbors generalizing s with
  | nil => exact h
  | cons neighbor neighbors ih =>
    have hmerge : (merge vertex s neighbor).graph.Inv := h.combineVertex vertex neighbor
    exact ih hmerge

theorem LoopRelation.mergeVertex (hR : LoopRelation R) (hI : s.graph.Inv)
    (h : mergeVertex vertex kinds b s = some (b', s')) : s'.graph.Inv ∧ R s s' := by
  induction kinds generalizing b s with
  | nil =>
    cases h
    exact ⟨hI, hR.refl _⟩
  | cons kind kinds ih =>
    rw [LibcSandbox.mergeVertex, Option.bind_eq_bind, Option.bind_eq_some_iff] at h
    obtain ⟨neighbors, hn, h⟩ := h
    split at h
    next hpos =>
      -- A vertex with a neighbour is there.
      obtain ⟨ts, hts, -, hmem⟩ := hI.neighbors kind vertex
      cases hn.symm.trans hts
      obtain ⟨neighbor, hneighbor⟩ := List.exists_mem_of_length_pos hpos
      obtain ⟨l, hedge, -⟩ := (hmem neighbor).1 hneighbor
      obtain ⟨hI', hrest⟩ := ih (inv_foldl_merge hI vertex neighbors) h
      exact ⟨hI', hR.trans (hR.merge neighbors hI hedge.isSome.1) hrest⟩
    next => exact ih hI h

theorem LoopRelation.mergeVertices (hR : LoopRelation R) (hI : s.graph.Inv)
    (h : mergeVertices kinds vertices b s = some (b', s')) : s'.graph.Inv ∧ R s s' := by
  induction vertices generalizing b s with
  | nil =>
    cases h
    exact ⟨hI, hR.refl _⟩
  | cons vertex vertices ih =>
    rw [LibcSandbox.mergeVertices, Option.bind_eq_bind, Option.bind_eq_some_iff] at h
    obtain ⟨⟨b₁, s₁⟩, h₁, h⟩ := h
    obtain ⟨hI₁, hfirst⟩ := hR.mergeVertex hI h₁
    obtain ⟨hI', hrest⟩ := ih hI₁ h
    exact ⟨hI', hR.trans hfirst hrest⟩

/-- What can be said of the merges of one vertex's neighbours can be said of the loop. -/
theorem LoopRelation.mergeRounds (hR : LoopRelation R) (hI : s.graph.Inv)
    (h : mergeRounds kinds rounds s = some s') : R s s' := by
  induction rounds generalizing s with
  | zero => cases h
  | succ rounds ih =>
    rw [LibcSandbox.mergeRounds, Option.bind_eq_bind, Option.bind_eq_some_iff] at h
    obtain ⟨⟨b, s₁⟩, h₁, h⟩ := h
    obtain ⟨hI₁, hfirst⟩ := hR.mergeVertices hI h₁
    cases b with
    | true =>
      cases h
      exact hfirst
    | false => exact hR.trans hfirst (ih hI₁ h)

end LibcSandbox

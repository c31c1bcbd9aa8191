import LibcSandbox.GraphLib.Quotient
import LibcSandbox.Library.Path
import LibcSandbox.Pass.Convert

namespace LibcSandbox
open Library
set_option autoImplicit true

variable {G : Graaf} {g : LibcCallgraph G} {s : LibcCallgraph G × String} {m : String × String}
  {S : String → Prop}

/-- A merge, with the vertex that the entry was merged into. -/
def follow (s : LibcCallgraph G × String) (m : String × String) : LibcCallgraph G × String :=
  (combine s.1 m, if s.2 = m.2 ∧ (s.1.vertexIdMap m.1).isSome then m.1 else s.2)

/-- The second graph has, from its vertex, every word that the first one has from its own. -/
structure KeepsWords (s s' : LibcCallgraph G × String) : Prop where
  entry : (s.1.vertexIdMap s.2).isSome → (s'.1.vertexIdMap s'.2).isSome
  words : ∀ w t, Path s.1.Edge s.2 w t →
    ∃ w' t', Path s'.1.Edge s'.2 w' t' ∧ visible "control" w' = visible "control" w

theorem KeepsWords.refl (s : LibcCallgraph G × String) : KeepsWords s s :=
  ⟨id, fun w t h => ⟨w, t, h, rfl⟩⟩

theorem KeepsWords.trans {s s' s'' : LibcCallgraph G × String} (h : KeepsWords s s')
    (h' : KeepsWords s' s'') : KeepsWords s s'' where
  entry := fun he => h'.entry (h.entry he)
  words := by
    intro w t hw
    obtain ⟨w', t', hw', hv⟩ := h.words w t hw
    obtain ⟨w'', t'', hw'', hv'⟩ := h'.words w' t' hw'
    exact ⟨w'', t'', hw'', hv'.trans hv⟩

/-- No label of a reachable edge gets lost in a merge: the two vertices differ, loops of the second
one have a counterpart, and where both vertices have an edge to or from a third one, the labels are
the same. -/
structure KeepsLabels (s : LibcCallgraph G × String) (m : String × String) : Prop where
  distinct : m.1 = m.2 → ¬Reaches s.1.Edge s.2 m.1
  selfLoop : ∀ l, Reaches s.1.Edge s.2 m.2 → s.1.Edge m.2 l m.2 →
    l = "control" ∨ s.1.Edge m.1 l m.1 ∨ s.1.Edge m.2 l m.1
  outgoing : ∀ l l' t, Reaches s.1.Edge s.2 m.2 → t ≠ m.2 → s.1.Edge m.2 l t →
    s.1.Edge m.1 l' t → l = l' ∨ l = "control" ∧ m.1 = t
  incoming : ∀ l l' u, Reaches s.1.Edge s.2 u → u ≠ m.1 → u ≠ m.2 → s.1.Edge u l m.2 →
    s.1.Edge u l' m.1 → l = l'

/-- The same of a step of the loops, which does nothing once its first vertex is gone. -/
def MergeKeeps (s : LibcCallgraph G × String) (m : String × String) : Prop :=
  (s.1.vertexIdMap m.1).isSome → KeepsLabels s m

/-- What is reachable is there after a merge, under its new name. -/
structure KeepsEdges (s : LibcCallgraph G × String) (m : String × String) : Prop where
  vertices : ∀ u, Reaches s.1.Edge s.2 u → (s.1.vertexIdMap u).isSome →
    ((combine s.1 m).vertexIdMap (rename m u)).isSome
  edges : ∀ u l t, Reaches s.1.Edge s.2 u → s.1.Edge u l t →
    (combine s.1 m).Edge (rename m u) l (rename m t) ∨ l = "control" ∧ rename m u = rename m t

/-- The labels of the edges at some vertices, whichever these are, do not get lost. -/
structure LosesNoLabel (g : LibcCallgraph G) (S : String → Prop) (m : String × String) : Prop where
  distinct : m.1 = m.2 → ¬S m.1
  selfLoop : ∀ l, S m.2 → g.Edge m.2 l m.2 →
    l = "control" ∨ g.Edge m.1 l m.1 ∨ g.Edge m.2 l m.1
  outgoing : ∀ l l' t, S m.2 → t ≠ m.2 → g.Edge m.2 l t → g.Edge m.1 l' t →
    l = l' ∨ l = "control" ∧ m.1 = t
  incoming : ∀ l l' u, S u → u ≠ m.1 → u ≠ m.2 → g.Edge u l m.2 → g.Edge u l' m.1 → l = l'

theorem keepsLabels_iff : KeepsLabels s m ↔ LosesNoLabel s.1 (Reaches s.1.Edge s.2) m :=
  ⟨fun h => ⟨h.distinct, h.selfLoop, h.outgoing, h.incoming⟩,
    fun h => ⟨h.distinct, h.selfLoop, h.outgoing, h.incoming⟩⟩

theorem combine_edge_outgoing (h : g.Inv) (hm : g.Edge m.1 "control" m.2) (hne : m.1 ≠ m.2)
    (ht : t ≠ m.2) (he : g.Edge m.2 l t) (hl : ∀ l', g.Edge m.1 l' t → l = l') :
    (combine g m).Edge m.1 l t := by
  rw [combine, h.edge_combineVertex hm.isSome.1 hm.isSome.2]
  have hplace := LibcCallgraph.edge_or_free hl
  exact ⟨hne, ht, hplace.imp_right fun hno => ⟨hno, .inl ⟨rfl, he⟩⟩⟩

theorem combine_edge_incoming (h : g.Inv) (hm : g.Edge m.1 "control" m.2) (hne : m.1 ≠ m.2)
    (hu : u ≠ m.2) (hu' : u ≠ m.1) (he : g.Edge u l m.2) (hl : ∀ l', g.Edge u l' m.1 → l = l') :
    (combine g m).Edge u l m.1 := by
  rw [combine, h.edge_combineVertex hm.isSome.1 hm.isSome.2]
  have hplace := LibcCallgraph.edge_or_free hl
  exact ⟨hu, hne, hplace.imp_right fun hno => ⟨hno, .inr ⟨hu', rfl, he⟩⟩⟩

theorem LosesNoLabel.vertices (h : LosesNoLabel g S m) (hm : g.Edge m.1 "control" m.2)
    (hS : S u) (hu : (g.vertexIdMap u).isSome) :
    ((combine g m).vertexIdMap (rename m u)).isSome := by
  rw [combine, LibcCallgraph.vertexIdMap_combineVertex hm.isSome.1 hm.isSome.2]
  by_cases he : u = m.2
  · subst he
    have hne : m.1 ≠ m.2 := fun he => h.distinct he (he ▸ hS)
    rw [rename_self, Function.update_of_ne hne]
    exact hm.isSome.1
  · rw [rename_of_ne he, Function.update_of_ne he]
    exact hu

theorem LosesNoLabel.edges (hI : g.Inv) (h : LosesNoLabel g S m) (hm : g.Edge m.1 "control" m.2)
    (hu : S u) (ht : S t) (he : g.Edge u l t) :
    (combine g m).Edge (rename m u) l (rename m t) ∨
      l = "control" ∧ rename m u = rename m t := by
  have hd (v : String) (hv : S v) (hv' : v = m.2) : m.1 ≠ m.2 :=
    fun hd => h.distinct hd (hd.trans hv'.symm ▸ hv)
  by_cases hum : u = m.2
  · have hne := hd u hu hum
    subst hum
    rw [rename_self]
    by_cases htm : t = m.2
    · -- A loop of the vertex that goes.
      subst htm
      rw [rename_self]
      rcases h.selfLoop l hu he with hl | hl | hl
      · exact .inr ⟨hl, rfl⟩
      · rw [combine, hI.edge_combineVertex hm.isSome.1 hm.isSome.2]
        exact .inl ⟨hne, hne, .inl hl⟩
      · by_cases hc : l = "control"
        · exact .inr ⟨hc, rfl⟩
        · left
          apply combine_edge_outgoing hI hm hne hne hl
          intro l' hl'
          exact (h.outgoing l l' m.1 hu hne hl hl').resolve_right fun hx => hc hx.1
    · rw [rename_of_ne htm]
      by_cases hx : l = "control" ∧ m.1 = t
      · exact .inr hx
      · left
        apply combine_edge_outgoing hI hm hne htm he
        intro l' hl'
        exact (h.outgoing l l' t hu htm he hl').resolve_right hx
  · rw [rename_of_ne hum]
    by_cases htm : t = m.2
    · have hne := hd t ht htm
      subst htm
      rw [rename_self]
      by_cases hu' : u = m.1
      · -- The edge along which the vertices are merged.
        subst hu'
        exact .inr ⟨he.label_eq hm, rfl⟩
      · left
        apply combine_edge_incoming hI hm hne hum hu' he
        intro l' hl'
        exact h.incoming l l' u hu hu' hum he hl'
    · rw [rename_of_ne htm, combine, hI.edge_combineVertex hm.isSome.1 hm.isSome.2]
      exact .inl ⟨hum, htm, .inl he⟩

/-- Exactly the merges that lose no label keep what is reachable. -/
theorem keepsEdges_iff (hI : s.1.Inv) (hm : s.1.Edge m.1 "control" m.2) :
    KeepsEdges s m ↔ KeepsLabels s m := by
  have hcomb := hI.edge_combineVertex hm.isSome.1 hm.isSome.2
  apply Iff.intro
  · intro h
    constructor
    · intro hd hr
      have hp := h.vertices m.1 hr hm.isSome.1
      rw [combine, LibcCallgraph.vertexIdMap_combineVertex hm.isSome.1 hm.isSome.2] at hp
      rw [rename, if_pos hd, hd, Function.update_self] at hp
      cases hp
    · intro l hr he
      rcases h.edges m.2 l m.2 hr he with hl | hl
      · rw [rename_self, combine, hcomb] at hl
        rcases hl.2.2 with hl | ⟨-, hl | hl⟩
        · exact .inr (.inl hl)
        · exact .inr (.inr hl.2)
        · exact absurd rfl hl.1
      · exact .inl hl.1
    · intro l l' t hr ht he he'
      rcases h.edges m.2 l t hr he with hl | hl
      · rw [rename_self, rename_of_ne ht, combine, hcomb] at hl
        rcases hl.2.2 with hl | hl
        · exact .inl (hl.label_eq he')
        · exact absurd he' (hl.1 l')
      · rw [rename_self, rename_of_ne ht] at hl
        exact .inr hl
    · intro l l' u hr hu hu' he he'
      rcases h.edges u l m.2 hr he with hl | hl
      · rw [rename_self, rename_of_ne hu', combine, hcomb] at hl
        rcases hl.2.2 with hl | hl
        · exact hl.label_eq he'
        · exact absurd he' (hl.1 l')
      · rw [rename_self, rename_of_ne hu'] at hl
        exact absurd hl.2 hu
  · intro h
    have h := keepsLabels_iff.1 h
    exact ⟨fun u hr hu => h.vertices hm hr hu, fun u l t hr he => h.edges hI hm hr (hr.snoc he) he⟩

theorem follow_absent (h : s.1.vertexIdMap m.1 = none) : follow s m = s := by
  rw [follow, combine, LibcCallgraph.combineVertex_absent (.inl h), h]
  simp only [Option.isSome_none, Bool.false_eq_true, and_false, ↓reduceIte]

theorem follow_present (h : (s.1.vertexIdMap m.1).isSome) :
    follow s m = (combine s.1 m, rename m s.2) := by
  simp only [follow, rename, h, and_true]

theorem follow_cases (s : LibcCallgraph G × String) (m : String × String) :
    (s.1.vertexIdMap m.1).isSome ∧ follow s m = (combine s.1 m, rename m s.2) ∨
      ¬(s.1.vertexIdMap m.1).isSome ∧ follow s m = s := by
  by_cases hl : (s.1.vertexIdMap m.1).isSome
  · exact .inl ⟨hl, follow_present hl⟩
  · exact .inr ⟨hl, follow_absent (Option.not_isSome_iff_eq_none.1 hl)⟩

theorem follow_inv (h : s.1.Inv) (m : String × String) : (follow s m).1.Inv :=
  h.combineVertex m.1 m.2

theorem everyStep_follow {ms : List (String × String)}
    (hm : EveryStep combine (MergesEdge kinds) s.1 ms) :
    EveryStep follow (fun s m => MergesEdge kinds s.1 m) s ms :=
  EveryStep.comap Prod.fst (fun _ _ => rfl) hm

theorem follow_keepsWords (hI : s.1.Inv) (hm : MergesEdge [.control] s.1 m) (h : MergeKeeps s m) :
    KeepsWords s (follow s m) := by
  rcases follow_cases s m with ⟨hl, hf⟩ | ⟨-, hf⟩
  · obtain ⟨hv, he⟩ := (keepsEdges_iff hI (hm.control hl)).2 (h hl)
    rw [hf]
    constructor
    · exact hv s.2 (.refl s.2)
    · intro w t hw
      obtain ⟨w', hw', hvis⟩ := hw.visible_map fun u l t hr hl => he u l t hr hl
      exact ⟨w', _, hw', hvis⟩
  · rw [hf]
    exact .refl s

theorem follow_everyState_keepsWords (hI : s.1.Inv) {ms : List (String × String)}
    (hm : EveryStep combine (MergesEdge [.control]) s.1 ms) (h : EveryStep follow MergeKeeps s ms) :
    EveryState follow (KeepsWords s) s ms := by
  have hrun := ((everyStep_follow hm).and h).invariant (I := fun s' => s'.1.Inv ∧ KeepsWords s s')
    (Q := fun _ _ => True)
    ⟨hI, .refl s⟩ fun s' m hs' hm =>
      ⟨⟨follow_inv hs'.1 m, hs'.2.trans (follow_keepsWords hs'.1 hm.1 hm.2)⟩, trivial⟩
  exact hrun.1.mono fun s' hs' => hs'.2

theorem foldl_follow_fst (ms : List (String × String)) (s : LibcCallgraph G × String) :
    (ms.foldl follow s).1 = ms.foldl combine s.1 := by
  induction ms generalizing s with
  | nil => rfl
  | cons m ms ih => exact ih (follow s m)

/-- If no merge loses a label, then no order of calls that a function can make gets lost. -/
theorem convertBBGraphToLibcCallGraph_keepsWords (m : FuncBBGraphMeta G) (h : m.bbGraph.Inv) :
    ∃ m₁ m₂ ms, expandBBGraph m = some m₁ ∧ convertBBGraphToLibcCallGraph m₁ = some (m₂, ms) ∧
      (ms.foldl follow (m₁.bbExpandedGraph, m₁.entryNode)).1 = m₂.libcCallGraph ∧
      (EveryStep follow MergeKeeps (m₁.bbExpandedGraph, m₁.entryNode) ms →
        EveryState follow (KeepsWords (m₁.bbExpandedGraph, m₁.entryNode))
          (m₁.bbExpandedGraph, m₁.entryNode) ms ∧
        KeepsWords (m₁.bbExpandedGraph, m₁.entryNode)
          (ms.foldl follow (m₁.bbExpandedGraph, m₁.entryNode))) := by
  obtain ⟨m₁, h₁, hI, -⟩ := expandBBGraph_some h
  obtain ⟨m₂, ms, h₂, -, hgraph, hmerges⟩ := convertBBGraphToLibcCallGraph_some hI
  refine ⟨m₁, m₂, ms, h₁, h₂, (foldl_follow_fst ms _).trans hgraph.symm, ?_⟩
  intro hkeep
  have hrun := follow_everyState_keepsWords (s := (m₁.bbExpandedGraph, m₁.entryNode)) hI hmerges
    hkeep
  exact ⟨hrun, hrun.last⟩

/-- The record of a function with the blocks, control edges and calls listed. -/
def functionRecord (entryNode exitNode : String) (blocks : List String)
    (edges : List (String × String)) (calls : List (String × List String)) :
    FuncBBGraphMeta listGraaf where
  entryNode := entryNode
  exitNode := exitNode
  bbToLibcMap := calls
  bbGraph := .ofLists blocks (edges.map fun e => (e.1, "control", e.2))
  bbExpandedGraph := .empty
  libcCallGraph := .empty

/-- A block with a call, and a block after it. -/
def straightRecord : FuncBBGraphMeta listGraaf :=
  functionRecord "A" "B" ["A", "B"] [("A", "B")] [("A", ["libc:puts"])]

theorem straightRecord_converted :
    (expandBBGraph straightRecord).bind (fun m => (convertBBGraphToLibcCallGraph m).map fun r =>
      (m.bbExpandedGraph.edges, r.2)) =
      some ([("A-libc_1", "control", "B"), ("A", "libc:puts", "A-libc_1")],
        [("A-libc_1", "B")]) := by
  decide +kernel

theorem straight_losesNoLabel {g : LibcCallgraph G}
    (he : ∀ u l v, g.Edge u l v ↔
      (u, l, v) ∈ [("A-libc_1", "control", "B"), ("A", "libc:puts", "A-libc_1")])
    (S : String → Prop) : LosesNoLabel g S ("A-libc_1", "B") := by
  constructor
  · simp
  · simp [he]
  · simp [he]
  · intro l l' u _ hu _ hl
    simp only [he, List.mem_cons, Prod.mk.injEq, List.not_mem_nil, or_false] at hl
    rcases hl with hl | hl
    · exact absurd hl.1 hu
    · simp at hl

theorem straightRecord_keepsWords :
    ∃ m₁ m₂ ms, expandBBGraph straightRecord = some m₁ ∧
      convertBBGraphToLibcCallGraph m₁ = some (m₂, ms) ∧
      KeepsWords (m₁.bbExpandedGraph, m₁.entryNode)
        (ms.foldl follow (m₁.bbExpandedGraph, m₁.entryNode)) := by
  obtain ⟨m₁, m₂, ms, h₁, h₂, -, hkeep⟩ :=
    convertBBGraphToLibcCallGraph_keepsWords straightRecord (LibcCallgraph.ofLists_inv _ _)
  refine ⟨m₁, m₂, ms, h₁, h₂, (hkeep ?_).2⟩
  obtain ⟨m₁', h₁', hI, -⟩ :=
    expandBBGraph_some (m := straightRecord) (LibcCallgraph.ofLists_inv _ _)
  cases h₁.symm.trans h₁'
  have hconv := straightRecord_converted
  rw [h₁, Option.bind_some, h₂, Option.map_some, Option.some.injEq, Prod.mk.injEq] at hconv
  obtain ⟨hedges, rfl⟩ := hconv
  have he := hI.edge_of_edges hedges
  exact ⟨fun _ => keepsLabels_iff.2 (straight_losesNoLabel he _), trivial⟩

/-- A branch with a call on either side. -/
def ifElseRecord : FuncBBGraphMeta listGraaf :=
  functionRecord "A" "D" ["A", "B", "C", "D"] [("A", "B"), ("A", "C"), ("B", "D"), ("C", "D")]
    [("B", ["libc:printf"]), ("C", ["libc:fprintf"])]

theorem ifElseRecord_expanded :
    ((expandBBGraph ifElseRecord).map fun m => (m.entryNode, m.bbExpandedGraph.edges)) =
      some ("A", [("C-libc_1", "control", "D"), ("C", "libc:fprintf", "C-libc_1"),
        ("B-libc_1", "control", "D"), ("B", "libc:printf", "B-libc_1"), ("A", "control", "C"),
        ("A", "control", "B")]) := by
  decide +kernel

theorem ifElseRecord_converted :
    (((expandBBGraph ifElseRecord).bind convertBBGraphToLibcCallGraph).map fun m =>
      (m.1.libcCallGraph.edges, m.2)) = some ([("A", "libc:fprintf", "C-libc_1")],
        [("A", "C"), ("A", "B"), ("B-libc_1", "D"), ("C-libc_1", "B-libc_1")]) := by
  decide +kernel

/-- The two branches meet again, and the call of one of them is lost. -/
theorem ifElseRecord_loses_word :
    ∃ m₁ m₂ ms, expandBBGraph ifElseRecord = some m₁ ∧
      convertBBGraphToLibcCallGraph m₁ = some (m₂, ms) ∧
      (ms.foldl follow (m₁.bbExpandedGraph, m₁.entryNode)).2 = m₁.entryNode ∧
      Path m₁.bbExpandedGraph.Edge m₁.entryNode ["control", "libc:printf"] "B-libc_1" ∧
      ¬∃ w t, Path m₂.libcCallGraph.Edge m₁.entryNode w t ∧
        visible "control" w = visible "control" ["control", "libc:printf"] := by
  obtain ⟨m₁, h₁, hI₁, -⟩ := expandBBGraph_some (m := ifElseRecord) (LibcCallgraph.ofLists_inv _ _)
  obtain ⟨m₂, ms, h₂, hI₂, -, -⟩ := convertBBGraphToLibcCallGraph_some hI₁
  have hexp := ifElseRecord_expanded
  have hconv := ifElseRecord_converted
  rw [h₁, Option.map_some, Option.some.injEq, Prod.mk.injEq] at hexp
  rw [h₁, Option.bind_some, h₂, Option.map_some, Option.some.injEq, Prod.mk.injEq] at hconv
  obtain ⟨hentry, hedges⟩ := hexp
  obtain ⟨hedges', rfl⟩ := hconv
  have he := hI₁.edge_of_edges hedges
  have he' := hI₂.edge_of_edges hedges'
  refine ⟨m₁, m₂, _, h₁, h₂, ?_, ?_, ?_⟩
  · rw [hentry]
    simp [follow]
  · rw [hentry]
    apply Path.cons ((he "A" "control" "B").2 (by simp))
    apply Path.cons ((he "B" "libc:printf" "B-libc_1").2 (by simp))
    exact .nil _
  · intro hx
    obtain ⟨w, t, hw, hv⟩ := hx
    rw [hentry] at hw
    cases hw with
    | nil => simp [visible] at hv
    | cons hfirst _ =>
      rw [he'] at hfirst
      simp at hfirst
      obtain ⟨rfl, rfl⟩ := hfirst
      simp [visible] at hv

end LibcSandbox

import LibcSandbox.Pass.Precision

namespace LibcSandbox
open Library
set_option autoImplicit true

variable {G : Graaf} {s : LibcCallgraph G × String} {m : String × String} {w : List String}

/-- A merge keeps a word: the edges that stay are enough for it. -/
def KeepsWord (w : List String) (s : LibcCallgraph G × String) (m : String × String) : Prop :=
  (s.1.vertexIdMap m.1).isSome → Shows (Usable s.1 m) "control" s.2 w

theorem follow_shows_iff (hI : s.1.Inv) (hm : MergesEdge [.control] s.1 m) :
    Shows (follow s m).1.Edge "control" (follow s m).2 w ↔
      Shows s.1.Edge "control" s.2 w ∧ KeepsWord w s m := by
  rcases follow_cases s m with ⟨hl, hf⟩ | ⟨hl, hf⟩
  · have hedge := hm.control hl
    rw [hf]
    apply (combine_shows_iff hI hedge).trans
    apply Iff.intro
    · intro h
      exact ⟨h.mono fun u l v he => he.edge hedge, fun _ => h⟩
    · intro h
      exact h.2 hl
  · rw [hf]
    exact (and_iff_left fun hx => absurd hx hl).symm

/-- The words after a run of merges are those that every merge keeps. -/
theorem foldl_follow_shows_iff (hI : s.1.Inv) {ms : List (String × String)}
    (hm : EveryStep combine (MergesEdge [.control]) s.1 ms) :
    Shows (ms.foldl follow s).1.Edge "control" (ms.foldl follow s).2 w ↔
      Shows s.1.Edge "control" s.2 w ∧ EveryStep follow (KeepsWord w) s ms :=
  foldl_iff_of (I := fun s => Shows s.1.Edge "control" s.2 w) (J := fun s => s.1.Inv)
    (fun _ m hI _ => follow_inv hI m) (fun _ _ hI hm => follow_shows_iff hI hm) hI
    (everyStep_follow hm)

/-- The expanded graph of a function, with the vertex where it begins. -/
def FuncBBGraphMeta.expanded (m : FuncBBGraphMeta G) : LibcCallgraph G × String :=
  (m.bbExpandedGraph, m.entryNode)

theorem convertBBGraphToLibcCallGraph_words (m : FuncBBGraphMeta G) (h : m.bbExpandedGraph.Inv) :
    ∃ m' ms, convertBBGraphToLibcCallGraph m = some (m', ms) ∧
      (ms.foldl follow m.expanded).1 = m'.libcCallGraph ∧
      EveryStep combine (MergesEdge [.control]) m.bbExpandedGraph ms ∧
      ∀ w, (∃ t, Path (ms.foldl follow m.expanded).1.Edge (ms.foldl follow m.expanded).2 w t) ↔
        Shows m.bbExpandedGraph.Edge "control" m.entryNode w ∧
          EveryStep follow (KeepsWord w) m.expanded ms := by
  obtain ⟨m', ms, hm', -, hgraph, hmerges⟩ := convertBBGraphToLibcCallGraph_some h
  have hlast : (ms.foldl follow m.expanded).1 = m'.libcCallGraph :=
    (foldl_follow_fst ms _).trans hgraph.symm
  refine ⟨m', ms, hm', hlast, hmerges, ?_⟩
  intro w
  have hloud : ∀ u l v, (ms.foldl follow m.expanded).1.Edge u l v → l ≠ "control" := by
    intro u l v he
    exact convertBBGraphToLibcCallGraph_done h hm' (hlast ▸ he)
  rw [← shows_iff_path hloud]
  exact foldl_follow_shows_iff (s := m.expanded) h hmerges

/-- No label gets lost of an edge that a walk from the entry can use, where a walk may take control
edges either way. -/
def MergeLosesNoLabel (s : LibcCallgraph G × String) (m : String × String) : Prop :=
  (s.1.vertexIdMap m.1).isSome → LosesNoLabel s.1 (Reaches (Both s.1.Edge "control") s.2) m

theorem MergeLosesNoLabel.keepsWord (h : MergeLosesNoLabel s m) (hI : s.1.Inv)
    (hm : MergesEdge [.control] s.1 m) (hw : Shows s.1.Edge "control" s.2 w) :
    KeepsWord w s m := by
  intro hl
  have hedge := hm.control hl
  rw [← combine_shows_iff hI hedge]
  apply hw.map
  intro u l t hr he
  exact (h hl).edges hI hedge hr (hr.snoc (.inl he)) he

theorem everyStep_keepsWord (hI : s.1.Inv) {ms : List (String × String)}
    (hm : EveryStep combine (MergesEdge [.control]) s.1 ms)
    (h : EveryStep follow MergeLosesNoLabel s ms) (hw : Shows s.1.Edge "control" s.2 w) :
    EveryStep follow (KeepsWord w) s ms := by
  have hrun := ((everyStep_follow hm).and h).invariant (Q := KeepsWord w)
    (I := fun s => s.1.Inv ∧ Shows s.1.Edge "control" s.2 w) ⟨hI, hw⟩ fun s m hs hm => by
      have hkeep := hm.2.keepsWord hs.1 hm.1 hs.2
      exact ⟨⟨follow_inv hs.1 m, (follow_shows_iff hs.1 hm.1).2 ⟨hs.2, hkeep⟩⟩, hkeep⟩
  exact hrun.2

variable {G₁ G₂ : Graaf}

/-- The same orders of calls can be made in two graphs, each from its own vertex. -/
def SameWords (s₁ : LibcCallgraph G₁ × String) (s₂ : LibcCallgraph G₂ × String) : Prop :=
  ∀ w, (∃ t, Path s₁.1.Edge s₁.2 w t) ↔ ∃ t, Path s₂.1.Edge s₂.2 w t

/-- Two orders of going through one graph leave the same words, if no merge of either loses a
label. -/
theorem convertBBGraphToLibcCallGraph_order (m₁ : FuncBBGraphMeta G₁) (m₂ : FuncBBGraphMeta G₂)
    (h₁ : m₁.bbExpandedGraph.Inv) (h₂ : m₂.bbExpandedGraph.Inv)
    (hentry : m₁.entryNode = m₂.entryNode)
    (hedges : ∀ u l v, m₁.bbExpandedGraph.Edge u l v ↔ m₂.bbExpandedGraph.Edge u l v) :
    ∃ m₁' ms₁ m₂' ms₂, convertBBGraphToLibcCallGraph m₁ = some (m₁', ms₁) ∧
      convertBBGraphToLibcCallGraph m₂ = some (m₂', ms₂) ∧
      (ms₁.foldl follow m₁.expanded).1 = m₁'.libcCallGraph ∧
      (ms₂.foldl follow m₂.expanded).1 = m₂'.libcCallGraph ∧
      (EveryStep follow MergeLosesNoLabel m₁.expanded ms₁ →
        EveryStep follow MergeLosesNoLabel m₂.expanded ms₂ →
        SameWords (ms₁.foldl follow m₁.expanded) (ms₂.foldl follow m₂.expanded)) := by
  obtain ⟨m₁', ms₁, hm₁, hlast₁, hmerges₁, hwords₁⟩ := convertBBGraphToLibcCallGraph_words m₁ h₁
  obtain ⟨m₂', ms₂, hm₂, hlast₂, hmerges₂, hwords₂⟩ := convertBBGraphToLibcCallGraph_words m₂ h₂
  refine ⟨m₁', ms₁, m₂', ms₂, hm₁, hm₂, hlast₁, hlast₂, ?_⟩
  intro hkeep₁ hkeep₂ w
  have hshows : Shows m₁.bbExpandedGraph.Edge "control" m₁.entryNode w ↔
      Shows m₂.bbExpandedGraph.Edge "control" m₂.entryNode w := by
    rw [hentry]
    exact ⟨fun h => h.mono fun u l v => (hedges u l v).1,
      fun h => h.mono fun u l v => (hedges u l v).2⟩
  calc (∃ t, Path (ms₁.foldl follow m₁.expanded).1.Edge (ms₁.foldl follow m₁.expanded).2 w t)
    _ ↔ Shows m₁.bbExpandedGraph.Edge "control" m₁.entryNode w :=
      (hwords₁ w).trans (and_iff_left_of_imp (everyStep_keepsWord h₁ hmerges₁ hkeep₁))
    _ ↔ Shows m₂.bbExpandedGraph.Edge "control" m₂.entryNode w := hshows
    _ ↔ ∃ t, Path (ms₂.foldl follow m₂.expanded).1.Edge (ms₂.foldl follow m₂.expanded).2 w t :=
      ((hwords₂ w).trans (and_iff_left_of_imp (everyStep_keepsWord h₂ hmerges₂ hkeep₂))).symm

/-- The same lists the other way round. -/
def Graaf.reversed (G : Graaf) : Graaf :=
  { G with
    getVertices := fun g => (G.getVertices g).reverse
    getEdges := fun g => (G.getEdges g).reverse
    getNeighbors := fun g i => (G.getNeighbors g i).reverse
    mem_getVertices := fun g i s => List.mem_reverse.trans (G.mem_getVertices g i s)
    nodup_getVertices := fun g => List.nodup_reverse.2 (G.nodup_getVertices g)
    mem_getEdges := fun g i j l => List.mem_reverse.trans (G.mem_getEdges g i j l)
    mem_getNeighbors := fun g i j => List.mem_reverse.trans (G.mem_getNeighbors g i j)
    nodup_getNeighbors := fun g i => List.nodup_reverse.2 (G.nodup_getNeighbors g i) }

def LibcCallgraph.reversed (g : LibcCallgraph G) : LibcCallgraph G.reversed where
  graph := g.graph
  vertexIdMap := g.vertexIdMap
  funcCallMap := g.funcCallMap

theorem LibcCallgraph.Inv.reversed {g : LibcCallgraph G} (h : g.Inv) : g.reversed.Inv :=
  ⟨h.names, h.calls, h.ends⟩

def FuncBBGraphMeta.reversed (m : FuncBBGraphMeta G) : FuncBBGraphMeta G.reversed where
  entryNode := m.entryNode
  exitNode := m.exitNode
  bbToLibcMap := m.bbToLibcMap
  bbGraph := m.bbGraph.reversed
  bbExpandedGraph := m.bbExpandedGraph.reversed
  libcCallGraph := m.libcCallGraph.reversed

theorem straightRecord_reversed :
    (expandBBGraph straightRecord).bind (fun m =>
      (convertBBGraphToLibcCallGraph m.reversed).map fun r => r.2) = some [("A-libc_1", "B")] := by
  decide +kernel

theorem straightRecord_order :
    ∃ m m₁ ms₁ m₂ ms₂, expandBBGraph straightRecord = some m ∧
      convertBBGraphToLibcCallGraph m = some (m₁, ms₁) ∧
      convertBBGraphToLibcCallGraph m.reversed = some (m₂, ms₂) ∧
      SameWords (ms₁.foldl follow m.expanded) (ms₂.foldl follow m.reversed.expanded) := by
  obtain ⟨m, h, hI, -⟩ := expandBBGraph_some (m := straightRecord) (LibcCallgraph.ofLists_inv _ _)
  obtain ⟨m₁, ms₁, m₂, ms₂, h₁, h₂, -, -, hsame⟩ :=
    convertBBGraphToLibcCallGraph_order m m.reversed hI hI.reversed rfl fun _ _ _ => Iff.rfl
  have hconv := straightRecord_converted
  have hrev := straightRecord_reversed
  rw [h, Option.bind_some, h₁, Option.map_some, Option.some.injEq, Prod.mk.injEq] at hconv
  rw [h, Option.bind_some, h₂, Option.map_some, Option.some.injEq] at hrev
  obtain ⟨hedges, rfl⟩ := hconv
  cases hrev
  have he := hI.edge_of_edges hedges
  exact ⟨m, m₁, _, m₂, _, h, h₁, h₂,
    hsame ⟨fun _ => straight_losesNoLabel he _, trivial⟩
      ⟨fun _ => straight_losesNoLabel (g := m.reversed.bbExpandedGraph) he _, trivial⟩⟩

theorem ifElseRecord_reversed :
    ((expandBBGraph ifElseRecord).bind fun m =>
      (convertBBGraphToLibcCallGraph m.reversed).map fun r => (r.1.libcCallGraph.edges, r.2)) =
      some ([("A", "libc:printf", "B-libc_1")],
        [("C-libc_1", "D"), ("B-libc_1", "C-libc_1"), ("A", "B"), ("A", "C")]) := by
  decide +kernel

/-- Of the calls in the two branches one order keeps the first and the other the second. -/
theorem ifElseRecord_order :
    ∃ m m₁ ms₁ m₂ ms₂, expandBBGraph ifElseRecord = some m ∧
      convertBBGraphToLibcCallGraph m = some (m₁, ms₁) ∧
      convertBBGraphToLibcCallGraph m.reversed = some (m₂, ms₂) ∧
      (ms₁.foldl follow m.expanded).1 = m₁.libcCallGraph ∧
      (ms₂.foldl follow m.reversed.expanded).1 = m₂.libcCallGraph ∧
      ¬SameWords (ms₁.foldl follow m.expanded) (ms₂.foldl follow m.reversed.expanded) := by
  obtain ⟨m, h, hI, -⟩ := expandBBGraph_some (m := ifElseRecord) (LibcCallgraph.ofLists_inv _ _)
  obtain ⟨m₁, ms₁, h₁, hI₁, hgraph₁, -⟩ := convertBBGraphToLibcCallGraph_some hI
  obtain ⟨m₂, ms₂, h₂, hI₂, hgraph₂, -⟩ := convertBBGraphToLibcCallGraph_some (m := m.reversed)
    hI.reversed
  have hexp := ifElseRecord_expanded
  have hconv := ifElseRecord_converted
  have hrev := ifElseRecord_reversed
  rw [h, Option.map_some, Option.some.injEq, Prod.mk.injEq] at hexp
  rw [h, Option.bind_some, h₁, Option.map_some, Option.some.injEq, Prod.mk.injEq] at hconv
  rw [h, Option.bind_some, h₂, Option.map_some, Option.some.injEq, Prod.mk.injEq] at hrev
  obtain ⟨hentry, -⟩ := hexp
  obtain ⟨hedges₁, rfl⟩ := hconv
  obtain ⟨hedges₂, rfl⟩ := hrev
  have hlast₁ := (foldl_follow_fst _ m.expanded).trans hgraph₁.symm
  have hlast₂ := (foldl_follow_fst _ m.reversed.expanded).trans hgraph₂.symm
  refine ⟨m, m₁, _, m₂, _, h, h₁, h₂, hlast₁, hlast₂, ?_⟩
  intro hsame
  have hend₁ : (List.foldl follow m.expanded
      [("A", "C"), ("A", "B"), ("B-libc_1", "D"), ("C-libc_1", "B-libc_1")]).2 = "A" := by
    simp [follow, FuncBBGraphMeta.expanded, hentry]
  have hend₂ : (List.foldl follow m.reversed.expanded
      [("C-libc_1", "D"), ("B-libc_1", "C-libc_1"), ("A", "B"), ("A", "C")]).2 = "A" := by
    simp [follow, FuncBBGraphMeta.expanded, FuncBBGraphMeta.reversed, hentry]
  have hedge : m₁.libcCallGraph.Edge "A" "libc:fprintf" "C-libc_1" := by
    rw [hI₁.edge_of_edges hedges₁]
    exact List.mem_cons_self
  have hword := hsame ["libc:fprintf"]
  rw [hlast₁, hlast₂, hend₁, hend₂] at hword
  obtain ⟨t, hw⟩ := hword.1 ⟨"C-libc_1", .cons hedge (.nil _)⟩
  cases hw with
  | cons hfirst _ =>
    rw [hI₂.edge_of_edges hedges₂] at hfirst
    simp at hfirst

end LibcSandbox

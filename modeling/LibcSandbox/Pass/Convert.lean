import LibcSandbox.GraphLib.Combine
import LibcSandbox.Library.Machine
import LibcSandbox.Pass.Expand

namespace LibcSandbox
open Library
set_option autoImplicit true

variable {G : Graaf}

/-- A graph while its vertices are merged. `merges` records the calls of `combine_vertex`, and
nothing reads it. -/
structure Merging (G : Graaf) where
  graph : LibcCallgraph G
  exitNode : String
  merges : List (String × String)

def merge (vertex : String) (s : Merging G) (neighbor : String) : Merging G where
  graph := s.graph.combineVertex vertex neighbor
  exitNode := if s.exitNode = neighbor then vertex else s.exitNode
  merges := s.merges ++ [(vertex, neighbor)]

/-- The edges along which vertices are merged. -/
inductive EdgeKind where
  | control
  | user

def EdgeKind.holds : EdgeKind → String → Bool
  | .control => isControl
  | .user => isUser

def EdgeKind.neighbors : EdgeKind → LibcCallgraph G → String → Option (List String)
  | .control => LibcCallgraph.getControlEdgeNeighbors
  | .user => LibcCallgraph.getUserEdgeNeighbors

/-- The body of the loop over the vertices, for edges of one kind after the other. -/
def mergeVertex (vertex : String) :
    List EdgeKind → Bool → Merging G → Option (Bool × Merging G)
  | [], noMergeFound, s => some (noMergeFound, s)
  | kind :: kinds, noMergeFound, s => do
    let neighbors ← kind.neighbors s.graph vertex
    if neighbors.length ≥ 1 then
      mergeVertex vertex kinds false (neighbors.foldl (merge vertex) s)
    else mergeVertex vertex kinds noMergeFound s

def mergeVertices (kinds : List EdgeKind) :
    List String → Bool → Merging G → Option (Bool × Merging G)
  | [], noMergeFound, s => some (noMergeFound, s)
  | vertex :: vertices, noMergeFound, s => do
    let (noMergeFound, s) ← mergeVertex vertex kinds noMergeFound s
    mergeVertices kinds vertices noMergeFound s

/-- The `while` loop, for at most so many rounds. -/
def mergeRounds (kinds : List EdgeKind) : Nat → Merging G → Option (Merging G)
  | 0, _ => none
  | rounds + 1, s => do
    let (noMergeFound, s) ← mergeVertices kinds s.graph.getVertices true s
    if noMergeFound then some s else mergeRounds kinds rounds s

/-- What is done for one function, and the merges that are made. -/
def convertBBGraphToLibcCallGraph (m : FuncBBGraphMeta G) :
    Option (FuncBBGraphMeta G × List (String × String)) := do
  let s ← mergeRounds [.control] (m.bbExpandedGraph.getVertices.length + 1)
    ⟨m.bbExpandedGraph, m.exitNode, []⟩
  return ({ m with exitNode := s.exitNode, libcCallGraph := s.graph }, s.merges)

theorem LibcCallgraph.Inv.neighbors {g : LibcCallgraph G} (h : g.Inv) (kind : EdgeKind)
    (s : String) :
    ∃ ts, kind.neighbors g s = some ts ∧ ts.Nodup ∧
      ∀ t, t ∈ ts ↔ ∃ l, g.Edge s l t ∧ kind.holds l = true := by
  cases kind with
  | control => exact h.getEdgeNeighbors isControl s
  | user => exact h.getEdgeNeighbors isUser s

def combine (g : LibcCallgraph G) (m : String × String) : LibcCallgraph G :=
  g.combineVertex m.1 m.2

/-- A merge goes along an edge of one of the kinds, unless its first vertex is gone. -/
def MergesEdge (kinds : List EdgeKind) (g : LibcCallgraph G) (m : String × String) : Prop :=
  (g.vertexIdMap m.1).isSome → ∃ l, g.Edge m.1 l m.2 ∧ ∃ kind ∈ kinds, kind.holds l = true

theorem MergesEdge.control {g : LibcCallgraph G} (h : MergesEdge [.control] g m)
    (hl : (g.vertexIdMap m.1).isSome) : g.Edge m.1 "control" m.2 := by
  obtain ⟨l, hedge, kind, hkind, hk⟩ := h hl
  rw [List.mem_singleton] at hkind
  subst hkind
  rwa [of_decide_eq_true hk] at hedge

/-- What a piece of the loops does, with the merges it makes. -/
structure MergedBy (kinds : List EdgeKind) (s : Merging G) (ms : List (String × String))
    (s' : Merging G) : Prop where
  merges : s'.merges = s.merges ++ ms
  graph : s'.graph = ms.foldl combine s.graph
  edges : EveryStep combine (MergesEdge kinds) s.graph ms
  inv : s'.graph.Inv
  length_le : s'.graph.getVertices.length ≤ s.graph.getVertices.length

theorem MergedBy.refl (kinds : List EdgeKind) {s : Merging G} (h : s.graph.Inv) :
    MergedBy kinds s [] s :=
  ⟨(List.append_nil _).symm, rfl, trivial, h, Nat.le_refl _⟩

theorem MergedBy.trans (h : MergedBy kinds s ms (s' : Merging G)) (h' : MergedBy kinds s' ms' s'') :
    MergedBy kinds s (ms ++ ms') s'' where
  merges := by rw [h'.merges, h.merges, List.append_assoc]
  graph := by rw [h'.graph, h.graph, List.foldl_append]
  edges := everyStep_append.2 ⟨h.edges, h.graph ▸ h'.edges⟩
  inv := h'.inv
  length_le := Nat.le_trans h'.length_le h.length_le

theorem length_combineVertex {g : LibcCallgraph G} (h : g.Inv) (hl : (g.vertexIdMap lhs).isSome)
    (hr : (g.vertexIdMap rhs).isSome) :
    (g.combineVertex lhs rhs).getVertices.length < g.getVertices.length := by
  rw [(h.getVertices_combineVertex hl hr).length_eq, List.length_cons]
  exact Nat.lt_add_one _

theorem mergedBy_merge {s : Merging G} (h : s.graph.Inv)
    (he : MergesEdge kinds s.graph (vertex, neighbor)) :
    MergedBy kinds s [(vertex, neighbor)] (merge vertex s neighbor) where
  merges := rfl
  graph := rfl
  edges := ⟨he, trivial⟩
  inv := h.combineVertex vertex neighbor
  length_le := by
    cases hv : s.graph.vertexIdMap vertex with
    | none =>
      have hsame : s.graph.combineVertex vertex neighbor = s.graph :=
        LibcCallgraph.combineVertex_absent (.inl hv)
      exact Nat.le_of_eq (congrArg (fun g => g.getVertices.length) hsame)
    | some i =>
      have hl : (s.graph.vertexIdMap vertex).isSome := by rw [hv]; rfl
      obtain ⟨l, hedge, -⟩ := he hl
      exact Nat.le_of_lt (length_combineVertex h hl hedge.isSome.2)

theorem MergesEdge.merge {s : Merging G} (h : s.graph.Inv)
    (he : MergesEdge kinds s.graph (vertex, neighbor)) (hne : other ≠ neighbor)
    (ho : MergesEdge kinds s.graph (vertex, other)) :
    MergesEdge kinds (merge vertex s neighbor).graph (vertex, other) := by
  intro hv
  cases hl : s.graph.vertexIdMap vertex with
  | none =>
    simp only [LibcSandbox.merge, LibcCallgraph.combineVertex_absent (.inl hl), hl] at hv
    cases hv
  | some i =>
    have hl : (s.graph.vertexIdMap vertex).isSome := by rw [hl]; rfl
    obtain ⟨_, hneighbor, -⟩ := he hl
    obtain ⟨l, hedge, hk⟩ := ho hl
    have hr := hneighbor.isSome.2
    have hvn : vertex ≠ neighbor := by
      rintro rfl
      simp only [LibcSandbox.merge, LibcCallgraph.vertexIdMap_combineVertex hl hr,
        Function.update_self] at hv
      cases hv
    exact ⟨l, (h.edge_combineVertex hl hr vertex l other).2 ⟨hvn, hne, .inl hedge⟩, hk⟩

/-- Where a vertex has neighbours to merge, the graph gets smaller. -/
theorem mergedBy_neighbors {neighbors : List String} {s : Merging G} (h : s.graph.Inv)
    (hnd : neighbors.Nodup)
    (he : ∀ neighbor ∈ neighbors, MergesEdge kinds s.graph (vertex, neighbor)) :
    ∃ ms, MergedBy kinds s ms (neighbors.foldl (merge vertex) s) ∧
      ((s.graph.vertexIdMap vertex).isSome → neighbors.length ≥ 1 →
        (neighbors.foldl (merge vertex) s).graph.getVertices.length <
          s.graph.getVertices.length) := by
  induction neighbors generalizing s with
  | nil =>
    refine ⟨[], .refl kinds h, ?_⟩
    intro _ hpos
    cases hpos
  | cons neighbor neighbors ih =>
    rw [List.nodup_cons] at hnd
    have hneighbor := he neighbor List.mem_cons_self
    have hmerge := mergedBy_merge h hneighbor
    obtain ⟨ms, hms, -⟩ := ih hmerge.inv hnd.2 fun other ho => by
      apply hneighbor.merge h
      · rintro rfl
        exact hnd.1 ho
      · exact he other (List.mem_cons_of_mem _ ho)
    refine ⟨_, hmerge.trans hms, ?_⟩
    intro hv _
    obtain ⟨l, hedge, -⟩ := hneighbor hv
    exact Nat.lt_of_le_of_lt hms.length_le (length_combineVertex h hv hedge.isSome.2)

theorem mergedBy_mergeVertex (kinds : List EdgeKind) {rest : List EdgeKind}
    (hrest : ∀ kind ∈ rest, kind ∈ kinds) {s : Merging G} (h : s.graph.Inv) (vertex : String)
    (b : Bool) :
    ∃ b' s' ms, mergeVertex vertex rest b s = some (b', s') ∧ MergedBy kinds s ms s' ∧
      (b' = b ∨ s'.graph.getVertices.length < s.graph.getVertices.length) := by
  induction rest generalizing b s with
  | nil => exact ⟨b, s, [], rfl, .refl kinds h, .inl rfl⟩
  | cons kind rest ih =>
    have hrest' : ∀ kind ∈ rest, kind ∈ kinds := fun k hk => hrest k (List.mem_cons_of_mem _ hk)
    obtain ⟨neighbors, hn, hnd, hmem⟩ := h.neighbors kind vertex
    rw [mergeVertex, hn, Option.bind_eq_bind, Option.bind_some]
    split
    next hpos =>
      have he : ∀ neighbor ∈ neighbors, MergesEdge kinds s.graph (vertex, neighbor) := by
        intro neighbor hneighbor _
        obtain ⟨l, hedge, hk⟩ := (hmem neighbor).1 hneighbor
        exact ⟨l, hedge, kind, hrest kind List.mem_cons_self, hk⟩
      have hv : (s.graph.vertexIdMap vertex).isSome := by
        obtain ⟨neighbor, hneighbor⟩ := List.exists_mem_of_length_pos hpos
        obtain ⟨l, hedge, -⟩ := (hmem neighbor).1 hneighbor
        exact hedge.isSome.1
      obtain ⟨ms₁, hms₁, hlt⟩ := mergedBy_neighbors h hnd he
      obtain ⟨b', s', ms₂, hs', hms₂, -⟩ := ih hrest' hms₁.inv false
      refine ⟨b', s', _, hs', hms₁.trans hms₂, .inr ?_⟩
      exact Nat.lt_of_le_of_lt hms₂.length_le (hlt hv hpos)
    next => exact ih hrest' h b

theorem mergedBy_mergeVertices (kinds : List EdgeKind) (vertices : List String)
    {s : Merging G} (h : s.graph.Inv) (b : Bool) :
    ∃ b' s' ms, mergeVertices kinds vertices b s = some (b', s') ∧ MergedBy kinds s ms s' ∧
      (b' = b ∨ s'.graph.getVertices.length < s.graph.getVertices.length) := by
  induction vertices generalizing b s with
  | nil => exact ⟨b, s, [], rfl, .refl kinds h, .inl rfl⟩
  | cons vertex vertices ih =>
    obtain ⟨b₁, s₁, ms₁, hs₁, hms₁, hlt₁⟩ :=
      mergedBy_mergeVertex kinds (fun _ hk => hk) h vertex b
    obtain ⟨b₂, s₂, ms₂, hs₂, hms₂, hlt₂⟩ := ih hms₁.inv b₁
    rw [mergeVertices, hs₁, Option.bind_eq_bind, Option.bind_some]
    refine ⟨b₂, s₂, _, hs₂, hms₁.trans hms₂, ?_⟩
    rcases hlt₂ with hb₂ | hlt₂
    · rcases hlt₁ with hb₁ | hlt₁
      · exact .inl (hb₂.trans hb₁)
      · exact .inr (Nat.lt_of_le_of_lt hms₂.length_le hlt₁)
    · exact .inr (Nat.lt_of_lt_of_le hlt₂ hms₁.length_le)

/-- Every round but the last makes the graph smaller, so that the loop ends. -/
theorem mergedBy_mergeRounds (kinds : List EdgeKind) {s : Merging G} (h : s.graph.Inv)
    (hr : s.graph.getVertices.length < rounds) :
    ∃ s' ms, mergeRounds kinds rounds s = some s' ∧ MergedBy kinds s ms s' := by
  induction rounds generalizing s with
  | zero => cases hr
  | succ rounds ih =>
    obtain ⟨b, s₁, ms₁, hs₁, hms₁, hlt⟩ := mergedBy_mergeVertices kinds s.graph.getVertices h true
    rw [mergeRounds, hs₁, Option.bind_eq_bind, Option.bind_some]
    cases b with
    | true => exact ⟨s₁, ms₁, rfl, hms₁⟩
    | false =>
      have hlt := hlt.resolve_left Bool.false_ne_true
      obtain ⟨s₂, ms₂, hs₂, hms₂⟩ := ih hms₁.inv (by omega)
      exact ⟨s₂, _, hs₂, hms₁.trans hms₂⟩

theorem mergeVertex_done (h : mergeVertex vertex kinds b s = some (true, (s' : Merging G))) :
    b = true ∧ s' = s ∧ ∀ kind ∈ kinds, kind.neighbors s.graph vertex = some [] := by
  induction kinds generalizing b s with
  | nil =>
    cases h
    exact ⟨rfl, rfl, fun kind hk => by cases hk⟩
  | cons kind kinds ih =>
    rw [mergeVertex, Option.bind_eq_bind, Option.bind_eq_some_iff] at h
    obtain ⟨neighbors, hn, h⟩ := h
    split at h
    next => exact absurd (ih h).1 Bool.false_ne_true
    next hlen =>
      obtain ⟨hb, hs, hkinds⟩ := ih h
      refine ⟨hb, hs, List.forall_mem_cons.2 ⟨?_, hkinds⟩⟩
      rw [hn, List.length_eq_zero_iff.1 (Nat.eq_zero_of_not_pos hlen)]

theorem mergeVertices_done (h : mergeVertices kinds vertices b s = some (true, (s' : Merging G))) :
    b = true ∧ s' = s ∧
      ∀ vertex ∈ vertices, ∀ kind ∈ kinds, kind.neighbors s.graph vertex = some [] := by
  induction vertices generalizing b s with
  | nil =>
    cases h
    exact ⟨rfl, rfl, fun vertex hv => by cases hv⟩
  | cons vertex vertices ih =>
    rw [mergeVertices, Option.bind_eq_bind, Option.bind_eq_some_iff] at h
    obtain ⟨⟨b₁, s₁⟩, h₁, h⟩ := h
    obtain ⟨rfl, rfl, hvertices⟩ := ih h
    obtain ⟨hb, rfl, hvertex⟩ := mergeVertex_done h₁
    exact ⟨hb, rfl, List.forall_mem_cons.2 ⟨hvertex, hvertices⟩⟩

theorem mergeRounds_done (hI : s.graph.Inv) (h : mergeRounds kinds rounds s = some (s' : Merging G))
    (kind : EdgeKind) (hk : kind ∈ kinds) (he : s'.graph.Edge u l v) : kind.holds l = false := by
  induction rounds generalizing s with
  | zero => cases h
  | succ rounds ih =>
    obtain ⟨b, s₁, ms, h₁, hms, -⟩ := mergedBy_mergeVertices kinds s.graph.getVertices hI true
    rw [mergeRounds, h₁, Option.bind_eq_bind, Option.bind_some] at h
    cases b with
    | false => exact ih hms.inv h
    | true =>
      cases h
      obtain ⟨-, rfl, hnone⟩ := mergeVertices_done h₁
      obtain ⟨neighbors, hn, -, hmem⟩ := hI.neighbors kind u
      have hempty := hnone u ((LibcCallgraph.mem_getVertices hI).2 he.isSome.1) kind hk
      rw [hn, Option.some.injEq] at hempty
      rw [Bool.eq_false_iff]
      intro hl
      have hv := (hmem v).2 ⟨l, he, hl⟩
      rw [hempty] at hv
      cases hv

/-- The conversion always ends, with the merges of vertices that control edges join. -/
theorem convertBBGraphToLibcCallGraph_some {m : FuncBBGraphMeta G} (h : m.bbExpandedGraph.Inv) :
    ∃ m' ms, convertBBGraphToLibcCallGraph m = some (m', ms) ∧ m'.libcCallGraph.Inv ∧
      m'.libcCallGraph = ms.foldl combine m.bbExpandedGraph ∧
      EveryStep combine (MergesEdge [.control]) m.bbExpandedGraph ms := by
  obtain ⟨s, ms, hs, hms⟩ := mergedBy_mergeRounds [.control]
    (s := ⟨m.bbExpandedGraph, m.exitNode, []⟩) h (Nat.lt_add_one _)
  refine ⟨{ m with exitNode := s.exitNode, libcCallGraph := s.graph }, ms, ?_, hms.inv, hms.graph,
    hms.edges⟩
  rw [convertBBGraphToLibcCallGraph, hs, Option.bind_eq_bind, Option.bind_some, hms.merges]
  rfl

theorem convertBBGraphToLibcCallGraph_done {m m' : FuncBBGraphMeta G} (hI : m.bbExpandedGraph.Inv)
    (h : convertBBGraphToLibcCallGraph m = some (m', ms)) (he : m'.libcCallGraph.Edge u l v) :
    l ≠ "control" := by
  rw [convertBBGraphToLibcCallGraph, Option.bind_eq_bind, Option.bind_eq_some_iff] at h
  obtain ⟨s, hs, h⟩ := h
  cases h
  exact of_decide_eq_false (mergeRounds_done (s := ⟨m.bbExpandedGraph, m.exitNode, []⟩) hI hs
    .control List.mem_cons_self he)

end LibcSandbox

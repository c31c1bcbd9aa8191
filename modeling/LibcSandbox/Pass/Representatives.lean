import LibcSandbox.Pass.MergeLoops
import LibcSandbox.Pass.Separation

namespace LibcSandbox
open Library
set_option autoImplicit true

variable {G : Graaf} {g : LibcCallgraph G} {m : String × String} {s s' s'' : Merging G}

/-- Where the merges put a vertex. -/
def representative (g : LibcCallgraph G) (ms : List (String × String)) (v : String) : String :=
  (ms.foldl follow (g, v)).2

/-- A vertex leaves the graph only as the second one of a merge into another one that stays. -/
def LeavesInto (g : LibcCallgraph G) (m : String × String) : Prop :=
  ∀ v, (g.vertexIdMap v).isSome → ¬((combine g m).vertexIdMap v).isSome →
    v = m.2 ∧ m.1 ≠ v ∧ ((combine g m).vertexIdMap m.1).isSome

/-- The vertices of a graph, its entry and its exit are represented after the merges of a loop. -/
structure KeepsRepresentatives (g : LibcCallgraph G) (entryNode exitNode : String)
    (s : Merging G) : Prop where
  leaves : EveryStep combine LeavesInto g s.merges
  vertices : ∀ v, (g.vertexIdMap v).isSome →
    (s.graph.vertexIdMap (representative g s.merges v)).isSome
  entry : (g.vertexIdMap entryNode).isSome →
    (s.graph.vertexIdMap entryNode).isSome ∧ entryNode = representative g s.merges entryNode
  exit : (g.vertexIdMap exitNode).isSome →
    (s.graph.vertexIdMap s.exitNode).isSome ∧ s.exitNode = representative g s.merges exitNode

/-- A merge of two different vertices that does not take the entry away. -/
def MergesApart (entryNode : String) (_ : LibcCallgraph G) (m : String × String) : Prop :=
  m.1 ≠ m.2 ∧ m.2 ≠ entryNode

theorem vertexIdMap_combine_of_ne (h : v ≠ m.2) :
    (combine g m).vertexIdMap v = g.vertexIdMap v := by
  rw [combine]
  by_cases hboth : (g.vertexIdMap m.1).isSome ∧ (g.vertexIdMap m.2).isSome
  · rw [LibcCallgraph.vertexIdMap_combineVertex hboth.1 hboth.2, Function.update_of_ne h]
  · rw [not_and_or, Option.not_isSome_iff_eq_none, Option.not_isSome_iff_eq_none] at hboth
    rw [LibcCallgraph.combineVertex_absent hboth]

theorem vertexIdMap_combine_self (h : (g.vertexIdMap m.1).isSome) :
    (combine g m).vertexIdMap m.2 = none := by
  rw [combine]
  cases hr : g.vertexIdMap m.2 with
  | none => rw [LibcCallgraph.combineVertex_absent (.inr hr), hr]
  | some j =>
    rw [LibcCallgraph.vertexIdMap_combineVertex h (by rw [hr]; rfl), Function.update_self]

theorem vertexIdMap_combine_absent (h : g.vertexIdMap v = none) :
    (combine g m).vertexIdMap v = none := by
  by_cases hv : v = m.2
  · subst hv
    rw [combine, LibcCallgraph.combineVertex_absent (.inr h), h]
  · rw [vertexIdMap_combine_of_ne hv, h]

theorem vertexIdMap_foldl_combine_absent (h : g.vertexIdMap v = none)
    (ms : List (String × String)) : (ms.foldl combine g).vertexIdMap v = none := by
  induction ms generalizing g with
  | nil => exact h
  | cons m ms ih => exact ih (vertexIdMap_combine_absent h)

/-- Until a vertex is merged with itself, merges start from vertices that are there. -/
def StartsPresent : LibcCallgraph G → List (String × String) → Prop
  | _, [] => True
  | g, m :: ms => (g.vertexIdMap m.1).isSome ∧ (m.1 ≠ m.2 → StartsPresent (combine g m) ms)

theorem StartsPresent.append (h : StartsPresent g ms)
    (h' : StartsPresent (ms.foldl combine g) ms') : StartsPresent g (ms ++ ms') := by
  induction ms generalizing g with
  | nil => exact h'
  | cons m ms ih => exact ⟨h.1, fun hne => ih (h.2 hne) h'⟩

/-- The merges of a piece of the loops, and what they do to the name of the exit. -/
structure TracedBy (s : Merging G) (ms : List (String × String)) (s' : Merging G) : Prop where
  merges : s'.merges = s.merges ++ ms
  graph : s'.graph = ms.foldl combine s.graph
  exitNode : s'.exitNode = ms.foldl (fun v m => rename m v) s.exitNode
  starts : StartsPresent s.graph ms

theorem TracedBy.trans (h : TracedBy s ms s') (h' : TracedBy s' ms' s'') :
    TracedBy s (ms ++ ms') s'' where
  merges := by rw [h'.merges, h.merges, List.append_assoc]
  graph := by rw [h'.graph, h.graph, List.foldl_append]
  exitNode := by rw [h'.exitNode, h.exitNode, List.foldl_append]
  starts := h.starts.append (h.graph ▸ h'.starts)

theorem startsPresent_neighbors (h : (g.vertexIdMap vertex).isSome) (neighbors : List String) :
    StartsPresent g (neighbors.map fun neighbor => (vertex, neighbor)) := by
  induction neighbors generalizing g with
  | nil => trivial
  | cons neighbor neighbors ih =>
    refine ⟨h, fun hne => ih ?_⟩
    rw [vertexIdMap_combine_of_ne (m := (vertex, neighbor)) hne]
    exact h

theorem tracedBy_neighbors (h : (s.graph.vertexIdMap vertex).isSome) (neighbors : List String) :
    TracedBy s (neighbors.map fun neighbor => (vertex, neighbor))
      (neighbors.foldl (merge vertex) s) := by
  suffices hrun : ∀ s : Merging G,
      (neighbors.foldl (merge vertex) s).merges =
        s.merges ++ neighbors.map (fun neighbor => (vertex, neighbor)) ∧
      (neighbors.foldl (merge vertex) s).graph =
        (neighbors.map fun neighbor => (vertex, neighbor)).foldl combine s.graph ∧
      (neighbors.foldl (merge vertex) s).exitNode =
        (neighbors.map fun neighbor => (vertex, neighbor)).foldl (fun v m => rename m v)
          s.exitNode from
    ⟨(hrun s).1, (hrun s).2.1, (hrun s).2.2, startsPresent_neighbors h neighbors⟩
  induction neighbors with
  | nil => exact fun s => ⟨(List.append_nil _).symm, rfl, rfl⟩
  | cons neighbor neighbors ih =>
    intro s
    obtain ⟨hmerges, hgraph, hexit⟩ := ih (merge vertex s neighbor)
    refine ⟨hmerges.trans ?_, hgraph, hexit⟩
    rw [List.map_cons, merge, List.append_assoc, List.singleton_append]

theorem loopRelation_tracedBy : LoopRelation fun s s' : Merging G => ∃ ms, TracedBy s ms s' where
  refl := fun s => ⟨[], (List.append_nil _).symm, rfl, rfl, trivial⟩
  trans := by
    intro s s' s'' h h'
    obtain ⟨ms, h⟩ := h
    obtain ⟨ms', h'⟩ := h'
    exact ⟨_, h.trans h'⟩
  merge := fun neighbors _ h => ⟨_, tracedBy_neighbors h neighbors⟩

theorem mergeRounds_traced (hI : g.Inv) (h : mergeRounds kinds rounds ⟨g, exitNode, []⟩ = some s) :
    s.graph = s.merges.foldl combine g ∧
      s.exitNode = s.merges.foldl (fun v m => rename m v) exitNode ∧ StartsPresent g s.merges := by
  obtain ⟨ms, hms⟩ := loopRelation_tracedBy.mergeRounds (s := ⟨g, exitNode, []⟩) hI h
  have hmerges : s.merges = ms := hms.merges
  subst hmerges
  exact ⟨hms.graph, hms.exitNode, hms.starts⟩

theorem leavesInto_iff (h : (g.vertexIdMap m.1).isSome) : LeavesInto g m ↔ m.1 ≠ m.2 := by
  apply Iff.intro
  · intro hleaves heq
    have hgone : ¬((combine g m).vertexIdMap m.1).isSome := by
      rw [heq, vertexIdMap_combine_self h]
      exact Bool.false_ne_true
    exact (hleaves m.1 h hgone).2.1 rfl
  · intro hne v hv hgone
    by_cases hv' : v = m.2
    · rw [vertexIdMap_combine_of_ne hne]
      exact ⟨hv', hv' ▸ hne, h⟩
    · rw [vertexIdMap_combine_of_ne hv'] at hgone
      exact absurd hv hgone

theorem StartsPresent.leavesInto_iff (h : StartsPresent g ms) :
    EveryStep combine LeavesInto g ms ↔ EveryStep combine (fun _ m => m.1 ≠ m.2) g ms := by
  induction ms generalizing g with
  | nil => exact Iff.rfl
  | cons m ms ih =>
    rw [EveryStep, EveryStep, LibcSandbox.leavesInto_iff h.1]
    exact and_congr_right fun hne => ih (h.2 hne)

theorem StartsPresent.everyStep (h : StartsPresent g ms)
    (hne : EveryStep combine (fun _ m => m.1 ≠ m.2) g ms) :
    EveryStep combine (fun g m => (g.vertexIdMap m.1).isSome ∧ m.1 ≠ m.2) g ms := by
  induction ms generalizing g with
  | nil => trivial
  | cons m ms ih => exact ⟨⟨h.1, hne.1⟩, ih (h.2 hne.1) hne.2⟩

/-- Merges of different vertices that are there only rename vertices. -/
theorem representative_eq
    (h : EveryStep combine (fun g m => (g.vertexIdMap m.1).isSome ∧ m.1 ≠ m.2) g ms) (v : String) :
    representative g ms v = ms.foldl (fun v m => rename m v) v := by
  induction ms generalizing g v with
  | nil => rfl
  | cons m ms ih =>
    rw [List.foldl_cons, ← ih h.2, representative, List.foldl_cons, follow_present h.1.1]
    rfl

theorem representative_isSome
    (h : EveryStep combine (fun g m => (g.vertexIdMap m.1).isSome ∧ m.1 ≠ m.2) g ms)
    (hv : (g.vertexIdMap v).isSome) :
    ((ms.foldl combine g).vertexIdMap (representative g ms v)).isSome := by
  induction ms generalizing g v with
  | nil => exact hv
  | cons m ms ih =>
    rw [representative, List.foldl_cons, List.foldl_cons, follow_present h.1.1]
    apply ih h.2
    by_cases hv' : v = m.2
    · subst hv'
      rw [rename_self, vertexIdMap_combine_of_ne h.1.2]
      exact h.1.1
    · rw [rename_of_ne hv', vertexIdMap_combine_of_ne hv']
      exact hv

theorem representative_of_ne (h : EveryStep combine (fun _ m => m.2 ≠ v) g ms) :
    representative g ms v = v := by
  induction ms generalizing g with
  | nil => rfl
  | cons m ms ih =>
    have hstay : follow (g, v) m = (combine g m, v) := by
      rw [follow, if_neg fun hx => h.1 hx.1.symm]
    rw [representative, List.foldl_cons, hstay]
    exact ih h.2

theorem stays_iff (h : EveryStep combine
      (fun g m => (g.vertexIdMap m.1).isSome ∧ (g.vertexIdMap m.2).isSome) g ms) :
    ((g.vertexIdMap v).isSome → ((ms.foldl combine g).vertexIdMap v).isSome) ↔
      EveryStep combine (fun _ m => m.2 ≠ v) g ms := by
  induction ms generalizing g with
  | nil => exact iff_of_true id trivial
  | cons m ms ih =>
    rw [EveryStep, ← ih h.2, List.foldl_cons]
    by_cases hv : m.2 = v
    · subst hv
      have hgone : ¬((ms.foldl combine (combine g m)).vertexIdMap m.2).isSome := by
        rw [vertexIdMap_foldl_combine_absent (vertexIdMap_combine_self h.1.1)]
        exact Bool.false_ne_true
      exact iff_of_false (fun hx => hgone (hx h.1.2)) fun hx => hx.1 rfl
    · rw [vertexIdMap_combine_of_ne (Ne.symm hv)]
      exact (and_iff_right hv).symm

theorem keepsRepresentatives_iff (hI : g.Inv) (entryNode : String)
    (h : mergeRounds kinds rounds ⟨g, exitNode, []⟩ = some s)
    (hm : EveryStep combine (MergesEdge kinds) g s.merges) :
    KeepsRepresentatives g entryNode exitNode s ↔
      EveryStep combine (MergesApart entryNode) g s.merges := by
  obtain ⟨hgraph, hexit, hstarts⟩ := mergeRounds_traced hI h
  have hends (hne : EveryStep combine (fun _ m => m.1 ≠ m.2) g s.merges) :
      EveryStep combine
        (fun g m => (g.vertexIdMap m.1).isSome ∧ (g.vertexIdMap m.2).isSome) g s.merges := by
    apply ((hstarts.everyStep hne).and hm).mono
    intro g m hx
    obtain ⟨l, he, -⟩ := hx.2 hx.1.1
    exact he.isSome
  apply Iff.intro
  · intro hkeeps
    have hne := hstarts.leavesInto_iff.1 hkeeps.leaves
    have hentry := (stays_iff (hends hne)).1 fun hv => hgraph ▸ (hkeeps.entry hv).1
    exact hne.and hentry
  · intro hapart
    have hne := hapart.mono fun g m hx => hx.1
    have hentry := hapart.mono fun g m hx => hx.2
    have hsteps := hstarts.everyStep hne
    have hvertices (v : String) (hv : (g.vertexIdMap v).isSome) :
        (s.graph.vertexIdMap (representative g s.merges v)).isSome := by
      rw [hgraph]
      exact representative_isSome hsteps hv
    have hrep := representative_of_ne hentry
    have hrep' : s.exitNode = representative g s.merges exitNode :=
      hexit.trans (representative_eq hsteps exitNode).symm
    constructor
    · exact hstarts.leavesInto_iff.2 hne
    · exact hvertices
    · intro hv
      have hpresent := hvertices entryNode hv
      rw [hrep] at hpresent
      exact ⟨hpresent, hrep.symm⟩
    · intro hv
      have hpresent := hvertices exitNode hv
      rw [← hrep'] at hpresent
      exact ⟨hpresent, hrep'⟩

/-- Both loops keep the representatives of the vertices, the entry and the exit if and only if they
merge no vertex with itself and do not merge the entry into another vertex. -/
theorem mergeLoops_keepRepresentatives_iff :
    (∀ m : FuncBBGraphMeta G, m.bbExpandedGraph.Inv →
      ∃ m' ms, convertBBGraphToLibcCallGraph m = some (m', ms) ∧ m'.entryNode = m.entryNode ∧
        (KeepsRepresentatives m.bbExpandedGraph m.entryNode m.exitNode
            ⟨m'.libcCallGraph, m'.exitNode, ms⟩ ↔
          EveryStep combine (MergesApart m.entryNode) m.bbExpandedGraph ms)) ∧
    ∀ funcs : FuncMap G, (∀ f, (funcs.graph f).Inv) →
      ∃ g final, insertCallees funcs = some g ∧ combineLibcgGraph funcs = some final ∧
        (KeepsRepresentatives g (funcs.get "main").entryNode (funcs.get "main").exitNode final ↔
          EveryStep combine (MergesApart (funcs.get "main").entryNode) g final.merges) := by
  constructor
  · intro m hI
    obtain ⟨s, ms, hs, hms⟩ := mergedBy_mergeRounds [.control]
      (s := ⟨m.bbExpandedGraph, m.exitNode, []⟩) hI (Nat.lt_add_one _)
    have hmerges : s.merges = ms := hms.merges
    subst hmerges
    refine ⟨{ m with exitNode := s.exitNode, libcCallGraph := s.graph }, s.merges, ?_, rfl,
      keepsRepresentatives_iff hI m.entryNode hs hms.edges⟩
    rw [convertBBGraphToLibcCallGraph, hs]
    rfl
  · intro funcs hI
    obtain ⟨g, final, hg, hfinal, hI', -, hedges, -⟩ := combineLibcgGraph_some hI
    have hrounds := hfinal
    rw [combineLibcgGraph, hg, Option.bind_eq_bind, Option.bind_some] at hrounds
    exact ⟨g, final, hg, hfinal, keepsRepresentatives_iff hI' _ hrounds hedges⟩

/-- Two blocks in a row. -/
def rowRecord : FuncBBGraphMeta listGraaf :=
  { FuncBBGraphMeta.empty with
    entryNode := "A"
    exitNode := "B"
    bbExpandedGraph := .ofLists ["A", "B"] [("A", "control", "B")] }

theorem rowRecord_merges :
    (convertBBGraphToLibcCallGraph rowRecord).map Prod.snd = some [("A", "B")] := by
  decide +kernel

theorem rowRecord_keepsRepresentatives :
    ∃ m' ms, convertBBGraphToLibcCallGraph rowRecord = some (m', ms) ∧
      KeepsRepresentatives rowRecord.bbExpandedGraph "A" "B"
        ⟨m'.libcCallGraph, m'.exitNode, ms⟩ := by
  obtain ⟨m', ms, h, -, hiff⟩ :=
    mergeLoops_keepRepresentatives_iff.1 rowRecord (LibcCallgraph.ofLists_inv _ _)
  have hms := rowRecord_merges
  rw [h, Option.map_some, Option.some.injEq] at hms
  subst hms
  exact ⟨m', _, h, hiff.2 ⟨⟨by decide, by decide⟩, trivial⟩⟩

/-- A loop without a call. -/
def callFreeRecord : FuncBBGraphMeta listGraaf :=
  functionRecord "A" "D" ["A", "B", "C", "D"] [("A", "B"), ("B", "C"), ("C", "B"), ("B", "D")] []

theorem callFreeRecord_converted :
    ((expandBBGraph callFreeRecord).bind fun m₁ => (convertBBGraphToLibcCallGraph m₁).map fun m₂ =>
      ((m₁.bbExpandedGraph.vertexIdMap m₁.entryNode).isSome,
        (m₁.bbExpandedGraph.vertexIdMap m₁.exitNode).isSome,
        (m₂.1.libcCallGraph.vertexIdMap m₂.1.entryNode).isSome,
        (m₂.1.libcCallGraph.vertexIdMap m₂.1.exitNode).isSome)) =
      some (true, true, false, false) := by
  decide +kernel

/-- Neither the entry nor the exit is left. -/
theorem callFreeRecord_vanishes :
    ∃ m₁ m₂ ms, expandBBGraph callFreeRecord = some m₁ ∧
      convertBBGraphToLibcCallGraph m₁ = some (m₂, ms) ∧
      (m₁.bbExpandedGraph.vertexIdMap m₁.entryNode).isSome ∧
      (m₁.bbExpandedGraph.vertexIdMap m₁.exitNode).isSome ∧
      ¬(m₂.libcCallGraph.vertexIdMap m₂.entryNode).isSome ∧
      ¬(m₂.libcCallGraph.vertexIdMap m₂.exitNode).isSome ∧
      ¬KeepsRepresentatives m₁.bbExpandedGraph m₁.entryNode m₁.exitNode
        ⟨m₂.libcCallGraph, m₂.exitNode, ms⟩ := by
  obtain ⟨m₁, h₁, hI, -⟩ :=
    expandBBGraph_some (m := callFreeRecord) (LibcCallgraph.ofLists_inv _ _)
  obtain ⟨m₂, ms, h₂, -⟩ := convertBBGraphToLibcCallGraph_some hI
  have hconv := callFreeRecord_converted
  rw [h₁, Option.bind_some, h₂, Option.map_some, Option.some.injEq, Prod.mk.injEq, Prod.mk.injEq,
    Prod.mk.injEq] at hconv
  obtain ⟨hentry, hexit, hentry', hexit'⟩ := hconv
  have hgone := Bool.eq_false_iff.1 hexit'
  refine ⟨m₁, m₂, ms, h₁, h₂, hentry, hexit, Bool.eq_false_iff.1 hentry', hgone, fun hkeeps => ?_⟩
  exact hgone (hkeeps.exit hexit).1

end LibcSandbox

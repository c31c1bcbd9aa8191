import LibcSandbox.GraphLib.Graaf

namespace LibcSandbox
set_option autoImplicit true

variable {G : Graaf}

structure LibcCallgraph (G : Graaf) where
  graph : G.Graph
  vertexIdMap : String → Option Nat
  funcCallMap : String → Option Bool

def LibcCallgraph.empty : LibcCallgraph G := ⟨G.empty, fun _ => none, fun _ => none⟩

def LibcCallgraph.addVertex (g : LibcCallgraph G) (vertex : String) (hasFuncCall : Bool) :
    Nat × LibcCallgraph G :=
  match g.vertexIdMap vertex with
  | some vertexId => (vertexId, g)
  | none =>
    let (vertexId, graph) := G.addVertex g.graph vertex
    (vertexId, {
      graph := graph
      vertexIdMap := Function.update g.vertexIdMap vertex (some vertexId)
      funcCallMap := Function.update g.funcCallMap vertex (some hasFuncCall) })

def LibcCallgraph.addEdge (g : LibcCallgraph G) (vertexLhs vertexRhs edge : String) :
    LibcCallgraph G :=
  match g.vertexIdMap vertexLhs, g.vertexIdMap vertexRhs with
  | some lhs, some rhs => { g with graph := G.addEdge g.graph lhs rhs edge }
  | _, _ => g

def LibcCallgraph.removeEdge (g : LibcCallgraph G) (vertexLhs vertexRhs : String) :
    LibcCallgraph G :=
  match g.vertexIdMap vertexLhs, g.vertexIdMap vertexRhs with
  | some lhs, some rhs => { g with graph := G.removeEdge g.graph lhs rhs }
  | _, _ => g

/-- The end of `remove_vertex` and `combine_vertex`. -/
def LibcCallgraph.eraseVertex (g : LibcCallgraph G) (graph : G.Graph) (vertex : String) (id : Nat) :
    LibcCallgraph G where
  graph := G.removeVertex graph id
  vertexIdMap := Function.update g.vertexIdMap vertex none
  funcCallMap := Function.update g.funcCallMap vertex none

def LibcCallgraph.removeVertex (g : LibcCallgraph G) (vertex : String) : LibcCallgraph G :=
  match g.vertexIdMap vertex with
  | some id => g.eraseVertex g.graph vertex id
  | none => g

/-- The body of the loop in `combine_vertex`. -/
def combineEdge (lhs rhs : Nat) (graph : G.Graph) (edge : (Nat × Nat) × String) : G.Graph :=
  let graph := if edge.1.1 = rhs then G.addEdge graph lhs edge.1.2 edge.2 else graph
  if edge.1.2 = rhs then
    if edge.1.1 = lhs then graph else G.addEdge graph edge.1.1 lhs edge.2
  else graph

def LibcCallgraph.combineVertex (g : LibcCallgraph G) (vertexLhs vertexRhs : String) :
    LibcCallgraph G :=
  match g.vertexIdMap vertexLhs, g.vertexIdMap vertexRhs with
  | some lhs, some rhs =>
    let graph := (G.getEdges g.graph).foldl (combineEdge lhs rhs) g.graph
    g.eraseVertex graph vertexRhs rhs
  | _, _ => g

/-- Nothing comes out where a lookup throws. -/
def LibcCallgraph.getOutgoingEdges (g : LibcCallgraph G) (vertex : String) : Option (List String) :=
  match g.vertexIdMap vertex with
  | none => some []
  | some id => (G.getNeighbors g.graph id).mapM fun neighbor => G.getEdge g.graph id neighbor

def LibcCallgraph.getNeighbors (g : LibcCallgraph G) (vertex : String) : Option (List String) :=
  match g.vertexIdMap vertex with
  | none => some []
  | some id => (G.getNeighbors g.graph id).mapM fun neighbor => G.getVertex g.graph neighbor

/-- The loop of the two functions below, for the edges of one kind. -/
def selectNeighbors (graph : G.Graph) (kind : String → Bool) (id : Nat) :
    List Nat → Option (List String)
  | [] => some []
  | neighbor :: rest => do
    let edge ← G.getEdge graph id neighbor
    if kind edge then
      let vertex ← G.getVertex graph neighbor
      let neighbors ← selectNeighbors graph kind id rest
      return vertex :: neighbors
    else selectNeighbors graph kind id rest

def LibcCallgraph.getEdgeNeighbors (g : LibcCallgraph G) (kind : String → Bool) (vertex : String) :
    Option (List String) :=
  match g.vertexIdMap vertex with
  | none => some []
  | some id => selectNeighbors g.graph kind id (G.getNeighbors g.graph id)

/-- `find` gives 0. -/
def foundAtStart (s pattern : String) : Bool := pattern.toList.isPrefixOf s.toList

def isControl (edge : String) : Bool := edge = "control"

def isUser (edge : String) : Bool := foundAtStart edge "user:"

def LibcCallgraph.getControlEdgeNeighbors (g : LibcCallgraph G) (vertex : String) :
    Option (List String) :=
  g.getEdgeNeighbors isControl vertex

def LibcCallgraph.getUserEdgeNeighbors (g : LibcCallgraph G) (vertex : String) :
    Option (List String) :=
  g.getEdgeNeighbors isUser vertex

def LibcCallgraph.getVertices (g : LibcCallgraph G) : List String :=
  ((G.getVertices g.graph).map fun vertex => vertex.2).reverse

/-- The two maps agree with the graph. -/
structure LibcCallgraph.Inv (g : LibcCallgraph G) : Prop where
  names : ∀ s i, g.vertexIdMap s = some i ↔ G.getVertex g.graph i = some s
  calls : ∀ s, (g.funcCallMap s).isSome = (g.vertexIdMap s).isSome
  ends : G.Ends g.graph

theorem LibcCallgraph.Inv.empty : (LibcCallgraph.empty : LibcCallgraph G).Inv where
  names := by
    intro s i
    simp only [LibcCallgraph.empty, G.getVertex_empty, reduceCtorEq]
  calls := fun _ => rfl
  ends := .empty

theorem LibcCallgraph.Inv.addVertex {g : LibcCallgraph G} (h : g.Inv) (s : String) (b : Bool) :
    (g.addVertex s b).2.Inv := by
  cases hs : g.vertexIdMap s with
  | some i => simpa only [LibcCallgraph.addVertex, hs] using h
  | none =>
    have hfresh := G.addVertex_fresh g.graph s
    simp only [LibcCallgraph.addVertex, hs]
    constructor
    · intro t i
      simp only [G.getVertex_addVertex]
      by_cases ht : t = s
      · subst ht
        rw [Function.update_self, Option.some.injEq]
        by_cases hi : i = (G.addVertex g.graph t).1
        · simp only [hi, ↓reduceIte]
        · simp only [hi, ↓reduceIte, ← h.names, hs, reduceCtorEq, iff_false]
          exact fun he => hi he.symm
      · rw [Function.update_of_ne ht, h.names]
        by_cases hi : i = (G.addVertex g.graph s).1
        · subst hi
          simp only [hfresh, reduceCtorEq, ↓reduceIte, Option.some.injEq, false_iff]
          exact fun he => ht he.symm
        · simp only [hi, ↓reduceIte]
    · intro t
      by_cases ht : t = s
      · subst ht
        simp only [Function.update_self, Option.isSome_some]
      · simp only [Function.update_of_ne ht, h.calls]
    · exact h.ends.addVertex s

theorem LibcCallgraph.Inv.of_vertices {g : LibcCallgraph G} (h : g.Inv) {graph : G.Graph}
    (hv : ∀ i, G.getVertex graph i = G.getVertex g.graph i) (he : G.Ends graph) :
    LibcCallgraph.Inv { g with graph := graph } :=
  ⟨fun s i => by rw [hv]; exact h.names s i, h.calls, he⟩

theorem LibcCallgraph.Inv.isSome {g : LibcCallgraph G} (h : g.Inv) (hs : g.vertexIdMap s = some i) :
    (G.getVertex g.graph i).isSome := by
  rw [(h.names s i).1 hs]
  rfl

theorem LibcCallgraph.Inv.addEdge {g : LibcCallgraph G} (h : g.Inv) (s t l : String) :
    (g.addEdge s t l).Inv := by
  rw [LibcCallgraph.addEdge]
  split
  next hs ht =>
    exact h.of_vertices (fun i => G.getVertex_addEdge _ _ _ _ _)
      (h.ends.addEdge (h.isSome hs) (h.isSome ht) l)
  next => exact h

theorem LibcCallgraph.Inv.removeEdge {g : LibcCallgraph G} (h : g.Inv) (s t : String) :
    (g.removeEdge s t).Inv := by
  rw [LibcCallgraph.removeEdge]
  split
  · exact h.of_vertices (fun i => G.getVertex_removeEdge _ _ _ _) (h.ends.removeEdge _ _)
  · exact h

/-- A graph of the vertices and edges listed, none of which stands for a call. -/
def LibcCallgraph.ofLists (vertices : List String) (edges : List (String × String × String)) :
    LibcCallgraph G :=
  edges.foldl (fun g e => g.addEdge e.1 e.2.2 e.2.1)
    (vertices.foldl (fun g vertex => (g.addVertex vertex false).2) .empty)

theorem LibcCallgraph.ofLists_inv (vertices : List String)
    (edges : List (String × String × String)) :
    (LibcCallgraph.ofLists vertices edges : LibcCallgraph G).Inv := by
  apply List.foldlRecOn edges
  · apply List.foldlRecOn vertices
    · exact .empty
    · intro g hg vertex _
      exact hg.addVertex vertex false
  · intro g hg e _
    exact hg.addEdge e.1 e.2.2 e.2.1

theorem LibcCallgraph.Inv.name_eq {g : LibcCallgraph G} (h : g.Inv)
    (hs : g.vertexIdMap s = some i) (ht : g.vertexIdMap t = some i) : s = t := by
  rw [h.names] at hs ht
  exact Option.some.inj (hs.symm.trans ht)

theorem LibcCallgraph.Inv.eraseVertex {g : LibcCallgraph G} (h : g.Inv) {graph : G.Graph}
    (hv : ∀ i, G.getVertex graph i = G.getVertex g.graph i) (he : G.Ends graph)
    (hs : g.vertexIdMap s = some i) : (g.eraseVertex graph s i).Inv := by
  constructor
  · intro t j
    simp only [LibcCallgraph.eraseVertex, G.getVertex_removeVertex, hv]
    by_cases ht : t = s
    · subst ht
      by_cases hj : j = i
      · simp only [Function.update_self, hj, ↓reduceIte, reduceCtorEq]
      · simp only [Function.update_self, hj, ↓reduceIte, ← h.names, hs, Option.some.injEq,
          reduceCtorEq, false_iff]
        exact fun he => hj he.symm
    · rw [Function.update_of_ne ht]
      by_cases hj : j = i
      · subst hj
        simp only [↓reduceIte, reduceCtorEq, iff_false]
        exact fun he => ht (h.name_eq he hs)
      · simp only [hj, ↓reduceIte, h.names]
  · intro t
    simp only [LibcCallgraph.eraseVertex]
    by_cases ht : t = s
    · subst ht
      simp only [Function.update_self, Option.isSome_none]
    · simp only [Function.update_of_ne ht, h.calls]
  · exact he.removeVertex i

theorem LibcCallgraph.Inv.removeVertex {g : LibcCallgraph G} (h : g.Inv) (s : String) :
    (g.removeVertex s).Inv := by
  rw [LibcCallgraph.removeVertex]
  split
  next hs => exact h.eraseVertex (fun _ => rfl) h.ends hs
  next => exact h

/-- An edge between two vertices, by their names. -/
def LibcCallgraph.Edge (g : LibcCallgraph G) (s l t : String) : Prop :=
  ∃ i j, g.vertexIdMap s = some i ∧ g.vertexIdMap t = some j ∧ G.getEdge g.graph i j = some l

/-- The label of the edge between two vertices. -/
def LibcCallgraph.label (g : LibcCallgraph G) (s t : String) : Option String := do
  let i ← g.vertexIdMap s
  let j ← g.vertexIdMap t
  G.getEdge g.graph i j

theorem LibcCallgraph.label_eq_some_iff {g : LibcCallgraph G} :
    g.label s t = some l ↔ g.Edge s l t := by
  simp only [LibcCallgraph.label, LibcCallgraph.Edge, Option.bind_eq_bind, Option.bind_eq_some_iff,
    exists_and_left]

theorem LibcCallgraph.edge_iff {g : LibcCallgraph G} (hs : g.vertexIdMap s = some i)
    (ht : g.vertexIdMap t = some j) : g.Edge s l t ↔ G.getEdge g.graph i j = some l := by
  simp only [LibcCallgraph.Edge, hs, ht, Option.some.injEq, exists_and_left, exists_eq_left']

/-- All edges, by the names of their vertices. -/
def LibcCallgraph.edges (g : LibcCallgraph G) : List (String × String × String) :=
  (G.getEdges g.graph).filterMap fun e => do
    let s ← G.getVertex g.graph e.1.1
    let t ← G.getVertex g.graph e.1.2
    return (s, e.2, t)

theorem LibcCallgraph.Inv.mem_edges {g : LibcCallgraph G} (h : g.Inv) :
    (s, l, t) ∈ g.edges ↔ g.Edge s l t := by
  simp only [LibcCallgraph.edges, List.mem_filterMap, Option.bind_eq_bind, Option.bind_eq_some_iff,
    Option.pure_def, Option.some.injEq, Prod.mk.injEq, LibcCallgraph.Edge, h.names]
  apply Iff.intro
  · intro hx
    obtain ⟨⟨⟨i, j⟩, k⟩, hk, s', hs, t', ht, rfl, rfl, rfl⟩ := hx
    exact ⟨i, j, hs, ht, (G.mem_getEdges _ _ _ _).1 hk⟩
  · intro hx
    obtain ⟨i, j, hs, ht, hl⟩ := hx
    exact ⟨((i, j), l), (G.mem_getEdges _ _ _ _).2 hl, s, hs, t, ht, rfl, rfl, rfl⟩

theorem LibcCallgraph.Inv.edge_of_edges {g : LibcCallgraph G} (h : g.Inv) (he : g.edges = es)
    (u l v : String) : g.Edge u l v ↔ (u, l, v) ∈ es := by
  rw [← h.mem_edges, he]

theorem LibcCallgraph.Edge.isSome {g : LibcCallgraph G} (h : g.Edge s l t) :
    (g.vertexIdMap s).isSome ∧ (g.vertexIdMap t).isSome := by
  obtain ⟨i, j, hi, hj, -⟩ := h
  rw [hi, hj]
  exact ⟨rfl, rfl⟩

theorem LibcCallgraph.Edge.label_eq {g : LibcCallgraph G} (h : g.Edge s l t) (h' : g.Edge s l' t) :
    l = l' := by
  obtain ⟨i, j, hi, hj, hl⟩ := h
  obtain ⟨i', j', hi', hj', hl'⟩ := h'
  cases hi.symm.trans hi'
  cases hj.symm.trans hj'
  exact Option.some.inj (hl.symm.trans hl')

theorem LibcCallgraph.Inv.edge_of_getEdge {g : LibcCallgraph G} (h : g.Inv)
    (hi : g.vertexIdMap s = some i) (hl : G.getEdge g.graph i j = some l) :
    ∃ t, G.getVertex g.graph j = some t ∧ g.Edge s l t := by
  obtain ⟨t, ht⟩ := Option.isSome_iff_exists.1 (h.ends _ _ _ hl).2
  exact ⟨t, ht, i, j, hi, (h.names t j).2 ht, hl⟩

theorem LibcCallgraph.mem_getVertices {g : LibcCallgraph G} (h : g.Inv) :
    s ∈ g.getVertices ↔ (g.vertexIdMap s).isSome := by
  rw [LibcCallgraph.getVertices, List.mem_reverse, List.mem_map, Option.isSome_iff_exists]
  apply Iff.intro
  · intro hx
    obtain ⟨⟨i, t⟩, hv, rfl⟩ := hx
    exact ⟨i, (h.names t i).2 ((G.mem_getVertices _ _ _).1 hv)⟩
  · intro hx
    obtain ⟨i, hi⟩ := hx
    exact ⟨(i, s), (G.mem_getVertices _ _ _).2 ((h.names s i).1 hi), rfl⟩

theorem LibcCallgraph.nodup_getVertices {g : LibcCallgraph G} (h : g.Inv) :
    g.getVertices.Nodup := by
  rw [LibcCallgraph.getVertices, List.nodup_reverse]
  apply (G.nodup_getVertices g.graph).map_on
  rintro ⟨i, s⟩ hi ⟨j, t⟩ hj (rfl : s = t)
  rw [G.mem_getVertices, ← h.names] at hi hj
  rw [Option.some.inj (hi.symm.trans hj)]

/-- The lookups of the loop never fail, and it selects the ends of the edges of the kind. -/
theorem LibcCallgraph.Inv.selectNeighbors {g : LibcCallgraph G} (h : g.Inv)
    (hs : g.vertexIdMap s = some i) (kind : String → Bool) {ns : List Nat}
    (hns : ∀ n ∈ ns, (G.getEdge g.graph i n).isSome) (hnd : ns.Nodup) :
    ∃ ts, selectNeighbors g.graph kind i ns = some ts ∧ ts.Nodup ∧
      ∀ t, t ∈ ts ↔ ∃ l n, n ∈ ns ∧ g.vertexIdMap t = some n ∧ g.Edge s l t ∧ kind l = true := by
  induction ns with
  | nil => exact ⟨[], rfl, List.nodup_nil, by simp⟩
  | cons n ns ih =>
    rw [List.nodup_cons] at hnd
    obtain ⟨ts, hts, htd, hmem⟩ := ih (fun m hm => hns m (List.mem_cons_of_mem _ hm)) hnd.2
    obtain ⟨l, hl⟩ := Option.isSome_iff_exists.1 (hns n List.mem_cons_self)
    obtain ⟨t, ht, he⟩ := h.edge_of_getEdge hs hl
    have hid : g.vertexIdMap t = some n := (h.names t n).2 ht
    cases hk : kind l with
    | true =>
      refine ⟨t :: ts, ?_, ?_, fun u => ?_⟩
      · simp [LibcSandbox.selectNeighbors, hl, hk, ht, hts]
      · rw [List.nodup_cons, hmem]
        refine ⟨?_, htd⟩
        intro hx
        obtain ⟨_, m, hm, hid', -⟩ := hx
        cases hid.symm.trans hid'
        exact hnd.1 hm
      · rw [List.mem_cons, hmem]
        apply Iff.intro
        · intro hx
          rcases hx with rfl | ⟨l', m, hm, hu⟩
          · exact ⟨l, n, List.mem_cons_self, hid, he, hk⟩
          · exact ⟨l', m, List.mem_cons_of_mem _ hm, hu⟩
        · intro hx
          obtain ⟨l', m, hm, hu, hu'⟩ := hx
          rcases List.mem_cons.1 hm with rfl | hm
          · exact .inl (h.name_eq hu hid)
          · exact .inr ⟨l', m, hm, hu, hu'⟩
    | false =>
      refine ⟨ts, ?_, htd, fun u => ?_⟩
      · simp [LibcSandbox.selectNeighbors, hl, hk, hts]
      · rw [hmem]
        apply Iff.intro
        · intro hx
          obtain ⟨l', m, hm, hu⟩ := hx
          exact ⟨l', m, List.mem_cons_of_mem _ hm, hu⟩
        · intro hx
          obtain ⟨l', m, hm, hu, hu', hk'⟩ := hx
          rcases List.mem_cons.1 hm with rfl | hm
          · cases h.name_eq hu hid
            rw [hu'.label_eq he, hk] at hk'
            cases hk'
          · exact ⟨l', m, hm, hu, hu', hk'⟩

theorem LibcCallgraph.Inv.getEdgeNeighbors {g : LibcCallgraph G} (h : g.Inv) (kind : String → Bool)
    (s : String) :
    ∃ ts, g.getEdgeNeighbors kind s = some ts ∧ ts.Nodup ∧
      ∀ t, t ∈ ts ↔ ∃ l, g.Edge s l t ∧ kind l = true := by
  rw [LibcCallgraph.getEdgeNeighbors]
  cases hs : g.vertexIdMap s with
  | none =>
    refine ⟨[], rfl, List.nodup_nil, fun t => ?_⟩
    simp [LibcCallgraph.Edge, hs]
  | some i =>
    obtain ⟨ts, hts, htd, hmem⟩ := h.selectNeighbors hs kind
      (fun n hn => (G.mem_getNeighbors _ _ _).1 hn) (G.nodup_getNeighbors g.graph i)
    refine ⟨ts, hts, htd, fun t => ?_⟩
    rw [hmem]
    apply Iff.intro
    · intro hx
      obtain ⟨l, n, -, -, he, hk⟩ := hx
      exact ⟨l, he, hk⟩
    · intro hx
      obtain ⟨l, he, hk⟩ := hx
      obtain ⟨i', n, hi', hn, hl⟩ := id he
      cases hs.symm.trans hi'
      exact ⟨l, n, (G.mem_getNeighbors _ _ _).2 (by rw [hl]; rfl), hn, he, hk⟩

theorem LibcCallgraph.Inv.outgoing_of_neighbors {g : LibcCallgraph G} (h : g.Inv)
    (hs : g.vertexIdMap s = some i) {ns : List Nat}
    (hns : ∀ n ∈ ns, (G.getEdge g.graph i n).isSome) :
    ∃ out : List (String × String),
      (ns.mapM fun n => G.getEdge g.graph i n) = some (out.map Prod.fst) ∧
      (ns.mapM fun n => G.getVertex g.graph n) = some (out.map Prod.snd) ∧
      ∀ l t, (l, t) ∈ out ↔ ∃ n ∈ ns, g.vertexIdMap t = some n ∧ g.Edge s l t := by
  induction ns with
  | nil => exact ⟨[], rfl, rfl, by simp⟩
  | cons n ns ih =>
    obtain ⟨out, h₁, h₂, hmem⟩ := ih fun m hm => hns m (List.mem_cons_of_mem _ hm)
    obtain ⟨l, hl⟩ := Option.isSome_iff_exists.1 (hns n List.mem_cons_self)
    obtain ⟨t, ht, he⟩ := h.edge_of_getEdge hs hl
    have hid : g.vertexIdMap t = some n := (h.names t n).2 ht
    refine ⟨(l, t) :: out, ?_, ?_, fun l' t' => ?_⟩
    · simp [List.mapM_cons, hl, h₁]
    · simp [List.mapM_cons, ht, h₂]
    · rw [List.mem_cons, hmem, Prod.mk.injEq]
      apply Iff.intro
      · intro hx
        rcases hx with ⟨rfl, rfl⟩ | ⟨m, hm, hu⟩
        · exact ⟨n, List.mem_cons_self, hid, he⟩
        · exact ⟨m, List.mem_cons_of_mem _ hm, hu⟩
      · intro hx
        obtain ⟨m, hm, hu, hu'⟩ := hx
        rcases List.mem_cons.1 hm with rfl | hm
        · cases h.name_eq hu hid
          exact .inl ⟨hu'.label_eq he, rfl⟩
        · exact .inr ⟨m, hm, hu, hu'⟩

/-- The labels and the ends of the edges of a vertex, in the order of the loops over them. -/
def LibcCallgraph.outgoing (g : LibcCallgraph G) (vertex : String) : List (String × String) :=
  ((g.getOutgoingEdges vertex).getD []).zip ((g.getNeighbors vertex).getD [])

theorem LibcCallgraph.Inv.outgoing {g : LibcCallgraph G} (h : g.Inv) (s : String) :
    g.getOutgoingEdges s = some ((g.outgoing s).map Prod.fst) ∧
      g.getNeighbors s = some ((g.outgoing s).map Prod.snd) ∧
      ∀ l t, (l, t) ∈ g.outgoing s ↔ g.Edge s l t := by
  have hout : ∃ out : List (String × String), g.getOutgoingEdges s = some (out.map Prod.fst) ∧
      g.getNeighbors s = some (out.map Prod.snd) ∧ ∀ l t, (l, t) ∈ out ↔ g.Edge s l t := by
    cases hs : g.vertexIdMap s with
    | none =>
      refine ⟨[], ?_, ?_, fun l t => ?_⟩
      · simp only [LibcCallgraph.getOutgoingEdges, hs, List.map_nil]
      · simp only [LibcCallgraph.getNeighbors, hs, List.map_nil]
      · simp [LibcCallgraph.Edge, hs]
    | some i =>
      obtain ⟨out, h₁, h₂, hmem⟩ := h.outgoing_of_neighbors hs
        fun n hn => (G.mem_getNeighbors g.graph i n).1 hn
      refine ⟨out, ?_, ?_, fun l t => ?_⟩
      · simp only [LibcCallgraph.getOutgoingEdges, hs, h₁]
      · simp only [LibcCallgraph.getNeighbors, hs, h₂]
      · rw [hmem]
        apply Iff.intro
        · intro hx
          obtain ⟨_, _, _, he⟩ := hx
          exact he
        · intro he
          obtain ⟨i', n, hi', hn, hl⟩ := id he
          cases hs.symm.trans hi'
          exact ⟨n, (G.mem_getNeighbors _ _ _).2 (by rw [hl]; rfl), hn, he⟩
  obtain ⟨out, h₁, h₂, hmem⟩ := hout
  have hzip : g.outgoing s = out := by
    rw [LibcCallgraph.outgoing, h₁, h₂, Option.getD_some, Option.getD_some, List.zip_map']
    exact List.map_id out
  rw [hzip]
  exact ⟨h₁, h₂, hmem⟩

end LibcSandbox

import LibcSandbox.GraphLib.Insert
import LibcSandbox.Library.Machine

namespace LibcSandbox
open Library
set_option autoImplicit true

variable {G : Graaf} {g other g₁ g₂ g' : LibcCallgraph G}

/-- The union of two graphs: where both have an edge between two vertices, or a flag for a vertex,
the first graph's is taken. -/
structure IsUnion (g other g' : LibcCallgraph G) : Prop where
  vertices : ∀ v, (g'.vertexIdMap v).isSome ↔
    (g.vertexIdMap v).isSome ∨ (other.vertexIdMap v).isSome
  edges : ∀ s l t, g'.Edge s l t ↔
    g.Edge s l t ∨ (∀ l', ¬g.Edge s l' t) ∧ other.Edge s l t
  calls : ∀ v, g'.funcCallMap v = (g.funcCallMap v).or (other.funcCallMap v)

/-- The two graphs cannot be told apart, ids included. -/
structure SameGraph (g g' : LibcCallgraph G) : Prop where
  vertexIdMap : g'.vertexIdMap = g.vertexIdMap
  funcCallMap : g'.funcCallMap = g.funcCallMap
  getVertex : ∀ i, G.getVertex g'.graph i = G.getVertex g.graph i
  getEdge : ∀ i j, G.getEdge g'.graph i j = G.getEdge g.graph i j

/-- What the loops of `insert_graph` keep of the graph they started with. -/
structure KeepsMaps (g other g' : LibcCallgraph G) : Prop where
  ids : ∀ v, (g.vertexIdMap v).isSome → g'.vertexIdMap v = g.vertexIdMap v
  calls : ∀ v, g'.funcCallMap v = g.funcCallMap v ∨
    g.funcCallMap v = none ∧ g'.funcCallMap v = other.funcCallMap v

theorem KeepsMaps.of_same (h : KeepsMaps g other g₁) (hid : g₂.vertexIdMap = g₁.vertexIdMap)
    (hcall : g₂.funcCallMap = g₁.funcCallMap) : KeepsMaps g other g₂ := by
  constructor
  · rw [hid]
    exact h.ids
  · rw [hcall]
    exact h.calls

theorem KeepsMaps.insertVertex (hInv : g.Inv) (h : KeepsMaps g other g₁)
    (hstep : insertVertex other g₁ vertex = some g₂) : KeepsMaps g other g₂ := by
  obtain ⟨hasFuncCall, hcall, he⟩ := Option.bind_eq_some_iff.1 hstep
  cases hv : g₁.vertexIdMap vertex.2 with
  | some i =>
    simp only [LibcCallgraph.addVertex, hv, Option.pure_def, Option.some.injEq] at he
    exact h.of_same (by rw [he]) (by rw [he])
  | none =>
    simp only [LibcCallgraph.addVertex, hv, Option.pure_def, Option.some.injEq] at he
    have hid : g₂.vertexIdMap =
        Function.update g₁.vertexIdMap vertex.2 (some (G.addVertex g₁.graph vertex.2).1) := by
      rw [← he]
    have hflags : g₂.funcCallMap =
        Function.update g₁.funcCallMap vertex.2 (some hasFuncCall) := by
      rw [← he]
    -- the vertex is new, so that the first graph has neither an id nor a flag for it
    have hnew : g.vertexIdMap vertex.2 = none := by
      cases hg : g.vertexIdMap vertex.2 with
      | none => rfl
      | some i =>
        have hsame := h.ids vertex.2 (by rw [hg]; rfl)
        rw [hv, hg] at hsame
        cases hsame
    have hflag : g.funcCallMap vertex.2 = none := by
      have hkeys := hInv.calls vertex.2
      rw [hnew] at hkeys
      exact Option.not_isSome_iff_eq_none.1 (by rw [hkeys]; exact Bool.false_ne_true)
    constructor
    · intro v hsome
      have hne : v ≠ vertex.2 := by
        rintro rfl
        rw [hnew] at hsome
        cases hsome
      rw [hid, Function.update_of_ne hne, h.ids v hsome]
    · intro v
      rw [hflags]
      by_cases hne : v = vertex.2
      · subst hne
        exact .inr ⟨hflag, (Function.update_self _ _ _).trans hcall.symm⟩
      · rw [Function.update_of_ne hne]
        exact h.calls v

theorem KeepsMaps.insertEdge (h : KeepsMaps g other g₁)
    (hstep : insertEdge other g₁ edge = some g₂) : KeepsMaps g other g₂ := by
  obtain ⟨s, -, hstep⟩ := Option.bind_eq_some_iff.1 hstep
  obtain ⟨t, -, he⟩ := Option.bind_eq_some_iff.1 hstep
  simp only [Option.pure_def, Option.some.injEq] at he
  subst he
  refine h.of_same (g₁.vertexIdMap_addEdge s t edge.2) ?_
  rw [LibcCallgraph.addEdge]
  split <;> rfl

theorem KeepsMaps.insertGraph (hInv : g.Inv)
    (hrun : g.insertGraph other entry exit = some g') : KeepsMaps g other g' := by
  obtain ⟨g₁, hvertices, hedges⟩ := Option.bind_eq_some_iff.1 hrun
  have hstart : KeepsMaps g other g := ⟨fun _ _ => rfl, fun _ => .inl rfl⟩
  have hmid : KeepsMaps g other g₁ :=
    foldlM_invariant (fun _ _ _ _ h hstep => h.insertVertex hInv hstep) hstart hvertices
  exact foldlM_invariant (fun _ _ _ _ h hstep => h.insertEdge hstep) hmid hedges

theorem Inserted.isUnion (h : Inserted g other g') (hk : KeepsMaps g other g')
    (hInv : other.Inv) : IsUnion g other g' where
  vertices := h.vertices
  edges := by
    intro s l t
    have hnone : g.label s t = none ↔ ∀ l', ¬g.Edge s l' t := by
      simp only [← LibcCallgraph.label_eq_some_iff, Option.eq_none_iff_forall_ne_some, ne_eq]
    rw [← LibcCallgraph.label_eq_some_iff, h.labels, Option.or_eq_some_iff, hnone,
      LibcCallgraph.label_eq_some_iff, LibcCallgraph.label_eq_some_iff]
  calls := by
    intro v
    cases hv : g.funcCallMap v with
    | some flag =>
      rw [Option.some_or, ← hv]
      rcases hk.calls v with hsame | hx
      · exact hsame
      · obtain ⟨hnone, -⟩ := hx
        cases hv.symm.trans hnone
    | none =>
      rw [Option.none_or]
      rcases hk.calls v with hsame | hx
      · -- no flag after the insertion either, so that the other graph has no such vertex
        have hflag := h.inv.calls v
        rw [hsame, hv] at hflag
        have hother : (other.vertexIdMap v).isSome = false := by
          rw [← Bool.not_eq_true]
          intro hsome
          rw [(h.vertices v).2 (.inr hsome)] at hflag
          cases hflag
        rw [hsame, hv]
        exact (Option.not_isSome_iff_eq_none.1 (by
          rw [hInv.calls, hother]
          exact Bool.false_ne_true)).symm
      · exact hx.2

theorem LibcCallgraph.Inv.sameGraph (h : g.Inv) (h' : g'.Inv)
    (hid : g'.vertexIdMap = g.vertexIdMap) (hcall : g'.funcCallMap = g.funcCallMap)
    (hlabel : ∀ s t, g'.label s t = g.label s t) : SameGraph g g' := by
  have hvertex (i : Nat) : G.getVertex g'.graph i = G.getVertex g.graph i := by
    apply Option.ext
    intro s
    rw [← h.names, ← h'.names, hid]
  refine ⟨hid, hcall, hvertex, fun i j => ?_⟩
  by_cases hends : (G.getVertex g.graph i).isSome ∧ (G.getVertex g.graph j).isSome
  · obtain ⟨s, hs⟩ := Option.isSome_iff_exists.1 hends.1
    obtain ⟨t, ht⟩ := Option.isSome_iff_exists.1 hends.2
    have hs := (h.names s i).2 hs
    have ht := (h.names t j).2 ht
    rw [← LibcCallgraph.label_eq hs ht, ← hlabel,
      LibcCallgraph.label_eq (by rw [hid, hs]) (by rw [hid, ht])]
  · have hno : G.getEdge g.graph i j = none := by
      rw [Option.eq_none_iff_forall_ne_some]
      intro l hl
      exact hends (h.ends i j l hl)
    have hno' : G.getEdge g'.graph i j = none := by
      rw [Option.eq_none_iff_forall_ne_some]
      intro l hl
      rw [← hvertex, ← hvertex] at hends
      exact hends (h'.ends i j l hl)
    rw [hno, hno']

theorem Inserted.again (h : Inserted g other g') (hInv : other.Inv) (entry exit : String) :
    ∃ g'', g'.insertGraph other entry exit = some g'' ∧ SameGraph g' g'' := by
  obtain ⟨g'', hrun, h'⟩ := h.inv.insertGraph hInv entry exit
  have hk : KeepsMaps g' other g'' := .insertGraph h.inv hrun
  have hnames (v : String) : (g''.vertexIdMap v).isSome ↔ (g'.vertexIdMap v).isSome := by
    rw [h'.vertices]
    exact or_iff_left_of_imp fun hv => (h.vertices v).2 (.inr hv)
  have hid : g''.vertexIdMap = g'.vertexIdMap := by
    funext v
    cases hv : g'.vertexIdMap v with
    | some i => rw [hk.ids v (by rw [hv]; rfl), hv]
    | none =>
      have hno := hnames v
      rw [hv] at hno
      exact Option.not_isSome_iff_eq_none.1 fun hsome => absurd (hno.1 hsome) Bool.false_ne_true
  have hcall : g''.funcCallMap = g'.funcCallMap := by
    funext v
    rcases hk.calls v with hsame | hx
    · exact hsame
    · have hkeys := h'.inv.calls v
      rw [hid, ← h.inv.calls, hx.1] at hkeys
      exact (Option.not_isSome_iff_eq_none.1 (by rw [hkeys]; exact Bool.false_ne_true)).trans
        hx.1.symm
  refine ⟨g'', hrun, h.inv.sameGraph h'.inv hid hcall fun s t => ?_⟩
  rw [h'.labels, h.labels]
  cases g.label s t with
  | some l => rfl
  | none => cases other.label s t <;> rfl

/-- No name is in both graphs. -/
def DisjointNames (g other : LibcCallgraph G) : Prop :=
  ∀ v, ¬((g.vertexIdMap v).isSome ∧ (other.vertexIdMap v).isSome)

/-- On the names of the inserted graph the result is that graph. -/
structure ContainsExactly (g' other : LibcCallgraph G) : Prop where
  edges : ∀ s l t, (other.vertexIdMap s).isSome → (other.vertexIdMap t).isSome →
    (g'.Edge s l t ↔ other.Edge s l t)
  calls : ∀ v, (other.vertexIdMap v).isSome → g'.funcCallMap v = other.funcCallMap v

theorem IsUnion.containsExactly (h : IsUnion g other g') (hInv : g.Inv)
    (hd : DisjointNames g other) : ContainsExactly g' other := by
  refine ⟨fun s l t hs _ => ?_, fun v hv => ?_⟩
  · have hno (l' : String) : ¬g.Edge s l' t := fun he => hd s ⟨he.isSome.1, hs⟩
    rw [h.edges]
    exact ⟨fun hx => hx.elim (fun he => absurd he (hno l)) And.right, fun he => .inr ⟨hno, he⟩⟩
  · have hnone : g.funcCallMap v = none := by
      rw [← Option.not_isSome_iff_eq_none, hInv.calls]
      exact fun hsome => hd v ⟨hsome, hv⟩
    rw [h.calls, hnone, Option.none_or]

/-- `insert_graph` makes the union of two graphs, changes no id of the first one, changes nothing
a second time, and leaves a graph with names of its own as it is. -/
theorem insertGraph_isUnion (h : g.Inv) (h' : other.Inv) (entry exit : String) :
    ∃ g', g.insertGraph other entry exit = some g' ∧ IsUnion g other g' ∧
      (∀ v, (g.vertexIdMap v).isSome →
        g'.vertexIdMap v = g.vertexIdMap v ∧ g'.funcCallMap v = g.funcCallMap v) ∧
      (∃ g'', g'.insertGraph other entry exit = some g'' ∧ SameGraph g' g'') ∧
      (DisjointNames g other → ContainsExactly g' other) := by
  obtain ⟨g', hrun, hins⟩ := h.insertGraph h' entry exit
  have hk : KeepsMaps g other g' := .insertGraph h hrun
  have hunion := hins.isUnion hk h'
  refine ⟨g', hrun, hunion, fun v hv => ⟨hk.ids v hv, ?_⟩, hins.again h' entry exit,
    hunion.containsExactly h⟩
  obtain ⟨flag, hflag⟩ := Option.isSome_iff_exists.1 ((h.calls v).trans hv)
  rw [hunion.calls, hflag, Option.some_or]

/-- A function with one call of another, and the graph of that one. -/
def callerGraph : LibcCallgraph listGraaf := .ofLists ["m1", "m2"] [("m1", "user:g", "m2")]
def calleeGraph : LibcCallgraph listGraaf := .ofLists ["g1", "g2"] [("g1", "libc:puts", "g2")]

theorem callerGraph_inv : callerGraph.Inv := LibcCallgraph.ofLists_inv _ _

theorem calleeGraph_inv : calleeGraph.Inv := LibcCallgraph.ofLists_inv _ _

theorem callerGraph_disjoint : DisjointNames callerGraph calleeGraph := by
  have hcaller : callerGraph.getVertices = ["m1", "m2"] := by decide
  have hcallee : calleeGraph.getVertices = ["g1", "g2"] := by decide
  rintro v ⟨hv, hv'⟩
  rw [← LibcCallgraph.mem_getVertices callerGraph_inv, hcaller] at hv
  rw [← LibcCallgraph.mem_getVertices calleeGraph_inv, hcallee] at hv'
  simp only [List.mem_cons, List.not_mem_nil, or_false] at hv hv'
  rcases hv with rfl | rfl <;> simp at hv'

theorem calleeGraph_inserted :
    ∃ g', callerGraph.insertGraph calleeGraph "g1" "g2" = some g' ∧
      IsUnion callerGraph calleeGraph g' ∧ ContainsExactly g' calleeGraph := by
  obtain ⟨g', hrun, hunion, -, -, hexact⟩ :=
    insertGraph_isUnion callerGraph_inv calleeGraph_inv "g1" "g2"
  exact ⟨g', hrun, hunion, hexact callerGraph_disjoint⟩

end LibcSandbox

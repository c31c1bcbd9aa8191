import LibcSandbox.GraphLib.Edges
import LibcSandbox.Library.Subdivision
import LibcSandbox.Pass.Expand

namespace LibcSandbox
open Library
set_option autoImplicit true

variable {G : Graaf} {g : LibcCallgraph G}

/-- The vertex after a call of a block. -/
def callVertex (bbName libCall : String) (counter : Nat) : String :=
  bbName ++ (if foundAtStart libCall "user:" then "-user_" else "-libc_") ++ toString counter

/-- The edges and vertices for the calls of a block. -/
def chainFrom (bbName : String) : Nat → List String → List (String × String)
  | _, [] => []
  | counter, libCall :: libCalls =>
    (libCall, callVertex bbName libCall counter) :: chainFrom bbName (counter + 1) libCalls

theorem toList_callVertex (bbName libCall : String) (counter : Nat) :
    (callVertex bbName libCall counter).toList =
      (bbName.toList ++ if foundAtStart libCall "user:" then "-user".toList else "-libc".toList) ++
        '_' :: Nat.toDigits 10 counter := by
  have hdigits : (toString counter).toList = Nat.toDigits 10 counter := by
    rw [Nat.toString_eq_ofList_toDigits, String.toList_ofList]
  rw [callVertex, String.toList_append, String.toList_append, hdigits]
  split <;> simp

/-- A name tells the block and the number of the call. -/
theorem callVertex_inj (h : callVertex b c k = callVertex b' c' k') : b = b' ∧ k = k' := by
  have hlist := congrArg String.toList h
  rw [toList_callVertex, toList_callVertex] at hlist
  -- The last underscore ends the name of the block.
  obtain ⟨hname, -, hdigits⟩ := ((append_cons_cases hlist).resolve_right fun hx =>
    hx.elim (fun hx => Nat.underscore_not_in_toDigits hx.2)
      fun hx => Nat.underscore_not_in_toDigits hx.2)
  constructor
  · rw [← String.toList_inj]
    have hlast (xs ys : List Char) : xs ++ "-user".toList ≠ ys ++ "-libc".toList := by
      intro he
      have hc := congrArg List.getLast? he
      rw [List.getLast?_append, List.getLast?_append] at hc
      simp at hc
    split at hname <;> split at hname
    · exact List.append_cancel_right hname
    · exact absurd hname (hlast _ _)
    · exact absurd hname.symm (hlast _ _)
    · exact List.append_cancel_right hname
  · have hvalue := congrArg (fun ds => Nat.ofDigitChars 10 ds 0) hdigits
    simpa using hvalue

theorem trailEnd_cons (s : String) (x : String × String) (w : List (String × String)) :
    trailEnd s (x :: w) = trailEnd x.2 w := by
  rw [trailEnd, List.getLast?_cons, Option.map_some, Option.getD_some, trailEnd]
  cases w.getLast? <;> rfl

/-- The places on the chain of a block, with their names. -/
theorem trailEnd_prefix (h : before <+: chainFrom b k libCalls) :
    before = [] ∨ ∃ c, trailEnd s before = callVertex b c (k + before.length - 1) := by
  induction libCalls generalizing s k before with
  | nil => exact .inl (List.prefix_nil.1 h)
  | cons libCall libCalls ih =>
    cases before with
    | nil => exact .inl rfl
    | cons x before =>
      right
      obtain ⟨rfl, hprefix⟩ := List.cons_prefix_cons.1 h
      rw [trailEnd_cons, List.length_cons]
      rcases ih (s := callVertex b libCall k) hprefix with rfl | ⟨c, hc⟩
      · exact ⟨libCall, rfl⟩
      · refine ⟨c, hc.trans ?_⟩
        congr 1
        omega

/-- No name of a block is one that a chain may use. -/
def ChainNamesFree (blocks : String → Prop) : Prop :=
  ∀ b b', blocks b → blocks b' → ∀ k : Nat, b' ≠ b ++ "-libc_" ++ toString k ∧
    b' ≠ b ++ "-user_" ++ toString k

theorem ChainNamesFree.ne (h : ChainNamesFree blocks) (hb : blocks b) (hb' : blocks b')
    (c : String) (k : Nat) : b' ≠ callVertex b c k := by
  rw [callVertex]
  split
  · exact (h b b' hb hb' k).2
  · exact (h b b' hb hb' k).1

theorem ChainNamesFree.separate (h : ChainNamesFree blocks) (calls : String → List String) :
    Separate blocks fun b => chainFrom b 1 (calls b) := by
  intro s t before before' hs ht hbefore hbefore' heq
  rcases trailEnd_prefix (s := s) hbefore with rfl | ⟨c, hc⟩
  · rcases trailEnd_prefix (s := t) hbefore' with rfl | ⟨c', hc'⟩
    · exact ⟨heq, rfl⟩
    · exact absurd (heq.trans hc') (h.ne ht hs c' _)
  · rcases trailEnd_prefix (s := t) hbefore' with rfl | ⟨c', hc'⟩
    · exact absurd (heq.symm.trans hc) (h.ne hs ht c _)
    · obtain ⟨rfl, hlen⟩ := callVertex_inj (hc.symm.trans (heq.trans hc'))
      have hlen : before.length = before'.length := by omega
      have hprefix := List.prefix_of_prefix_length_le hbefore hbefore' (Nat.le_of_eq hlen)
      exact ⟨rfl, hprefix.eq_of_length hlen⟩

theorem LibcCallgraph.Inv.edge_extend (h : g.Inv) (hs : (g.vertexIdMap s).isSome)
    (ht : ¬(g.vertexIdMap t).isSome) (l u l' v : String) :
    (((g.addVertex t false).2.addEdge s t l).Edge u l' v ↔
      g.Edge u l' v ∨ u = s ∧ l' = l ∧ v = t) := by
  have hInv := h.addVertex t false
  have hs' := (g.vertexIdMap_addVertex t false s).2 (.inr hs)
  have ht' := (g.vertexIdMap_addVertex t false t).2 (.inl rfl)
  have hno (u : String) : g.label u t = none := by
    apply LibcCallgraph.label_absent
    right
    rwa [Option.not_isSome_iff_eq_none] at ht
  rw [← LibcCallgraph.label_eq_some_iff, ← LibcCallgraph.label_eq_some_iff,
    hInv.label_addEdge hs' ht', h.label_addVertex, h.label_addVertex, hno]
  by_cases hv : v = t
  · subst hv
    rw [hno]
    by_cases hu : u = s
    · simp only [hu, and_self, ↓reduceIte, Option.getD_none, Option.some.injEq, reduceCtorEq,
        true_and, false_or, and_true]
      exact eq_comm
    · simp only [hu, false_and, ↓reduceIte, reduceCtorEq, or_self]
  · simp only [hv, and_false, ↓reduceIte, or_false]

/-- What the loop over the calls of a block makes of the graph. -/
structure Chained (g : LibcCallgraph G) (s : String) (chain : List (String × String))
    (g' : LibcCallgraph G) : Prop where
  inv : g'.Inv
  vertices : ∀ v, (g'.vertexIdMap v).isSome ↔
    (g.vertexIdMap v).isSome ∨ ∃ x ∈ chain, x.2 = v
  edges : ∀ u l v, g'.Edge u l v ↔
    g.Edge u l v ∨ ∃ before after, chain = before ++ (l, v) :: after ∧ u = trailEnd s before

/-- A chain after one more call in front of it. -/
theorem Chained.cons {g₁ g' : LibcCallgraph G} {chain : List (String × String)}
    (h : Chained g₁ c chain g')
    (hvertex : ∀ v, (g₁.vertexIdMap v).isSome ↔ v = c ∨ (g.vertexIdMap v).isSome)
    (hedge : ∀ u l' v, g₁.Edge u l' v ↔ g.Edge u l' v ∨ u = s ∧ l' = l ∧ v = c) :
    Chained g s ((l, c) :: chain) g' := by
  refine ⟨h.inv, fun v => ?_, fun u l' v => ?_⟩
  · simp only [h.vertices, hvertex, List.mem_cons, exists_eq_or_imp, eq_comm (a := v)]
    exact or_assoc.trans or_left_comm
  · rw [h.edges, hedge, or_assoc]
    apply or_congr_right
    apply Iff.intro
    · intro hx
      rcases hx with ⟨rfl, rfl, rfl⟩ | ⟨before, after, hsplit, hu⟩
      · exact ⟨[], _, rfl, rfl⟩
      · exact ⟨_ :: before, after, by rw [hsplit]; rfl, by rw [trailEnd_cons]; exact hu⟩
    · intro hx
      obtain ⟨before, after, hsplit, hu⟩ := hx
      rcases List.cons_eq_append_iff.1 hsplit with ⟨rfl, hcons⟩ | ⟨before', rfl, hrest⟩
      · rw [List.cons.injEq, Prod.mk.injEq] at hcons
        exact .inl ⟨hu, hcons.1.1, hcons.1.2⟩
      · rw [trailEnd_cons] at hu
        exact .inr ⟨before', after, hrest, hu⟩

theorem expandCalls_chained (h : g.Inv) {k : Nat} (hs : (g.vertexIdMap s).isSome)
    (hfree : ∀ c j, k ≤ j → ¬(g.vertexIdMap (callVertex b c j)).isSome) (libCalls : List String)
    (name : String) :
    ∃ g', expandCalls b libCalls k s name g =
        (trailEnd s (chainFrom b k libCalls),
          if libCalls = [] then name else trailEnd s (chainFrom b k libCalls), g') ∧
      Chained g s (chainFrom b k libCalls) g' := by
  induction libCalls generalizing g k s name with
  | nil =>
    refine ⟨g, rfl, h, ?_, ?_⟩
    · simp [chainFrom]
    · simp [chainFrom]
  | cons libCall libCalls ih =>
    have hInv := (h.addVertex (callVertex b libCall k) false).addEdge s
      (callVertex b libCall k) libCall
    have hedge := h.edge_extend hs (hfree libCall k (Nat.le_refl k)) libCall
    have hvertex (v : String) :
        (((g.addVertex (callVertex b libCall k) false).2.addEdge s (callVertex b libCall k)
          libCall).vertexIdMap v).isSome ↔
            v = callVertex b libCall k ∨ (g.vertexIdMap v).isSome := by
      rw [LibcCallgraph.vertexIdMap_addEdge, LibcCallgraph.vertexIdMap_addVertex]
    obtain ⟨g', heq, hchained⟩ := ih hInv ((hvertex _).2 (.inl rfl)) (k := k + 1)
      (fun c j hj hx => by
        rcases (hvertex _).1 hx with hname | hx
        · exact absurd (callVertex_inj hname).2 (Nat.ne_of_gt hj)
        · exact hfree c j (Nat.le_of_succ_le hj) hx) (callVertex b libCall k)
    refine ⟨g', ?_, hchained.cons hvertex hedge⟩
    have hend : (if libCalls = [] then callVertex b libCall k
        else trailEnd (callVertex b libCall k) (chainFrom b (k + 1) libCalls)) =
        trailEnd (callVertex b libCall k) (chainFrom b (k + 1) libCalls) := by
      split
      next hnil =>
        rw [hnil]
        rfl
      next => rfl
    rw [hend] at heq
    simp only [chainFrom, trailEnd_cons, reduceCtorEq, ↓reduceIte]
    exact heq

theorem edge_moveNeighbor (h : g.Inv) (hs : (g.vertexIdMap s).isSome) (hne : s ≠ b)
    (hcontrol : ∀ l v, g.Edge s l v → l = "control") (hn : (g.vertexIdMap n).isSome)
    (u l v : String) :
    ((g.removeEdge b n).addEdge s n "control").Edge u l v ↔
      g.Edge u l v ∧ ¬(u = b ∧ v = n) ∨ u = s ∧ l = "control" ∧ v = n := by
  have hInv := h.removeEdge b n
  have hmap := g.vertexIdMap_removeEdge b n
  have hlabel : (g.label s n).getD "control" = "control" := by
    cases hl : g.label s n with
    | none => rfl
    | some l => exact hcontrol l n (LibcCallgraph.label_eq_some_iff.1 hl)
  have hremoved : (g.removeEdge b n).label s n = g.label s n := by
    rw [h.label_removeEdge, if_neg fun he => hne he.1]
  rw [← LibcCallgraph.label_eq_some_iff, ← LibcCallgraph.label_eq_some_iff,
    hInv.label_addEdge (by rw [hmap]; exact hs) (by rw [hmap]; exact hn), hremoved, hlabel,
    h.label_removeEdge]
  by_cases hv : v = n
  · subst hv
    by_cases hu : u = s
    · subst hu
      simp only [and_self, ↓reduceIte, Option.some.injEq, hne, not_false_eq_true, and_true,
        true_and]
      apply Iff.intro
      · intro hl
        exact .inr hl.symm
      · intro hx
        rcases hx with hx | hx
        · exact (hcontrol l v (LibcCallgraph.label_eq_some_iff.1 hx)).symm
        · exact hx.symm
    · by_cases hb : u = b <;> simp [hu, hb, eq_comm (a := l)]
  · simp [hv]

theorem edge_moveNeighbors (h : g.Inv) (hs : (g.vertexIdMap s).isSome) (hne : s ≠ b)
    (hcontrol : ∀ l v, g.Edge s l v → l = "control") {neighbors : List String}
    (hn : ∀ v ∈ neighbors, (g.vertexIdMap v).isSome) :
    (moveNeighbors b s neighbors g).vertexIdMap = g.vertexIdMap ∧
      ∀ u l v, (moveNeighbors b s neighbors g).Edge u l v ↔
        g.Edge u l v ∧ ¬(u = b ∧ v ∈ neighbors) ∨ u = s ∧ l = "control" ∧ v ∈ neighbors := by
  induction neighbors generalizing g with
  | nil =>
    refine ⟨rfl, fun u l v => ?_⟩
    simp [moveNeighbors]
  | cons n neighbors ih =>
    rw [List.forall_mem_cons] at hn
    have hedge := edge_moveNeighbor h hs hne hcontrol hn.1
    have hmap : ((g.removeEdge b n).addEdge s n "control").vertexIdMap = g.vertexIdMap :=
      (LibcCallgraph.vertexIdMap_addEdge _ _ _ _).trans (g.vertexIdMap_removeEdge b n)
    obtain ⟨hmap', hedges⟩ := ih ((h.removeEdge b n).addEdge s n "control") (by rw [hmap]; exact hs)
      (fun l v hl => by
        rcases (hedge s l v).1 hl with hl | hl
        · exact hcontrol l v hl.1
        · exact hl.2.1) (by rw [hmap]; exact hn.2)
    refine ⟨hmap'.trans hmap, fun u l v => ?_⟩
    rw [moveNeighbors, List.foldl_cons]
    apply (hedges u l v).trans
    rw [hedge, List.mem_cons]
    by_cases hu : u = b
    · subst hu
      simp only [hne.symm, false_and, or_false, true_and, and_assoc, not_or]
    · simp only [hu, false_and, not_false_eq_true, and_true]
      rw [or_assoc, ← and_or_left, ← and_or_left]

def callsOf (bbToLibcMap : List (String × List String)) (b : String) : List String :=
  (bbToLibcMap.lookup b).getD []

/-- The chains for the blocks that are listed. -/
def chains (bbToLibcMap : List (String × List String)) (b : String) : List (String × String) :=
  chainFrom b 1 (callsOf bbToLibcMap b)

def lastVertex (bbToLibcMap : List (String × List String)) (b : String) : String :=
  trailEnd b (chains bbToLibcMap b)

def FuncBBGraphMeta.IsBlock (m : FuncBBGraphMeta G) (b : String) : Prop :=
  (m.bbGraph.vertexIdMap b).isSome

/-- A record as it is before the expansion. -/
structure Expandable (m : FuncBBGraphMeta G) : Prop where
  inv : m.bbGraph.Inv
  entry : m.IsBlock m.entryNode
  control : ∀ u l v, m.bbGraph.Edge u l v → l = "control"
  names : ChainNamesFree m.IsBlock
  keys : (m.bbToLibcMap.map Prod.fst).Nodup
  blocks : ∀ e ∈ m.bbToLibcMap, m.IsBlock e.1
  calls : ∀ e ∈ m.bbToLibcMap, e.2 ≠ []
  labels : ∀ e ∈ m.bbToLibcMap, ∀ l ∈ e.2,
    ∃ s ∈ ["libc:", "llvm:", "decl:", "user:"], ∃ name, l = s ++ name

/-- What the loop has made of a record once it has seen some entries of the map. -/
structure ExpandedBy (m : FuncBBGraphMeta G) (done : List (String × List String))
    (m' : FuncBBGraphMeta G) : Prop where
  inv : m'.bbExpandedGraph.Inv
  vertices : ∀ v, (m'.bbExpandedGraph.vertexIdMap v).isSome ↔
    m.IsBlock v ∨ ∃ b ∈ done.map Prod.fst, ∃ x ∈ chains done b, x.2 = v
  edges : ∀ u l v, m'.bbExpandedGraph.Edge u l v ↔
    Subdivided m.bbGraph.Edge m.IsBlock (chains done) u l v
  entryNode : m'.entryNode = m.entryNode
  exitNode : m'.exitNode = lastVertex done m.exitNode

theorem Expandable.edge_blocks {m : FuncBBGraphMeta G} (_ : Expandable m) :
    ∀ u l v, m.bbGraph.Edge u l v → m.IsBlock u ∧ m.IsBlock v :=
  fun _ _ _ he => he.isSome

theorem Expandable.separate {m : FuncBBGraphMeta G} (h : Expandable m)
    (done : List (String × List String)) : Separate m.IsBlock (chains done) :=
  h.names.separate (callsOf done)

theorem lookup_not_mem {done : List (String × List String)} (hb : b ∉ done.map Prod.fst) :
    done.lookup b = none := by
  rw [List.lookup_eq_none_iff]
  intro e he
  rw [bne_iff_ne]
  rintro rfl
  exact hb (List.mem_map_of_mem he)

theorem chains_of_not_mem {done : List (String × List String)} (hb : b ∉ done.map Prod.fst) :
    chains done b = [] := by
  rw [chains, callsOf, lookup_not_mem hb]
  rfl

theorem chains_append {done : List (String × List String)} (hb : b ∉ done.map Prod.fst)
    (libCalls : List String) (c : String) :
    chains (done ++ [(b, libCalls)]) c =
      if c = b then chainFrom b 1 libCalls else chains done c := by
  rw [chains, chains, callsOf, callsOf, List.lookup_append, List.lookup_cons, List.lookup_nil]
  by_cases hc : c = b
  · rw [if_pos hc, hc, lookup_not_mem hb, BEq.rfl]
    rfl
  · rw [if_neg hc, beq_false_of_ne hc, Option.or_none]

theorem chains_append_vertex {done : List (String × List String)} (hb : b ∉ done.map Prod.fst) :
    (∃ c ∈ (done ++ [(b, libCalls)]).map Prod.fst,
        ∃ x ∈ chains (done ++ [(b, libCalls)]) c, x.2 = v) ↔
      (∃ c ∈ done.map Prod.fst, ∃ x ∈ chains done c, x.2 = v) ∨
        ∃ x ∈ chainFrom b 1 libCalls, x.2 = v := by
  have hother (c : String) (hc : c ∈ done.map Prod.fst) :
      chains (done ++ [(b, libCalls)]) c = chains done c := by
    have hcb : c ≠ b := fun he => hb (he ▸ hc)
    rw [chains_append hb, if_neg hcb]
  have hhere : chains (done ++ [(b, libCalls)]) b = chainFrom b 1 libCalls := by
    rw [chains_append hb, if_pos rfl]
  rw [List.map_append]
  apply Iff.intro
  · intro hx
    obtain ⟨c, hc, x, hx, rfl⟩ := hx
    rcases List.mem_append.1 hc with hc | hc
    · rw [hother c hc] at hx
      exact .inl ⟨c, hc, x, hx, rfl⟩
    · rw [List.mem_singleton.1 hc, hhere] at hx
      exact .inr ⟨x, hx, rfl⟩
  · intro hx
    rcases hx with ⟨c, hc, x, hx, rfl⟩ | ⟨x, hx, rfl⟩
    · exact ⟨c, List.mem_append_left _ hc, x, by rw [hother c hc]; exact hx, rfl⟩
    · exact ⟨b, List.mem_append_right _ List.mem_cons_self, x, by rw [hhere]; exact hx, rfl⟩

theorem Expandable.lastVertex_append {m : FuncBBGraphMeta G} (hm : Expandable m)
    (hdone : ∀ c ∈ done.map Prod.fst, m.IsBlock c) (hb : b ∉ done.map Prod.fst)
    (hblock : m.IsBlock b) (libCalls : List String) (c : String) :
    lastVertex (done ++ [(b, libCalls)]) c =
      if lastVertex done c = b then trailEnd b (chainFrom b 1 libCalls) else lastVertex done c := by
  by_cases hc : c = b
  · have hlast : lastVertex done c = b := by
      rw [hc, lastVertex, chains_of_not_mem hb]
      rfl
    rw [if_pos hlast, lastVertex, chains_append hb, if_pos hc, hc]
  · have hne : lastVertex done c ≠ b := by
      by_cases hkey : c ∈ done.map Prod.fst
      · intro hlast
        exact hc (hm.separate done c b _ [] (hdone _ hkey) hblock List.prefix_rfl
          List.nil_prefix hlast).1
      · rw [lastVertex, chains_of_not_mem hkey]
        exact hc
    rw [if_neg hne, lastVertex, lastVertex, chains_append hb, if_neg hc]

theorem expandedBy_nil {m : FuncBBGraphMeta G} (h : Expandable m) :
    ExpandedBy m [] { m with bbExpandedGraph := m.bbGraph } where
  inv := h.inv
  vertices := fun v => by simp [FuncBBGraphMeta.IsBlock]
  edges := fun u l v => by simp [Subdivided, chains, callsOf, chainFrom, trailEnd]
  entryNode := rfl
  exitNode := rfl

theorem mem_chainFrom (h : x ∈ chainFrom b k libCalls) : ∃ c j, k ≤ j ∧ x.2 = callVertex b c j := by
  induction libCalls generalizing k with
  | nil => cases h
  | cons libCall libCalls ih =>
    rcases List.mem_cons.1 h with rfl | h
    · exact ⟨libCall, k, Nat.le_refl k, rfl⟩
    · obtain ⟨c, j, hj, hx⟩ := ih h
      exact ⟨c, j, Nat.le_of_succ_le hj, hx⟩

theorem ExpandedBy.free {m m' : FuncBBGraphMeta G} (hm : Expandable m) (h : ExpandedBy m done m')
    (hb : b ∉ done.map Prod.fst) (hblock : m.IsBlock b) (c : String) (j : Nat) :
    ¬(m'.bbExpandedGraph.vertexIdMap (callVertex b c j)).isSome := by
  rw [h.vertices]
  intro hx
  rcases hx with hx | ⟨b', hb', x, hx, heq⟩
  · exact hm.names.ne hblock hx c j rfl
  · obtain ⟨c', j', -, hname⟩ := mem_chainFrom hx
    rw [hname] at heq
    rw [(callVertex_inj heq).1] at hb'
    exact hb hb'

/-- The chain of a block that is seen next, and where it ends. -/
structure NewChain (g : LibcCallgraph G) (b : String)
    (chain : List (String × String)) : Prop where
  present : ∃ x ∈ chain, trailEnd b chain = x.2
  fresh : ∀ x ∈ chain, ¬(g.vertexIdMap x.2).isSome
  ne : trailEnd b chain ≠ b
  last : ∀ before x after, chain = before ++ x :: after → trailEnd b chain ≠ trailEnd b before

theorem ExpandedBy.newChain {m m' : FuncBBGraphMeta G} (hm : Expandable m)
    (h : ExpandedBy m done m') (hb : b ∉ done.map Prod.fst) (hblock : m.IsBlock b)
    (hcalls : libCalls ≠ []) :
    NewChain m'.bbExpandedGraph b (chainFrom b 1 libCalls) := by
  have hne : chainFrom b 1 libCalls ≠ [] := by
    cases libCalls with
    | nil => exact absurd rfl hcalls
    | cons libCall libCalls => exact List.cons_ne_nil _ _
  have hfresh : ∀ x ∈ chainFrom b 1 libCalls,
      ¬(m'.bbExpandedGraph.vertexIdMap x.2).isSome := by
    intro x hx
    obtain ⟨c, j, -, hname⟩ := mem_chainFrom hx
    rw [hname]
    exact h.free hm hb hblock c j
  obtain ⟨x, hx, hend⟩ := trailEnd_of_ne_nil b hne
  refine ⟨⟨x, hx, hend⟩, hfresh, ?_, ?_⟩
  · intro heq
    apply hfresh x hx
    rw [← hend, heq, h.vertices]
    exact .inl hblock
  · intro before y after hsplit heq
    have hsep := hm.names.separate fun _ => libCalls
    have hfull := (hsep b b _ before hblock hblock List.prefix_rfl ⟨_, hsplit.symm⟩ heq).2
    have hlen := congrArg List.length (hfull.symm.trans hsplit)
    rw [List.length_append, List.length_cons] at hlen
    omega

theorem Chained.edge_end (h : Chained g b chain g') (hnew : NewChain g b chain) (l v : String) :
    ¬g'.Edge (trailEnd b chain) l v := by
  rw [h.edges]
  intro hx
  rcases hx with hx | ⟨before, after, hsplit, heq⟩
  · obtain ⟨x, hx', hend⟩ := hnew.present
    exact hnew.fresh x hx' (hend ▸ hx.isSome.1)
  · exact hnew.last before _ after hsplit heq

theorem LibcCallgraph.Inv.mem_neighbors (h : g.Inv) :
    v ∈ (g.outgoing s).map Prod.snd ↔ ∃ l, g.Edge s l v := by
  obtain ⟨-, -, hmem⟩ := h.outgoing s
  simp only [List.mem_map, Prod.exists, hmem, exists_eq_right]

/-- A block that has not been seen has the edges that it has in the graph of blocks. -/
theorem ExpandedBy.edge_block {m m' : FuncBBGraphMeta G} (hm : Expandable m)
    (h : ExpandedBy m done m') (hb : b ∉ done.map Prod.fst) (hblock : m.IsBlock b)
    (l v : String) : m'.bbExpandedGraph.Edge b l v ↔ m.bbGraph.Edge b l v := by
  rw [h.edges]
  exact subdivided_iff_of_nil (hm.separate done) hm.edge_blocks hblock (chains_of_not_mem hb) l v

/-- The edges once the chain of a block is there and its neighbours are moved to the end of it. -/
theorem ExpandedBy.edges_append {m m' : FuncBBGraphMeta G} (hm : Expandable m)
    (h : ExpandedBy m done m') (hb : b ∉ done.map Prod.fst) (hblock : m.IsBlock b)
    (hnew : NewChain m'.bbExpandedGraph b (chainFrom b 1 libCalls))
    (hchained : Chained m'.bbExpandedGraph b (chainFrom b 1 libCalls) g) (u l v : String) :
    (g.Edge u l v ∧ ¬(u = b ∧ v ∈ (m'.bbExpandedGraph.outgoing b).map Prod.snd) ∨
      u = trailEnd b (chainFrom b 1 libCalls) ∧ l = "control" ∧
        v ∈ (m'.bbExpandedGraph.outgoing b).map Prod.snd) ↔
      Subdivided m.bbGraph.Edge m.IsBlock (chains (done ++ [(b, libCalls)])) u l v := by
  have hhere : chains (done ++ [(b, libCalls)]) b = chainFrom b 1 libCalls := by
    rw [chains_append hb, if_pos rfl]
  have hother (c : String) (hc : c ≠ b) : chains (done ++ [(b, libCalls)]) c = chains done c := by
    rw [chains_append hb, if_neg hc]
  rw [hchained.edges, h.inv.mem_neighbors, subdivided_extend_iff (hm.separate _) hm.edge_blocks
    hblock (chains_of_not_mem hb) hother, hhere, ← h.edges]
  apply Iff.intro
  · intro hx
    rcases hx with ⟨hx | hx, hno⟩ | ⟨rfl, rfl, l, hl⟩
    · exact .inl ⟨hx, fun hu => hno ⟨hu, l, hu ▸ hx⟩⟩
    · exact .inr (.inl hx)
    · rw [h.edge_block hm hb hblock] at hl
      rw [← hm.control b l v hl]
      exact .inr (.inr ⟨rfl, hl⟩)
  · intro hx
    rcases hx with ⟨hx, hu⟩ | ⟨before, after, hsplit, hu⟩ | ⟨rfl, hx⟩
    · exact .inl ⟨.inl hx, fun hno => hu hno.1⟩
    · refine .inl ⟨.inr ⟨before, after, hsplit, hu⟩, fun hno => ?_⟩
      obtain ⟨l', hl'⟩ := hno.2
      apply hnew.fresh (l, v) _ hl'.isSome.2
      rw [hsplit]
      exact List.mem_append_right _ List.mem_cons_self
    · exact .inr ⟨rfl, hm.control b l v hx, l, (h.edge_block hm hb hblock l v).2 hx⟩

theorem ExpandedBy.expandBlock {m m' : FuncBBGraphMeta G} (hm : Expandable m)
    (h : ExpandedBy m done m') (hdone : ∀ c ∈ done.map Prod.fst, m.IsBlock c)
    (hb : b ∉ done.map Prod.fst) (hblock : m.IsBlock b) (hcalls : libCalls ≠ []) :
    ∃ m'', expandBlock m' (b, libCalls) = some m'' ∧
      ExpandedBy m (done ++ [(b, libCalls)]) m'' := by
  have hpresent : (m'.bbExpandedGraph.vertexIdMap b).isSome := (h.vertices b).2 (.inl hblock)
  have hnew := h.newChain hm hb hblock hcalls
  obtain ⟨g', heq, hchained⟩ := expandCalls_chained (k := 1) h.inv hpresent
    (fun c j _ => h.free hm hb hblock c j) libCalls ""
  rw [if_neg hcalls] at heq
  obtain ⟨-, hneighbors, -⟩ := h.inv.outgoing b
  have hcontrol : ∀ l v, g'.Edge (trailEnd b (chainFrom b 1 libCalls)) l v → l = "control" :=
    fun l v he => absurd he (hchained.edge_end hnew l v)
  have hend : (g'.vertexIdMap (trailEnd b (chainFrom b 1 libCalls))).isSome := by
    obtain ⟨x, hx, hlast⟩ := hnew.present
    rw [hlast, hchained.vertices]
    exact .inr ⟨x, hx, rfl⟩
  have hn : ∀ v ∈ (m'.bbExpandedGraph.outgoing b).map Prod.snd, (g'.vertexIdMap v).isSome := by
    intro v hv
    obtain ⟨l, hl⟩ := h.inv.mem_neighbors.1 hv
    exact (hchained.vertices v).2 (.inl hl.isSome.2)
  obtain ⟨hmap, hedges⟩ := edge_moveNeighbors hchained.inv hend hnew.ne hcontrol hn
  refine ⟨{ m' with
    exitNode := if m'.exitNode = b then trailEnd b (chainFrom b 1 libCalls) else m'.exitNode
    bbExpandedGraph := moveNeighbors b (trailEnd b (chainFrom b 1 libCalls))
      ((m'.bbExpandedGraph.outgoing b).map Prod.snd) g' }, ?_, ?_⟩
  · rw [LibcSandbox.expandBlock, hneighbors, Option.bind_eq_bind, Option.bind_some, heq]
    rfl
  · constructor
    · exact hchained.inv.moveNeighbors _ _ _
    · intro v
      rw [hmap, hchained.vertices, h.vertices, or_assoc, chains_append_vertex hb]
    · intro u l v
      rw [hedges]
      exact h.edges_append hm hb hblock hnew hchained u l v
    · exact h.entryNode
    · simp only [h.exitNode]
      exact (hm.lastVertex_append hdone hb hblock libCalls m.exitNode).symm

theorem expandBlocks_expandedBy {m m' : FuncBBGraphMeta G} (hm : Expandable m)
    (h : ExpandedBy m done m') (hall : m.bbToLibcMap = done ++ rest) :
    ∃ m'', rest.foldlM LibcSandbox.expandBlock m' = some m'' ∧ ExpandedBy m m.bbToLibcMap m'' := by
  induction rest generalizing done m' with
  | nil =>
    rw [List.append_nil] at hall
    exact ⟨m', rfl, hall ▸ h⟩
  | cons e rest ih =>
    obtain ⟨b, libCalls⟩ := e
    have hmem : (b, libCalls) ∈ m.bbToLibcMap := by
      rw [hall]
      exact List.mem_append_right _ List.mem_cons_self
    have hkeys := hm.keys
    rw [hall, List.map_append, List.map_cons, List.nodup_append] at hkeys
    have hb : b ∉ done.map Prod.fst := fun hb => hkeys.2.2 b hb b List.mem_cons_self rfl
    have hdone : ∀ c ∈ done.map Prod.fst, m.IsBlock c := by
      intro c hc
      obtain ⟨e, he, rfl⟩ := List.mem_map.1 hc
      exact hm.blocks e (hall ▸ List.mem_append_left _ he)
    obtain ⟨m₁, h₁, hm₁⟩ := h.expandBlock hm hdone hb (hm.blocks _ hmem) (hm.calls _ hmem)
    obtain ⟨m₂, h₂, hm₂⟩ := ih hm₁ (by rw [hall, List.append_cons])
    refine ⟨m₂, ?_, hm₂⟩
    rw [List.foldlM_cons, h₁]
    exact h₂

theorem expandBBGraph_expandedBy {m : FuncBBGraphMeta G} (h : Expandable m) :
    ∃ m', expandBBGraph m = some m' ∧ ExpandedBy m m.bbToLibcMap m' :=
  expandBlocks_expandedBy h (expandedBy_nil h) rfl

theorem label_ne_control (h : ∃ s ∈ ["libc:", "llvm:", "decl:", "user:"], ∃ name, l = s ++ name) :
    l ≠ "control" := by
  obtain ⟨s, hs, name, rfl⟩ := h
  rw [ne_eq, ← String.toList_inj, String.toList_append]
  simp only [List.mem_cons, List.not_mem_nil, or_false] at hs
  rcases hs with rfl | rfl | rfl | rfl <;> simp

theorem map_chainFrom (b : String) (k : Nat) (libCalls : List String) :
    (chainFrom b k libCalls).map Prod.fst = libCalls := by
  induction libCalls generalizing k with
  | nil => rfl
  | cons libCall libCalls ih => rw [chainFrom, List.map_cons, ih]

theorem mem_callsOf (h : l ∈ callsOf done b) : ∃ e ∈ done, l ∈ e.2 := by
  rw [callsOf] at h
  cases hlookup : done.lookup b with
  | none =>
    rw [hlookup] at h
    cases h
  | some libCalls =>
    rw [hlookup] at h
    exact ⟨(b, libCalls), mem_of_lookup hlookup, h⟩

/-- The trails of the expanded graph to the ends of blocks are, one to one, the trails of the graph
of blocks, and show the calls of the blocks that are visited. -/
theorem expandBBGraph_traces {m : FuncBBGraphMeta G} (h : Expandable m) :
    ∃ m', expandBBGraph m = some m' ∧
      Set.BijOn (expandTrail (chains m.bbToLibcMap) m.entryNode)
        {w | ∃ b, Trail m.bbGraph.Edge m.entryNode w b}
        {w | ∃ b, m.IsBlock b ∧
          Trail m'.bbExpandedGraph.Edge m'.entryNode w (lastVertex m.bbToLibcMap b)} ∧
      (∀ w b, Trail m.bbGraph.Edge m.entryNode w b →
        Trail m'.bbExpandedGraph.Edge m'.entryNode
          (expandTrail (chains m.bbToLibcMap) m.entryNode w) (lastVertex m.bbToLibcMap b) ∧
        visible "control" ((expandTrail (chains m.bbToLibcMap) m.entryNode w).map Prod.fst) =
          (m.entryNode :: w.map Prod.snd).flatMap (callsOf m.bbToLibcMap)) ∧
      m'.exitNode = lastVertex m.bbToLibcMap m.exitNode := by
  obtain ⟨m', hm', hexpanded⟩ := expandBBGraph_expandedBy h
  have hedge : m'.bbExpandedGraph.Edge =
      Subdivided m.bbGraph.Edge m.IsBlock (chains m.bbToLibcMap) := by
    funext u l v
    exact propext (hexpanded.edges u l v)
  have hcalls (b : String) : (chains m.bbToLibcMap b).map Prod.fst = callsOf m.bbToLibcMap b :=
    map_chainFrom b 1 _
  have hlabels : ∀ b, ∀ x ∈ chains m.bbToLibcMap b, x.1 ≠ "control" := by
    intro b x hx
    have hmem : x.1 ∈ callsOf m.bbToLibcMap b := hcalls b ▸ List.mem_map_of_mem hx
    obtain ⟨e, he, hl⟩ := mem_callsOf hmem
    exact label_ne_control (h.labels e he x.1 hl)
  refine ⟨m', hm', ?_, ?_, hexpanded.exitNode⟩
  · rw [hedge, hexpanded.entryNode]
    exact expandTrail_bijOn h.edge_blocks (h.separate _) h.entry
  · intro w b hw
    rw [hedge, hexpanded.entryNode]
    refine ⟨trail_expandTrail h.edge_blocks h.entry hw, ?_⟩
    rw [visible_expandTrail h.control hlabels hw]
    simp only [hcalls]

/-- A block before a loop that makes two calls. -/
def loopRecord : FuncBBGraphMeta listGraaf where
  entryNode := "A"
  exitNode := "B"
  bbToLibcMap := [("B", ["libc:puts", "user:f"])]
  bbGraph := .ofLists ["A", "B"] [("A", "control", "B"), ("B", "control", "B")]
  bbExpandedGraph := .empty
  libcCallGraph := .empty

theorem loopRecord_isBlock : loopRecord.IsBlock b ↔ b ∈ ["B", "A"] := by
  have hInv : loopRecord.bbGraph.Inv := LibcCallgraph.ofLists_inv _ _
  rw [FuncBBGraphMeta.IsBlock, ← LibcCallgraph.mem_getVertices hInv]
  have hvertices : loopRecord.bbGraph.getVertices = ["A", "B"] := by decide +kernel
  rw [hvertices]
  simp only [List.mem_cons, List.not_mem_nil, or_false]
  exact or_comm

theorem loopRecord_edge :
    loopRecord.bbGraph.Edge u l v ↔ (u, l, v) ∈ [("B", "control", "B"), ("A", "control", "B")] := by
  have hInv : loopRecord.bbGraph.Inv := LibcCallgraph.ofLists_inv _ _
  have hedges : loopRecord.bbGraph.edges =
      [("B", "control", "B"), ("A", "control", "B")] := by decide +kernel
  exact hInv.edge_of_edges hedges u l v

theorem loopRecord_expandable : Expandable loopRecord where
  inv := LibcCallgraph.ofLists_inv _ _
  entry := loopRecord_isBlock.2 (by simp [loopRecord])
  control := by
    intro u l v h
    rw [loopRecord_edge] at h
    simp only [List.mem_cons, Prod.mk.injEq, List.not_mem_nil, or_false] at h
    rcases h with h | h <;> exact h.2.1
  names := by
    intro b b' hb hb' k
    have hlen : b'.length = 1 := by
      rw [loopRecord_isBlock] at hb'
      simp only [List.mem_cons, List.not_mem_nil, or_false] at hb'
      rcases hb' with rfl | rfl <;> rfl
    constructor
    · rintro rfl
      simp only [String.length_append] at hlen
      have : "-libc_".length = 6 := rfl
      omega
    · rintro rfl
      simp only [String.length_append] at hlen
      have : "-user_".length = 6 := rfl
      omega
  keys := by simp [loopRecord]
  blocks := by
    intro e he
    rw [List.mem_singleton.1 he, loopRecord_isBlock]
    exact List.mem_cons_self
  calls := by simp [loopRecord]
  labels := by
    intro e he l hl
    simp only [loopRecord, List.mem_singleton] at he
    subst he
    simp only [List.mem_cons, List.not_mem_nil, or_false] at hl
    rcases hl with rfl | rfl
    · exact ⟨"libc:", by simp, "puts", rfl⟩
    · exact ⟨"user:", by simp, "f", rfl⟩

theorem loopRecord_traces :
    ∃ m', expandBBGraph loopRecord = some m' ∧ m'.exitNode = "B-user_2" ∧
      ∃ w, Trail m'.bbExpandedGraph.Edge m'.entryNode w "B-user_2" ∧
        visible "control" (w.map Prod.fst) = ["libc:puts", "user:f", "libc:puts", "user:f"] := by
  obtain ⟨m', hm', -, htrails, hexit⟩ := expandBBGraph_traces loopRecord_expandable
  have htrail : Trail loopRecord.bbGraph.Edge loopRecord.entryNode
      [("control", "B"), ("control", "B")] "B" := by
    apply Path.cons ⟨loopRecord_edge.2 (by simp [loopRecord]), rfl⟩
    apply Path.cons ⟨loopRecord_edge.2 (by simp), rfl⟩
    exact .nil _
  obtain ⟨hpath, hvisible⟩ := htrails _ _ htrail
  exact ⟨m', hm', hexit, _, hpath, hvisible⟩

end LibcSandbox

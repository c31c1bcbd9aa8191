import LibcSandbox.Pass.RunOnModule

namespace LibcSandbox
open Library
set_option autoImplicit true

variable {G : Graaf} {r : FileToMapReader} {m : IRModule}
  {records records' : List (String × FuncBBGraphMeta G)}
  {replace : FuncBBGraphMeta G → Option (FuncBBGraphMeta G)}

/-- The names of the blocks of a function, and of the vertices that its calls get. -/
def NamedIn (funcName v : String) : Prop :=
  ∃ rest, Quoting '"' ']' rest ∧ v.toList = '[' :: (funcName.toList ++ ']' :: '%' :: rest)

/-- The name of the function can be read off. -/
theorem NamedIn.inj (h : NamedIn f v) (h' : NamedIn f' v) : f = f' := by
  obtain ⟨rest, hq, hv⟩ := h
  obtain ⟨rest', hq', hv'⟩ := h'
  rw [hv, List.cons.injEq] at hv'
  have hfront := hq.front_inj hq' (by decide) (by decide) (by decide) hv'.2
  rwa [String.toList_inj] at hfront

theorem toList_blockName (funcName : String) (operand : PrintedOperand) :
    (blockName funcName operand).toList =
      '[' :: (funcName.toList ++ ']' :: '%' :: operand.text) := by
  rw [blockName, String.toList_append, String.toList_append, String.toList_append,
    String.toList_ofList, List.append_assoc, List.append_assoc]
  simp

theorem namedIn_blockName (funcName : String) (operand : PrintedOperand) :
    NamedIn funcName (blockName funcName operand) :=
  ⟨operand.text, operand.quoting, toList_blockName funcName operand⟩

/-- What is put behind the name of a block leaves the function readable. -/
theorem NamedIn.callVertex (h : NamedIn f b) (libCall : String) (k : Nat) :
    NamedIn f (callVertex b libCall k) := by
  obtain ⟨rest, hq, hb⟩ := h
  refine ⟨rest ++ ((if foundAtStart libCall "user:" then "-user".toList else "-libc".toList) ++
    '_' :: Nat.toDigits 10 k), hq.append ?_ ?_, ?_⟩
  · rw [List.mem_append, List.mem_cons]
    have hquote : '"' ∉ Nat.toDigits 10 k := not_mem_toDigits (by decide) k
    split <;> simp [hquote]
  · rw [List.mem_append, List.mem_cons]
    have hbracket : ']' ∉ Nat.toDigits 10 k := not_mem_toDigits (by decide) k
    split <;> simp [hbracket]
  · rw [toList_callVertex, hb]
    simp only [List.cons_append, List.append_assoc]

theorem replaceRecords_cons_eq_some
    (h : replaceRecords replace (entry :: records) = some records') :
    ∃ funcMeta rest, replace entry.2 = some funcMeta ∧ replaceRecords replace records = some rest ∧
      records' = (entry.1, funcMeta) :: rest := by
  rw [replaceRecords, Option.bind_eq_bind, Option.bind_eq_some_iff] at h
  obtain ⟨funcMeta, hm, h⟩ := h
  rw [Option.bind_eq_bind, Option.bind_eq_some_iff] at h
  obtain ⟨rest, hrest, h⟩ := h
  cases h
  exact ⟨funcMeta, rest, hm, hrest, rfl⟩

theorem replaceRecords_some (replace : FuncBBGraphMeta G → Option (FuncBBGraphMeta G))
    (records : List (String × FuncBBGraphMeta G)) (h : ∀ e ∈ records, ∃ m', replace e.2 = some m') :
    ∃ records', replaceRecords replace records = some records' := by
  induction records with
  | nil => exact ⟨[], rfl⟩
  | cons e records ih =>
    rw [List.forall_mem_cons] at h
    obtain ⟨m', hm'⟩ := h.1
    obtain ⟨records', hrecords'⟩ := ih h.2
    exact ⟨(e.1, m') :: records', by rw [replaceRecords, hm', hrecords']; rfl⟩

theorem mem_replaceRecords (h : replaceRecords replace records = some records')
    (he : (f, m') ∈ records') : ∃ m, (f, m) ∈ records ∧ replace m = some m' := by
  induction records generalizing records' with
  | nil =>
    cases h
    cases he
  | cons e records ih =>
    obtain ⟨funcMeta, rest, hm, hrest, rfl⟩ := replaceRecords_cons_eq_some h
    rcases List.mem_cons.1 he with heq | he
    · cases heq
      exact ⟨e.2, List.mem_cons_self, hm⟩
    · obtain ⟨m, hmem, heq⟩ := ih hrest he
      exact ⟨m, List.mem_cons_of_mem _ hmem, heq⟩

theorem lookup_replaceRecords (h : replaceRecords replace records = some records') (f : String) :
    records'.lookup f = (records.lookup f).bind replace := by
  induction records generalizing records' with
  | nil =>
    cases h
    rfl
  | cons e records ih =>
    obtain ⟨funcMeta, rest, hm, hrest, rfl⟩ := replaceRecords_cons_eq_some h
    rw [List.lookup_cons, List.lookup_cons]
    cases hf : f == e.1 with
    | true => exact hm.symm
    | false => exact ih hrest

/-- A call that the function makes, by its label. -/
def FileToMapReader.CallOf (r : FileToMapReader) (f : ModuleFunction) (l : String) : Prop :=
  ∃ bb ∈ f.blocks, l ∈ r.getLibraryCalls bb.block.instructions

/-- The functions that get a record. -/
structure ModuleFunction.Processed (f : ModuleFunction) : Prop where
  defined : f.blocks ≠ []
  notSkipped : isSkipped f.getName = false

theorem mem_funcBBToMetaMap : (s, m') ∈ (r.funcBBToMetaMap m : List (String × FuncBBGraphMeta G)) ↔
    ∃ f ∈ m.functions, ∃ h : f.Processed, s = f.getName ∧ m' = r.generateCallGraph (f.body h.1) := by
  rw [FileToMapReader.funcBBToMetaMap, List.mem_filterMap]
  apply Iff.intro
  · intro hx
    obtain ⟨f, hf, hmeta⟩ := hx
    rw [FileToMapReader.funcMeta] at hmeta
    split at hmeta
    · cases hmeta
    next hne =>
      split at hmeta
      · cases hmeta
      next hskip =>
        cases hmeta
        exact ⟨f, hf, ⟨hne, Bool.eq_false_iff.2 hskip⟩, rfl, rfl⟩
  · intro hx
    obtain ⟨f, hf, h, rfl, rfl⟩ := hx
    refine ⟨f, hf, ?_⟩
    rw [FileToMapReader.funcMeta, dif_neg h.defined, if_neg (Bool.eq_false_iff.1 h.notSkipped)]

/-- The vertices that a function gets: its blocks, and one for each call in a block. -/
def FileToMapReader.VertexOf (r : FileToMapReader) (f : ModuleFunction) (v : String) : Prop :=
  ∃ bb ∈ f.blocks, v = blockName f.getName bb.operand ∨
    ∃ l ∈ r.getLibraryCalls bb.block.instructions, ∃ k,
      v = callVertex (blockName f.getName bb.operand) l k

theorem FileToMapReader.VertexOf.namedIn (h : r.VertexOf f v) : NamedIn f.getName v := by
  obtain ⟨bb, -, rfl | ⟨l, -, k, rfl⟩⟩ := h
  · exact namedIn_blockName f.getName bb.operand
  · exact (namedIn_blockName f.getName bb.operand).callVertex l k

theorem vertexOf_body (r : FileToMapReader) (f : ModuleFunction) (h : f.blocks ≠ []) :
    ∀ bb ∈ (f.body h).blocks, r.VertexOf f bb.getName := by
  intro bb hbb
  obtain ⟨sb, hsb, rfl⟩ := List.mem_map.1 hbb
  exact ⟨sb, hsb, .inl rfl⟩

theorem mem_bbToLibcMap_body (r : FileToMapReader) (f : ModuleFunction) (h : f.blocks ≠ [])
    (he : e ∈ r.bbToLibcMap (f.body h)) : ∀ l ∈ e.2,
      (∀ k, r.VertexOf f (callVertex e.1 l k)) ∧ r.CallOf f l := by
  obtain ⟨hmem, -⟩ := List.mem_filter.1 ((r.bbToLibcMap_perm _).mem_iff.1 he)
  obtain ⟨bb, hbb, rfl⟩ := List.mem_map.1 hmem
  obtain ⟨sb, hsb, rfl⟩ := List.mem_map.1 hbb
  intro l hl
  exact ⟨fun k => ⟨sb, hsb, .inr ⟨l, hl, k, rfl⟩⟩, sb, hsb, hl⟩

/-- The graph that is made of a function: with its blocks and the vertices of its calls, and nothing
but its calls. -/
structure FileToMapReader.GraphOf (r : FileToMapReader) (f : ModuleFunction) (g : LibcCallgraph G) :
    Prop where
  processed : f.Processed
  within : g.Within (r.VertexOf f) (r.CallOf f)

theorem libcCallGraphs_some (r : FileToMapReader) (m : IRModule) :
    ∃ records, r.libcCallGraphs m = some (records : List (String × FuncBBGraphMeta G)) ∧
      ∀ e ∈ records, ∃ f ∈ m.functions, e.1 = f.getName ∧ r.GraphOf f e.2.libcCallGraph := by
  have hstart (s : String) (m₀ : FuncBBGraphMeta G) (hm₀ : (s, m₀) ∈ r.funcBBToMetaMap m) :
      ∃ f ∈ m.functions, s = f.getName ∧ f.Processed ∧ m₀.bbGraph.Inv ∧
        ∀ m₁, expandBBGraph m₀ = some m₁ → m₁.bbExpandedGraph.Within (r.VertexOf f)
          fun l => l = "control" ∨ r.CallOf f l := by
    obtain ⟨f, hf, hp, rfl, rfl⟩ := mem_funcBBToMetaMap.1 hm₀
    have hw : (r.generateCallGraph (f.body hp.1) : FuncBBGraphMeta G).bbGraph.Within
        (r.VertexOf f) fun l => l = "control" ∨ r.CallOf f l :=
      generateCallGraph_within r _ (vertexOf_body r f hp.1) (.inl rfl)
    refine ⟨f, hf, rfl, hp, hw.inv, fun m₁ hm₁ => expandBBGraph_within hw ?_ ?_ (.inl rfl) hm₁⟩
    · intro e he l hl
      exact (mem_bbToLibcMap_body r f hp.1 he l hl).1
    · intro e he l hl
      exact .inr (mem_bbToLibcMap_body r f hp.1 he l hl).2
  obtain ⟨expanded, hexpanded⟩ := replaceRecords_some expandBBGraph
    (r.funcBBToMetaMap m : List (String × FuncBBGraphMeta G)) fun e he => by
      obtain ⟨f, -, -, -, hI, -⟩ := hstart e.1 e.2 he
      obtain ⟨m₁, hm₁, -⟩ := expandBBGraph_some hI
      exact ⟨m₁, hm₁⟩
  have hmiddle (s : String) (m₁ : FuncBBGraphMeta G) (hm₁ : (s, m₁) ∈ expanded) :
      ∃ f ∈ m.functions, s = f.getName ∧ f.Processed ∧
        m₁.bbExpandedGraph.Within (r.VertexOf f) fun l => l = "control" ∨ r.CallOf f l := by
    obtain ⟨m₀, hm₀, hexpand⟩ := mem_replaceRecords hexpanded hm₁
    obtain ⟨f, hf, hs, hp, -, hw⟩ := hstart s m₀ hm₀
    exact ⟨f, hf, hs, hp, hw m₁ hexpand⟩
  obtain ⟨records, hrecords⟩ := replaceRecords_some
    (fun m : FuncBBGraphMeta G => (convertBBGraphToLibcCallGraph m).map Prod.fst)
    expanded fun e he => by
      obtain ⟨f, -, -, -, hw⟩ := hmiddle e.1 e.2 he
      obtain ⟨m₂, ms, hm₂, -⟩ := convertBBGraphToLibcCallGraph_some hw.inv
      exact ⟨m₂, by rw [hm₂]; rfl⟩
  refine ⟨records, ?_, fun e he => ?_⟩
  · rw [FileToMapReader.libcCallGraphs, expandBBGraphs, hexpanded]
    exact hrecords
  · obtain ⟨m₁, hm₁, hconvert⟩ := mem_replaceRecords hrecords he
    obtain ⟨f, hf, hs, hp, hw⟩ := hmiddle e.1 m₁ hm₁
    obtain ⟨⟨m₂, ms⟩, hm₂, heq⟩ := Option.map_eq_some_iff.1 hconvert
    have hmeta : m₂ = e.2 := heq
    subst hmeta
    have hw₂ := convertBBGraphToLibcCallGraph_within hw hm₂
    refine ⟨f, hf, hs, hp, hw₂.inv, hw₂.vertices, fun u l v he => ?_⟩
    exact (hw₂.labels u l v he).resolve_left (convertBBGraphToLibcCallGraph_done hw.inv hm₂ he)

theorem libcCallGraphs_disjoint (h : r.libcCallGraphs m = some records) :
    (FuncMap.ofList records).Disjoint := by
  obtain ⟨records', heq, hgraphs⟩ := libcCallGraphs_some (G := G) r m
  cases h.symm.trans heq
  apply FuncMap.ofList_disjoint
  · intro e he
    obtain ⟨f, -, -, hg⟩ := hgraphs e he
    exact hg.within.inv
  · intro e he e' he' v hv hv'
    obtain ⟨f, -, hs, hg⟩ := hgraphs e he
    obtain ⟨f', -, hs', hg'⟩ := hgraphs e' he'
    rw [LibcCallgraph.mem_getVertices hg.within.inv] at hv
    rw [LibcCallgraph.mem_getVertices hg'.within.inv] at hv'
    rw [hs, hs']
    exact (hg.within.vertices v hv).namedIn.inj (hg'.within.vertices v hv').namedIn

end LibcSandbox

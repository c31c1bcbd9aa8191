import LibcSandbox.Pass.CombineGraphs
import LibcSandbox.Pass.Precision

namespace LibcSandbox
open Library
set_option autoImplicit true

variable {G : Graaf} {g : LibcCallgraph G} {m : String × String}

def isLibc (edge : String) : Bool := foundAtStart edge "libc:"

/-- An edge that is no call: neither of the library nor of a function. -/
def FreeEdge (E : String → String → String → Prop) (u l v : String) : Prop :=
  E u l v ∧ isLibc l = false ∧ isUser l = false

/-- Every path from the first vertex to the second makes a call. -/
def Separated (s : LibcCallgraph G × String × String) : Prop :=
  ∀ w, Path s.1.Edge s.2.1 w s.2.2 → ∃ l ∈ w, isLibc l = true ∨ isUser l = true

theorem separated_iff {s : LibcCallgraph G × String × String} :
    Separated s ↔ ¬Reaches (FreeEdge s.1.Edge) s.2.1 s.2.2 := by
  apply Iff.intro
  · intro h hr
    obtain ⟨w, hw⟩ := hr
    obtain ⟨hw, hfree⟩ := path_restrict_iff.1 hw
    obtain ⟨l, hl, hcall⟩ := h w hw
    obtain ⟨hlibc, huser⟩ := hfree l hl
    rw [hlibc, huser] at hcall
    exact hcall.elim Bool.false_ne_true Bool.false_ne_true
  · intro h w hw
    apply Classical.byContradiction
    intro hno
    apply h
    refine ⟨w, path_restrict_iff.2 ⟨hw, fun l hl => ?_⟩⟩
    rw [← Bool.not_eq_true, ← Bool.not_eq_true]
    exact ⟨fun hx => hno ⟨l, hl, .inl hx⟩, fun hx => hno ⟨l, hl, .inr hx⟩⟩

/-- A merge, with the vertices that two others were merged into. -/
def followPair (s : LibcCallgraph G × String × String) (m : String × String) :
    LibcCallgraph G × String × String :=
  (combine s.1 m, (follow (s.1, s.2.1) m).2, (follow (s.1, s.2.2) m).2)

/-- A merge does not join what the first vertex reaches without a call and what reaches the second
one without a call. -/
def MergeSeparates (s : LibcCallgraph G × String × String) (m : String × String) : Prop :=
  (s.1.vertexIdMap m.1).isSome →
    ¬Passes (FreeEdge (KeptEdge s.1 m)) m.1 m.2 s.2.1 s.2.2

theorem followPair_absent {s : LibcCallgraph G × String × String}
    (h : s.1.vertexIdMap m.1 = none) : followPair s m = s := by
  have hfollow (v : String) : follow (s.1, v) m = (s.1, v) := follow_absent h
  have hgraph : combine s.1 m = s.1 := congrArg Prod.fst (hfollow s.2.1)
  rw [followPair, hfollow, hfollow, hgraph]

theorem followPair_present {s : LibcCallgraph G × String × String}
    (h : (s.1.vertexIdMap m.1).isSome) :
    followPair s m = (combine s.1 m, rename m s.2.1, rename m s.2.2) := by
  have hfollow (v : String) : follow (s.1, v) m = (combine s.1 m, rename m v) := follow_present h
  rw [followPair, hfollow, hfollow]

theorem followPair_separated_iff {s : LibcCallgraph G × String × String} (hI : s.1.Inv)
    (hm : MergesEdge kinds s.1 m) (h : Separated s) :
    Separated (followPair s m) ↔ MergeSeparates s m := by
  cases hl : s.1.vertexIdMap m.1 with
  | none =>
    rw [followPair_absent hl]
    apply iff_of_true h
    intro hx
    rw [hl] at hx
    cases hx
  | some i =>
    have hl : (s.1.vertexIdMap m.1).isSome := by rw [hl]; rfl
    obtain ⟨l, hedge, -⟩ := hm hl
    have hr := hedge.isSome.2
    have hkept : ¬Reaches (FreeEdge (KeptEdge s.1 m)) s.2.1 s.2.2 := by
      intro hx
      obtain ⟨w, hw⟩ := hx
      exact separated_iff.1 h ⟨w, hw.mono fun u l v he => ⟨he.1.edge, he.2⟩⟩
    have hdown : ∀ u l v, FreeEdge (KeptEdge s.1 m) u l v →
        FreeEdge (combine s.1 m).Edge (rename m u) l (rename m v) ∨ rename m u = rename m v :=
      fun u l v he => (he.1.combine hI hl hr).imp (fun hx => ⟨hx, he.2⟩) fun hx =>
        hx.2.trans (hx.1 ▸ (rename_self m).symm)
    have hup : ∀ x l y, FreeEdge (combine s.1 m).Edge x l y →
        ∃ u v, rename m u = x ∧ rename m v = y ∧ FreeEdge (KeptEdge s.1 m) u l v := by
      intro x l y he
      obtain ⟨u, v, hu, hv, hk⟩ := edge_combine_lift hI hl hr he.1
      exact ⟨u, v, hu, hv, hk, he.2⟩
    have hiff := reaches_collapse_iff (s := s.2.1) (t := s.2.2) (rename_collapses m) hdown hup
    rw [followPair_present hl, separated_iff, hiff, MergeSeparates, or_iff_right hkept]
    exact ⟨fun hx _ => hx, fun hx => hx hl⟩

theorem foldl_followPair_fst (ms : List (String × String))
    (s : LibcCallgraph G × String × String) :
    (ms.foldl followPair s).1 = ms.foldl combine s.1 := by
  induction ms generalizing s with
  | nil => rfl
  | cons m ms ih => exact ih (followPair s m)

theorem everyState_separated_iff {s : LibcCallgraph G × String × String} (hI : s.1.Inv)
    (hm : EveryStep combine (MergesEdge kinds) s.1 ms) :
    EveryState followPair Separated s ms ↔
      Separated s ∧ EveryStep followPair MergeSeparates s ms := by
  have hsteps : EveryStep followPair (fun s m => MergesEdge kinds s.1 m) s ms :=
    EveryStep.comap Prod.fst (fun _ _ => rfl) hm
  exact everyState_iff_of (J := fun s => s.1.Inv) (fun s m hI _ => hI.combineVertex m.1 m.2)
    (fun s m hI hm h => followPair_separated_iff hI hm h) hI hsteps

theorem combineLibcgGraph_some {funcs : FuncMap G} (hI : ∀ f, (funcs.graph f).Inv) :
    ∃ g final, insertCallees funcs = some g ∧ combineLibcgGraph funcs = some final ∧ g.Inv ∧
      final.graph = final.merges.foldl combine g ∧
      EveryStep combine (MergesEdge [.control, .user]) g final.merges ∧
      ∀ u l v, final.graph.Edge u l v → isControl l = false ∧ isUser l = false := by
  obtain ⟨g, hg, hgrown⟩ := grown_insertCallees_main hI
  obtain ⟨final, ms, hfinal, hms⟩ := mergedBy_mergeRounds [.control, .user]
    (s := ⟨g, (funcs.get "main").exitNode, []⟩) hgrown.inv (Nat.lt_add_one _)
  have hmerges : final.merges = ms := hms.merges
  refine ⟨g, final, hg, ?_, hgrown.inv, hmerges ▸ hms.graph, hmerges ▸ hms.edges, ?_⟩
  · rw [combineLibcgGraph, hg]
    exact hfinal
  · intro u l v he
    exact ⟨mergeRounds_done hgrown.inv hfinal .control (by simp) he,
      mergeRounds_done hgrown.inv hfinal .user (by simp) he⟩

/-- The call between two vertices cannot be skipped at any time of the merging if and only if it
cannot at first and no merge joins what lies before it and what lies behind it. At the end only
calls of the library are left to be made. -/
theorem combineLibcgGraph_separated_iff {funcs : FuncMap G} (h : ∀ f, (funcs.graph f).Inv)
    (s t : String) :
    ∃ g final, insertCallees funcs = some g ∧ combineLibcgGraph funcs = some final ∧
      (final.merges.foldl followPair (g, s, t)).1 = final.graph ∧
      (EveryState followPair Separated (g, s, t) final.merges ↔
        Separated (g, s, t) ∧ EveryStep followPair MergeSeparates (g, s, t) final.merges) ∧
      (EveryState followPair Separated (g, s, t) final.merges →
        ∀ w, Path final.graph.Edge (final.merges.foldl followPair (g, s, t)).2.1 w
            (final.merges.foldl followPair (g, s, t)).2.2 →
          ∃ l ∈ w, isLibc l = true) := by
  obtain ⟨g, final, hg, hfinal, hI, hgraph, hmerges, hnone⟩ := combineLibcgGraph_some h
  have hlast : (final.merges.foldl followPair (g, s, t)).1 = final.graph :=
    (foldl_followPair_fst _ _).trans hgraph.symm
  refine ⟨g, final, hg, hfinal, hlast, everyState_separated_iff hI hmerges, ?_⟩
  intro hall w hw
  have hsep := hall.last
  obtain ⟨l, hl, hcall⟩ := hsep w (by rw [hlast]; exact hw)
  rcases hcall with hcall | hcall
  · exact ⟨l, hl, hcall⟩
  · obtain ⟨u, v, he⟩ := hw.edge_of_mem hl
    rw [(hnone u l v he).2] at hcall
    cases hcall

/-- The second vertex is another one, and all edges to it are calls. -/
def guarded (s : LibcCallgraph G × String × String) : Bool :=
  s.2.1 != s.2.2 && s.1.edges.all fun e => e.2.2 != s.2.2 || isLibc e.2.1 || isUser e.2.1

theorem separated_of_guarded {s : LibcCallgraph G × String × String} (hI : s.1.Inv)
    (h : guarded s = true) : Separated s := by
  rw [guarded, Bool.and_eq_true, bne_iff_ne, List.all_eq_true] at h
  rw [separated_iff]
  intro hr
  refine hr.closed (S := fun v => v ≠ s.2.2) (fun u l v _ he hv => ?_) h.1 rfl
  have hcall := h.2 (u, l, v) (hI.mem_edges.2 he.1)
  simp [hv, he.2] at hcall

/-- A call that can only be reached past a call of the library. -/
def guardedCalls : FuncMap listGraaf := .ofList
  [("main", { FuncBBGraphMeta.empty with
      entryNode := "p"
      exitNode := "t"
      libcCallGraph := .ofLists ["p", "s", "t"]
        [("p", "control", "s"), ("p", "libc:getc", "t"), ("s", "user:g", "t")] }),
    ("g", callRecord "g1" "g2" "libc:puts")]

theorem guardedCalls_disjoint : guardedCalls.Disjoint := by
  apply FuncMap.ofList_disjoint
  · simp only [List.forall_mem_cons]
    exact ⟨LibcCallgraph.ofLists_inv _ _, LibcCallgraph.ofLists_inv _ _, by simp⟩
  · decide +kernel

theorem guardedCalls_states :
    ((insertCallees guardedCalls).bind fun g => (combineLibcgGraph guardedCalls).map fun final =>
      (final.merges.scanl followPair (g, "s", "t")).all guarded) = some true := by
  decide +kernel

theorem guardedCalls_separated :
    ∃ g final, insertCallees guardedCalls = some g ∧ combineLibcgGraph guardedCalls = some final ∧
      EveryStep followPair MergeSeparates (g, "s", "t") final.merges ∧
      ∀ w, Path final.graph.Edge (final.merges.foldl followPair (g, "s", "t")).2.1 w
          (final.merges.foldl followPair (g, "s", "t")).2.2 →
        ∃ l ∈ w, isLibc l = true := by
  obtain ⟨g, final, hg, hfinal, -, hiff, hend⟩ :=
    combineLibcgGraph_separated_iff guardedCalls_disjoint.inv "s" "t"
  obtain ⟨g', hg', hgrown⟩ := grown_insertCallees_main guardedCalls_disjoint.inv
  cases hg.symm.trans hg'
  have hstates := guardedCalls_states
  rw [hg, Option.bind_some, hfinal, Option.map_some, Option.some.injEq, List.all_eq_true] at hstates
  have hall : EveryState followPair Separated (g, "s", "t") final.merges :=
    everyState_of_scanl (J := fun s => s.1.Inv) (fun s m hI => hI.combineVertex m.1 m.2)
      hgrown.inv fun s hs hI => separated_of_guarded hI (hstates s hs)
  exact ⟨g, final, hg, hfinal, (hiff.1 hall).2, hend hall⟩

theorem callRecord_path (hne : s ≠ t)
    (h : Path (callRecord s t l : FuncBBGraphMeta G).libcCallGraph.Edge s w t) : l ∈ w := by
  cases h with
  | nil => exact absurd rfl hne
  | cons he _ =>
    rw [((callRecord_edge ..).1 he).2.1]
    exact List.mem_cons_self

theorem shallowCalls_merged :
    ((insertCallees shallowCalls).bind fun g => (combineLibcgGraph shallowCalls).map fun final =>
      (g.edges, (final.merges.foldl followPair (g, "m1", "m2")).2)) =
      some ([("g2", "control", "g1"), ("m1", "control", "g1"), ("g1", "libc:puts", "g2"),
        ("m1", "user:g", "m2")], ("g2", "g2")) := by
  decide +kernel

/-- The two ends of a call become one vertex. -/
theorem shallowCalls_skipped :
    shallowCalls.Disjoint ∧ (shallowCalls.graph "main").Edge "m1" "user:g" "m2" ∧
      (∀ w, Path (shallowCalls.graph "g").Edge (shallowCalls.get "g").entryNode w
        (shallowCalls.get "g").exitNode → ∃ l ∈ w, isLibc l = true) ∧
      ∃ g final, insertCallees shallowCalls = some g ∧
        combineLibcgGraph shallowCalls = some final ∧
        (∀ w, Path g.Edge "m1" w "m2" → ∃ l ∈ w, l ≠ "control") ∧
        ¬∀ w, Path final.graph.Edge (final.merges.foldl followPair (g, "m1", "m2")).2.1 w
            (final.merges.foldl followPair (g, "m1", "m2")).2.2 → ∃ l ∈ w, isLibc l = true := by
  obtain ⟨g, final, hg, hfinal, hI, -⟩ := combineLibcgGraph_some shallowCalls_disjoint.inv
  have hmerged := shallowCalls_merged
  rw [hg, Option.bind_some, hfinal, Option.map_some, Option.some.injEq, Prod.mk.injEq]
    at hmerged
  obtain ⟨hedges, hlast⟩ := hmerged
  refine ⟨shallowCalls_disjoint, (callRecord_edge ..).2 ⟨rfl, rfl, rfl⟩, ?_, g, final, hg, hfinal,
    ?_, ?_⟩
  · intro w hw
    exact ⟨"libc:puts", callRecord_path (by decide) hw, by decide⟩
  · intro w hw
    apply Classical.byContradiction
    intro hno
    have hcontrol : ∀ l ∈ w, l = "control" := fun l hl =>
      Classical.not_not.1 fun hne => hno ⟨l, hl, hne⟩
    have hreach : Reaches (fun u l v => g.Edge u l v ∧ l = "control") "m1" "m2" :=
      ⟨w, path_restrict_iff.2 ⟨hw, hcontrol⟩⟩
    have hend := hreach.closed (S := fun v => v = "m1" ∨ v = "g1") (fun u l v _ he => by
      have hmem := hI.mem_edges.2 he.1
      rw [hedges, he.2] at hmem
      simp only [List.mem_cons, Prod.mk.injEq, String.reduceEq, false_and, and_false, true_and,
        List.not_mem_nil, or_false] at hmem
      exact .inr (hmem.elim And.right And.right)) (.inl rfl)
    exact absurd hend (by decide)
  · intro hall
    obtain ⟨l, hl, -⟩ := hall [] (by rw [hlast]; exact .nil _)
    cases hl

end LibcSandbox

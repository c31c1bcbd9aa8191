import LibcSandbox.Library.Collapse
import LibcSandbox.Pass.Soundness

namespace LibcSandbox
open Library
set_option autoImplicit true

variable {G : Graaf} {g : LibcCallgraph G} {s s' s'' : LibcCallgraph G × String}
  {m : String × String}

/-- An edge that a merge keeps: where it is moved to there is none. -/
structure KeptEdge (g : LibcCallgraph G) (m : String × String) (u l v : String) : Prop where
  edge : g.Edge u l v
  outgoing : u = m.2 → ∀ l', ¬g.Edge m.1 l' v
  incoming : v = m.2 → ∀ l', ¬g.Edge u l' m.1

theorem rename_collapses (m : String × String) : Collapses (rename m) m.1 m.2 where
  same := by
    rw [rename_self, rename]
    split <;> rfl
  only := by
    intro u v h
    by_cases hu : u = m.2
    · by_cases hv : v = m.2
      · exact .inl (hu.trans hv.symm)
      · rw [hu, rename_self, rename_of_ne hv] at h
        exact .inr (.inr ⟨hu, h.symm⟩)
    · by_cases hv : v = m.2
      · rw [hv, rename_self, rename_of_ne hu] at h
        exact .inr (.inl ⟨h, hv⟩)
      · rw [rename_of_ne hu, rename_of_ne hv] at h
        exact .inl h

theorem edge_combine_lift (hI : g.Inv) (hl : (g.vertexIdMap m.1).isSome)
    (hr : (g.vertexIdMap m.2).isSome) (he : (combine g m).Edge x l y) :
    ∃ u v, rename m u = x ∧ rename m v = y ∧ KeptEdge g m u l v := by
  rw [combine, hI.edge_combineVertex hl hr] at he
  obtain ⟨hx, hy, he⟩ := he
  rcases he with he | ⟨hno, ⟨rfl, he⟩ | ⟨-, rfl, he⟩⟩
  · exact ⟨x, y, rename_of_ne hx, rename_of_ne hy, he, fun h => absurd h hx, fun h => absurd h hy⟩
  · exact ⟨m.2, y, rename_self m, rename_of_ne hy, he, fun _ => hno, fun h => absurd h hy⟩
  · exact ⟨x, m.2, rename_of_ne hx, rename_self m, he, fun h => absurd h hx, fun _ => hno⟩

theorem KeptEdge.combine (h : KeptEdge g m u l v) (hI : g.Inv) (hl : (g.vertexIdMap m.1).isSome)
    (hr : (g.vertexIdMap m.2).isSome) :
    (combine g m).Edge (rename m u) l (rename m v) ∨ v = m.2 ∧ rename m u = m.1 := by
  rw [LibcSandbox.combine, hI.edge_combineVertex hl hr]
  by_cases hu : u = m.2
  · by_cases hv : v = m.2
    · exact .inr ⟨hv, hu ▸ rename_self m⟩
    · left
      have hne : m.1 ≠ m.2 := fun hm => h.outgoing hu l (hm ▸ hu ▸ h.edge)
      rw [hu, rename_self, rename_of_ne hv]
      exact ⟨hne, hv, .inr ⟨h.outgoing hu, .inl ⟨rfl, hu ▸ h.edge⟩⟩⟩
  · by_cases hv : v = m.2
    · have hne : m.1 ≠ m.2 := fun hm => h.incoming hv l (hm ▸ hv ▸ h.edge)
      rw [hv, rename_self, rename_of_ne hu]
      by_cases hu' : u = m.1
      · exact .inr ⟨rfl, hu'⟩
      · exact .inl ⟨hu, hne, .inr ⟨h.incoming hv, .inr ⟨hu', rfl, hv ▸ h.edge⟩⟩⟩
    · rw [rename_of_ne hu, rename_of_ne hv]
      exact .inl ⟨hu, hv, .inl h.edge⟩

/-- An edge that can be used before a merge and is there afterwards: it is kept, or the merge goes
along it. -/
def Usable (g : LibcCallgraph G) (m : String × String) (u l v : String) : Prop :=
  KeptEdge g m u l v ∨ l = "control" ∧ u = m.1 ∧ v = m.2

theorem Usable.edge (h : Usable g m u l v) (hm : g.Edge m.1 "control" m.2) : g.Edge u l v := by
  rcases h with h | ⟨rfl, rfl, rfl⟩
  · exact h.edge
  · exact hm

theorem Usable.combine (h : Usable g m u l v) (hI : g.Inv) (hm : g.Edge m.1 "control" m.2) :
    (combine g m).Edge (rename m u) l (rename m v) ∨
      l = "control" ∧ rename m u = rename m v := by
  rcases h with h | ⟨rfl, rfl, rfl⟩
  · rcases h.combine hI hm.isSome.1 hm.isSome.2 with he | ⟨rfl, hu⟩
    · exact .inl he
    · have hne : u ≠ m.2 := fun hu => h.outgoing hu "control" hm
      rw [rename_of_ne hne] at hu
      subst hu
      exact .inr ⟨h.edge.label_eq hm, (rename_collapses m).same⟩
  · exact .inr ⟨rfl, (rename_collapses m).same⟩

/-- The words after a merge along a control edge are those for which the edges that stay are
enough. -/
theorem combine_shows_iff (hI : g.Inv) (hm : g.Edge m.1 "control" m.2) :
    Shows (combine g m).Edge "control" (rename m e) w ↔ Shows (Usable g m) "control" e w := by
  apply shows_map_iff
  · intro u l v h
    exact h.combine hI hm
  · intro x l y he
    obtain ⟨u, v, hu, hv, hkept⟩ := edge_combine_lift hI hm.isSome.1 hm.isSome.2 he
    exact ⟨u, v, hu, hv, .inl hkept⟩
  · intro u v h
    have husable : Usable g m m.1 "control" m.2 := .inr ⟨rfl, rfl, rfl⟩
    rcases (rename_collapses m).only u v h with rfl | ⟨rfl, rfl⟩ | ⟨rfl, rfl⟩
    · exact ⟨[], .nil u, rfl⟩
    · exact ⟨["control"], .cons (.inl husable) (.nil _), visible_cons_silent _ _⟩
    · exact ⟨["control"], .cons (.inr ⟨rfl, husable⟩) (.nil _), visible_cons_silent _ _⟩

/-- The second graph has no word that the first one has not, if that may take its control edges
backwards. -/
def WordsWithin (s s' : LibcCallgraph G × String) : Prop :=
  ∀ w t, Path (Both s'.1.Edge "control") s'.2 w t →
    ∃ w' t', Path (Both s.1.Edge "control") s.2 w' t' ∧ visible "control" w' = visible "control" w

theorem WordsWithin.refl (s : LibcCallgraph G × String) : WordsWithin s s :=
  fun w t h => ⟨w, t, h, rfl⟩

theorem WordsWithin.trans (h : WordsWithin s s') (h' : WordsWithin s' s'') : WordsWithin s s'' := by
  intro w t hw
  obtain ⟨w', t', hw', hv⟩ := h' w t hw
  obtain ⟨w'', t'', hw'', hv'⟩ := h w' t' hw'
  exact ⟨w'', t'', hw'', hv'.trans hv⟩

theorem follow_wordsWithin (hI : s.1.Inv) (hm : MergesEdge [.control] s.1 m) :
    WordsWithin s (follow s m) := by
  rcases follow_cases s m with ⟨hl, hf⟩ | ⟨-, hf⟩
  · have hedge := hm.control hl
    rw [hf]
    intro w t hw
    have hshows : Shows (combine s.1 m).Edge "control" (rename m s.2) (visible "control" w) :=
      ⟨w, t, hw, rfl⟩
    exact ((combine_shows_iff hI hedge).1 hshows).mono fun u l v h => h.edge hedge
  · rw [hf]
    exact .refl s

theorem follow_everyState_wordsWithin (hI : s.1.Inv) {ms : List (String × String)}
    (hm : EveryStep combine (MergesEdge [.control]) s.1 ms) :
    EveryState follow (WordsWithin s) s ms := by
  have hrun := (everyStep_follow hm).invariant (I := fun s' => s'.1.Inv ∧ WordsWithin s s')
    (Q := fun _ _ => True)
    ⟨hI, .refl s⟩ fun s' m hs' hm =>
      ⟨⟨follow_inv hs'.1 m, hs'.2.trans (follow_wordsWithin hs'.1 hm)⟩, trivial⟩
  exact hrun.1.mono fun s' hs' => hs'.2

/-- The final graph of a function lets no calls be made in an order that no walk of the expanded
graph shows, where a walk may take control edges either way. -/
theorem convertBBGraphToLibcCallGraph_wordsWithin (m : FuncBBGraphMeta G) (h : m.bbGraph.Inv) :
    ∃ m₁ m₂ ms, expandBBGraph m = some m₁ ∧ convertBBGraphToLibcCallGraph m₁ = some (m₂, ms) ∧
      (ms.foldl follow (m₁.bbExpandedGraph, m₁.entryNode)).1 = m₂.libcCallGraph ∧
      ∀ w t, Path m₂.libcCallGraph.Edge
          (ms.foldl follow (m₁.bbExpandedGraph, m₁.entryNode)).2 w t →
        ∃ w' t', Path (Both m₁.bbExpandedGraph.Edge "control") m₁.entryNode w' t' ∧
          visible "control" w' = w := by
  obtain ⟨m₁, h₁, hI, -⟩ := expandBBGraph_some h
  obtain ⟨m₂, ms, h₂, -, hgraph, hmerges⟩ := convertBBGraphToLibcCallGraph_some hI
  have hlast : (ms.foldl follow (m₁.bbExpandedGraph, m₁.entryNode)).1 = m₂.libcCallGraph :=
    (foldl_follow_fst ms _).trans hgraph.symm
  refine ⟨m₁, m₂, ms, h₁, h₂, hlast, ?_⟩
  intro w t hw
  have hwords := (follow_everyState_wordsWithin (s := (m₁.bbExpandedGraph, m₁.entryNode)) hI
    hmerges).last
  have hshows := (shows_iff_path fun u l v => convertBBGraphToLibcCallGraph_done hI h₂).2 ⟨t, hw⟩
  rw [← hlast] at hshows
  obtain ⟨w₁, t₁, hw₁, hv₁⟩ := hshows
  obtain ⟨w', t', hw', hv⟩ := hwords w₁ t₁ hw₁
  exact ⟨w', t', hw', hv.trans hv₁⟩

/-- A call under a condition. -/
def ifRecord : FuncBBGraphMeta listGraaf :=
  functionRecord "A" "C" ["A", "B", "C"] [("A", "B"), ("A", "C"), ("B", "C")] [("B", ["libc:puts"])]

theorem ifRecord_expanded :
    ((expandBBGraph ifRecord).map fun m => (m.entryNode, m.bbExpandedGraph.edges)) =
      some ("A", [("B-libc_1", "control", "C"), ("B", "libc:puts", "B-libc_1"),
        ("A", "control", "C"), ("A", "control", "B")]) := by
  decide +kernel

theorem ifRecord_converted :
    ((expandBBGraph ifRecord).bind fun m₁ => (convertBBGraphToLibcCallGraph m₁).map fun r =>
      (r.1.libcCallGraph.edges, (r.2.foldl follow (m₁.bbExpandedGraph, m₁.entryNode)).2)) =
      some ([("B-libc_1", "libc:puts", "B-libc_1")], "B-libc_1") := by
  decide +kernel

theorem ifRecord_path {m₂ : FuncBBGraphMeta listGraaf} (hI : m₂.libcCallGraph.Inv)
    (h : m₂.libcCallGraph.edges = [("B-libc_1", "libc:puts", "B-libc_1")]) :
    Path m₂.libcCallGraph.Edge "B-libc_1" ["libc:puts", "libc:puts"] "B-libc_1" := by
  have hloop : m₂.libcCallGraph.Edge "B-libc_1" "libc:puts" "B-libc_1" := by
    rw [hI.edge_of_edges h]
    exact List.mem_cons_self
  exact .cons hloop (.cons hloop (.nil _))

theorem ifRecord_wordsWithin :
    ∃ m₁, expandBBGraph ifRecord = some m₁ ∧
      ∃ w t, Path (Both m₁.bbExpandedGraph.Edge "control") m₁.entryNode w t ∧
        visible "control" w = ["libc:puts", "libc:puts"] := by
  obtain ⟨m₁, m₂, ms, h₁, h₂, -, hwords⟩ :=
    convertBBGraphToLibcCallGraph_wordsWithin ifRecord (LibcCallgraph.ofLists_inv _ _)
  obtain ⟨m₁', h₁', hI₁, -⟩ := expandBBGraph_some (m := ifRecord) (LibcCallgraph.ofLists_inv _ _)
  cases h₁.symm.trans h₁'
  obtain ⟨m₂', ms', h₂', hI₂, -⟩ := convertBBGraphToLibcCallGraph_some hI₁
  cases h₂.symm.trans h₂'
  have hconv := ifRecord_converted
  rw [h₁, Option.bind_some, h₂, Option.map_some, Option.some.injEq, Prod.mk.injEq] at hconv
  obtain ⟨hedges, hlast⟩ := hconv
  exact ⟨m₁, h₁, hwords _ _ (hlast ▸ ifRecord_path hI₂ hedges)⟩

/-- A call that can be made once can be made again and again after the merges. -/
theorem ifRecord_adds_word :
    ∃ m₁ m₂ ms, expandBBGraph ifRecord = some m₁ ∧
      convertBBGraphToLibcCallGraph m₁ = some (m₂, ms) ∧
      (∃ t, Path m₂.libcCallGraph.Edge (ms.foldl follow (m₁.bbExpandedGraph, m₁.entryNode)).2
        ["libc:puts", "libc:puts"] t) ∧
      ¬∃ w t, Path m₁.bbExpandedGraph.Edge m₁.entryNode w t ∧
        visible "control" w = ["libc:puts", "libc:puts"] := by
  obtain ⟨m₁, h₁, hI₁, -⟩ := expandBBGraph_some (m := ifRecord) (LibcCallgraph.ofLists_inv _ _)
  obtain ⟨m₂, ms, h₂, hI₂, -, -⟩ := convertBBGraphToLibcCallGraph_some hI₁
  have hexp := ifRecord_expanded
  have hconv := ifRecord_converted
  rw [h₁, Option.map_some, Option.some.injEq, Prod.mk.injEq] at hexp
  rw [h₁, Option.bind_some, h₂, Option.map_some, Option.some.injEq, Prod.mk.injEq] at hconv
  obtain ⟨hentry, hedges⟩ := hexp
  obtain ⟨hedges', hlast⟩ := hconv
  have he := hI₁.edge_of_edges hedges
  have hC {w t} (h : Path m₁.bbExpandedGraph.Edge "C" w t) : visible "control" w = [] := by
    cases h with
    | nil => rfl
    | cons hfirst _ => simp [he] at hfirst
  have hcall {w t} (h : Path m₁.bbExpandedGraph.Edge "B-libc_1" w t) :
      visible "control" w = [] := by
    cases h with
    | nil => rfl
    | cons hfirst hrest =>
      simp [he] at hfirst
      obtain ⟨rfl, rfl⟩ := hfirst
      rw [visible_cons_silent]
      exact hC hrest
  have hB {w t} (h : Path m₁.bbExpandedGraph.Edge "B" w t) : (visible "control" w).length ≤ 1 := by
    cases h with
    | nil => exact Nat.zero_le 1
    | cons hfirst hrest =>
      simp [he] at hfirst
      obtain ⟨rfl, rfl⟩ := hfirst
      have hone : visible "control" ("libc:puts" :: _) = visible "control" ["libc:puts"] :=
        visible_cons_congr "libc:puts" (hcall hrest)
      rw [hone]
      exact Nat.le_refl 1
  refine ⟨m₁, m₂, ms, h₁, h₂, ⟨_, hlast ▸ ifRecord_path hI₂ hedges'⟩, ?_⟩
  intro hx
  obtain ⟨w, t, hw, hv⟩ := hx
  rw [hentry] at hw
  have hlen := congrArg List.length hv
  cases hw with
  | nil => cases hlen
  | cons hfirst hrest =>
    simp [he] at hfirst
    rcases hfirst with ⟨rfl, rfl⟩ | ⟨rfl, rfl⟩
    · rw [visible_cons_silent, hC hrest] at hlen
      cases hlen
    · have hle := hB hrest
      rw [visible_cons_silent] at hlen
      simp at hlen
      omega
end LibcSandbox

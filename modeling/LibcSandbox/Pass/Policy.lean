import LibcSandbox.MemGraph.Recogniser
import LibcSandbox.Pass.PassTable

namespace LibcSandbox
open Library
set_option autoImplicit true

variable {G : Graaf} {g : LibcCallgraph G} {stringMap : String → Option Int}
  {hash : String → UInt64} {stack : Nat → Edge} {c : UInt64}

def LibcCallgraph.lastOutgoing (g : LibcCallgraph G) (vertex : String) : Option (String × String) :=
  (g.outgoing vertex).getLast?

/-- What the pass makes of the graph: for the first vertex whose last neighbour has the id, the
number of the label of that edge. -/
def policyTarget (stringMap : String → Option Int) (hash : String → UInt64) (g : LibcCallgraph G)
    (c : UInt64) : Option UInt64 :=
  ((g.getVertices.filterMap g.lastOutgoing).find? fun e => hash e.2 % modulus = c).map
    fun e => libcId stringMap e.1

/-- A target as `transition_to_state` takes it, where it is one of the nodes and not 0. -/
def nodeTarget (numNodes : Nat) (target : UInt64) : Option Nat :=
  let temp := toUnsignedLong (toInt target)
  if temp ≠ 0 ∧ temp.toNat < numNodes then some temp.toNat else none

/-- The node that the table leads to for an id, whatever node it stands at. -/
def policy (stringMap : String → Option Int) (hash : String → UInt64) (g : LibcCallgraph G)
    (c : UInt64) : Option Nat :=
  (policyTarget stringMap hash g c).bind (nodeTarget g.getVertices.length)

/-- The id stands in an entry of the arrays that no vertex has written. -/
def Leftover (g : LibcCallgraph G) (stack : Nat → Edge) (c : UInt64) : Prop :=
  ∃ k < g.getVertices.length * g.getVertices.length, ∃ vertex,
    g.getVertices[k % g.getVertices.length]? = some vertex ∧
    g.lastOutgoing vertex = none ∧ (stack k).libcallid = c

theorem lookup_append (es es' : List Edge) (c : UInt64) :
    lookup (es ++ es') c = (lookup es c).or (lookup es' c) := by
  rw [lookup, List.find?_append, Option.map_or]
  rfl

theorem lookup_lastEdges (vertices : List String) (j : Nat)
    (hstack : ∀ k vertex, vertices[k]? = some vertex → g.lastOutgoing vertex = none →
      (stack (j + k)).libcallid ≠ c) :
    lookup (vertices.mapIdx fun k vertex => lastEdge stringMap hash g vertex (stack (j + k))) c =
      ((vertices.filterMap g.lastOutgoing).find? fun e => hash e.2 % modulus = c).map
        fun e => libcId stringMap e.1 := by
  induction vertices generalizing j with
  | nil => rfl
  | cons vertex vertices ih =>
    have hrest := ih (j + 1) fun k v hv hlast => by
      have hne := hstack (k + 1) v hv hlast
      rwa [← Nat.add_assoc, Nat.add_right_comm] at hne
    have hshift : (vertices.mapIdx fun k v => lastEdge stringMap hash g v (stack (j + (k + 1)))) =
        vertices.mapIdx fun k v => lastEdge stringMap hash g v (stack (j + 1 + k)) := by
      simp only [Nat.add_assoc, Nat.add_comm 1]
    rw [List.mapIdx_cons, lookup_cons, hshift, hrest]
    cases hlast : g.lastOutgoing vertex with
    | none =>
      have hedge : lastEdge stringMap hash g vertex (stack (j + 0)) = stack (j + 0) := by
        rw [lastEdge, ← LibcCallgraph.lastOutgoing, hlast]
      rw [List.filterMap_cons_none hlast, hedge, if_neg (hstack 0 vertex rfl hlast)]
    | some e =>
      have hedge : lastEdge stringMap hash g vertex (stack (j + 0)) =
          ⟨hash e.2 % modulus, libcId stringMap e.1⟩ := by
        rw [lastEdge, ← LibcCallgraph.lastOutgoing, hlast]
      rw [List.filterMap_cons_some hlast, hedge, List.find?_cons]
      by_cases he : hash e.2 % modulus = c
      · rw [if_pos he, decide_eq_true he]
        rfl
      · rw [if_neg he, decide_eq_false he]

theorem map_arrayEntry_pass (i : Nat) :
    ((List.range g.getVertices.length).map fun j =>
      arrayEntry stringMap hash g stack (i * g.getVertices.length + j)) =
    g.getVertices.mapIdx fun j vertex =>
      lastEdge stringMap hash g vertex (stack (i * g.getVertices.length + j)) := by
  apply List.ext_getElem?
  intro j
  rw [List.getElem?_map, List.getElem?_mapIdx]
  cases hv : g.getVertices[j]? with
  | none =>
    rw [List.getElem?_eq_none]
    · rfl
    · rw [List.length_range]
      exact List.getElem?_eq_none_iff.1 hv
  | some vertex =>
    rw [List.getElem?_range (List.getElem?_eq_some_iff.1 hv).1, Option.map_some, Option.map_some,
      arrayEntry_pass i hv]

/-- All nodes say the same of an id that is not on the stack. -/
theorem lookup_passNode (hc : ¬Leftover g stack c) {i : Nat} (hi : i < g.getVertices.length)
    (vertex : String) :
    lookup (passNode stringMap hash g stack i vertex).edges c =
      policyTarget stringMap hash g c := by
  have hpass (j : Nat) (hj : j ≤ i) :
      lookup ((List.range g.getVertices.length).map fun k =>
        arrayEntry stringMap hash g stack (j * g.getVertices.length + k)) c =
      policyTarget stringMap hash g c := by
    rw [map_arrayEntry_pass]
    apply lookup_lastEdges
    intro k v hv hlast hid
    have hk := (List.getElem?_eq_some_iff.1 hv).1
    refine hc ⟨j * g.getVertices.length + k, ?_, v, ?_, hlast, hid⟩
    · calc j * g.getVertices.length + k < (j + 1) * g.getVertices.length := by
            rw [Nat.succ_mul]
            omega
        _ ≤ g.getVertices.length * g.getVertices.length :=
            Nat.mul_le_mul_right _ (Nat.lt_of_le_of_lt hj hi)
    · rw [Nat.mul_add_mod_self_right, Nat.mod_eq_of_lt hk, hv]
  have hall (j : Nat) (hj : j ≤ i) :
      lookup ((List.range ((j + 1) * g.getVertices.length)).map
        (arrayEntry stringMap hash g stack)) c = policyTarget stringMap hash g c := by
    induction j with
    | zero =>
      have hfirst := hpass 0 hj
      simp only [Nat.zero_mul, Nat.zero_add] at hfirst
      rw [Nat.zero_add, Nat.one_mul]
      exact hfirst
    | succ j ih =>
      rw [Nat.succ_mul, List.range_add, List.map_append, lookup_append, ih (by omega),
        List.map_map]
      have hlast := hpass (j + 1) hj
      rw [Function.comp_def, hlast, Option.or_self]
  exact hall i (Nat.le_refl i)

/-- The transitions of a table that do not leave it. -/
def tableStep (ns : List Node) (k : Nat) (c : UInt64) : Option Nat :=
  (nextState ns k c).filter (· < ns.length)

theorem tableStep_eq (hk : ns[k]? = some n) :
    tableStep ns k c = (lookup n.edges c).bind (nodeTarget ns.length) := by
  rw [tableStep, nextState, hk, Option.bind_some, transitionCode]
  cases hl : lookup n.edges c with
  | none => rfl
  | some t =>
    rw [Option.elim_some, Option.bind_some, nodeTarget]
    by_cases hz : toUnsignedLong (toInt t) = 0
    · simp only [hz, ↓reduceIte, Option.filter_none, ne_eq, not_true_eq_false, false_and]
    · simp only [hz, ↓reduceIte, Option.filter_some, decide_eq_true_eq, ne_eq, not_false_eq_true,
        true_and]

/-- The table of the pass has no memory of the calls that were made. -/
theorem tableStep_passTable (hc : ¬Leftover g stack c) (hk : k < g.getVertices.length) :
    tableStep (passTable stringMap hash g stack) k c = policy stringMap hash g c := by
  obtain ⟨vertex, hvertex⟩ : ∃ vertex, g.getVertices[k]? = some vertex :=
    ⟨_, List.getElem?_eq_getElem hk⟩
  have hnode : (passTable stringMap hash g stack)[k]? =
      some (passNode stringMap hash g stack k vertex) := by
    rw [getElem?_passTable, hvertex, Option.map_some]
  rw [tableStep_eq hnode, lookup_passNode hc hk, length_passTable, policy]

theorem policy_lt (h : policy stringMap hash g c = some t) : t < g.getVertices.length := by
  rw [policy, Option.bind_eq_some_iff] at h
  obtain ⟨target, -, ht⟩ := h
  simp only [nodeTarget, Option.ite_none_right_eq_some, Option.some.injEq] at ht
  rw [← ht.2]
  exact ht.1.2

end LibcSandbox

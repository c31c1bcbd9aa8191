import LibcSandbox.Library.Numbering
import LibcSandbox.Pass.InMemory

namespace LibcSandbox
open Library
set_option autoImplicit true

variable {G : Graaf} {g : LibcCallgraph G} {stringMap : String → Option Int}
  {hash : String → UInt64} {σ : String → Nat}

/-- The table in a pool is isomorphic to a graph, by this numbering of the vertices. -/
structure Encodes (stringMap : String → Option Int) (g : LibcCallgraph G) (entry : String)
    (p : Pool) (σ : String → Nat) : Prop where
  bij : Set.BijOn σ {v | v ∈ g.getVertices} (Set.Iio p.numNodes.toNat)
  start : entry ∈ g.getVertices ∧ σ entry = 0
  edges : ∀ v ∈ g.getVertices, ∃ node, p.table[σ v]? = some node ∧ ∀ c k, ⟨c, k⟩ ∈ node.edges ↔
    ∃ name z t, g.Edge v ("libc:" ++ name) t ∧ stringMap name = some z ∧
      c = toUnsignedLong z ∧ k.toNat = σ t

/-- An edge, by the id of its label. -/
def CallEdge (stringMap : String → Option Int) (g : LibcCallgraph G) (v : String) (c : UInt64)
    (t : String) : Prop :=
  ∃ l, g.Edge v l t ∧ libcId stringMap l = c

def successors (g : LibcCallgraph G) (v : String) : Finset String :=
  ((g.outgoing v).map Prod.snd).toFinset

/-- The neighbours that are listed last for some vertex. -/
def lastSuccessors (g : LibcCallgraph G) : Finset String :=
  (g.getVertices.filterMap fun v => (g.outgoing v).getLast?.map Prod.snd).toFinset

/-- The id of the label of the edge between two vertices. -/
def labelId (stringMap : String → Option Int) (g : LibcCallgraph G) (v t : String) : Nat :=
  (g.label v t).elim 0 fun l => (libcId stringMap l).toNat

def hashId (hash : String → UInt64) (t : String) : Nat := (hash t % modulus).toNat

/-- All vertices have the same edges, at least one, each of which is the last one of some vertex.
The ids of their labels are the hashes of their ends, in another order, and number the ends. -/
structure Encodable (stringMap : String → Option Int) (hash : String → UInt64)
    (g : LibcCallgraph G) (entry : String) : Prop where
  start : entry ∈ g.getVertices
  nonempty : (successors g entry).Nonempty
  same : ∀ v ∈ g.getVertices, ∀ c t, CallEdge stringMap g v c t ↔ CallEdge stringMap g entry c t
  last : lastSuccessors g = successors g entry
  codes : CodesMatch (successors g entry) entry g.getVertices.length (labelId stringMap g entry)
    (hashId hash)

theorem libcId_listed (h : stringMap name = some z) :
    libcId stringMap ("libc:" ++ name) = toUnsignedLong z := by
  rw [libcId_libc, getValueFromMap, h, Option.getD_some]

/-- The labels are names of library functions that are listed. -/
def LibcLabels (stringMap : String → Option Int) (g : LibcCallgraph G) : Prop :=
  ∀ s l t, g.Edge s l t → ∃ name z, l = "libc:" ++ name ∧ stringMap name = some z

theorem LibcLabels.callEdge_iff {f : String → Nat} (hlab : LibcLabels stringMap g) :
    (∃ name z t, g.Edge v ("libc:" ++ name) t ∧ stringMap name = some z ∧
      c = toUnsignedLong z ∧ k = f t) ↔ ∃ t, CallEdge stringMap g v c t ∧ k = f t := by
  apply Iff.intro
  · intro hx
    obtain ⟨name, z, t, he, hz, rfl, hk⟩ := hx
    exact ⟨t, ⟨_, he, libcId_listed hz⟩, hk⟩
  · intro hx
    obtain ⟨t, ⟨l, he, rfl⟩, hk⟩ := hx
    obtain ⟨name, z, rfl, hz⟩ := hlab v l t he
    exact ⟨name, z, t, he, hz, libcId_listed hz, hk⟩

theorem mem_successors (h : g.Inv) : t ∈ successors g v ↔ ∃ l, g.Edge v l t := by
  simp only [successors, List.mem_toFinset, List.mem_map, Prod.exists, (h.outgoing v).2.2,
    exists_eq_right]

theorem mem_lastSuccessors :
    t ∈ lastSuccessors g ↔ ∃ v ∈ g.getVertices, ∃ l, (g.outgoing v).getLast? = some (l, t) := by
  simp only [lastSuccessors, List.mem_toFinset, List.mem_filterMap, Option.map_eq_some_iff,
    Prod.exists, exists_eq_right]

theorem successors_subset (h : g.Inv) (v : String) : successors g v ⊆ g.getVertices.toFinset := by
  intro t ht
  obtain ⟨l, he⟩ := (mem_successors h).1 ht
  rw [List.mem_toFinset, LibcCallgraph.mem_getVertices h]
  exact he.isSome.2

theorem edge_of_last (h : g.Inv) (hlast : (g.outgoing v).getLast? = some (l, t)) : g.Edge v l t :=
  ((h.outgoing v).2.2 l t).1 (List.mem_of_getLast? hlast)

theorem exists_last (h : g.Inv) (he : g.Edge v l t) :
    ∃ l' t', (g.outgoing v).getLast? = some (l', t') := by
  have hmem := ((h.outgoing v).2.2 l t).2 he
  obtain ⟨e, hlast⟩ :=
    Option.isSome_iff_exists.1 (List.getLast?_isSome.2 (List.ne_nil_of_mem hmem))
  exact ⟨e.1, e.2, hlast⟩

theorem labelId_of_callEdge (he : CallEdge stringMap g v c t) :
    labelId stringMap g v t = c.toNat := by
  obtain ⟨l, hl, rfl⟩ := he
  rw [labelId, LibcCallgraph.label_eq_some_iff.2 hl, Option.elim_some]

theorem exists_callEdge_iff (h : g.Inv) :
    CallEdge stringMap g v c t ↔ t ∈ successors g v ∧ labelId stringMap g v t = c.toNat := by
  rw [mem_successors h]
  apply Iff.intro
  · intro he
    obtain ⟨l, hl, -⟩ := id he
    exact ⟨⟨l, hl⟩, labelId_of_callEdge he⟩
  · intro hx
    obtain ⟨⟨l, hl⟩, hc⟩ := hx
    rw [labelId_of_callEdge ⟨l, hl, rfl⟩] at hc
    exact ⟨l, hl, UInt64.toNat_inj.1 hc⟩

/-- What all nodes hold: for each vertex the hash of its last neighbour, with the id of the last
label in the place of the next state. -/
def LastPair (stringMap : String → Option Int) (hash : String → UInt64) (g : LibcCallgraph G)
    (c k : UInt64) : Prop :=
  ∃ v ∈ g.getVertices, ∃ l t, (g.outgoing v).getLast? = some (l, t) ∧
    c = hash t % modulus ∧ k = libcId stringMap l

theorem NodeFilled.mem_edges (hn : NodeFilled stringMap hash g stack n)
    (hall : ∀ v ∈ g.getVertices, ∃ l t, (g.outgoing v).getLast? = some (l, t)) :
    ⟨c, k⟩ ∈ n.edges ↔ LastPair stringMap hash g c k := by
  apply Iff.intro
  · intro he
    obtain ⟨v, hv, i, hlast⟩ := hn.sound _ he
    obtain ⟨l, t, hlt⟩ := hall v hv
    rw [lastEdge, hlt, Edge.mk.injEq] at hlast
    exact ⟨v, hv, l, t, hlt, hlast⟩
  · intro hx
    obtain ⟨v, hv, l, t, hlt, rfl, rfl⟩ := hx
    obtain ⟨i, hi⟩ := hn.complete v hv
    rwa [lastEdge, hlt] at hi

/-- Where all vertices have the same edges, what the nodes hold can be told from the successors of
the entry alone. -/
theorem lastPair_iff (h : g.Inv)
    (hsame : ∀ v ∈ g.getVertices, ∀ c t,
      CallEdge stringMap g v c t ↔ CallEdge stringMap g entry c t) :
    LastPair stringMap hash g c k ↔
      ∃ x ∈ lastSuccessors g, hashId hash x = c.toNat ∧ labelId stringMap g entry x = k.toNat := by
  have hid : ∀ v ∈ g.getVertices, ∀ l t, (g.outgoing v).getLast? = some (l, t) →
      labelId stringMap g entry t = (libcId stringMap l).toNat := fun v hv l t hlt =>
    labelId_of_callEdge ((hsame v hv _ t).1 ⟨l, edge_of_last h hlt, rfl⟩)
  apply Iff.intro
  · intro hx
    obtain ⟨v, hv, l, t, hlt, rfl, rfl⟩ := hx
    exact ⟨t, mem_lastSuccessors.2 ⟨v, hv, l, hlt⟩, rfl, hid v hv l t hlt⟩
  · intro hx
    obtain ⟨t, ht, hc, hk⟩ := hx
    obtain ⟨v, hv, l, hlt⟩ := mem_lastSuccessors.1 ht
    rw [hid v hv l t hlt] at hk
    exact ⟨v, hv, l, t, hlt, (UInt64.toNat_inj.1 hc).symm, (UInt64.toNat_inj.1 hk).symm⟩

theorem lastSuccessors_subset (h : g.Inv)
    (hsame : ∀ v ∈ g.getVertices, ∀ c t,
      CallEdge stringMap g v c t ↔ CallEdge stringMap g entry c t) :
    lastSuccessors g ⊆ successors g entry := by
  intro t ht
  obtain ⟨v, hv, l, hlt⟩ := mem_lastSuccessors.1 ht
  obtain ⟨l', he, -⟩ := (hsame v hv _ t).1 ⟨l, edge_of_last h hlt, rfl⟩
  exact (mem_successors h).2 ⟨l', he⟩

theorem samePairs_iff (h : g.Inv)
    (hsame : ∀ v ∈ g.getVertices, ∀ c t,
      CallEdge stringMap g v c t ↔ CallEdge stringMap g entry c t)
    (hσ : ∀ t ∈ successors g entry, σ t ≤ memoryPoolSize) :
    (∀ c k, LastPair stringMap hash g c k ↔
      ∃ t, CallEdge stringMap g entry c t ∧ k.toNat = σ t) ↔
    SamePairs (successors g entry) (lastSuccessors g) (labelId stringMap g entry) (hashId hash)
      σ := by
  apply Iff.intro
  · intro hp a b
    apply Iff.intro
    · intro hx
      obtain ⟨t, ht, rfl, rfl⟩ := hx
      obtain ⟨l, he⟩ := (mem_successors h).1 ht
      have hk : (UInt64.ofNat (σ t)).toNat = σ t := toNat_ofNat_length (hσ t ht)
      rw [← hk, labelId_of_callEdge ⟨l, he, rfl⟩, ← lastPair_iff h hsame, hp]
      exact ⟨t, ⟨l, he, rfl⟩, hk⟩
    · intro hx
      obtain ⟨x, hx, rfl, rfl⟩ := hx
      obtain ⟨l, he⟩ := (mem_successors h).1 (lastSuccessors_subset h hsame hx)
      have hid : labelId stringMap g entry x = (libcId stringMap l).toNat :=
        labelId_of_callEdge ⟨l, he, rfl⟩
      obtain ⟨t, ht, hk⟩ := (hp (hash x % modulus) (libcId stringMap l)).1
        ((lastPair_iff h hsame).2 ⟨x, hx, rfl, hid⟩)
      obtain ⟨ht, hc⟩ := (exists_callEdge_iff h).1 ht
      exact ⟨t, ht, hc, (hid.trans hk).symm⟩
  · intro hs c k
    rw [lastPair_iff h hsame, ← hs]
    simp only [exists_callEdge_iff h, and_assoc]
    apply Iff.intro
    · intro hx
      obtain ⟨t, ht, hc, hk⟩ := hx
      exact ⟨t, ht, hc, hk.symm⟩
    · intro hx
      obtain ⟨t, ht, hc, hk⟩ := hx
      exact ⟨t, ht, hc, hk.symm⟩

theorem card_getVertices (h : g.Inv) : g.getVertices.toFinset.card = g.getVertices.length :=
  List.toFinset_card_of_nodup (LibcCallgraph.nodup_getVertices h)

theorem numbering_getVertices (h : g.Inv) :
    Numbering g.getVertices.toFinset entry σ ↔
      Set.BijOn σ {v | v ∈ g.getVertices} (Set.Iio g.getVertices.length) ∧ σ entry = 0 := by
  rw [← card_getVertices h, ← List.coe_toFinset]
  apply Iff.intro
  · intro hn
    exact ⟨hn.bij, hn.start⟩
  · intro hn
    exact ⟨hn.1, hn.2⟩

theorem CallEdge.mem_getVertices (h : g.Inv) (he : CallEdge stringMap g v c t) :
    t ∈ g.getVertices := by
  obtain ⟨l, hl, -⟩ := he
  exact (LibcCallgraph.mem_getVertices h).2 hl.isSome.2

theorem lt_of_mem_successors (h : g.Inv) (hlt : ∀ v ∈ g.getVertices, σ v < n)
    (ht : t ∈ successors g v) : σ t < n :=
  hlt t (List.mem_toFinset.1 (successors_subset h v ht))

theorem Encodable.exists_last (hE : Encodable stringMap hash g entry) (h : g.Inv)
    (hv : v ∈ g.getVertices) : ∃ l t, (g.outgoing v).getLast? = some (l, t) := by
  obtain ⟨t, ht⟩ := hE.nonempty
  obtain ⟨l, he⟩ := (mem_successors h).1 ht
  obtain ⟨l', he', -⟩ := (hE.same v hv _ t).2 ⟨l, he, rfl⟩
  exact LibcSandbox.exists_last h he'

theorem Encodable.exists_encodes (h : g.Inv) (hlab : LibcLabels stringMap g)
    (hE : Encodable stringMap hash g entry) (hb : Built p ns)
    (hlen : ns.length = g.getVertices.length)
    (hnodes : ∀ n ∈ ns, NodeFilled stringMap hash g stack n) :
    ∃ σ, Encodes stringMap g entry p σ := by
  have hcodes := hE.codes
  rw [← card_getVertices h] at hcodes
  obtain ⟨σ, hσ, hpairs⟩ := hcodes.exists_numbering (List.mem_toFinset.2 hE.start)
    (successors_subset h entry)
  obtain ⟨hbij, hstart⟩ := (numbering_getVertices h).1 hσ
  rw [← hlen] at hbij
  have hlt : ∀ v ∈ g.getVertices, σ v < ns.length := fun v hv => hbij.mapsTo hv
  have hsmall : ∀ t ∈ successors g entry, σ t ≤ memoryPoolSize := fun t ht =>
    Nat.le_trans (Nat.le_of_lt (lt_of_mem_successors h hlt ht)) hb.length_le
  have hpairs' : ∀ c k, LastPair stringMap hash g c k ↔
      ∃ t, CallEdge stringMap g entry c t ∧ k.toNat = σ t := by
    rw [samePairs_iff h hE.same hsmall, hE.last]
    exact hpairs
  refine ⟨σ, ?_, ⟨hE.start, hstart⟩, fun v hv => ?_⟩
  · rw [hb.numNodes]
    exact hbij
  · rw [hb.table_eq]
    refine ⟨_, List.getElem?_eq_getElem (hlt v hv), fun c k => ?_⟩
    rw [(hnodes _ (List.getElem_mem _)).mem_edges fun v hv => hE.exists_last h hv, hpairs',
      hlab.callEdge_iff]
    simp only [hE.same v hv]

theorem Encodes.bijOn (hE : Encodes stringMap g entry p σ) (hb : Built p ns) :
    Set.BijOn σ {v | v ∈ g.getVertices} (Set.Iio ns.length) := by
  rw [← hb.numNodes]
  exact hE.bij

theorem Encodes.node (hE : Encodes stringMap g entry p σ) (hb : Built p ns)
    (hlab : LibcLabels stringMap g) (hv : v ∈ g.getVertices) :
    ∃ n ∈ ns, ∀ c k, ⟨c, k⟩ ∈ n.edges ↔ ∃ t, CallEdge stringMap g v c t ∧ k.toNat = σ t := by
  obtain ⟨n, hn, he⟩ := hE.edges v hv
  rw [hb.table_eq] at hn
  refine ⟨n, List.mem_of_getElem? hn, fun c k => ?_⟩
  rw [he, hlab.callEdge_iff]

/-- A vertex without edges would leave in every node what is on the stack, which need not be the
number of a node. -/
theorem Encodes.exists_last (hE : Encodes stringMap g entry p σ) (h : g.Inv) (hb : Built p ns)
    (hlab : LibcLabels stringMap g)
    (hnodes : ∀ n ∈ ns, NodeFilled stringMap hash g (fun _ => ⟨0, UInt64.ofNat memoryPoolSize⟩) n)
    (hv : v ∈ g.getVertices) : ∃ l t, (g.outgoing v).getLast? = some (l, t) := by
  cases hlast : (g.outgoing v).getLast? with
  | some e => exact ⟨e.1, e.2, rfl⟩
  | none =>
    obtain ⟨n, hn, he⟩ := hE.node hb hlab hE.start.1
    obtain ⟨i, hi⟩ := (hnodes n hn).complete v hv
    rw [lastEdge, hlast] at hi
    obtain ⟨t, ht, hk⟩ := (he _ _).1 hi
    have hlt : σ t < ns.length := (hE.bijOn hb).mapsTo (ht.mem_getVertices h)
    have hlen := hb.length_le
    rw [toNat_ofNat_length (Nat.le_refl _)] at hk
    omega

theorem same_of_lastPair (h : g.Inv) (hinj : Set.InjOn σ {v | v ∈ g.getVertices})
    (hsmall : ∀ v ∈ g.getVertices, σ v ≤ memoryPoolSize)
    (hpair : ∀ v ∈ g.getVertices, ∀ c k, LastPair stringMap hash g c k ↔
      ∃ t, CallEdge stringMap g v c t ∧ k.toNat = σ t)
    (hu : u ∈ g.getVertices) (hv : v ∈ g.getVertices) (ht : CallEdge stringMap g u c t) :
    CallEdge stringMap g v c t := by
  have htV := ht.mem_getVertices h
  have hk : (UInt64.ofNat (σ t)).toNat = σ t := toNat_ofNat_length (hsmall t htV)
  obtain ⟨t', ht', hk'⟩ := (hpair v hv c _).1 ((hpair u hu c _).2 ⟨t, ht, hk⟩)
  have heq : t = t' := hinj htV (ht'.mem_getVertices h) (hk.symm.trans hk')
  exact heq ▸ ht'

theorem Encodes.encodable (h : g.Inv) (hlab : LibcLabels stringMap g) (hb : Built p ns)
    (hlen : ns.length = g.getVertices.length)
    (hnodes : ∀ n ∈ ns, NodeFilled stringMap hash g (fun _ => ⟨0, UInt64.ofNat memoryPoolSize⟩) n)
    (hE : Encodes stringMap g entry p σ) : Encodable stringMap hash g entry := by
  have hbij := hE.bijOn hb
  have hall : ∀ v ∈ g.getVertices, ∃ l t, (g.outgoing v).getLast? = some (l, t) := fun v hv =>
    hE.exists_last h hb hlab hnodes hv
  have hlt : ∀ v ∈ g.getVertices, σ v < ns.length := fun v hv => hbij.mapsTo hv
  have hsmall : ∀ v ∈ g.getVertices, σ v ≤ memoryPoolSize := fun v hv =>
    Nat.le_trans (Nat.le_of_lt (hlt v hv)) hb.length_le
  have hpair : ∀ v ∈ g.getVertices, ∀ c k, LastPair stringMap hash g c k ↔
      ∃ t, CallEdge stringMap g v c t ∧ k.toNat = σ t := by
    intro v hv c k
    obtain ⟨n, hn, he⟩ := hE.node hb hlab hv
    rw [← (hnodes n hn).mem_edges hall, he]
  have hsame : ∀ v ∈ g.getVertices, ∀ c t,
      CallEdge stringMap g v c t ↔ CallEdge stringMap g entry c t := fun v hv c t =>
    ⟨same_of_lastPair h hbij.injOn hsmall hpair hv hE.start.1,
      same_of_lastPair h hbij.injOn hsmall hpair hE.start.1 hv⟩
  have hsmall' : ∀ t ∈ successors g entry, σ t ≤ memoryPoolSize := fun t ht =>
    Nat.le_trans (Nat.le_of_lt (lt_of_mem_successors h hlt ht)) hb.length_le
  have hpairs := (samePairs_iff h hsame hsmall').1 (hpair entry hE.start.1)
  rw [hlen] at hbij
  obtain ⟨hlast, hcodes⟩ := hpairs.codesMatch
    ((numbering_getVertices h).2 ⟨hbij, hE.start.2⟩) (List.mem_toFinset.2 hE.start.1)
    (successors_subset h entry) (lastSuccessors_subset h hsame)
  rw [card_getVertices h] at hcodes
  obtain ⟨l, t, hlt'⟩ := hall entry hE.start.1
  exact ⟨hE.start.1, ⟨t, (mem_successors h).2 ⟨l, edge_of_last h hlt'⟩⟩, hsame, hlast, hcodes⟩

/-- The pass always writes a table, which is isomorphic to the graph, whatever is on the stack,
exactly for graphs all of whose vertices have the same edges, with ids that match the hashes. -/
theorem generateInMemoryGraph_encodes_iff (stringMap : String → Option Int)
    (hash : String → UInt64) (g : LibcCallgraph G) (entry : String) (h : g.Inv)
    (hlab : LibcLabels stringMap g)
    (hn : g.getVertices.length * g.getVertices.length < maxNeighbors) :
    (∀ edgeList neighborList, ∃ p m,
      generateInMemoryGraph stringMap hash g edgeList neighborList MemGraph.initial =
        (.ok (some p), m)) ∧
    ((∀ edgeList neighborList p m,
      generateInMemoryGraph stringMap hash g edgeList neighborList MemGraph.initial =
        (.ok (some p), m) → ∃ σ, Encodes stringMap g entry p σ) ↔
      Encodable stringMap hash g entry) := by
  have hbuilt := generateInMemoryGraph_built stringMap hash h hn
  refine ⟨fun edgeList neighborList => ?_, ?_, ?_⟩
  · obtain ⟨p, m, ns, hp, -⟩ := hbuilt edgeList neighborList
    exact ⟨p, m, hp⟩
  · intro hall
    obtain ⟨p, m, ns, hp, hb, hlen, hnodes⟩ :=
      hbuilt (fun _ => UInt64.ofNat memoryPoolSize) fun _ => 0
    obtain ⟨σ, hE⟩ := hall _ _ p m hp
    exact hE.encodable h hlab hb hlen hnodes
  · intro hE edgeList neighborList p m hp
    obtain ⟨p', m', ns, hp', hb, hlen, hnodes⟩ := hbuilt edgeList neighborList
    rw [hp] at hp'
    cases hp'
    exact hE.exists_encodes h hlab hb hlen hnodes

/-- Two vertices, each with an edge to either one. -/
def fullGraph : LibcCallgraph listGraaf :=
  .ofLists ["A", "B"] [("A", "libc:puts", "A"), ("A", "libc:exit", "B"), ("B", "libc:exit", "B"),
    ("B", "libc:puts", "A")]

def twoFunctions (name : String) : Option Int :=
  if name = "puts" then some 0 else if name = "exit" then some 1 else none

def twoHashes (s : String) : UInt64 := if s = "B" then 1 else 0

theorem fullGraph_edges : fullGraph.edges = [("B", "libc:puts", "A"), ("B", "libc:exit", "B"),
    ("A", "libc:exit", "B"), ("A", "libc:puts", "A")] := by
  decide +kernel

theorem fullGraph_inv : fullGraph.Inv := LibcCallgraph.ofLists_inv _ _

theorem fullGraph_edge_iff : fullGraph.Edge s l t ↔ (s = "A" ∨ s = "B") ∧
    (l = "libc:puts" ∧ t = "A" ∨ l = "libc:exit" ∧ t = "B") := by
  rw [fullGraph_inv.edge_of_edges fullGraph_edges]
  simp only [List.mem_cons, Prod.mk.injEq, List.not_mem_nil]
  grind

theorem fullGraph_getVertices : fullGraph.getVertices = ["A", "B"] := by decide +kernel

theorem fullGraph_encodable : Encodable twoFunctions twoHashes fullGraph "A" := by
  have hsucc : successors fullGraph "A" = {"A", "B"} := by decide +kernel
  have hA : labelId twoFunctions fullGraph "A" "A" = 0 ∧ hashId twoHashes "A" = 0 := by
    decide +kernel
  have hB : labelId twoFunctions fullGraph "A" "B" = 1 ∧ hashId twoHashes "B" = 1 := by
    decide +kernel
  constructor
  · rw [fullGraph_getVertices]
    exact List.mem_cons_self
  · rw [hsucc]
    exact ⟨"A", Finset.mem_insert_self _ _⟩
  · intro v hv c t
    rw [fullGraph_getVertices] at hv
    have hv' : v = "A" ∨ v = "B" := by simpa using hv
    simp only [CallEdge, fullGraph_edge_iff, hv', true_or, true_and]
  · decide +kernel
  · rw [hsucc, fullGraph_getVertices]
    constructor
    · simp [Set.InjOn, hA, hB]
    · simp [Set.InjOn, hA, hB]
    · simp [hA, hB]
    · simp [hA, hB]
    · simp [hA, hB]
    · simp [hA, hB]

/-- A graph that the pass does encode. -/
theorem fullGraph_encodes :
    (∀ edgeList neighborList, ∃ p m,
      generateInMemoryGraph twoFunctions twoHashes fullGraph edgeList neighborList
        MemGraph.initial = (.ok (some p), m)) ∧
    ∀ edgeList neighborList p m,
      generateInMemoryGraph twoFunctions twoHashes fullGraph edgeList neighborList
        MemGraph.initial = (.ok (some p), m) → ∃ σ, Encodes twoFunctions fullGraph "A" p σ := by
  have hlab : LibcLabels twoFunctions fullGraph := by
    intro s l t he
    rw [fullGraph_edge_iff] at he
    rcases he.2 with ⟨rfl, -⟩ | ⟨rfl, -⟩
    · exact ⟨"puts", 0, by decide +kernel, by decide +kernel⟩
    · exact ⟨"exit", 1, by decide +kernel, by decide +kernel⟩
  have hn : fullGraph.getVertices.length * fullGraph.getVertices.length < maxNeighbors := by
    rw [fullGraph_getVertices]
    decide
  obtain ⟨hends, hiff⟩ := generateInMemoryGraph_encodes_iff twoFunctions twoHashes fullGraph "A"
    fullGraph_inv hlab hn
  exact ⟨hends, hiff.2 fullGraph_encodable⟩

/-- A program that calls one library function and ends. -/
def putsGraph : LibcCallgraph listGraaf := .ofLists ["A", "B"] [("A", "libc:puts", "B")]

def putsListing (name : String) : Option Int := if name = "puts" then some 5 else none

def putsHash (s : String) : UInt64 := if s = "B" then 7 else 3

/-- Both nodes hold the edge of the first vertex, with the hash of the other one as the call and the
id of the call as the next state, and the second one's junk. -/
theorem putsGraph_table :
    ((generateInMemoryGraph putsListing putsHash putsGraph (fun _ => 0) (fun _ => 0)
      MemGraph.initial).1.toOption.join.map Pool.table) =
      some [⟨3, [⟨7, 5⟩, ⟨0, 0⟩]⟩, ⟨7, [⟨7, 5⟩, ⟨0, 0⟩, ⟨7, 5⟩, ⟨0, 0⟩]⟩] := by
  decide +kernel

theorem putsGraph_edges : putsGraph.edges = [("A", "libc:puts", "B")] := by decide +kernel

theorem putsGraph_labels : LibcLabels putsListing putsGraph := by
  intro s l t he
  have hinv : putsGraph.Inv := LibcCallgraph.ofLists_inv _ _
  rw [hinv.edge_of_edges putsGraph_edges, List.mem_singleton] at he
  cases he
  exact ⟨"puts", 5, by decide +kernel, by decide +kernel⟩

theorem putsGraph_not_encoded :
    putsGraph.Inv ∧ LibcLabels putsListing putsGraph ∧
    putsGraph.getVertices.length * putsGraph.getVertices.length < maxNeighbors ∧
    ∃ p m, generateInMemoryGraph putsListing putsHash putsGraph (fun _ => 0) (fun _ => 0)
      MemGraph.initial = (.ok (some p), m) ∧ ¬∃ σ, Encodes putsListing putsGraph "A" p σ := by
  refine ⟨LibcCallgraph.ofLists_inv _ _, putsGraph_labels, by decide +kernel, ?_⟩
  have htable := putsGraph_table
  generalize generateInMemoryGraph putsListing putsHash putsGraph (fun _ => 0) (fun _ => 0)
    MemGraph.initial = r at htable ⊢
  obtain ⟨r, m⟩ := r
  cases r with
  | error e => cases htable
  | ok p =>
    cases p with
    | none => cases htable
    | some p =>
      refine ⟨p, m, rfl, ?_⟩
      intro hx
      obtain ⟨σ, hE⟩ := hx
      have htable : p.table = _ := Option.some.inj htable
      obtain ⟨n, hn, he⟩ := hE.edges "A" hE.start.1
      rw [hE.start.2, htable, List.getElem?_cons_zero, Option.some.injEq] at hn
      obtain ⟨name, z, t, -, hz, hc, -⟩ := (he 7 5).1 (hn ▸ List.mem_cons_self)
      rw [putsListing] at hz
      split at hz
      · cases hz
        revert hc
        decide
      · cases hz

end LibcSandbox

import LibcSandbox.Library.Path
import Mathlib.Data.Set.Function

namespace Library
set_option autoImplicit true

variable {σ α : Type*} {E : σ → α → σ → Prop} {B : σ → Prop} {chain : σ → List (α × σ)}

/-- A trail along labelled edges, with the label and the end of each of them. -/
def Trail (E : σ → α → σ → Prop) (s : σ) (w : List (α × σ)) (t : σ) : Prop :=
  Path (fun s x t => E s x.1 t ∧ x.2 = t) s w t

theorem Trail.path (h : Trail E s w t) : Path E s (w.map Prod.fst) t := by
  induction h with
  | nil => exact .nil _
  | cons he _ ih =>
    obtain ⟨he, rfl⟩ := he
    exact .cons he ih

theorem Path.trail (h : Path E s w t) : ∃ w', Trail E s w' t ∧ w'.map Prod.fst = w := by
  induction h with
  | nil s => exact ⟨[], .nil s, rfl⟩
  | @cons s a t w u he _ ih =>
    obtain ⟨w', hw', rfl⟩ := ih
    exact ⟨(a, t) :: w', .cons ⟨he, rfl⟩ hw', rfl⟩

def trailEnd (s : σ) (w : List (α × σ)) : σ := (w.getLast?.map Prod.snd).getD s

theorem trailEnd_concat (s : σ) (w : List (α × σ)) (x : α × σ) : trailEnd s (w ++ [x]) = x.2 := by
  rw [trailEnd, List.getLast?_concat]
  rfl

/-- The graph where each state is followed by a chain of new edges, and its old edges leave from
the end of the chain. -/
def Subdivided (E : σ → α → σ → Prop) (B : σ → Prop) (chain : σ → List (α × σ)) (u : σ) (a : α)
    (v : σ) : Prop :=
  (∃ s before after, B s ∧ chain s = before ++ (a, v) :: after ∧ u = trailEnd s before) ∨
    ∃ s, E s a v ∧ u = trailEnd s (chain s)

/-- The states on the chains are all different. -/
def Separate (B : σ → Prop) (chain : σ → List (α × σ)) : Prop :=
  ∀ s t before before', B s → B t → before <+: chain s → before' <+: chain t →
    trailEnd s before = trailEnd t before' → s = t ∧ before = before'

theorem trailEnd_of_ne_nil (s : σ) {w : List (α × σ)} (h : w ≠ []) : ∃ x ∈ w, trailEnd s w = x.2 :=
  ⟨w.getLast h, List.getLast_mem h, by rw [trailEnd, List.getLast?_eq_getLast_of_ne_nil h]; rfl⟩

theorem subdivided_iff_of_nil (hB : Separate B chain) (hE : ∀ s a t, E s a t → B s ∧ B t)
    (hs : B s) (hchain : chain s = []) (a : α) (v : σ) :
    Subdivided E B chain s a v ↔ E s a v := by
  have hprefix : [] <+: chain s := List.nil_prefix
  apply Iff.intro
  · intro h
    rcases h with ⟨t, before, after, ht, hsplit, hu⟩ | ⟨t, he, hu⟩
    · obtain ⟨rfl, rfl⟩ := hB s t [] before hs ht hprefix ⟨_, hsplit.symm⟩ hu
      rw [hchain] at hsplit
      cases hsplit
    · obtain ⟨rfl, -⟩ := hB s t [] (chain t) hs (hE t a v he).1 hprefix List.prefix_rfl hu
      exact he
  · intro he
    exact .inr ⟨s, he, by rw [hchain]; rfl⟩

theorem subdivided_extend_iff {chain' : σ → List (α × σ)} (hB : Separate B chain')
    (hE : ∀ s a t, E s a t → B s ∧ B t) (hs : B s) (hchain : chain s = [])
    (hother : ∀ t, t ≠ s → chain' t = chain t) (u : σ) (a : α) (v : σ) :
    Subdivided E B chain' u a v ↔ Subdivided E B chain u a v ∧ u ≠ s ∨
      (∃ before after, chain' s = before ++ (a, v) :: after ∧ u = trailEnd s before) ∨
      u = trailEnd s (chain' s) ∧ E s a v := by
  have hne {t : σ} {before : List (α × σ)} (ht : B t) (hts : t ≠ s)
      (hbefore : before <+: chain' t) :
      trailEnd t before ≠ s := by
    intro he
    exact hts (hB t s before [] ht hs hbefore List.nil_prefix he).1
  apply Iff.intro
  · intro h
    rcases h with ⟨t, before, after, ht, hsplit, rfl⟩ | ⟨t, he, rfl⟩
    · by_cases hts : t = s
      · subst hts
        exact .inr (.inl ⟨before, after, hsplit, rfl⟩)
      · have hold : chain t = before ++ (a, v) :: after := (hother t hts).symm.trans hsplit
        exact .inl ⟨.inl ⟨t, before, after, ht, hold, rfl⟩, hne ht hts ⟨_, hsplit.symm⟩⟩
    · by_cases hts : t = s
      · subst hts
        exact .inr (.inr ⟨rfl, he⟩)
      · refine .inl ⟨.inr ⟨t, he, by rw [hother t hts]⟩, ?_⟩
        exact hne (hE t a v he).1 hts List.prefix_rfl
  · intro h
    rcases h with ⟨h, hus⟩ | ⟨before, after, hsplit, hu⟩ | ⟨hu, he⟩
    · rcases h with ⟨t, before, after, ht, hsplit, hu⟩ | ⟨t, he, hu⟩
      · have hts : t ≠ s := by
          rintro rfl
          rw [hchain] at hsplit
          exact List.append_ne_nil_of_right_ne_nil _ (List.cons_ne_nil _ _) hsplit.symm
        exact .inl ⟨t, before, after, ht, (hother t hts).trans hsplit, hu⟩
      · have hts : t ≠ s := by
          rintro rfl
          rw [hchain] at hu
          exact hus hu
        exact .inr ⟨t, he, by rw [hother t hts]; exact hu⟩
    · exact .inl ⟨s, before, after, hs, hsplit, hu⟩
    · exact .inr ⟨s, he, hu⟩

/-- A trail, with the chain of each state it visits. -/
def expandTrail (chain : σ → List (α × σ)) (s : σ) (w : List (α × σ)) : List (α × σ) :=
  chain s ++ w.flatMap fun x => x :: chain x.2

theorem Trail.append (h : Trail E s w t) (h' : Trail E t w' u) : Trail E s (w ++ w') u :=
  Path.append h h'

theorem trail_chain (hs : B s) (h : chain s = before ++ after) :
    Trail (Subdivided E B chain) (trailEnd s before) after (trailEnd s (chain s)) := by
  induction after generalizing before with
  | nil =>
    rw [h, List.append_nil]
    exact .nil _
  | cons x after ih =>
    have hnext : chain s = (before ++ [x]) ++ after := by rw [h, ← List.append_cons]
    have hrest := ih hnext
    rw [trailEnd_concat] at hrest
    exact .cons ⟨.inl ⟨s, before, after, hs, h, rfl⟩, rfl⟩ hrest

theorem trail_expandTrail (hE : ∀ s a t, E s a t → B s ∧ B t) (hs : B s) (h : Trail E s w t) :
    Trail (Subdivided E B chain) s (expandTrail chain s w) (trailEnd t (chain t)) := by
  have hchain {s : σ} (hs : B s) :
      Trail (Subdivided E B chain) s (chain s) (trailEnd s (chain s)) := by
    have hstart : chain s = [] ++ chain s := rfl
    exact trail_chain hs hstart
  induction h with
  | nil s =>
    rw [expandTrail, List.flatMap_nil, List.append_nil]
    exact hchain hs
  | @cons s x t w u he _ ih =>
    obtain ⟨he, rfl⟩ := he
    have hx := (hE s x.1 x.2 he).2
    apply (hchain hs).append
    exact .cons ⟨.inr ⟨s, he, rfl⟩, rfl⟩ (ih hx)

/-- From a place on a chain, a trail to the end of a chain goes on along the chain, and then along
chains of the states of a trail. -/
theorem trail_of_place (hE : ∀ s a t, E s a t → B s ∧ B t) (hB : Separate B chain)
    (h : Trail (Subdivided E B chain) u w' v) (hs : B s) (hchain : chain s = before ++ after)
    (hu : u = trailEnd s before) (ht : B t) (hv : v = trailEnd t (chain t)) :
    ∃ w, Trail E s w t ∧ w' = after ++ w.flatMap fun x => x :: chain x.2 := by
  have hprefix : before <+: chain s := ⟨after, hchain.symm⟩
  induction h generalizing s before after with
  | nil u =>
    obtain ⟨rfl, rfl⟩ := hB s t before (chain t) hs ht hprefix List.prefix_rfl (hu.symm.trans hv)
    have hafter : after = [] := by simpa using hchain
    exact ⟨[], .nil _, by rw [hafter]; rfl⟩
  | @cons u x _ w' v he _ ih =>
    obtain ⟨he, rfl⟩ := he
    rcases he with ⟨s', before', after', hs', hchain', hu'⟩ | ⟨s', he, hu'⟩
    · -- The next edge of the chain.
      have hprefix' : before' <+: chain s' := ⟨_, hchain'.symm⟩
      obtain ⟨rfl, rfl⟩ := hB s s' before before' hs hs' hprefix hprefix' (hu.symm.trans hu')
      have hafter : after = x :: after' := List.append_cancel_left (hchain.symm.trans hchain')
      have hnext : chain s = (before ++ [x]) ++ after' := by rw [hchain', ← List.append_cons]
      obtain ⟨w, hw, rfl⟩ := ih hs hnext (trailEnd_concat s before x).symm hv ⟨_, hnext.symm⟩
      exact ⟨w, hw, by rw [hafter]; rfl⟩
    · -- The chain has ended.
      obtain ⟨hs', hx⟩ := hE s' x.1 x.2 he
      obtain ⟨rfl, rfl⟩ :=
        hB s s' before (chain s') hs hs' hprefix List.prefix_rfl (hu.symm.trans hu')
      have hafter : after = [] := by simpa using hchain
      have hstart : chain x.2 = [] ++ chain x.2 := rfl
      obtain ⟨w, hw, rfl⟩ := ih hx hstart rfl hv List.nil_prefix
      exact ⟨x :: w, .cons ⟨he, rfl⟩ hw, by rw [hafter]; rfl⟩

theorem flatMap_cons_injective (f : α → List α) :
    Function.Injective fun w : List α => w.flatMap fun x => x :: f x := by
  intro w w' h
  induction w generalizing w' with
  | nil =>
    cases w' with
    | nil => rfl
    | cons x' w' => cases h
  | cons x w ih =>
    cases w' with
    | nil => cases h
    | cons x' w' =>
      simp only [List.flatMap_cons, List.cons_append, List.cons.injEq] at h
      obtain ⟨rfl, h⟩ := h
      rw [ih (List.append_cancel_left h)]

theorem expandTrail_injective (chain : σ → List (α × σ)) (s : σ) :
    Function.Injective (expandTrail chain s) := by
  intro w w' h
  exact flatMap_cons_injective (fun x => chain x.2) (List.append_cancel_left h)

theorem Trail.end_mem (hE : ∀ s a t, E s a t → B s ∧ B t) (hs : B s) (h : Trail E s w t) : B t := by
  induction h with
  | nil => exact hs
  | cons he _ ih => exact ih (he.2 ▸ (hE _ _ _ he.1).2)

/-- The trails of a graph are, one to one, the trails of the subdivided graph to ends of chains. -/
theorem expandTrail_bijOn (hE : ∀ s a t, E s a t → B s ∧ B t) (hB : Separate B chain) (hs : B s) :
    Set.BijOn (expandTrail chain s) {w | ∃ t, Trail E s w t}
      {w | ∃ t, B t ∧ Trail (Subdivided E B chain) s w (trailEnd t (chain t))} := by
  refine ⟨?_, (expandTrail_injective chain s).injOn, ?_⟩
  · intro w hw
    obtain ⟨t, hw⟩ := hw
    exact ⟨t, hw.end_mem hE hs, trail_expandTrail hE hs hw⟩
  · intro w' hw'
    obtain ⟨t, ht, hw'⟩ := hw'
    have hstart : chain s = [] ++ chain s := rfl
    obtain ⟨w, hw, rfl⟩ := trail_of_place hE hB hw' hs hstart rfl ht rfl
    exact ⟨w, ⟨t, hw⟩, rfl⟩

theorem visible_expandTrail [DecidableEq α] {silent : α} (hsilent : ∀ s a t, E s a t → a = silent)
    (hchain : ∀ s, ∀ x ∈ chain s, x.1 ≠ silent) (h : Trail E s w t) :
    visible silent ((expandTrail chain s w).map Prod.fst) =
      (s :: w.map Prod.snd).flatMap fun s => (chain s).map Prod.fst := by
  have hkeep (s : σ) : visible silent ((chain s).map Prod.fst) = (chain s).map Prod.fst := by
    rw [visible, List.filter_eq_self]
    intro a ha
    obtain ⟨x, hx, rfl⟩ := List.mem_map.1 ha
    simpa using hchain s x hx
  have happend (w w' : List α) : visible silent (w ++ w') = visible silent w ++ visible silent w' :=
    List.filter_append w w'
  rw [expandTrail, List.map_append, happend, hkeep, List.flatMap_cons, List.append_cancel_left_eq]
  induction h with
  | nil s => rfl
  | @cons s x t w u he _ ih =>
    obtain ⟨he, rfl⟩ := he
    rw [List.flatMap_cons, List.map_append, happend, ih, List.map_cons, hsilent s x.1 x.2 he,
      visible_cons_silent, hkeep, List.map_cons, List.flatMap_cons]

end Library

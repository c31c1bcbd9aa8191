import Mathlib.Data.Fintype.Sum
import Mathlib.Data.Set.Function

namespace Library
set_option autoImplicit true

variable {α : Type*} [DecidableEq α] {V : Finset α} {W L : Finset α} {σ c h : α → Nat} {start : α}

/-- A numbering of a finite set that starts with a given element. -/
structure Numbering (V : Finset α) (start : α) (σ : α → Nat) : Prop where
  bij : Set.BijOn σ V (Set.Iio V.card)
  start : σ start = 0

/-- Numbers of some elements, all different and small enough, extend to all elements. -/
theorem exists_bijOn_extend (hW : W ⊆ V) (hinj : Set.InjOn σ W) (hlt : ∀ w ∈ W, σ w < V.card) :
    ∃ τ, Set.BijOn τ V (Set.Iio V.card) ∧ ∀ w ∈ W, τ w = σ w := by
  have hmaps : Set.MapsTo (fun v : V => σ v) {v | v.1 ∈ W} (Finset.range V.card) := by
    intro v hv
    exact Finset.mem_coe.2 (Finset.mem_range.2 (hlt v hv))
  have hinj' : Set.InjOn (fun v : V => σ v) {v | v.1 ∈ W} := by
    intro v hv w hw hvw
    exact Subtype.ext (hinj hv hw hvw)
  obtain ⟨e, he⟩ := hmaps.exists_equiv_extend_of_card_eq (by simp) hinj'
  let τ (a : α) : Nat := if ha : a ∈ V then e ⟨a, ha⟩ else 0
  have hτ : ∀ v : V, τ v = e v := fun v => dif_pos v.2
  refine ⟨τ, ⟨?_, ?_, ?_⟩, ?_⟩
  · intro a ha
    rw [hτ ⟨a, ha⟩]
    exact Finset.mem_range.1 (e ⟨a, ha⟩).2
  · intro a ha b hb hab
    rw [hτ ⟨a, ha⟩, hτ ⟨b, hb⟩] at hab
    exact congrArg Subtype.val (e.injective (Subtype.ext hab))
  · intro k hk
    have hk' : k ∈ Finset.range V.card := Finset.mem_range.2 hk
    refine ⟨(e.symm ⟨k, hk'⟩).1, (e.symm ⟨k, hk'⟩).2, ?_⟩
    rw [hτ, Equiv.apply_symm_apply]
  · intro w hw
    rw [hτ ⟨w, hW hw⟩]
    exact he ⟨w, hW hw⟩ hw

/-- If 0 is the number of the given element and of no other, they are part of a numbering. -/
theorem exists_numbering (hs : start ∈ V) (hW : W ⊆ V) (hinj : Set.InjOn σ W)
    (hlt : ∀ w ∈ W, σ w < V.card) (hstart : ∀ w ∈ W, σ w = 0 ↔ w = start) :
    ∃ τ, Numbering V start τ ∧ ∀ w ∈ W, τ w = σ w := by
  by_cases hsW : start ∈ W
  · obtain ⟨τ, hτ, hext⟩ := exists_bijOn_extend hW hinj hlt
    exact ⟨τ, ⟨hτ, (hext start hsW).trans ((hstart start hsW).2 rfl)⟩, hext⟩
  · have hne : ∀ w ∈ W, w ≠ start := fun w hw he => hsW (he ▸ hw)
    have hnew : ∀ w ∈ W, Function.update σ start 0 w = σ w := fun w hw =>
      Function.update_of_ne (hne w hw) _ _
    have hinj' : Set.InjOn (Function.update σ start 0) (insert start W : Finset α) := by
      rw [Finset.coe_insert, Set.injOn_insert hsW, Function.update_self]
      refine ⟨fun v hv w hw hvw => ?_, fun hmem => ?_⟩
      · rw [hnew v hv, hnew w hw] at hvw
        exact hinj hv hw hvw
      · obtain ⟨w, hw, hw0⟩ := hmem
        rw [hnew w hw] at hw0
        exact hne w hw ((hstart w hw).1 hw0)
    have hlt' : ∀ w ∈ insert start W, Function.update σ start 0 w < V.card := by
      intro w hw
      rcases Finset.mem_insert.1 hw with rfl | hw
      · rw [Function.update_self]
        exact Finset.card_pos.2 ⟨w, hs⟩
      · rw [hnew w hw]
        exact hlt w hw
    obtain ⟨τ, hτ, hext⟩ := exists_bijOn_extend (Finset.insert_subset hs hW) hinj' hlt'
    refine ⟨τ, ⟨hτ, ?_⟩, fun w hw => ?_⟩
    · rw [hext start (Finset.mem_insert_self _ _), Function.update_self]
    · rw [hext w (Finset.mem_insert_of_mem hw), hnew w hw]

/-- The codes of some elements, paired with their numbers, are the same pairs as other codes of
theirs, paired with the first ones. -/
def SamePairs (W L : Finset α) (c h σ : α → Nat) : Prop :=
  ∀ a b, (∃ w ∈ W, c w = a ∧ σ w = b) ↔ ∃ x ∈ L, h x = a ∧ c x = b

/-- The two codes tell the elements apart, have the same values, and determine the numbers. -/
structure CodesMatch (W : Finset α) (start : α) (n : Nat) (c h : α → Nat) : Prop where
  injOn : Set.InjOn c W
  injOn' : Set.InjOn h W
  value : ∀ w ∈ W, ∃ x ∈ W, h x = c w
  value' : ∀ x ∈ W, ∃ w ∈ W, c w = h x
  lt : ∀ w ∈ W, c w < n
  start : ∀ w ∈ W, ∀ x ∈ W, h x = c w → (c x = 0 ↔ w = start)

theorem SamePairs.codesMatch (hn : Numbering V start σ) (hs : start ∈ V) (hW : W ⊆ V) (hL : L ⊆ W)
    (h' : SamePairs W L c h σ) : L = W ∧ CodesMatch W start V.card c h := by
  have hinj : Set.InjOn σ W := hn.bij.injOn.mono hW
  have hnext : ∀ w ∈ W, ∃ x ∈ L, h x = c w ∧ c x = σ w := fun w hw => (h' _ _).1 ⟨w, hw, rfl, rfl⟩
  choose! next hnextL hnexth hnextc using hnext
  -- the successor map is one-to-one on a finite set, and so onto it
  have hnextinj : Set.InjOn next W := by
    intro w hw v hv hwv
    apply hinj hw hv
    rw [← hnextc w hw, ← hnextc v hv, hwv]
  have himage : W.image next = W := by
    apply Finset.eq_of_subset_of_card_le
    · intro x hx
      obtain ⟨w, hw, rfl⟩ := Finset.mem_image.1 hx
      exact hL (hnextL w hw)
    · rw [Finset.card_image_of_injOn hnextinj]
  have hsurj : ∀ x ∈ W, ∃ w ∈ W, next w = x := by
    intro x hx
    rw [← himage] at hx
    exact Finset.mem_image.1 hx
  have hc : Set.InjOn c W := by
    intro x hx y hy hxy
    obtain ⟨w, hw, rfl⟩ := hsurj x hx
    obtain ⟨v, hv, rfl⟩ := hsurj y hy
    rw [hnextc w hw, hnextc v hv] at hxy
    rw [hinj hw hv hxy]
  have hh : Set.InjOn h W := by
    intro x hx y hy hxy
    obtain ⟨w, hw, rfl⟩ := hsurj x hx
    obtain ⟨v, hv, rfl⟩ := hsurj y hy
    rw [hnexth w hw, hnexth v hv] at hxy
    rw [hc hw hv hxy]
  refine ⟨hL.antisymm fun x hx => ?_, hc, hh, ?_, ?_, ?_, ?_⟩
  · obtain ⟨w, hw, rfl⟩ := hsurj x hx
    exact hnextL w hw
  · intro w hw
    exact ⟨next w, hL (hnextL w hw), hnexth w hw⟩
  · intro x hx
    obtain ⟨w, hw, rfl⟩ := hsurj x hx
    exact ⟨w, hw, (hnexth w hw).symm⟩
  · intro x hx
    obtain ⟨w, hw, rfl⟩ := hsurj x hx
    rw [hnextc w hw]
    exact hn.bij.mapsTo (hW hw)
  · intro w hw x hx hxw
    have hx' : x = next w := hh hx (hL (hnextL w hw)) (hxw.trans (hnexth w hw).symm)
    rw [hx', hnextc w hw, ← hn.start]
    exact hn.bij.injOn.eq_iff (hW hw) hs

theorem CodesMatch.exists_numbering (hm : CodesMatch W start V.card c h) (hs : start ∈ V)
    (hW : W ⊆ V) : ∃ σ, Numbering V start σ ∧ SamePairs W W c h σ := by
  choose! next hnextW hnexth using hm.value
  have hinj : Set.InjOn (fun w => c (next w)) W := by
    intro w hw v hv hwv
    apply hm.injOn hw hv
    rw [← hnexth w hw, ← hnexth v hv, hm.injOn (hnextW w hw) (hnextW v hv) hwv]
  obtain ⟨σ, hσ, hext⟩ := Library.exists_numbering hs hW hinj
    (fun w hw => hm.lt _ (hnextW w hw))
    fun w hw => hm.start w hw (next w) (hnextW w hw) (hnexth w hw)
  refine ⟨σ, hσ, fun a b => ?_⟩
  apply Iff.intro
  · intro hx
    obtain ⟨w, hw, rfl, rfl⟩ := hx
    exact ⟨next w, hnextW w hw, hnexth w hw, (hext w hw).symm⟩
  · intro hx
    obtain ⟨x, hx, rfl, rfl⟩ := hx
    obtain ⟨w, hw, hwx⟩ := hm.value' x hx
    have hx' : next w = x := hm.injOn' (hnextW w hw) hx ((hnexth w hw).trans hwx)
    exact ⟨w, hw, hwx, by rw [hext w hw, hx']⟩

end Library

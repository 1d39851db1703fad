import OSForReal.Framework.Chain

/-!
# Chains with owners

Nodes are linked by `next`, and every owner holds the chain that begins at its
`start` and ends at the marker `stop`, which is empty where `start` is `stop`.
`Owned` says that the chains of different owners share no node and that the
nodes taken are exactly those on some chain: nothing is shared and nothing is
lost. It is kept when an owner without nodes takes a chain of free ones
(`Owned.take`), when an owner leaves with its chain (`Owned.release`), and when
nothing that it speaks of changes (`Owned.congr`).
-/

namespace Framework

variable {α ι : Type*}

/-- The owners `used` hold the chains `chain`, of the nodes `taken`. -/
structure Owned (next : α → α) (stop : α) (taken : α → Prop) (used : ι → Prop) (start : ι → α)
    (chain : ι → List α) : Prop where
  isChain : ∀ i, used i → Chain next (start i) (chain i) stop
  noStop : ∀ i, used i → stop ∉ chain i
  disjoint : ∀ i j, used i → used j → i ≠ j → (chain i).Disjoint (chain j)
  taken_iff : ∀ x, taken x ↔ ∃ i, used i ∧ x ∈ chain i

namespace Owned

variable {next next' : α → α} {stop : α} {taken taken' : α → Prop} {used used' : ι → Prop} {start start' : ι → α}
  {chain : ι → List α} {i : ι} {l : List α} {x : α}

/-- Without owners and taken nodes. -/
theorem empty (hu : ∀ i, ¬ used i) (ht : ∀ x, ¬ taken x) : Owned next stop taken used start chain :=
  ⟨fun i h => absurd h (hu i), fun i h => absurd h (hu i), fun i _ h => absurd h (hu i),
    fun x => ⟨fun h => absurd h (ht x), fun ⟨i, h, _⟩ => absurd h (hu i)⟩⟩

variable (h : Owned next stop taken used start chain)

include h

theorem taken_of_mem (hi : used i) (hx : x ∈ chain i) : taken x := (h.taken_iff x).mpr ⟨i, hi, hx⟩

theorem nodup (hi : used i) : (chain i).Nodup := (h.isChain i hi).nodup (h.noStop i hi)

/-- A taken node is on exactly one chain. -/
theorem existsUnique (hx : taken x) : ∃! i, used i ∧ x ∈ chain i := by
  obtain ⟨i, hi, hxi⟩ := (h.taken_iff x).mp hx
  refine ⟨i, ⟨hi, hxi⟩, fun j ⟨hj, hxj⟩ => ?_⟩
  by_contra hne
  exact h.disjoint j i hj hi hne hxj hxi

theorem congr (hn : ∀ x, taken x → next' x = next x) (ht : ∀ x, taken' x ↔ taken x) (hu : ∀ i, used' i ↔ used i)
    (hs : ∀ i, used i → start' i = start i) : Owned next' stop taken' used' start' chain := by
  refine ⟨fun i hi => ?_, fun i hi => h.noStop i ((hu i).mp hi), fun i j hi hj => ?_, fun x => ?_⟩
  · have hi := (hu i).mp hi
    rw [hs i hi]
    exact (h.isChain i hi).frame fun x hx => hn x (h.taken_of_mem hi hx)
  · exact h.disjoint i j ((hu i).mp hi) ((hu j).mp hj)
  · simp only [ht, hu]
    exact h.taken_iff x

/-- An owner that is new, or holds no node, takes a chain of free nodes. -/
theorem take [DecidableEq ι] (hfree : ∀ x ∈ l, ¬ taken x) (hi : used i → chain i = []) (hl : stop ∉ l)
    (hchain : Chain next' (start' i) l stop) (hn : ∀ x, taken x → next' x = next x)
    (ht : ∀ x, taken' x ↔ taken x ∨ x ∈ l) (hu : ∀ j, used' j ↔ used j ∨ j = i)
    (hs : ∀ j, used j → j ≠ i → start' j = start j) :
    Owned next' stop taken' used' start' (Function.update chain i l) := by
  have hother : ∀ j, used' j → j ≠ i → used j := fun j hj hne => ((hu j).mp hj).resolve_right hne
  refine ⟨fun j hj => ?_, fun j hj => ?_, fun j k hj hk hjk => ?_, fun x => ?_⟩
  · by_cases hji : j = i
    · rw [hji, Function.update_self]
      exact hchain
    · rw [Function.update_of_ne hji, hs j (hother j hj hji) hji]
      exact (h.isChain j (hother j hj hji)).frame fun x hx => hn x (h.taken_of_mem (hother j hj hji) hx)
  · by_cases hji : j = i
    · rwa [hji, Function.update_self]
    · rw [Function.update_of_ne hji]
      exact h.noStop j (hother j hj hji)
  · by_cases hji : j = i
    · have hki : k ≠ i := fun e => hjk (hji.trans e.symm)
      rw [hji, Function.update_self, Function.update_of_ne hki]
      exact fun x hx hx' => hfree x hx (h.taken_of_mem (hother k hk hki) hx')
    · rw [Function.update_of_ne hji]
      by_cases hki : k = i
      · rw [hki, Function.update_self]
        exact fun x hx hx' => hfree x hx' (h.taken_of_mem (hother j hj hji) hx)
      · rw [Function.update_of_ne hki]
        exact h.disjoint j k (hother j hj hji) (hother k hk hki) hjk
  · rw [ht, h.taken_iff]
    constructor
    · rintro (⟨j, hj, hx⟩ | hx)
      · by_cases hji : j = i
        · subst hji
          rw [hi hj] at hx
          cases hx
        · exact ⟨j, (hu j).mpr (.inl hj), by rwa [Function.update_of_ne hji]⟩
      · exact ⟨i, (hu i).mpr (.inr rfl), by rwa [Function.update_self]⟩
    · rintro ⟨j, hj, hx⟩
      by_cases hji : j = i
      · rw [hji, Function.update_self] at hx
        exact .inr hx
      · rw [Function.update_of_ne hji] at hx
        exact .inl ⟨j, hother j hj hji, hx⟩

/-- An owner leaves, and its chain is free. -/
theorem release (hi : used i) (hn : ∀ x, taken x → x ∉ chain i → next' x = next x)
    (ht : ∀ x, taken' x ↔ taken x ∧ x ∉ chain i) (hu : ∀ j, used' j ↔ used j ∧ j ≠ i)
    (hs : ∀ j, used j → j ≠ i → start' j = start j) : Owned next' stop taken' used' start' chain := by
  refine ⟨fun j hj => ?_, fun j hj => h.noStop j ((hu j).mp hj).1, fun j k hj hk => ?_, fun x => ?_⟩
  · obtain ⟨hj, hji⟩ := (hu j).mp hj
    rw [hs j hj hji]
    exact (h.isChain j hj).frame fun x hx => hn x (h.taken_of_mem hj hx) fun hxi => h.disjoint j i hj hi hji hx hxi
  · exact h.disjoint j k ((hu j).mp hj).1 ((hu k).mp hk).1
  · rw [ht, h.taken_iff]
    constructor
    · rintro ⟨⟨j, hj, hx⟩, hxi⟩
      exact ⟨j, (hu j).mpr ⟨hj, fun e => hxi (e ▸ hx)⟩, hx⟩
    · rintro ⟨j, hj, hx⟩
      obtain ⟨hj, hji⟩ := (hu j).mp hj
      exact ⟨⟨j, hj, hx⟩, fun hxi => h.disjoint j i hj hi hji hx hxi⟩

end Owned

end Framework

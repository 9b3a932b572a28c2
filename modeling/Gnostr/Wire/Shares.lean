import Mathlib.Combinatorics.Hall.Basic
import Mathlib.Algebra.Order.BigOperators.Group.Finset

/-!
# Sharing out

Several takers choose among items. Each has its candidates and a share, the number of them it is
to take, and several may take the same item. `exists_shares_iff` counts which sets of items can be
what all of them take together.
-/

namespace Wire

variable {ι κ : Type} [DecidableEq ι] [Fintype κ]

/-- Every taker takes as many of its candidates as its share says. -/
structure Shares (candidates : κ → Finset ι) (share : κ → Nat) (taken : κ → Finset ι) : Prop where
  sound : ∀ k, taken k ⊆ candidates k
  full : ∀ k, (taken k).card = share k

/-- The takers that have a candidate among some items. -/
def interested (candidates : κ → Finset ι) (s : Finset ι) : Finset κ :=
  Finset.univ.filter fun k => (candidates k ∩ s).Nonempty

/-- Somebody is interested in a set when one of its members is a candidate. -/
theorem mem_interested {candidates : κ → Finset ι} {s : Finset ι} {k : κ} :
    k ∈ interested candidates s ↔ ∃ i ∈ s, i ∈ candidates k := by
  simp only [interested, Finset.mem_filter, Finset.mem_univ, true_and, Finset.Nonempty,
    Finset.mem_inter, and_comm]

/-- Items that are taken do not outnumber the shares of those who could take them. -/
theorem Shares.card_le {candidates taken : κ → Finset ι} {share : κ → Nat}
    (h : Shares candidates share taken) {s : Finset ι} (hs : s ⊆ Finset.univ.biUnion taken) :
    s.card ≤ ∑ k ∈ interested candidates s, share k := by
  have hcover : s ⊆ (interested candidates s).biUnion taken := fun i hi => by
    obtain ⟨k, -, hk⟩ := Finset.mem_biUnion.mp (hs hi)
    exact Finset.mem_biUnion.mpr ⟨k, mem_interested.mpr ⟨i, hi, h.sound k hk⟩, hk⟩
  calc s.card ≤ ((interested candidates s).biUnion taken).card := Finset.card_le_card hcover
    _ ≤ ∑ k ∈ interested candidates s, (taken k).card := Finset.card_biUnion_le
    _ = ∑ k ∈ interested candidates s, share k := Finset.sum_congr rfl fun k _ => h.full k

/-- Items that never outnumber the shares can be given to takers, none of whom gets more than its
share. -/
theorem exists_owner [DecidableEq κ] {candidates : κ → Finset ι} {share : κ → Nat}
    {target : Finset ι}
    (h : ∀ s ⊆ target, s.card ≤ ∑ k ∈ interested candidates s, share k) :
    ∃ given : κ → Finset ι, (∀ k, given k ⊆ candidates k ∩ target ∧ (given k).card ≤ share k) ∧
      target ⊆ Finset.univ.biUnion given := by
  -- a place is a taker and a number below its share
  let places : target → Finset ((k : κ) × Fin (share k)) := fun i =>
    (Finset.univ.filter fun k => i.1 ∈ candidates k).sigma fun _ => Finset.univ
  have hplaces : ∀ s : Finset target, s.biUnion places =
      (interested candidates (s.map (Function.Embedding.subtype _))).sigma
        fun _ => Finset.univ := fun s => by
    ext ⟨k, j⟩
    simp [places, mem_interested]
  obtain ⟨place, hinjective, hplace⟩ :=
    (Finset.all_card_le_biUnion_card_iff_exists_injective places).mp fun s => by
      have hcount := h (s.map (Function.Embedding.subtype _)) fun i hi => by
        obtain ⟨j, -, rfl⟩ := Finset.mem_map.mp hi
        exact j.2
      rw [Finset.card_map] at hcount
      rw [hplaces, Finset.card_sigma]
      simpa using hcount
  have hcandidate : ∀ i, i.1 ∈ candidates (place i).1 := fun i => by
    simpa [places] using hplace i
  refine ⟨fun k => (Finset.univ.filter fun i => (place i).1 = k).map
    (Function.Embedding.subtype _), fun k => ⟨fun i hi => ?_, ?_⟩, fun i hi => ?_⟩
  · obtain ⟨j, hj, rfl⟩ := Finset.mem_map.mp hi
    obtain rfl := (Finset.mem_filter.mp hj).2
    exact Finset.mem_inter.mpr ⟨hcandidate j, j.2⟩
  · have hplaced : ((Finset.univ.filter fun i => (place i).1 = k).image place) ⊆
        ({k} : Finset κ).sigma fun _ => Finset.univ := fun p hp => by
      obtain ⟨j, hj, rfl⟩ := Finset.mem_image.mp hp
      simpa using (Finset.mem_filter.mp hj).2
    have hle := Finset.card_le_card hplaced
    rw [Finset.card_image_of_injective _ hinjective] at hle
    rw [Finset.card_map]
    simpa using hle
  · exact Finset.mem_biUnion.mpr ⟨(place ⟨i, hi⟩).1, Finset.mem_univ _,
      Finset.mem_map.mpr ⟨⟨i, hi⟩, by simp, rfl⟩⟩

/-- A set can be shared out exactly when every taker finds its share in it, and no part of it
outnumbers the shares of those who have a candidate there. -/
theorem exists_shares_iff [DecidableEq κ] (candidates : κ → Finset ι) (share : κ → Nat)
    (target : Finset ι) :
    (∃ taken, Shares candidates share taken ∧ Finset.univ.biUnion taken = target) ↔
      (∀ k, share k ≤ (candidates k ∩ target).card) ∧
        ∀ s ⊆ target, s.card ≤ ∑ k ∈ interested candidates s, share k := by
  constructor
  · rintro ⟨taken, htaken, rfl⟩
    refine ⟨fun k => ?_, fun s hs => htaken.card_le hs⟩
    rw [← htaken.full k]
    exact Finset.card_le_card (Finset.subset_inter (htaken.sound k)
      (Finset.subset_biUnion_of_mem taken (Finset.mem_univ k)))
  · rintro ⟨hroom, hcount⟩
    obtain ⟨given, hgiven, hcover⟩ := exists_owner hcount
    -- a taker with less than its share takes more of its candidates
    have hfill : ∀ k, ∃ more, given k ⊆ more ∧ more ⊆ candidates k ∩ target ∧
        more.card = share k := fun k =>
      Finset.exists_subsuperset_card_eq (hgiven k).1 (hgiven k).2 (hroom k)
    choose taken hmore htaken hfull using hfill
    refine ⟨taken, ⟨fun k => (htaken k).trans Finset.inter_subset_left, hfull⟩, ?_⟩
    refine Finset.Subset.antisymm (Finset.biUnion_subset.mpr fun k _ =>
      (htaken k).trans Finset.inter_subset_right) (hcover.trans ?_)
    exact Finset.biUnion_mono fun k _ => hmore k

end Wire

import LinuxStudy.SlotTable
import Mathlib.Data.Finset.Card

/-! Numbers that are always given out lowest first, to a table with a limited
number of slots: those that have a slot stay below those that found none. -/

namespace LinuxStudy

section LowestFree

/-- How many smaller numbers there are outside `base`. -/
def rank (base : Finset Nat) (c : Nat) : Nat := ((Finset.range c).filter (· ∉ base)).card

variable {base : Finset Nat} {slots slots' live : List Nat} {c d n : Nat}

theorem rank_lt (hc : c ∉ base) (h : c < d) : rank base c < rank base d := by
  apply Finset.card_lt_card
  refine Finset.ssubset_iff_subset_ne.mpr ⟨fun x hx => ?_, fun heq => ?_⟩
  · simp only [Finset.mem_filter, Finset.mem_range] at hx ⊢
    exact ⟨hx.1.trans h, hx.2⟩
  · have hmem : c ∈ (Finset.range d).filter (· ∉ base) := by simp [h, hc]
    rw [← heq] at hmem
    simp at hmem

theorem rank_inj (hc : c ∉ base) (hd : d ∉ base) (h : rank base c = rank base d) : c = d := by
  rcases lt_trichotomy c d with hlt | heq | hlt
  · have := rank_lt hc hlt
    omega
  · exact heq
  · have := rank_lt hd hlt
    omega

theorem le_rank_add (base : Finset Nat) (c : Nat) : c ≤ rank base c + base.card := by
  have hsplit := Finset.card_filter_add_card_filter_not (s := Finset.range c) (· ∉ base)
  have hbase : ((Finset.range c).filter (¬ · ∉ base)).card ≤ base.card := by
    apply Finset.card_le_card
    intro x hx
    simpa using (Finset.mem_filter.mp hx).2
  rw [Finset.card_range] at hsplit
  change rank base c + _ = c at hsplit
  omega

/-- The lowest number that neither `base` nor `live` has. -/
def IsLowest (base : Finset Nat) (live : List Nat) (c : Nat) : Prop :=
  (c ∉ base ∧ c ∉ live) ∧ ∀ d < c, d ∈ base ∨ d ∈ live

instance : Decidable (IsLowest base live c) := inferInstanceAs (Decidable (_ ∧ _))

/-- Of `live`, what has one of the `n` slots is among the first `n` numbers, and
nothing else is. -/
structure Packed (base : Finset Nat) (n : Nat) (slots live : List Nat) : Prop where
  tracks : Tracks slots live
  outside : ∀ c ∈ live, c ∉ base
  low : ∀ c ∈ slots, rank base c < n
  high : ∀ c ∈ live, c ∉ slots → n ≤ rank base c

theorem Packed.nil : Packed base n [] [] :=
  ⟨.nil, by simp, by simp, by simp⟩

theorem Packed.perm (h : Packed base n slots live) (hp : slots.Perm slots') :
    Packed base n slots' live :=
  ⟨h.tracks.perm hp, h.outside, fun c hc => h.low c (hp.mem_iff.mpr hc),
    fun c hc hnot => h.high c hc fun hmem => hnot (hp.mem_iff.mp hmem)⟩

theorem Packed.lt (h : Packed base n slots live) (hc : c ∈ slots) : c < n + base.card := by
  have hrank := h.low c hc
  have hle := le_rank_add base c
  omega

/-- Below the first number without a slot there are only slots. -/
theorem rank_le_length (h : ∀ d < c, d ∉ base → d ∈ slots) : rank base c ≤ slots.length := by
  refine le_trans (Finset.card_le_card fun d hd => ?_) (List.toFinset_card_le slots)
  obtain ⟨hlt, hbase⟩ := Finset.mem_filter.mp hd
  exact List.mem_toFinset.mpr (h d (Finset.mem_range.mp hlt) hbase)

/-- The least number without a slot would be too low to have found none. -/
theorem Packed.lowest_low (h : Packed base n slots live) (hc : IsLowest base live c)
    (hroom : slots.length < n) : rank base c < n := by
  have hall : ∀ d < c, d ∉ base → d ∈ slots := by
    intro d
    induction d using Nat.strong_induction_on with
    | h d ih =>
      intro hlt hbase
      by_contra hnot
      have hrank : rank base d ≤ slots.length :=
        rank_le_length fun e he hebase => ih e he (he.trans hlt) hebase
      have hhigh := h.high d ((hc.2 d hlt).resolve_left hbase) hnot
      omega
  exact (rank_le_length hall).trans_lt hroom

theorem Packed.lowest_high (h : Packed base n slots live) (hc : IsLowest base live c)
    (hfull : n ≤ slots.length) : n ≤ rank base c := by
  by_contra hlow
  have hnot : c ∉ slots := h.tracks.not_mem hc.1.2
  have hnodup : (c :: slots).Nodup := h.tracks.nodup.cons hnot
  have hmaps : ∀ d ∈ (c :: slots).toFinset, d ∉ base ∧ rank base d < n := by
    intro d hd
    rcases List.mem_cons.mp (List.mem_toFinset.mp hd) with rfl | hd
    · exact ⟨hc.1.1, by omega⟩
    · exact ⟨h.outside d (h.tracks.subperm.subset hd), h.low d hd⟩
  have hcard : (c :: slots).toFinset.card ≤ (Finset.range n).card := by
    apply Finset.card_le_card_of_injOn (rank base)
    · exact fun d hd => Finset.mem_coe.mpr (Finset.mem_range.mpr (hmaps d hd).2)
    · exact fun d hd e he => rank_inj (hmaps d hd).1 (hmaps e he).1
  rw [List.toFinset_card_of_nodup hnodup, Finset.card_range, List.length_cons] at hcard
  omega

theorem Packed.add (h : Packed base n slots live) (hc : IsLowest base live c)
    (hroom : slots.length < n) : Packed base n (c :: slots) (c :: live) := by
  refine ⟨h.tracks.add hc.1.2, List.forall_mem_cons.mpr ⟨hc.1.1, h.outside⟩,
    List.forall_mem_cons.mpr ⟨h.lowest_low hc hroom, h.low⟩, fun d hd hnot => ?_⟩
  rw [List.mem_cons, not_or] at hnot
  exact h.high d ((List.mem_cons.mp hd).resolve_left hnot.1) hnot.2

theorem Packed.miss (h : Packed base n slots live) (hc : IsLowest base live c)
    (hfull : n ≤ slots.length) : Packed base n slots (c :: live) := by
  refine ⟨h.tracks.miss hc.1.2, List.forall_mem_cons.mpr ⟨hc.1.1, h.outside⟩, h.low,
    fun d hd hnot => ?_⟩
  rcases List.mem_cons.mp hd with rfl | hd
  · exact h.lowest_high hc hfull
  · exact h.high d hd hnot

theorem Packed.remove (h : Packed base n (c :: slots) live) :
    Packed base n slots (live.erase c) := by
  refine ⟨h.tracks.remove, fun d hd => h.outside d (List.mem_of_mem_erase hd),
    fun d hd => h.low d (List.mem_cons_of_mem c hd), fun d hd hnot => ?_⟩
  obtain ⟨hne, hmem⟩ := h.tracks.live_nodup.mem_erase_iff.mp hd
  apply h.high d hmem
  rw [List.mem_cons, not_or]
  exact ⟨hne, hnot⟩

end LowestFree

end LinuxStudy

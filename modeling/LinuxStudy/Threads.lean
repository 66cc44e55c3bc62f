import Mathlib.Algebra.BigOperators.Group.Finset.Piecewise

/-! Totals over the threads of a system, and how they change when one thread
moves. -/

namespace LinuxStudy

section Threads

variable {ι τ M : Type*} [Fintype ι] [AddCommMonoid M]

def total (f : τ → M) (g : ι → τ) : M := ∑ i, f (g i)

/-- How many threads are where `p` says. -/
def count (p : τ → Bool) (g : ι → τ) : Nat := (Finset.univ.filter fun i => p (g i) = true).card

theorem total_zero (f : τ → M) {g : ι → τ} (h : ∀ i, f (g i) = 0) : total f g = 0 :=
  Finset.sum_eq_zero fun i _ => h i

theorem count_eq_total (p : τ → Bool) (g : ι → τ) : count p g = total (fun x => (p x).toNat) g := by
  rw [count, Finset.card_filter]
  refine Finset.sum_congr rfl fun i _ => ?_
  cases h : p (g i) <;> simp [h]

theorem count_pos_iff {p : τ → Bool} {g : ι → τ} : 0 < count p g ↔ ∃ i, p (g i) = true := by
  rw [count, Finset.card_pos]
  constructor
  · rintro ⟨i, hi⟩
    exact ⟨i, (Finset.mem_filter.mp hi).2⟩
  · rintro ⟨i, hi⟩
    exact ⟨i, Finset.mem_filter.mpr ⟨Finset.mem_univ i, hi⟩⟩

variable [DecidableEq ι]

theorem total_update (f : τ → M) (g : ι → τ) (i : ι) (x : τ) :
    total f (Function.update g i x) + f (g i) = total f g + f x := by
  have hi : i ∈ Finset.univ := Finset.mem_univ i
  have hrest : ∑ j ∈ Finset.univ.erase i, f (Function.update g i x j) =
      ∑ j ∈ Finset.univ.erase i, f (g j) := by
    refine Finset.sum_congr rfl fun j hj => ?_
    rw [Function.update_of_ne (Finset.ne_of_mem_erase hj)]
  calc total f (Function.update g i x) + f (g i)
      = f x + ∑ j ∈ Finset.univ.erase i, f (Function.update g i x j) + f (g i) := by
        rw [total, ← Finset.add_sum_erase _ _ hi, Function.update_self]
    _ = f (g i) + ∑ j ∈ Finset.univ.erase i, f (g j) + f x := by
        rw [hrest, add_assoc, add_comm _ (f (g i)), add_comm (f x)]
    _ = total f g + f x := by rw [total, ← Finset.add_sum_erase _ _ hi]

theorem count_update (p : τ → Bool) (g : ι → τ) (i : ι) (x : τ) :
    count p (Function.update g i x) + (p (g i)).toNat = count p g + (p x).toNat := by
  rw [count_eq_total, count_eq_total]
  exact total_update (fun x => (p x).toNat) g i x

end Threads

end LinuxStudy

import Mathlib.Logic.Function.Basic
import Mathlib.Data.Nat.Find

/-! Paths of a relation by their number of steps. A shortest path to what has a
property meets nothing twice. -/

namespace LinuxStudy

section Walk

variable {α : Type*}

inductive Walk (r : α → α → Prop) (a : α) : Nat → α → Prop
  | start : Walk r a 0 a
  | step {n : Nat} {b c : α} (h : Walk r a n b) (hr : r b c) : Walk r a (n + 1) c

/-- The first `n` steps of `path` are steps of `r` that start at `a`. -/
structure IsPath (r : α → α → Prop) (a : α) (n : Nat) (path : Nat → α) : Prop where
  zero : path 0 = a
  step : ∀ i < n, r (path i) (path (i + 1))

variable {r : α → α → Prop} {a b : α} {n i j : Nat} {path : Nat → α}

theorem Walk.exists_path (h : Walk r a n b) : ∃ path, IsPath r a n path ∧ path n = b := by
  induction h with
  | start => exact ⟨fun _ => a, ⟨rfl, nofun⟩, rfl⟩
  | @step n b c h hr ih =>
    obtain ⟨path, hp, hb⟩ := ih
    refine ⟨Function.update path (n + 1) c, ⟨?_, fun i hi => ?_⟩, Function.update_self ..⟩
    · rw [Function.update_of_ne (Nat.succ_ne_zero n).symm, hp.zero]
    · rw [Function.update_of_ne (Nat.ne_of_lt hi)]
      rcases Nat.lt_succ_iff_lt_or_eq.mp hi with hi | rfl
      · rw [Function.update_of_ne (by omega)]
        exact hp.step i hi
      · rw [Function.update_self, hb]
        exact hr

theorem IsPath.walk (h : IsPath r a n path) (hi : i ≤ n) : Walk r a i (path i) := by
  induction i with
  | zero =>
    rw [h.zero]
    exact .start
  | succ i ih => exact (ih (Nat.le_of_succ_le hi)).step (h.step i hi)

/-- Where a path comes back, what lies between can be left out. -/
theorem IsPath.shortcut (h : IsPath r a n path) (hij : i ≤ j) (he : path i = path j) {k : Nat}
    (hk : j + k ≤ n) : Walk r a (i + k) (path (j + k)) := by
  induction k with
  | zero =>
    rw [Nat.add_zero, Nat.add_zero, ← he]
    exact h.walk (Nat.le_trans hij hk)
  | succ k ih => exact (ih (Nat.le_of_succ_le hk)).step (h.step (j + k) hk)

structure IsShortest (r : α → α → Prop) (p : α → Prop) (a : α) (n : Nat) (path : Nat → α) : Prop
    extends IsPath r a n path where
  last : p (path n)
  inj : ∀ i j, i < j → j ≤ n → path i ≠ path j

theorem Walk.exists_shortest {p : α → Prop} (h : Walk r a n b) (hp : p b) :
    ∃ m ≤ n, ∃ path, IsShortest r p a m path := by
  classical
  have hex : ∃ n b, Walk r a n b ∧ p b := ⟨n, b, h, hp⟩
  obtain ⟨c, hc, hpc⟩ := Nat.find_spec hex
  obtain ⟨path, hpath, rfl⟩ := hc.exists_path
  have hmin : ∀ {i : Nat} {d : α}, Walk r a i d → p d → Nat.find hex ≤ i :=
    fun hw hd => Nat.find_le ⟨_, hw, hd⟩
  refine ⟨Nat.find hex, hmin h hp, path, hpath, hpc, fun i j hij hj he => ?_⟩
  have hcut := hpath.shortcut (Nat.le_of_lt hij) he (k := Nat.find hex - j) (by omega)
  rw [Nat.add_sub_cancel' hj] at hcut
  have hle := hmin hcut hpc
  omega

end Walk

end LinuxStudy

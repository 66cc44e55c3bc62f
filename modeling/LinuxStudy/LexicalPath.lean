import Mathlib.Data.List.Basic

/-! Lexical resolution of relative paths over any type of names, and when the
result stays under one directory. -/

namespace LinuxStudy

section Resolve

variable {ν : Type*} [DecidableEq ν] (up root : ν)

/-- One name: how often the path has left its starting point, and the names
entered since, the last one first. -/
def resolveStep : Nat × List ν → ν → Nat × List ν
  | (k, []), c => if c = up then (k + 1, []) else (k, [c])
  | (k, d :: ds), c => if c = up then (k, ds) else (k, c :: d :: ds)

def resolve (cs : List ν) : Nat × List ν := cs.foldl (resolveStep up) (0, [])

def Under (cs : List ν) : Prop :=
  (resolve up cs).1 = 0 ∧ (resolve up cs).2.getLast? = some root

instance (cs : List ν) : Decidable (Under up root cs) := by
  unfold Under
  infer_instance

/-- The walk with a depth counter instead of a stack. The flag says that the
directory entered last from the starting point is `root`; the walk fails when
it climbs above the starting point or ends there. -/
def walk : Nat → Bool → List ν → Bool
  | 0, _, [] => false
  | _ + 1, e, [] => e
  | 0, _, c :: cs => if c = up then false else walk 1 (decide (c = root)) cs
  | d + 1, e, c :: cs => if c = up then walk d e cs else walk (d + 2) e cs

variable {up root}

theorem resolveStep_fst_le (s : Nat × List ν) (c : ν) : s.1 ≤ (resolveStep up s c).1 := by
  obtain ⟨k, ds⟩ := s
  cases ds <;> by_cases hc : c = up <;> simp [resolveStep, hc]

theorem resolve_fst_le (up : ν) (s : Nat × List ν) (cs : List ν) :
    s.1 ≤ (cs.foldl (resolveStep up) s).1 := by
  induction cs generalizing s with
  | nil => exact Nat.le_refl _
  | cons c cs ih => exact Nat.le_trans (resolveStep_fst_le s c) (ih _)

theorem walk_iff (ds cs : List ν) :
    walk up root ds.length (decide (ds.getLast? = some root)) cs = true ↔
      (cs.foldl (resolveStep up) (0, ds)).1 = 0 ∧
        (cs.foldl (resolveStep up) (0, ds)).2.getLast? = some root := by
  induction cs generalizing ds with
  | nil => cases ds <;> simp [walk]
  | cons c cs ih =>
    cases ds with
    | nil =>
      by_cases hc : c = up
      · have hle := resolve_fst_le up (1, []) cs
        simp only [List.length_nil, walk, hc, if_true, List.foldl_cons, resolveStep, Nat.zero_add]
        simp only [Bool.false_eq_true, false_iff, not_and]
        omega
      · have hh := ih [c]
        simpa [walk, resolveStep, hc] using hh
    | cons d ds =>
      by_cases hc : c = up
      · cases ds with
        | nil =>
          have hh := ih ([] : List ν)
          have hflag : ∀ e, walk up root 0 e cs = walk up root 0 false cs := by
            intro e
            cases cs <;> rfl
          simp only [List.length_nil] at hh
          rw [hflag] at hh
          simpa [walk, resolveStep, hc, hflag] using hh
        | cons d' ds =>
          have hh := ih (d' :: ds)
          simpa [walk, resolveStep, hc] using hh
      · have hh := ih (c :: d :: ds)
        simpa [walk, resolveStep, hc] using hh

theorem under_iff_walk (cs : List ν) : Under up root cs ↔ walk up root 0 false cs = true :=
  (walk_iff [] cs).symm

theorem under_append_name {c : ν} (hup : c ≠ up) (hroot : c ≠ root) (cs : List ν) :
    Under up root (cs ++ [c]) ↔ Under up root cs := by
  have hstep : resolve up (cs ++ [c]) = resolveStep up (resolve up cs) c := by
    simp [resolve]
  rw [Under, Under, hstep]
  obtain ⟨k, ds⟩ := resolve up cs
  cases ds <;> simp [resolveStep, hup, hroot]

end Resolve

end LinuxStudy

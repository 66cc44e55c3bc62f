import Mathlib.Logic.Function.Basic

/-! What threads use one at a time. The thread that is at it knows what it is
like; when none is, it is free. -/

namespace LinuxStudy

section LoneThread

variable {ι β : Type*} {here here' : β → Prop} {free free' : Prop} {place : ι → Option β} {x y : β}
  {i : ι}

def Alone (place : ι → Option β) : Prop :=
  ∀ i j, (place i).isSome = true → (place j).isSome = true → i = j

structure Lone (here : β → Prop) (free : Prop) (place : ι → Option β) : Prop where
  inside : ∀ i x, place i = some x → here x
  rest : (∀ i, place i = none) → free

theorem Alone.eq_none (h : Alone place) (hi : place i = some x) {j : ι} (hj : j ≠ i) :
    place j = none := by
  cases hp : place j with
  | none => rfl
  | some y => exact absurd (h j i (by simp [hp]) (by simp [hi])) hj

variable [DecidableEq ι]

theorem Lone.move (halone : Alone place) (hi : place i = some x) (hy : here' y) :
    Lone here' free' (Function.update place i (some y)) := by
  constructor
  · intro j z hz
    by_cases hj : j = i
    · subst j
      obtain rfl : y = z := by simpa using hz
      exact hy
    · rw [Function.update_of_ne hj, halone.eq_none hi hj] at hz
      cases hz
  · intro hnone
    have := hnone i
    simp at this

theorem Lone.leave (halone : Alone place) (hi : place i = some x) (hfree : free') :
    Lone here' free' (Function.update place i none) := by
  constructor
  · intro j z hz
    by_cases hj : j = i
    · simp [hj] at hz
    · rw [Function.update_of_ne hj, halone.eq_none hi hj] at hz
      cases hz
  · exact fun _ => hfree

theorem Lone.enter (h : Lone here free place)
    (halone : Alone (Function.update place i (some y))) (hi : place i = none)
    (hy : free → here y) : Lone here free (Function.update place i (some y)) := by
  have hself : Function.update place i (some y) i = some y := Function.update_self ..
  have hnone : ∀ j, place j = none := by
    intro j
    by_cases hj : j = i
    · rwa [hj]
    · simpa [hj] using halone.eq_none hself hj
  have hmoved : Lone here free (Function.update (Function.update place i (some y)) i (some y)) :=
    Lone.move halone hself (hy (h.rest hnone))
  simpa using hmoved

end LoneThread

end LinuxStudy

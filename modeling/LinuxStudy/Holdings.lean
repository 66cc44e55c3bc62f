import Mathlib.Logic.Function.Basic

/-! Entries of a partial map that its users rely on. Entries with different
values have different keys, so freeing or reusing one key leaves the others'. -/

namespace LinuxStudy

section Holdings

variable {κ ν : Type*}

def Holds (m : κ → Option ν) (l : List (κ × ν)) : Prop := ∀ x ∈ l, m x.1 = some x.2

namespace Holds

variable {m : κ → Option ν} {l l' : List (κ × ν)} {k : κ} {v : ν}

theorem nil (m : κ → Option ν) : Holds m [] := nofun

theorem cons (hk : m k = some v) (h : Holds m l) : Holds m ((k, v) :: l) := by
  intro x hx
  rcases List.mem_cons.mp hx with rfl | hx
  · exact hk
  · exact h x hx

theorem mono (h : Holds m l) (hl : l' ⊆ l) : Holds m l' := fun x hx => h x (hl hx)

variable [DecidableEq κ]

theorem update (h : Holds m l) (hk : ∀ x ∈ l, x.1 ≠ k) (w : Option ν) :
    Holds (Function.update m k w) l := by
  intro x hx
  rw [Function.update_of_ne (hk x hx)]
  exact h x hx

theorem alloc (h : Holds m l) (hk : m k = none) (w : Option ν) :
    Holds (Function.update m k w) l := by
  refine h.update (fun x hx he => ?_) w
  have hx' := h x hx
  rw [he, hk] at hx'
  exact nomatch hx'

/-- The key of a value that is not relied on can be freed or overwritten. -/
theorem free (h : Holds m l) (hk : m k = some v) (hv : ∀ x ∈ l, x.2 ≠ v) (w : Option ν) :
    Holds (Function.update m k w) l := by
  refine h.update (fun x hx he => ?_) w
  have hx' := h x hx
  rw [he, hk] at hx'
  exact hv x hx (Option.some.inj hx').symm

theorem alloc_cons (h : Holds m l) (hk : m k = none) (v : ν) :
    Holds (Function.update m k (some v)) ((k, v) :: l) :=
  .cons (Function.update_self ..) (h.alloc hk _)

end Holds

end Holdings

end LinuxStudy

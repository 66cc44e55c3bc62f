import Mathlib.Data.List.Induction
import Mathlib.Logic.Relation

/-! The orders in which a search can visit what it finds: it starts at one point
and goes on to any point that it knows from those visited before. -/

namespace LinuxStudy

section SearchOrder

variable {α : Type*}

/-- What is known to a search that starts at `a` and has visited `l`. -/
def Known (r : α → α → Prop) (a : α) (l : List α) (u : α) : Prop := u = a ∨ ∃ v ∈ l, r v u

inductive SearchOrder (r : α → α → Prop) (a : α) : List α → Prop
  | nil : SearchOrder r a []
  | visit {l : List α} {u : α} (h : SearchOrder r a l) (hu : Known r a l u) (hnew : u ∉ l) :
      SearchOrder r a (l ++ [u])

/-- There is nothing left to visit. -/
def Exhausted (r : α → α → Prop) (a : α) (l : List α) : Prop := ∀ u, Known r a l u → u ∈ l

variable {r : α → α → Prop} {a u v : α} {l m : List α}

theorem known_concat : Known r a (l ++ [v]) u ↔ Known r a l u ∨ r v u := by
  simp only [Known, List.mem_append, List.mem_singleton, or_and_right, exists_or, exists_eq_left,
    or_assoc]

theorem SearchOrder.reachable (h : SearchOrder r a l) (hu : u ∈ l) :
    Relation.ReflTransGen r a u := by
  induction h generalizing u with
  | nil => simp at hu
  | @visit l v _ hv _ ih =>
    rcases List.mem_append.mp hu with hu | hu
    · exact ih hu
    · obtain rfl := List.mem_singleton.mp hu
      rcases hv with rfl | ⟨w, hw, hr⟩
      · exact .refl
      · exact (ih hw).tail hr

theorem SearchOrder.of_append (h : SearchOrder r a (l ++ m)) : SearchOrder r a l := by
  induction m using List.reverseRecOn with
  | nil => simpa using h
  | append_singleton m u ih =>
    rw [← List.append_assoc] at h
    generalize he : l ++ m ++ [u] = k at h
    cases h with
    | nil => simp at he
    | visit h =>
      obtain ⟨rfl, -⟩ := List.append_inj' he rfl
      exact ih h

theorem SearchOrder.known_of_cons (h : SearchOrder r a (l ++ u :: m)) :
    Known r a l u ∧ u ∉ l := by
  have hprefix : SearchOrder r a (l ++ [u]) := by
    apply SearchOrder.of_append (m := m)
    simpa using h
  generalize he : l ++ [u] = k at hprefix
  cases hprefix with
  | nil => simp at he
  | visit _ hu hnew =>
    obtain ⟨rfl, hlast⟩ := List.append_inj' he rfl
    obtain rfl := List.singleton_inj.mp hlast
    exact ⟨hu, hnew⟩

/-- A search that has visited all it knows has visited what there is. -/
theorem Exhausted.mem (hl : Exhausted r a l) (h : Relation.ReflTransGen r a u) : u ∈ l := by
  induction h with
  | refl => exact hl a (.inl rfl)
  | tail _ hr ih => exact hl _ (.inr ⟨_, ih, hr⟩)

theorem SearchOrder.exhausted_iff (h : SearchOrder r a l) :
    Exhausted r a l ↔ ∀ u, u ∈ l ↔ Relation.ReflTransGen r a u := by
  constructor
  · exact fun hl u => ⟨h.reachable, hl.mem⟩
  · rintro hl u (rfl | ⟨v, hv, hr⟩)
    · exact (hl u).mpr .refl
    · exact (hl u).mpr (((hl v).mp hv).tail hr)

end SearchOrder

end LinuxStudy

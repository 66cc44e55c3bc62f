import Mathlib.Data.List.Nodup
import Mathlib.Logic.Function.Basic
import Mathlib.Logic.Relation

/-! Chains of cells in a heap, each of which holds the address of the next one. A
heap has at most one chain from an address, so a chain has no cycle and no cell
twice, and what can be reached from its start are its cells. -/

namespace LinuxStudy

section ChainedCells

variable {κ β : Type*} (next : β → Option κ) (heap : κ → Option β)

/-- The cells from an address on, up to the one that holds no address. -/
inductive ChainFrom : Option κ → List (κ × β) → Prop
  | nil : ChainFrom none []
  | cons {k : κ} {x : β} {cells : List (κ × β)} (hk : heap k = some x)
      (h : ChainFrom (next x) cells) : ChainFrom (some k) ((k, x) :: cells)

def PointsTo (k l : κ) : Prop := ∃ x, heap k = some x ∧ next x = some l

variable {next heap} {start : Option κ} {k l : κ} {x : β} {cells cells' : List (κ × β)}

theorem ChainFrom.unique (h : ChainFrom next heap start cells)
    (h' : ChainFrom next heap start cells') : cells = cells' := by
  induction h generalizing cells' with
  | nil =>
    cases h'
    rfl
  | cons hk _ ih =>
    cases h' with
    | cons hk' h' =>
      obtain rfl := Option.some.inj (hk.symm.trans hk')
      rw [ih h']

theorem ChainFrom.allocated (h : ChainFrom next heap start cells) (hmem : (k, x) ∈ cells) :
    heap k = some x := by
  induction h with
  | nil => cases hmem
  | cons hk _ ih =>
    rcases List.mem_cons.mp hmem with heq | hmem
    · cases heq
      exact hk
    · exact ih hmem

theorem ChainFrom.not_mem (h : ChainFrom next heap start cells) (hk : heap k = none) :
    k ∉ cells.map Prod.fst := by
  intro hmem
  obtain ⟨⟨_, x⟩, hcell, rfl⟩ := List.mem_map.mp hmem
  rw [h.allocated hcell] at hk
  cases hk

/-- From each of its cells a chain goes on with a part of itself. -/
theorem ChainFrom.suffix (h : ChainFrom next heap start cells) (hmem : k ∈ cells.map Prod.fst) :
    ∃ x rest, ChainFrom next heap (some k) ((k, x) :: rest) ∧ (k, x) :: rest <:+ cells := by
  induction h with
  | nil => cases hmem
  | @cons k' x' cells hk h ih =>
    rcases List.mem_cons.mp hmem with rfl | hmem
    · exact ⟨x', cells, .cons hk h, List.suffix_refl _⟩
    · obtain ⟨x, rest, hchain, hsuffix⟩ := ih hmem
      exact ⟨x, rest, hchain, hsuffix.trans (List.suffix_cons ..)⟩

theorem ChainFrom.nodup (h : ChainFrom next heap start cells) : (cells.map Prod.fst).Nodup := by
  induction h with
  | nil => exact .nil
  | @cons k x cells hk h ih =>
    refine List.nodup_cons.mpr ⟨fun hmem => ?_, ih⟩
    obtain ⟨y, rest, hchain, hsuffix⟩ := h.suffix hmem
    have hlen := hsuffix.length_le
    have hsame := hchain.unique (.cons hk h)
    rw [hsame, List.length_cons] at hlen
    omega

/-- A change elsewhere leaves a chain as it is. -/
theorem ChainFrom.frame {heap' : κ → Option β} (h : ChainFrom next heap start cells)
    (hsame : ∀ k ∈ cells.map Prod.fst, heap' k = heap k) : ChainFrom next heap' start cells := by
  induction h with
  | nil => exact .nil
  | cons hk _ ih =>
    rw [List.map_cons, List.forall_mem_cons] at hsame
    exact .cons (hsame.1.trans hk) (ih hsame.2)

theorem ChainFrom.update [DecidableEq κ] (h : ChainFrom next heap start cells) (y : Option β)
    (hk : k ∉ cells.map Prod.fst) : ChainFrom next (Function.update heap k y) start cells :=
  h.frame fun _ hmem => Function.update_of_ne (ne_of_mem_of_not_mem hmem hk) ..

theorem ChainFrom.reaches_iff (h : ChainFrom next heap (some k) cells) :
    Relation.ReflTransGen (PointsTo next heap) k l ↔ l ∈ cells.map Prod.fst := by
  constructor
  · intro hreach
    induction hreach with
    | refl =>
      cases h
      exact List.mem_cons_self
    | tail _ hstep ih =>
      obtain ⟨x, rest, hchain, hsuffix⟩ := h.suffix ih
      obtain ⟨y, hy, hnext⟩ := hstep
      cases hchain with
      | cons hk hrest =>
        obtain rfl := Option.some.inj (hk.symm.trans hy)
        rw [hnext] at hrest
        cases hrest
        exact (hsuffix.map Prod.fst).subset (List.mem_cons_of_mem _ List.mem_cons_self)
  · generalize hs : some k = s at h
    induction h generalizing k with
    | nil => cases hs
    | @cons k' x cells hk h ih =>
      obtain rfl := Option.some.inj hs
      intro hmem
      rcases List.mem_cons.mp hmem with rfl | hmem
      · exact .refl
      · cases hnext : next x with
        | none =>
          rw [hnext] at h
          cases h
          cases hmem
        | some k₁ => exact (ih hnext.symm hmem).head ⟨x, hk, hnext⟩

theorem ChainFrom.acyclic (h : ChainFrom next heap start cells) (hk : k ∈ cells.map Prod.fst) :
    ¬ Relation.TransGen (PointsTo next heap) k k := by
  intro hcycle
  obtain ⟨x, rest, hchain, -⟩ := h.suffix hk
  obtain ⟨l, ⟨y, hy, hnext⟩, hback⟩ := Relation.TransGen.head'_iff.mp hcycle
  cases hchain with
  | cons hk hrest =>
    obtain rfl := Option.some.inj (hk.symm.trans hy)
    have hnodup := (ChainFrom.cons hk hrest).nodup
    rw [hnext] at hrest
    exact (List.nodup_cons.mp hnodup).1 (hrest.reaches_iff.mp hback)

end ChainedCells

end LinuxStudy

import LinuxStudy.SentinelList

/-! `DestroyList` on the list in the heap. Its loop stores through the NULL it
hands to `Pop_head`, and would read the node that was freed if it did not. -/

namespace LinuxStudy

namespace Heap

/-- The loop of `DestroyList`, for at most so many rounds. `data` is the pointer
that it hands to `Pop_head`. -/
def destroyLoop (head data : Option Addr) : Nat → Heap → Option Addr → Option (Except Fault Heap)
  | _, m, none => some (.ok m)
  | 0, _, some _ => none
  | fuel + 1, m, some cur =>
    match m.popHead head data with
    | .error e => some (.error e)
    | .ok m =>
      match m.load (some cur) with
      | .error e => some (.error e)
      | .ok node => destroyLoop head data fuel m node.next

def destroyList (m : Heap) (head : Option Addr) (fuel : Nat) : Option (Except Fault Heap) :=
  match assert head with
  | .error e => some (.error e)
  | .ok _ =>
    match m.load head with
    | .error e => some (.error e)
    | .ok node => destroyLoop head none fuel m node.next

/-- All nodes behind the sentinel have been freed, each once, and none is left. -/
structure Destroyed (m : Heap) (head : Addr) (m' : Heap) : Prop where
  frees : ∃ s cells freed, m.Chain head s cells ∧ m'.freed = m.freed ++ freed ∧
    freed.Perm (cells.map Prod.fst)
  empties : ∃ s, m'.node head = some s ∧ s.next = none

section Destroy

variable {m : Heap} {head : Addr} {s : ListNode} {cells : List (Addr × ListNode)}
  {stack : List Int}

theorem Chain.destroyList_eq (h : m.Chain head s cells) (fuel : Nat) :
    m.destroyList (some head) fuel = destroyLoop (some head) none fuel m s.next := by
  rw [destroyList, load_some h.sentinel]
  rfl

theorem Chain.destroyLoop_null {c : Addr × ListNode} (h : m.Chain head s (c :: cells))
    (fuel : Nat) :
    destroyLoop (some head) none (fuel + 1) m s.next = some (.error .null) := by
  rw [h.first.1, destroyLoop, h.popHead_store]
  rfl

theorem Chain.destroyLoop_dangling {c : Addr × ListNode} (h : m.Chain head s (c :: cells))
    {p : Addr} {d : Int} (hp : m.out p = some d) (fuel : Nat) :
    destroyLoop (some head) (some p) (fuel + 1) m s.next = some (.error .dangling) := by
  have hload : ∀ freed, load { m.popped head p s c.2 with
      node := Function.update (m.popped head p s c.2).node c.1 none, freed := freed } (some c.1) =
        .error .dangling := fun _ => load_dangling (Function.update_self ..)
  rw [h.first.1, destroyLoop, h.popHead_eq hp, h.delNode_eq]
  simp only [hload]

/-- `DestroyList` ends without a fault, with everything freed, exactly for an
empty list. -/
theorem destroy_list_iff (h : Runs head stack m) :
    (∃ fuel m', m.destroyList (some head) fuel = some (.ok m') ∧ m.Destroyed head m') ↔
      stack = [] := by
  obtain ⟨s, cells, hchain, rfl⟩ := h.chain
  rw [List.map_eq_nil_iff]
  constructor
  · rintro ⟨fuel, m', hend, -⟩
    rw [hchain.destroyList_eq] at hend
    cases cells with
    | nil => rfl
    | cons c cells =>
      cases fuel with
      | zero =>
        rw [hchain.first.1] at hend
        cases hend
      | succ fuel =>
        rw [hchain.destroyLoop_null] at hend
        cases hend
  · rintro rfl
    have hnext := hchain.nil_iff.mp rfl
    have hfreed : ∃ s cells freed, m.Chain head s cells ∧ m.freed = m.freed ++ freed ∧
        freed.Perm (cells.map Prod.fst) := ⟨s, [], [], hchain, (List.append_nil _).symm, .nil⟩
    refine ⟨0, m, ?_, hfreed, s, hchain.sentinel, hnext⟩
    rw [hchain.destroyList_eq, hnext]
    rfl

theorem destroy_list_empty : ∃ m m' : Heap, Runs 1 [] m ∧ m.freed = [2] ∧ m.Destroyed 1 m' := by
  have hinit : Runs 1 [] _ := .init ⟨fun _ => none, fun _ => some 0, []⟩ rfl
  have hrun := (hinit.push 7 2 rfl rfl).pop 0 0 rfl rfl
  obtain ⟨fuel, m', -, hend⟩ := (destroy_list_iff hrun).mpr rfl
  exact ⟨_, m', hrun, rfl, hend⟩

theorem destroy_list_faults : ¬ ∀ (head : Addr) (stack : List Int) (m : Heap), Runs head stack m →
    ∃ fuel m', m.destroyList (some head) fuel = some (.ok m') ∧ m.Destroyed head m' := by
  intro h
  have hinit : Runs 1 [] _ := .init ⟨fun _ => none, fun _ => some 0, []⟩ rfl
  obtain ⟨fuel, m', hend, -⟩ := h 1 [7] _ (hinit.push 7 2 rfl rfl)
  cases fuel with
  | zero => cases hend
  | succ fuel => cases hend

end Destroy

end Heap

end LinuxStudy

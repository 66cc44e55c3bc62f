import Mathlib.Logic.Function.Basic

/-! Edge-triggered readiness. A descriptor armed for input is reported once for
what has arrived since its last report, and again when it is armed while it is
ready. The end of the peer is reported whatever the descriptor is armed for. -/

namespace LinuxStudy

inductive Interest
  | input | output
  deriving DecidableEq

/-- What the kernel keeps for a descriptor: what it is armed for, whether a
report is due, how much input is queued and whether its end has come. -/
structure Watched where
  armed : Option Interest
  due : Bool
  queued : Nat
  ended : Bool

namespace Watched

def unwatched : Watched := ⟨none, false, 0, false⟩

/-- `EPOLL_CTL_ADD` for input, after `n` units have already arrived. -/
def add (n : Nat) (ended : Bool) : Watched := ⟨some .input, 0 < n || ended, n, ended⟩

/-- `EPOLL_CTL_MOD` to output, on a descriptor that may have room. -/
def modOutput (w : Watched) (room : Bool) : Watched := { w with armed := some .output, due := room }

def arrive (w : Watched) (n : Nat) : Watched :=
  { w with queued := w.queued + n, due := w.due || w.armed = some .input }

def hangUp (w : Watched) : Watched :=
  { w with ended := true, due := w.due || w.armed.isSome }

def drained (w : Watched) : Watched := { w with due := w.due || w.armed = some .output }

def take (w : Watched) (n : Nat) : Watched := { w with queued := w.queued - n }

def reported (w : Watched) : Watched := { w with due := false }

def disarm (w : Watched) : Watched := { w with armed := none, due := false }

/-- Nothing is queued that no report is still to tell of. -/
def Noticed (w : Watched) : Prop := w.armed = some .input → 0 < w.queued → w.due = true

instance (w : Watched) : Decidable w.Noticed := inferInstanceAs (Decidable (_ → _))

variable {w : Watched}

theorem noticed_of_not_input (h : w.armed ≠ some .input) : w.Noticed := fun ha => absurd ha h

theorem noticed_of_empty (h : w.queued = 0) : w.Noticed := fun _ hq => absurd h (Nat.ne_of_gt hq)

theorem noticed_of_due_or_empty (h : w.due = true ∨ w.queued = 0) : w.Noticed :=
  fun _ hq => h.resolve_right (Nat.ne_of_gt hq)

theorem noticed_add (n : Nat) (ended : Bool) : (add n ended).Noticed := by
  intro _ hn
  change (decide (0 < n) || ended) = true
  rw [decide_eq_true (show 0 < n from hn), Bool.true_or]

theorem noticed_arrive (w : Watched) (n : Nat) : (w.arrive n).Noticed := by
  intro (ha : w.armed = some .input) _
  change (w.due || decide (w.armed = some .input)) = true
  rw [decide_eq_true ha, Bool.or_true]

theorem noticed_hangUp (w : Watched) : w.hangUp.Noticed := by
  intro (ha : w.armed = some .input) _
  change (w.due || w.armed.isSome) = true
  rw [ha, Option.isSome_some, Bool.or_true]

theorem Noticed.drained (h : w.Noticed) : w.drained.Noticed := by
  intro ha hq
  change (w.due || decide (w.armed = some .output)) = true
  rw [h ha hq, Bool.true_or]

theorem noticed_modOutput (w : Watched) (room : Bool) : (w.modOutput room).Noticed :=
  noticed_of_not_input (by simp [modOutput])

theorem noticed_disarm (w : Watched) : w.disarm.Noticed := noticed_of_not_input (by simp [disarm])

/-- After a handling step the rest of the queue needs a further report. -/
theorem noticed_take {n : Nat} (h : w.due = true ∨ w.queued ≤ n) : (w.take n).Noticed := by
  intro _ hq
  change 0 < w.queued - n at hq
  exact h.resolve_right (by omega)

end Watched

end LinuxStudy

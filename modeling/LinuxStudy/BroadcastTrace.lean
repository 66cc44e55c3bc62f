import Mathlib.Data.List.Infix

/-! What a broadcaster owes: a line goes to everyone else who is there, once,
the next time they can be written to. -/

namespace LinuxStudy

inductive Event (ι μ : Type*)
  | joined (c : ι)
  | refused (c : ι) (m : μ)
  | left (c : ι)
  | line (a : ι) (m : μ)
  | writable (c : ι) (written : List μ)
  deriving DecidableEq

section BroadcastTrace

variable {ι μ : Type*} [DecidableEq ι]

/-- What `c` is owed after an event; nothing is owed to who is not there. -/
def Event.owes (c : ι) (owed : Option (List μ)) : Event ι μ → Option (List μ)
  | joined d => if d = c then some [] else owed
  | refused _ _ => owed
  | left d => if d = c then none else owed
  | line a m => if a = c then owed else owed.map (· ++ [m])
  | writable d _ => if d = c then owed.map fun _ => [] else owed

def owed (c : ι) (trace : List (Event ι μ)) : Option (List μ) := trace.foldl (Event.owes c) none

/-- Whenever a client can be written to, it is written what it is owed and
nothing else. -/
def Delivered (trace : List (Event ι μ)) : Prop :=
  ∀ before c written, before ++ [.writable c written] <+: trace → owed c before = some written

def Event.received (c : ι) : Event ι μ → List μ
  | joined _ | refused _ _ | left _ | line _ _ => []
  | writable d written => if d = c then written else []

/-- What `c` has been written, in order. -/
def received (c : ι) (trace : List (Event ι μ)) : List μ := trace.flatMap (Event.received c)

theorem received_concat (c : ι) (trace : List (Event ι μ)) (e : Event ι μ) :
    received c (trace ++ [e]) = received c trace ++ e.received c := by
  rw [received, List.flatMap_append, List.flatMap_singleton]
  rfl

theorem owed_concat (c : ι) (trace : List (Event ι μ)) (e : Event ι μ) :
    owed c (trace ++ [e]) = e.owes c (owed c trace) := List.foldl_concat ..

theorem delivered_nil : Delivered ([] : List (Event ι μ)) := by
  intro before c written h
  simp at h

theorem delivered_concat {trace : List (Event ι μ)} {e : Event ι μ} (h : Delivered trace)
    (he : ∀ c written, e = .writable c written → owed c trace = some written) :
    Delivered (trace ++ [e]) := by
  intro before c written hpre
  rcases List.prefix_concat_iff.mp hpre with heq | hpre
  · obtain ⟨rfl, hlast⟩ := List.append_inj' heq rfl
    exact he c written (List.singleton_inj.mp hlast).symm
  · exact h before c written hpre

end BroadcastTrace

end LinuxStudy

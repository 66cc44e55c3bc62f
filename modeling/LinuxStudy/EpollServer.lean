import LinuxStudy.CText
import LinuxStudy.EdgeTriggered
import LinuxStudy.TransitionSystem

/-! The loop of the epoll server, with the kernel's side of it. `live` are the
sockets that `accept` returned and that are not closed; the input queued at the
listening socket are connections, at a client bytes. -/

namespace LinuxStudy

def readSize : Nat := 10240

structure EpollServer where
  listensock : Sock
  /-- `fd`, the epoll instance, is open. -/
  polling : Bool
  watched : Sock → Watched
  live : List Sock
  /-- The response has been written since the client was armed for output. -/
  answered : Sock → Bool
  evs : List (Sock × Interest)

namespace EpollServer

/-- How the calls of one turn of the loop over `evs` come out; `accept` comes
with what had arrived on the new socket before it was added. -/
structure Outcomes where
  accept : Option (Sock × Nat × Bool)
  add : Bool
  read : Option Nat
  mod : Bool
  room : Bool
  write : Bool

inductive Act
  | arrive (c : Sock) (n : Nat)
  | hangUp (c : Sock)
  | drained (c : Sock)
  | wait (evs : List (Sock × Interest))
  | waitFails
  | handle (o : Outcomes)

/-- The listening socket is added, with `n` connections already queued. -/
def start (listensock : Sock) (n : Nat) : EpollServer where
  listensock := listensock
  polling := true
  watched := Function.update (fun _ => .unwatched) listensock (.add n false)
  live := []
  answered := fun _ => false
  evs := []

def setWatched (s : EpollServer) (c : Sock) (w : Watched) : EpollServer :=
  { s with watched := Function.update s.watched c w }

def acceptClient (s : EpollServer) (add : Bool) : Option (Sock × Nat × Bool) → EpollServer
  | none => s
  | some (sock, n, ended) =>
    let t := s.setWatched s.listensock ((s.watched s.listensock).take 1)
    if add = true then
      { t.setWatched sock (.add n ended) with
        live := sock :: t.live
        answered := Function.update t.answered sock false }
    else t

def readClient (s : EpollServer) (jfd : Sock) (mod room : Bool) : Option Nat → EpollServer
  | none => s
  | some 0 => { s.setWatched jfd .unwatched with live := s.live.erase jfd }
  | some (size + 1) =>
    let w := (s.watched jfd).take (size + 1)
    if mod = true then
      { s.setWatched jfd (w.modOutput room) with
        answered := Function.update s.answered jfd false }
    else s.setWatched jfd w

def writeClient (s : EpollServer) (jfd : Sock) (write : Bool) : EpollServer :=
  if write = true then { s with answered := Function.update s.answered jfd true } else s

def dispatch (s : EpollServer) (jfd : Sock) (o : Outcomes) : Interest → EpollServer
  | .input =>
    if jfd = s.listensock then s.acceptClient o.add o.accept
    else s.readClient jfd o.mod o.room o.read
  | .output => if jfd ≠ s.listensock then s.writeClient jfd o.write else s

def next (s : EpollServer) : Act → EpollServer
  | .arrive c n => s.setWatched c ((s.watched c).arrive n)
  | .hangUp c => s.setWatched c (s.watched c).hangUp
  | .drained c => s.setWatched c (s.watched c).drained
  | .wait evs =>
    { s with
      watched := fun c => if c ∈ evs.map Prod.fst then (s.watched c).reported else s.watched c
      evs := evs }
  | .waitFails => { s with polling := false, watched := fun c => (s.watched c).disarm }
  | .handle o =>
    match s.evs with
    | [] => s
    | (jfd, i) :: evs => ({ s with evs := evs } : EpollServer).dispatch jfd o i

/-- The outcomes that the calls for a report can have: `accept` takes a queued
connection and returns a descriptor that is not open, `read` takes what is there
and returns 0 at the end. -/
def Possible (s : EpollServer) (jfd : Sock) (o : Outcomes) : Interest → Prop
  | .input =>
    if jfd = s.listensock then
      ∀ sock ∈ o.accept.map Prod.fst, 0 < (s.watched jfd).queued ∧ sock ≠ s.listensock ∧
        sock ∉ s.live
    else
      ∀ size ∈ o.read, size ≤ readSize ∧ size ≤ (s.watched jfd).queued ∧
        (size = 0 → (s.watched jfd).queued = 0 ∧ (s.watched jfd).ended = true)
  | .output => True

instance (s : EpollServer) (jfd : Sock) (o : Outcomes) (i : Interest) :
    Decidable (s.Possible jfd o i) := by
  cases i
  · unfold Possible
    infer_instance
  · exact .isTrue trivial

/-- What can happen next: input arrives on an open descriptor, and the loop goes
on. `epoll_wait` returns up to 32 reports that are due. -/
def Enabled (s : EpollServer) : Act → Prop
  | .arrive c n => (c = s.listensock ∨ c ∈ s.live) ∧ 0 < n
  | .hangUp c => c ∈ s.live
  | .drained c => c ∈ s.live
  | .wait evs => s.polling = true ∧ s.evs = [] ∧ evs ≠ [] ∧ evs.length ≤ 32 ∧
      (evs.map Prod.fst).Nodup ∧
      ∀ e ∈ evs, (s.watched e.1).due = true ∧ (s.watched e.1).armed = some e.2
  | .waitFails => s.evs = []
  | .handle o =>
    match s.evs with
    | [] => False
    | (jfd, i) :: _ => s.Possible jfd o i

instance (s : EpollServer) : (a : Act) → Decidable (s.Enabled a)
  | .arrive _ _ => inferInstanceAs (Decidable (_ ∧ _))
  | .hangUp c => inferInstanceAs (Decidable (c ∈ s.live))
  | .drained c => inferInstanceAs (Decidable (c ∈ s.live))
  | .wait _ => inferInstanceAs (Decidable (_ ∧ _))
  | .waitFails => inferInstanceAs (Decidable (s.evs = []))
  | .handle o =>
    match h : s.evs with
    | [] => .isFalse (by rw [Enabled, h]; exact id)
    | (jfd, i) :: _ => decidable_of_iff (s.Possible jfd o i) (by rw [Enabled, h])

/-- The loop of `main` and its clients, for what is `ok`. -/
inductive Step (ok : EpollServer → Act → Prop) : EpollServer → EpollServer → Prop
  | act {s : EpollServer} (a : Act) (h : s.Enabled a) (hok : ok s a) : Step ok s (s.next a)

inductive Handled (s : EpollServer) (jfd : Sock) (o : Outcomes) : Interest → EpollServer → Prop
  | notAccepted (hl : jfd = s.listensock) (ha : o.accept = none) : Handled s jfd o .input s
  | refused {sock : Sock} {n : Nat} {ended : Bool} (hl : jfd = s.listensock)
      (ha : o.accept = some (sock, n, ended)) :
      Handled s jfd o .input (s.setWatched jfd ((s.watched jfd).take 1))
  | accepted {sock : Sock} {n : Nat} {ended : Bool} (hl : jfd = s.listensock)
      (ha : o.accept = some (sock, n, ended)) :
      Handled s jfd o .input
        { (s.setWatched jfd ((s.watched jfd).take 1)).setWatched sock (.add n ended) with
          live := sock :: s.live
          answered := Function.update s.answered sock false }
  | notRead (hl : jfd ≠ s.listensock) (hr : o.read = none) : Handled s jfd o .input s
  | closed (hl : jfd ≠ s.listensock) (hr : o.read = some 0) :
      Handled s jfd o .input { s.setWatched jfd .unwatched with live := s.live.erase jfd }
  | armed {size : Nat} (hl : jfd ≠ s.listensock) (hr : o.read = some (size + 1))
      (hm : o.mod = true) :
      Handled s jfd o .input
        { s.setWatched jfd (((s.watched jfd).take (size + 1)).modOutput o.room) with
          answered := Function.update s.answered jfd false }
  | notArmed {size : Nat} (hl : jfd ≠ s.listensock) (hr : o.read = some (size + 1))
      (hm : o.mod = false) :
      Handled s jfd o .input (s.setWatched jfd ((s.watched jfd).take (size + 1)))
  | written (hl : jfd ≠ s.listensock) (hw : o.write = true) :
      Handled s jfd o .output { s with answered := Function.update s.answered jfd true }
  | notWritten (hw : jfd = s.listensock ∨ o.write = false) : Handled s jfd o .output s

theorem handled (s : EpollServer) (jfd : Sock) (o : Outcomes) (i : Interest) :
    Handled s jfd o i (s.dispatch jfd o i) := by
  cases i with
  | input =>
    by_cases hl : jfd = s.listensock
    · rw [dispatch, if_pos hl]
      rcases ha : o.accept with - | ⟨sock, n, ended⟩
      · exact .notAccepted hl ha
      · rw [acceptClient, ← hl]
        split
        · exact .accepted hl ha
        · exact .refused hl ha
    · rw [dispatch, if_neg hl]
      rcases hr : o.read with - | - | size
      · exact .notRead hl hr
      · exact .closed hl hr
      · rw [readClient]
        split
        · rename_i hm
          exact .armed hl hr hm
        · rename_i hm
          exact .notArmed hl hr (Bool.eq_false_iff.mpr hm)
  | output =>
    rw [dispatch]
    split
    · rename_i hl
      rw [writeClient]
      split
      · rename_i hw
        exact .written hl hw
      · rename_i hw
        exact .notWritten (.inr (Bool.eq_false_iff.mpr hw))
    · rename_i hl
      exact .notWritten (.inl (not_not.mp hl))

theorem Handled.evs {s t : EpollServer} {jfd : Sock} {o : Outcomes} {i : Interest}
    (h : Handled s jfd o i t) : t.evs = s.evs := by
  cases h <;> rfl

end EpollServer

end LinuxStudy

import LinuxStudy.PollBroadcast

/-! The second version of the poll server. It differs from the first in what it
does after a write: the buffer that was written from keeps its text, and the
reported events of the entry are changed too. So a line is still there for the
clients that are written to later. -/

namespace LinuxStudy

namespace PollServer

def writeClient2 (s : PollServer) (p : PollFd) (write : Option Nat) : PollServer :=
  match (s.user p.fd).datatowrite, write with
  | some b, some n =>
    { s with
      user := s.user.setPointer p.fd none
      pfd := s.pfd.set s.j { p with
        events := (p.events ||| pollin) ||| ~~~pollout
        revents := p.revents ||| ~~~pollout }
      j := s.j + 1
      trace := s.trace ++ [.writable p.fd [(cstr (s.user b).buf).take n]] }
  | _, _ => { s with j := s.j + 1, trace := s.trace ++ [.writable p.fd []] }

def turn2 (s : PollServer) (p : PollFd) (a : Answers) : PollServer :=
  match s.branch p with
  | .accept => s.acceptClient a.accept
  | .error => s.skip
  | .hangup => s.leave p
  | .input => s.readClient p a.read
  | .output => s.writeClient2 p a.write
  | .idle => s.skip

inductive Step2 (ok : PollServer → PollFd → Answers → Prop) : PollServer → PollServer → Prop
  | poll {s : PollServer} (revents : List Mask) (h : s.Polled revents) : Step2 ok s (s.poll revents)
  | turn {s : PollServer} (p : PollFd) (a : Answers) (hp : s.pfd[s.j]? = some p)
      (h : s.Answered p a) (hok : ok s p a) : Step2 ok s (s.turn2 p a)

/-- A line comes only when the one before it is delivered, and nobody leaves
whose text another waits for. -/
def Settled (s : PollServer) (p : PollFd) (a : Answers) : Prop :=
  (s.branch p = .hangup → s.j + 1 = s.pfd.length ∨ p.fd ∉ s.waited p.fd) ∧
    (s.branch p = .input → p.fd ∉ s.waited p.fd ∧ (a.read ≠ some [] → s.waited p.fd = []))

instance (s : PollServer) (p : PollFd) (a : Answers) : Decidable (s.Settled p a) :=
  inferInstanceAs (Decidable (_ ∧ _))

section Turn

variable {s : PollServer} {r : Mask} {ps : List PollFd} {p : PollFd} {a : Answers}

theorem turn2_of_ne (h : s.branch p ≠ .output) : s.turn2 p a = s.turn p a := by
  unfold turn2 turn
  cases hb : s.branch p with
  | output => exact absurd hb h
  | _ => rfl

theorem Inv.write2 (h : Inv s r ps) {i : Nat} (hj : s.j = i + 1) (hp : ps[i]? = some p)
    {write : Option Nat} (hall : ∀ b ∈ (s.user p.fd).datatowrite,
      write = some (cstr (s.user b).buf).length) : ∃ r' ps', Inv (s.writeClient2 p write) r' ps' := by
  have hmem : p.fd ∈ ps.map PollFd.fd := List.mem_map_of_mem (List.mem_of_getElem? hp)
  cases hptr : (s.user p.fd).datatowrite with
  | none =>
    have hsynced := h.synced.writable hmem hptr (fun _ _ _ => rfl) fun _ _ _ _ _ => rfl
    rw [Users.pending_none hptr] at hsynced
    refine ⟨r, ps, ?_⟩
    simp only [writeClient2, hptr]
    exact ⟨h.pfd, h.hangup, h.output, h.listens, hsynced⟩
  | some b =>
    have hsynced : Synced (s.user.setPointer p.fd none) (ps.map PollFd.fd)
        (s.trace ++ [.writable p.fd (s.user.pending p.fd)]) :=
      h.synced.writable hmem (by simp) (fun d _ hdp => by simp [hdp]) fun d _ _ b' _ => by simp
    rw [Users.pending_some hptr] at hsynced
    have hfds := map_set_of_eq PollFd.fd hp (q := { p with
      events := (p.events ||| pollin) ||| ~~~pollout, revents := p.revents ||| ~~~pollout }) rfl
    refine ⟨r, ps.set i { p with
      events := (p.events ||| pollin) ||| ~~~pollout, revents := p.revents ||| ~~~pollout }, ?_⟩
    simp only [writeClient2, hptr, hall b hptr, List.take_length]
    refine ⟨?_, h.hangup, h.output, ?_, ?_⟩
    · simp only [h.pfd, hj, List.set_cons_succ]
    · rw [hfds]
      exact h.listens
    · rw [hfds]
      exact hsynced

theorem Inv.client (h : Inv s r ps) (hp : s.pfd[s.j]? = some p) (hb : s.branch p = .output) :
    ∃ i, s.j = i + 1 ∧ ps[i]? = some p := by
  rw [h.pfd] at hp
  cases hj : s.j with
  | zero =>
    rw [hj, List.getElem?_cons_zero] at hp
    have hother := @PollServer.branch_listensock s (pollin ||| pollerr) r h.hangup h.output
    rw [Option.some.inj hp, hb] at hother
    rcases hother with he | he | he <;> cases he
  | succ i =>
    rw [hj, List.getElem?_cons_succ] at hp
    exact ⟨i, rfl, hp⟩

theorem Inv.turn2 (h : Inv s r ps) (hp : s.pfd[s.j]? = some p) (ha : s.Answered p a)
    (hs : s.Settled p a) : ∃ r' ps', Inv (s.turn2 p a) r' ps' := by
  by_cases hb : s.branch p = .output
  · obtain ⟨i, hj, hpi⟩ := h.client hp hb
    rw [PollServer.turn2, hb]
    exact h.write2 hj hpi ha.2.2
  · rw [turn2_of_ne hb]
    exact h.turn hp ha ⟨hs.1, hs.2, fun hout => absurd hout hb⟩

theorem Inv.step2 {t : PollServer} (h : Inv s r ps) (hst : Step2 Settled s t) :
    ∃ r' ps', Inv t r' ps' := by
  cases hst with
  | poll revents hp => exact h.poll hp
  | turn p a hp ha hs => exact h.turn2 hp ha hs

end Turn

/-- In the second version a line that is left alone until everyone has got it
reaches everyone else who stays, and nothing else is written, as long as every
read is a line and every write takes everything. -/
theorem broadcast_delivered_all {listensock : Sock} {user : Users} {s : PollServer}
    (h : Reachable (Step2 Settled) (start listensock user) s) : Delivered s.trace := by
  have hinv : ∃ r ps, Inv s r ps := Reachable.invariant (fun s => ∃ r ps, Inv s r ps) h
    ⟨0, [], inv_start listensock user⟩ fun _ _ ⟨_, _, hinv⟩ hst => hinv.step2 hst
  obtain ⟨_, _, hinv⟩ := hinv
  exact hinv.synced.delivered

section Run

variable (ok : PollServer → PollFd → Answers → Prop) [∀ s p a, Decidable (ok s p a)]

def run2 : List Input → PollServer → Option PollServer
  | [], s => some s
  | .poll revents :: is, s => if s.Polled revents then run2 is (s.poll revents) else none
  | .turn a :: is, s =>
    match s.pfd[s.j]? with
    | some p => if s.Answered p a ∧ ok s p a then run2 is (s.turn2 p a) else none
    | none => none

variable {ok}

theorem reach_run2 {is : List Input} {s t : PollServer} (h : run2 ok is s = some t) :
    Reachable (Step2 ok) s t := by
  induction is generalizing s with
  | nil => exact Option.some.inj h ▸ .refl
  | cons i is ih =>
    cases i with
    | poll revents =>
      rw [run2] at h
      split at h
      · rename_i hp
        exact (ih h).head (.poll revents hp)
      · cases h
    | turn a =>
      rw [run2] at h
      split at h
      · rename_i p hp
        split at h
        · rename_i ha
          exact (ih h).head (.turn p a hp ha.1 ha.2)
        · cases h
      · cases h

end Run

/-- Three clients: the line is still there for the last one, as it is not in the
first version. -/
theorem broadcast_delivered_all_three : ∃ s : PollServer, s.trace =
    [.joined 4, .joined 5, .joined 6, .line 4 (bytes "hi"), .writable 5 [bytes "hi"]] ++
      [.writable 6 [bytes "hi"]] ∧ Delivered s.trace := by
  have htrace : (run2 Settled (twoConnect ++ [.poll [pollin, 0, 0], accepts 6, takes 0, takes 0,
      takes 0, .poll [0, pollin, 0, 0], takes 0, reads "hi\n", takes 2, takes 2,
      .poll [0, 0, pollout, pollout], takes 0, takes 0, takes 2, takes 2]) emptyServer).map trace =
      some ([.joined 4, .joined 5, .joined 6, .line 4 (bytes "hi"), .writable 5 [bytes "hi"]] ++
        [.writable 6 [bytes "hi"]]) := by
    decide +kernel
  obtain ⟨s, hrun, hs⟩ := Option.map_eq_some_iff.mp htrace
  exact ⟨s, hs, broadcast_delivered_all (reach_run2 hrun)⟩

end PollServer

end LinuxStudy

import LinuxStudy.OpenConnections
import LinuxStudy.PollBroadcast

/-! What a removal leaves of the other clients of the poll server. A client's
place in `user` is its descriptor, and the last client keeps its own: the node
that is copied over the one of the leaver only takes its text away. -/

namespace LinuxStudy

/-- The server with the third field of its nodes, the address of the client. -/
structure AddressedServer (α : Type*) where
  server : PollServer
  addr : Sock → α

namespace PollServer

/-- The client that the turn handles has hung up, or `read` finds end-of-file. -/
def Removes (s : PollServer) (p : PollFd) (a : Answers) : Prop :=
  s.branch p = .hangup ∨ s.branch p = .input ∧ a.read = some []

instance (s : PollServer) (p : PollFd) (a : Answers) : Decidable (s.Removes p a) :=
  inferInstanceAs (Decidable (_ ∨ _))

/-- The text in the buffer of the leaver once the last node is copied over it;
a `read` has cleared its own buffer before. -/
def textLeft (s : PollServer) (p : PollFd) : List Byte :=
  match s.pfd.getLast? with
  | none => []
  | some last =>
    if s.branch p = .input ∧ last.fd = p.fd then [] else cstr (s.user last.fd).buf

/-- Nobody else waits for the text of the leaver, or the same text takes its place. -/
def TextKept (s : PollServer) (p : PollFd) : Prop :=
  p.fd ∈ s.waited p.fd → s.textLeft p = cstr (s.user p.fd).buf

instance (s : PollServer) (p : PollFd) : Decidable (s.TextKept p) :=
  inferInstanceAs (Decidable (_ → _))

end PollServer

namespace AddressedServer

variable {α : Type*}

def copyAddr (s : AddressedServer α) (p : PollFd) : Sock → α :=
  match s.server.pfd.getLast? with
  | none => s.addr
  | some last => Function.update s.addr p.fd (s.addr last.fd)

def turnAddr (s : AddressedServer α) (p : PollFd) (a : Answers) (peer : α) : Sock → α :=
  match s.server.branch p with
  | .accept =>
    match a.accept with
    | none => s.addr
    | some sock =>
      if s.server.pfd.length = userSize + 1 then s.addr else Function.update s.addr sock peer
  | .hangup => s.copyAddr p
  | .input => if a.read = some [] then s.copyAddr p else s.addr
  | .error | .output | .idle => s.addr

def turn (s : AddressedServer α) (p : PollFd) (a : Answers) (peer : α) : AddressedServer α :=
  ⟨s.server.turn p a, s.turnAddr p a peer⟩

inductive Loop : AddressedServer α → AddressedServer α → Prop
  | poll {s : AddressedServer α} (revents : List Mask) (h : s.server.Polled revents) :
      Loop s ⟨s.server.poll revents, s.addr⟩
  | turn {s : AddressedServer α} (p : PollFd) (a : Answers) (peer : α)
      (hp : s.server.pfd[s.server.j]? = some p) (h : s.server.Fresh p a) : Loop s (s.turn p a peer)

/-- Of the clients only `p` is gone: it is closed, and every other one keeps its
one entry, as it is and where the scan still has to come or has been, its
address and the text it waits for. -/
structure OnlyLeaves (s t : AddressedServer α) (p : PollFd) : Prop where
  gone : (s.server.pfd.map PollFd.fd).Perm (p.fd :: t.server.pfd.map PollFd.fd)
  closed : t.server.trace = s.server.trace ++ [.left p.fd]
  entry : ∀ q ∈ s.server.pfd.tail, q.fd ≠ p.fd → t.server.pfd.filter (·.fd = q.fd) = [q]
  handled : t.server.pfd.take t.server.j = s.server.pfd.take s.server.j
  unhandled : (t.server.pfd.drop t.server.j).Perm (s.server.pfd.drop (s.server.j + 1))
  address : ∀ q ∈ s.server.pfd.tail, q.fd ≠ p.fd → t.addr q.fd = s.addr q.fd
  text : ∀ q ∈ s.server.pfd.tail, q.fd ≠ p.fd →
    t.server.user.pending q.fd = s.server.user.pending q.fd

end AddressedServer

theorem filter_of_nodup_map {β γ : Type*} [DecidableEq γ] (f : β → γ) {l : List β} {x : β}
    (h : (l.map f).Nodup) (hx : x ∈ l) : l.filter (f · = f x) = [x] := by
  induction l with
  | nil => cases hx
  | cons y l ih =>
    rw [List.map_cons, List.nodup_cons] at h
    rcases List.mem_cons.mp hx with rfl | hx
    · have hnone : l.filter (f · = f x) = [] := by
        rw [List.filter_eq_nil_iff]
        intro z hz he
        exact h.1 (List.mem_map.mpr ⟨z, hz, of_decide_eq_true he⟩)
      rw [List.filter_cons_of_pos (by simp), hnone]
    · have hne : f y ≠ f x := fun he => h.1 (he ▸ List.mem_map_of_mem hx)
      rw [List.filter_cons_of_neg (by simpa using hne)]
      exact ih h.2 hx

theorem moveLast_take {ps : List PollFd} {i : Nat} (h : i < ps.length) :
    (moveLast ps i).take i = ps.take i := by
  induction i generalizing ps with
  | zero => rfl
  | succ i ih =>
    cases ps with
    | nil => cases h
    | cons p ps =>
      rw [moveLast_cons (Nat.lt_of_succ_lt_succ h), List.take_succ_cons, List.take_succ_cons,
        ih (Nat.lt_of_succ_lt_succ h)]

namespace PollServer

section Removal

variable {s : PollServer} {r : Mask} {ps : List PollFd} {p : PollFd} {a : Answers}

theorem Table.removal_eq (h : Table s r ps) (hp : s.pfd[s.j]? = some p) (hr : s.Removes p a) :
    ∃ i last user, s.j = i + 1 ∧ ps[i]? = some p ∧ s.pfd.getLast? = some last ∧
      (∀ c ≠ p.fd, user c = s.user c) ∧ cstr (user last.fd).buf = s.textLeft p ∧
      s.turn p a = { s with
        user := Function.update user p.fd (user last.fd)
        pfd := s.listening r :: moveLast ps i
        trace := s.trace ++ [.left p.fd] } := by
  have hb : s.branch p = .hangup ∨ s.branch p = .input ∨ s.branch p = .output :=
    hr.imp_right fun hin => .inl hin.1
  obtain ⟨i, hj, hpi⟩ := h.client hp hb
  rcases hr with hb | ⟨hb, hread⟩
  · obtain ⟨last, hgl, heq⟩ := h.leave_eq hj hpi s.user
    refine ⟨i, last, s.user, hj, hpi, hgl, fun _ _ => rfl, ?_, ?_⟩
    · simp [textLeft, hgl, hb]
    · rw [PollServer.turn, hb]
      exact heq
  · obtain ⟨last, hgl, heq⟩ := h.leave_eq hj hpi (s.user.setBuf p.fd (zeros writeSize))
    refine ⟨i, last, s.user.setBuf p.fd (zeros writeSize), hj, hpi, hgl, fun c hc => ?_, ?_, ?_⟩
    · exact Function.update_of_ne hc ..
    · rw [Users.setBuf_buf, textLeft, hgl]
      by_cases hfd : last.fd = p.fd
      · simp only [hfd, hb, and_self, if_true, cstr_zeros]
      · simp only [hfd, and_false, if_false]
    · rw [PollServer.turn, hb, hread]
      exact heq

/-- A text that somebody waits for changes only with the buffer of the leaver. -/
theorem Table.removal_text (h : Table s r ps) (hp : s.pfd[s.j]? = some p) (hr : s.Removes p a) :
    (∀ q ∈ s.pfd.tail, q.fd ≠ p.fd → (s.turn p a).user.pending q.fd = s.user.pending q.fd) ↔
      s.TextKept p := by
  obtain ⟨i, last, user, -, -, -, hother, hleft, heq⟩ := h.removal_eq hp hr
  have hsame : ∀ q : PollFd, q.fd ≠ p.fd →
      ((s.turn p a).user q.fd).datatowrite = (s.user q.fd).datatowrite := by
    intro q hq
    rw [heq]
    simp only
    rw [Function.update_of_ne hq, hother q.fd hq]
  have hbuf : cstr ((s.turn p a).user p.fd).buf = s.textLeft p := by
    rw [heq]
    simp only [Function.update_self, hleft]
  constructor
  · intro hkept hwaits
    obtain ⟨q, hq, hfd, hptr⟩ := mem_waited.mp hwaits
    have htext := hkept q hq hfd
    rw [Users.pending_some ((hsame q hfd).trans hptr), Users.pending_some hptr, hbuf] at htext
    exact List.singleton_inj.mp htext
  · intro hkept q hq hfd
    cases hptr : (s.user q.fd).datatowrite with
    | none => rw [Users.pending_none ((hsame q hfd).trans hptr), Users.pending_none hptr]
    | some b =>
      rw [Users.pending_some ((hsame q hfd).trans hptr), Users.pending_some hptr]
      by_cases hb : b = p.fd
      · rw [hb] at hptr ⊢
        rw [hbuf, hkept (mem_waited.mpr ⟨q, hq, hfd, hptr⟩)]
      · have hnode : (s.turn p a).user b = s.user b := by
          rw [heq]
          simp only
          rw [Function.update_of_ne hb, hother b hb]
        rw [hnode]

end Removal

end PollServer

namespace AddressedServer

section Removal

variable {α : Type*} {listensock : Sock} {user : Users} {addr : Sock → α} {s : AddressedServer α}
  {r : Mask} {ps : List PollFd} {p : PollFd} {a : Answers}

theorem turnAddr_of_removes (hr : s.server.Removes p a) (peer : α) :
    s.turnAddr p a peer = s.copyAddr p := by
  rcases hr with hb | ⟨hb, hread⟩
  · rw [turnAddr, hb]
  · rw [turnAddr, hb]
    exact if_pos hread

theorem copyAddr_of_ne (s : AddressedServer α) {p : PollFd} {c : Sock} (h : c ≠ p.fd) :
    s.copyAddr p c = s.addr c := by
  unfold copyAddr
  cases s.server.pfd.getLast? with
  | none => rfl
  | some last => exact Function.update_of_ne h ..

theorem reach_server {t : AddressedServer α} (h : Reachable Loop s t) :
    Reachable (PollServer.Loop PollServer.Fresh) s.server t.server := by
  induction h with
  | refl => exact .refl
  | tail _ hst ih =>
    cases hst with
    | poll revents hp => exact ih.tail (.poll revents hp)
    | turn p a peer hp hf => exact ih.tail (.turn p a hp hf)

/-- The addresses do not matter to the run. -/
theorem reach_lift {t : PollServer} (h : Reachable (PollServer.Loop PollServer.Fresh) s.server t) :
    ∃ t' : AddressedServer α, Reachable Loop s t' ∧ t'.server = t := by
  induction h with
  | refl => exact ⟨s, .refl, rfl⟩
  | tail _ hst ih =>
    obtain ⟨t', ht', rfl⟩ := ih
    cases hst with
    | poll revents hp => exact ⟨_, ht'.tail (.poll revents hp), rfl⟩
    | turn p a hp hf => exact ⟨_, ht'.tail (.turn p a (s.addr 0) hp hf), rfl⟩

/-- A removal leaves the other clients alone exactly when the text of the leaver
is not waited for, or the text that takes its place is the same. -/
theorem removal_frame_iff (listensock : Sock) (user : Users) (addr : Sock → α)
    (h : Reachable Loop ⟨.start listensock user, addr⟩ s)
    (hp : s.server.pfd[s.server.j]? = some p) (hr : s.server.Removes p a) (peer : α) :
    s.OnlyLeaves (s.turn p a peer) p ↔ s.server.TextKept p := by
  obtain ⟨⟨r, ps, ht⟩, -⟩ := PollServer.table_reachable (reach_server h)
  obtain ⟨i, last, user', hj, hpi, -, -, -, heq⟩ := ht.removal_eq hp hr
  obtain ⟨hi, -⟩ := List.getElem?_eq_some_iff.mp hpi
  refine ⟨fun hleaves => (ht.removal_text hp hr).mp hleaves.text, fun hkept => ?_⟩
  have hpfd : (s.turn p a peer).server.pfd = s.server.listening r :: moveLast ps i :=
    congrArg PollServer.pfd heq
  have hsame : (s.turn p a peer).server.j = s.server.j := by
    change (s.server.turn p a).j = s.server.j
    rw [heq]
  have hperm := moveLast_perm hpi
  have hgone : (s.server.pfd.map PollFd.fd).Perm
      (p.fd :: (s.turn p a peer).server.pfd.map PollFd.fd) := by
    rw [ht.pfd, hpfd]
    exact ((hperm.map PollFd.fd).cons _).trans (.swap ..)
  have hnodup : ((s.turn p a peer).server.pfd.map PollFd.fd).Nodup := by
    have hall : (s.server.pfd.map PollFd.fd).Nodup := by
      rw [ht.pfd, List.map_cons, List.nodup_cons]
      exact ⟨ht.tracks.not_mem ht.listens, ht.tracks.nodup⟩
    exact (List.nodup_cons.mp (hgone.nodup_iff.mp hall)).2
  refine ⟨hgone, congrArg PollServer.trace heq, fun q hq hfd => ?_, ?_, ?_, fun q _ hfd => ?_,
    (ht.removal_text hp hr).mpr hkept⟩
  · have hmem : q ∈ p :: moveLast ps i := by
      rw [ht.pfd] at hq
      exact hperm.mem_iff.mp hq
    rcases List.mem_cons.mp hmem with rfl | hmem
    · exact absurd rfl hfd
    · exact filter_of_nodup_map PollFd.fd hnodup (hpfd ▸ List.mem_cons_of_mem _ hmem)
  · rw [hpfd, hsame, ht.pfd, hj, List.take_succ_cons, List.take_succ_cons, moveLast_take hi]
  · rw [hpfd, hsame, ht.pfd, hj, List.drop_succ_cons, List.drop_succ_cons]
    exact moveLast_drop hpi
  · exact (congrFun (turnAddr_of_removes hr peer) q.fd).trans (s.copyAddr_of_ne hfd)

end Removal

def hangupOfFirst : List PollServer.Input :=
  [.poll [0, pollhup, 0], .turn ⟨none, none, none⟩]

theorem removal_frame_two : ∃ (s : AddressedServer Nat) (p : PollFd) (a : Answers),
    s.server.pfd.map PollFd.fd = [3, 4, 5] ∧ p.fd = 4 ∧ s.OnlyLeaves (s.turn p a 0) p := by
  have hlast : (PollServer.loop PollServer.Fresh (PollServer.connects 2 ++ hangupOfFirst)
      (.start 3 fun _ => ⟨none, []⟩)).map (fun s => (s.pfd.map PollFd.fd, (s.pfd[s.j]?).map
        fun p => decide (p.fd = 4 ∧ s.branch p = .hangup ∧ s.waited p.fd = []))) =
      some ([3, 4, 5], some true) := by
    decide +kernel
  obtain ⟨s, hrun, hs⟩ := Option.map_eq_some_iff.mp hlast
  obtain ⟨hfds, hnext⟩ := Prod.mk.inj hs
  obtain ⟨p, hp, hfacts⟩ := Option.map_eq_some_iff.mp hnext
  obtain ⟨hfd, hb, hnone⟩ := of_decide_eq_true hfacts
  obtain ⟨t, ht, rfl⟩ := reach_lift (s := ⟨.start 3 fun _ => ⟨none, []⟩, fun _ => 0⟩)
    (PollServer.reach_loop hrun)
  refine ⟨t, p, ⟨none, none, none⟩, hfds, hfd, ?_⟩
  refine (removal_frame_iff 3 _ _ ht hp (.inl hb) 0).mpr fun hwaits => ?_
  rw [hnone] at hwaits
  cases hwaits

theorem removal_takes_text :
    ¬ ∀ (listensock : Sock) (user : Users) (addr : Sock → Nat) (s : AddressedServer Nat)
      (p : PollFd) (a : Answers) (peer : Nat), Reachable Loop ⟨.start listensock user, addr⟩ s →
      s.server.pfd[s.server.j]? = some p → s.server.Removes p a →
      s.OnlyLeaves (s.turn p a peer) p := by
  intro h
  have hlast : (PollServer.loop PollServer.Fresh
      (PollServer.connects 2 ++ PollServer.lineOfFirst ++ hangupOfFirst)
      (.start 3 fun _ => ⟨none, []⟩)).map (fun s => (s.pfd[s.j]?).map
        fun p => decide (p.fd = 4 ∧ s.branch p = .hangup ∧ 5 ∈ s.pfd.tail.map PollFd.fd ∧
          s.user.pending 5 = [bytes "hi"] ∧
          (s.turn p ⟨none, none, none⟩).user.pending 5 = [[]])) = some (some true) := by
    decide +kernel
  obtain ⟨s, hrun, hnext⟩ := Option.map_eq_some_iff.mp hlast
  obtain ⟨p, hp, hfacts⟩ := Option.map_eq_some_iff.mp hnext
  obtain ⟨hfd, hb, hmem, hbefore, hafter⟩ := of_decide_eq_true hfacts
  obtain ⟨t, ht, rfl⟩ := reach_lift (s := ⟨.start 3 fun _ => ⟨none, []⟩, fun _ => 0⟩)
    (PollServer.reach_loop hrun)
  obtain ⟨q, hq, hfive⟩ := List.mem_map.mp hmem
  have htext := (h 3 _ _ t p ⟨none, none, none⟩ 0 ht hp (.inl hb)).text q hq
    (by rw [hfive, hfd]; decide)
  rw [hfive, hbefore] at htext
  exact absurd (hafter.symm.trans htext) (by decide)

end AddressedServer

end LinuxStudy

import LinuxStudy.PollServer
import LinuxStudy.SlotTable

/-! The table of the poll server: which sockets it holds after any run, and
which entries one scan of it serves. -/

namespace LinuxStudy

/-- The sockets that `accept` returned and that are not closed. -/
def Event.live {ι μ : Type*} [DecidableEq ι] (live : List ι) : Event ι μ → List ι
  | joined c => c :: live
  | refused c _ => c :: live
  | left c => live.erase c
  | line _ _ => live
  | writable _ _ => live

namespace PollServer

def live (s : PollServer) : List Sock := s.trace.foldl Event.live []

/-- `accept` returns a descriptor that is not open. -/
def Fresh (s : PollServer) (_ : PollFd) (a : Answers) : Prop :=
  ∀ c ∈ a.accept, c ≠ s.listensock ∧ c ∉ s.live

instance (s : PollServer) (p : PollFd) (a : Answers) : Decidable (s.Fresh p a) :=
  inferInstanceAs (Decidable (∀ c ∈ a.accept, _))

def Turn (s t : PollServer) : Prop :=
  ∃ p a, s.pfd[s.j]? = some p ∧ s.Fresh p a ∧ t = s.turn p a

def entry (p : PollFd) : Sock × Mask := (p.fd, p.revents)

def ready (s : PollServer) : List (Sock × Mask) :=
  ((s.pfd.drop s.j).map entry).filter fun q => q.2 ≠ 0

/-- The entry that the next turn handles, if `poll` reported something for it. -/
def handles (s : PollServer) : List (Sock × Mask) :=
  (((s.pfd.drop s.j).take 1).map entry).filter fun q => q.2 ≠ 0

def listening (s : PollServer) (r : Mask) : PollFd := ⟨s.listensock, pollin ||| pollerr, r⟩

/-- Entry 0 is the listening socket, the others are open clients. -/
structure Table (s : PollServer) (r : Mask) (ps : List PollFd) : Prop where
  pfd : s.pfd = s.listening r :: ps
  hangup : r &&& pollhup = 0
  output : r &&& pollout = 0
  listens : s.listensock ∉ s.live
  tracks : Tracks (ps.map PollFd.fd) s.live
  size : ps.length ≤ userSize

inductive TableMove (r : Mask) (ps : List PollFd) (p : PollFd) (a : Answers) (s t : PollServer) :
    Prop
  | keep (ps' : List PollFd) (hpfd : t.pfd = s.listening r :: ps')
      (hentry : ps'.map entry = ps.map entry) (hj : t.j = s.j + 1) (hlive : t.live = s.live)
  | refuse (c : Sock) (hc : c ≠ s.listensock ∧ c ∉ s.live) (hb : s.branch p = .accept)
      (ha : a.accept = some c) (hfull : ps.length = userSize)
      (hpfd : t.pfd = s.listening r :: ps) (hj : t.j = s.j + 1) (hlive : t.live = c :: s.live)
  | add (c : Sock) (events : Mask) (hc : c ≠ s.listensock ∧ c ∉ s.live)
      (hroom : ps.length < userSize) (hpfd : t.pfd = s.listening r :: (ps ++ [⟨c, events, 0⟩]))
      (hzero : s.j = 0) (hj : t.j = s.j + 1) (hlive : t.live = c :: s.live)
  | remove (i : Nat) (hi : s.j = i + 1) (hp : ps[i]? = some p)
      (hpfd : t.pfd = s.listening r :: moveLast ps i) (hj : t.j = s.j)
      (hlive : t.live = s.live.erase p.fd)

section TableMove

variable {s t : PollServer} {r : Mask} {ps : List PollFd} {p : PollFd} {a : Answers}

theorem live_concat (trace : List (Event Sock (List Byte))) (e : Event Sock (List Byte)) :
    (trace ++ [e]).foldl Event.live [] = Event.live (trace.foldl Event.live []) e :=
  List.foldl_concat ..

theorem entry_askWrite (c : Sock) (q : PollFd) : entry (askWrite c q) = entry q := by
  unfold askWrite
  split <;> rfl

theorem length_of_entry {ps' : List PollFd} (h : ps'.map entry = ps.map entry) :
    ps'.length = ps.length := by
  simpa only [List.length_map] using congrArg List.length h

theorem length_moveLast {i : Nat} (hp : ps[i]? = some p) :
    (moveLast ps i).length + 1 = ps.length := by
  simpa only [List.length_cons] using (moveLast_perm hp).length_eq.symm

theorem leave_listensock (s : PollServer) (p : PollFd) :
    (s.leave p).listensock = s.listensock := by
  unfold leave
  split <;> rfl

theorem turn_listensock (s : PollServer) (p : PollFd) (a : Answers) :
    (s.turn p a).listensock = s.listensock := by
  rw [turn]
  cases s.branch p with
  | accept =>
    change (s.acceptClient a.accept).listensock = _
    unfold acceptClient
    split
    · rfl
    · split <;> rfl
  | hangup => exact leave_listensock s p
  | input =>
    change (s.readClient p a.read).listensock = _
    unfold readClient
    split
    · rfl
    · exact leave_listensock ..
    · rfl
  | output =>
    change (s.writeClient p a.write).listensock = _
    unfold writeClient
    split <;> rfl
  | error | idle => rfl

theorem TableMove.skip (h : Table s r ps) : TableMove r ps p a s s.skip :=
  .keep ps h.pfd rfl rfl rfl

theorem Table.accept (h : Table s r ps) (hzero : s.j = 0) (hb : s.branch p = .accept)
    (hf : s.Fresh p a) : TableMove r ps p a s (s.acceptClient a.accept) := by
  cases ha : a.accept with
  | none => exact .skip h
  | some c =>
    have hlen : s.pfd.length = ps.length + 1 := by rw [h.pfd, List.length_cons]
    by_cases hfull : s.pfd.length = userSize + 1
    · rw [acceptClient, if_pos hfull]
      exact .refuse c (hf c ha) hb ha (by omega) h.pfd rfl (live_concat ..)
    · rw [acceptClient, if_neg hfull]
      refine .add c (pollin ||| pollerr ||| pollhup) (hf c ha) ?_ ?_ hzero rfl (live_concat ..)
      · have := h.size
        omega
      · simp only [h.pfd, List.cons_append]

theorem Table.leave_eq (h : Table s r ps) {i : Nat} (hj : s.j = i + 1) (hp : ps[i]? = some p)
    (user : Users) : ∃ last, s.pfd.getLast? = some last ∧
      PollServer.leave { s with user := user } p = { s with
        user := Function.update user p.fd (user last.fd)
        pfd := s.listening r :: moveLast ps i
        trace := s.trace ++ [.left p.fd] } := by
  obtain ⟨hi, -⟩ := List.getElem?_eq_some_iff.mp hp
  obtain ⟨last, -, hlast⟩ := exists_getLast? hp (s.listening r)
  rw [← h.pfd] at hlast
  have hpfd : moveLast s.pfd s.j = s.listening r :: moveLast ps i := by
    rw [h.pfd, hj, moveLast_cons hi]
  refine ⟨last, hlast, ?_⟩
  simp only [PollServer.leave, hlast, hpfd]

theorem Table.leave (h : Table s r ps) {i : Nat} (hj : s.j = i + 1) (hp : ps[i]? = some p)
    (user : Users) : TableMove r ps p a s (PollServer.leave { s with user := user } p) := by
  obtain ⟨last, -, heq⟩ := h.leave_eq hj hp user
  rw [heq]
  exact .remove i hj hp rfl rfl (live_concat ..)

theorem Table.read (h : Table s r ps) {i : Nat} (hj : s.j = i + 1) (hp : ps[i]? = some p)
    (read : Option (List Byte)) : TableMove r ps p a s (s.readClient p read) := by
  rcases read with - | - | ⟨b, text⟩
  · exact .keep ps h.pfd rfl rfl rfl
  · exact h.leave hj hp (s.user.setBuf p.fd (zeros writeSize))
  · refine .keep (ps.map (askWrite p.fd)) ?_ ?_ rfl (live_concat ..)
    · simp only [readClient, h.pfd, askWrites]
    · rw [List.map_map]
      exact List.map_congr_left fun q _ => entry_askWrite p.fd q

theorem Table.write (h : Table s r ps) {i : Nat} (hj : s.j = i + 1) (hp : ps[i]? = some p)
    (write : Option Nat) : TableMove r ps p a s (s.writeClient p write) := by
  unfold writeClient
  split
  · refine .keep (ps.set i { p with events := (p.events ||| pollin) ||| ~~~pollout }) ?_ ?_ rfl
      (live_concat ..)
    · simp only [h.pfd, hj, List.set_cons_succ]
    · exact map_set_of_eq entry hp rfl
  · exact .keep ps h.pfd rfl rfl (live_concat ..)

theorem Table.client (h : Table s r ps) (hp : s.pfd[s.j]? = some p)
    (hb : s.branch p = .hangup ∨ s.branch p = .input ∨ s.branch p = .output) :
    ∃ i, s.j = i + 1 ∧ ps[i]? = some p := by
  cases hj : s.j with
  | zero =>
    have hhead : s.listening r = p := by
      rw [h.pfd, hj] at hp
      exact Option.some.inj hp
    have hother : s.branch (s.listening r) = .accept ∨ s.branch (s.listening r) = .error ∨
        s.branch (s.listening r) = .idle := s.branch_listensock h.hangup h.output
    rw [hhead] at hother
    rcases hb with hb | hb | hb <;> simp [hb] at hother
  | succ i =>
    rw [h.pfd, hj, List.getElem?_cons_succ] at hp
    exact ⟨i, rfl, hp⟩

theorem Table.turn_cases (h : Table s r ps) (hp : s.pfd[s.j]? = some p) (a : Answers) :
    TurnCase s ps p a (s.turn p a) :=
  PollServer.turn_cases h.pfd h.hangup h.output (h.tracks.not_mem h.listens) hp a

theorem Table.move (h : Table s r ps) (hp : s.pfd[s.j]? = some p) (hf : s.Fresh p a) :
    TableMove r ps p a s (s.turn p a) := by
  have hcase := h.turn_cases hp a
  generalize s.turn p a = t at hcase ⊢
  cases hcase with
  | accept hj hb => exact h.accept hj hb hf
  | skip => exact .skip h
  | hangup i hj hpi => exact h.leave hj hpi s.user
  | input i hj hpi => exact h.read hj hpi a.read
  | output i hj hpi => exact h.write hj hpi a.write

theorem table_start (listensock : Sock) (user : Users) : Table (start listensock user) 0 [] :=
  ⟨rfl, rfl, rfl, List.not_mem_nil, .nil, Nat.zero_le _⟩

theorem Table.poll (h : Table s r ps) {revents : List Mask} (hp : s.Polled revents) :
    ∃ r' ps', Table (s.poll revents) r' ps' ∧ ps'.length = ps.length := by
  obtain ⟨r', rs, rfl, hlen, hhup, hout⟩ := hp.cons h.pfd
  have hfds := map_fd_report (Nat.le_of_eq hlen.symm)
  have hsame : (ps.zipWith report rs).length = ps.length := by simp [hlen]
  refine ⟨r', ps.zipWith report rs, ⟨?_, hhup, hout, h.listens, ?_, ?_⟩, hsame⟩
  · rw [PollServer.poll, h.pfd]
    rfl
  · rw [hfds]
    exact h.tracks
  · rw [hsame]
    exact h.size

theorem map_fd_of_entry {ps' : List PollFd} (h : ps'.map entry = ps.map entry) :
    ps'.map PollFd.fd = ps.map PollFd.fd := by
  have hfst := congrArg (List.map Prod.fst) h
  rwa [List.map_map, List.map_map] at hfst

theorem Table.next (h : Table s r ps) (hsock : t.listensock = s.listensock)
    (hm : TableMove r ps p a s t) : ∃ ps', Table t r ps' := by
  have hlisten : t.listening r = s.listening r := by rw [listening, hsock, listening]
  cases hm with
  | keep ps' hpfd hentry hj hlive =>
    have hfds := map_fd_of_entry hentry
    refine ⟨ps', by rw [hpfd, hlisten], h.hangup, h.output, by rw [hsock, hlive]; exact h.listens,
      by rw [hfds, hlive]; exact h.tracks, ?_⟩
    rw [length_of_entry hentry]
    exact h.size
  | refuse c hc hb ha hfull hpfd hj hlive =>
    refine ⟨ps, by rw [hpfd, hlisten], h.hangup, h.output, ?_,
      by rw [hlive]; exact h.tracks.miss hc.2, h.size⟩
    rw [hsock, hlive]
    exact List.not_mem_cons_of_ne_of_not_mem hc.1.symm h.listens
  | add c events hc hroom hpfd hzero hj hlive =>
    refine ⟨ps ++ [⟨c, events, 0⟩], by rw [hpfd, hlisten], h.hangup, h.output, ?_, ?_, ?_⟩
    · rw [hsock, hlive]
      exact List.not_mem_cons_of_ne_of_not_mem hc.1.symm h.listens
    · rw [hlive, List.map_append]
      exact (h.tracks.add hc.2).perm (List.perm_append_singleton c _).symm
    · rw [List.length_append]
      exact hroom
  | remove i hi hp hpfd hj hlive =>
    refine ⟨moveLast ps i, by rw [hpfd, hlisten], h.hangup, h.output, ?_, ?_, ?_⟩
    · rw [hsock, hlive]
      exact fun hmem => h.listens (List.mem_of_mem_erase hmem)
    · rw [hlive]
      exact (h.tracks.perm ((moveLast_perm hp).map PollFd.fd)).remove
    · have hlen := length_moveLast hp
      have := h.size
      omega

/-- What follows the entry that the next turn handles. -/
def readyLater (s : PollServer) : List (Sock × Mask) :=
  ((s.pfd.drop (s.j + 1)).map entry).filter fun q => q.2 ≠ 0

theorem handles_append (s : PollServer) : s.handles ++ s.readyLater = s.ready := by
  rw [handles, readyLater, ready, ← List.filter_append, ← List.map_append, ← List.drop_drop,
    List.take_append_drop]

theorem Table.ready_perm (h : Table s r ps) (hm : TableMove r ps p a s t) :
    t.ready.Perm s.readyLater := by
  rw [ready, readyLater, h.pfd]
  cases hm with
  | keep ps' hpfd hentry hj hlive =>
    rw [hpfd, hj, List.drop_succ_cons, List.drop_succ_cons, List.map_drop, List.map_drop, hentry]
  | refuse c hc hb ha hfull hpfd hj hlive => rw [hpfd, hj]
  | add c events hc hroom hpfd hzero hj hlive =>
    have hnew : [(⟨c, events, 0⟩ : PollFd)].map entry = [(c, 0)] := rfl
    have hnone : [(c, (0 : Mask))].filter (fun q => q.2 ≠ 0) = [] := by simp
    rw [hpfd, hj, hzero, List.drop_succ_cons, List.drop_succ_cons, List.drop_zero, List.drop_zero,
      List.map_append, List.filter_append, hnew, hnone, List.append_nil]
  | remove i hi hp hpfd hj hlive =>
    rw [hpfd, hj, hi, List.drop_succ_cons, List.drop_succ_cons]
    exact ((moveLast_drop hp).map entry).filter _

theorem Table.serves (h : Table s r ps) (hm : TableMove r ps p a s t) :
    (s.handles ++ t.ready).Perm s.ready := by
  rw [← s.handles_append]
  exact (h.ready_perm hm).append_left _

def rest (s : PollServer) : Nat := s.pfd.length - s.j + if s.j = 0 then 1 else 0

theorem Table.rest_lt (h : Table s r ps) (hm : TableMove r ps p a s t) (hj : s.j < s.pfd.length) :
    t.rest < s.rest := by
  rw [h.pfd, List.length_cons] at hj
  rw [rest, rest, h.pfd, List.length_cons]
  cases hm with
  | keep ps' hpfd hentry hj' hlive =>
    have hlen := length_of_entry hentry
    rw [hpfd, hj', List.length_cons, if_neg (Nat.succ_ne_zero _)]
    omega
  | refuse c hc hb ha hfull hpfd hj' hlive =>
    rw [hpfd, hj', List.length_cons, if_neg (Nat.succ_ne_zero _)]
    omega
  | add c events hc hroom hpfd hzero hj' hlive =>
    rw [hpfd, hj', hzero, if_pos rfl, if_neg Nat.one_ne_zero, List.length_cons, List.length_append]
    simp
  | remove i hi hp hpfd hj' hlive =>
    have hlen := length_moveLast hp
    rw [hpfd, hj', hi, List.length_cons, if_neg (Nat.succ_ne_zero _)]
    omega

end TableMove

section Run

variable {listensock : Sock} {user : Users} {s t : PollServer} {n : Nat}
  {done : List (Sock × Mask)}

theorem Table.turn {r : Mask} {ps : List PollFd} (h : Table s r ps) (ht : Turn s t) :
    (∃ p a, TableMove r ps p a s t) ∧ s.j < s.pfd.length ∧ ∃ ps', Table t r ps' := by
  obtain ⟨p, a, hp, hf, rfl⟩ := ht
  have hm := h.move hp hf
  exact ⟨⟨p, a, hm⟩, (List.getElem?_eq_some_iff.mp hp).1, h.next (turn_listensock s p a) hm⟩

/-- What `poll` and every turn on a sound table preserve, next to the table itself. -/
theorem table_invariant {ok : PollServer → PollFd → Answers → Prop}
    (hok : ∀ s p a, ok s p a → s.Fresh p a) (inv : PollServer → Prop)
    (h : Reachable (Loop ok) (start listensock user) s) (hstart : inv (start listensock user))
    (hpoll : ∀ {s r ps revents}, Table s r ps → inv s → s.Polled revents → inv (s.poll revents))
    (hturn : ∀ {s r ps p a}, Table s r ps → inv s → s.pfd[s.j]? = some p → ok s p a →
      inv (s.turn p a)) :
    (∃ r ps, Table s r ps) ∧ inv s := by
  refine h.invariant (fun s => (∃ r ps, Table s r ps) ∧ inv s)
    ⟨⟨0, [], table_start listensock user⟩, hstart⟩ fun b c ⟨⟨r, ps, ht⟩, hi⟩ hst => ?_
  cases hst with
  | poll revents hp =>
    obtain ⟨r', ps', ht', -⟩ := ht.poll hp
    exact ⟨⟨r', ps', ht'⟩, hpoll ht hi hp⟩
  | turn p a hp ha =>
    obtain ⟨-, -, ps', ht'⟩ := ht.turn ⟨p, a, hp, hok b p a ha, rfl⟩
    exact ⟨⟨r, ps', ht'⟩, hturn ht hi hp ha⟩

theorem table_reachable (h : Reachable (Loop Fresh) (start listensock user) s) :
    (∃ r ps, Table s r ps) ∧ s.listensock = listensock :=
  table_invariant (fun _ _ _ hf => hf) (fun s => s.listensock = listensock) h rfl
    (fun _ hs _ => hs) fun {s _ _ p a} _ hs _ _ => (turn_listensock s p a).trans hs

theorem scan_serves {r : Mask} {ps : List PollFd} (h : Table s r ps)
    (hscan : Scan Turn handles s n done t) :
    n ≤ s.rest ∧ done.Subperm s.ready ∧ (t.pfd.length ≤ t.j → done.Perm s.ready) := by
  have hperm := hscan.perm (fun s => ∃ ps, Table s r ps) ready ⟨ps, h⟩
    fun a b ⟨_, ha⟩ hab => by
      obtain ⟨⟨_, _, hm⟩, -, hb⟩ := ha.turn hab
      exact ⟨hb, ha.serves hm⟩
  have hbound := hscan.bound (fun s => ∃ ps, Table s r ps) rest ⟨ps, h⟩
    fun a b ⟨_, ha⟩ hab => by
      obtain ⟨⟨_, _, hm⟩, hj, hb⟩ := ha.turn hab
      exact ⟨hb, ha.rest_lt hm hj⟩
  refine ⟨by omega, (List.sublist_append_left _ _).subperm.trans hperm.2.subperm, fun hj => ?_⟩
  have hnone : t.ready = [] := by rw [ready, List.drop_eq_nil_of_le hj]; rfl
  have hp := hperm.2
  rwa [hnone, List.append_nil] at hp

/-- After any run the table is sound, and a scan serves each entry that `poll`
reported exactly once. -/
theorem poll_table (h : Reachable (Loop Fresh) (start listensock user) s) :
    s.pfd.head?.map PollFd.fd = some listensock ∧
      1 ≤ s.pfd.length ∧ s.pfd.length ≤ userSize + 1 ∧
      (s.pfd.map PollFd.fd).Nodup ∧ (∀ c ∈ s.pfd.map PollFd.fd, c = listensock ∨ c ∈ s.live) ∧
      ∀ revents, s.Polled revents → ∀ n done t, Scan Turn handles (s.poll revents) n done t →
        n ≤ s.pfd.length + 1 ∧ done.Subperm (s.poll revents).ready ∧
        (t.pfd.length ≤ t.j → done.Perm (s.poll revents).ready) := by
  obtain ⟨⟨r, ps, ht⟩, hsock⟩ := table_reachable h
  have hfds : s.pfd.map PollFd.fd = listensock :: ps.map PollFd.fd := by
    rw [ht.pfd, ← hsock]
    rfl
  have hlen : s.pfd.length = ps.length + 1 := by rw [ht.pfd, List.length_cons]
  refine ⟨?_, by omega, by rw [hlen]; exact Nat.succ_le_succ ht.size, ?_, ?_, ?_⟩
  · rw [ht.pfd, ← hsock]
    rfl
  · rw [hfds, List.nodup_cons, ← hsock]
    exact ⟨ht.tracks.not_mem ht.listens, ht.tracks.nodup⟩
  · rw [hfds]
    exact List.forall_mem_cons.mpr ⟨.inl rfl, fun c hc => .inr (ht.tracks.subperm.subset hc)⟩
  · intro revents hp n done t hscan
    obtain ⟨r', ps', ht', hlen'⟩ := ht.poll hp
    have hserves := scan_serves ht' hscan
    have hrest : (s.poll revents).rest = s.pfd.length + 1 := by
      rw [rest, ht'.pfd, List.length_cons, hlen', hlen]
      rfl
    rwa [hrest] at hserves

theorem scan_loop {as : List Answers} {u : PollServer} (h : Scan Turn handles s n done t)
    (hl : loop Fresh (as.map Input.turn) t = some u) :
    ∃ done', Scan Turn handles s (n + as.length) done' u := by
  induction as generalizing n done t with
  | nil =>
    obtain rfl := Option.some.inj hl
    exact ⟨done, h⟩
  | cons a as ih =>
    obtain ⟨p, hp, ha, hl⟩ := loop_turn hl
    have hnext := ih (h.turn ⟨p, a, hp, ha, rfl⟩) hl
    rwa [Nat.add_right_comm] at hnext

/-- A client joins and another one leaves in the same scan. -/
theorem poll_table_two : ∃ (s t : PollServer) (done : List (Sock × Mask)),
    s.pfd.map PollFd.fd = [3, 4] ∧ t.pfd.map PollFd.fd = [3, 5] ∧
    Scan Turn handles (s.poll [pollin, pollhup]) 3 done t ∧
    s.pfd.length ≤ userSize + 1 ∧ done.Perm [(3, pollin), (4, pollhup)] := by
  have hruns : ((loop Fresh [.poll [pollin], .turn ⟨some 4, none, none⟩,
      .turn ⟨none, none, none⟩] (start 3 fun _ => ⟨none, []⟩)).bind fun s : PollServer =>
        (loop Fresh ([⟨some 5, none, none⟩, ⟨none, none, none⟩, ⟨none, none, none⟩].map Input.turn)
          (s.poll [pollin, pollhup])).map fun t : PollServer =>
            decide (s.Polled [pollin, pollhup] ∧
              (s.poll [pollin, pollhup]).ready = [(3, pollin), (4, pollhup)] ∧
              s.pfd.map PollFd.fd = [3, 4] ∧ t.pfd.map PollFd.fd = [3, 5] ∧
              t.pfd.length ≤ t.j)) = some true := by
    decide +kernel
  obtain ⟨s, hrun, hs⟩ := Option.bind_eq_some_iff.mp hruns
  obtain ⟨t, hscan, ht⟩ := Option.map_eq_some_iff.mp hs
  obtain ⟨hpolled, hready, hfds, hend, hj⟩ := of_decide_eq_true ht
  obtain ⟨done, hdone⟩ := scan_loop .start hscan
  obtain ⟨-, -, hsize, -, -, hserves⟩ := poll_table (reach_loop hrun)
  have hperm := (hserves _ hpolled _ _ _ hdone).2.2 hj
  rw [hready] at hperm
  exact ⟨s, t, done, hfds, hend, hdone, hsize, hperm⟩

end Run

end PollServer

end LinuxStudy

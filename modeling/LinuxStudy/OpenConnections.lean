import LinuxStudy.PollTable
import LinuxStudy.SelectServer

/-! Which open connections the poll server and the select server keep track of.
A full table is where they lose one: it is accepted, and neither entered nor
closed. -/

namespace LinuxStudy

namespace PollServer

/-- A fresh descriptor, and none while the table is full. -/
def Roomy (s : PollServer) (p : PollFd) (a : Answers) : Prop :=
  s.Fresh p a ∧ (s.pfd.length = userSize + 1 → s.branch p = .accept → a.accept = none)

instance (s : PollServer) (p : PollFd) (a : Answers) : Decidable (s.Roomy p a) :=
  inferInstanceAs (Decidable (_ ∧ _))

section Roomy

variable {s t : PollServer} {r : Mask} {ps : List PollFd} {p : PollFd} {a : Answers}

theorem Table.live_length (h : Table s r ps) (hm : TableMove r ps p a s t) (hr : s.Roomy p a)
    (hlen : s.live.length + 1 = s.pfd.length) : t.live.length + 1 = t.pfd.length := by
  rw [h.pfd, List.length_cons] at hlen
  cases hm with
  | keep ps' hpfd hentry hj hlive =>
    have hsame := length_of_entry hentry
    rw [hlive, hpfd, List.length_cons]
    omega
  | refuse c hc hb ha hfull hpfd hj hlive =>
    have hnone := hr.2 (by rw [h.pfd, List.length_cons, hfull]) hb
    rw [ha] at hnone
    cases hnone
  | add c events hc hroom hpfd hzero hj hlive =>
    rw [hlive, hpfd, List.length_cons, List.length_cons, List.length_append, List.length_singleton]
    omega
  | remove i hi hp hpfd hj hlive =>
    have hmove := length_moveLast hp
    have hmem : p.fd ∈ ps.map PollFd.fd := List.mem_map_of_mem (List.mem_of_getElem? hp)
    have herase := h.tracks.length_erase hmem
    rw [hlive, hpfd, List.length_cons]
    omega

theorem roomy_reachable {listensock : Sock} {user : Users}
    (h : Reachable (Loop Roomy) (start listensock user) s) :
    (∃ r ps, Table s r ps) ∧ s.live.length + 1 = s.pfd.length := by
  refine table_invariant (fun _ _ _ hr => hr.1) (fun s => s.live.length + 1 = s.pfd.length) h rfl
    (fun {b _ _ revents} _ hlen hp => ?_) fun {b r ps p a} ht hlen hp hr => ?_
  · have hsame : (b.poll revents).pfd.length = b.pfd.length := by
      rw [PollServer.poll, List.length_zipWith, hp.2.1, Nat.min_self]
    rw [hsame]
    exact hlen
  · exact ht.live_length (ht.move hp hr.1) hr hlen

theorem count_clients {listensock : Sock} {user : Users}
    (h : Reachable (Loop Roomy) (start listensock user) s) (c : Sock) :
    (s.pfd.tail.map PollFd.fd).count c = if c ∈ s.live then 1 else 0 := by
  obtain ⟨⟨r, ps, ht⟩, hlen⟩ := roomy_reachable h
  rw [ht.pfd, List.length_cons] at hlen
  rw [ht.pfd, List.tail_cons]
  exact ht.tracks.count_eq (by rw [List.length_map]; omega) c

end Roomy

section Lost

variable {s t : PollServer} {r : Mask} {ps : List PollFd} {p : PollFd} {a : Answers} {c : Sock}

/-- Open, and in no entry. -/
def Lost (s : PollServer) (c : Sock) : Prop := c ∈ s.live ∧ c ∉ s.pfd.tail.map PollFd.fd

/-- The turn accepts `c`, for which the table has no room. -/
structure Refuses (s : PollServer) (p : PollFd) (a : Answers) (c : Sock) : Prop where
  handled : s.pfd[s.j]? = some p
  branch : s.branch p = .accept
  accepted : a.accept = some c
  full : s.pfd.length = userSize + 1

theorem Table.lost_iff (h : Table s r ps) : s.Lost c ↔ Stray (ps.map PollFd.fd) s.live c := by
  rw [Lost, Stray, h.pfd, List.tail_cons]

theorem Table.refused (h : Table s r ps) (hr : s.Refuses p a c) (hf : s.Fresh p a) :
    (s.turn p a).Lost c := by
  have hturn : s.turn p a = s.acceptClient (some c) := by
    rw [PollServer.turn, hr.branch]
    change s.acceptClient a.accept = _
    rw [hr.accepted]
  have hlive : (s.acceptClient (some c)).live = c :: s.live := by
    rw [acceptClient, if_pos hr.full]
    exact live_concat ..
  have hpfd : (s.acceptClient (some c)).pfd = s.pfd := by rw [acceptClient, if_pos hr.full]
  rw [hturn, Lost, hlive, hpfd, h.pfd, List.tail_cons]
  exact h.tracks.stray (hf c hr.accepted).2

theorem Table.lost_move (h : Table s r ps) (hm : TableMove r ps p a s t) (hc : s.Lost c) :
    t.Lost c := by
  have hstray := h.lost_iff.mp hc
  cases hm with
  | keep ps' hpfd hentry hj hlive =>
    rw [Lost, hpfd, hlive, List.tail_cons, map_fd_of_entry hentry]
    exact hstray
  | refuse d hd hb ha hfull hpfd hj hlive =>
    rw [Lost, hpfd, hlive, List.tail_cons]
    exact hstray.miss d
  | add d events hd hroom hpfd hzero hj hlive =>
    rw [Lost, hpfd, hlive, List.tail_cons, List.map_append]
    exact (hstray.add hd.2).perm (List.perm_append_singleton d _).symm
  | remove i hi hp hpfd hj hlive =>
    rw [Lost, hpfd, hlive, List.tail_cons]
    exact (hstray.perm ((moveLast_perm hp).map PollFd.fd)).remove

theorem lost_poll {revents : List Mask} (hp : s.Polled revents) (hc : s.Lost c) :
    (s.poll revents).Lost c := by
  have hfds : (s.poll revents).pfd.map PollFd.fd = s.pfd.map PollFd.fd :=
    map_fd_report (Nat.le_of_eq hp.2.1.symm)
  refine ⟨hc.1, ?_⟩
  rw [List.map_tail, hfds, ← List.map_tail]
  exact hc.2

theorem Table.lost_reachable {ok : PollServer → PollFd → Answers → Prop}
    (hok : ∀ s p a, ok s p a → s.Fresh p a) (h : Table s r ps) (hc : s.Lost c)
    (ht : Reachable (Loop ok) s t) : t.Lost c := by
  have hinv := ht.invariant (fun t => (∃ r ps, Table t r ps) ∧ t.Lost c) ⟨⟨r, ps, h⟩, hc⟩
    fun b d ⟨⟨r, ps, hb⟩, hlost⟩ hst => ?_
  · exact hinv.2
  · cases hst with
    | poll revents hp =>
      obtain ⟨r', ps', hb', -⟩ := hb.poll hp
      exact ⟨⟨r', ps', hb'⟩, lost_poll hp hlost⟩
    | turn p a hp ha =>
      obtain ⟨-, -, ps', hb'⟩ := hb.turn ⟨p, a, hp, hok b p a ha, rfl⟩
      exact ⟨⟨r, ps', hb'⟩, hb.lost_move (hb.move hp (hok b p a ha)) hlost⟩

/-- What finds the table full stays open, and in no entry. -/
theorem lost_of_refused {ok : PollServer → PollFd → Answers → Prop}
    (hok : ∀ s p a, ok s p a → s.Fresh p a) {listensock : Sock} {user : Users}
    (h : Reachable (Loop ok) (start listensock user) s) (hr : s.Refuses p a c) (ha : ok s p a)
    (ht : Reachable (Loop ok) (s.turn p a) t) : t.Lost c := by
  obtain ⟨⟨r, ps, hs⟩, -⟩ := table_invariant hok (fun _ => True) h trivial (fun _ _ _ => trivial)
    fun _ _ _ _ => trivial
  obtain ⟨-, -, ps', hnext⟩ := hs.turn ⟨p, a, hr.handled, hok s p a ha, rfl⟩
  exact hnext.lost_reachable hok (hs.refused hr (hok s p a ha)) ht

end Lost

end PollServer

namespace SelectServer

/-- A fresh descriptor, and none while there is no free slot. -/
def Roomy (s : SelectServer) (a : Replies) : Prop :=
  s.Fresh a ∧ (none ∉ s.gfds → s.next = some s.listensock → a.accept = none)

section Roomy

variable {s t : SelectServer} {slots : List (Option Sock)} {a : Replies}

theorem Table.live_length (h : Table s slots) (hm : TableMove slots a s t) (hr : s.Roomy a)
    (hlen : s.live.length + 1 = s.gfds.reduceOption.length) :
    t.live.length + 1 = t.gfds.reduceOption.length := by
  rw [h.gfds, List.reduceOption_cons_of_some, List.length_cons] at hlen
  cases hm with
  | keep hgfds hlive =>
    rw [hlive, hgfds, List.reduceOption_cons_of_some, List.length_cons]
    exact hlen
  | add c hc hnext ha hzero hgfds hlive =>
    have hfree : none ∈ slots := by
      by_contra hfull
      have hnone := hr.2 (by simpa [h.gfds] using hfull) hnext
      rw [ha] at hnone
      cases hnone
    have hplace := (place_perm (c := c) hfree).length_eq
    rw [List.length_cons] at hplace
    rw [hlive, hgfds, List.reduceOption_cons_of_some, List.length_cons, List.length_cons, hplace]
    omega
  | remove i c hi hc hgfds hlive =>
    have hclear := (clear_perm hc).length_eq
    have hmem : c ∈ slots.reduceOption := List.reduceOption_mem_iff.mpr (List.mem_of_getElem? hc)
    have herase := h.tracks.length_erase hmem
    rw [List.length_cons] at hclear
    rw [hlive, hgfds, List.reduceOption_cons_of_some, List.length_cons]
    omega

theorem roomy_reachable {listensock : Sock} (h : Reachable (Loop Roomy) (start listensock) s) :
    (∃ slots, Table s slots) ∧ s.live.length + 1 = s.gfds.reduceOption.length := by
  refine h.invariant
    (fun s => (∃ slots, Table s slots) ∧ s.live.length + 1 = s.gfds.reduceOption.length)
    ⟨⟨_, table_start listensock⟩, ?_⟩ fun b c ⟨⟨slots, ht⟩, hlen⟩ hst => ?_
  · rw [start, List.reduceOption_cons_of_some, List.reduceOption_replicate_none]
    rfl
  · refine ⟨(ht.loop (fun _ _ hr => hr.1) hst).2, ?_⟩
    cases hst with
    | select ready hk => exact hlen
    | unready hk => exact hlen
    | turn a hk hr => exact ht.live_length (ht.move hr.1) hr hlen

theorem count_slots {listensock : Sock} (h : Reachable (Loop Roomy) (start listensock) s)
    (c : Sock) : s.gfds.tail.count (some c) = if c ∈ s.live then 1 else 0 := by
  obtain ⟨⟨slots, ht⟩, hlen⟩ := roomy_reachable h
  rw [ht.gfds, List.reduceOption_cons_of_some, List.length_cons] at hlen
  rw [ht.gfds, List.tail_cons, count_some]
  exact ht.tracks.count_eq (by omega) c

end Roomy

section Lost

variable {s t : SelectServer} {slots : List (Option Sock)} {a : Replies} {c : Sock}

/-- Open, and in no slot. -/
def Lost (s : SelectServer) (c : Sock) : Prop := c ∈ s.live ∧ some c ∉ s.gfds.tail

/-- The turn accepts `c`, for which there is no free slot. -/
structure Refuses (s : SelectServer) (a : Replies) (c : Sock) : Prop where
  handled : s.k < size
  next : s.next = some s.listensock
  accepted : a.accept = some c
  full : none ∉ s.gfds

theorem Table.lost_iff (h : Table s slots) : s.Lost c ↔ Stray slots.reduceOption s.live c := by
  rw [Lost, Stray, h.gfds, List.tail_cons, List.reduceOption_mem_iff]

theorem Table.refused (h : Table s slots) (hr : s.Refuses a c) (hf : s.Fresh a) :
    (s.turn a).Lost c := by
  have hturn : s.turn a = s.acceptClient (some c) := by
    rw [turn, hr.next, hr.accepted]
    exact if_pos rfl
  have hgfds : (s.acceptClient (some c)).gfds = s.gfds := place_full hr.full
  rw [hturn, Lost, hgfds, h.gfds, List.tail_cons, ← List.reduceOption_mem_iff]
  exact h.tracks.stray (hf c hr.accepted).2

theorem Table.lost_move (h : Table s slots) (hm : TableMove slots a s t) (hc : s.Lost c) :
    t.Lost c := by
  have hstray := h.lost_iff.mp hc
  cases hm with
  | keep hgfds hlive =>
    rw [Lost, hgfds, hlive, List.tail_cons, ← List.reduceOption_mem_iff]
    exact hstray
  | add d hd hnext ha hzero hgfds hlive =>
    rw [Lost, hgfds, hlive, List.tail_cons, ← List.reduceOption_mem_iff]
    by_cases hfree : none ∈ slots
    · exact (hstray.add hd.2).perm (place_perm hfree).symm
    · rw [place_full hfree]
      exact hstray.miss d
  | remove i d hi hd hgfds hlive =>
    rw [Lost, hgfds, hlive, List.tail_cons, ← List.reduceOption_mem_iff]
    exact (hstray.perm (clear_perm hd)).remove

theorem Table.lost_reachable {ok : SelectServer → Replies → Prop}
    (hok : ∀ s a, ok s a → s.Fresh a) (h : Table s slots) (hc : s.Lost c)
    (ht : Reachable (Loop ok) s t) : t.Lost c := by
  have hinv := ht.invariant (fun t => (∃ slots, Table t slots) ∧ t.Lost c) ⟨⟨slots, h⟩, hc⟩
    fun b d ⟨⟨slots, hb⟩, hlost⟩ hst => ?_
  · exact hinv.2
  · refine ⟨(hb.loop hok hst).2, ?_⟩
    cases hst with
    | select ready hk => exact hlost
    | unready hk => exact hlost
    | turn a hk ha => exact hb.lost_move (hb.move (hok b a ha)) hlost

/-- What finds no free slot stays open, and in none. -/
theorem lost_of_refused {ok : SelectServer → Replies → Prop} (hok : ∀ s a, ok s a → s.Fresh a)
    {listensock : Sock} (h : Reachable (Loop ok) (start listensock) s) (hr : s.Refuses a c)
    (ha : ok s a) (ht : Reachable (Loop ok) (s.turn a) t) : t.Lost c := by
  obtain ⟨slots, hs⟩ := table_reachable hok h
  obtain ⟨slots', hnext⟩ := hs.next (hok s a ha)
  exact hnext.lost_reachable hok (hs.refused hr (hok s a ha)) ht

end Lost

end SelectServer

/-- In every run in which no connection is accepted while the table is full,
every open connection is in exactly one slot. -/
theorem connections_tracked (listensock : Sock) (user : Users) :
    (∀ s, Reachable (PollServer.Loop PollServer.Roomy) (.start listensock user) s →
      ∀ c, (s.pfd.tail.map PollFd.fd).count c = if c ∈ s.live then 1 else 0) ∧
    ∀ s, Reachable (SelectServer.Loop SelectServer.Roomy) (.start listensock) s →
      (∀ c, s.gfds.tail.count (some c) = if c ∈ s.live then 1 else 0) ∧
      ∀ c, some c ∈ s.gfds → c ≤ s.watch.maxFd :=
  ⟨fun _ h => PollServer.count_clients h,
    fun s h => ⟨SelectServer.count_slots h, fun _ => s.le_watch_maxFd⟩⟩

def PollServer.connects (n : Nat) : List PollServer.Input :=
  (List.range n).flatMap fun i =>
    .poll (pollin :: List.replicate i 0) :: .turn ⟨some (4 + i), none, none⟩ ::
      List.replicate (min (i + 1) userSize) (.turn ⟨none, none, none⟩)

/-- The first of two clients sends a line. -/
def PollServer.lineOfFirst : List PollServer.Input :=
  [.poll [0, pollin, 0], .turn ⟨none, none, none⟩, .turn ⟨none, some (bytes "hi\n"), none⟩,
    .turn ⟨none, none, none⟩]

theorem connections_tracked_two :
    (∃ s : PollServer, s.live = [5, 4] ∧ (s.pfd.tail.map PollFd.fd).count 4 = 1) ∧
      ∃ s : SelectServer, s.live = [4] ∧ s.gfds.tail.count (some 4) = 1 := by
  obtain ⟨hpoll, hselect⟩ := connections_tracked 3 fun _ => ⟨none, []⟩
  constructor
  · have hlive : (PollServer.loop PollServer.Roomy (PollServer.connects 2)
        (.start 3 fun _ => ⟨none, []⟩)).map PollServer.live = some [5, 4] := by
      decide +kernel
    obtain ⟨s, hrun, hs⟩ := Option.map_eq_some_iff.mp hlive
    refine ⟨s, hs, ?_⟩
    rw [hpoll s (PollServer.reach_loop hrun) 4, hs]
    rfl
  · have hlive : (((SelectServer.start 3).watch.select fun _ => true).turn ⟨some 4, none⟩).live =
        [4] := by
      decide +kernel
    have hroomy : SelectServer.Roomy ((SelectServer.start 3).watch.select fun _ => true)
        ⟨some 4, none⟩ := by
      refine ⟨by simp [SelectServer.Fresh, SelectServer.select, SelectServer.watch,
        SelectServer.start], fun hfull => absurd ?_ hfull⟩
      decide +kernel
    have hrun := (Relation.ReflTransGen.single (SelectServer.Loop.select (s := .start 3)
      (fun _ => true) (Nat.le_refl _))).tail (SelectServer.Loop.turn _ (by decide) hroomy)
    refine ⟨_, hlive, ?_⟩
    rw [(hselect _ hrun).1 4, hlive]
    rfl

theorem connection_lost :
    ¬ ∀ (listensock : Sock) (user : Users) (s : PollServer),
      Reachable (PollServer.Loop PollServer.Fresh) (.start listensock user) s →
      s.pfd.length ≤ s.j →
      ∀ c, (s.pfd.tail.map PollFd.fd).count c = if c ∈ s.live then 1 else 0 := by
  intro h
  have hlast : (PollServer.loop PollServer.Fresh (PollServer.connects 11)
      (.start 3 fun _ => ⟨none, []⟩)).map (fun s =>
        (s.j, s.pfd.map PollFd.fd, s.live.head?)) =
      some (11, [3, 4, 5, 6, 7, 8, 9, 10, 11, 12, 13], some 14) := by
    decide +kernel
  obtain ⟨s, hrun, hs⟩ := Option.map_eq_some_iff.mp hlast
  simp only [Prod.mk.injEq] at hs
  obtain ⟨hj, hfds, hhead⟩ := hs
  have hlen := congrArg List.length hfds
  rw [List.length_map] at hlen
  have hcount := h 3 _ s (PollServer.reach_loop hrun) (by rw [hlen, hj]; rfl) 14
  rw [List.map_tail, hfds, if_pos (List.mem_of_mem_head? hhead)] at hcount
  exact absurd hcount (by decide)

end LinuxStudy

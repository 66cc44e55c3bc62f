import LinuxStudy.LowestFree
import LinuxStudy.OpenConnections

/-! The descriptors in the tables of the poll server and the select server. Both
keep open what finds no room, without end; but as each new descriptor is the
lowest free one, those in the tables, which index `user` and the `fd_set`, stay
as low as if nothing had been kept. -/

namespace LinuxStudy

namespace SelectServer

/-- `accept` returns the lowest descriptor that is not open; `others` are open all
the time. -/
def Lowest (others : Finset Sock) (s : SelectServer) (a : Replies) : Prop :=
  ∀ c ∈ a.accept, IsLowest (insert s.listensock others) s.live c

section Lowest

variable {others : Finset Sock} {s t : SelectServer} {slots : List (Option Sock)} {a : Replies}
  {m : Sock}

theorem Lowest.fresh (h : s.Lowest others a) : s.Fresh a := by
  intro c hc
  obtain ⟨⟨hbase, hlive⟩, -⟩ := h c hc
  exact ⟨fun heq => hbase (heq ▸ Finset.mem_insert_self _ _), hlive⟩

theorem watchLoop_maxFd_le {gfds : List (Option Sock)} (hall : ∀ c, some c ∈ gfds → c ≤ m)
    (rfds : Finset Sock) {maxFd : Sock} (hmax : maxFd ≤ m) : (watchLoop gfds rfds maxFd).2 ≤ m := by
  induction gfds generalizing rfds maxFd with
  | nil => exact hmax
  | cons x gfds ih =>
    have hrest : ∀ c, some c ∈ gfds → c ≤ m := fun c hc => hall c (List.mem_cons_of_mem x hc)
    cases x with
    | none => exact ih hrest rfds hmax
    | some fd =>
      apply ih hrest
      split
      · exact hall fd List.mem_cons_self
      · exact hmax

theorem Table.packed (h : Table s slots) (hm : TableMove slots a s t) (ha : s.Lowest others a)
    (hp : Packed (insert s.listensock others) (size - 1) s.gfds.tail.reduceOption s.live) :
    Packed (insert s.listensock others) (size - 1) t.gfds.tail.reduceOption t.live := by
  have hlen : slots.length = size - 1 := by
    have := h.length
    omega
  rw [h.gfds, List.tail_cons] at hp
  cases hm with
  | keep hgfds hlive =>
    rw [hgfds, hlive]
    exact hp
  | add c hc hnext hac hzero hgfds hlive =>
    have hlow := ha c hac
    rw [hgfds, hlive, List.tail_cons]
    by_cases hfree : none ∈ slots
    · have hroom := List.reduceOption_length_lt_iff.mpr hfree
      exact (hp.add hlow (hlen ▸ hroom)).perm (place_perm hfree).symm
    · rw [place_full hfree]
      apply hp.miss hlow
      by_contra hroom
      exact hfree (List.reduceOption_length_lt_iff.mp (by omega))
  | remove i c hi hc hgfds hlive =>
    rw [hgfds, hlive, List.tail_cons]
    exact (hp.perm (clear_perm hc)).remove

theorem turn_maxFd (s : SelectServer) (a : Replies) : (s.turn a).maxFd = s.maxFd := by
  unfold turn
  split
  · rfl
  · split
    · cases a.accept <;> rfl
    · rcases a.read with - | - | ⟨b, text⟩ <;> rfl

theorem Table.watch_maxFd_le (h : Table s slots) {listensock : Sock} (hsock : s.listensock = listensock)
    (hp : Packed (insert s.listensock others) (size - 1) s.gfds.tail.reduceOption s.live)
    (hmax : s.maxFd ≤ max listensock (others.card + (size - 1))) :
    s.watch.maxFd ≤ max listensock (others.card + (size - 1)) := by
  apply watchLoop_maxFd_le _ _ hmax
  intro c hc
  rw [h.gfds] at hc hp
  rcases List.mem_cons.mp hc with hc | hc
  · rw [Option.some.inj hc, hsock]
    exact Nat.le_max_left ..
  · have hlt := hp.lt (List.reduceOption_mem_iff.mpr hc)
    have hcard := Finset.card_insert_le s.listensock others
    have hbound : size - 1 + (insert s.listensock others).card ≤ others.card + (size - 1) + 1 := by
      omega
    exact (Nat.le_of_lt_succ (hlt.trans_le hbound)).trans (Nat.le_max_right ..)

theorem low_reachable {listensock : Sock}
    (h : Reachable (Loop (Lowest others)) (start listensock) s) :
    s.listensock = listensock ∧
      Packed (insert s.listensock others) (size - 1) s.gfds.tail.reduceOption s.live ∧
      s.maxFd ≤ max listensock (others.card + (size - 1)) := by
  have hinv := h.invariant (fun s => (∃ slots, Table s slots) ∧ s.listensock = listensock ∧
    Packed (insert s.listensock others) (size - 1) s.gfds.tail.reduceOption s.live ∧
    s.maxFd ≤ max listensock (others.card + (size - 1)))
    ⟨⟨_, table_start listensock⟩, rfl, ?_, Nat.le_max_left ..⟩
    fun b c ⟨⟨slots, ht⟩, hsock, hp, hmax⟩ hst => ?_
  · exact hinv.2
  · rw [start, List.tail_cons, List.reduceOption_replicate_none]
    exact .nil
  · have hnext := ht.loop (fun _ _ hl => hl.fresh) hst
    refine ⟨hnext.2, hnext.1.trans hsock, ?_⟩
    rw [hnext.1]
    cases hst with
    | select ready hk => exact ⟨hp, ht.watch_maxFd_le hsock hp hmax⟩
    | unready hk => exact ⟨hp, ht.watch_maxFd_le hsock hp hmax⟩
    | turn a hk ha =>
      rw [turn_maxFd]
      exact ⟨ht.packed (ht.move ha.fresh) ha hp, hmax⟩

end Lowest

end SelectServer

namespace PollServer

def Lowest (others : Finset Sock) (s : PollServer) (_ : PollFd) (a : Answers) : Prop :=
  ∀ c ∈ a.accept, IsLowest (insert s.listensock others) s.live c

instance (others : Finset Sock) (s : PollServer) (p : PollFd) (a : Answers) :
    Decidable (s.Lowest others p a) :=
  inferInstanceAs (Decidable (∀ c ∈ a.accept, _))

section Lowest

variable {others : Finset Sock} {s t : PollServer} {r : Mask} {ps : List PollFd} {p : PollFd}
  {a : Answers}

theorem Lowest.fresh (h : s.Lowest others p a) : s.Fresh p a := by
  intro c hc
  obtain ⟨⟨hbase, hlive⟩, -⟩ := h c hc
  exact ⟨fun heq => hbase (heq ▸ Finset.mem_insert_self _ _), hlive⟩

/-- Only what `accept` returned is new. -/
theorem Table.accepted (h : Table s r ps) (hp : s.pfd[s.j]? = some p) (hzero : s.j = 0) {c : Sock}
    (hlive : (s.turn p a).live = c :: s.live) : a.accept = some c := by
  have hcase := h.turn_cases hp a
  generalize s.turn p a = t at hcase hlive
  cases hcase with
  | accept hj hb =>
    cases ha : a.accept with
    | none =>
      rw [ha] at hlive
      exact absurd (congrArg List.length hlive) (Nat.succ_ne_self _).symm
    | some d =>
      have hnew : (s.acceptClient (some d)).live = d :: s.live := by
        simp only [acceptClient]
        split
        · exact live_concat ..
        · exact live_concat ..
      rw [ha, hnew] at hlive
      rw [(List.cons.inj hlive).1]
  | skip => exact absurd (congrArg List.length hlive) (Nat.succ_ne_self _).symm
  | hangup i hj => omega
  | input i hj => omega
  | output i hj => omega

theorem Table.packed (h : Table s r ps) (hp : s.pfd[s.j]? = some p) (ha : s.Lowest others p a)
    (hpacked : Packed (insert s.listensock others) userSize (s.pfd.tail.map PollFd.fd) s.live) :
    Packed (insert s.listensock others) userSize ((s.turn p a).pfd.tail.map PollFd.fd)
      (s.turn p a).live := by
  rw [h.pfd, List.tail_cons] at hpacked
  cases h.move hp ha.fresh with
  | keep ps' hpfd hentry hj hlive =>
    rw [hpfd, hlive, List.tail_cons, map_fd_of_entry hentry]
    exact hpacked
  | refuse c hc hb hac hfull hpfd hj hlive =>
    rw [hpfd, hlive, List.tail_cons]
    exact hpacked.miss (ha c hac) (by rw [List.length_map, hfull])
  | add c events hc hroom hpfd hzero hj hlive =>
    have hlow := ha c (h.accepted hp hzero hlive)
    rw [hpfd, hlive, List.tail_cons, List.map_append]
    apply (hpacked.add hlow _).perm (List.perm_append_singleton c _).symm
    rwa [List.length_map]
  | remove i hi hpi hpfd hj hlive =>
    rw [hpfd, hlive, List.tail_cons]
    exact (hpacked.perm ((moveLast_perm hpi).map PollFd.fd)).remove

theorem low_reachable {listensock : Sock} {user : Users}
    (h : Reachable (Loop (Lowest others)) (start listensock user) s) :
    s.listensock = listensock ∧
      Packed (insert s.listensock others) userSize (s.pfd.tail.map PollFd.fd) s.live := by
  have hinv := table_invariant (fun _ _ _ hl => hl.fresh) (fun s => s.listensock = listensock ∧
    Packed (insert s.listensock others) userSize (s.pfd.tail.map PollFd.fd) s.live) h
    ⟨rfl, .nil⟩ (fun {b r ps revents} ht hb hp => ?_) fun {b r ps p a} ht hb hp hl => ?_
  · exact hinv.2
  · refine ⟨hb.1, ?_⟩
    have hfds : (b.poll revents).pfd.map PollFd.fd = b.pfd.map PollFd.fd :=
      map_fd_report (Nat.le_of_eq hp.2.1.symm)
    rw [List.map_tail, hfds, ← List.map_tail]
    exact hb.2
  · have hsock := turn_listensock b p a
    refine ⟨hsock.trans hb.1, ?_⟩
    rw [hsock]
    exact ht.packed hp hl hb.2

end Lowest

end PollServer

/-- What finds the table full is open, and in no entry, in every later state.
However many there are, no entry is higher than the size of the table and the
number of descriptors that are open beside it allow: far below `FD_SIZE` and
`FD_SETSIZE`. -/
theorem descriptors_low (others : Finset Sock) (listensock : Sock) (user : Users) :
    (∀ s, Reachable (PollServer.Loop (PollServer.Lowest others)) (.start listensock user) s →
      (∀ p ∈ s.pfd.tail, p.fd ≤ userSize + others.card) ∧
      ∀ p a c, s.Refuses p a c → s.Lowest others p a →
        ∀ t, Reachable (PollServer.Loop (PollServer.Lowest others)) (s.turn p a) t → t.Lost c) ∧
    ∀ s, Reachable (SelectServer.Loop (SelectServer.Lowest others)) (.start listensock) s →
      (∀ c, some c ∈ s.gfds.tail → c < SelectServer.size + others.card) ∧
      s.maxFd ≤ max listensock (others.card + (SelectServer.size - 1)) ∧
      ∀ a c, s.Refuses a c → s.Lowest others a →
        ∀ t, Reachable (SelectServer.Loop (SelectServer.Lowest others)) (s.turn a) t →
          t.Lost c := by
  have hcard := Finset.card_insert_le listensock others
  refine ⟨fun s h => ⟨fun p hp => ?_, fun p a c hr ha t ht => ?_⟩,
    fun s h => ⟨fun c hc => ?_, (SelectServer.low_reachable h).2.2, fun a c hr ha t ht => ?_⟩⟩
  · obtain ⟨hsock, hpacked⟩ := PollServer.low_reachable h
    have hlt := hpacked.lt (List.mem_map_of_mem hp)
    rw [hsock] at hlt
    exact Nat.le_of_lt_succ (hlt.trans_le (by omega))
  · exact PollServer.lost_of_refused (fun _ _ _ hl => hl.fresh) h hr ha ht
  · obtain ⟨hsock, hpacked, -⟩ := SelectServer.low_reachable h
    have hlt := hpacked.lt (List.reduceOption_mem_iff.mpr hc)
    rw [hsock] at hlt
    have hbound : SelectServer.size - 1 + (insert listensock others).card ≤
        SelectServer.size + others.card := by
      change 127 + _ ≤ 128 + _
      omega
    exact hlt.trans_le hbound
  · exact SelectServer.lost_of_refused (fun _ _ hl => hl.fresh) h hr ha ht

def PollServer.fullTable : List PollServer.Input :=
  PollServer.connects 10 ++ [.poll (pollin :: List.replicate 10 0)]

/-- The first client leaves, behind the scan that has refused one. -/
def PollServer.firstLeaves : List PollServer.Input :=
  List.replicate 10 (.turn ⟨none, none, none⟩) ++
    [.poll (0 :: pollhup :: List.replicate 9 0), .turn ⟨none, none, none⟩,
      .turn ⟨none, none, none⟩]

def Answers.eleventh : Answers := ⟨some 14, none, none⟩

/-- The eleventh client of the poll server stays when the first has left. -/
theorem descriptors_low_refused :
    (∃ (s t : PollServer) (p : PollFd), s.Refuses p .eleventh 14 ∧
      Reachable (PollServer.Loop (PollServer.Lowest {0, 1, 2})) (s.turn p .eleventh) t ∧
      (∀ p ∈ s.pfd.tail, p.fd ≤ 13) ∧ 4 ∉ t.live ∧ t.Lost 14) ∧
      ∃ s : SelectServer, s.gfds.tail.head? = some (some 4) ∧ ∀ c, some c ∈ s.gfds.tail → c < 131 := by
  obtain ⟨hpoll, hselect⟩ := descriptors_low {0, 1, 2} 3 fun _ => ⟨none, []⟩
  constructor
  · have hruns : ((PollServer.loop (PollServer.Lowest {0, 1, 2}) PollServer.fullTable
        (.start 3 fun _ => ⟨none, []⟩)).bind fun s : PollServer => s.pfd[s.j]?.bind fun p =>
          (PollServer.loop (PollServer.Lowest {0, 1, 2}) PollServer.firstLeaves
            (s.turn p .eleventh)).map fun t : PollServer =>
              decide ((s.branch p = .accept ∧ s.pfd.length = userSize + 1 ∧
                s.Lowest {0, 1, 2} p .eleventh) ∧ 4 ∉ t.live)) = some true := by
      decide +kernel
    obtain ⟨s, hrun, hs⟩ := Option.bind_eq_some_iff.mp hruns
    obtain ⟨p, hp, hs⟩ := Option.bind_eq_some_iff.mp hs
    obtain ⟨t, hnext, ht⟩ := Option.map_eq_some_iff.mp hs
    obtain ⟨⟨hb, hfull, hlow⟩, hleft⟩ := of_decide_eq_true ht
    have hrefuses : s.Refuses p .eleventh 14 := ⟨hp, hb, rfl, hfull⟩
    have hlater := PollServer.reach_loop hnext
    obtain ⟨hle, hlost⟩ := hpoll s (PollServer.reach_loop hrun)
    exact ⟨s, t, p, hrefuses, hlater, hle, hleft, hlost p _ 14 hrefuses hlow t hlater⟩
  · have hlow : SelectServer.Lowest {0, 1, 2} ((SelectServer.start 3).watch.select fun _ => true)
        ⟨some 4, none⟩ := by
      intro c hc
      obtain rfl : 4 = c := Option.some.inj hc
      decide +kernel
    have hrun := (Relation.ReflTransGen.single (SelectServer.Loop.select (s := .start 3)
      (fun _ => true) (Nat.le_refl _))).tail (SelectServer.Loop.turn _ (by decide) hlow)
    exact ⟨_, by decide +kernel, (hselect _ hrun).1⟩

end LinuxStudy

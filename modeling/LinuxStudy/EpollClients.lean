import LinuxStudy.EpollEdges
import Mathlib.Data.List.Nodup

/-! Which clients of the epoll server are attended to, and which can be released
again. Only the read of an end closes a client, and nothing arms a client for
input a second time. -/

namespace LinuxStudy

namespace EpollServer

def Unanswered (s : EpollServer) : Act → Prop
  | .handle o =>
    match s.evs with
    | (jfd, .output) :: _ => jfd = s.listensock ∨ o.write = false
    | _ => True
  | .waitFails => s.live = []
  | _ => True

/-- A further request or the end of the client can be noticed, or the response
is still to be written. -/
def Attended (w : Watched) (answered : Bool) : Prop :=
  w.armed = some .input ∨ w.armed = some .output ∧ answered = false

structure Kept (s : EpollServer) : Prop where
  nodup : s.live.Nodup
  attended : ∀ c ∈ s.live, Attended (s.watched c) (s.answered c)

section Kept

variable {s t : EpollServer}

theorem Kept.setWatched (h : Kept s) {c : Sock} {w : Watched}
    (hw : w.armed = (s.watched c).armed) : Kept (s.setWatched c w) := by
  refine ⟨h.nodup, fun d hd => ?_⟩
  have hold := h.attended d hd
  by_cases hdc : d = c
  · subst d
    simpa [EpollServer.setWatched, Attended, hw] using hold
  · simpa [EpollServer.setWatched, hdc] using hold

theorem Kept.handle {jfd : Sock} {o : Outcomes} {i : Interest} (h : Kept s)
    (hh : Handled s jfd o i t) (hp : s.Possible jfd o i)
    (hu : i = .output → jfd = s.listensock ∨ o.write = false) : Kept t := by
  cases hh with
  | notAccepted | notRead | notWritten => exact h
  | refused hl ha => exact h.setWatched rfl
  | @accepted sock n ended hl ha =>
    have htaken : Kept (s.setWatched jfd ((s.watched jfd).take 1)) := h.setWatched rfl
    have hfresh : sock ∉ s.live := by
      simp only [Possible, if_pos hl, ha] at hp
      exact (hp sock rfl).2.2
    refine ⟨h.nodup.cons hfresh, fun d hd => ?_⟩
    by_cases hds : d = sock
    · subst d
      simp [EpollServer.setWatched, Attended, Watched.add]
    · have hmem : d ∈ s.live := (List.mem_cons.mp hd).resolve_left hds
      have hold := htaken.attended d hmem
      simpa [EpollServer.setWatched, hds] using hold
  | closed hl hr =>
    refine ⟨h.nodup.erase jfd, fun d hd => ?_⟩
    obtain ⟨hne, hmem⟩ := h.nodup.mem_erase_iff.mp hd
    simpa [EpollServer.setWatched, hne] using h.attended d hmem
  | armed hl hr hm =>
    refine ⟨h.nodup, fun d hd => ?_⟩
    by_cases hdj : d = jfd
    · subst d
      simp [EpollServer.setWatched, Attended, Watched.modOutput]
    · simpa [EpollServer.setWatched, hdj] using h.attended d hd
  | notArmed hl hr hm => exact h.setWatched rfl
  | written hl hw =>
    rcases hu rfl with hl' | hw'
    · exact absurd hl' hl
    · rw [hw'] at hw
      cases hw

theorem Kept.wait (h : Kept s) (evs : List (Sock × Interest)) : Kept (s.next (.wait evs)) := by
  refine ⟨h.nodup, fun d hd => ?_⟩
  simp only [EpollServer.next]
  split
  · exact h.attended d hd
  · exact h.attended d hd

theorem Kept.next (h : Kept s) {a : Act} (ha : s.Enabled a) (hu : s.Unanswered a) :
    Kept (s.next a) := by
  cases a with
  | arrive c n => exact h.setWatched rfl
  | hangUp c => exact h.setWatched rfl
  | drained c => exact h.setWatched rfl
  | wait evs => exact h.wait evs
  | waitFails =>
    have hnone : s.live = [] := hu
    refine ⟨h.nodup, fun d hd => ?_⟩
    rw [show (s.next .waitFails).live = s.live from rfl, hnone] at hd
    cases hd
  | handle o =>
    obtain ⟨listensock, polling, watched, live, answered, evs⟩ := s
    cases evs with
    | nil => exact ha.elim
    | cons e evs =>
      obtain ⟨jfd, i⟩ := e
      have hkept : Kept ⟨listensock, polling, watched, live, answered, evs⟩ :=
        ⟨h.nodup, h.attended⟩
      refine hkept.handle (handled _ jfd o i) ha ?_
      rintro rfl
      exact hu

end Kept

/-- Nobody sends anything before it closes, no failing `read` uses up the report
of an end, and `epoll_wait` does not fail while a client is connected. -/
def Silent (s : EpollServer) : Act → Prop
  | .arrive c _ => c = s.listensock
  | .handle o =>
    match s.evs with
    | (jfd, .input) :: _ =>
      if jfd = s.listensock then ∀ x ∈ o.accept, x.2.1 = 0
      else (s.watched jfd).ended = true → o.read ≠ none
    | _ => True
  | .waitFails => s.live = []
  | _ => True

/-- A peer closes once. -/
def Once (s : EpollServer) : Act → Prop
  | .hangUp c => (s.watched c).ended = false
  | _ => True

/-- The end of the client will be read, or has been and is reported. -/
def Awaited (w : Watched) (reported : Prop) : Prop :=
  w.armed = some .input ∧ w.queued = 0 ∧ (w.ended = true → w.due = true ∨ reported)

structure Closable (s : EpollServer) : Prop where
  nodup : s.live.Nodup
  listens : s.listensock ∉ s.live
  polls : s.polling = true ∨ s.live = [] ∧ s.evs = []
  awaited : ∀ c ∈ s.live, Awaited (s.watched c) ((c, .input) ∈ s.evs)

section Closable

variable {s t : EpollServer} {c jfd : Sock} {o : Outcomes} {i : Interest}

theorem Closable.setWatched (h : Closable s) {w : Watched}
    (hw : c ∈ s.live → Awaited w ((c, .input) ∈ s.evs)) : Closable (s.setWatched c w) := by
  refine ⟨h.nodup, h.listens, h.polls, fun d hd => ?_⟩
  by_cases hdc : d = c
  · subst d
    simpa [EpollServer.setWatched] using hw hd
  · simpa [EpollServer.setWatched, hdc] using h.awaited d hd

theorem Closable.polling (h : Closable { s with evs := (jfd, i) :: s.evs }) : s.polling = true :=
  h.polls.resolve_right fun he => List.cons_ne_nil _ _ he.2

theorem Closable.rest (h : Closable { s with evs := (jfd, i) :: s.evs }) {d : Sock}
    (hd : d ∈ s.live) (hne : d ≠ jfd ∨ i = .output) :
    Awaited (s.watched d) ((d, .input) ∈ s.evs) := by
  obtain ⟨harmed, hqueued, htold⟩ := h.awaited d hd
  refine ⟨harmed, hqueued, fun hended => (htold hended).imp_right fun hmem => ?_⟩
  refine (List.mem_cons.mp hmem).resolve_left fun he => ?_
  obtain ⟨rfl, rfl⟩ := Prod.mk.inj he
  rcases hne with hne | hne
  · exact hne rfl
  · cases hne

/-- The report is dropped; it was not the end of a client. -/
theorem Closable.drop (h : Closable { s with evs := (jfd, i) :: s.evs })
    (hne : jfd ∉ s.live ∨ i = .output) : Closable s :=
  ⟨h.nodup, h.listens, .inl h.polling,
    fun _ hd => h.rest hd (hne.imp_left fun hnot heq => hnot (heq ▸ hd))⟩

theorem Closable.not_read (h : Closable { s with evs := (jfd, i) :: s.evs }) {size : Nat}
    (hl : jfd ≠ s.listensock) (hp : s.Possible jfd o .input) (hr : o.read = some (size + 1)) :
    jfd ∉ s.live := by
  intro hlive
  have hqueued : (s.watched jfd).queued = 0 := (h.awaited jfd hlive).2.1
  simp only [Possible, if_neg hl] at hp
  have hle := (hp (size + 1) hr).2.1
  omega

theorem Closable.closed (h : Closable { s with evs := (jfd, i) :: s.evs }) :
    Closable { s.setWatched jfd .unwatched with live := s.live.erase jfd } := by
  refine ⟨h.nodup.erase jfd, fun hmem => h.listens (List.mem_of_mem_erase hmem), .inl h.polling,
    fun d hd => ?_⟩
  obtain ⟨hne, hmem⟩ := h.nodup.mem_erase_iff.mp hd
  simpa [EpollServer.setWatched, hne] using h.rest hmem (.inl hne)

theorem Closable.join (h : Closable s) (hpolls : s.polling = true) {sock : Sock} {ended : Bool}
    (hsock : sock ≠ s.listensock) (hfresh : sock ∉ s.live) :
    Closable { s.setWatched sock (.add 0 ended) with
      live := sock :: s.live
      answered := Function.update s.answered sock false } := by
  refine ⟨h.nodup.cons hfresh, List.not_mem_cons_of_ne_of_not_mem hsock.symm h.listens,
    .inl hpolls, fun d hd => ?_⟩
  by_cases hds : d = sock
  · subst d
    simp only [EpollServer.setWatched, Function.update_self]
    exact ⟨rfl, rfl, .inl⟩
  · have hmem : d ∈ s.live := (List.mem_cons.mp hd).resolve_left hds
    simpa [EpollServer.setWatched, hds] using h.awaited d hmem

theorem Closable.handle (h : Closable { s with evs := (jfd, i) :: s.evs })
    (hh : Handled s jfd o i t) (hp : s.Possible jfd o i)
    (hs : Silent { s with evs := (jfd, i) :: s.evs } (.handle o)) : Closable t := by
  have hlisten : jfd = s.listensock → jfd ∉ s.live := fun heq hmem => h.listens (heq ▸ hmem)
  cases hh with
  | notAccepted hl ha => exact h.drop (.inl (hlisten hl))
  | notWritten => exact h.drop (.inr rfl)
  | written =>
    have hsame := h.drop (.inr rfl)
    exact ⟨hsame.nodup, hsame.listens, hsame.polls, hsame.awaited⟩
  | refused hl ha =>
    exact (h.drop (.inl (hlisten hl))).setWatched fun hlive => absurd hlive (hlisten hl)
  | @accepted sock n ended hl ha =>
    have htaken := (h.drop (.inl (hlisten hl))).setWatched (w := (s.watched jfd).take 1)
      fun hlive => absurd hlive (hlisten hl)
    simp only [Possible, if_pos hl, ha] at hp
    obtain ⟨-, hsock, hfresh⟩ := hp sock rfl
    simp only [Silent, if_pos hl, ha] at hs
    obtain rfl : n = 0 := hs _ rfl
    exact htaken.join h.polling hsock hfresh
  | notRead hl hr =>
    simp only [Silent, if_neg hl, hr] at hs
    refine ⟨h.nodup, h.listens, .inl h.polling, fun d hd => ?_⟩
    by_cases hdj : d = jfd
    · subst d
      obtain ⟨harmed, hqueued, -⟩ := h.awaited jfd hd
      exact ⟨harmed, hqueued, fun hended => absurd rfl (hs hended)⟩
    · exact h.rest hd (.inl hdj)
  | closed hl hr => exact h.closed
  | @armed size hl hr hm =>
    have hgone := h.not_read hl hp hr
    have hsame := (h.drop (.inl hgone)).setWatched
      (w := ((s.watched jfd).take (size + 1)).modOutput o.room) fun hlive => absurd hlive hgone
    exact ⟨hsame.nodup, hsame.listens, hsame.polls, hsame.awaited⟩
  | notArmed hl hr hm =>
    have hgone := h.not_read hl hp hr
    exact (h.drop (.inl hgone)).setWatched fun hlive => absurd hlive hgone

theorem Closable.wait {evs : List (Sock × Interest)} (h : Closable s)
    (he : s.Enabled (.wait evs)) : Closable (s.next (.wait evs)) := by
  obtain ⟨hpolls, hnil, -, -, -, hdue⟩ := he
  refine ⟨h.nodup, h.listens, .inl hpolls, fun d hd => ?_⟩
  obtain ⟨harmed, hqueued, htold⟩ := h.awaited d hd
  simp only [EpollServer.next]
  split
  · rename_i hmem
    obtain ⟨⟨d', i⟩, he, rfl⟩ := List.mem_map.mp hmem
    have hi : (s.watched d').armed = some i := (hdue _ he).2
    obtain rfl : Interest.input = i := Option.some.inj (harmed.symm.trans hi)
    exact ⟨harmed, hqueued, fun _ => .inr he⟩
  · rw [hnil] at htold
    exact ⟨harmed, hqueued, fun hended => .inl ((htold hended).resolve_right List.not_mem_nil)⟩

theorem Closable.next (h : Closable s) {a : Act} (ha : s.Enabled a) (hs : s.Silent a) :
    Closable (s.next a) := by
  cases a with
  | arrive c n =>
    have hsock : c = s.listensock := hs
    exact h.setWatched fun hlive => absurd (hsock ▸ hlive) h.listens
  | hangUp c =>
    refine h.setWatched fun hlive => ?_
    obtain ⟨harmed, hqueued, -⟩ := h.awaited c hlive
    exact ⟨harmed, hqueued, fun _ => .inl (by simp [Watched.hangUp, harmed])⟩
  | drained c =>
    refine h.setWatched fun hlive => ?_
    obtain ⟨harmed, hqueued, htold⟩ := h.awaited c hlive
    exact ⟨harmed, hqueued, fun hended =>
      (htold hended).imp_left fun hdue => by simp [Watched.drained, hdue]⟩
  | wait evs => exact h.wait ha
  | waitFails =>
    have hnone : s.live = [] := hs
    have hidle : (s.next .waitFails).live = [] := hnone
    refine ⟨h.nodup, h.listens, .inr ⟨hnone, ha⟩, fun d hd => ?_⟩
    rw [hidle] at hd
    cases hd
  | handle o =>
    obtain ⟨listensock, polling, watched, live, answered, evs⟩ := s
    cases evs with
    | nil => exact ha.elim
    | cons e evs =>
      exact Closable.handle h (handled ⟨listensock, polling, watched, live, answered, evs⟩ e.1 o e.2)
        ha hs

end Closable

/-- The end of `c` has come, and will be read. -/
structure Closing (s : EpollServer) (c : Sock) : Prop where
  nodup : s.live.Nodup
  live : c ∈ s.live
  client : c ≠ s.listensock
  polls : s.polling = true
  ended : (s.watched c).ended = true
  awaited : Awaited (s.watched c) ((c, .input) ∈ s.evs)

section Closing

variable {s : EpollServer} {c : Sock} {evs : List (Sock × Interest)}

/-- All calls for a report fail. -/
def failing : Outcomes := ⟨none, true, none, true, true, false⟩

theorem next_failing {e : Sock × Interest} (hevs : s.evs = e :: evs) :
    s.Enabled (.handle failing) ∧ s.next (.handle failing) = { s with evs := evs } := by
  obtain ⟨d, i⟩ := e
  simp only [Enabled, EpollServer.next, hevs]
  cases i with
  | output =>
    refine ⟨trivial, ?_⟩
    rw [dispatch]
    split <;> rfl
  | input =>
    rw [Possible, dispatch]
    split
    · refine ⟨?_, rfl⟩
      rintro d ⟨⟩
    · refine ⟨?_, rfl⟩
      rintro n ⟨⟩

/-- The report of its end closes the client. -/
theorem Closing.close (h : Closing s c) (hevs : s.evs = (c, .input) :: evs) :
    ∃ t, Step Once s t ∧ c ∉ t.live := by
  have hpossible : s.Possible c (readOutcome 0) .input := by
    rw [Possible, if_neg h.client]
    rintro _ ⟨⟩
    exact ⟨Nat.zero_le _, Nat.zero_le _, fun _ => ⟨h.awaited.2.1, h.ended⟩⟩
  have henabled : s.Enabled (.handle (readOutcome 0)) := by
    simpa only [Enabled, hevs] using hpossible
  refine ⟨_, .act _ henabled trivial, ?_⟩
  simp only [EpollServer.next, hevs, dispatch, if_neg h.client]
  exact h.nodup.not_mem_erase

theorem Closing.wait (h : Closing s c) (hnil : s.evs = []) :
    s.Enabled (.wait [(c, .input)]) ∧ Closing (s.next (.wait [(c, .input)])) c := by
  obtain ⟨harmed, hqueued, htold⟩ := h.awaited
  have hdue := (htold h.ended).resolve_right (by rw [hnil]; exact List.not_mem_nil)
  refine ⟨⟨h.polls, hnil, List.cons_ne_nil _ _, by simp, by simp, by simp [hdue, harmed]⟩, ?_⟩
  refine ⟨h.nodup, h.live, h.client, h.polls, ?_, ?_⟩
  · simpa [EpollServer.next, Watched.reported] using h.ended
  · simp [EpollServer.next, Awaited, Watched.reported, harmed, hqueued]

/-- The loop goes on to the report that closes the client. -/
theorem Closing.released (h : Closing s c) : ∃ t, Reachable (Step Once) s t ∧ c ∉ t.live := by
  induction hevs : s.evs generalizing s with
  | nil =>
    obtain ⟨henabled, hnext⟩ := h.wait hevs
    obtain ⟨t, hst, hgone⟩ := hnext.close rfl
    exact ⟨t, (Relation.ReflTransGen.single (.act _ henabled trivial)).tail hst, hgone⟩
  | cons e evs ih =>
    by_cases he : e = (c, .input)
    · obtain ⟨t, hst, hgone⟩ := h.close (he ▸ hevs)
      exact ⟨t, .single hst, hgone⟩
    · obtain ⟨henabled, hnext⟩ := next_failing hevs
      have hst : Step Once s { s with evs := evs } := hnext ▸ .act _ henabled trivial
      obtain ⟨harmed, hqueued, htold⟩ := h.awaited
      rw [hevs] at htold
      have hrest : Closing { s with evs := evs } c := by
        refine ⟨h.nodup, h.live, h.client, h.polls, h.ended, harmed, hqueued, fun hended => ?_⟩
        exact (htold hended).imp_right fun hmem => (List.mem_cons.mp hmem).resolve_left (Ne.symm he)
      obtain ⟨t, ht, hgone⟩ := ih hrest rfl
      exact ⟨t, ht.head hst, hgone⟩

theorem Closable.released (h : Closable s) (hc : c ∈ s.live) :
    ∃ t, Reachable (Step Once) s t ∧ c ∉ t.live := by
  have hpolls : s.polling = true :=
    h.polls.resolve_right fun he => List.ne_nil_of_mem hc he.1
  have hne : c ≠ s.listensock := fun he => h.listens (he ▸ hc)
  cases hended : (s.watched c).ended with
  | true =>
    exact (Closing.mk h.nodup hc hne hpolls hended (h.awaited c hc)).released
  | false =>
    have hnext := h.next (a := .hangUp c) hc trivial
    have hclosing : Closing (s.next (.hangUp c)) c := by
      refine ⟨hnext.nodup, hc, hne, hpolls, ?_, hnext.awaited c hc⟩
      simp [EpollServer.next, EpollServer.setWatched, Watched.hangUp]
    obtain ⟨t, ht, hgone⟩ := hclosing.released
    exact ⟨t, ht.head (.act (.hangUp c) hc hended), hgone⟩

end Closing

structure Reports (s : EpollServer) : Prop where
  nodup : (s.evs.map Prod.fst).Nodup
  armed : ∀ c, (c, .input) ∈ s.evs → (s.watched c).armed = some .input

/-- No report of input will come for the client, nor is one still to be handled. -/
structure Deaf (s : EpollServer) (c : Sock) : Prop where
  live : c ∈ s.live
  armed : (s.watched c).armed ≠ some .input
  unreported : (c, .input) ∉ s.evs

section Deaf

variable {s t : EpollServer} {c jfd : Sock} {o : Outcomes} {i : Interest} {w : Watched}

theorem armed_setWatched (hw : w.armed = (s.watched c).armed) (d : Sock) :
    ((s.setWatched c w).watched d).armed = (s.watched d).armed := by
  by_cases hd : d = c
  · subst d
    simpa [setWatched] using hw
  · simp [setWatched, hd]

/-- Handling a report changes what one descriptor is armed for at most, and arms
for input only what was just accepted. -/
theorem Handled.rearms (hh : Handled s jfd o i t) (hp : s.Possible jfd o i) {d : Sock}
    (hd : d ≠ jfd) : (t.watched d).armed = (s.watched d).armed ∨
      d ∉ s.live ∧ (t.watched d).armed = some .input := by
  cases hh with
  | notAccepted | notRead | written | notWritten => exact .inl rfl
  | refused | notArmed =>
    refine .inl (armed_setWatched ?_ d)
    rfl
  | closed | armed =>
    refine .inl ?_
    simp [setWatched, hd]
  | @accepted sock n ended hl ha =>
    by_cases hds : d = sock
    · subst d
      simp only [Possible, if_pos hl, ha] at hp
      refine .inr ⟨(hp sock rfl).2.2, ?_⟩
      simp [setWatched, Watched.add]
    · refine .inl ?_
      simp [setWatched, hds, hd]

theorem Handled.output (hh : Handled s jfd o .output t) :
    t.watched = s.watched ∧ t.live = s.live := by
  cases hh <;> exact ⟨rfl, rfl⟩

theorem Handled.live (hh : Handled s jfd o i t) (hc : c ∈ s.live) (hne : c ≠ jfd) : c ∈ t.live := by
  cases hh with
  | accepted => exact List.mem_cons_of_mem _ hc
  | closed => exact (List.mem_erase_of_ne hne).mpr hc
  | _ => exact hc

theorem Reports.next (h : Reports s) {a : Act} (ha : s.Enabled a) : Reports (s.next a) := by
  have hset : ∀ c w, w.armed = (s.watched c).armed → Reports (s.setWatched c w) :=
    fun c w hw => ⟨h.nodup, fun d hd => (armed_setWatched hw d).trans (h.armed d hd)⟩
  cases a with
  | arrive c n => exact hset c _ rfl
  | hangUp c => exact hset c _ rfl
  | drained c => exact hset c _ rfl
  | wait evs =>
    obtain ⟨-, -, -, -, hnodup, hdue⟩ := ha
    refine ⟨hnodup, fun d hd => ?_⟩
    have hmem : d ∈ evs.map Prod.fst := List.mem_map_of_mem hd
    simp only [EpollServer.next, if_pos hmem]
    exact (hdue _ hd).2
  | waitFails =>
    have hnil : (s.next .waitFails).evs = [] := ha
    refine ⟨by rw [hnil]; exact List.nodup_nil, fun d hd => ?_⟩
    rw [hnil] at hd
    cases hd
  | handle o =>
    obtain ⟨listensock, polling, watched, live, answered, evs⟩ := s
    cases evs with
    | nil => exact ha.elim
    | cons e evs =>
      have hh := handled ⟨listensock, polling, watched, live, answered, evs⟩ e.1 o e.2
      have hnodup := List.nodup_cons.mp h.nodup
      refine ⟨?_, fun d hd => ?_⟩
      · simp only [EpollServer.next]
        rw [hh.evs]
        exact hnodup.2
      · simp only [EpollServer.next] at hd ⊢
        rw [hh.evs] at hd
        have hne : d ≠ e.1 := fun he => hnodup.1 (he ▸ List.mem_map_of_mem hd)
        rcases hh.rearms ha hne with hsame | hnew
        · exact hsame.trans (h.armed d (List.mem_cons_of_mem e hd))
        · exact hnew.2

/-- Nothing that happens lets a client be heard again. -/
theorem Deaf.next (h : Deaf s c) {a : Act} (ha : s.Enabled a) : Deaf (s.next a) c := by
  have hset : ∀ d w, w.armed = (s.watched d).armed → Deaf (s.setWatched d w) c :=
    fun d w hw => ⟨h.live, by rw [armed_setWatched hw]; exact h.armed, h.unreported⟩
  cases a with
  | arrive d n => exact hset d _ rfl
  | hangUp d => exact hset d _ rfl
  | drained d => exact hset d _ rfl
  | wait evs =>
    obtain ⟨-, -, -, -, -, hdue⟩ := ha
    refine ⟨h.live, ?_, fun hmem => h.armed (hdue _ hmem).2⟩
    simp only [EpollServer.next]
    split
    · exact h.armed
    · exact h.armed
  | waitFails =>
    refine ⟨h.live, ?_, h.unreported⟩
    rintro ⟨⟩
  | handle o =>
    obtain ⟨listensock, polling, watched, live, answered, evs⟩ := s
    cases evs with
    | nil => exact ha.elim
    | cons e evs =>
      obtain ⟨jfd, i⟩ := e
      have hh := handled ⟨listensock, polling, watched, live, answered, evs⟩ jfd o i
      obtain ⟨hfirst, hrest⟩ := not_or.mp (List.mem_cons.not.mp h.unreported)
      have hevs := (congrArg ((c, Interest.input) ∉ ·) hh.evs).mpr hrest
      by_cases hc : c = jfd
      · subst c
        cases i with
        | input => exact absurd rfl hfirst
        | output =>
          obtain ⟨hwatched, hlive⟩ := hh.output
          exact ⟨hlive ▸ h.live, by simpa only [EpollServer.next, hwatched] using h.armed, hevs⟩
      · refine ⟨hh.live h.live hc, ?_, hevs⟩
        rcases hh.rearms ha hc with hsame | hnew
        · simpa only [EpollServer.next, hsame] using h.armed
        · exact absurd h.live hnew.1

end Deaf

/-- In a run in which nobody sends anything, every open client is attended to and
can still be released; it stays attended to as long as no response is written.
Once a client is not armed for input, nothing releases it any more. -/
theorem client_attended (listensock : Sock) (n : Nat) :
    (∀ s, Reachable (Step Silent) (start listensock n) s → ∀ c ∈ s.live,
      Attended (s.watched c) (s.answered c) ∧ ∃ t, Reachable (Step Once) s t ∧ c ∉ t.live) ∧
    (∀ s, Reachable (Step Unanswered) (start listensock n) s → ∀ c ∈ s.live,
      Attended (s.watched c) (s.answered c)) ∧
    ∀ s, Reachable (Step fun _ _ => True) (start listensock n) s → ∀ c ∈ s.live,
      (s.watched c).armed ≠ some .input →
      ∀ t, Reachable (Step fun _ _ => True) s t → c ∈ t.live := by
  refine ⟨fun s h c hc => ?_, fun s h c hc => ?_, fun s h c hc harmed t ht => ?_⟩
  · have hs := h.invariant Closable ⟨List.nodup_nil, List.not_mem_nil, .inl rfl, nofun⟩
      fun a b ha hst => by
        cases hst with
        | act act he hok => exact ha.next he hok
    exact ⟨.inl (hs.awaited c hc).1, hs.released hc⟩
  · have hs := h.invariant Kept ⟨List.nodup_nil, nofun⟩ fun a b ha hst => by
      cases hst with
      | act act he hok => exact ha.next he hok
    exact hs.attended c hc
  · have hs := h.invariant Reports ⟨List.nodup_nil, nofun⟩ fun a b ha hst => by
      cases hst with
      | act act he hok => exact ha.next he
    have hdeaf := ht.invariant (Deaf · c) ⟨hc, harmed, fun hmem => harmed (hs.armed c hmem)⟩
      fun a b ha hst => by
        cases hst with
        | act act he hok => exact ha.next he
    exact hdeaf.live

theorem client_attended_one : ∃ s, Reachable (Step Silent) (start 3 1) s ∧ s.live = [4] ∧
    Attended (s.watched 4) (s.answered 4) ∧ ∃ t, Reachable (Step Once) s t ∧ 4 ∉ t.live := by
  have h1 : Reachable (Step Silent) (start 3 1) _ :=
    .single (.act (.wait [(3, .input)]) (by decide) trivial)
  have h2 := h1.tail (.act (.handle (acceptOutcome 4)) (by decide) (by rintro _ ⟨⟩; rfl))
  exact ⟨_, h2, rfl, (client_attended 3 1).1 _ h2 4 List.mem_cons_self⟩

theorem client_unattended :
    ¬ ∀ (listensock : Sock) (n : Nat) (s : EpollServer),
      Reachable (Step fun _ _ => True) (start listensock n) s →
      ∀ c ∈ s.live, (s.watched c).armed = some .input ∨
        (s.watched c).armed = some .output ∧ s.answered c = false := by
  intro h
  have h1 : Reachable (Step fun _ _ => True) (start 3 1) _ :=
    .single (.act (.wait [(3, .input)]) (by decide) trivial)
  have h2 := h1.tail (.act (.handle (acceptOutcome 4)) (by decide) trivial)
  have h3 := h2.tail (.act (.arrive 4 5) (by decide) trivial)
  have h4 := h3.tail (.act (.wait [(4, .input)]) (by decide) trivial)
  have h5 := h4.tail (.act (.handle (readOutcome 5)) (by decide) trivial)
  have h6 := h5.tail (.act (.wait [(4, .output)]) (by decide) trivial)
  have h7 := h6.tail (.act (.handle (readOutcome 5)) (by decide) trivial)
  have hattended := h 3 1 _ h7 4 List.mem_cons_self
  exact absurd hattended (by decide)

end EpollServer

end LinuxStudy

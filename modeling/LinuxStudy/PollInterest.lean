import LinuxStudy.PollTable

/-! Which clients the poll server polls for writability. The event mask of a
client is in the table, what it has to write is in its node: a turn changes both
together, but for the one that writes. -/

namespace LinuxStudy

namespace PollServer

/-- Exactly the clients that have something to write are polled for it. -/
def WriteInterest (s : PollServer) : Prop :=
  ∀ q ∈ s.pfd.tail, q.events &&& pollout ≠ 0 ↔ (s.user q.fd).datatowrite ≠ none

instance (s : PollServer) : Decidable s.WriteInterest :=
  inferInstanceAs (Decidable (∀ q ∈ s.pfd.tail, _))

/-- The half of it that no turn breaks. -/
def Asked (s : PollServer) : Prop :=
  ∀ q ∈ s.pfd.tail, (s.user q.fd).datatowrite ≠ none → q.events &&& pollout ≠ 0

/-- The turn writes a text that is pending, and `write` does not fail. -/
def Delivers (s : PollServer) (p : PollFd) (a : Answers) : Prop :=
  s.branch p = .output ∧ (s.user p.fd).datatowrite ≠ none ∧ a.write ≠ none

instance (s : PollServer) (p : PollFd) (a : Answers) : Decidable (s.Delivers p a) :=
  inferInstanceAs (Decidable (_ ∧ _))

def Undelivered (s : PollServer) (p : PollFd) (a : Answers) : Prop :=
  s.Fresh p a ∧ ¬ s.Delivers p a

instance (s : PollServer) (p : PollFd) (a : Answers) : Decidable (s.Undelivered p a) :=
  inferInstanceAs (Decidable (_ ∧ _))

/-- What a turn makes of a client that is in the table after it. -/
inductive Interest (s : PollServer) (p : PollFd) (a : Answers) (t : PollServer) (q : PollFd) : Prop
  | kept (q' : PollFd) (hq' : q' ∈ s.pfd.tail) (hevents : q.events = q'.events)
      (hdata : (t.user q.fd).datatowrite = (s.user q'.fd).datatowrite)
  | joined (hevents : q.events &&& pollout = 0) (hdata : (t.user q.fd).datatowrite = none)
  | told (hevents : q.events &&& pollout ≠ 0) (hdata : (t.user q.fd).datatowrite ≠ none)
  | delivered (hd : s.Delivers p a) (hdata : (t.user q.fd).datatowrite = none)

section Interest

variable {s t : PollServer} {r : Mask} {ps : List PollFd} {p q : PollFd} {a : Answers}

theorem or_and_of_disjoint (e : Mask) {k m : Mask} (h : k &&& m = 0) :
    (e ||| k) &&& m = e &&& m := by
  ext i hi
  have hbit := congrArg (·[i]) h
  simp at hbit ⊢
  grind

theorem delivered_events (e : Mask) :
    ((e ||| pollin) ||| ~~~pollout) &&& pollout = e &&& pollout := by
  rw [or_and_of_disjoint _ (by decide), or_and_of_disjoint _ (by decide)]

theorem told_events (e : Mask) : (e ||| pollout) &&& pollout ≠ 0 := by
  have habsorb : (e ||| pollout) &&& pollout = pollout := by
    rw [BitVec.and_comm]
    ext i hi
    simp
    grind
  rw [habsorb]
  decide

theorem joined_events : (pollin ||| pollerr ||| pollhup) &&& pollout = 0 := by
  decide

theorem Table.accept_interest (h : Table s r ps) (hf : s.Fresh p a)
    (hq : q ∈ (s.acceptClient a.accept).pfd.tail) :
    Interest s p a (s.acceptClient a.accept) q := by
  cases ha : a.accept with
  | none =>
    rw [ha] at hq
    exact .kept q hq rfl rfl
  | some c =>
    rw [ha] at hq
    by_cases hfull : s.pfd.length = userSize + 1
    · rw [acceptClient, if_pos hfull] at hq ⊢
      exact .kept q hq rfl rfl
    · rw [acceptClient, if_neg hfull] at hq ⊢
      simp only [h.pfd, List.cons_append, List.tail_cons, List.mem_append,
        List.mem_singleton] at hq
      rcases hq with hq | rfl
      · have hmem : q.fd ∈ s.live := h.tracks.subperm.subset (List.mem_map_of_mem hq)
        have hne : q.fd ≠ c := fun hc => (hf c ha).2 (hc ▸ hmem)
        refine .kept q (by rwa [h.pfd]) rfl ?_
        rw [Users.setPointer_datatowrite, if_neg hne]
      · refine .joined joined_events ?_
        rw [Users.setPointer_datatowrite, if_pos rfl]

/-- The node is copied to the socket that leaves, which no one else in the table has. -/
theorem Table.leave_interest (h : Table s r ps) {i : Nat} (hj : s.j = i + 1)
    (hp : ps[i]? = some p) {user : Users}
    (huser : ∀ c, (user c).datatowrite = (s.user c).datatowrite)
    (hq : q ∈ (PollServer.leave { s with user := user } p).pfd.tail) :
    Interest s p a (PollServer.leave { s with user := user } p) q := by
  obtain ⟨last, -, heq⟩ := h.leave_eq hj hp user
  rw [heq] at hq ⊢
  have hmem : q ∈ moveLast ps i := hq
  have hperm := moveLast_perm hp
  have hnodup := (hperm.map PollFd.fd).nodup_iff.mp h.tracks.nodup
  have hfd : q.fd ≠ p.fd := fun hfd =>
    (List.nodup_cons.mp hnodup).1 (hfd ▸ List.mem_map_of_mem hmem)
  refine .kept q (by rw [h.pfd]; exact hperm.mem_iff.mpr (List.mem_cons_of_mem _ hmem)) rfl ?_
  have hnode : Function.update user p.fd (user last.fd) q.fd = user q.fd :=
    Function.update_of_ne hfd ..
  exact (congrArg ClientNode.datatowrite hnode).trans (huser q.fd)

theorem Table.read_interest (h : Table s r ps) {i : Nat} (hj : s.j = i + 1)
    (hp : ps[i]? = some p) (read : Option (List Byte))
    (hq : q ∈ (s.readClient p read).pfd.tail) : Interest s p a (s.readClient p read) q := by
  rcases read with - | - | ⟨b, text⟩
  · exact .kept q hq rfl (Users.setBuf_datatowrite ..)
  · exact h.leave_interest hj hp (fun c => Users.setBuf_datatowrite ..) hq
  · simp only [readClient, h.pfd, askWrites, List.tail_cons] at hq
    obtain ⟨q', hq', rfl⟩ := List.mem_map.mp hq
    have hdata : ((s.readClient p (some (b :: text))).user q'.fd).datatowrite =
        if q'.fd ≠ p.fd then some p.fd else (s.user q'.fd).datatowrite := by
      simp only [readClient, h.pfd, List.tail_cons, tellOthers_datatowrite,
        Users.setBuf_datatowrite, List.mem_map_of_mem hq', and_true]
    by_cases hfd : p.fd = q'.fd
    · have hask : askWrite p.fd q' = q' := if_neg (not_not.mpr hfd)
      rw [hask]
      refine .kept q' (by rwa [h.pfd]) rfl ?_
      rw [hdata, if_neg (not_not.mpr hfd.symm)]
    · have hask : (askWrite p.fd q').events = (q'.events ||| ~~~pollin) ||| pollout := by
        rw [askWrite, if_pos hfd]
      refine .told (by rw [hask]; exact told_events _) ?_
      rw [askWrite_fd, hdata, if_pos (Ne.symm hfd)]
      exact Option.some_ne_none _

theorem Table.write_interest (h : Table s r ps) {i : Nat} (hj : s.j = i + 1)
    (hb : s.branch p = .output)
    (hq : q ∈ (s.writeClient p a.write).pfd.tail) :
    Interest s p a (s.writeClient p a.write) q := by
  cases hdata : (s.user p.fd).datatowrite with
  | none =>
    simp only [writeClient, hdata] at hq ⊢
    exact .kept q hq rfl rfl
  | some b =>
    cases hwrite : a.write with
    | none =>
      rw [hwrite] at hq
      simp only [writeClient, hdata] at hq ⊢
      exact .kept q hq rfl rfl
    | some n =>
      rw [hwrite] at hq
      simp only [writeClient, hdata] at hq ⊢
      have hd : s.Delivers p a := ⟨hb, by simp [hdata], by simp [hwrite]⟩
      by_cases hfd : q.fd = p.fd
      · exact .delivered hd (by simp [hfd])
      · rw [h.pfd, hj, List.set_cons_succ, List.tail_cons] at hq
        rcases List.mem_or_eq_of_mem_set hq with hmem | rfl
        · exact .kept q (by rwa [h.pfd]) rfl (by simp [hfd])
        · exact absurd rfl hfd

theorem Table.interest (h : Table s r ps) (hp : s.pfd[s.j]? = some p) (hf : s.Fresh p a)
    (hq : q ∈ (s.turn p a).pfd.tail) : Interest s p a (s.turn p a) q := by
  have hcase := h.turn_cases hp a
  generalize s.turn p a = t at hcase hq ⊢
  cases hcase with
  | accept => exact h.accept_interest hf hq
  | skip => exact .kept q hq rfl rfl
  | hangup i hj hpi => exact h.leave_interest hj hpi (fun _ => rfl) hq
  | input i hj hpi => exact h.read_interest hj hpi a.read hq
  | output i hj _ hb => exact h.write_interest hj hb hq

theorem Asked.turn (hs : s.Asked) (h : Table s r ps) (hp : s.pfd[s.j]? = some p)
    (hf : s.Fresh p a) : (s.turn p a).Asked := by
  intro q hq hdata
  cases h.interest hp hf hq with
  | kept q' hq' hevents hsame =>
    rw [hevents]
    exact hs q' hq' (hsame ▸ hdata)
  | joined _ hnone => exact absurd hnone hdata
  | told hevents => exact hevents
  | delivered _ hnone => exact absurd hnone hdata

theorem WriteInterest.turn (hw : s.WriteInterest) (h : Table s r ps) (hp : s.pfd[s.j]? = some p)
    (ha : s.Undelivered p a) : (s.turn p a).WriteInterest := by
  intro q hq
  cases h.interest hp ha.1 hq with
  | kept q' hq' hevents hdata =>
    rw [hevents, hdata]
    exact hw q' hq'
  | joined hevents hdata => exact iff_of_false (not_not.mpr hevents) (not_not.mpr hdata)
  | told hevents hdata => exact iff_of_true hevents hdata
  | delivered hd => exact absurd hd ha.2

theorem Asked.delivered (hs : s.Asked) (h : Table s r ps) (hp : s.pfd[s.j]? = some p)
    (hd : s.Delivers p a) : ¬ (s.turn p a).WriteInterest := by
  obtain ⟨hb, hdata, hwrite⟩ := hd
  obtain ⟨i, hj, hpi⟩ := h.client hp (.inr (.inr hb))
  obtain ⟨hi, -⟩ := List.getElem?_eq_some_iff.mp hpi
  obtain ⟨b, hptr⟩ := Option.ne_none_iff_exists'.mp hdata
  obtain ⟨n, hn⟩ := Option.ne_none_iff_exists'.mp hwrite
  have hasked := hs p (by rw [h.pfd]; exact List.mem_of_getElem? hpi) hdata
  have hturn : s.turn p a = s.writeClient p (some n) := by rw [PollServer.turn, hb, hn]
  rw [hturn]
  simp only [writeClient, hptr]
  intro ht
  have hq := ht { p with events := (p.events ||| pollin) ||| ~~~pollout } (by
    simp only [h.pfd, hj, List.set_cons_succ, List.tail_cons]
    exact List.mem_set hi _)
  rw [delivered_events] at hq
  refine hq.mp hasked ?_
  simp

theorem mem_report {rs : List Mask} (h : q ∈ ps.zipWith report rs) :
    ∃ q' ∈ ps, q.fd = q'.fd ∧ q.events = q'.events := by
  rw [← List.map_uncurry_zip_eq_zipWith] at h
  obtain ⟨⟨q', r⟩, hmem, rfl⟩ := List.mem_map.mp h
  exact ⟨q', (List.of_mem_zip hmem).1, rfl, rfl⟩

theorem Table.poll_interest (h : Table s r ps) {revents : List Mask} (hp : s.Polled revents)
    (hq : q ∈ (s.poll revents).pfd.tail) :
    ∃ q' ∈ s.pfd.tail, q.fd = q'.fd ∧ q.events = q'.events := by
  obtain ⟨r', rs, rfl, -⟩ := hp.cons h.pfd
  rw [PollServer.poll, h.pfd] at hq
  rw [h.pfd]
  exact mem_report hq

theorem Asked.poll (hs : s.Asked) (h : Table s r ps) {revents : List Mask}
    (hp : s.Polled revents) : (s.poll revents).Asked := by
  intro q hq
  obtain ⟨q', hq', hfd, hevents⟩ := h.poll_interest hp hq
  rw [hevents, hfd]
  exact hs q' hq'

theorem WriteInterest.poll (hw : s.WriteInterest) (h : Table s r ps) {revents : List Mask}
    (hp : s.Polled revents) : (s.poll revents).WriteInterest := by
  intro q hq
  obtain ⟨q', hq', hfd, hevents⟩ := h.poll_interest hp hq
  rw [hevents, hfd]
  exact hw q' hq'

end Interest

section Run

variable {listensock : Sock} {user : Users} {s : PollServer}

theorem asked_reachable (h : Reachable (Loop Fresh) (start listensock user) s) :
    (∃ r ps, Table s r ps) ∧ s.Asked :=
  table_invariant (fun _ _ _ hf => hf) Asked h nofun (fun ht hs hp => hs.poll ht hp)
    fun ht hs hp hf => hs.turn ht hp hf

theorem writeInterest_reachable (h : Reachable (Loop Undelivered) (start listensock user) s) :
    (∃ r ps, Table s r ps) ∧ s.WriteInterest :=
  table_invariant (fun _ _ _ ha => ha.1) WriteInterest h nofun (fun ht hw hp => hw.poll ht hp)
    fun ht hw hp ha => hw.turn ht hp ha

/-- In every run in which no text is delivered, the clients with something to
write are the ones polled for it, and in any run it fails after a delivery. -/
theorem interest_matches_pending (listensock : Sock) (user : Users) :
    (∀ s, Reachable (Loop Undelivered) (start listensock user) s → s.WriteInterest) ∧
      ∀ s, Reachable (Loop Fresh) (start listensock user) s →
        ∀ p a, s.pfd[s.j]? = some p → s.Delivers p a → ¬ (s.turn p a).WriteInterest := by
  refine ⟨fun s h => (writeInterest_reachable h).2, fun s h p a hp hd => ?_⟩
  obtain ⟨⟨r, ps, ht⟩, hs⟩ := asked_reachable h
  exact hs.delivered ht hp hd

end Run

/-- Two clients join, the first sends a line, the second is writable. -/
def lineForSecond : List Input :=
  [.poll [pollin], .turn ⟨some 4, none, none⟩, .turn ⟨none, none, none⟩,
    .poll [pollin, 0], .turn ⟨some 5, none, none⟩, .turn ⟨none, none, none⟩,
    .turn ⟨none, none, none⟩,
    .poll [0, pollin, 0], .turn ⟨none, none, none⟩, .turn ⟨none, some (bytes "hi\n"), none⟩,
    .turn ⟨none, none, none⟩,
    .poll [0, 0, pollout], .turn ⟨none, none, none⟩, .turn ⟨none, none, none⟩]

theorem interest_matches_pending_two : ∃ (s : PollServer) (p : PollFd),
    s.pfd.tail.map (fun q => (q.fd, q.events &&& pollout, (s.user q.fd).datatowrite)) =
        [(4, 0, none), (5, pollout, some 4)] ∧
      s.WriteInterest ∧ ¬ (s.turn p ⟨none, none, some 2⟩).WriteInterest := by
  obtain ⟨hquiet, hdelivery⟩ := interest_matches_pending 3 fun _ => ⟨none, []⟩
  have hlast : (loop Undelivered lineForSecond (start 3 fun _ => ⟨none, []⟩)).map (fun s =>
      (s.pfd.tail.map (fun q => (q.fd, q.events &&& pollout, (s.user q.fd).datatowrite)),
        (s.pfd[s.j]?).map fun p => decide (s.Delivers p ⟨none, none, some 2⟩))) =
      some ([(4, 0, none), (5, pollout, some 4)], some true) := by
    decide +kernel
  obtain ⟨s, hrun, hs⟩ := Option.map_eq_some_iff.mp hlast
  obtain ⟨hclients, hnext⟩ := Prod.mk.inj hs
  obtain ⟨p, hp, hd⟩ := Option.map_eq_some_iff.mp hnext
  have hreach := reach_loop hrun
  refine ⟨s, p, hclients, hquiet s hreach, ?_⟩
  exact hdelivery s (reach_mono (fun _ _ _ ha => ha.1) hreach) p _ hp (of_decide_eq_true hd)

theorem polled_after_delivery :
    ¬ ∀ (listensock : Sock) (user : Users) (s : PollServer),
      Reachable (Loop Fresh) (start listensock user) s → s.pfd.length ≤ s.j → s.WriteInterest := by
  intro h
  have hlast : (loop Fresh (lineForSecond ++ [.turn ⟨none, none, some 2⟩])
      (start 3 fun _ => ⟨none, []⟩)).map (fun s =>
        decide (s.pfd.length ≤ s.j ∧ ¬ s.WriteInterest)) = some true := by
    decide +kernel
  obtain ⟨s, hrun, hs⟩ := Option.map_eq_some_iff.mp hlast
  obtain ⟨hscan, hw⟩ := of_decide_eq_true hs
  exact hw (h 3 _ s (reach_loop hrun) hscan)

end PollServer

end LinuxStudy

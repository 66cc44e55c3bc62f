import LinuxStudy.EpollServer

/-! What the epoll server may lose sight of: connections that arrive together,
of which one report lets in one. -/

namespace LinuxStudy

namespace EpollServer

/-- A report is handled so that no input is left without a further report: of the
listening socket with no more than the connection it lets in, of a client by
arming it for output, closing it or reading all there is. -/
def Drains (s : EpollServer) : Act → Prop
  | .handle o =>
    match s.evs with
    | (jfd, .input) :: _ =>
      (s.watched jfd).due = true ∨
        if jfd = s.listensock then (s.watched jfd).queued ≤ o.accept.isSome.toNat
        else match o.read with
          | none => (s.watched jfd).queued = 0
          | some size => size = 0 ∨ o.mod = true ∨ (s.watched jfd).queued ≤ size
    | _ => True
  | _ => True

/-- Nothing is queued that no report is to tell of: neither one that is due nor
one that is still to be handled. -/
def Pending (watched : Sock → Watched) (evs : List (Sock × Interest)) : Prop :=
  ∀ c, (watched c).Noticed ∨ (c, .input) ∈ evs

section Pending

variable {watched : Sock → Watched} {evs : List (Sock × Interest)} {c : Sock} {w : Watched}

theorem Pending.set (h : ∀ d, d ≠ c → (watched d).Noticed ∨ (d, .input) ∈ evs)
    (hw : w.Noticed ∨ (c, .input) ∈ evs) : Pending (Function.update watched c w) evs := by
  intro d
  by_cases hd : d = c
  · subst d
    rwa [Function.update_self]
  · rw [Function.update_of_ne hd]
    exact h d hd

theorem pending_start (listensock : Sock) (n : Nat) :
    Pending (start listensock n).watched (start listensock n).evs :=
  .set (fun _ _ => .inl (Watched.noticed_of_empty rfl)) (.inl (Watched.noticed_add n false))

theorem Pending.wait {s : EpollServer} (h : Pending s.watched s.evs)
    (he : s.Enabled (.wait evs)) :
    Pending (s.next (.wait evs)).watched (s.next (.wait evs)).evs := by
  obtain ⟨-, hnil, -, -, -, hdue⟩ := he
  intro c
  simp only [EpollServer.next]
  split
  · rename_i hmem
    obtain ⟨⟨d, i⟩, he, rfl⟩ := List.mem_map.mp hmem
    cases i with
    | input => exact .inr he
    | output =>
      refine .inl (Watched.noticed_of_not_input fun ha => ?_)
      have harmed : (s.watched d).armed = some .output := (hdue _ he).2
      have hinput : (s.watched d).armed = some .input := ha
      rw [harmed] at hinput
      cases hinput
  · have hold := h c
    rw [hnil] at hold
    exact .inl (hold.resolve_right List.not_mem_nil)

theorem Pending.handle {s t : EpollServer} {jfd : Sock} {o : Outcomes} {i : Interest}
    (h : Pending s.watched ((jfd, i) :: s.evs)) (hh : Handled s jfd o i t)
    (hd : Drains { s with evs := (jfd, i) :: s.evs } (.handle o)) : Pending t.watched s.evs := by
  have hrest : ∀ d, d ≠ jfd → (s.watched d).Noticed ∨ (d, .input) ∈ s.evs := by
    intro d hne
    refine (h d).imp_right fun hmem => ?_
    rcases List.mem_cons.mp hmem with he | hmem
    · exact absurd (Prod.mk.inj he).1 hne
    · exact hmem
  have hsame : i = .output → Pending s.watched s.evs := by
    rintro rfl d
    refine (h d).imp_right fun hmem => ?_
    rcases List.mem_cons.mp hmem with he | hmem
    · exact absurd (Prod.mk.inj he).2 (by decide)
    · exact hmem
  have hself : (s.watched jfd).Noticed → Pending s.watched s.evs := by
    intro hn d
    by_cases hd : d = jfd
    · exact .inl (hd ▸ hn)
    · exact hrest d hd
  cases hh with
  | notAccepted hl ha =>
    simp only [Drains, if_pos hl, ha] at hd
    exact hself (Watched.noticed_of_due_or_empty (hd.imp_right Nat.le_zero.mp))
  | refused hl ha =>
    simp only [Drains, if_pos hl, ha] at hd
    exact .set hrest (.inl (Watched.noticed_take hd))
  | accepted hl ha =>
    simp only [Drains, if_pos hl, ha] at hd
    have htaken : Pending (Function.update s.watched jfd ((s.watched jfd).take 1)) s.evs :=
      .set hrest (.inl (Watched.noticed_take hd))
    exact .set (fun d _ => htaken d) (.inl (Watched.noticed_add _ _))
  | notRead hl hr =>
    simp only [Drains, if_neg hl, hr] at hd
    exact hself (Watched.noticed_of_due_or_empty hd)
  | closed hl hr => exact .set hrest (.inl (Watched.noticed_of_empty rfl))
  | armed hl hr hm => exact .set hrest (.inl (Watched.noticed_modOutput _ _))
  | notArmed hl hr hm =>
    simp only [Drains, if_neg hl, hr, hm] at hd
    refine .set hrest (.inl (Watched.noticed_take (hd.imp_right fun hle => ?_)))
    simpa using hle
  | written hl hw => exact hsame rfl
  | notWritten hw => exact hsame rfl

theorem Pending.next {s : EpollServer} (h : Pending s.watched s.evs) {a : Act} (ha : s.Enabled a)
    (hd : s.Drains a) : Pending (s.next a).watched (s.next a).evs := by
  cases a with
  | arrive c n => exact .set (fun d _ => h d) (.inl (Watched.noticed_arrive _ n))
  | hangUp c => exact .set (fun d _ => h d) (.inl (Watched.noticed_hangUp _))
  | drained c => exact .set (fun d _ => h d) ((h c).imp_left Watched.Noticed.drained)
  | wait evs => exact h.wait ha
  | waitFails => exact fun c => .inl (Watched.noticed_disarm _)
  | handle o =>
    obtain ⟨listensock, polling, watched, live, answered, evs⟩ := s
    cases evs with
    | nil => exact ha.elim
    | cons e evs =>
      have hh := handled ⟨listensock, polling, watched, live, answered, evs⟩ e.1 o e.2
      have hp : Pending _ evs := Pending.handle h hh hd
      simp only [EpollServer.next]
      rw [hh.evs]
      exact hp

end Pending

/-- In every run whose reports are all handled so, no connection and no input is
left that no report will tell of. -/
theorem no_lost_edge {listensock : Sock} {n : Nat} {s : EpollServer}
    (h : Reachable (Step Drains) (start listensock n) s) (hwait : s.evs = []) (c : Sock)
    (harmed : (s.watched c).armed = some .input) (hqueued : 0 < (s.watched c).queued) :
    (s.watched c).due = true := by
  have hp := h.invariant (fun s => Pending s.watched s.evs) (pending_start listensock n)
    fun a b ha hst => by
      cases hst with
      | act act he hok => exact ha.next he hok
  rw [hwait] at hp
  exact (hp c).resolve_right List.not_mem_nil harmed hqueued

def acceptOutcome (sock : Sock) : Outcomes := ⟨some (sock, 0, false), true, none, true, true, true⟩

def readOutcome (size : Nat) : Outcomes := ⟨none, true, some size, true, true, true⟩

theorem no_lost_edge_one : ∃ s, Reachable (Step Drains) (start 3 1) s ∧ s.live = [4] ∧
    (s.watched 4).queued = 5 ∧ (s.watched 4).due = true := by
  have h1 : Reachable (Step Drains) (start 3 1) _ :=
    .single (.act (.wait [(3, .input)]) (by decide) trivial)
  have h2 := h1.tail (.act (.handle (acceptOutcome 4)) (by decide) (.inr (Nat.le_refl 1)))
  have h3 := h2.tail (.act (.arrive 4 5) (by decide) trivial)
  exact ⟨_, h3, rfl, rfl, no_lost_edge h3 rfl 4 rfl (Nat.zero_lt_succ 4)⟩

theorem lost_edge :
    ¬ ∀ (listensock : Sock) (n : Nat) (s : EpollServer),
      Reachable (Step fun _ _ => True) (start listensock n) s → s.evs = [] →
      ∀ c, (s.watched c).armed = some .input → 0 < (s.watched c).queued →
        (s.watched c).due = true := by
  intro h
  have h1 : Reachable (Step fun _ _ => True) (start 3 0) _ :=
    .single (.act (.arrive 3 1) (by decide) trivial)
  have h2 := h1.tail (.act (.arrive 3 1) (by decide) trivial)
  have h3 := h2.tail (.act (.wait [(3, .input)]) (by decide) trivial)
  have h4 := h3.tail (.act (.handle (acceptOutcome 4)) (by decide) trivial)
  have hdue := h 3 0 _ h4 rfl 3 rfl (by decide)
  exact absurd hdue (by decide)

end EpollServer

end LinuxStudy

import Mathlib.Data.List.Nodup
import LinuxStudy.PollServer
import LinuxStudy.TransitionSystem

/-! Delivery in the poll server. Whoever is told of a line gets a pointer into
the buffer of the client it came from, so a line survives only until that
buffer or the pointer is used again. -/

namespace LinuxStudy

def WholeLine (read : List Byte) : Prop :=
  read = [] ∨ (read.getLast? = some lf ∧ 0 ∉ read ∧ lf ∉ read.dropLast ∧ read.length < writeSize)

instance (read : List Byte) : Decidable (WholeLine read) := inferInstanceAs (Decidable (_ ∨ _))

namespace PollServer

/-- `accept` returns a descriptor that is not open, `read` a line or
end-of-file, and `write` takes everything. -/
def Answered (s : PollServer) (p : PollFd) (a : Answers) : Prop :=
  (∀ c ∈ a.accept, c ∉ s.pfd.map PollFd.fd) ∧ (∃ read ∈ a.read, WholeLine read) ∧
    ∀ b ∈ (s.user p.fd).datatowrite, a.write = some (cstr (s.user b).buf).length

instance (s : PollServer) (p : PollFd) (a : Answers) : Decidable (s.Answered p a) :=
  inferInstanceAs (Decidable (_ ∧ _))

inductive Step (ok : PollServer → PollFd → Answers → Prop) : PollServer → PollServer → Prop
  | poll {s : PollServer} (revents : List Mask) (h : s.Polled revents) : Step ok s (s.poll revents)
  | turn {s : PollServer} (p : PollFd) (a : Answers) (hp : s.pfd[s.j]? = some p)
      (h : s.Answered p a) (hok : ok s p a) : Step ok s (s.turn p a)

/-- The buffers with a text that a client other than `c` waits for. -/
def waited (s : PollServer) (c : Sock) : List Sock :=
  s.pfd.tail.filterMap fun q => if q.fd = c then none else (s.user q.fd).datatowrite

/-- The turn takes no text away that another client waits for: not by a second
line, not by clearing a buffer, not by copying another node over it. -/
def Spares (s : PollServer) (p : PollFd) (a : Answers) : Prop :=
  (s.branch p = .hangup → s.j + 1 = s.pfd.length ∨ p.fd ∉ s.waited p.fd) ∧
    (s.branch p = .input → p.fd ∉ s.waited p.fd ∧ (a.read ≠ some [] → s.waited p.fd = [])) ∧
    (s.branch p = .output → ∀ b ∈ (s.user p.fd).datatowrite, b ∉ s.waited p.fd)

instance (s : PollServer) (p : PollFd) (a : Answers) : Decidable (s.Spares p a) :=
  inferInstanceAs (Decidable (_ ∧ _))

end PollServer

def Users.pending (user : Users) (c : Sock) : List (List Byte) :=
  match (user c).datatowrite with
  | none => []
  | some b => [cstr (user b).buf]

theorem Users.pending_none {user : Users} {c : Sock} (h : (user c).datatowrite = none) :
    user.pending c = [] := by
  rw [pending, h]

theorem Users.pending_some {user : Users} {b c : Sock} (h : (user c).datatowrite = some b) :
    user.pending c = [cstr (user b).buf] := by
  rw [pending, h]

theorem Users.pending_congr {user user' : Users} {c : Sock}
    (hptr : (user' c).datatowrite = (user c).datatowrite)
    (hbuf : ∀ b, (user c).datatowrite = some b → (user' b).buf = (user b).buf) :
    user'.pending c = user.pending c := by
  rw [pending, pending, hptr]
  cases h : (user c).datatowrite with
  | none => rfl
  | some b => simp only [hbuf b h]

/-- What has been written to `d` since `s`. -/
def PollServer.textSince (s : PollServer) (d : Sock) (t : PollServer) : List Byte :=
  (received d (t.trace.drop s.trace.length)).flatten

theorem PollServer.textSince_eq {s t : PollServer} {new : List (Event Sock (List Byte))} {d : Sock}
    (h : t.trace = s.trace ++ new) : textSince s d t = (received d new).flatten := by
  rw [textSince, h, List.drop_left]

/-- Every client waits for what it is owed. -/
structure Synced (user : Users) (fds : List Sock) (trace : List (Event Sock (List Byte))) :
    Prop where
  nodup : fds.Nodup
  owed : ∀ c, owed c trace = if c ∈ fds then some (user.pending c) else none
  apart : ∀ c ∈ fds, (user c).datatowrite ≠ some c
  delivered : Delivered trace

namespace Synced

variable {user user' : Users} {fds fds' : List Sock} {trace : List (Event Sock (List Byte))}
  {c : Sock}

theorem nil (user : Users) : Synced user [] [] :=
  ⟨.nil, fun _ => rfl, nofun, delivered_nil⟩

theorem concat {e : Event Sock (List Byte)} (h : Synced user fds trace)
    (he : ∀ c ws, e ≠ .writable c ws) (hnodup : fds'.Nodup)
    (howed : ∀ d, e.owes d (LinuxStudy.owed d trace) =
      if d ∈ fds' then some (user'.pending d) else none)
    (hapart : ∀ d ∈ fds', (user' d).datatowrite ≠ some d) : Synced user' fds' (trace ++ [e]) :=
  ⟨hnodup, fun d => (owed_concat d trace e).trans (howed d), hapart,
    delivered_concat h.delivered fun c ws hw => absurd hw (he c ws)⟩

theorem refused (h : Synced user fds trace) (text : List Byte) :
    Synced user fds (trace ++ [.refused c text]) :=
  h.concat (fun _ _ => nofun) h.nodup h.owed h.apart

theorem setBuf (h : Synced user fds trace) (buf : List Byte)
    (hno : ∀ d ∈ fds, (user d).datatowrite ≠ some c) : Synced (user.setBuf c buf) fds trace := by
  refine ⟨h.nodup, fun d => ?_, fun d hd => ?_, h.delivered⟩
  · rw [h.owed d]
    by_cases hd : d ∈ fds
    · have hpending : (user.setBuf c buf).pending d = user.pending d := by
        refine Users.pending_congr (Users.setBuf_datatowrite ..) fun b hb => ?_
        have hbc : b ≠ c := fun hbc => hno d hd (hbc ▸ hb)
        rw [Users.setBuf_buf, if_neg hbc]
      rw [hpending]
    · rw [if_neg hd, if_neg hd]
  · rw [Users.setBuf_datatowrite]
    exact h.apart d hd

theorem joined (h : Synced user fds trace) (hc : c ∉ fds) :
    Synced (user.setPointer c none) (fds ++ [c]) (trace ++ [.joined c]) := by
  have hpending : ∀ d, d ≠ c → (user.setPointer c none).pending d = user.pending d :=
    fun d hd => Users.pending_congr (by simp [hd]) fun _ _ => by simp
  refine h.concat (fun _ _ => nofun) ?_ (fun d => ?_) fun d hd => ?_
  · simpa only [List.concat_eq_append] using h.nodup.concat hc
  · rw [Event.owes, h.owed d]
    by_cases hd : d = c
    · subst d
      simp [Users.pending]
    · simp [hd, Ne.symm hd, hpending d hd]
  · by_cases hdc : d = c
    · subst d
      simp
    · have hmem : d ∈ fds := by simpa [hdc] using hd
      simpa [hdc] using h.apart d hmem

theorem left (h : Synced user fds trace) (hperm : fds.Perm (c :: fds'))
    (hkeep : ∀ d, d ≠ c → user' d = user d)
    (hbuf : ∀ d ∈ fds', (user d).datatowrite = some c → (user' c).buf = (user c).buf) :
    Synced user' fds' (trace ++ [.left c]) := by
  have hnodup := List.nodup_cons.mp (hperm.nodup_iff.mp h.nodup)
  have hmem : ∀ d, d ∈ fds ↔ d = c ∨ d ∈ fds' := fun d => hperm.mem_iff.trans List.mem_cons
  have hne : ∀ d ∈ fds', d ≠ c := fun d hd hdc => hnodup.1 (hdc ▸ hd)
  have hpending : ∀ d ∈ fds', user'.pending d = user.pending d := by
    intro d hd
    refine Users.pending_congr (by rw [hkeep d (hne d hd)]) fun b hb => ?_
    by_cases hbc : b = c
    · subst b
      exact hbuf d hd hb
    · rw [hkeep b hbc]
  refine h.concat (fun _ _ => nofun) hnodup.2 (fun d => ?_) fun d hd => ?_
  · rw [Event.owes, h.owed d]
    by_cases hdc : d = c
    · subst d
      simp [hnodup.1]
    · by_cases hd : d ∈ fds'
      · simp [hmem, hdc, Ne.symm hdc, hd, hpending d hd]
      · simp [hmem, hdc, Ne.symm hdc, hd]
  · rw [hkeep d (hne d hd)]
    exact h.apart d ((hmem d).mpr (.inr hd))

theorem line {m : List Byte} (h : Synced user fds trace)
    (hfree : ∀ d ∈ fds, d ≠ c → (user d).datatowrite = none)
    (hself : (user' c).datatowrite = (user c).datatowrite)
    (htold : ∀ d ∈ fds, d ≠ c → (user' d).datatowrite = some c)
    (hkeep : ∀ b, b ≠ c → (user' b).buf = (user b).buf) (htext : cstr (user' c).buf = m) :
    Synced user' fds (trace ++ [.line c m]) := by
  refine h.concat (fun _ _ => nofun) h.nodup (fun d => ?_) fun d hd => ?_
  · rw [Event.owes, h.owed d]
    by_cases hmem : d ∈ fds
    · by_cases hdc : d = c
      · subst d
        have hpending : user'.pending c = user.pending c :=
          Users.pending_congr hself fun b hb =>
            hkeep b fun hbc => h.apart c hmem (hbc ▸ hb)
        simp [hmem, hpending]
      · simp [hmem, Ne.symm hdc, Users.pending, hfree d hmem hdc, htold d hmem hdc, htext]
    · simp [hmem]
  · by_cases hdc : d = c
    · subst d
      rw [hself]
      exact h.apart c hd
    · rw [htold d hd hdc]
      exact fun hcd => hdc (Option.some.inj hcd).symm

theorem writable (h : Synced user fds trace) (hc : c ∈ fds) (hself : (user' c).datatowrite = none)
    (hptr : ∀ d ∈ fds, d ≠ c → (user' d).datatowrite = (user d).datatowrite)
    (hbuf : ∀ d ∈ fds, d ≠ c → ∀ b, (user d).datatowrite = some b →
      (user' b).buf = (user b).buf) :
    Synced user' fds (trace ++ [.writable c (user.pending c)]) := by
  refine ⟨h.nodup, fun d => ?_, fun d hd => ?_, delivered_concat h.delivered fun d ws hw => ?_⟩
  · rw [owed_concat, Event.owes, h.owed d]
    by_cases hdc : d = c
    · subst d
      simp [hc, Users.pending, hself]
    · by_cases hd : d ∈ fds
      · simp [hd, Ne.symm hdc, Users.pending_congr (hptr d hd hdc) (hbuf d hd hdc)]
      · simp [hd, Ne.symm hdc]
  · by_cases hdc : d = c
    · subst d
      rw [hself]
      exact nofun
    · rw [hptr d hd hdc]
      exact h.apart d hd
  · cases hw
    rw [h.owed c, if_pos hc]

end Synced

namespace PollServer

structure Inv (s : PollServer) (r : Mask) (ps : List PollFd) : Prop where
  pfd : s.pfd = ⟨s.listensock, pollin ||| pollerr, r⟩ :: ps
  hangup : r &&& pollhup = 0
  output : r &&& pollout = 0
  listens : s.listensock ∉ ps.map PollFd.fd
  synced : Synced s.user (ps.map PollFd.fd) s.trace

section Turn

variable {s : PollServer} {r : Mask} {ps : List PollFd} {p : PollFd} {a : Answers}

theorem mem_waited {b c : Sock} :
    b ∈ s.waited c ↔ ∃ q ∈ s.pfd.tail, q.fd ≠ c ∧ (s.user q.fd).datatowrite = some b := by
  simp only [waited, List.mem_filterMap]
  refine exists_congr fun q => and_congr_right fun _ => ?_
  by_cases h : q.fd = c <;> simp [h]

theorem Inv.waits (h : Inv s r ps) {b c d : Sock} (hd : d ∈ ps.map PollFd.fd) (hdc : d ≠ c)
    (hb : b ∉ s.waited c) : (s.user d).datatowrite ≠ some b := by
  obtain ⟨q, hq, rfl⟩ := List.mem_map.mp hd
  exact fun hptr => hb (mem_waited.mpr ⟨q, by rwa [h.pfd], hdc, hptr⟩)

theorem Inv.skip (h : Inv s r ps) : Inv s.skip r ps :=
  ⟨h.pfd, h.hangup, h.output, h.listens, h.synced⟩

theorem inv_start (listensock : Sock) (user : Users) : Inv (start listensock user) 0 [] :=
  ⟨rfl, rfl, rfl, List.not_mem_nil, .nil user⟩

theorem Inv.poll (h : Inv s r ps) {revents : List Mask} (hp : s.Polled revents) :
    ∃ r' ps', Inv (s.poll revents) r' ps' := by
  obtain ⟨r', rs, rfl, hlen, hhup, hout⟩ := hp.cons h.pfd
  have hfds : (ps.zipWith report rs).map PollFd.fd = ps.map PollFd.fd :=
    map_fd_report (Nat.le_of_eq hlen.symm)
  refine ⟨r', ps.zipWith report rs, by rw [PollServer.poll, h.pfd]; rfl, hhup, hout, ?_, ?_⟩
  · rw [hfds]
    exact h.listens
  · rw [hfds]
    exact h.synced

theorem Inv.accept (h : Inv s r ps) {accept : Option Sock}
    (hfresh : ∀ c ∈ accept, c ∉ s.pfd.map PollFd.fd) :
    ∃ r' ps', Inv (s.acceptClient accept) r' ps' := by
  cases accept with
  | none => exact ⟨r, ps, h.skip⟩
  | some sock =>
    have hsock := hfresh sock rfl
    rw [h.pfd, List.map_cons, List.mem_cons, not_or] at hsock
    rw [acceptClient]
    split
    · exact ⟨r, ps, h.pfd, h.hangup, h.output, h.listens, h.synced.refused busyText⟩
    · refine ⟨r, ps ++ [_], by rw [h.pfd]; rfl, h.hangup, h.output, ?_, ?_⟩
      · simpa using ⟨fun q hq hfd => h.listens (List.mem_map.mpr ⟨q, hq, hfd⟩), Ne.symm hsock.1⟩
      · rw [List.map_append]
        exact h.synced.joined hsock.2

theorem Inv.leave (h : Inv s r ps) {i : Nat} (hj : s.j = i + 1) (hp : ps[i]? = some p)
    (hw : s.j + 1 = s.pfd.length ∨ p.fd ∉ s.waited p.fd) :
    ∃ r' ps', Inv (s.leave p) r' ps' := by
  obtain ⟨hi, hpi⟩ := List.getElem?_eq_some_iff.mp hp
  obtain ⟨last, hlast, hgl⟩ := exists_getLast? hp ⟨s.listensock, pollin ||| pollerr, r⟩
  have hperm := (moveLast_perm hp).map PollFd.fd
  rw [← h.pfd] at hgl
  simp only [PollServer.leave, hgl]
  refine ⟨r, moveLast ps i, ?_, h.hangup, h.output, ?_, h.synced.left hperm (fun d hd => ?_) ?_⟩
  · rw [h.pfd, hj, moveLast_cons hi]
  · exact fun hmem => h.listens (hperm.mem_iff.mpr (List.mem_cons_of_mem _ hmem))
  · exact Function.update_of_ne hd ..
  · intro d hd hptr
    rcases hw with hw | hw
    · have hlen : i = ps.length - 1 := by
        rw [hj, h.pfd, List.length_cons] at hw
        omega
      have hpl : p = last := by
        rw [List.getLast?_eq_getElem?, ← hlen, hp] at hlast
        exact Option.some.inj hlast
      rw [hpl]
      exact congrArg ClientNode.buf (Function.update_self ..)
    · have hnodup := List.nodup_cons.mp (hperm.nodup_iff.mp h.synced.nodup)
      have hdp : d ≠ p.fd := fun hdp => hnodup.1 (hdp ▸ hd)
      have hmem := hperm.mem_iff.mpr (List.mem_cons_of_mem _ hd)
      exact absurd hptr (h.waits hmem hdp hw)

theorem Inv.read (h : Inv s r ps) {i : Nat} (hj : s.j = i + 1) (hp : ps[i]? = some p)
    {read : List Byte} (hline : WholeLine read) (hw : p.fd ∉ s.waited p.fd)
    (hfree : read ≠ [] → s.waited p.fd = []) :
    ∃ r' ps', Inv (s.readClient p (some read)) r' ps' := by
  have hmem : p.fd ∈ ps.map PollFd.fd := List.mem_map.mpr ⟨p, List.mem_of_getElem? hp, rfl⟩
  cases read with
  | nil =>
    have hno : ∀ d ∈ ps.map PollFd.fd, (s.user d).datatowrite ≠ some p.fd := by
      intro d hd
      by_cases hdp : d = p.fd
      · subst d
        exact h.synced.apart _ hmem
      · exact h.waits hd hdp hw
    have hcleared : Inv { s with user := s.user.setBuf p.fd (zeros writeSize) } r ps :=
      ⟨h.pfd, h.hangup, h.output, h.listens, h.synced.setBuf _ hno⟩
    exact hcleared.leave hj hp (.inr (by simpa [waited] using hw))
  | cons b text =>
    obtain hnil | ⟨hlf, hnul, -⟩ := hline
    · cases hnil
    · have hwait : ∀ d ∈ ps.map PollFd.fd, d ≠ p.fd → (s.user d).datatowrite = none := by
        intro d hd hdp
        by_contra hptr
        obtain ⟨b', hb'⟩ := Option.ne_none_iff_exists'.mp hptr
        have hnot : b' ∉ s.waited p.fd := by
          rw [hfree (List.cons_ne_nil b text)]
          exact List.not_mem_nil
        exact h.waits hd hdp hnot hb'
      have htext : cstr (lineBuf (b :: text)) = (b :: text).dropLast := by
        obtain ⟨front, hfront⟩ := List.getLast?_eq_some_iff.mp hlf
        rw [hfront] at hnul ⊢
        rw [List.dropLast_concat]
        exact cstr_lineBuf (fun c hc hzero => hnul (List.mem_append_left _ (hzero ▸ hc))) lf
      have hsynced : Synced (tellOthers p.fd (s.user.setBuf p.fd (lineBuf (b :: text))) ps)
          (ps.map PollFd.fd) (s.trace ++ [.line p.fd (b :: text).dropLast]) := by
        refine h.synced.line hwait ?_ (fun d hd hdp => ?_) (fun b' hb' => ?_) ?_
        · simp [tellOthers_datatowrite]
        · rw [tellOthers_datatowrite, if_pos ⟨hdp, hd⟩]
        · simp [hb']
        · simpa using htext
      refine ⟨r, ps.map (askWrite p.fd), ?_⟩
      simp only [readClient, h.pfd, askWrites, List.tail_cons]
      refine ⟨rfl, h.hangup, h.output, ?_, ?_⟩
      · rw [map_fd_askWrite]
        exact h.listens
      · rwa [map_fd_askWrite]

theorem Inv.write (h : Inv s r ps) {i : Nat} (hj : s.j = i + 1) (hp : ps[i]? = some p)
    {write : Option Nat} (hall : ∀ b ∈ (s.user p.fd).datatowrite,
      write = some (cstr (s.user b).buf).length)
    (hw : ∀ b ∈ (s.user p.fd).datatowrite, b ∉ s.waited p.fd) :
    ∃ r' ps', Inv (s.writeClient p write) r' ps' := by
  have hmem : p.fd ∈ ps.map PollFd.fd := List.mem_map.mpr ⟨p, List.mem_of_getElem? hp, rfl⟩
  cases hptr : (s.user p.fd).datatowrite with
  | none =>
    have hsynced := h.synced.writable hmem hptr (fun _ _ _ => rfl) fun _ _ _ _ _ => rfl
    simp only [Users.pending, hptr] at hsynced
    refine ⟨r, ps, ?_⟩
    simp only [writeClient, hptr]
    exact ⟨h.pfd, h.hangup, h.output, h.listens, hsynced⟩
  | some b =>
    have hb := hw b hptr
    have hsynced : Synced ((s.user.setBuf b (zeros writeSize)).setPointer p.fd none)
        (ps.map PollFd.fd) (s.trace ++ [.writable p.fd (s.user.pending p.fd)]) := by
      refine h.synced.writable hmem (by simp) (fun d _ hdp => by simp [hdp])
        fun d hd hdp b' hb' => ?_
      have hne : b' ≠ b := fun hbb => h.waits hd hdp hb (hbb ▸ hb')
      simp [hne]
    simp only [Users.pending, hptr] at hsynced
    have hfds := map_set_of_eq PollFd.fd hp
      (q := { p with events := (p.events ||| pollin) ||| ~~~pollout }) rfl
    refine ⟨r, ps.set i { p with events := (p.events ||| pollin) ||| ~~~pollout }, ?_⟩
    simp only [writeClient, hptr, hall b hptr, List.take_length]
    refine ⟨?_, h.hangup, h.output, ?_, ?_⟩
    · simp only [h.pfd, hj, List.set_cons_succ]
    · rw [hfds]
      exact h.listens
    · rw [hfds]
      exact hsynced

theorem Inv.turn (h : Inv s r ps) (hp : s.pfd[s.j]? = some p) (ha : s.Answered p a)
    (hs : s.Spares p a) : ∃ r' ps', Inv (s.turn p a) r' ps' := by
  obtain ⟨hfresh, ⟨read, hread, hline⟩, hall⟩ := ha
  obtain ⟨hhangup, hinput, houtput⟩ := hs
  have hcase := PollServer.turn_cases h.pfd h.hangup h.output h.listens hp a
  generalize s.turn p a = t at hcase ⊢
  cases hcase with
  | accept => exact h.accept hfresh
  | skip => exact ⟨r, ps, h.skip⟩
  | hangup i hj hpi hb => exact h.leave hj hpi (hhangup hb)
  | input i hj hpi hb =>
    obtain ⟨hw, hfree⟩ := hinput hb
    have hread' : a.read = some read := hread
    rw [hread']
    exact h.read hj hpi hline hw fun hne => hfree (by simpa [hread'] using hne)
  | output i hj hpi hb => exact h.write hj hpi hall (houtput hb)

theorem Inv.step {t : PollServer} (h : Inv s r ps) (hst : Step Spares s t) :
    ∃ r' ps', Inv t r' ps' := by
  cases hst with
  | poll revents hp => exact h.poll hp
  | turn p a hp ha hs => exact h.turn hp ha hs

end Turn

/-- In every run whose turns take no text away that another client waits for,
every line reaches everyone else who stays, and nothing else is written. -/
theorem broadcast_delivered (listensock : Sock) (user : Users) {s : PollServer}
    (h : Reachable (Step Spares) (start listensock user) s) : Delivered s.trace := by
  have hinv : ∃ r ps, Inv s r ps := Reachable.invariant (fun s => ∃ r ps, Inv s r ps) h
    ⟨0, [], inv_start listensock user⟩ fun _ _ ⟨_, _, hinv⟩ hst => hinv.step hst
  obtain ⟨_, _, hinv⟩ := hinv
  exact hinv.synced.delivered

section Run

variable (ok : PollServer → PollFd → Answers → Prop) [∀ s p a, Decidable (ok s p a)]

def run : List Input → PollServer → Option PollServer
  | [], s => some s
  | .poll revents :: is, s => if s.Polled revents then run is (s.poll revents) else none
  | .turn a :: is, s =>
    match s.pfd[s.j]? with
    | some p => if s.Answered p a ∧ ok s p a then run is (s.turn p a) else none
    | none => none

variable {ok}

theorem reach_run {is : List Input} {s t : PollServer} (h : run ok is s = some t) :
    Reachable (Step ok) s t := by
  induction is generalizing s with
  | nil => exact Option.some.inj h ▸ .refl
  | cons i is ih =>
    cases i with
    | poll revents =>
      rw [run] at h
      split at h
      · rename_i hp
        exact (ih h).head (.poll revents hp)
      · cases h
    | turn a =>
      rw [run] at h
      split at h
      · rename_i p hp
        split at h
        · rename_i ha
          exact (ih h).head (.turn p a hp ha.1 ha.2)
        · cases h
      · cases h

end Run

def accepts (sock : Sock) : Input := .turn ⟨some sock, some [], some 0⟩

def takes (n : Nat) : Input := .turn ⟨none, some [], some n⟩

def reads (text : String) : Input := .turn ⟨none, some (bytes text), some 0⟩

def emptyServer : PollServer := start 3 fun _ => ⟨none, []⟩

def twoConnect : List Input :=
  [.poll [pollin], accepts 4, takes 0, .poll [pollin, 0], accepts 5, takes 0, takes 0]

theorem broadcast_delivered_two :
    ∃ s : PollServer, s.trace = [.joined 4, .joined 5, .line 4 (bytes "hi"),
      .writable 5 [bytes "hi"]] ∧ Delivered s.trace := by
  have htrace : (run Spares (twoConnect ++ [.poll [0, pollin, 0], takes 0, reads "hi\n", takes 2,
      .poll [0, 0, pollout], takes 0, takes 0, takes 2]) emptyServer).map trace =
      some [.joined 4, .joined 5, .line 4 (bytes "hi"), .writable 5 [bytes "hi"]] := by
    decide +kernel
  obtain ⟨s, hrun, hs⟩ := Option.map_eq_some_iff.mp htrace
  exact ⟨s, hs, broadcast_delivered 3 _ (reach_run hrun)⟩

/-- A third client: the buffer of the first is cleared once the second has got
its line. -/
theorem broadcast_lost_text :
    ¬ ∀ (listensock : Sock) (user : Users) (s : PollServer),
      Reachable (Step fun _ _ _ => True) (start listensock user) s → Delivered s.trace := by
  intro h
  have htrace : (run (fun _ _ _ => True) (twoConnect ++ [.poll [pollin, 0, 0], accepts 6, takes 0,
      takes 0, takes 0, .poll [0, pollin, 0, 0], takes 0, reads "hi\n", takes 2, takes 2,
      .poll [0, 0, pollout, pollout], takes 0, takes 0, takes 2, takes 0]) emptyServer).map trace =
      some ([.joined 4, .joined 5, .joined 6, .line 4 (bytes "hi"), .writable 5 [bytes "hi"]] ++
        [.writable 6 [[]]]) := by
    decide +kernel
  obtain ⟨s, hrun, hs⟩ := Option.map_eq_some_iff.mp htrace
  have hdelivered := h 3 _ s (reach_run hrun)
  rw [hs] at hdelivered
  exact absurd (hdelivered _ 6 [[]] (List.prefix_refl _)) (by decide)

end PollServer

end LinuxStudy

import Mathlib.Data.List.Forall2
import LinuxStudy.PollBroadcast
import LinuxStudy.PollTable

/-! What the poll server never does, also when writes are short or fail, reads
fail and lines come faster than they are delivered: a client gets no line twice,
none out of order, none of its own and none from before it came. -/

namespace LinuxStudy

section Heard

variable {ι μ : Type*} [DecidableEq ι]

/-- The lines of the others since `c` last joined, and whose they are. -/
def Event.tells (c : ι) (told : List (ι × μ)) : Event ι μ → List (ι × μ)
  | joined d => if d = c then [] else told
  | line a m => if a = c then told else told ++ [(a, m)]
  | refused _ _ | left _ | writable _ _ => told

def told (c : ι) (trace : List (Event ι μ)) : List (ι × μ) := trace.foldl (Event.tells c) []

/-- What `c` has been written since it last joined. -/
def Event.gets (c : ι) (got : List μ) : Event ι μ → List μ
  | joined d => if d = c then [] else got
  | writable d written => if d = c then got ++ written else got
  | refused _ _ | left _ | line _ _ => got

def got (c : ι) (trace : List (Event ι μ)) : List μ := trace.foldl (Event.gets c) []

theorem told_concat (c : ι) (trace : List (Event ι μ)) (e : Event ι μ) :
    told c (trace ++ [e]) = e.tells c (told c trace) := List.foldl_concat ..

theorem got_concat (c : ι) (trace : List (Event ι μ)) (e : Event ι μ) :
    got c (trace ++ [e]) = e.gets c (got c trace) := List.foldl_concat ..

end Heard

section Matching

variable {α β : Type*} {r : α → β → Prop} {xs xs' : List α} {ys ys' : List β}

theorem sublistForall₂_append (h : List.SublistForall₂ r xs ys)
    (h' : List.SublistForall₂ r xs' ys') : List.SublistForall₂ r (xs ++ xs') (ys ++ ys') := by
  obtain ⟨l, hl, hsub⟩ := List.sublistForall₂_iff.mp h
  obtain ⟨l', hl', hsub'⟩ := List.sublistForall₂_iff.mp h'
  exact List.sublistForall₂_iff.mpr ⟨l ++ l', List.rel_append hl hl', hsub.append hsub'⟩

theorem sublistForall₂_append_right (h : List.SublistForall₂ r xs ys) (ys' : List β) :
    List.SublistForall₂ r xs (ys ++ ys') := by
  simpa using sublistForall₂_append h (.nil (l := ys'))

end Matching

/-- The text is a beginning of the line. -/
def Begins (text : List Byte) (line : Sock × List Byte) : Prop := text <+: line.2

/-- What was written is the beginnings of lines, each line once and in order, and
the text still waited for begins a later one. -/
def Hears (told : List (Sock × List Byte)) (got : List (List Byte))
    (waits : Option (Sock × List Byte)) : Prop :=
  ∃ before after, told = before ++ after ∧ List.SublistForall₂ Begins got before ∧
    ∀ w ∈ waits, ∃ m, (w.1, m) ∈ after ∧ w.2 <+: m

namespace Hears

variable {told : List (Sock × List Byte)} {got : List (List Byte)}
  {waits waits' : Option (Sock × List Byte)} {c : Sock} {text m : List Byte}

theorem matched (h : Hears told got waits) : List.SublistForall₂ Begins got told := by
  obtain ⟨before, after, rfl, hgot, -⟩ := h
  exact sublistForall₂_append_right hgot after

theorem nil : Hears [] [] none := ⟨[], [], rfl, .nil, fun w hw => absurd hw (Option.not_mem_none w)⟩

/-- The text may have got shorter. -/
theorem shorten (h : Hears told got waits)
    (hw : ∀ w' ∈ waits', ∃ w ∈ waits, w'.1 = w.1 ∧ w'.2 <+: w.2) : Hears told got waits' := by
  obtain ⟨before, after, rfl, hgot, hafter⟩ := h
  refine ⟨before, after, rfl, hgot, fun w' hw' => ?_⟩
  obtain ⟨w, hmem, hfst, hsnd⟩ := hw w' hw'
  obtain ⟨m, hm, hbegin⟩ := hafter w hmem
  exact ⟨m, hfst ▸ hm, hsnd.trans hbegin⟩

theorem tell (h : Hears told got waits) (htext : text <+: m) :
    Hears (told ++ [(c, m)]) got (some (c, text)) := by
  obtain ⟨before, after, rfl, hgot, -⟩ := h
  refine ⟨before, after ++ [(c, m)], List.append_assoc .., hgot, fun w hw => ?_⟩
  obtain rfl := Option.some.inj hw
  exact ⟨m, List.mem_append_right _ List.mem_cons_self, htext⟩

theorem take (h : Hears told got (some (c, text))) (n : Nat) :
    Hears told (got ++ [text.take n]) none := by
  obtain ⟨before, after, rfl, hgot, hafter⟩ := h
  obtain ⟨m, hm, hbegin⟩ := hafter _ rfl
  obtain ⟨between, rest, rfl⟩ := List.mem_iff_append.mp hm
  have hone : List.SublistForall₂ Begins [text.take n] [(c, m)] :=
    .cons ((List.take_prefix n text).trans hbegin) .nil
  refine ⟨before ++ between ++ [(c, m)], rest, by simp,
    sublistForall₂_append (sublistForall₂_append_right hgot between) hone,
    fun w hw => absurd hw (Option.not_mem_none w)⟩

end Hears

/-- Whose text `d` waits for, and the text. -/
def Users.waits (user : Users) (d : Sock) : Option (Sock × List Byte) :=
  (user d).datatowrite.map fun b => (b, cstr (user b).buf)

structure Heard (user : Users) (fds : List Sock) (trace : List (Event Sock (List Byte))) :
    Prop where
  apart : ∀ d ∈ fds, (user d).datatowrite ≠ some d
  hears : ∀ d, Hears (told d trace) (got d trace) (if d ∈ fds then user.waits d else none)

namespace Heard

variable {user user' : Users} {fds fds' : List Sock} {trace : List (Event Sock (List Byte))}
  {c : Sock}

theorem start (user : Users) : Heard user [] [] :=
  ⟨fun _ hd => absurd hd List.not_mem_nil, fun _ => .nil⟩

theorem congr (h : Heard user fds trace) (hfds : ∀ d, d ∈ fds' ↔ d ∈ fds) :
    Heard user fds' trace := by
  refine ⟨fun d hd => h.apart d ((hfds d).mp hd), fun d => ?_⟩
  simpa only [hfds] using h.hears d

theorem refused (h : Heard user fds trace) (text : List Byte) :
    Heard user fds (trace ++ [.refused c text]) := by
  refine ⟨h.apart, fun d => ?_⟩
  rw [told_concat, got_concat]
  exact h.hears d

theorem setBuf (h : Heard user fds trace) (c : Sock) :
    Heard (user.setBuf c (zeros writeSize)) fds trace := by
  refine ⟨fun d hd => ?_, fun d => (h.hears d).shorten fun w hw => ?_⟩
  · rw [Users.setBuf_datatowrite]
    exact h.apart d hd
  · by_cases hd : d ∈ fds
    · rw [if_pos hd] at hw ⊢
      obtain ⟨b, hb, rfl⟩ := Option.map_eq_some_iff.mp hw
      rw [Users.setBuf_datatowrite] at hb
      refine ⟨_, Option.map_eq_some_iff.mpr ⟨b, hb, rfl⟩, rfl, ?_⟩
      rw [Users.setBuf_buf]
      split
      · rw [cstr_zeros]
        exact List.nil_prefix
      · exact List.prefix_rfl
    · rw [if_neg hd] at hw
      exact absurd hw (Option.not_mem_none w)

theorem joined (h : Heard user fds trace) :
    Heard (user.setPointer c none) (c :: fds) (trace ++ [.joined c]) := by
  refine ⟨fun d hd => ?_, fun d => ?_⟩
  · by_cases hdc : d = c
    · simp [hdc]
    · have hmem : d ∈ fds := by simpa [hdc] using hd
      simpa [hdc] using h.apart d hmem
  · rw [told_concat, got_concat]
    by_cases hdc : d = c
    · subst d
      simpa [Event.tells, Event.gets, Users.waits] using Hears.nil
    · have hold := h.hears d
      simpa [Event.tells, Event.gets, Users.waits, hdc, Ne.symm hdc] using hold

theorem left (h : Heard user fds trace) (hfds : ∀ d ∈ fds', d ∈ fds ∧ d ≠ c)
    (hkeep : ∀ d, d ≠ c → user' d = user d)
    (hbuf : ∀ d ∈ fds', (user d).datatowrite = some c → (user' c).buf = (user c).buf) :
    Heard user' fds' (trace ++ [.left c]) := by
  refine ⟨fun d hd => ?_, fun d => ?_⟩
  · obtain ⟨hmem, hdc⟩ := hfds d hd
    rw [hkeep d hdc]
    exact h.apart d hmem
  · rw [told_concat, got_concat]
    refine (h.hears d).shorten fun w hw => ?_
    by_cases hd : d ∈ fds'
    · obtain ⟨hmem, hdc⟩ := hfds d hd
      rw [if_pos hd] at hw
      obtain ⟨b, hb, rfl⟩ := Option.map_eq_some_iff.mp hw
      rw [hkeep d hdc] at hb
      rw [if_pos hmem]
      refine ⟨_, Option.map_eq_some_iff.mpr ⟨b, hb, rfl⟩, rfl, ?_⟩
      by_cases hbc : b = c
      · subst b
        rw [hbuf d hd hb]
      · rw [hkeep b hbc]
    · rw [if_neg hd] at hw
      exact absurd hw (Option.not_mem_none w)

theorem line {m : List Byte} (h : Heard user fds trace)
    (hself : (user' c).datatowrite = (user c).datatowrite)
    (htold : ∀ d ∈ fds, d ≠ c → (user' d).datatowrite = some c)
    (hkeep : ∀ b, b ≠ c → (user' b).buf = (user b).buf) (htext : cstr (user' c).buf <+: m) :
    Heard user' fds (trace ++ [.line c m]) := by
  refine ⟨fun d hd => ?_, fun d => ?_⟩
  · by_cases hdc : d = c
    · subst d
      rw [hself]
      exact h.apart c hd
    · rw [htold d hd hdc]
      exact fun hcd => hdc (Option.some.inj hcd).symm
  · rw [told_concat, got_concat]
    by_cases hdc : d = c
    · subst d
      rw [Event.tells, if_pos rfl]
      refine (h.hears c).shorten fun w hw => ?_
      by_cases hd : c ∈ fds
      · rw [if_pos hd] at hw ⊢
        obtain ⟨b, hb, rfl⟩ := Option.map_eq_some_iff.mp hw
        rw [hself] at hb
        have hbc : b ≠ c := fun hbc => h.apart c hd (hbc ▸ hb)
        refine ⟨_, Option.map_eq_some_iff.mpr ⟨b, hb, rfl⟩, rfl, ?_⟩
        rw [hkeep b hbc]
      · rw [if_neg hd] at hw
        exact absurd hw (Option.not_mem_none w)
    · rw [Event.tells, if_neg (Ne.symm hdc)]
      have htell := (h.hears d).tell (c := c) htext
      by_cases hd : d ∈ fds
      · rw [if_pos hd, Users.waits, htold d hd hdc]
        exact htell
      · rw [if_neg hd]
        exact htell.shorten fun w hw => absurd hw (Option.not_mem_none w)

theorem writable (h : Heard user fds trace) {b : Sock} (hc : c ∈ fds)
    (hb : (user c).datatowrite = some b) (n : Nat) :
    Heard ((user.setBuf b (zeros writeSize)).setPointer c none) fds
      (trace ++ [.writable c [(cstr (user b).buf).take n]]) := by
  have hcleared := h.setBuf b
  refine ⟨fun d hd => ?_, fun d => ?_⟩
  · by_cases hdc : d = c
    · simp [hdc]
    · simpa [hdc] using hcleared.apart d hd
  · rw [told_concat, got_concat]
    by_cases hdc : d = c
    · subst d
      have htake := h.hears c
      rw [if_pos hc, Users.waits, hb] at htake
      simpa [Event.tells, Event.gets, Users.waits] using htake.take n
    · simpa [Event.tells, Event.gets, Users.waits, hdc, Ne.symm hdc] using hcleared.hears d

theorem unwritten (h : Heard user fds trace) : Heard user fds (trace ++ [.writable c []]) := by
  refine ⟨h.apart, fun d => ?_⟩
  rw [told_concat, got_concat]
  simpa [Event.tells, Event.gets] using h.hears d

end Heard

theorem lineBuf_begins (text : List Byte) (b : Byte) :
    cstr (lineBuf (b :: text)) <+: (b :: text).dropLast := by
  obtain ⟨init, last, hsplit⟩ : ∃ init last, b :: text = init ++ [last] :=
    ⟨_, _, (List.dropLast_append_getLast (List.cons_ne_nil b text)).symm⟩
  have hset : lineBuf (init ++ [last]) =
      init ++ 0 :: zeros (writeSize - (init ++ [last]).length) := by
    simp [lineBuf]
  rw [hsplit, hset, cstr_append_nul, List.dropLast_concat]
  exact List.takeWhile_prefix _

namespace PollServer

/-- No client leaves while another waits for its text, unless it has the last
entry, whose node stays where it is. -/
def Stays (s : PollServer) (p : PollFd) (a : Answers) : Prop :=
  s.Fresh p a ∧ (s.branch p = .hangup ∨ s.branch p = .input ∧ a.read = some [] →
    s.j + 1 = s.pfd.length ∨ p.fd ∉ s.waited p.fd)

instance (s : PollServer) (p : PollFd) (a : Answers) : Decidable (s.Stays p a) :=
  inferInstanceAs (Decidable (_ ∧ _))

def clients (s : PollServer) : List Sock := s.pfd.tail.map PollFd.fd

def HeardSoFar (s : PollServer) : Prop := Heard s.user s.clients s.trace

section Turn

variable {s : PollServer} {r : Mask} {ps : List PollFd} {p : PollFd} {i : Nat}

theorem Table.clients (h : Table s r ps) : s.clients = ps.map PollFd.fd := by
  rw [PollServer.clients, h.pfd]
  rfl

theorem HeardSoFar.accept (hs : s.HeardSoFar) (h : Table s r ps) {accept : Option Sock} :
    (s.acceptClient accept).HeardSoFar := by
  cases accept with
  | none => exact hs
  | some sock =>
    rw [acceptClient]
    split
    · exact Heard.refused hs busyText
    · refine Heard.congr (Heard.joined (c := sock) hs) fun d => ?_
      rw [h.clients, PollServer.clients, h.pfd]
      simp [or_comm]

theorem HeardSoFar.leave (hs : s.HeardSoFar) (h : Table s r ps) (hj : s.j = i + 1)
    (hp : ps[i]? = some p) (hw : s.j + 1 = s.pfd.length ∨ p.fd ∉ s.waited p.fd) :
    (s.leave p).HeardSoFar := by
  obtain ⟨last, hlast, heq⟩ := h.leave_eq hj hp s.user
  have hperm := (moveLast_perm hp).map PollFd.fd
  have hnodup := List.nodup_cons.mp (hperm.nodup_iff.mp h.tracks.nodup)
  have hmem : ∀ d ∈ (moveLast ps i).map PollFd.fd, d ∈ ps.map PollFd.fd ∧ d ≠ p.fd :=
    fun d hd => ⟨hperm.mem_iff.mpr (List.mem_cons_of_mem _ hd), fun hdp => hnodup.1 (hdp ▸ hd)⟩
  change (PollServer.leave { s with user := s.user } p).HeardSoFar
  rw [heq]
  refine Heard.left hs ?_ (fun d hd => Function.update_of_ne hd ..) fun d hd hptr => ?_
  · rw [h.clients]
    exact hmem
  · rcases hw with hw | hw
    · have hpl : p = last := by
        rw [List.getLast?_eq_getElem?, ← hw, Nat.add_sub_cancel, h.pfd, hj,
          List.getElem?_cons_succ, hp] at hlast
        exact Option.some.inj hlast
      rw [hpl]
      exact congrArg ClientNode.buf (Function.update_self ..)
    · obtain ⟨hold, hdp⟩ := hmem d hd
      obtain ⟨q, hq, rfl⟩ := List.mem_map.mp hold
      exact absurd (mem_waited.mpr ⟨q, by rwa [h.pfd], hdp, hptr⟩) hw

theorem HeardSoFar.read (hs : s.HeardSoFar) (h : Table s r ps) (hj : s.j = i + 1)
    (hp : ps[i]? = some p) {read : Option (List Byte)}
    (hw : read = some [] → s.j + 1 = s.pfd.length ∨ p.fd ∉ s.waited p.fd) :
    (s.readClient p read).HeardSoFar := by
  have hcleared : HeardSoFar { s with user := s.user.setBuf p.fd (zeros writeSize) } :=
    Heard.setBuf hs p.fd
  rcases read with - | - | ⟨b, text⟩
  · exact hcleared
  · have htable : Table { s with user := s.user.setBuf p.fd (zeros writeSize) } r ps :=
      ⟨h.pfd, h.2, h.3, h.4, h.5, h.6⟩
    refine hcleared.leave htable hj hp ?_
    simpa [waited] using hw rfl
  · have hline : Heard (tellOthers p.fd (s.user.setBuf p.fd (lineBuf (b :: text))) s.pfd.tail)
        s.clients (s.trace ++ [.line p.fd (b :: text).dropLast]) := by
      refine Heard.line hs ?_ (fun d hd hdp => ?_) (fun b' hb' => ?_) ?_
      · simp [tellOthers_datatowrite]
      · rw [tellOthers_datatowrite]
        exact if_pos ⟨hdp, hd⟩
      · simp [hb']
      · simpa using lineBuf_begins text b
    refine Heard.congr hline fun d => ?_
    change d ∈ (askWrites p.fd s.pfd).tail.map PollFd.fd ↔ _
    rw [PollServer.clients, h.pfd, askWrites, List.tail_cons, map_fd_askWrite, List.tail_cons]

theorem HeardSoFar.write (hs : s.HeardSoFar) (h : Table s r ps) (hj : s.j = i + 1)
    (hp : ps[i]? = some p) (write : Option Nat) : (s.writeClient p write).HeardSoFar := by
  have hmem : p.fd ∈ s.clients := by
    rw [h.clients]
    exact List.mem_map_of_mem (List.mem_of_getElem? hp)
  unfold writeClient
  split
  · rename_i b n hb
    refine Heard.congr (Heard.writable hs hmem hb n) fun d => ?_
    have hfds := map_set_of_eq PollFd.fd hp
      (q := { p with events := (p.events ||| pollin) ||| ~~~pollout }) rfl
    change d ∈ ((s.pfd.set s.j _).tail.map PollFd.fd) ↔ _
    rw [h.clients, h.pfd, hj, List.set_cons_succ, List.tail_cons, hfds]
  · exact Heard.unwritten hs

theorem HeardSoFar.turn (hs : s.HeardSoFar) (h : Table s r ps) (hp : s.pfd[s.j]? = some p)
    {a : Answers} (ha : s.Stays p a) : (s.turn p a).HeardSoFar := by
  have hcase := h.turn_cases hp a
  generalize s.turn p a = t at hcase ⊢
  cases hcase with
  | accept => exact hs.accept h
  | skip => exact hs
  | hangup i hj hpi hb => exact hs.leave h hj hpi (ha.2 (.inl hb))
  | input i hj hpi hb => exact hs.read h hj hpi fun hread => ha.2 (.inr ⟨hb, hread⟩)
  | output i hj hpi => exact hs.write h hj hpi a.write

end Turn

/-- In every run in which nobody leaves while another waits for its text, what a
client has been written since it joined are beginnings of lines of the others,
sent since then, each at most once and in their order. -/
theorem broadcast_safe {listensock : Sock} {user : Users} {s : PollServer}
    (h : Reachable (Loop Stays) (start listensock user) s) (c : Sock) :
    List.SublistForall₂ Begins (got c s.trace) (told c s.trace) := by
  have hinv := table_invariant (fun _ _ _ ha => ha.1) HeardSoFar h (Heard.start user)
    (fun {s r ps revents} ht hs hp => ?_) fun {s r ps p a} ht hs hp ha => hs.turn ht hp ha
  · exact (hinv.2.hears c).matched
  · obtain ⟨-, hlen, -⟩ := hp
    have hfds : (s.poll revents).clients = s.clients := by
      rw [PollServer.clients, PollServer.clients, List.map_tail, List.map_tail, PollServer.poll,
        map_fd_report (Nat.le_of_eq hlen.symm)]
    exact Heard.congr hs fun d => by rw [hfds]

/-- A short write, a failed read and a line that comes over another. -/
theorem broadcast_safe_short : ∃ s : PollServer,
    got 5 s.trace = [bytes "h", bytes "yo"] ∧
      told 5 s.trace = [(4, bytes "hi"), (4, bytes "ho"), (4, bytes "yo")] ∧
      List.SublistForall₂ Begins (got 5 s.trace) (told 5 s.trace) := by
  have htrace : (loop Stays (twoConnect ++ [.poll [0, pollin, 0], takes 0, reads "hi\n", takes 0,
      .poll [0, 0, pollout], takes 0, takes 0, takes 1, .poll [0, pollin, 0], takes 0, reads "ho\n",
      takes 0, .poll [0, pollin, pollout], takes 0, reads "yo\n", takes 2]) emptyServer).map
        (fun s => (got 5 s.trace, told 5 s.trace)) =
      some ([bytes "h", bytes "yo"], [(4, bytes "hi"), (4, bytes "ho"), (4, bytes "yo")]) := by
    decide +kernel
  obtain ⟨s, hrun, hs⟩ := Option.map_eq_some_iff.mp htrace
  obtain ⟨hgot, htold⟩ := Prod.mk.inj hs
  exact ⟨s, hgot, htold, broadcast_safe (reach_loop hrun) 5⟩

end PollServer

end LinuxStudy

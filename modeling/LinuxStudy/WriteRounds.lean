import LinuxStudy.OpenConnections
import LinuxStudy.PollBroadcast

/-! Rounds of writing one pending text. A write that takes a part of it clears
the whole buffer, and so does a failed read of the client it came from. -/

namespace LinuxStudy

namespace PollServer

/-- No line comes in and no client leaves. -/
def Quiet (s : PollServer) (p : PollFd) (a : Answers) : Prop :=
  s.Fresh p a ∧ s.branch p ≠ .hangup ∧ (s.branch p = .input → a.read = none) ∧
    (s.branch p = .output → ∀ b ∈ (s.user p.fd).datatowrite, ∀ n ∈ a.write,
      n ≤ (cstr (s.user b).buf).length)

instance (s : PollServer) (p : PollFd) (a : Answers) : Decidable (s.Quiet p a) :=
  inferInstanceAs (Decidable (_ ∧ _))

def cleared (s : PollServer) (p : PollFd) (a : Answers) : Option Sock :=
  match s.branch p with
  | .input => some p.fd
  | .output => if a.write = none then none else (s.user p.fd).datatowrite
  | .accept | .error | .hangup | .idle => none

/-- The text for `d` is cleared only after `d` has taken all of it. -/
def TakesAll (d : Sock) (s : PollServer) (p : PollFd) (a : Answers) : Prop :=
  ∀ b ∈ (s.user d).datatowrite, s.cleared p a = some b → cstr (s.user b).buf = [] ∨
    s.branch p = .output ∧ p.fd = d ∧ a.write = some (cstr (s.user b).buf).length

instance (d : Sock) (s : PollServer) (p : PollFd) (a : Answers) : Decidable (s.TakesAll d p a) :=
  inferInstanceAs (Decidable (∀ b ∈ (s.user d).datatowrite, _))

/-- What `d` has been written since `s` and what is pending for it are together
the text that was pending at `s`. -/
structure Kept (s : PollServer) (d : Sock) (t : PollServer) : Prop where
  accepted : textSince s d t <+: (s.user.pending d).flatten
  queued : (t.user d).datatowrite ≠ none →
    t.user.pending d = [(s.user.pending d).flatten.drop (textSince s d t).length]
  done : (t.user d).datatowrite = none → textSince s d t = (s.user.pending d).flatten

inductive QuietCase (s : PollServer) (d : Sock) (p : PollFd) (a : Answers) (t : PollServer)
    (new : List (Event Sock (List Byte))) : Prop
  | same (hnew : (received d new).flatten = [])
      (hptr : (t.user d).datatowrite = (s.user d).datatowrite)
      (hbuf : ∀ b ∈ (s.user d).datatowrite, cstr (t.user b).buf =
        if s.cleared p a = some b then [] else cstr (s.user b).buf)
      (hother : ∀ b ∈ (s.user d).datatowrite, s.cleared p a = some b →
        ¬ (s.branch p = .output ∧ p.fd = d))
  | written (b : Sock) (n : Nat) (hb : (s.user d).datatowrite = some b)
      (hout : s.branch p = .output ∧ p.fd = d) (hn : a.write = some n)
      (hle : n ≤ (cstr (s.user b).buf).length)
      (hnew : (received d new).flatten = (cstr (s.user b).buf).take n)
      (hptr : (t.user d).datatowrite = none)

section Quiet

variable {s t : PollServer} {d : Sock} {p : PollFd} {a : Answers}

theorem QuietCase.of_buf {new : List (Event Sock (List Byte))}
    (hnone : s.cleared p a = none) (hnew : (received d new).flatten = [])
    (hptr : (t.user d).datatowrite = (s.user d).datatowrite)
    (hbuf : ∀ b, (t.user b).buf = (s.user b).buf) : QuietCase s d p a t new := by
  refine .same hnew hptr (fun b _ => ?_) fun b _ hb => ?_
  · rw [hnone, if_neg nofun, hbuf]
  · rw [hnone] at hb
    cases hb

theorem accept_quiet (hd : d ∈ s.live) (hfresh : s.Fresh p a) (hb : s.branch p = .accept) :
    ∃ new, (s.acceptClient a.accept).trace = s.trace ++ new ∧
      d ∈ (s.acceptClient a.accept).live ∧ QuietCase s d p a (s.acceptClient a.accept) new := by
  have hnone : s.cleared p a = none := by rw [cleared, hb]
  cases ha : a.accept with
  | none => exact ⟨[], (List.append_nil _).symm, hd, .of_buf hnone rfl rfl fun _ => rfl⟩
  | some c =>
    have hne : d ≠ c := fun hdc => (hfresh c ha).2 (hdc ▸ hd)
    by_cases hfull : s.pfd.length = userSize + 1
    · rw [acceptClient, if_pos hfull]
      refine ⟨[.refused c busyText], rfl, ?_, .of_buf hnone rfl rfl fun _ => rfl⟩
      rw [live, live_concat]
      exact List.mem_cons_of_mem c hd
    · rw [acceptClient, if_neg hfull]
      refine ⟨[.joined c], rfl, ?_, .of_buf hnone rfl ?_ fun b => Users.setPointer_buf ..⟩
      · rw [live, live_concat]
        exact List.mem_cons_of_mem c hd
      · rw [Users.setPointer_datatowrite, if_neg hne]

theorem read_quiet (d : Sock) (hb : s.branch p = .input) :
    QuietCase s d p a (s.readClient p none) [] := by
  have hclear : s.cleared p a = some p.fd := by rw [cleared, hb]
  refine .same rfl (Users.setBuf_datatowrite ..) (fun b _ => ?_) fun b _ _ hout => ?_
  · simp only [readClient, skip, Users.setBuf_buf, hclear, Option.some.injEq]
    by_cases hbp : b = p.fd
    · rw [if_pos hbp, if_pos hbp.symm, cstr_zeros]
    · rw [if_neg hbp, if_neg (Ne.symm hbp)]
  · rw [hb] at hout
    cases hout.1

theorem write_quiet (d : Sock) (hb : s.branch p = .output)
    (hle : ∀ b ∈ (s.user p.fd).datatowrite, ∀ n ∈ a.write, n ≤ (cstr (s.user b).buf).length) :
    ∃ new, (s.writeClient p a.write).trace = s.trace ++ [.writable p.fd new] ∧
      QuietCase s d p a (s.writeClient p a.write) [.writable p.fd new] := by
  have hclear : s.cleared p a = if a.write = none then none else (s.user p.fd).datatowrite := by
    rw [cleared, hb]
  have hnil : (received d [(.writable p.fd [] : Event Sock (List Byte))]).flatten = [] := by
    simp [received, Event.received]
  cases hptr : (s.user p.fd).datatowrite with
  | none =>
    have hnone : s.cleared p a = none := by rw [hclear, hptr, ite_self]
    simp only [writeClient, hptr]
    exact ⟨[], rfl, .of_buf hnone hnil rfl fun _ => rfl⟩
  | some b =>
    cases hwrite : a.write with
    | none =>
      have hnone : s.cleared p a = none := by rw [hclear, if_pos hwrite]
      simp only [writeClient, hptr]
      exact ⟨[], rfl, .of_buf hnone hnil rfl fun _ => rfl⟩
    | some n =>
      have hsome : s.cleared p a = some b := by
        rw [hclear, hwrite, hptr, if_neg (Option.some_ne_none n)]
      simp only [writeClient, hptr]
      refine ⟨_, rfl, ?_⟩
      by_cases hd : p.fd = d
      · subst hd
        refine .written b n hptr ⟨hb, rfl⟩ hwrite (hle b hptr n hwrite) ?_ (by simp)
        simp [received, Event.received]
      · refine .same ?_ ?_ (fun b' _ => ?_) fun _ _ _ hout => hd hout.2
        · simp [received, Event.received, hd]
        · simp [Ne.symm hd]
        · simp only [Users.setPointer_buf, Users.setBuf_buf, hsome, Option.some.injEq]
          by_cases hbb : b' = b
          · rw [if_pos hbb, if_pos hbb.symm, cstr_zeros]
          · rw [if_neg hbb, if_neg (Ne.symm hbb)]

theorem quiet_cases (hd : d ∈ s.live) (hq : s.Quiet p a) :
    ∃ new, (s.turn p a).trace = s.trace ++ new ∧ d ∈ (s.turn p a).live ∧
      QuietCase s d p a (s.turn p a) new := by
  obtain ⟨hfresh, hhangup, hinput, houtput⟩ := hq
  cases hb : s.branch p with
  | accept =>
    rw [turn, hb]
    exact accept_quiet hd hfresh hb
  | error | idle =>
    have hnone : s.cleared p a = none := by rw [cleared, hb]
    rw [turn, hb]
    exact ⟨[], (List.append_nil _).symm, hd, .of_buf hnone rfl rfl fun _ => rfl⟩
  | hangup => exact absurd hb hhangup
  | input =>
    rw [turn, hb, hinput hb]
    exact ⟨[], (List.append_nil _).symm, hd, read_quiet d hb⟩
  | output =>
    obtain ⟨new, htrace, hcase⟩ := write_quiet d hb (houtput hb)
    rw [turn, hb]
    refine ⟨_, htrace, ?_, hcase⟩
    rw [live, htrace, live_concat]
    exact hd

end Quiet

/-- The text for `d` is either untouched or completely written. -/
structure Waiting (s : PollServer) (d : Sock) (t : PollServer) : Prop where
  live : d ∈ t.live
  past : s.trace <+: t.trace
  text : (t.user d).datatowrite = none ∧ textSince s d t = (s.user.pending d).flatten ∨
    ∃ b, (t.user d).datatowrite = some b ∧ textSince s d t = [] ∧
      cstr (t.user b).buf = (s.user.pending d).flatten

section Waiting

variable {s t u : PollServer} {b d : Sock} {p : PollFd} {a : Answers}

theorem textSince_append {new : List (Event Sock (List Byte))} (hpast : s.trace <+: t.trace)
    (h : u.trace = t.trace ++ new) :
    textSince s d u = textSince s d t ++ (received d new).flatten := by
  obtain ⟨old, hold⟩ := hpast
  rw [textSince_eq hold.symm, textSince_eq (h.trans (by rw [← hold, List.append_assoc])), received,
    List.flatMap_append, List.flatten_append]
  rfl

theorem Waiting.start (hd : d ∈ s.live) (hptr : (s.user d).datatowrite = some b) :
    s.Waiting d s where
  live := hd
  past := List.prefix_refl _
  text := .inr ⟨b, hptr, textSince_eq (List.append_nil _).symm,
    by rw [Users.pending_some hptr, List.flatten_singleton]⟩

theorem Waiting.kept (h : s.Waiting d t) : s.Kept d t := by
  rcases h.text with ⟨hptr, htext⟩ | ⟨b, hptr, htext, hbuf⟩
  · exact ⟨htext ▸ List.prefix_refl _, absurd hptr, fun _ => htext⟩
  · refine ⟨htext ▸ List.nil_prefix, fun _ => ?_, fun hnone => ?_⟩
    · rw [Users.pending_some hptr, hbuf, htext]
      rfl
    · rw [hptr] at hnone
      cases hnone

theorem Waiting.turn (h : s.Waiting d t) (hq : t.Quiet p a) (ht : t.TakesAll d p a) :
    s.Waiting d (t.turn p a) := by
  obtain ⟨new, htrace, hlive, hcase⟩ := quiet_cases h.live hq
  refine ⟨hlive, htrace ▸ h.past.trans (List.prefix_append ..), ?_⟩
  rw [textSince_append h.past htrace]
  cases hcase with
  | same hnew hptr hbuf hother =>
    rw [hnew, List.append_nil, hptr]
    refine h.text.imp_right fun ⟨b, hb, htext, htold⟩ => ⟨b, hb, htext, ?_⟩
    rw [hbuf b hb]
    by_cases hclear : t.cleared p a = some b
    · have hempty : cstr (t.user b).buf = [] :=
        (ht b hb hclear).resolve_right fun hout => hother b hb hclear ⟨hout.1, hout.2.1⟩
      rw [if_pos hclear, ← htold, hempty]
    · rw [if_neg hclear, htold]
  | written b n hb hout hn hle hnew hptr =>
    rcases h.text with ⟨hnone, -⟩ | ⟨b', hb', htext, htold⟩
    · rw [hb] at hnone
      cases hnone
    · obtain rfl : b = b' := Option.some.inj (hb.symm.trans hb')
      have hclear : t.cleared p a = some b := by
        rw [cleared, hout.1, hn, hout.2, hb]
        rfl
      have htake : (cstr (t.user b).buf).take n = cstr (t.user b).buf := by
        rcases ht b hb hclear with hempty | ⟨-, -, hall⟩
        · rw [hempty, List.take_nil]
        · rw [Option.some.inj (hn.symm.trans hall), List.take_length]
      exact .inl ⟨hptr, by rw [htext, hnew, htake, htold, List.nil_append]⟩

/-- A cleared text can only be kept when it has been written. -/
theorem Waiting.takesAll (h : s.Waiting d t) (hq : t.Quiet p a) (hk : s.Kept d (t.turn p a)) :
    t.TakesAll d p a := by
  obtain ⟨new, htrace, -, hcase⟩ := quiet_cases h.live hq
  have hsince := textSince_append (d := d) h.past htrace
  intro b hb hclear
  rcases h.text with ⟨hnone, -⟩ | ⟨b', hb', htext, htold⟩
  · rw [hnone] at hb
    cases hb
  · obtain rfl : b' = b := Option.some.inj (hb'.symm.trans hb)
    rw [htext, List.nil_append] at hsince
    cases hcase with
    | same hnew hptr hbuf hother =>
      have hafter := hptr.trans hb'
      have hqueued := hk.queued (by rw [hafter]; exact Option.some_ne_none b')
      rw [Users.pending_some hafter, hbuf b' hb', if_pos hclear, hsince, hnew, List.length_nil,
        List.drop_zero, ← htold] at hqueued
      exact .inl (List.singleton_inj.mp hqueued).symm
    | written b n hwb hout hn hle hnew hptr =>
      obtain rfl : b = b' := Option.some.inj (hwb.symm.trans hb')
      have hdone := hk.done hptr
      rw [hsince, hnew, ← htold] at hdone
      have hlen : (cstr (t.user b).buf).length ≤ n := List.take_eq_self_iff _ |>.mp hdone
      exact .inr ⟨hout.1, hout.2, by rw [hn, Nat.le_antisymm hle hlen]⟩

/-- In every run whose turns clear the text for a client only after it has taken
all of it, nothing of it is lost, and a turn that clears it otherwise loses some. -/
theorem write_rounds (listensock : Sock) (user : Users)
    (h : Reachable (Loop Fresh) (start listensock user) s) (hd : d ∈ s.pfd.tail.map PollFd.fd)
    (hptr : (s.user d).datatowrite = some b)
    (hrun : Reachable (Loop fun t p a => t.Quiet p a ∧ t.TakesAll d p a) s t) :
    s.Kept d t ∧ ∀ p a, t.pfd[t.j]? = some p → t.Quiet p a →
      (s.Kept d (t.turn p a) ↔ t.TakesAll d p a) := by
  obtain ⟨⟨r, ps, ht⟩, -⟩ := table_reachable h
  have hlive : d ∈ s.live := by
    rw [ht.pfd, List.tail_cons] at hd
    exact ht.tracks.subperm.subset hd
  have hwait : s.Waiting d t := hrun.invariant (s.Waiting d) (.start hlive hptr)
    fun u v hu hst => by
      cases hst with
      | poll revents hp => exact ⟨hu.live, hu.past, hu.text⟩
      | turn p a hp ha => exact hu.turn ha.1 ha.2
  exact ⟨hwait.kept, fun p a _ hq => ⟨hwait.takesAll hq, fun ht => (hwait.turn hq ht).kept⟩⟩

end Waiting

/-- The first of two clients has sent a line, and the second has not got it. -/
def oneQueued : Option PollServer :=
  loop Fresh (connects 2 ++ lineOfFirst) (start 3 fun _ => ⟨none, []⟩)

def round (write : Option Nat) : List Input :=
  [.poll [0, 0, pollout], .turn ⟨none, none, none⟩, .turn ⟨none, none, none⟩,
    .turn ⟨none, none, write⟩]

theorem write_rounds_two : ∃ s t : PollServer,
    s.user.pending 5 = [bytes "hi"] ∧ textSince s 5 t = bytes "hi" := by
  have hlast : oneQueued.map (fun s => (s.user.pending 5, (s.user 5).datatowrite,
      decide (5 ∈ s.pfd.tail.map PollFd.fd),
      (loop (fun t p a => t.Quiet p a ∧ t.TakesAll 5 p a) (round none ++ round (some 2)) s).map
        fun t => (t.user 5).datatowrite)) = some ([bytes "hi"], some 4, true, some none) := by
    decide +kernel
  obtain ⟨s, hs, hfacts⟩ := Option.map_eq_some_iff.mp hlast
  simp only [Prod.mk.injEq] at hfacts
  obtain ⟨htext, hptr, hmem, hrun⟩ := hfacts
  obtain ⟨t, hrun, hnone⟩ := Option.map_eq_some_iff.mp hrun
  have hrounds := write_rounds 3 _ (reach_loop hs) (of_decide_eq_true hmem) hptr (reach_loop hrun)
  refine ⟨s, t, htext, ?_⟩
  rw [hrounds.1.done hnone, htext]
  rfl


theorem short_write_drops : ¬ ∀ (listensock : Sock) (user : Users) (s t : PollServer) (b d : Sock),
    Reachable (Loop Fresh) (start listensock user) s → d ∈ s.pfd.tail.map PollFd.fd →
    (s.user d).datatowrite = some b →
    (∀ q ∈ s.pfd.tail, q.fd ≠ d → (s.user q.fd).datatowrite = none) →
    Reachable (Loop Quiet) s t → s.Kept d t := by
  intro h
  have hlast : oneQueued.map (fun s => (s.user.pending 5, decide ((s.user 5).datatowrite = some 4 ∧
      5 ∈ s.pfd.tail.map PollFd.fd ∧
      ∀ q ∈ s.pfd.tail, q.fd ≠ 5 → (s.user q.fd).datatowrite = none),
      (loop Quiet (round (some 1)) s).map fun t => ((t.user 5).datatowrite, textSince s 5 t))) =
      some ([bytes "hi"], true, some (none, bytes "h")) := by
    decide +kernel
  obtain ⟨s, hs, hfacts⟩ := Option.map_eq_some_iff.mp hlast
  simp only [Prod.mk.injEq] at hfacts
  obtain ⟨htext, htable, hrun⟩ := hfacts
  obtain ⟨hptr, hmem, hothers⟩ := of_decide_eq_true htable
  obtain ⟨t, hrun, ht⟩ := Option.map_eq_some_iff.mp hrun
  obtain ⟨hnone, hwritten⟩ := Prod.mk.inj ht
  have hkept := h 3 _ s t 4 5 (reach_loop hs) hmem hptr hothers (reach_loop hrun)
  have hdone := hkept.done hnone
  rw [hwritten, htext] at hdone
  exact absurd hdone (by decide)

end PollServer

end LinuxStudy

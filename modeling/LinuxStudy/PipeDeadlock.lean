import LinuxStudy.CgiPair

/-! When the server and a CGI program wait for each other. The thread feeds the
whole body before it reads any output, and keeps `input[1]` open until it has
read all of it. -/

namespace LinuxStudy

section Deadlock

variable {σ : Type*} (next : σ → ProgAct σ) (cin cout : Nat) (job : CgiJob σ)

def CgiPair.ParentBlocked (s : CgiPair σ) : Prop :=
  s.child ≠ .exited ∧
    ((∃ n ch, s.parent = .feed n ch ∧ cin ≤ s.input.length) ∨ (s.parent = .drain ∧ s.output = []))

def CgiPair.ChildBlocked (s : CgiPair σ) : Prop :=
  ∃ q, s.child = .run q ∧
    ((∃ b q', next q = .write b q' ∧ cout ≤ s.output.length ∧ s.parent.opens .out0 = true) ∨
      (∃ m k, next q = .read m k ∧ s.input = [] ∧ s.parent.opens .in1 = true))

def CgiPair.Deadlock (s : CgiPair σ) : Prop :=
  s.ParentBlocked cin ∧ s.ChildBlocked next cout

/-- A program by itself: its state, the bytes it has yet to read and the number
of bytes it has written. -/
structure ProgRun (σ : Type*) where
  state : σ
  rest : List Byte
  written : Nat

inductive ProgRun.Step : ProgRun σ → ProgRun σ → Prop
  | write {q q' : σ} {b : Byte} {rest : List Byte} {w : Nat} (hq : next q = .write b q') :
      Step ⟨q, rest, w⟩ ⟨q', rest, w + 1⟩
  | read {q : σ} {m : Nat} {k : List Byte → σ} {c rest : List Byte} {w : Nat}
      (hq : next q = .read m k) (hne : c ≠ []) (hle : c.length ≤ m + 1) (hcin : c.length ≤ cin) :
      Step ⟨q, c ++ rest, w⟩ ⟨k c, rest, w⟩

def ProgRun.Starves (r : ProgRun σ) : Prop := ∃ m k, next r.state = .read m k ∧ r.rest = []

/-- The program writes more than its pipe holds while more than the other pipe
holds is still to be read. -/
def ProgRun.Overfills (r : ProgRun σ) : Prop :=
  ∃ b q', next r.state = .write b q' ∧ cout ≤ r.written ∧ cin < r.rest.length

def CgiJob.body : List Byte := cgiBody job.method job.len job.rest

/-- The bytes that the thread has yet to write to `input[1]`. -/
def ParentPc.toFeed (unread : List Byte) : ParentPc → List Byte
  | .accept => bodyBytes (feedCount job.method job.len) 0 unread
  | .pipeIn => bodyBytes (feedCount job.method job.len) 0 unread
  | .pipeOut => bodyBytes (feedCount job.method job.len) 0 unread
  | .fork => bodyBytes (feedCount job.method job.len) 0 unread
  | .closeIn0 => bodyBytes (feedCount job.method job.len) 0 unread
  | .closeOut1 => bodyBytes (feedCount job.method job.len) 0 unread
  | .recv n ch => bodyBytes n ch unread
  | .feed n ch => ch :: bodyBytes n ch unread
  | _ => []

def CgiPair.ahead (s : CgiPair σ) : List Byte := s.input ++ s.parent.toFeed job s.unread

structure CgiPair.Alone (s : CgiPair σ) : Prop where
  input_le : s.input.length ≤ cin
  before : s.parent ≠ .killed → s.child.started = false → s.ahead job = job.body
  running : s.parent ≠ .killed → ∀ q, s.child = .run q →
    Relation.ReflTransGen (ProgRun.Step next cin) ⟨job.program, job.body, 0⟩
      ⟨q, s.ahead job, s.written.length⟩

variable {next cin cout job}

theorem bodyBytes_succ (n : Nat) (ch : Byte) (s : List Byte) :
    bodyBytes (n + 1) ch s = s.headD ch :: bodyBytes n (s.headD ch) s.tail := by
  cases s <;> rfl

theorem bodyBytes_length (n : Nat) (ch : Byte) (s : List Byte) : (bodyBytes n ch s).length = n := by
  induction n generalizing ch s with
  | zero => rfl
  | succ n ih => rw [bodyBytes_succ, List.length_cons, ih]

theorem ParentPc.toFeed_goes {p pc : ParentPc} (h : p.goes job = some pc) (unread : List Byte) :
    pc.toFeed job unread = p.toFeed job unread := by
  rw [ParentPc.goes.eq_def] at h
  split at h
  all_goals cases h
  all_goals rfl

namespace CgiPair.Alone

variable {s t : CgiPair σ}

theorem start : (CgiPair.start job).Alone next cin job :=
  ⟨Nat.zero_le _, fun _ _ => rfl, nofun⟩

theorem moveParent (h : s.Alone next cin job) {pc : ParentPc} {unread input : List Byte}
    (output sent : List Byte) (hnk : s.parent ≠ .killed) (hlen : input.length ≤ cin)
    (hahead : input ++ pc.toFeed job unread = s.ahead job) :
    Alone next cin job { s with
      parent := pc, unread := unread, input := input, output := output, sent := sent } where
  input_le := hlen
  before _ hs := hahead.trans (h.before hnk hs)
  running _ q hq := by
    have hrun := h.running hnk q hq
    rwa [← hahead] at hrun

theorem step (h : s.Alone next cin job) (ho : s.Ordered) (hst : Step next cin cout job s t) :
    t.Alone next cin job := by
  cases hst with
  | parentGoes pc hp =>
    have hnk := (ParentPc.goes_spec hp).1
    exact h.moveParent s.output s.sent hnk h.input_le (by rw [ParentPc.toFeed_goes hp]; rfl)
  | fork hp =>
    have hnk : s.parent ≠ .killed := by rw [hp]; nofun
    have hbody := h.before hnk (by rw [ho.unborn hnk (by rw [hp]; rfl)]; rfl)
    rw [ahead, hp] at hbody
    exact ⟨h.input_le, fun _ _ => hbody, fun _ q hq => nomatch hq⟩
  | recv hp =>
    refine h.moveParent s.output s.sent (by rw [hp]; nofun) h.input_le ?_
    rw [ahead, hp, ParentPc.toFeed, ParentPc.toFeed, bodyBytes_succ]
  | feed hp hroom =>
    refine h.moveParent s.output s.sent (by rw [hp]; nofun) ?_ ?_
    · simpa [Nat.succ_le_iff] using hroom
    · rw [ahead, hp, ParentPc.toFeed, ParentPc.toFeed, List.append_assoc]
      rfl
  | drain hp ho =>
    exact h.moveParent _ s.sent (by rw [hp]; nofun) h.input_le (by rw [ahead, hp]; rfl)
  | forward hp =>
    exact h.moveParent s.output _ (by rw [hp]; nofun) h.input_le (by rw [ahead, hp]; rfl)
  | drained hp _ hc =>
    exact h.moveParent s.output s.sent (by rw [hp]; nofun) h.input_le (by rw [ahead, hp]; rfl)
  | wait hp hc =>
    exact h.moveParent s.output s.sent (by rw [hp]; nofun) h.input_le (by rw [ahead, hp]; rfl)
  | killed => exact ⟨h.input_le, fun hnk => absurd rfl hnk, fun hnk => absurd rfl hnk⟩
  | childGoes pc hc =>
    have hs := (ChildPc.goes_spec hc).1
    refine ⟨h.input_le, fun hnk _ => h.before hnk hs, fun hnk q hq => ?_⟩
    have hprog : q = job.program := ChildPc.goes_run (hc.trans (congrArg some hq))
    have hwritten := (ho.announced hs).2.1
    have hbody := h.before hnk hs
    simp only [ahead] at hbody ⊢
    rw [hprog, hbody, hwritten]
    exact .refl
  | status hc => exact ⟨h.input_le, fun hnk _ => h.before hnk (by rw [hc]; rfl), nofun⟩
  | blank hc => exact ⟨h.input_le, fun hnk _ => h.before hnk (by rw [hc]; rfl), nofun⟩
  | write hc hq _ =>
    refine ⟨h.input_le, nofun, fun hnk q hq' => ?_⟩
    cases hq'
    have hrun := (h.running hnk _ hc).tail (.write hq)
    simpa [ahead] using hrun
  | read hc hq hi hne hle =>
    have hlen := h.input_le
    rw [hi, List.length_append] at hlen
    refine ⟨Nat.le_of_add_left_le hlen, nofun, fun hnk q hq' => ?_⟩
    cases hq'
    have hrun := h.running hnk _ hc
    rw [ahead, hi, List.append_assoc] at hrun
    exact hrun.tail (.read hq hne hle (Nat.le_of_add_right_le hlen))
  | readEnd hc _ _ hp =>
    refine ⟨h.input_le, nofun, fun hnk => ?_⟩
    exact absurd ((ho.opens hc hnk).1.symm.trans hp) Bool.noConfusion
  | exit hc _ => exact ⟨h.input_le, nofun, nofun⟩
  | sigpipe hc _ _ => exact ⟨h.input_le, nofun, nofun⟩

end CgiPair.Alone

theorem CgiPair.Alone.stuck {s : CgiPair σ} (h : s.Alone next cin job) (ho : s.Ordered)
    (hin : 0 < cin) (hout : 0 < cout) (hd : s.Deadlock next cin cout) :
    ∃ r, Relation.ReflTransGen (ProgRun.Step next cin) ⟨job.program, job.body, 0⟩ r ∧
      (r.Starves next ∨ r.Overfills next cin cout) := by
  obtain ⟨⟨-, hparent⟩, q, hc, hchild⟩ := hd
  have hnk : s.parent ≠ .killed := by
    rintro hk
    rcases hparent with ⟨n, ch, hp, -⟩ | ⟨hp, -⟩
    · exact nomatch hk.symm.trans hp
    · exact nomatch hk.symm.trans hp
  refine ⟨_, h.running hnk q hc, ?_⟩
  rcases hparent with ⟨n, ch, hp, hfull⟩ | ⟨hp, hempty⟩
  · rcases hchild with ⟨b, q', hq, hfull', -⟩ | ⟨m, k, hq, hi, -⟩
    · refine .inr ⟨b, q', hq, hfull'.trans (ho.output_le hc hnk), ?_⟩
      rw [CgiPair.ahead, hp, ParentPc.toFeed]
      simp only [List.length_append, List.length_cons]
      omega
    · rw [hi] at hfull
      exact absurd hfull (Nat.not_le.mpr hin)
  · rcases hchild with ⟨b, q', hq, hfull', -⟩ | ⟨m, k, hq, hi, -⟩
    · rw [hempty] at hfull'
      exact absurd hfull' (Nat.not_le.mpr hout)
    · exact .inl ⟨m, k, hq, by rw [CgiPair.ahead, hp, hi]; rfl⟩

variable (next cin cout job)

/-- The thread is feeding the body and the program is where `r` is. -/
structure CgiPair.Feeding (r : ProgRun σ) (s : CgiPair σ) : Prop where
  reach : s.Reach next cin cout job
  child : s.child = .run r.state
  parent : ∃ n ch, s.parent = .recv n ch
  ahead : s.ahead job = r.rest
  input_le : s.input.length ≤ cin
  output_eq : s.output.length = r.written
  output_le : s.output.length ≤ cout

structure CgiPair.Draining (r : ProgRun σ) (s : CgiPair σ) : Prop where
  reach : s.Reach next cin cout job
  child : s.child = .run r.state
  parent : s.parent = .drain
  input_eq : s.input = r.rest
  rest_le : r.rest.length ≤ cin
  output_le : s.output.length ≤ cout

variable {next cin cout job} {r : ProgRun σ} {s : CgiPair σ}

theorem CgiPair.feeding_start (next : σ → ProgAct σ) (cin cout : Nat) (job : CgiJob σ) :
    ∃ s, CgiPair.Feeding next cin cout job ⟨job.program, job.body, 0⟩ s := by
  have h0 : (start job).Reach next cin cout job := .refl
  have h1 := h0.tail (.parentGoes .pipeIn rfl)
  have h2 := h1.tail (.parentGoes .pipeOut rfl)
  have h3 := h2.tail (.parentGoes .fork rfl)
  have h4 := h3.tail (.fork rfl)
  have h5 := h4.tail (.parentGoes .closeOut1 rfl)
  have h6 := h5.tail (.parentGoes (.recv (feedCount job.method job.len) 0) rfl)
  have h7 := h6.tail (.childGoes .closeOut0 rfl)
  have h8 := h7.tail (.childGoes .status rfl)
  have h9 := h8.tail (.status rfl)
  have h10 := h9.tail (.blank rfl)
  have h11 := h10.tail (.childGoes .dupOut rfl)
  have h12 := h11.tail (.childGoes .exec rfl)
  have h13 := h12.tail (.childGoes (.run job.program) rfl)
  exact ⟨_, h13, rfl, ⟨_, _, rfl⟩, rfl, Nat.zero_le _, rfl, Nat.zero_le _⟩

theorem CgiPair.Feeding.feed (h : s.Feeding next cin cout job r) (hroom : s.input.length < cin)
    (hmore : s.input.length < r.rest.length) :
    ∃ t : CgiPair σ, t.Feeding next cin cout job r ∧ t.input.length = s.input.length + 1 := by
  obtain ⟨n, ch, hp⟩ := h.parent
  have hahead := h.ahead
  rw [CgiPair.ahead, hp, ParentPc.toFeed] at hahead
  cases n with
  | zero =>
    rw [← hahead] at hmore
    simp [bodyBytes] at hmore
  | succ n =>
    have h1 := h.reach.tail (.recv hp)
    have h2 := h1.tail (.feed rfl hroom)
    refine ⟨_, ⟨h2, h.child, ⟨_, _, rfl⟩, ?_, ?_, h.output_eq, h.output_le⟩, ?_⟩
    · rw [← hahead, bodyBytes_succ]
      simp [CgiPair.ahead, ParentPc.toFeed]
    · simpa [Nat.succ_le_iff] using hroom
    · simp

theorem CgiPair.Feeding.feedTo (h : s.Feeding next cin cout job r) {j : Nat}
    (hj : s.input.length ≤ j) (hcin : j ≤ cin) (hrest : j ≤ r.rest.length) :
    ∃ t : CgiPair σ, t.Feeding next cin cout job r ∧ t.input.length = j := by
  induction j, hj using Nat.le_induction with
  | base => exact ⟨s, h, rfl⟩
  | succ j _ ih =>
    obtain ⟨t, ht, hlen⟩ := ih (by omega) (by omega)
    obtain ⟨u, hu, hlen'⟩ := ht.feed (by omega) (by omega)
    exact ⟨u, hu, by rw [hlen', hlen]⟩

theorem CgiPair.Feeding.drains (h : s.Feeding next cin cout job r) (hle : r.rest.length ≤ cin) :
    ∃ t : CgiPair σ, t.Draining next cin cout job r := by
  have hin : s.input.length ≤ r.rest.length := by
    rw [← h.ahead, CgiPair.ahead, List.length_append]
    exact Nat.le_add_right _ _
  obtain ⟨t, ht, hlen⟩ := h.feedTo hin hle (Nat.le_refl _)
  obtain ⟨n, ch, hp⟩ := ht.parent
  have hahead := ht.ahead
  have hn : n = 0 := by
    have hlen' := congrArg List.length hahead
    rw [CgiPair.ahead, hp, ParentPc.toFeed, List.length_append, bodyBytes_length] at hlen'
    omega
  subst n
  refine ⟨_, ht.reach.tail (.parentGoes .drain (by rw [hp]; rfl)), ht.child, rfl, ?_, hle,
    ht.output_le⟩
  rw [← hahead, CgiPair.ahead, hp]
  exact (List.append_nil _).symm

theorem CgiPair.Draining.drain (h : s.Draining next cin cout job r) (hne : s.output ≠ []) :
    ∃ t : CgiPair σ, t.Draining next cin cout job r ∧ t.output.length + 1 = s.output.length := by
  obtain ⟨ch, o, ho⟩ := List.exists_cons_of_ne_nil hne
  have h1 := h.reach.tail (.drain h.parent ho)
  have h2 := h1.tail (.forward rfl)
  have hlen : o.length + 1 = s.output.length := by rw [ho, List.length_cons]
  have hle : o.length ≤ cout := (Nat.le_succ _).trans (hlen.le.trans h.output_le)
  exact ⟨_, ⟨h2, h.child, rfl, h.input_eq, h.rest_le, hle⟩, hlen⟩

theorem CgiPair.Draining.empty (h : s.Draining next cin cout job r) :
    ∃ t : CgiPair σ, t.Draining next cin cout job r ∧ t.output = [] := by
  induction hn : s.output.length generalizing s with
  | zero => exact ⟨s, h, List.length_eq_zero_iff.mp hn⟩
  | succ n ih =>
    obtain ⟨t, ht, hlen⟩ := h.drain (List.ne_nil_of_length_eq_add_one hn)
    exact ih ht (by omega)

theorem CgiPair.deadlock_of_starves (h : s.Draining next cin cout job r) (hr : r.Starves next) :
    ∃ t : CgiPair σ, t.Reach next cin cout job ∧ t.Deadlock next cin cout := by
  obtain ⟨m, k, hq, hrest⟩ := hr
  obtain ⟨t, ht, hempty⟩ := h.empty
  refine ⟨t, ht.reach, ⟨by rw [ht.child]; nofun, .inr ⟨ht.parent, hempty⟩⟩, r.state, ht.child,
    .inr ⟨m, k, hq, ht.input_eq.trans hrest, ?_⟩⟩
  rw [ht.parent]
  rfl

theorem CgiPair.deadlock_of_overfills (h : s.Feeding next cin cout job r)
    (hr : r.Overfills next cin cout) :
    ∃ t : CgiPair σ, t.Reach next cin cout job ∧ t.Deadlock next cin cout := by
  obtain ⟨b, q', hq, hout, hin⟩ := hr
  obtain ⟨t, ht, hlen⟩ := h.feedTo h.input_le (Nat.le_refl _) hin.le
  obtain ⟨n, ch, hp⟩ := ht.parent
  have hahead := congrArg List.length ht.ahead
  rw [CgiPair.ahead, hp, ParentPc.toFeed, List.length_append, bodyBytes_length] at hahead
  obtain ⟨n, rfl⟩ : ∃ n', n = n' + 1 := ⟨n - 1, by omega⟩
  refine ⟨_, ht.reach.tail (.recv hp), ⟨?_, .inl ⟨_, _, rfl, hlen.ge⟩⟩, r.state, ht.child,
    .inl ⟨b, q', hq, ?_, rfl⟩⟩
  · rw [ht.child]
    nofun
  · rw [ht.output_eq]
    exact hout

theorem CgiPair.Draining.write {q q' : σ} {b : Byte} {rest : List Byte} {w : Nat}
    (h : s.Draining next cin cout job ⟨q, rest, w⟩) (hout : 0 < cout) (hq : next q = .write b q') :
    ∃ t : CgiPair σ, t.Draining next cin cout job ⟨q', rest, w + 1⟩ := by
  obtain ⟨t, ht, hroom⟩ : ∃ t : CgiPair σ, t.Draining next cin cout job ⟨q, rest, w⟩ ∧
      t.output.length < cout := by
    rcases Nat.lt_or_ge s.output.length cout with hlt | hge
    · exact ⟨s, h, hlt⟩
    · obtain ⟨t, ht, hlen⟩ := h.drain (List.ne_nil_of_length_pos (hout.trans_le hge))
      exact ⟨t, ht, Nat.lt_of_succ_le (hlen.le.trans h.output_le)⟩
  refine ⟨_, ht.reach.tail (.write ht.child hq hroom), rfl, ht.parent, ht.input_eq, ht.rest_le, ?_⟩
  simpa [Nat.succ_le_iff] using hroom

theorem CgiPair.Feeding.write {q q' : σ} {b : Byte} {rest : List Byte} {w : Nat}
    (h : s.Feeding next cin cout job ⟨q, rest, w⟩) (hq : next q = .write b q')
    (hroom : s.output.length < cout) :
    ∃ t : CgiPair σ, t.Feeding next cin cout job ⟨q', rest, w + 1⟩ := by
  refine ⟨_, h.reach.tail (.write h.child hq hroom), rfl, h.parent, h.ahead, h.input_le, ?_, ?_⟩
  · simpa using h.output_eq
  · simpa [Nat.succ_le_iff] using hroom

theorem CgiPair.Feeding.read {q : σ} {m : Nat} {k : List Byte → σ} {c rest : List Byte} {w : Nat}
    (h : s.Feeding next cin cout job ⟨q, c ++ rest, w⟩) (hq : next q = .read m k) (hne : c ≠ [])
    (hle : c.length ≤ m + 1) (hcin : c.length ≤ cin) :
    ∃ t : CgiPair σ, t.Feeding next cin cout job ⟨k c, rest, w⟩ := by
  obtain ⟨t, ht, hlen⟩ : ∃ t : CgiPair σ, t.Feeding next cin cout job ⟨q, c ++ rest, w⟩ ∧
      c.length ≤ t.input.length := by
    rcases Nat.le_total c.length s.input.length with hc | hc
    · exact ⟨s, h, hc⟩
    · obtain ⟨t, ht, hlen⟩ := h.feedTo hc hcin (by simp)
      exact ⟨t, ht, hlen.ge⟩
  have hahead := ht.ahead
  rw [CgiPair.ahead] at hahead
  obtain ⟨i, hi⟩ : c <+: t.input :=
    List.prefix_of_prefix_length_le ⟨rest, rfl⟩ ⟨_, hahead⟩ hlen
  have hin := ht.input_le
  rw [← hi, List.append_assoc] at hahead
  rw [← hi, List.length_append] at hin
  exact ⟨_, ht.reach.tail (.read ht.child hq hi.symm hne hle), rfl, ht.parent,
    List.append_cancel_left hahead, Nat.le_of_add_left_le hin, ht.output_eq, ht.output_le⟩

theorem CgiPair.Draining.read {q : σ} {m : Nat} {k : List Byte → σ} {c rest : List Byte} {w : Nat}
    (h : s.Draining next cin cout job ⟨q, c ++ rest, w⟩) (hq : next q = .read m k) (hne : c ≠ [])
    (hle : c.length ≤ m + 1) : ∃ t : CgiPair σ, t.Draining next cin cout job ⟨k c, rest, w⟩ := by
  have hrest := h.rest_le
  rw [List.length_append] at hrest
  exact ⟨_, h.reach.tail (.read h.child hq h.input_eq hne hle), rfl, h.parent, rfl,
    Nat.le_of_add_left_le hrest, h.output_le⟩

theorem CgiPair.follow {r r' : ProgRun σ} (hout : 0 < cout) (hr : ¬ r.Overfills next cin cout)
    (hst : ProgRun.Step next cin r r')
    (h : ∃ s : CgiPair σ, s.Feeding next cin cout job r ∨ s.Draining next cin cout job r) :
    ∃ t : CgiPair σ, t.Feeding next cin cout job r' ∨ t.Draining next cin cout job r' := by
  obtain ⟨s, h | h⟩ := h
  · cases hst with
    | write hq =>
      rcases Nat.lt_or_ge s.output.length cout with hlt | hge
      · exact (h.write hq hlt).imp fun _ => .inl
      · have hrest := Nat.le_of_not_lt fun hlt => hr ⟨_, _, hq, h.output_eq ▸ hge, hlt⟩
        obtain ⟨t, ht⟩ := h.drains hrest
        exact (ht.write hout hq).imp fun _ => .inr
    | read hq hne hle hcin => exact (h.read hq hne hle hcin).imp fun _ => .inl
  · cases hst with
    | write hq => exact (h.write hout hq).imp fun _ => .inr
    | read hq hne hle _ => exact (h.read hq hne hle).imp fun _ => .inr

theorem CgiPair.deadlock_of_run (hout : 0 < cout) {r : ProgRun σ}
    (h : Relation.ReflTransGen (ProgRun.Step next cin) ⟨job.program, job.body, 0⟩ r) :
    (∃ t : CgiPair σ, t.Reach next cin cout job ∧ t.Deadlock next cin cout) ∨
      ∃ s : CgiPair σ, s.Feeding next cin cout job r ∨ s.Draining next cin cout job r := by
  induction h with
  | refl => exact .inr ((CgiPair.feeding_start next cin cout job).imp fun _ => .inl)
  | @tail r r' _ hst ih =>
    rcases ih with hd | ⟨s, hs⟩
    · exact .inl hd
    · by_cases hr : r.Overfills next cin cout
      · rcases hs with hs | hs
        · exact .inl (CgiPair.deadlock_of_overfills hs hr)
        · obtain ⟨b, q', -, -, hlt⟩ := hr
          exact absurd hs.rest_le (Nat.not_le.mpr hlt)
      · exact .inr (CgiPair.follow hout hr hst ⟨s, hs⟩)

/-- The server and the program never wait for each other exactly when the
program by itself neither reads on after the body nor writes more than its pipe
holds while more of the body than the other pipe holds is unread. -/
theorem no_pipe_deadlock_iff (next : σ → ProgAct σ) (cin cout : Nat) (job : CgiJob σ)
    (hin : 0 < cin) (hout : 0 < cout) :
    (∀ s : CgiPair σ, s.Reach next cin cout job → ¬ s.Deadlock next cin cout) ↔
      ∀ r, Relation.ReflTransGen (ProgRun.Step next cin) ⟨job.program, job.body, 0⟩ r →
        ¬ r.Starves next ∧ ¬ r.Overfills next cin cout := by
  constructor
  · intro h r hrun
    rcases CgiPair.deadlock_of_run hout hrun with ⟨t, ht, hd⟩ | ⟨s, hs⟩
    · exact absurd hd (h t ht)
    · constructor
      · intro hr
        obtain ⟨t, ht⟩ : ∃ t : CgiPair σ, t.Draining next cin cout job r := by
          rcases hs with hs | hs
          · obtain ⟨m, k, -, hrest⟩ := hr
            exact hs.drains (by simp [hrest])
          · exact ⟨s, hs⟩
        obtain ⟨u, hu, hd⟩ := CgiPair.deadlock_of_starves ht hr
        exact h u hu hd
      · intro hr
        rcases hs with hs | hs
        · obtain ⟨u, hu, hd⟩ := CgiPair.deadlock_of_overfills hs hr
          exact h u hu hd
        · obtain ⟨b, q', -, -, hlt⟩ := hr
          exact absurd hs.rest_le (Nat.not_le.mpr hlt)
  · intro h s hs hd
    have hinv := Reachable.invariant (fun s => s.Ordered ∧ s.Alone next cin job) hs
      ⟨.start job, .start⟩ fun a b hab hst => ⟨hab.1.step hst, hab.2.step hab.1 hst⟩
    obtain ⟨r, hrun, hr⟩ := hinv.2.stuck hinv.1 hin hout hd
    exact hr.elim (h r hrun).1 (h r hrun).2

end Deadlock

/-- Reads as many bytes as it is told to, and then writes them. -/
def echoBody : Nat × List Byte → ProgAct (Nat × List Byte)
  | (n + 1, l) => .read 0 fun c => (n, l ++ c)
  | (0, b :: l) => .write b (0, l)
  | (0, []) => .exit

theorem echoBody_step {cin : Nat} {r r' : ProgRun (Nat × List Byte)}
    (h : r.state.1 = r.rest.length) (hst : ProgRun.Step echoBody cin r r') :
    r'.state.1 = r'.rest.length := by
  cases hst with
  | @write q q' b rest w hq =>
    rcases q with ⟨- | n, - | ⟨b, l⟩⟩
    · cases hq
    · cases hq
      exact h
    · cases hq
    · cases hq
  | @read q m k c rest w hq hne hle hcin =>
    rcases q with ⟨- | n, - | ⟨b, l⟩⟩
    · cases hq
    · cases hq
    all_goals
      cases hq
      have hone := List.length_pos_iff.mpr hne
      change n + 1 = (c ++ rest).length at h
      rw [List.length_append] at h
      change n = rest.length
      omega

def postJob : CgiJob (Nat × List Byte) := ⟨bytes "POST", 2, bytes "hi", (2, [])⟩

theorem no_pipe_deadlock_exit : ¬ ∃ s : CgiPair (Nat × List Byte),
    s.Reach echoBody 1 1 postJob ∧ s.Deadlock echoBody 1 1 := by
  rintro ⟨s, h, hd⟩
  refine (no_pipe_deadlock_iff echoBody 1 1 postJob Nat.one_pos Nat.one_pos).mpr
    (fun r hrun => ?_) s h hd
  have hrest := Reachable.invariant (fun r => r.state.1 = r.rest.length) hrun (by decide)
    fun _ _ hr hst => echoBody_step hr hst
  obtain ⟨⟨n, l⟩, rest, w⟩ := r
  obtain rfl : n = rest.length := hrest
  constructor
  · rintro ⟨m, k, hq, rfl⟩
    cases l <;> cases hq
  · rintro ⟨b, q', hq, -, hlt⟩
    cases rest with
    | nil => exact absurd hlt (Nat.not_lt_zero 1)
    | cons c rest => cases hq

def getJob : CgiJob Bool := ⟨bytes "GET", 0, [], true⟩

def slurp : Bool → ProgAct Bool
  | true => .read 0 fun c => c ≠ []
  | false => .exit

theorem pipe_deadlock_slurp :
    ¬ ∀ s : CgiPair Bool, s.Reach slurp 65536 65536 getJob → ¬ s.Deadlock slurp 65536 65536 := by
  intro h
  have hbody : getJob.body = [] := by decide
  obtain ⟨s, hs⟩ := CgiPair.feeding_start slurp 65536 65536 getJob
  obtain ⟨t, ht⟩ := hs.drains (by simp [hbody])
  obtain ⟨u, hu, hd⟩ := CgiPair.deadlock_of_starves ht ⟨0, _, rfl, hbody⟩
  exact h u hu hd

end LinuxStudy

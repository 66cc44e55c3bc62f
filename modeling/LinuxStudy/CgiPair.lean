import LinuxStudy.RequestHandling
import LinuxStudy.TransitionSystem

/-! The thread that runs `echo_cgi`, its child and their two pipes as one
transition system, with the calls in the order of the source. A descriptor of
the pair may also be open in some other process, so a write can always succeed
and end-of-file may come once the pair itself holds no write end. What the child
prints into its arrays fits them here. -/

namespace LinuxStudy

/-- What a program does next; `read m` asks for up to `m + 1` bytes. -/
inductive ProgAct (σ : Type*)
  | exit
  | write (b : Byte) (q : σ)
  | read (m : Nat) (k : List Byte → σ)

/-- A CGI request: the method, the declared length, the connection behind the
header block, and the program's first state. -/
structure CgiJob (σ : Type*) where
  method : List Byte
  len : Int
  rest : List Byte
  program : σ

/-- Where the thread stands: the call it makes next, and in the copying loops
the bytes left to feed and the variable `ch`. -/
inductive ParentPc
  | accept | pipeIn | pipeOut | fork | closeIn0 | closeOut1
  | recv (n : Nat) (ch : Byte)
  | feed (n : Nat) (ch : Byte)
  | drain
  | forward (ch : Byte)
  | closeIn1 | closeOut0 | closeConn | wait | returned | killed

inductive ChildPc (σ : Type*)
  | unborn | closeIn1 | closeOut0 | status | blank | dupIn | dupOut | exec
  | run (q : σ)
  | exited

structure CgiPair (σ : Type*) where
  parent : ParentPc
  child : ChildPc σ
  unread : List Byte
  input : List Byte
  output : List Byte
  sent : List Byte
  written : List Byte

def ParentPc.descrs : ParentPc → List Descr
  | .accept => []
  | .pipeIn => [.conn]
  | .pipeOut => [.conn, .in0, .in1]
  | .fork => [.conn, .in0, .in1, .out0, .out1]
  | .closeIn0 => [.conn, .in0, .in1, .out0, .out1]
  | .closeOut1 => [.conn, .in1, .out0, .out1]
  | .closeOut0 => [.conn, .out0]
  | .closeConn => [.conn]
  | .wait => []
  | .returned => []
  | .killed => []
  | _ => [.conn, .in1, .out0]

def ParentPc.opens (p : ParentPc) (d : Descr) : Bool := d ∈ p.descrs

def ParentPc.closes : ParentPc → Option Descr
  | .closeIn0 => some .in0
  | .closeOut1 => some .out1
  | .closeIn1 => some .in1
  | .closeOut0 => some .out0
  | .closeConn => some .conn
  | _ => none

def ChildPc.closes {σ : Type*} : ChildPc σ → Option Descr
  | .closeIn1 => some .in1
  | .closeOut0 => some .out0
  | _ => none

section Pair

variable {σ : Type*} (next : σ → ProgAct σ) (cin cout : Nat) (job : CgiJob σ)

/-- The steps of the thread that wait for nothing and move no byte. -/
def ParentPc.goes : ParentPc → Option ParentPc
  | .accept => some .pipeIn
  | .pipeIn => some .pipeOut
  | .pipeOut => some .fork
  | .closeIn0 => some .closeOut1
  | .closeOut1 => some (.recv (feedCount job.method job.len) 0)
  | .recv 0 _ => some .drain
  | .closeIn1 => some .closeOut0
  | .closeOut0 => some .closeConn
  | .closeConn => some .wait
  | _ => none

def ChildPc.goes : ChildPc σ → Option (ChildPc σ)
  | .closeIn1 => some .closeOut0
  | .closeOut0 => some .status
  | .dupIn => some .dupOut
  | .dupOut => some .exec
  | .exec => some (.run job.program)
  | _ => none

def CgiPair.start : CgiPair σ := ⟨.accept, .unborn, job.rest, [], [], [], []⟩

/-- At the end of the connection `recv` leaves `ch` as it is. Behind the last byte
of the output only the child can still hold the write end. `killed` is `exit` in
some thread, or SIGPIPE; `sigpipe` is one in the program. -/
inductive CgiPair.Step : CgiPair σ → CgiPair σ → Prop
  | parentGoes {s : CgiPair σ} (pc : ParentPc) (hp : s.parent.goes job = some pc) :
      Step s { s with parent := pc }
  | fork {s : CgiPair σ} (hp : s.parent = .fork) :
      Step s { s with parent := .closeIn0, child := .closeIn1 }
  | recv {s : CgiPair σ} {n : Nat} {ch : Byte} (hp : s.parent = .recv (n + 1) ch) :
      Step s { s with parent := .feed n (s.unread.headD ch), unread := s.unread.tail }
  | feed {s : CgiPair σ} {n : Nat} {ch : Byte} (hp : s.parent = .feed n ch)
      (hroom : s.input.length < cin) :
      Step s { s with parent := .recv n ch, input := s.input ++ [ch] }
  | drain {s : CgiPair σ} {ch : Byte} {o : List Byte} (hp : s.parent = .drain)
      (ho : s.output = ch :: o) : Step s { s with parent := .forward ch, output := o }
  | forward {s : CgiPair σ} {ch : Byte} (hp : s.parent = .forward ch) :
      Step s { s with parent := .drain, sent := s.sent ++ [ch] }
  | drained {s : CgiPair σ} (hp : s.parent = .drain) (ho : s.output = [])
      (hc : s.child = .exited) : Step s { s with parent := .closeIn1 }
  | wait {s : CgiPair σ} (hp : s.parent = .wait) (hc : s.child = .exited) :
      Step s { s with parent := .returned }
  | killed {s : CgiPair σ} : Step s { s with parent := .killed }
  | childGoes {s : CgiPair σ} (pc : ChildPc σ) (hc : s.child.goes job = some pc) :
      Step s { s with child := pc }
  | status {s : CgiPair σ} (hc : s.child = .status) :
      Step s { s with child := .blank, sent := s.sent ++ okLine }
  | blank {s : CgiPair σ} (hc : s.child = .blank) :
      Step s { s with child := .dupIn, sent := s.sent ++ crlf }
  | write {s : CgiPair σ} {q q' : σ} {b : Byte} (hc : s.child = .run q)
      (hq : next q = .write b q') (hroom : s.output.length < cout) :
      Step s { s with child := .run q', output := s.output ++ [b], written := s.written ++ [b] }
  | read {s : CgiPair σ} {q : σ} {m : Nat} {k : List Byte → σ} {c i : List Byte}
      (hc : s.child = .run q) (hq : next q = .read m k) (hi : s.input = c ++ i) (hne : c ≠ [])
      (hle : c.length ≤ m + 1) : Step s { s with child := .run (k c), input := i }
  | readEnd {s : CgiPair σ} {q : σ} {m : Nat} {k : List Byte → σ} (hc : s.child = .run q)
      (hq : next q = .read m k) (hi : s.input = []) (hp : s.parent.opens .in1 = false) :
      Step s { s with child := .run (k []) }
  | exit {s : CgiPair σ} {q : σ} (hc : s.child = .run q) (hq : next q = .exit) :
      Step s { s with child := .exited }
  | sigpipe {s : CgiPair σ} {q q' : σ} {b : Byte} (hc : s.child = .run q)
      (hq : next q = .write b q') (hp : s.parent.opens .out0 = false) :
      Step s { s with child := .exited }

abbrev CgiPair.Reach (s : CgiPair σ) : Prop := Reachable (Step next cin cout job) (start job) s

def ParentPc.held : ParentPc → List Byte
  | .forward ch => [ch]
  | _ => []

def ParentPc.finished : ParentPc → Bool
  | .closeIn1 => true
  | .closeOut0 => true
  | .closeConn => true
  | .wait => true
  | .returned => true
  | _ => false

def ParentPc.forked : ParentPc → Bool
  | .accept => false
  | .pipeIn => false
  | .pipeOut => false
  | .fork => false
  | .killed => false
  | _ => true

def ChildPc.header : ChildPc σ → List Byte
  | .unborn => []
  | .closeIn1 => []
  | .closeOut0 => []
  | .status => []
  | .blank => okLine
  | _ => okHead

def ChildPc.started : ChildPc σ → Bool
  | .run _ => true
  | .exited => true
  | _ => false

/-- What the client has got in relation to what the program has written. -/
structure CgiPair.Ordered (s : CgiPair σ) : Prop where
  announced : s.child.started = false →
    s.sent = s.child.header ∧ s.written = [] ∧ s.output = [] ∧ s.parent.held = []
  headed : s.child.started = true → okHead <+: s.sent
  relayed : s.child.started = true → s.parent ≠ .killed →
    s.sent ++ s.parent.held ++ s.output = okHead ++ s.written
  behind : s.child.started = true → s.sent <+: okHead ++ s.written
  finished : s.parent.finished = true → s.child = .exited ∧ s.output = []
  forked : s.parent ≠ .killed → (s.parent.forked = true ↔ s.child ≠ .unborn)

variable {next cin cout job}

theorem ParentPc.goes_spec {p pc : ParentPc} (h : p.goes job = some pc) :
    p ≠ .killed ∧ pc.held = p.held ∧ pc.finished = p.finished ∧ pc.forked = p.forked := by
  rw [ParentPc.goes.eq_def] at h
  split at h
  all_goals cases h
  all_goals exact ⟨nofun, rfl, rfl, rfl⟩

theorem ChildPc.goes_spec {c pc : ChildPc σ} (h : c.goes job = some pc) :
    c.started = false ∧ c ≠ .unborn ∧ pc ≠ .unborn ∧ pc.header = c.header := by
  rw [ChildPc.goes.eq_def] at h
  split at h
  all_goals cases h
  all_goals exact ⟨rfl, nofun, nofun, rfl⟩

theorem ChildPc.goes_run {c : ChildPc σ} {q : σ} (h : c.goes job = some (.run q)) :
    q = job.program := by
  rw [ChildPc.goes.eq_def] at h
  split at h
  all_goals cases h
  rfl

theorem ChildPc.header_started {c : ChildPc σ} (h : c.started = true) : c.header = okHead := by
  cases c with
  | run q => rfl
  | exited => rfl
  | _ => exact absurd h Bool.false_ne_true

theorem okLine_append : okLine ++ crlf = okHead := by decide

theorem ChildPc.header_prefix (c : ChildPc σ) : c.header <+: okHead := by
  cases c with
  | unborn | closeIn1 | closeOut0 | status => exact List.nil_prefix
  | blank => exact ⟨crlf, okLine_append⟩
  | _ => exact List.prefix_refl _

theorem ParentPc.held_finished {p : ParentPc} (h : p.finished = true) : p.held = [] := by
  cases p with
  | forward ch => exact absurd h Bool.false_ne_true
  | _ => rfl

theorem ChildPc.started_ne_unborn {c : ChildPc σ} (h : c.started = true) : c ≠ .unborn := by
  rintro rfl
  exact absurd h Bool.false_ne_true

namespace CgiPair.Ordered

variable {s t : CgiPair σ}

theorem start (job : CgiJob σ) : (CgiPair.start job).Ordered where
  announced _ := ⟨rfl, rfl, rfl, rfl⟩
  headed h := absurd h Bool.false_ne_true
  relayed h := absurd h Bool.false_ne_true
  behind h := absurd h Bool.false_ne_true
  finished h := absurd h Bool.false_ne_true
  forked _ := by simp [CgiPair.start, ParentPc.forked]

theorem moveParent (h : s.Ordered) {pc : ParentPc} (unread input : List Byte)
    (hnk : s.parent ≠ .killed) (hheld : pc.held = s.parent.held)
    (hfin : pc.finished = true → s.child = .exited ∧ s.output = [])
    (hforked : pc.forked = s.parent.forked) :
    Ordered { s with parent := pc, unread := unread, input := input } where
  announced hs := hheld ▸ h.announced hs
  headed := h.headed
  relayed hs _ := hheld ▸ h.relayed hs hnk
  behind := h.behind
  finished := hfin
  forked _ := hforked ▸ h.forked hnk

theorem moveChild (h : s.Ordered) {pc : ChildPc σ} (input : List Byte)
    (hs : s.child.started = true) (hpc : pc.started = true) (hne : s.child ≠ .exited) :
    Ordered { s with child := pc, input := input } where
  announced hs' := absurd (hs'.symm.trans hpc) Bool.false_ne_true
  headed _ := h.headed hs
  relayed _ hnk := h.relayed hs hnk
  behind _ := h.behind hs
  finished hf := absurd (h.finished hf).1 hne
  forked hnk := (h.forked hnk).trans
    (iff_of_true (ChildPc.started_ne_unborn hs) (ChildPc.started_ne_unborn hpc))

theorem announce (h : s.Ordered) {pc : ChildPc σ} (text : List Byte) (hs : s.child.started = false)
    (hc : s.child ≠ .unborn) (hpc : pc ≠ .unborn) (hheader : pc.header = s.child.header ++ text) :
    Ordered { s with child := pc, sent := s.sent ++ text } := by
  obtain ⟨hsent, hwritten, houtput, hheld⟩ := h.announced hs
  have hsent' : s.sent ++ text = pc.header := by rw [hsent, hheader]
  refine ⟨fun _ => ⟨hsent', hwritten, houtput, hheld⟩, fun hs' => ?_, fun hs' _ => ?_,
    fun hs' => ?_,
    fun hf => ?_, fun hnk => (h.forked hnk).trans (iff_of_true hc hpc)⟩
  · simp only [hsent', ChildPc.header_started hs', List.prefix_refl]
  · simp only [hsent', hheld, houtput, hwritten, ChildPc.header_started hs', List.append_nil]
  · simp only [hsent', hwritten, ChildPc.header_started hs', List.append_nil, List.prefix_refl]
  · rw [(h.finished hf).1] at hs
    exact absurd hs.symm Bool.false_ne_true

theorem unborn (h : s.Ordered) (hnk : s.parent ≠ .killed) (hp : s.parent.forked = false) :
    s.child = .unborn := by
  simpa [hp] using h.forked hnk

theorem fork (h : s.Ordered) (hp : s.parent = .fork) :
    Ordered ({ s with parent := .closeIn0, child := .closeIn1 } : CgiPair σ) := by
  have hunborn := h.unborn (by rw [hp]; nofun) (by rw [hp]; rfl)
  have hann := h.announced (by rw [hunborn]; rfl)
  rw [hunborn] at hann
  exact ⟨fun _ => ⟨hann.1, hann.2.1, hann.2.2.1, rfl⟩, nofun, nofun, nofun, nofun,
    fun _ => iff_of_true rfl nofun⟩

theorem drain (h : s.Ordered) {ch : Byte} {o : List Byte} (hp : s.parent = .drain)
    (ho : s.output = ch :: o) : Ordered { s with parent := .forward ch, output := o } := by
  have hstarted : s.child.started = true := by
    by_contra hs
    have hann := h.announced (by simpa using hs)
    simp [ho] at hann
  refine ⟨fun hs => absurd (hs.symm.trans hstarted) Bool.false_ne_true, h.headed, fun hs _ => ?_,
    h.behind, nofun, fun _ => ?_⟩
  · have hrel := h.relayed hs (by rw [hp]; nofun)
    rw [hp, ho] at hrel
    simpa [ParentPc.held] using hrel
  · exact iff_of_true rfl (ChildPc.started_ne_unborn hstarted)

theorem forward (h : s.Ordered) {ch : Byte} (hp : s.parent = .forward ch) :
    Ordered { s with parent := .drain, sent := s.sent ++ [ch] } := by
  have hstarted : s.child.started = true := by
    by_contra hs
    have hann := h.announced (by simpa using hs)
    simp [hp, ParentPc.held] at hann
  have hrel := h.relayed hstarted (by rw [hp]; nofun)
  rw [hp] at hrel
  refine ⟨fun hs => absurd (hs.symm.trans hstarted) Bool.false_ne_true,
    fun _ => (h.headed hstarted).trans (List.prefix_append _ _), fun _ _ => ?_, fun _ => ?_,
    nofun, fun _ => iff_of_true rfl (ChildPc.started_ne_unborn hstarted)⟩
  · simpa [ParentPc.held] using hrel
  · exact ⟨s.output, hrel⟩

theorem killed (h : s.Ordered) : Ordered { s with parent := .killed } where
  announced hs := ⟨(h.announced hs).1, (h.announced hs).2.1, (h.announced hs).2.2.1, rfl⟩
  headed := h.headed
  relayed _ hnk := absurd rfl hnk
  behind := h.behind
  finished hf := absurd hf Bool.false_ne_true
  forked hnk := absurd rfl hnk

theorem write (h : s.Ordered) {q : σ} (hc : s.child = .run q) (q' : σ) (b : Byte) :
    Ordered { s with
      child := .run q', output := s.output ++ [b], written := s.written ++ [b] } := by
  have hstarted : s.child.started = true := by rw [hc]; rfl
  refine ⟨nofun, fun _ => h.headed hstarted, fun _ hnk => ?_, fun _ => ?_, fun hf => ?_,
    fun hnk => ?_⟩
  · have hrel := h.relayed hstarted hnk
    simp only [← List.append_assoc, hrel]
  · rw [← List.append_assoc]
    exact (h.behind hstarted).trans (List.prefix_append _ _)
  · exact nomatch hc.symm.trans (h.finished hf).1
  · exact (h.forked hnk).trans (iff_of_true (ChildPc.started_ne_unborn hstarted) nofun)

theorem step (h : s.Ordered) (hst : Step next cin cout job s t) : t.Ordered := by
  cases hst with
  | parentGoes pc hp =>
    obtain ⟨hnk, hheld, hfin, hforked⟩ := ParentPc.goes_spec hp
    exact h.moveParent s.unread s.input hnk hheld (fun hf => h.finished (hfin ▸ hf)) hforked
  | fork hp => exact h.fork hp
  | recv hp =>
    exact h.moveParent _ s.input (by rw [hp]; nofun) (by rw [hp]; rfl) nofun (by rw [hp]; rfl)
  | feed hp _ =>
    exact h.moveParent s.unread _ (by rw [hp]; nofun) (by rw [hp]; rfl) nofun (by rw [hp]; rfl)
  | drain hp ho => exact h.drain hp ho
  | forward hp => exact h.forward hp
  | drained hp ho hc =>
    exact h.moveParent s.unread s.input (by rw [hp]; nofun) (by rw [hp]; rfl) (fun _ => ⟨hc, ho⟩)
      (by rw [hp]; rfl)
  | wait hp hc =>
    exact h.moveParent s.unread s.input (by rw [hp]; nofun) (by rw [hp]; rfl)
      (fun _ => h.finished (by rw [hp]; rfl)) (by rw [hp]; rfl)
  | killed => exact h.killed
  | childGoes pc hc =>
    obtain ⟨hs, hne, hne', hheader⟩ := ChildPc.goes_spec hc
    simpa using h.announce [] hs hne hne' (by simpa using hheader)
  | status hc =>
    exact h.announce okLine (by rw [hc]; rfl) (by rw [hc]; nofun) nofun (by rw [hc]; rfl)
  | blank hc =>
    exact h.announce crlf (by rw [hc]; rfl) (by rw [hc]; nofun) nofun
      (by rw [hc]; exact okLine_append.symm)
  | write hc _ _ => exact h.write hc _ _
  | read hc _ _ _ _ => exact h.moveChild _ (by rw [hc]; rfl) rfl (by rw [hc]; nofun)
  | readEnd hc _ _ _ => exact h.moveChild s.input (by rw [hc]; rfl) rfl (by rw [hc]; nofun)
  | exit hc _ => exact h.moveChild s.input (by rw [hc]; rfl) rfl (by rw [hc]; nofun)
  | sigpipe hc _ _ => exact h.moveChild s.input (by rw [hc]; rfl) rfl (by rw [hc]; nofun)

end CgiPair.Ordered

theorem CgiPair.Ordered.output_le {s : CgiPair σ} (h : s.Ordered) {q : σ} (hc : s.child = .run q)
    (hnk : s.parent ≠ .killed) : s.output.length ≤ s.written.length := by
  have hstarted : s.child.started = true := by rw [hc]; rfl
  have hlen := congrArg List.length (h.relayed hstarted hnk)
  have hhead := (h.headed hstarted).length_le
  simp only [List.length_append] at hlen
  omega

theorem CgiPair.Ordered.sent_prefix {s : CgiPair σ} (h : s.Ordered) :
    s.sent <+: okHead ++ s.written := by
  cases hs : s.child.started with
  | true => exact h.behind hs
  | false =>
    obtain ⟨hsent, hwritten, -, -⟩ := h.announced hs
    rw [hsent, hwritten, List.append_nil]
    exact s.child.header_prefix

theorem CgiPair.Ordered.sent_eq {s : CgiPair σ} (h : s.Ordered) (hf : s.parent.finished = true) :
    s.sent = okHead ++ s.written := by
  obtain ⟨hexited, houtput⟩ := h.finished hf
  have hnk : s.parent ≠ .killed := by
    rintro hk
    rw [hk] at hf
    exact absurd hf Bool.false_ne_true
  have hrel := h.relayed (by rw [hexited]; rfl) hnk
  rwa [ParentPc.held_finished hf, houtput, List.append_nil, List.append_nil] at hrel

theorem CgiPair.Ordered.opens {s : CgiPair σ} (h : s.Ordered) {q : σ} (hc : s.child = .run q)
    (hnk : s.parent ≠ .killed) : s.parent.opens .in1 = true ∧ s.parent.opens .out0 = true := by
  have hforked := (h.forked hnk).mpr (by rw [hc]; nofun)
  have hfin : s.parent.finished = false := by
    by_contra hf
    exact nomatch hc.symm.trans (h.finished (by simpa using hf)).1
  generalize s.parent = p at hforked hfin
  cases p with
  | closeIn0 => exact ⟨rfl, rfl⟩
  | closeOut1 => exact ⟨rfl, rfl⟩
  | recv n ch => exact ⟨rfl, rfl⟩
  | feed n ch => exact ⟨rfl, rfl⟩
  | drain => exact ⟨rfl, rfl⟩
  | forward ch => exact ⟨rfl, rfl⟩
  | _ =>
    first
    | exact absurd hforked Bool.false_ne_true
    | exact absurd hfin.symm Bool.false_ne_true

theorem CgiPair.reach_ordered {s : CgiPair σ} (h : s.Reach next cin cout job) : s.Ordered :=
  Reachable.invariant CgiPair.Ordered h (.start job) fun _ _ hinv hst => hinv.step hst

end Pair

end LinuxStudy

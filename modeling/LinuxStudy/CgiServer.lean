import LinuxStudy.CgiPair
import LinuxStudy.Holdings

/-! All threads of the server and their children at once. The threads share one
descriptor table whose numbers are reused; a fork copies the table as it is
then, with the descriptors of all other threads, and the variables that hold the
numbers. Every call looks its number up. A child that puts a long query into its
array writes on over these variables. -/

namespace LinuxStudy

abbrev Conn := Nat

abbrev Fd := Nat

/-- What a number is open on: what the server had before its first connection,
or what the variable `d` of connection `c` was set to. -/
inductive Opened
  | other
  | own (c : Conn) (d : Descr)
  deriving DecidableEq

abbrev FdTable := Fd → Option Opened

structure CgiServer (σ : Type*) where
  table : FdTable
  /-- The variables of each thread. -/
  number : Conn → Descr → Fd
  childTable : Conn → FdTable
  childNumber : Conn → Descr → Fd
  pair : Conn → CgiPair σ

def CgiPair.bytesAt {σ : Type*} (p : CgiPair σ) : Descr → List Byte
  | .in0 => p.input
  | .in1 => p.input
  | .out0 => p.output
  | .out1 => p.output
  | _ => []

def CgiPair.setBytes {σ : Type*} (d : Descr) (l : List Byte) (p : CgiPair σ) : CgiPair σ :=
  match d with
  | .in0 => { p with input := l }
  | .in1 => { p with input := l }
  | .out0 => { p with output := l }
  | .out1 => { p with output := l }
  | _ => p

def Descr.isReadEnd (d : Descr) : Bool := d = .in0 ∨ d = .out0

def Descr.isWriteEnd (d : Descr) : Bool := d = .in1 ∨ d = .out1

def Descr.otherEnd : Descr → Descr
  | .in0 => .in1
  | .in1 => .in0
  | .out0 => .out1
  | .out1 => .out0
  | d => d

def ParentPc.pipes : ParentPc → Option (Descr × Descr)
  | .pipeIn => some (.in0, .in1)
  | .pipeOut => some (.out0, .out1)
  | _ => none

def ChildPc.dups {σ : Type*} : ChildPc σ → Option (Descr × Fd)
  | .dupIn => some (.in0, 0)
  | .dupOut => some (.out1, 1)
  | _ => none

def CgiJob.env {σ : Type*} (j : CgiJob σ) (query : Option (List Byte)) : CgiEnv :=
  cgiEnv j.method j.len query

section Server

variable {σ : Type*} (next : σ → ProgAct σ) (cin cout : Nat) (job : Conn → CgiJob σ)
  (query : Conn → Option (List Byte))

def pipeSize (d : Descr) : Nat := if d = .in1 then cin else cout

namespace CgiServer

def onPair (s : CgiServer σ) (c : Conn) (f : CgiPair σ → CgiPair σ) : CgiServer σ :=
  { s with pair := Function.update s.pair c (f (s.pair c)) }

def goParent (s : CgiServer σ) (c : Conn) (pc : ParentPc) : CgiServer σ :=
  s.onPair c fun p => { p with parent := pc }

def goChild (s : CgiServer σ) (c : Conn) (pc : ChildPc σ) : CgiServer σ :=
  s.onPair c fun p => { p with child := pc }

def openAs (s : CgiServer σ) (c : Conn) (d : Descr) (n : Fd) : CgiServer σ :=
  { s with
    table := Function.update s.table n (some (.own c d))
    number := Function.update s.number c (Function.update (s.number c) d n) }

def closeAs (s : CgiServer σ) (c : Conn) (d : Descr) : CgiServer σ :=
  { s with table := Function.update s.table (s.number c d) none }

def setChildTable (s : CgiServer σ) (c : Conn) (t : FdTable) : CgiServer σ :=
  { s with childTable := Function.update s.childTable c t }

/-- What `fork` copies. -/
def forkChild (s : CgiServer σ) (c : Conn) : CgiServer σ :=
  { s with
    childTable := Function.update s.childTable c s.table
    childNumber := Function.update s.childNumber c (s.number c) }

def setChildNumber (s : CgiServer σ) (c : Conn) (number : Descr → Fd) : CgiServer σ :=
  { s with childNumber := Function.update s.childNumber c number }

def IsOpen (s : CgiServer σ) (c : Conn) (d : Descr) : Prop :=
  (∃ n, s.table n = some (.own c d)) ∨ ∃ e n, s.childTable e n = some (.own c d)

def lookup (s : CgiServer σ) (c : Conn) (d : Descr) : Option Opened := s.table (s.number c d)

def childLookup (s : CgiServer σ) (c : Conn) (d : Descr) : Option Opened :=
  s.childTable c (s.childNumber c d)

def start : CgiServer σ where
  table n := if n ≤ 3 then some .other else none
  number _ _ := 0
  childTable _ _ := none
  childNumber _ _ := 0
  pair c := .start (job c)

/-- `died` is `exit` in some thread or SIGPIPE, which end all threads; `overrun`
the `sprintf` calls of a child, when what they write does not fit. -/
inductive Step : CgiServer σ → CgiServer σ → Prop
  | accept {s : CgiServer σ} (c : Conn) (n : Fd) (hp : (s.pair c).parent = .accept)
      (hn : s.table n = none) : Step s ((s.openAs c .conn n).goParent c .pipeIn)
  | pipe {s : CgiServer σ} (c : Conn) (r w : Descr) (n k : Fd) (pc : ParentPc)
      (hp : (s.pair c).parent.pipes = some (r, w)) (hgo : (s.pair c).parent.goes (job c) = some pc)
      (hn : s.table n = none) (hk : s.table k = none) (hne : n ≠ k) :
      Step s (((s.openAs c r n).openAs c w k).goParent c pc)
  | fork {s : CgiServer σ} (c : Conn) (hp : (s.pair c).parent = .fork) :
      Step s ((s.forkChild c).onPair c
        fun p => { p with parent := .closeIn0, child := .closeIn1 })
  | close {s : CgiServer σ} (c : Conn) (d : Descr) (pc : ParentPc)
      (hp : (s.pair c).parent.closes = some d) (hgo : (s.pair c).parent.goes (job c) = some pc) :
      Step s ((s.closeAs c d).goParent c pc)
  | fed {s : CgiServer σ} (c : Conn) (ch : Byte) (hp : (s.pair c).parent = .recv 0 ch) :
      Step s (s.goParent c .drain)
  | recv {s : CgiServer σ} (c e : Conn) (n : Nat) (ch : Byte)
      (hp : (s.pair c).parent = .recv (n + 1) ch) (hat : s.lookup c .conn = some (.own e .conn)) :
      Step s ((s.onPair e fun p => { p with unread := p.unread.tail }).goParent c
        (.feed n ((s.pair e).unread.headD ch)))
  | feed {s : CgiServer σ} (c e : Conn) (w : Descr) (n : Nat) (ch : Byte)
      (hp : (s.pair c).parent = .feed n ch) (hat : s.lookup c .in1 = some (.own e w))
      (hw : w.isWriteEnd) (hroom : ((s.pair e).bytesAt w).length < pipeSize cin cout w) :
      Step s ((s.onPair e fun p => p.setBytes w (p.bytesAt w ++ [ch])).goParent c (.recv n ch))
  | drain {s : CgiServer σ} (c e : Conn) (r : Descr) (ch : Byte) (o : List Byte)
      (hp : (s.pair c).parent = .drain) (hat : s.lookup c .out0 = some (.own e r))
      (hr : r.isReadEnd) (ho : (s.pair e).bytesAt r = ch :: o) :
      Step s ((s.onPair e (CgiPair.setBytes r o)).goParent c (.forward ch))
  | forward {s : CgiServer σ} (c e : Conn) (ch : Byte) (hp : (s.pair c).parent = .forward ch)
      (hat : s.lookup c .conn = some (.own e .conn)) :
      Step s ((s.onPair e fun p => { p with sent := p.sent ++ [ch] }).goParent c .drain)
  | drained {s : CgiServer σ} (c e : Conn) (r : Descr) (hp : (s.pair c).parent = .drain)
      (hat : s.lookup c .out0 = some (.own e r)) (hr : r.isReadEnd)
      (ho : (s.pair e).bytesAt r = []) (hclosed : ¬ s.IsOpen e r.otherEnd) :
      Step s (s.goParent c .closeIn1)
  | wait {s : CgiServer σ} (c : Conn) (hp : (s.pair c).parent = .wait)
      (hc : (s.pair c).child = .exited) : Step s (s.goParent c .returned)
  | died {s : CgiServer σ} :
      Step s { s with
        table := fun _ => none
        pair := fun c => { s.pair c with parent := .killed } }
  | childClose {s : CgiServer σ} (c : Conn) (d : Descr) (pc : ChildPc σ)
      (hc : (s.pair c).child.closes = some d) (hgo : (s.pair c).child.goes (job c) = some pc) :
      Step s ((s.setChildTable c
        (Function.update (s.childTable c) (s.childNumber c d) none)).goChild c pc)
  | overrun {s : CgiServer σ} (c : Conn) (number : Descr → Fd) (hc : (s.pair c).child = .status)
      (hover : ¬ ((job c).env (query c)).Fits) : Step s (s.setChildNumber c number)
  | status {s : CgiServer σ} (c e : Conn) (hc : (s.pair c).child = .status)
      (hat : s.childLookup c .conn = some (.own e .conn)) :
      Step s ((s.onPair e fun p => { p with sent := p.sent ++ okLine }).goChild c .blank)
  | blank {s : CgiServer σ} (c e : Conn) (hc : (s.pair c).child = .blank)
      (hat : s.childLookup c .conn = some (.own e .conn)) :
      Step s ((s.onPair e fun p => { p with sent := p.sent ++ crlf }).goChild c .dupIn)
  | dup2 {s : CgiServer σ} (c : Conn) (d : Descr) (k : Fd) (pc : ChildPc σ)
      (hc : (s.pair c).child.dups = some (d, k)) (hgo : (s.pair c).child.goes (job c) = some pc) :
      Step s ((s.setChildTable c
        (Function.update (s.childTable c) k
          ((s.childLookup c d).or (s.childTable c k)))).goChild c pc)
  | execl {s : CgiServer σ} (c : Conn) (hc : (s.pair c).child = .exec) :
      Step s (s.goChild c (.run (job c).program))
  | write {s : CgiServer σ} (c e : Conn) (w : Descr) (q q' : σ) (b : Byte)
      (hc : (s.pair c).child = .run q) (hq : next q = .write b q')
      (hat : s.childTable c 1 = some (.own e w)) (hw : w.isWriteEnd)
      (hroom : ((s.pair e).bytesAt w).length < pipeSize cin cout w) :
      Step s ((s.onPair e fun p => p.setBytes w (p.bytesAt w ++ [b])).onPair c
        fun p => { p with child := .run q', written := p.written ++ [b] })
  | writeConn {s : CgiServer σ} (c e : Conn) (q q' : σ) (b : Byte)
      (hc : (s.pair c).child = .run q) (hq : next q = .write b q')
      (hat : s.childTable c 1 = some (.own e .conn)) :
      Step s ((s.onPair e fun p => { p with sent := p.sent ++ [b] }).onPair c
        fun p => { p with child := .run q', written := p.written ++ [b] })
  | read {s : CgiServer σ} (c e : Conn) (r : Descr) (q : σ) (m : Nat) (k : List Byte → σ)
      (b i : List Byte) (hc : (s.pair c).child = .run q) (hq : next q = .read m k)
      (hat : s.childTable c 0 = some (.own e r)) (hr : r.isReadEnd)
      (hi : (s.pair e).bytesAt r = b ++ i) (hne : b ≠ []) (hle : b.length ≤ m + 1) :
      Step s ((s.onPair e (CgiPair.setBytes r i)).goChild c (.run (k b)))
  | readEnd {s : CgiServer σ} (c e : Conn) (r : Descr) (q : σ) (m : Nat) (k : List Byte → σ)
      (hc : (s.pair c).child = .run q) (hq : next q = .read m k)
      (hat : s.childTable c 0 = some (.own e r)) (hr : r.isReadEnd)
      (hi : (s.pair e).bytesAt r = []) (hclosed : ¬ s.IsOpen e r.otherEnd) :
      Step s (s.goChild c (.run (k [])))
  | exit {s : CgiServer σ} (c : Conn) (q : σ) (hc : (s.pair c).child = .run q)
      (hq : next q = .exit) : Step s ((s.setChildTable c fun _ => none).goChild c .exited)
  | sigpipe {s : CgiServer σ} (c e : Conn) (w : Descr) (q q' : σ) (b : Byte)
      (hc : (s.pair c).child = .run q) (hq : next q = .write b q')
      (hat : s.childTable c 1 = some (.own e w)) (hclosed : ¬ s.IsOpen e w.otherEnd) :
      Step s ((s.setChildTable c fun _ => none).goChild c .exited)

abbrev Reach (s : CgiServer σ) : Prop := Reachable (Step next cin cout job query) (start job) s

end CgiServer

def ChildPc.descrs : ChildPc σ → List Descr
  | .closeIn1 => [.conn, .in0, .in1, .out0, .out1]
  | .closeOut0 => [.conn, .in0, .out0, .out1]
  | .status => [.conn, .in0, .out1]
  | .blank => [.conn, .in0, .out1]
  | .dupIn => [.conn, .in0, .out1]
  | .dupOut => [.out1]
  | _ => []

def ChildPc.std (c : Conn) : ChildPc σ → List (Fd × Opened)
  | .unborn => []
  | .exited => []
  | .dupOut => [(0, .own c .in0)]
  | .exec => [(0, .own c .in0), (1, .own c .out1)]
  | .run _ => [(0, .own c .in0), (1, .own c .out1)]
  | _ => [(0, .other)]

def ParentPc.std : ParentPc → List (Fd × Opened)
  | .killed => []
  | _ => [(0, .other)]

def entries (c : Conn) (number : Descr → Fd) (ds : List Descr) : List (Fd × Opened) :=
  ds.map fun d => (number d, .own c d)

/-- The table entries that a connection relies on: the numbers in the variables
of its thread and of its child are open on what they were opened on. -/
structure CgiServer.Owns (s : CgiServer σ) (c : Conn) : Prop where
  thread : Holds s.table
    ((s.pair c).parent.std ++ entries c (s.number c) (s.pair c).parent.descrs)
  child : Holds (s.childTable c)
    ((s.pair c).child.std c ++ entries c (s.childNumber c) (s.pair c).child.descrs)

variable {next cin cout job query}

theorem mem_entries {c : Conn} {number : Descr → Fd} {ds : List Descr} {x : Fd × Opened} :
    x ∈ entries c number ds ↔ ∃ d ∈ ds, x = (number d, .own c d) := by
  simp only [entries, List.mem_map, eq_comm]

theorem entries_subset {c : Conn} {number : Descr → Fd} {ds ds' : List Descr} (h : ds' ⊆ ds) :
    entries c number ds' ⊆ entries c number ds := List.map_subset _ h

theorem entries_ne {c e : Conn} {number : Descr → Fd} {ds : List Descr} {d : Descr}
    (h : c ≠ e ∨ d ∉ ds) : ∀ x ∈ entries c number ds, x.2 ≠ .own e d := by
  intro x hx he
  obtain ⟨d', hd', rfl⟩ := mem_entries.mp hx
  obtain ⟨rfl, rfl⟩ := Opened.own.inj he
  exact h.elim (fun hne => hne rfl) fun hnd => hnd hd'

theorem ParentPc.std_ne {p : ParentPc} {e : Conn} {d : Descr} : ∀ x ∈ p.std, x.2 ≠ .own e d := by
  intro x hx
  cases p with
  | killed => exact nomatch hx
  | _ =>
    rw [List.mem_singleton.mp hx]
    exact nofun

theorem ParentPc.closes_spec {p pc : ParentPc} {j : CgiJob σ} {d : Descr} (h : p.closes = some d)
    (hgo : p.goes j = some pc) :
    d ∈ p.descrs ∧ d ∉ pc.descrs ∧ pc.descrs ⊆ p.descrs ∧ pc.std = p.std := by
  cases p with
  | closeIn0 | closeOut1 | closeIn1 | closeOut0 | closeConn =>
    cases h
    cases hgo
    exact ⟨by simp [descrs], by simp [descrs], by simp [descrs], rfl⟩
  | _ => exact nomatch h

theorem ChildPc.closes_spec {p pc : ChildPc σ} {j : CgiJob σ} {d : Descr} (h : p.closes = some d)
    (hgo : p.goes j = some pc) (c : Conn) :
    d ∈ p.descrs ∧ d ∉ pc.descrs ∧ pc.descrs ⊆ p.descrs ∧ p.std c = [(0, .other)] ∧
      pc.std c = [(0, .other)] := by
  cases p with
  | closeIn1 | closeOut0 =>
    cases h
    cases hgo
    exact ⟨by simp [descrs], by simp [descrs], by simp [descrs], rfl, rfl⟩
  | _ => exact nomatch h

namespace CgiServer

variable {s t : CgiServer σ} {a c : Conn}

@[simp] theorem onPair_self (s : CgiServer σ) (c : Conn) (f : CgiPair σ → CgiPair σ) :
    (s.onPair c f).pair c = f (s.pair c) := Function.update_self ..

theorem onPair_of_ne (s : CgiServer σ) (f : CgiPair σ → CgiPair σ) (h : c ≠ a) :
    (s.onPair a f).pair c = s.pair c := Function.update_of_ne h ..

theorem onPair_onPair (s : CgiServer σ) (c : Conn) (f g : CgiPair σ → CgiPair σ) :
    (s.onPair c f).onPair c g = s.onPair c fun p => g (f p) := by
  simp [onPair]

theorem Owns.lookup_eq (h : s.Owns c) {d : Descr} (hd : d ∈ (s.pair c).parent.descrs) :
    s.lookup c d = some (.own c d) :=
  h.thread (s.number c d, .own c d) (List.mem_append_right _ (mem_entries.mpr ⟨d, hd, rfl⟩))

theorem Owns.childLookup_eq (h : s.Owns c) {d : Descr} (hd : d ∈ (s.pair c).child.descrs) :
    s.childLookup c d = some (.own c d) :=
  h.child (s.childNumber c d, .own c d) (List.mem_append_right _ (mem_entries.mpr ⟨d, hd, rfl⟩))

theorem Owns.std_eq (h : s.Owns c) {n : Fd} {o : Opened} (hn : (n, o) ∈ (s.pair c).child.std c) :
    s.childTable c n = some o := h.child (n, o) (List.mem_append_left _ hn)

structure Moves (next : σ → ProgAct σ) (cin cout : Nat) (job : Conn → CgiJob σ)
    (s t : CgiServer σ) (a : Conn) : Prop where
  step : CgiPair.Step next cin cout (job a) (s.pair a) (t.pair a)
  owns : t.Owns a
  pair : ∀ c ≠ a, t.pair c = s.pair c
  others : ∀ c ≠ a, t.Owns c

theorem Moves.quiet (howns : ∀ c, s.Owns c) (f : CgiPair σ → CgiPair σ)
    (hstep : CgiPair.Step next cin cout (job a) (s.pair a) (f (s.pair a)))
    (hparent : (f (s.pair a)).parent.std = (s.pair a).parent.std ∧
      (f (s.pair a)).parent.descrs = (s.pair a).parent.descrs)
    (hchild : (f (s.pair a)).child.std a = (s.pair a).child.std a ∧
      (f (s.pair a)).child.descrs = (s.pair a).child.descrs) :
    Moves next cin cout job s (s.onPair a f) a where
  step := by rwa [onPair_self]
  owns := by
    constructor
    · rw [onPair_self, hparent.1, hparent.2]
      exact (howns a).thread
    · rw [onPair_self, hchild.1, hchild.2]
      exact (howns a).child
  pair c hc := onPair_of_ne s f hc
  others c hc := by
    constructor
    · rw [onPair_of_ne s f hc]
      exact (howns c).thread
    · rw [onPair_of_ne s f hc]
      exact (howns c).child

theorem Moves.quietParent (howns : ∀ c, s.Owns c) {pc : ParentPc}
    (hp : (s.pair a).parent = pc) (f : CgiPair σ → CgiPair σ)
    (hstep : CgiPair.Step next cin cout (job a) (s.pair a) (f (s.pair a)))
    (hparent : (f (s.pair a)).parent.std = pc.std ∧ (f (s.pair a)).parent.descrs = pc.descrs)
    (hchild : (f (s.pair a)).child = (s.pair a).child) :
    Moves next cin cout job s (s.onPair a f) a := by
  refine .quiet howns f hstep ?_ ?_
  · rwa [hp]
  · rw [hchild]
    exact ⟨rfl, rfl⟩

theorem Moves.quietChild (howns : ∀ c, s.Owns c) {pc : ChildPc σ}
    (hc : (s.pair a).child = pc) (f : CgiPair σ → CgiPair σ)
    (hstep : CgiPair.Step next cin cout (job a) (s.pair a) (f (s.pair a)))
    (hchild : (f (s.pair a)).child.std a = pc.std a ∧ (f (s.pair a)).child.descrs = pc.descrs)
    (hparent : (f (s.pair a)).parent = (s.pair a).parent) :
    Moves next cin cout job s (s.onPair a f) a := by
  refine .quiet howns f hstep ?_ ?_
  · rw [hparent]
    exact ⟨rfl, rfl⟩
  · rwa [hc]

theorem Moves.childMoves (howns : ∀ c, s.Owns c) {u : CgiServer σ}
    (hu : u.table = s.table ∧ u.number = s.number ∧ u.pair = s.pair)
    (hothers : ∀ c ≠ a, u.childTable c = s.childTable c ∧ u.childNumber c = s.childNumber c)
    (f : CgiPair σ → CgiPair σ)
    (hstep : CgiPair.Step next cin cout (job a) (s.pair a) (f (s.pair a)))
    (hparent : (f (s.pair a)).parent.std = (s.pair a).parent.std ∧
      (f (s.pair a)).parent.descrs = (s.pair a).parent.descrs)
    (hchild : Holds (u.childTable a) ((f (s.pair a)).child.std a ++
      entries a (u.childNumber a) (f (s.pair a)).child.descrs)) :
    Moves next cin cout job s (u.onPair a f) a := by
  obtain ⟨htable, hnumber, hpair⟩ := hu
  refine ⟨?_, ⟨?_, ?_⟩, fun c hc => ?_, fun c hc => ⟨?_, ?_⟩⟩
  · rwa [onPair_self, hpair]
  · rw [onPair_self, hpair]
    change Holds u.table ((f (s.pair a)).parent.std ++
      entries a (u.number a) (f (s.pair a)).parent.descrs)
    rw [hparent.1, hparent.2, htable, hnumber]
    exact (howns a).thread
  · rw [onPair_self, hpair]
    exact hchild
  · rw [onPair_of_ne _ f hc, hpair]
  · rw [onPair_of_ne _ f hc, hpair]
    change Holds u.table (_ ++ entries c (u.number c) _)
    rw [htable, hnumber]
    exact (howns c).thread
  · rw [onPair_of_ne _ f hc, hpair]
    change Holds (u.childTable c) (_ ++ entries c (u.childNumber c) _)
    rw [(hothers c hc).1, (hothers c hc).2]
    exact (howns c).child

theorem Moves.childTable (howns : ∀ c, s.Owns c) (tbl : FdTable) (f : CgiPair σ → CgiPair σ)
    (hstep : CgiPair.Step next cin cout (job a) (s.pair a) (f (s.pair a)))
    (hparent : (f (s.pair a)).parent.std = (s.pair a).parent.std ∧
      (f (s.pair a)).parent.descrs = (s.pair a).parent.descrs)
    (hchild : Holds tbl ((f (s.pair a)).child.std a ++
      entries a (s.childNumber a) (f (s.pair a)).child.descrs)) :
    Moves next cin cout job s ((s.setChildTable a tbl).onPair a f) a := by
  refine .childMoves (u := s.setChildTable a tbl) howns ⟨rfl, rfl, rfl⟩
    (fun c hc => ⟨Function.update_of_ne hc .., rfl⟩) f hstep hparent ?_
  change Holds (Function.update s.childTable a tbl a) _
  rw [Function.update_self]
  exact hchild

theorem Moves.close (howns : ∀ c, s.Owns c) {d : Descr} {pc : ParentPc}
    (hp : (s.pair a).parent.closes = some d) (hgo : (s.pair a).parent.goes (job a) = some pc) :
    Moves next cin cout job s ((s.closeAs a d).goParent a pc) a := by
  obtain ⟨hd, hnd, hsub, hstd⟩ := ParentPc.closes_spec hp hgo
  have hkey := (howns a).lookup_eq hd
  refine ⟨?_, ⟨?_, ?_⟩, fun c hc => onPair_of_ne _ _ hc, fun c hc => ⟨?_, ?_⟩⟩
  · rw [goParent, onPair_self]
    exact .parentGoes pc hgo
  · rw [goParent, onPair_self]
    refine ((howns a).thread.mono (List.append_subset.mpr ⟨?_, ?_⟩)).free hkey ?_ _
    · rw [hstd]
      exact List.subset_append_left _ _
    · exact List.subset_append_of_subset_right _ (entries_subset hsub)
    · intro x hx
      exact (List.mem_append.mp hx).elim (ParentPc.std_ne x) (entries_ne (.inr hnd) x)
  · rw [goParent, onPair_self]
    exact (howns a).child
  · rw [goParent, onPair_of_ne _ _ hc]
    refine (howns c).thread.free hkey ?_ _
    intro x hx
    exact (List.mem_append.mp hx).elim (ParentPc.std_ne x) (entries_ne (.inl hc) x)
  · rw [goParent, onPair_of_ne _ _ hc]
    exact (howns c).child

theorem openAs_thread {l : List (Fd × Opened)} {ds : List Descr} {d : Descr} {n : Fd}
    (h : Holds s.table (l ++ entries c (s.number c) ds)) (hn : s.table n = none) (hd : d ∉ ds) :
    Holds (s.openAs c d n).table (l ++ entries c ((s.openAs c d n).number c) (d :: ds)) := by
  have hnumber : (s.openAs c d n).number c = Function.update (s.number c) d n :=
    Function.update_self ..
  have hsame : entries c (Function.update (s.number c) d n) ds = entries c (s.number c) ds :=
    List.map_congr_left fun d' hd' => by
      rw [Function.update_of_ne (ne_of_mem_of_not_mem hd' hd)]
  have hcons : entries c (Function.update (s.number c) d n) (d :: ds) =
      (n, .own c d) :: entries c (s.number c) ds := by
    rw [← hsame, entries, List.map_cons, Function.update_self]
    rfl
  rw [hnumber, hcons]
  exact (h.alloc_cons hn _).mono (List.perm_middle.subset)

theorem Owns.openAs (h : s.Owns c) {d : Descr} {n : Fd} (hn : s.table n = none) (hc : c ≠ a) :
    (s.openAs a d n).Owns c := by
  have hnumber : (s.openAs a d n).number c = s.number c := Function.update_of_ne hc ..
  constructor
  · rw [hnumber]
    exact h.thread.alloc hn _
  · exact h.child

theorem Moves.opened (hord : (s.pair a).Ordered) {pc : ParentPc}
    (hgo : (s.pair a).parent.goes (job a) = some pc) (hforked : (s.pair a).parent.forked = false)
    (ht : Holds t.table (pc.std ++ entries a (t.number a) pc.descrs))
    (hpair : t.pair = s.pair) (hothers : ∀ c ≠ a, t.Owns c) :
    Moves next cin cout job s (t.goParent a pc) a := by
  have hunborn := hord.unborn (ParentPc.goes_spec hgo).1 hforked
  refine ⟨?_, ⟨?_, ?_⟩, fun c hc => ?_, fun c hc => ⟨?_, ?_⟩⟩
  · rw [goParent, onPair_self, hpair]
    exact .parentGoes pc hgo
  · rw [goParent, onPair_self]
    exact ht
  · rw [goParent, onPair_self, hpair]
    simp only [hunborn]
    exact .nil _
  · rw [goParent, onPair_of_ne _ _ hc, hpair]
  · rw [goParent, onPair_of_ne _ _ hc]
    exact (hothers c hc).thread
  · rw [goParent, onPair_of_ne _ _ hc]
    exact (hothers c hc).child

theorem Moves.accept (howns : ∀ c, s.Owns c) (hord : (s.pair a).Ordered) {n : Fd}
    (hp : (s.pair a).parent = .accept) (hn : s.table n = none) :
    Moves next cin cout job s ((s.openAs a .conn n).goParent a .pipeIn) a := by
  have hthread := (howns a).thread
  rw [hp] at hthread
  exact .opened hord (by rw [hp]; rfl) (by rw [hp]; rfl) (openAs_thread hthread hn (by decide)) rfl
    fun c hc => (howns c).openAs hn hc

theorem Moves.pipe (howns : ∀ c, s.Owns c) (hord : (s.pair a).Ordered) {r w : Descr} {n k : Fd}
    {pc : ParentPc} (hp : (s.pair a).parent.pipes = some (r, w))
    (hgo : (s.pair a).parent.goes (job a) = some pc) (hn : s.table n = none)
    (hk : s.table k = none) (hne : n ≠ k) :
    Moves next cin cout job s (((s.openAs a r n).openAs a w k).goParent a pc) a := by
  have hk' : (s.openAs a r n).table k = none := (Function.update_of_ne hne.symm _ _).trans hk
  have hothers : ∀ c ≠ a, ((s.openAs a r n).openAs a w k).Owns c :=
    fun c hc => ((howns c).openAs hn hc).openAs hk' hc
  have hthread := (howns a).thread
  generalize hpc : (s.pair a).parent = p at hp hgo hthread
  have hgo' : (s.pair a).parent.goes (job a) = some pc := by rw [hpc, hgo]
  cases p with
  | pipeIn | pipeOut =>
    cases hp
    cases hgo
    refine .opened hord hgo' (by rw [hpc]; rfl)
      ((openAs_thread (openAs_thread hthread hn ?_) hk' ?_).mono ?_) rfl hothers
    · decide
    · decide
    · refine List.append_subset.mpr ⟨List.subset_append_left _ _, ?_⟩
      exact List.subset_append_of_subset_right _ (entries_subset (by decide))
  | _ => exact nomatch hp

theorem Moves.childClose (howns : ∀ c, s.Owns c) {d : Descr} {pc : ChildPc σ}
    (hc : (s.pair a).child.closes = some d) (hgo : (s.pair a).child.goes (job a) = some pc) :
    Moves next cin cout job s ((s.setChildTable a
      (Function.update (s.childTable a) (s.childNumber a d) none)).goChild a pc) a := by
  obtain ⟨hd, hnd, hsub, hstd, hstd'⟩ := ChildPc.closes_spec hc hgo a
  refine .childTable howns _ _ (.childGoes pc hgo) ⟨rfl, rfl⟩ ?_
  refine ((howns a).child.mono (List.append_subset.mpr ⟨?_, ?_⟩)).free
    ((howns a).childLookup_eq hd) ?_ _
  · rw [hstd, hstd']
    exact List.subset_append_left _ _
  · exact List.subset_append_of_subset_right _ (entries_subset hsub)
  · intro x hx
    rcases List.mem_append.mp hx with hx | hx
    · rw [hstd'] at hx
      rw [List.mem_singleton.mp hx]
      exact nofun
    · exact entries_ne (.inr hnd) x hx

/-- After its two calls of `dup2` the program has the pipes as its standard
input and output. -/
theorem Moves.dup2 (howns : ∀ c, s.Owns c) {d : Descr} {k : Fd} {pc : ChildPc σ}
    (hc : (s.pair a).child.dups = some (d, k)) (hgo : (s.pair a).child.goes (job a) = some pc) :
    Moves next cin cout job s ((s.setChildTable a
      (Function.update (s.childTable a) k
        ((s.childLookup a d).or (s.childTable a k)))).goChild a pc) a := by
  refine .childTable howns _ _ (.childGoes pc hgo) ⟨rfl, rfl⟩ ?_
  have hchild := (howns a).child
  have hlook := fun d hd => (howns a).childLookup_eq (d := d) hd
  generalize (s.pair a).child = q at hc hgo hchild hlook
  cases q with
  | dupIn =>
    cases hc
    cases hgo
    rw [hlook .in0 (by simp [ChildPc.descrs]), Option.some_or]
    refine .cons (Function.update_self ..) ?_
    refine (hchild.mono ?_).free (hchild (0, .other) List.mem_cons_self) ?_ _
    · refine List.subset_append_of_subset_right _ (entries_subset ?_)
      simp [ChildPc.descrs]
    · intro x hx
      obtain ⟨d, -, rfl⟩ := mem_entries.mp hx
      exact nofun
  | dupOut =>
    cases hc
    cases hgo
    rw [hlook .out1 (by simp [ChildPc.descrs]), Option.some_or]
    refine .cons ?_ (.cons (Function.update_self ..) (.nil _))
    rw [Function.update_of_ne (by decide)]
    exact hchild (0, .own a .in0) List.mem_cons_self
  | _ => exact nomatch hc

theorem Moves.fork (howns : ∀ c, s.Owns c) (hp : (s.pair a).parent = .fork) :
    Moves next cin cout job s ((s.forkChild a).onPair a
      fun p => { p with parent := .closeIn0, child := .closeIn1 }) a := by
  refine .childMoves (u := s.forkChild a) howns ⟨rfl, rfl, rfl⟩ (fun c hc => ?_)
    (fun p => { p with parent := .closeIn0, child := .closeIn1 }) (.fork hp)
    (by rw [hp]; exact ⟨rfl, rfl⟩) ?_
  · exact ⟨Function.update_of_ne hc .., Function.update_of_ne hc ..⟩
  · have hthread := (howns a).thread
    rw [hp] at hthread
    change Holds (Function.update s.childTable a s.table a)
      (_ ++ entries a (Function.update s.childNumber a (s.number a) a) _)
    rw [Function.update_self, Function.update_self]
    exact hthread

theorem Owns.resolve (h : s.Owns c) {d w : Descr} {e : Conn} (hat : s.lookup c d = some (.own e w))
    (hd : d ∈ (s.pair c).parent.descrs) : e = c ∧ w = d := by
  rw [h.lookup_eq hd] at hat
  obtain ⟨rfl, rfl⟩ := Opened.own.inj (Option.some.inj hat)
  exact ⟨rfl, rfl⟩

theorem Owns.resolveChild (h : s.Owns c) {d w : Descr} {e : Conn}
    (hat : s.childLookup c d = some (.own e w)) (hd : d ∈ (s.pair c).child.descrs) :
    e = c ∧ w = d := by
  rw [h.childLookup_eq hd] at hat
  obtain ⟨rfl, rfl⟩ := Opened.own.inj (Option.some.inj hat)
  exact ⟨rfl, rfl⟩

theorem Owns.resolveStd (h : s.Owns c) {n : Fd} {d w : Descr} {e : Conn}
    (hat : s.childTable c n = some (.own e w)) (hn : (n, .own c d) ∈ (s.pair c).child.std c) :
    e = c ∧ w = d := by
  rw [h.std_eq hn] at hat
  obtain ⟨rfl, rfl⟩ := Opened.own.inj (Option.some.inj hat)
  exact ⟨rfl, rfl⟩

theorem Owns.not_opens (h : s.Owns c) {d : Descr} (hclosed : ¬ s.IsOpen c d) :
    (s.pair c).parent.opens d = false := by
  by_contra hopen
  exact hclosed (.inl ⟨_, h.lookup_eq (d := d) (by simpa [ParentPc.opens] using hopen)⟩)

theorem Owns.out1_open (h : s.Owns c) (hunborn : (s.pair c).child ≠ .unborn)
    (hexited : (s.pair c).child ≠ .exited) : s.IsOpen c .out1 := by
  have hlook := fun d hd => h.childLookup_eq (d := d) hd
  have hstd := fun n o hn => h.std_eq (n := n) (o := o) hn
  generalize (s.pair c).child = q at hunborn hexited hlook hstd
  cases q with
  | unborn => exact absurd rfl hunborn
  | exited => exact absurd rfl hexited
  | exec | run q => exact .inr ⟨c, 1, hstd 1 _ (by simp [ChildPc.std])⟩
  | _ => exact .inr ⟨c, _, hlook .out1 (by simp [ChildPc.descrs])⟩

theorem step_moves (hinv : ∀ c, (s.pair c).Ordered ∧ s.Owns c)
    (hfits : ∀ c, ((job c).env (query c)).Fits) (hst : Step next cin cout job query s t) :
    (∃ a, Moves next cin cout job s t a) ∨
      ∀ c, t.Owns c ∧ CgiPair.Step next cin cout (job c) (s.pair c) (t.pair c) := by
  have howns : ∀ c, s.Owns c := fun c => (hinv c).2
  cases hst with
  | accept c n hp hn => exact .inl ⟨c, .accept howns (hinv c).1 hp hn⟩
  | pipe c r w n k pc hp hgo hn hk hne =>
    exact .inl ⟨c, .pipe howns (hinv c).1 hp hgo hn hk hne⟩
  | close c d pc hp hgo => exact .inl ⟨c, .close howns hp hgo⟩
  | fork c hp => exact .inl ⟨c, .fork howns hp⟩
  | fed c ch hp =>
    exact .inl ⟨c, .quietParent howns hp _ (.parentGoes _ (by rw [hp]; rfl)) ⟨rfl, rfl⟩ rfl⟩
  | recv c e n ch hp hat =>
    obtain ⟨rfl, -⟩ := (howns c).resolve hat (by rw [hp]; simp [ParentPc.descrs])
    rw [goParent, onPair_onPair]
    exact .inl ⟨e, .quietParent howns hp _ (.recv hp) ⟨rfl, rfl⟩ rfl⟩
  | feed c e w n ch hp hat hw hroom =>
    obtain ⟨rfl, rfl⟩ := (howns c).resolve hat (by rw [hp]; simp [ParentPc.descrs])
    rw [goParent, onPair_onPair]
    exact .inl ⟨e, .quietParent howns hp _ (.feed hp hroom) ⟨rfl, rfl⟩ rfl⟩
  | drain c e r ch o hp hat hr ho =>
    obtain ⟨rfl, rfl⟩ := (howns c).resolve hat (by rw [hp]; simp [ParentPc.descrs])
    rw [goParent, onPair_onPair]
    exact .inl ⟨e, .quietParent howns hp _ (.drain hp ho) ⟨rfl, rfl⟩ rfl⟩
  | forward c e ch hp hat =>
    obtain ⟨rfl, -⟩ := (howns c).resolve hat (by rw [hp]; simp [ParentPc.descrs])
    rw [goParent, onPair_onPair]
    exact .inl ⟨e, .quietParent howns hp _ (.forward hp) ⟨rfl, rfl⟩ rfl⟩
  | drained c e r hp hat hr ho hclosed =>
    obtain ⟨rfl, rfl⟩ := (howns c).resolve hat (by rw [hp]; simp [ParentPc.descrs])
    have hunborn := ((hinv e).1.forked (by rw [hp]; nofun)).mp (by rw [hp]; rfl)
    have hexited : (s.pair e).child = .exited := by
      by_contra hne
      exact hclosed ((howns e).out1_open hunborn hne)
    exact .inl ⟨e, .quietParent howns hp _ (.drained hp ho hexited) ⟨rfl, rfl⟩ rfl⟩
  | wait c hp hc =>
    exact .inl ⟨c, .quietParent howns hp _ (.wait hp hc) ⟨rfl, rfl⟩ rfl⟩
  | died => exact .inr fun c => ⟨⟨.nil _, (howns c).child⟩, .killed⟩
  | childClose c d pc hc hgo => exact .inl ⟨c, .childClose howns hc hgo⟩
  | overrun c number hc hover => exact absurd (hfits c) hover
  | status c e hc hat =>
    obtain ⟨rfl, -⟩ := (howns c).resolveChild hat (by rw [hc]; simp [ChildPc.descrs])
    rw [goChild, onPair_onPair]
    exact .inl ⟨e, .quietChild howns hc _ (.status hc) ⟨rfl, rfl⟩ rfl⟩
  | blank c e hc hat =>
    obtain ⟨rfl, -⟩ := (howns c).resolveChild hat (by rw [hc]; simp [ChildPc.descrs])
    rw [goChild, onPair_onPair]
    exact .inl ⟨e, .quietChild howns hc _ (.blank hc) ⟨rfl, rfl⟩ rfl⟩
  | dup2 c d k pc hc hgo => exact .inl ⟨c, .dup2 howns hc hgo⟩
  | execl c hc =>
    exact .inl ⟨c, .quietChild howns hc _ (.childGoes _ (by rw [hc]; rfl)) ⟨rfl, rfl⟩ rfl⟩
  | write c e w q q' b hc hq hat hw hroom =>
    obtain ⟨rfl, rfl⟩ := (howns c).resolveStd (d := .out1) hat (by rw [hc]; simp [ChildPc.std])
    rw [onPair_onPair]
    exact .inl ⟨e, .quietChild howns hc _ (.write hc hq hroom) ⟨rfl, rfl⟩ rfl⟩
  | writeConn c e q q' b hc hq hat =>
    obtain ⟨rfl, hconn⟩ := (howns c).resolveStd (d := .out1) hat (by rw [hc]; simp [ChildPc.std])
    cases hconn
  | read c e r q m k b i hc hq hat hr hi hne hle =>
    obtain ⟨rfl, rfl⟩ := (howns c).resolveStd (d := .in0) hat (by rw [hc]; simp [ChildPc.std])
    rw [goChild, onPair_onPair]
    exact .inl ⟨e, .quietChild howns hc _ (.read hc hq hi hne hle) ⟨rfl, rfl⟩ rfl⟩
  | readEnd c e r q m k hc hq hat hr hi hclosed =>
    obtain ⟨rfl, rfl⟩ := (howns c).resolveStd (d := .in0) hat (by rw [hc]; simp [ChildPc.std])
    have hshut := (howns e).not_opens hclosed
    exact .inl ⟨e, .quietChild howns hc _ (.readEnd hc hq hi hshut) ⟨rfl, rfl⟩ rfl⟩
  | exit c q hc hq => exact .inl ⟨c, .childTable howns _ _ (.exit hc hq) ⟨rfl, rfl⟩ (.nil _)⟩
  | sigpipe c e w q q' b hc hq hat hclosed =>
    obtain ⟨rfl, rfl⟩ := (howns c).resolveStd (d := .out1) hat (by rw [hc]; simp [ChildPc.std])
    have hshut := (howns e).not_opens hclosed
    exact .inl ⟨e, .childTable howns _ _ (.sigpipe hc hq hshut) ⟨rfl, rfl⟩ (.nil _)⟩

def Inv (next : σ → ProgAct σ) (cin cout : Nat) (job : Conn → CgiJob σ) (s : CgiServer σ) : Prop :=
  ∀ c, (s.pair c).Reach next cin cout (job c) ∧ s.Owns c

theorem Inv.start : Inv next cin cout job (.start job) :=
  fun _ => ⟨.refl, .cons rfl (.nil _), .nil _⟩

theorem Inv.step (h : Inv next cin cout job s) (hfits : ∀ c, ((job c).env (query c)).Fits)
    (hst : Step next cin cout job query s t) : Inv next cin cout job t := by
  intro c
  have hinv : ∀ c, (s.pair c).Ordered ∧ s.Owns c :=
    fun c => ⟨CgiPair.reach_ordered (h c).1, (h c).2⟩
  rcases step_moves hinv hfits hst with ⟨a, hm⟩ | hd
  · by_cases hc : c = a
    · subst c
      exact ⟨(h a).1.tail hm.step, hm.owns⟩
    · rw [hm.pair c hc]
      exact ⟨(h c).1, hm.others c hc⟩
  · exact ⟨(h c).1.tail (hd c).2, (hd c).1⟩

theorem reach_pair (h : s.Reach next cin cout job query)
    (hfits : ∀ c, ((job c).env (query c)).Fits) (c : Conn) :
    (s.pair c).Reach next cin cout (job c) :=
  (Reachable.invariant (Inv next cin cout job) h .start
    (fun _ _ hinv hst => hinv.step hfits hst) c).1

end CgiServer

/-- As long as every query fits its array: whatever the other requests do, a
client gets the header and then what its own program writes, in order, and all
of it by the time `echo_cgi` returns. -/
theorem cgi_response_order (next : σ → ProgAct σ) (cin cout : Nat) (job : Conn → CgiJob σ)
    (query : Conn → Option (List Byte)) (hfits : ∀ c, ((job c).env (query c)).Fits) (c : Conn)
    (s : CgiServer σ) (h : s.Reach next cin cout job query) :
    (s.pair c).sent <+: okHead ++ (s.pair c).written ∧
      ((s.pair c).parent = .returned → (s.pair c).sent = okHead ++ (s.pair c).written) := by
  have hord := CgiPair.reach_ordered (CgiServer.reach_pair h hfits c)
  constructor
  · exact hord.sent_prefix
  · intro hp
    exact hord.sent_eq (by rw [hp]; rfl)

end Server

def writerJob : CgiJob Unit := ⟨bytes "GET", 0, [], ()⟩

theorem cgi_response_order_writer : ∃ s : CgiServer Unit,
    (s.pair 0).sent = okHead ++ bytes "x" ∧ (s.pair 0).sent <+: okHead ++ (s.pair 0).written := by
  have h0 : (CgiServer.start fun _ => writerJob).Reach (fun _ => .write 120 ()) 1 1
    (fun _ => writerJob) (fun _ => some (bytes "a=1")) := .refl
  have h1 := h0.tail (.accept 0 4 rfl rfl)
  have h2 := h1.tail (.pipe 0 .in0 .in1 5 6 .pipeOut rfl rfl rfl rfl (by decide))
  have h3 := h2.tail (.pipe 0 .out0 .out1 7 8 .fork rfl rfl rfl rfl (by decide))
  have h4 := h3.tail (.fork 0 rfl)
  have h5 := h4.tail (.childClose 0 .in1 .closeOut0 rfl rfl)
  have h6 := h5.tail (.childClose 0 .out0 .status rfl rfl)
  have h7 := h6.tail (.status 0 0 rfl rfl)
  have h8 := h7.tail (.blank 0 0 rfl rfl)
  have h9 := h8.tail (.dup2 0 .in0 0 .dupOut rfl rfl)
  have h10 := h9.tail (.dup2 0 .out1 1 .exec rfl rfl)
  have h11 := h10.tail (.execl 0 rfl)
  have h12 := h11.tail (.write 0 0 .out1 () () 120 rfl rfl rfl rfl Nat.one_pos)
  have h13 := h12.tail (.close 0 .in0 .closeOut1 rfl rfl)
  have h14 := h13.tail (.close 0 .out1 (.recv 0 0) rfl rfl)
  have h15 := h14.tail (.fed 0 0 rfl)
  have h16 := h15.tail (.drain 0 0 .out0 120 [] rfl rfl rfl rfl)
  have h17 := h16.tail (.forward 0 0 120 rfl rfl)
  exact ⟨_, rfl, (cgi_response_order _ 1 1 _ _ (fun _ => by decide) 0 _ h17).1⟩

/-- The 759th byte of a query lies on `output[1]`: here it names the connection
of another client. -/
def overrunQuery : List Byte := List.replicate 758 97 ++ [4]

theorem overrunQuery_overruns : ¬ (writerJob.env (some overrunQuery)).Fits := by
  intro hfits
  have hget : methodIs "GET" writerJob.method = true := by decide
  have hquery : (writerJob.env (some overrunQuery)).query = some overrunQuery := by
    rw [CgiJob.env, cgiEnv, if_pos hget, Option.getD_some]
  have hlen : overrunQuery.length = 759 := by
    rw [overrunQuery, List.length_append, List.length_replicate, List.length_singleton]
  have hlt := hfits.2 overrunQuery hquery
  omega

theorem cgi_response_order_overrun :
    ¬ ∀ (s : CgiServer Unit), s.Reach (fun _ => .write 120 ()) 1 1 (fun _ => writerJob)
        (fun _ => some overrunQuery) →
      ∀ c, (s.pair c).sent <+: okHead ++ (s.pair c).written := by
  intro h
  have h0 : (CgiServer.start fun _ => writerJob).Reach (fun _ => .write 120 ()) 1 1
    (fun _ => writerJob) (fun _ => some overrunQuery) := .refl
  have h1 := h0.tail (.accept 1 4 rfl rfl)
  have h2 := h1.tail (.accept 0 5 rfl rfl)
  have h3 := h2.tail (.pipe 0 .in0 .in1 6 7 .pipeOut rfl rfl rfl rfl (by decide))
  have h4 := h3.tail (.pipe 0 .out0 .out1 8 9 .fork rfl rfl rfl rfl (by decide))
  have h5 := h4.tail (.fork 0 rfl)
  have h6 := h5.tail (.childClose 0 .in1 .closeOut0 rfl rfl)
  have h7 := h6.tail (.childClose 0 .out0 .status rfl rfl)
  have h8 := h7.tail (.overrun 0 (Function.update (fun d => if d = .conn then 5 else 6) .out1 4) rfl
    overrunQuery_overruns)
  have h9 := h8.tail (.status 0 0 rfl rfl)
  have h10 := h9.tail (.blank 0 0 rfl rfl)
  have h11 := h10.tail (.dup2 0 .in0 0 .dupOut rfl rfl)
  have h12 := h11.tail (.dup2 0 .out1 1 .exec rfl rfl)
  have h13 := h12.tail (.execl 0 rfl)
  have h14 := h13.tail (.writeConn 0 1 () () 120 rfl rfl rfl)
  exact absurd (h _ h14 1) (by decide)

end LinuxStudy

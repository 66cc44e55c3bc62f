import LinuxStudy.TransitionSystem
import Mathlib.Data.List.Count

/-! The server of `proc_socket`, which forks twice for each client so that the
one that serves it need not be waited for. When its client has quit, that
process goes on in the loop of `main` and accepts clients itself. The result of
`accept` is not tested: after a failure the server forks all the same, for a
process that reads from no connection for ever. -/

namespace LinuxStudy

section Pool

variable {α : Type*} {l : List α} {i : Nat} {x : α}

/-- One member of a pool moves, and may bring others in. -/
theorem countP_move (p : α → Bool) (h : l[i]? = some x) (y : α) (new : List α) :
    (l.set i y ++ new).countP p + (p x).toNat = l.countP p + (p y).toNat + new.countP p := by
  obtain ⟨hi, rfl⟩ := List.getElem?_eq_some_iff.mp h
  have hle := List.boole_getElem_le_countP (p := p) hi
  rw [List.countP_append, List.countP_set hi]
  cases hx : p l[i] <;> cases p y <;> simp only [hx, Bool.false_eq_true, if_true, if_false,
    Bool.toNat_true, Bool.toNat_false] at hle ⊢ <;> omega

theorem getElem?_move (h : l[i]? = some x) (y : α) (new : List α) :
    (l.set i y ++ new)[i]? = some y := by
  have hi := (List.getElem?_eq_some_iff.mp h).1
  rw [List.getElem?_append_left (by rwa [List.length_set]), List.getElem?_set_self hi]

theorem getElem?_move_of_ne {j : Nat} {z : α} (h : l[j]? = some z) (hij : i ≠ j) (y : α)
    (new : List α) : (l.set i y ++ new)[j]? = some z := by
  have hj := (List.getElem?_eq_some_iff.mp h).1
  rw [List.getElem?_append_left (by rwa [List.length_set]), List.getElem?_set_ne hij, h]

end Pool

/-- Where a process of the server is, with the connection that it holds in `ret`,
if any. Its child is at `fork2` until it has forked itself. -/
inductive ProcPc
  | accept
  | fork (ret : Option Nat)
  | wait (child : Nat)
  | fork2 (ret : Option Nat)
  | serve (ret : Option Nat)
  | ended
  deriving DecidableEq

structure Proc where
  pc : ProcPc
  conns : List Nat

/-- The processes in the order of their birth; connections are numbered as they
are accepted. -/
structure ForkServer where
  procs : List Proc
  /-- The process that accepted each connection. -/
  acceptors : List Nat
  /-- The clients whose end has been read. -/
  quit : List Nat
  /-- The clients that were lost to a process that could not fork and ended. -/
  lost : List Nat
  /-- The processes that could not fork and ended. -/
  failed : List Nat

namespace ForkServer

def init : ForkServer := ⟨[⟨.accept, []⟩], [], [], [], []⟩

def accepted (s : ForkServer) : Nat := s.acceptors.length

def move (s : ForkServer) (i : Nat) (p : Proc) (new : List Proc) : ForkServer :=
  { s with procs := s.procs.set i p ++ new }

inductive Step : ForkServer → ForkServer → Prop
  | accept {s : ForkServer} {i : Nat} {cs : List Nat} (h : s.procs[i]? = some ⟨.accept, cs⟩) :
      Step s { s.move i ⟨.fork (some s.accepted), s.accepted :: cs⟩ [] with
        acceptors := s.acceptors ++ [i] }
  | acceptFails {s : ForkServer} {i : Nat} {cs : List Nat} (h : s.procs[i]? = some ⟨.accept, cs⟩) :
      Step s (s.move i ⟨.fork none, cs⟩ [])
  | fork {s : ForkServer} {i : Nat} {ret : Option Nat} {cs : List Nat}
      (h : s.procs[i]? = some ⟨.fork ret, cs⟩) :
      Step s (s.move i ⟨.wait s.procs.length, cs⟩ [⟨.fork2 ret, cs⟩])
  | forkFails {s : ForkServer} {i : Nat} {ret : Option Nat} {cs : List Nat}
      (h : s.procs[i]? = some ⟨.fork ret, cs⟩) :
      Step s { s.move i ⟨.ended, []⟩ [] with
        lost := ret.toList ++ s.lost
        failed := i :: s.failed }
  | fork2 {s : ForkServer} {i : Nat} {ret : Option Nat} {cs : List Nat}
      (h : s.procs[i]? = some ⟨.fork2 ret, cs⟩) :
      Step s (s.move i ⟨.ended, []⟩ [⟨.serve ret, cs⟩])
  | fork2Fails {s : ForkServer} {i : Nat} {ret : Option Nat} {cs : List Nat}
      (h : s.procs[i]? = some ⟨.fork2 ret, cs⟩) : Step s (s.move i ⟨.serve ret, cs⟩ [])
  | wait {s : ForkServer} {i j : Nat} {cs : List Nat} {p : Proc}
      (h : s.procs[i]? = some ⟨.wait j, cs⟩) (hj : s.procs[j]? = some p) (hp : p.pc = .ended) :
      Step s (s.move i ⟨.accept, cs⟩ [])
  | quit {s : ForkServer} {i c : Nat} {cs : List Nat}
      (h : s.procs[i]? = some ⟨.serve (some c), cs⟩) :
      Step s { s.move i ⟨.accept, cs.erase c⟩ [] with quit := c :: s.quit }

end ForkServer

def Proc.accepts (p : Proc) : Bool :=
  match p.pc with
  | .accept | .fork _ | .wait _ => true
  | .fork2 _ | .serve _ | .ended => false

def Proc.handles (c : Nat) (p : Proc) : Bool :=
  p.pc = .fork (some c) ∨ p.pc = .fork2 (some c) ∨ p.pc = .serve (some c)

namespace Proc

variable (c : Nat) (ret : Option Nat) (cs : List Nat)

@[simp] theorem handles_accept : Proc.handles c ⟨.accept, cs⟩ = false := by
  simp [Proc.handles]

@[simp] theorem handles_wait (j : Nat) : Proc.handles c ⟨.wait j, cs⟩ = false := by
  simp [Proc.handles]

@[simp] theorem handles_ended : Proc.handles c ⟨.ended, cs⟩ = false := by
  simp [Proc.handles]

@[simp] theorem handles_fork :
    (Proc.handles c ⟨.fork ret, cs⟩).toNat = if ret = some c then 1 else 0 := by
  by_cases h : ret = some c <;> simp [Proc.handles, h]

@[simp] theorem handles_fork2 :
    (Proc.handles c ⟨.fork2 ret, cs⟩).toNat = if ret = some c then 1 else 0 := by
  by_cases h : ret = some c <;> simp [Proc.handles, h]

@[simp] theorem handles_serve :
    (Proc.handles c ⟨.serve ret, cs⟩).toNat = if ret = some c then 1 else 0 := by
  by_cases h : ret = some c <;> simp [Proc.handles, h]

end Proc

namespace ForkServer

/-- The process `i` is at `p`: in the loop of `main`, with the connection open, or
at its end, because it could not fork. -/
def Held (s : ForkServer) (c i : Nat) (p : Proc) : Prop :=
  p.accepts = true ∧ c ∈ p.conns ∨ p.pc = .ended ∧ i ∈ s.failed

structure Inv (s : ForkServer) : Prop where
  accepts : s.procs.countP Proc.accepts + s.failed.length = 1 + s.quit.length
  handles : ∀ c, s.procs.countP (Proc.handles c) + s.quit.count c + s.lost.count c =
    if c < s.accepted then 1 else 0
  held : ∀ c i, s.acceptors[c]? = some i → ∃ p, s.procs[i]? = some p ∧ s.Held c i p

variable {s t : ForkServer}

theorem inv_init : init.Inv := by
  constructor <;> simp [init, accepted, Proc.accepts, Proc.handles]

theorem held_move {x y : Proc} {new : List Proc} {i k c : Nat} (hi : s.procs[i]? = some x)
    (hx : x.pc ≠ .ended) (ht : t.procs = s.procs.set i y ++ new) (hfailed : s.failed ⊆ t.failed)
    (hxy : x.accepts = true → c ∈ x.conns → t.Held c i y)
    (hk : ∃ p, s.procs[k]? = some p ∧ s.Held c k p) :
    ∃ p, t.procs[k]? = some p ∧ t.Held c k p := by
  obtain ⟨p, hp, hheld⟩ := hk
  rw [ht]
  by_cases hik : i = k
  · subst k
    obtain rfl : x = p := Option.some.inj (hi.symm.trans hp)
    refine ⟨y, getElem?_move hi y new, ?_⟩
    rcases hheld with ⟨hacc, hmem⟩ | ⟨hended, -⟩
    · exact hxy hacc hmem
    · exact absurd hended hx
  · exact ⟨p, getElem?_move_of_ne hp hik y new, hheld.imp_right fun h => ⟨h.1, hfailed h.2⟩⟩

/-- A step that neither accepts a client nor is done with one hands it on. -/
theorem Inv.move (h : s.Inv) {x y : Proc} {i : Nat} {new : List Proc}
    (hi : s.procs[i]? = some x) (hx : x.pc ≠ .ended)
    (haccepts : x.accepts.toNat = y.accepts.toNat + new.countP Proc.accepts)
    (hhandles : ∀ c, (x.handles c).toNat = (y.handles c).toNat + new.countP (Proc.handles c))
    (hheld : x.accepts = true → y.accepts = true ∧ x.conns ⊆ y.conns) :
    (s.move i y new).Inv := by
  refine ⟨?_, fun c => ?_, fun c k hk => ?_⟩
  · have hcount := countP_move Proc.accepts hi y new
    have hacc := h.accepts
    change (s.procs.set i y ++ new).countP Proc.accepts + s.failed.length = 1 + s.quit.length
    omega
  · have hcount := countP_move (Proc.handles c) hi y new
    have hone := h.handles c
    have hmoved := hhandles c
    change (s.procs.set i y ++ new).countP (Proc.handles c) + s.quit.count c + s.lost.count c =
      if c < s.accepted then 1 else 0
    omega
  · refine held_move hi hx rfl (List.Subset.refl _) (fun hacc hmem => ?_) (h.held c k hk)
    obtain ⟨hy, hsub⟩ := hheld hacc
    exact .inl ⟨hy, hsub hmem⟩

theorem Inv.accept (h : s.Inv) {i : Nat} {cs : List Nat} (hi : s.procs[i]? = some ⟨.accept, cs⟩) :
    Inv { s.move i ⟨.fork (some s.accepted), s.accepted :: cs⟩ [] with
      acceptors := s.acceptors ++ [i] } := by
  refine ⟨?_, fun c => ?_, fun c k hk => ?_⟩
  · have hcount := countP_move Proc.accepts hi ⟨.fork (some s.accepted), s.accepted :: cs⟩ []
    have hacc := h.accepts
    simp only [Proc.accepts, List.countP_nil] at hcount
    change (s.procs.set i _ ++ []).countP Proc.accepts + s.failed.length = 1 + s.quit.length
    omega
  · have hcount := countP_move (Proc.handles c) hi ⟨.fork (some s.accepted), s.accepted :: cs⟩ []
    have hone := h.handles c
    simp only [Proc.handles_accept, Proc.handles_fork, List.countP_nil, Bool.toNat_false,
      Option.some_inj] at hcount
    change (s.procs.set i _ ++ []).countP (Proc.handles c) + s.quit.count c + s.lost.count c =
      if c < (s.acceptors ++ [i]).length then 1 else 0
    have hlen : (s.acceptors ++ [i]).length = s.accepted + 1 := List.length_append ..
    rw [hlen]
    split_ifs at hcount hone ⊢ <;> omega
  · change (s.acceptors ++ [i])[c]? = some k at hk
    by_cases hlast : c = s.acceptors.length
    · rw [hlast, List.getElem?_concat_length] at hk
      obtain rfl := Option.some.inj hk
      exact ⟨_, getElem?_move hi _ [], .inl ⟨rfl, hlast ▸ List.mem_cons_self⟩⟩
    · have hlt : c < s.acceptors.length := by
        have hle := (List.getElem?_eq_some_iff.mp hk).1
        rw [List.length_append, List.length_singleton] at hle
        omega
      rw [List.getElem?_append_left hlt] at hk
      exact held_move hi nofun rfl (List.Subset.refl _)
        (fun _ hmem => .inl ⟨rfl, List.mem_cons_of_mem _ hmem⟩) (h.held c k hk)

theorem Inv.forkFails (h : s.Inv) {i : Nat} {ret : Option Nat} {cs : List Nat}
    (hi : s.procs[i]? = some ⟨.fork ret, cs⟩) :
    Inv { s.move i ⟨.ended, []⟩ [] with lost := ret.toList ++ s.lost, failed := i :: s.failed } := by
  refine ⟨?_, fun d => ?_, fun d k hk => ?_⟩
  · have hcount := countP_move Proc.accepts hi ⟨.ended, []⟩ []
    have hacc := h.accepts
    simp only [Proc.accepts, List.countP_nil, Bool.toNat_true, Bool.toNat_false] at hcount
    change (s.procs.set i _ ++ []).countP Proc.accepts + (s.failed.length + 1) = 1 + s.quit.length
    omega
  · have hcount := countP_move (Proc.handles d) hi ⟨.ended, []⟩ []
    have hone := h.handles d
    have hlost : ret.toList.count d = if ret = some d then 1 else 0 := by
      cases ret <;> simp [List.count_singleton]
    simp only [Proc.handles_ended, Proc.handles_fork, List.countP_nil, Bool.toNat_false] at hcount
    change (s.procs.set i _ ++ []).countP (Proc.handles d) + s.quit.count d +
      (ret.toList ++ s.lost).count d = if d < s.accepted then 1 else 0
    rw [List.count_append, hlost]
    omega
  · exact held_move hi nofun rfl (List.subset_cons_self i s.failed)
      (fun _ _ => .inr ⟨rfl, List.mem_cons_self⟩) (h.held d k hk)

theorem Inv.quit (h : s.Inv) {i c : Nat} {cs : List Nat}
    (hi : s.procs[i]? = some ⟨.serve (some c), cs⟩) :
    Inv { s.move i ⟨.accept, cs.erase c⟩ [] with quit := c :: s.quit } := by
  refine ⟨?_, fun d => ?_, fun d k hk => ?_⟩
  · have hcount := countP_move Proc.accepts hi ⟨.accept, cs.erase c⟩ []
    have hacc := h.accepts
    simp only [Proc.accepts, List.countP_nil, Bool.toNat_true, Bool.toNat_false] at hcount
    change (s.procs.set i _ ++ []).countP Proc.accepts + s.failed.length = 1 + (s.quit.length + 1)
    omega
  · have hcount := countP_move (Proc.handles d) hi ⟨.accept, cs.erase c⟩ []
    have hone := h.handles d
    simp only [Proc.handles_accept, Proc.handles_serve, List.countP_nil, Bool.toNat_false,
      Option.some_inj] at hcount
    change (s.procs.set i _ ++ []).countP (Proc.handles d) + (c :: s.quit).count d +
      s.lost.count d = if d < s.accepted then 1 else 0
    rw [List.count_cons]
    simp only [beq_iff_eq]
    omega
  · exact held_move hi nofun rfl (List.Subset.refl _)
      (fun hacc => absurd hacc Bool.false_ne_true) (h.held d k hk)

theorem Inv.step (h : s.Inv) (hst : Step s t) : t.Inv := by
  cases hst with
  | accept hi => exact h.accept hi
  | forkFails hi => exact h.forkFails hi
  | quit hi => exact h.quit hi
  | acceptFails hi =>
    exact h.move hi nofun (by simp [Proc.accepts]) (fun d => by simp) (by simp [Proc.accepts])
  | @fork i ret cs hi =>
    refine h.move hi nofun (by simp [Proc.accepts]) (fun d => ?_) (by simp [Proc.accepts])
    by_cases hd : ret = some d <;> simp [Proc.handles, hd]
  | @fork2 i ret cs hi =>
    refine h.move hi nofun (by simp [Proc.accepts]) (fun d => ?_) (by simp [Proc.accepts])
    by_cases hd : ret = some d <;> simp [Proc.handles, hd]
  | fork2Fails hi =>
    exact h.move hi nofun (by simp [Proc.accepts]) (fun d => by simp) (by simp [Proc.accepts])
  | wait hi =>
    exact h.move hi nofun (by simp [Proc.accepts]) (fun d => by simp) (by simp [Proc.accepts])

theorem inv_of_reachable (h : Reachable Step init s) : s.Inv :=
  h.invariant Inv inv_init fun _ _ hinv hst => hinv.step hst

/-- Each client is the concern of one process until its end has been read, and
each end adds a process that accepts clients. A connection stays open in the
process that accepted it until that process ends because it cannot fork. -/
theorem fork_server (h : Reachable Step init s) :
    s.procs.countP Proc.accepts + s.failed.length = 1 + s.quit.length ∧
      (∀ c, s.procs.countP (Proc.handles c) + s.quit.count c + s.lost.count c =
        if c < s.accepted then 1 else 0) ∧
      ∀ c i, s.acceptors[c]? = some i → ∃ p : Proc, s.procs[i]? = some p ∧
        (p.accepts = true ∧ c ∈ p.conns ∨ p.pc = .ended ∧ i ∈ s.failed) := by
  have hinv := inv_of_reachable h
  exact ⟨hinv.accepts, hinv.handles, hinv.held⟩

theorem fork_server_quit : ∃ s, Reachable Step init s ∧ s.quit = [0] ∧ s.failed = [2] ∧
    s.procs.countP Proc.accepts + s.failed.length = 1 + s.quit.length ∧
      (∀ c, s.procs.countP (Proc.handles c) + s.quit.count c + s.lost.count c =
        if c < s.accepted then 1 else 0) ∧
      ∀ c i, s.acceptors[c]? = some i → ∃ p : Proc, s.procs[i]? = some p ∧
        (p.accepts = true ∧ c ∈ p.conns ∨ p.pc = .ended ∧ i ∈ s.failed) := by
  have hrun := Relation.ReflTransGen.refl (r := Step) (a := init)
  have hrun := hrun.tail (.accept (i := 0) rfl)
  have hrun := hrun.tail (.fork (i := 0) rfl)
  have hrun := hrun.tail (.fork2 (i := 1) rfl)
  have hrun := hrun.tail (.wait (i := 0) (j := 1) rfl rfl rfl)
  have hrun := hrun.tail (.quit (i := 2) rfl)
  have hrun := hrun.tail (.acceptFails (i := 2) rfl)
  have hrun := hrun.tail (.forkFails (i := 2) rfl)
  exact ⟨_, hrun, rfl, rfl, fork_server hrun⟩

end ForkServer

end LinuxStudy

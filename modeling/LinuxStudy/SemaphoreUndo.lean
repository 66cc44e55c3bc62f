import LinuxStudy.TransitionSystem

/-! The System V semaphore of `sem`, whose operations all carry SEM_UNDO: the
kernel keeps for each process what its exit has to give back. Processes that
put `P` and `V` around their output use it as a lock. -/

namespace LinuxStudy

/-- A set with one semaphore, and the adjustment of each process. -/
@[ext] structure SemSet (ι : Type*) where
  val : Nat
  adj : ι → Int

namespace SemSet

variable {ι : Type*} [DecidableEq ι]

/-- `semctl(semid, which, SETVAL, 1)` forgets all adjustments. -/
def initSem : SemSet ι := ⟨1, fun _ => 0⟩

/-- `semop` with one operation of process `i`; there is no result while it has to
wait. -/
def opSem (s : SemSet ι) (i : ι) (op : Int) : Option (SemSet ι) :=
  if 0 ≤ s.val + op then some ⟨(s.val + op).toNat, Function.update s.adj i (s.adj i - op)⟩ else none

def P (s : SemSet ι) (i : ι) : Option (SemSet ι) := s.opSem i (-1)

def V (s : SemSet ι) (i : ι) : Option (SemSet ι) := s.opSem i 1

/-- What the end of process `i` does, however it ends. -/
def undo (s : SemSet ι) (i : ι) : SemSet ι :=
  ⟨(s.val + s.adj i).toNat, Function.update s.adj i 0⟩

/-- `main` of `test_sem` in process `i`, with the set that is there already: it
exits between `P` and `V`, so that it never comes to `destorySem`. -/
def testSem (k : Option (SemSet ι)) (i : ι) : Int × Option (SemSet ι) :=
  match k with
  | some s => (-1, some (s.undo i))
  | none => (1, (initSem.P i).map fun s => s.undo i)

/-- `main` run by one process after the other. -/
def testRuns : Option (SemSet ι) → List ι → List Int × Option (SemSet ι)
  | k, [] => ([], k)
  | k, i :: is => ((testSem k i).1 :: (testRuns (testSem k i).2 is).1, (testRuns (testSem k i).2 is).2)

end SemSet

inductive SemPc
  | outside | inside | dead
  deriving DecidableEq

inductive SemEvent (ι : Type*)
  | acquire (i : ι) | print (i : ι) | release (i : ι) | exit (i : ι)

/-- A lock, as far as its users can see. The end of its owner frees it. -/
def ownerAfter {ι : Type*} [DecidableEq ι] (owner : Option ι) : SemEvent ι → Option (Option ι)
  | .acquire i => if owner = none then some (some i) else none
  | .print i => if owner = some i then some owner else none
  | .release i => if owner = some i then some none else none
  | .exit i => if owner = some i then some none else some owner

def lockRun {ι : Type*} [DecidableEq ι] (es : List (SemEvent ι)) : Option (Option ι) :=
  es.foldlM ownerAfter none

structure SemSystem (ι : Type*) where
  sem : SemSet ι
  pc : ι → SemPc
  trace : List (SemEvent ι)

namespace SemSystem

variable {ι : Type*} [DecidableEq ι]

def init : SemSystem ι := ⟨.initSem, fun _ => .outside, []⟩

def move (s : SemSystem ι) (i : ι) (sem : SemSet ι) (pc : SemPc) (es : List (SemEvent ι)) :
    SemSystem ι := ⟨sem, Function.update s.pc i pc, s.trace ++ es⟩

/-- The processes loop over `P`, output and `V`, and look at no result. `P` may
fail in a process that gets a signal while it waits, if there is one that does. -/
inductive Step (signals : Prop) : SemSystem ι → SemSystem ι → Prop
  | acquire {s : SemSystem ι} {i : ι} {sem : SemSet ι} (hpc : s.pc i = .outside)
      (h : s.sem.P i = some sem) : Step signals s (s.move i sem .inside [.acquire i])
  | fail {s : SemSystem ι} {i : ι} (hsig : signals) (hpc : s.pc i = .outside)
      (h : s.sem.P i = none) : Step signals s (s.move i s.sem .inside [])
  | print {s : SemSystem ι} {i : ι} (hpc : s.pc i = .inside) :
      Step signals s (s.move i s.sem .inside [.print i])
  | release {s : SemSystem ι} {i : ι} {sem : SemSet ι} (hpc : s.pc i = .inside)
      (h : s.sem.V i = some sem) : Step signals s (s.move i sem .outside [.release i])
  | exit {s : SemSystem ι} {i : ι} (hpc : s.pc i ≠ .dead) :
      Step signals s (s.move i (s.sem.undo i) .dead [.exit i])

/-- The semaphore shows the lock that `owner` has. -/
structure Locks (s : SemSystem ι) (owner : Option ι) : Prop where
  trace : lockRun s.trace = some owner
  inside : ∀ i, s.pc i = .inside ↔ owner = some i
  val : s.sem.val = if owner = none then 1 else 0
  adj : ∀ i, s.sem.adj i = if owner = some i then 1 else 0

variable {s t : SemSystem ι} {owner : Option ι} {i : ι}

theorem locks_init : (init : SemSystem ι).Locks none := by
  constructor <;> simp [init, SemSet.initSem, lockRun]

theorem lockRun_concat (es : List (SemEvent ι)) (e : SemEvent ι) :
    lockRun (es ++ [e]) = (lockRun es).bind (ownerAfter · e) := by
  simp [lockRun, List.foldlM_append]

theorem Locks.P_eq (h : s.Locks owner) (i : ι) :
    s.sem.P i = if owner = none then some ⟨0, Function.update s.sem.adj i 1⟩ else none := by
  have hadj := h.adj i
  by_cases ho : owner = none
  · simp [SemSet.P, SemSet.opSem, h.val, ho] at hadj ⊢
    simp [hadj]
  · simp [SemSet.P, SemSet.opSem, h.val, ho]

theorem Locks.V_eq (h : s.Locks (some i)) :
    s.sem.V i = some ⟨1, Function.update s.sem.adj i 0⟩ := by
  simp [SemSet.V, SemSet.opSem, h.val, h.adj]

theorem Locks.undo_eq (h : s.Locks owner) (i : ι) : s.sem.undo i =
    ⟨if owner = none ∨ owner = some i then 1 else 0, Function.update s.sem.adj i 0⟩ := by
  have hadj := h.adj i
  have hval := h.val
  ext
  · by_cases ho : owner = some i
    · simp [SemSet.undo, hval, hadj, ho]
    · by_cases hn : owner = none <;> simp [SemSet.undo, hval, hadj, ho, hn]
  · rfl

theorem Locks.move (h : s.Locks owner) {owner' : Option ι} {sem : SemSet ι} {pc : SemPc}
    {e : SemEvent ι} (he : ownerAfter owner e = some owner')
    (hpc : ∀ j, Function.update s.pc i pc j = .inside ↔ owner' = some j)
    (hval : sem.val = if owner' = none then 1 else 0)
    (hadj : ∀ j, sem.adj j = if owner' = some j then 1 else 0) :
    (s.move i sem pc [e]).Locks owner' := by
  refine ⟨?_, hpc, hval, hadj⟩
  rw [SemSystem.move, lockRun_concat, h.trace]
  exact he

theorem Locks.step (h : s.Locks owner) (hst : Step False s t) : ∃ owner', t.Locks owner' := by
  cases hst with
  | @acquire i sem hpc hP =>
    rw [h.P_eq] at hP
    by_cases ho : owner = none
    · rw [if_pos ho] at hP
      obtain rfl := Option.some.inj hP
      refine ⟨some i, h.move (by simp [ownerAfter, ho]) (fun j => ?_) rfl fun j => ?_⟩
      · rcases eq_or_ne j i with rfl | hj
        · simp
        · simp [hj, hj.symm, h.inside, ho]
      · rcases eq_or_ne j i with rfl | hj
        · simp
        · simp [hj, hj.symm, h.adj, ho]
    · simp [ho] at hP
  | fail hsig => exact hsig.elim
  | @print i hpc =>
    have ho := (h.inside i).mp hpc
    refine ⟨owner, h.move (by simp [ownerAfter, ho]) (fun j => ?_) h.val h.adj⟩
    rcases eq_or_ne j i with rfl | hj
    · simp [ho]
    · simp [hj, h.inside]
  | @release i sem hpc hV =>
    obtain rfl := (h.inside i).mp hpc
    rw [h.V_eq] at hV
    obtain rfl := Option.some.inj hV
    refine ⟨none, h.move (by simp [ownerAfter]) (fun j => ?_) rfl fun j => ?_⟩
    · rcases eq_or_ne j i with rfl | hj
      · simp
      · simp [hj, hj.symm, h.inside]
    · rcases eq_or_ne j i with rfl | hj
      · simp
      · simp [hj, hj.symm, h.adj]
  | @exit i hpc =>
    rw [h.undo_eq]
    by_cases ho : owner = some i
    · refine ⟨none, h.move (by simp [ownerAfter, ho]) (fun j => ?_) (by simp [ho]) fun j => ?_⟩
      · rcases eq_or_ne j i with rfl | hj
        · simp
        · simp [hj, hj.symm, h.inside, ho]
      · rcases eq_or_ne j i with rfl | hj
        · simp
        · simp [hj, hj.symm, h.adj, ho]
    · refine ⟨owner, h.move (by simp [ownerAfter, ho]) (fun j => ?_) (by simp [ho]) fun j => ?_⟩
      · rcases eq_or_ne j i with rfl | hj
        · simp [ho]
        · simp [hj, h.inside]
      · rcases eq_or_ne j i with rfl | hj
        · simp [ho]
        · simp [hj, h.adj]

theorem locks_of_reachable (h : Reachable (Step False) (init : SemSystem ι) s) :
    ∃ owner, s.Locks owner :=
  h.invariant (fun s => ∃ owner, s.Locks owner) ⟨none, locks_init⟩
    fun _ _ ⟨_, hlocks⟩ hst => hlocks.step hst

/-- In every run of any number of processes, which may end at any point and
handle no signal while they wait, the semaphore is a lock that the end of its
owner frees: what the processes do is what the lock allows, and `P` waits only
while somebody is inside. -/
theorem semaphore_lock (h : Reachable (Step False) (init : SemSystem ι) s) :
    ∃ owner, lockRun s.trace = some owner ∧ (∀ i, s.pc i = .inside ↔ owner = some i) ∧
      s.sem.val = (if owner = none then 1 else 0) ∧
      (∀ i, (s.sem.P i).isSome ↔ owner = none) ∧ (∀ i, owner = some i → (s.sem.V i).isSome) := by
  obtain ⟨owner, hlocks⟩ := locks_of_reachable h
  refine ⟨owner, hlocks.trace, hlocks.inside, hlocks.val, fun i => ?_, fun i ho => ?_⟩
  · rw [hlocks.P_eq]
    split <;> simp_all
  · subst ho
    simp [hlocks.V_eq]

theorem semaphore_lock_exit : ∃ s : SemSystem Bool, Reachable (Step False) init s ∧
    s.trace = [.acquire true, .exit true] ∧
    ∃ owner, lockRun s.trace = some owner ∧ (∀ i, s.pc i = .inside ↔ owner = some i) ∧
      s.sem.val = (if owner = none then 1 else 0) ∧
      (∀ i, (s.sem.P i).isSome ↔ owner = none) ∧ (∀ i, owner = some i → (s.sem.V i).isSome) := by
  let held : SemSet Bool := ⟨0, Function.update (fun _ => 0) true 1⟩
  have hacquire : Step False (init : SemSystem Bool)
      (init.move true held .inside [.acquire true]) := .acquire rfl (locks_init.P_eq true)
  have hexit : Step False (init.move true held .inside [.acquire true]) _ :=
    .exit (i := true) (by simp [SemSystem.move])
  have hrun := Relation.ReflTransGen.tail (.single hacquire) hexit
  exact ⟨_, hrun, rfl, semaphore_lock hrun⟩

/-- A signal ends the wait in `P`, and its process goes in beside the owner. -/
theorem both_inside {signals : Prop} (hsig : signals) {i j : ι} (hne : j ≠ i) :
    ∃ s, Reachable (Step signals) (init : SemSystem ι) s ∧ s.pc i = .inside ∧ s.pc j = .inside := by
  let held : SemSet ι := ⟨0, Function.update (fun _ => 0) i 1⟩
  have hP : (init : SemSystem ι).sem.P i = some held := locks_init.P_eq i
  have hwait : held.P j = none := by simp [held, SemSet.P, SemSet.opSem]
  have hfirst : Step signals (init : SemSystem ι) (init.move i held .inside [.acquire i]) :=
    .acquire rfl hP
  have hsecond : Step signals (init.move i held .inside [.acquire i])
      ((init.move i held .inside [.acquire i]).move j held .inside []) :=
    .fail hsig (by simp [SemSystem.move, init, hne]) hwait
  exact ⟨_, .tail (.single hfirst) hsecond, by simp [SemSystem.move, hne.symm],
    by simp [SemSystem.move]⟩

/-- Two processes are never inside together exactly when no process has a signal
handled while it waits: the result of `P` is not looked at. -/
theorem semaphore_exclusion_iff (signals : Prop) :
    (∀ s, Reachable (Step signals) (init : SemSystem ι) s → ∀ i j, s.pc i = .inside →
      s.pc j = .inside → i = j) ↔ (signals → Subsingleton ι) := by
  constructor
  · intro h hsig
    refine ⟨fun i j => ?_⟩
    by_contra hne
    obtain ⟨s, hs, hi, hj⟩ := both_inside hsig (Ne.symm hne)
    exact hne (h s hs i j hi hj)
  · intro h s hs i j hi hj
    by_cases hsig : signals
    · have := h hsig
      exact Subsingleton.elim i j
    · rw [eq_false hsig] at hs
      obtain ⟨owner, hlocks⟩ := locks_of_reachable hs
      exact Option.some.inj (((hlocks.inside i).mp hi).symm.trans ((hlocks.inside j).mp hj))

end SemSystem

namespace SemSet

variable {ι : Type*} [DecidableEq ι]

theorem undo_initSem (i : ι) : (initSem : SemSet ι).undo i = initSem := by
  ext
  · simp [undo, initSem]
  · simp [undo, initSem]

theorem testSem_none (i : ι) : testSem none i = (1, some (initSem : SemSet ι)) := by
  have hP : (initSem : SemSet ι).P i = some ⟨0, Function.update (fun _ => 0) i 1⟩ :=
    SemSystem.locks_init.P_eq i
  have hundo : (⟨0, Function.update (fun _ => 0) i 1⟩ : SemSet ι).undo i = initSem := by
    ext <;> simp [undo, initSem]
  rw [testSem, hP, Option.map_some, hundo]

theorem testRuns_some (is : List ι) : testRuns (some initSem) is =
    (is.map fun _ => -1, some (initSem : SemSet ι)) := by
  induction is with
  | nil => rfl
  | cons i is ih => simp [testRuns, testSem, undo_initSem, ih]

/-- Only the first run of `test_sem` comes past `creatSem`: no run removes the
set, whose value each of them leaves at 1. -/
theorem testRuns_eq (i : ι) (is : List ι) :
    testRuns none (i :: is) = (1 :: is.map fun _ => -1, some (initSem : SemSet ι)) := by
  simp [testRuns, testSem_none, testRuns_some]

end SemSet

end LinuxStudy

import Mathlib.Data.Multiset.AddSub
import LinuxStudy.Threads
import LinuxStudy.TransitionSystem

/-! `thread_producer` and `thread_consumer` on one list, under `mutex` and
`cond`. A thread is the statement it is at, with its `data`; a consumer also
remembers whether it was woken since it last waited or popped. -/

namespace LinuxStudy

def pushHead (head : List Int) (data : Int) : List Int := data :: head

def isEmpty (head : List Int) : Int := if head = [] then 0 else 1

def popHead (head : List Int) (data : Int) : List Int × Int :=
  if isEmpty head ≠ 0 then (head.tail, head.headD data) else (head, data)

inductive Thread
  | rand
  | lock (data : Int)
  | push (data : Int)
  | unlock (data : Int)
  | sell (data : Int)
  | signal
  | fetch
  | test (woken : Bool)
  | wait (woken : Bool)
  | asleep
  | relock
  | pop (woken : Bool)
  | leave (data : Int)
  | get (data : Int)

namespace Thread

/-- The thread is between its lock and its unlock. -/
def holds : Thread → Bool
  | push _ | unlock _ | test _ | wait _ | pop _ | leave _ => true
  | rand | lock _ | sell _ | signal | fetch | asleep | relock | get _ => false

/-- The producer has pushed and not yet signalled. -/
def owesSignal : Thread → Bool
  | unlock _ | sell _ | signal => true
  | rand | lock _ | push _ | fetch | test _ | wait _ | asleep | relock | pop _ | leave _ | get _ =>
    false

/-- The consumer was woken and has neither popped nor waited since. -/
def awake : Thread → Bool
  | relock => true
  | test woken | wait woken | pop woken => woken
  | rand | lock _ | push _ | unlock _ | sell _ | signal | fetch | asleep | leave _ | get _ => false

/-- What the consumer popped and has not yet reported. -/
def inHand : Thread → Multiset Int
  | leave data | get data => {data}
  | rand | lock _ | push _ | unlock _ | sell _ | signal | fetch | test _ | wait _ | asleep | relock
  | pop _ => 0

/-- What the last test of the list says about it. -/
def Fits (head : List Int) : Thread → Prop
  | wait _ => head = []
  | pop _ => head ≠ []
  | rand | lock _ | push _ | unlock _ | sell _ | signal | fetch | test _ | asleep | relock | leave _
  | get _ => True

end Thread

/-- `pushed`, `popped` and `reported` only record what was done so far. -/
structure CondSystem (ι : Type*) where
  mutex : Option ι
  head : List Int
  thread : ι → Thread
  pushed : Multiset Int
  popped : Multiset Int
  reported : Multiset Int

namespace CondSystem

variable {ι : Type*}

def init (producer : ι → Bool) : CondSystem ι :=
  ⟨none, [], fun i => if producer i then .rand else .fetch, 0, 0, 0⟩

def move [DecidableEq ι] (s : CondSystem ι) (i : ι) (x : Thread) : CondSystem ι :=
  { s with thread := Function.update s.thread i x }

inductive Step [DecidableEq ι] : CondSystem ι → CondSystem ι → Prop
  | rand {s} (i : ι) (r : Nat) (h : s.thread i = .rand) :
      Step s (s.move i (.lock ((r % 100000 : Nat) : Int)))
  | lock {s} (i : ι) (data : Int) (h : s.thread i = .lock data) (hm : s.mutex = none) :
      Step s { s.move i (.push data) with mutex := some i }
  | push {s} (i : ι) (data : Int) (h : s.thread i = .push data) :
      Step s { s.move i (.unlock data) with
        head := pushHead s.head data, pushed := data ::ₘ s.pushed }
  | unlock {s} (i : ι) (data : Int) (h : s.thread i = .unlock data) :
      Step s { s.move i (.sell data) with mutex := none }
  | sell {s} (i : ι) (data : Int) (h : s.thread i = .sell data) : Step s (s.move i .signal)
  | signal {s} (i j : ι) (h : s.thread i = .signal) (hj : s.thread j = .asleep) :
      Step s ((s.move j .relock).move i .rand)
  | signalNone {s} (i : ι) (h : s.thread i = .signal) (hj : ∀ j, s.thread j ≠ .asleep) :
      Step s (s.move i .rand)
  | fetch {s} (i : ι) (h : s.thread i = .fetch) (hm : s.mutex = none) :
      Step s { s.move i (.test false) with mutex := some i }
  | test {s} (i : ι) (woken : Bool) (h : s.thread i = .test woken) :
      Step s (s.move i (if isEmpty s.head = 0 then .wait woken else .pop woken))
  | wait {s} (i : ι) (woken : Bool) (h : s.thread i = .wait woken) :
      Step s { s.move i .asleep with mutex := none }
  | spurious {s} (i : ι) (h : s.thread i = .asleep) : Step s (s.move i .relock)
  | relock {s} (i : ι) (h : s.thread i = .relock) (hm : s.mutex = none) :
      Step s { s.move i (.test true) with mutex := some i }
  | pop {s} (i : ι) (woken : Bool) (h : s.thread i = .pop woken) :
      Step s { s.move i (.leave (popHead s.head 0).2) with
        head := (popHead s.head 0).1, popped := (popHead s.head 0).2 ::ₘ s.popped }
  | leave {s} (i : ι) (data : Int) (h : s.thread i = .leave data) :
      Step s { s.move i (.get data) with mutex := none }
  | get {s} (i : ι) (data : Int) (h : s.thread i = .get data) :
      Step s { s.move i .fetch with reported := data ::ₘ s.reported }

/-- The mutex is with the thread inside its critical section, and what a
consumer found there still holds. -/
structure Guarded (mutex : Option ι) (head : List Int) (thread : ι → Thread) : Prop where
  holder : ∀ i, (thread i).holds = true ↔ mutex = some i
  fits : ∀ i, (thread i).Fits head

end CondSystem

theorem isEmpty_eq_zero {head : List Int} : isEmpty head = 0 ↔ head = [] := by
  unfold isEmpty
  split <;> simp_all

theorem popHead_cons (x : Int) (head : List Int) (data : Int) :
    popHead (x :: head) data = (head, x) := rfl

theorem Thread.fits_of_not_holds {x : Thread} (h : x.holds = false) (head : List Int) :
    x.Fits head := by
  cases x with
  | wait | pop => cases h
  | _ => trivial

namespace CondSystem

section Guarded

variable {ι : Type*} {mutex : Option ι} {head : List Int} {thread : ι → Thread} {i : ι}
  {x : Thread}

theorem Guarded.pop_cons (hs : Guarded mutex head thread) {woken : Bool}
    (h : thread i = .pop woken) : ∃ x rest, head = x :: rest := by
  have hfit := hs.fits i
  rw [h] at hfit
  exact List.exists_cons_of_ne_nil hfit

theorem Guarded.wait_nil (hs : Guarded mutex head thread) {woken : Bool}
    (h : thread i = .wait woken) : head = [] := by
  have hfit := hs.fits i
  rwa [h] at hfit

theorem Guarded.others (hs : Guarded mutex head thread) (hi : (thread i).holds = true) {j : ι}
    (hj : j ≠ i) : (thread j).holds = false := by
  rw [Bool.eq_false_iff, Ne, hs.holder j, (hs.holder i).mp hi]
  exact fun he => hj (Option.some.inj he).symm

variable [DecidableEq ι]

theorem Guarded.update (hi : x.holds = true ↔ mutex = some i) (hfit : x.Fits head)
    (hrest : ∀ j, j ≠ i → ((thread j).holds = true ↔ mutex = some j) ∧ (thread j).Fits head) :
    Guarded mutex head (Function.update thread i x) where
  holder := (Function.forall_update_iff thread fun j y => y.holds = true ↔ mutex = some j).mpr
    ⟨hi, fun j hj => (hrest j hj).1⟩
  fits := (Function.forall_update_iff thread fun _ y => y.Fits head).mpr
    ⟨hfit, fun j hj => (hrest j hj).2⟩

theorem Guarded.move (hs : Guarded mutex head thread) (hx : x.holds = (thread i).holds)
    (hfit : x.Fits head) : Guarded mutex head (Function.update thread i x) := by
  refine Guarded.update ?_ hfit fun j _ => ⟨hs.holder j, hs.fits j⟩
  rw [hx]
  exact hs.holder i

theorem Guarded.acquire (hs : Guarded mutex head thread) (hm : mutex = none)
    (hx : x.holds = true) (hfit : x.Fits head) :
    Guarded (some i) head (Function.update thread i x) := by
  refine Guarded.update ⟨fun _ => rfl, fun _ => hx⟩ hfit fun j hj => ⟨?_, hs.fits j⟩
  rw [hs.holder j, hm]
  exact ⟨nofun, fun he => absurd (Option.some.inj he).symm hj⟩

theorem Guarded.change (hs : Guarded mutex head thread) (hi : (thread i).holds = true)
    (hx : x.holds = true) {list : List Int} (hfit : x.Fits list) :
    Guarded mutex list (Function.update thread i x) :=
  Guarded.update ⟨fun _ => (hs.holder i).mp hi, fun _ => hx⟩ hfit fun j hj =>
    ⟨hs.holder j, Thread.fits_of_not_holds (hs.others hi hj) list⟩

theorem Guarded.release (hs : Guarded mutex head thread) (hi : (thread i).holds = true)
    (hx : x.holds = false) : Guarded none head (Function.update thread i x) := by
  refine Guarded.update ?_ (Thread.fits_of_not_holds hx head) fun j hj => ⟨?_, hs.fits j⟩
  · rw [hx]
    exact ⟨nofun, nofun⟩
  · rw [hs.others hi hj]
    exact ⟨nofun, nofun⟩

end Guarded

variable {ι : Type*} {s t : CondSystem ι}

theorem signal_ne {i j : ι} (h : s.thread i = .signal) (hj : s.thread j = .asleep) : i ≠ j := by
  rintro rfl
  rw [h] at hj
  cases hj

theorem guarded_init (producer : ι → Bool) :
    Guarded (init producer).mutex (init producer).head (init producer).thread := by
  constructor
  · intro i
    simp only [init]
    split <;> simp [Thread.holds]
  · intro i
    simp only [init]
    split <;> trivial

variable [DecidableEq ι]

theorem Guarded.step (hs : Guarded s.mutex s.head s.thread) (hst : Step s t) :
    Guarded t.mutex t.head t.thread := by
  cases hst with
  | rand i r h => exact hs.move (by rw [h]; rfl) trivial
  | lock i data h hm => exact hs.acquire hm rfl trivial
  | push i data h => exact hs.change (x := .unlock data) (by rw [h]; rfl) rfl trivial
  | unlock i data h => exact hs.release (by rw [h]; rfl) rfl
  | sell i data h => exact hs.move (by rw [h]; rfl) trivial
  | signal i j h hj =>
    have hwoken := hs.move (i := j) (x := .relock) (by rw [hj]; rfl) trivial
    refine hwoken.move (x := .rand) ?_ trivial
    rw [Function.update_of_ne (signal_ne h hj), h]
    rfl
  | signalNone i h hj => exact hs.move (by rw [h]; rfl) trivial
  | fetch i h hm => exact hs.acquire hm rfl trivial
  | test i woken h =>
    by_cases he : isEmpty s.head = 0
    · rw [if_pos he]
      exact hs.move (by rw [h]; rfl) (isEmpty_eq_zero.mp he)
    · rw [if_neg he]
      exact hs.move (by rw [h]; rfl) fun hn => he (isEmpty_eq_zero.mpr hn)
  | wait i woken h => exact hs.release (by rw [h]; rfl) rfl
  | spurious i h => exact hs.move (by rw [h]; rfl) trivial
  | relock i h hm => exact hs.acquire hm rfl trivial
  | pop i woken h =>
    exact hs.change (x := .leave (popHead s.head 0).2) (by rw [h]; rfl) rfl trivial
  | leave i data h => exact hs.release (by rw [h]; rfl) rfl
  | get i data h => exact hs.move (x := .fetch) (by rw [h]; rfl) trivial

theorem Guarded.reachable {producer : ι → Bool} (h : Reachable Step (init producer) s) :
    Guarded s.mutex s.head s.thread :=
  h.invariant (fun s => Guarded s.mutex s.head s.thread) (guarded_init producer)
    fun _ _ hs hst => hs.step hst

theorem sleep_then_push : ∃ s : CondSystem Bool, Reachable Step (init id) s ∧
    s.thread false = .asleep ∧ s.head = [7] := by
  have h1 := Relation.ReflTransGen.single (Step.fetch (s := init id) false rfl rfl)
  have h2 := h1.tail (.test false false rfl)
  have h3 := h2.tail (.wait false false rfl)
  have h4 := h3.tail (.rand true 7 rfl)
  have h5 := h4.tail (.lock true 7 rfl rfl)
  have h6 := h5.tail (.push true 7 rfl)
  exact ⟨_, h6, rfl, rfl⟩

end CondSystem

end LinuxStudy

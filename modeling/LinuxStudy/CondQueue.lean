import LinuxStudy.ProducerConsumer
import Mathlib.Tactic.Abel

/-! What the threads push, hand out and report, and that no signal is lost. -/

namespace LinuxStudy

namespace CondSystem

section Conservation

variable {ι : Type*} [Fintype ι]

/-- Every pushed value is in the list or was handed out, and every value handed
out is reported or still in the hand of a consumer. -/
structure Conserved (s : CondSystem ι) : Prop where
  guarded : Guarded s.mutex s.head s.thread
  pushed_eq : s.pushed = ↑s.head + s.popped
  popped_eq : s.popped = s.reported + total Thread.inHand s.thread

theorem conserved_init (producer : ι → Bool) : (init producer).Conserved where
  guarded := guarded_init producer
  pushed_eq := rfl
  popped_eq := by
    have hnone : ∀ i, ((init producer).thread i).inHand = 0 := by
      intro i
      simp only [init]
      split <;> rfl
    rw [total_zero Thread.inHand hnone]
    rfl

variable [DecidableEq ι]

theorem inHand_move {thread : ι → Thread} {i : ι} {x : Thread} {popped reported : Multiset Int}
    (popped' reported' : Multiset Int) (h : popped = reported + total Thread.inHand thread)
    (hi : popped' + reported + (thread i).inHand = popped + reported' + x.inHand) :
    popped' = reported' + total Thread.inHand (Function.update thread i x) := by
  have hu := total_update Thread.inHand thread i x
  refine add_right_cancel (b := reported + (thread i).inHand) ?_
  calc popped' + (reported + (thread i).inHand)
      = popped + reported' + x.inHand := by rw [← add_assoc, hi]
    _ = reported' + reported + (total Thread.inHand thread + x.inHand) := by
        rw [h]
        abel
    _ = reported' + total Thread.inHand (Function.update thread i x) +
          (reported + (thread i).inHand) := by
        rw [← hu]
        abel

theorem inHand_still {thread : ι → Thread} {i : ι} {x : Thread} {popped reported : Multiset Int}
    (h : popped = reported + total Thread.inHand thread) (hi : x.inHand = (thread i).inHand) :
    popped = reported + total Thread.inHand (Function.update thread i x) :=
  inHand_move popped reported h (by rw [hi])

theorem Conserved.step {s t : CondSystem ι} (hs : s.Conserved) (hst : Step s t) :
    t.Conserved := by
  refine ⟨hs.guarded.step hst, ?_, ?_⟩
  · have hp := hs.pushed_eq
    cases hst with
    | push i data h =>
      change data ::ₘ s.pushed = ((data :: s.head : List Int) : Multiset Int) + s.popped
      rw [hp, ← Multiset.cons_coe, Multiset.cons_add]
    | pop i woken h =>
      obtain ⟨x, rest, hhead⟩ := hs.guarded.pop_cons h
      change s.pushed = ((popHead s.head 0).1 : Multiset Int) + (popHead s.head 0).2 ::ₘ s.popped
      rw [hp, hhead, popHead_cons, ← Multiset.cons_coe, Multiset.cons_add, Multiset.add_cons]
    | _ => exact hp
  · have hp := hs.popped_eq
    cases hst with
    | rand i r h | lock i data h _ | push i data h | unlock i data h | sell i data h
    | signalNone i h _ | fetch i h _ | wait i woken h | spurious i h | relock i h _
    | leave i data h => exact inHand_still hp (by rw [h]; rfl)
    | signal i j h hj =>
      have hwoken := inHand_still hp (i := j) (x := .relock) (by rw [hj]; rfl)
      refine inHand_still hwoken (x := .rand) ?_
      change Thread.rand.inHand = (Function.update s.thread j .relock i).inHand
      rw [Function.update_of_ne (signal_ne h hj), h]
      rfl
    | test i woken h =>
      refine inHand_still hp ?_
      rw [h]
      split <;> rfl
    | pop i woken h =>
      refine inHand_move ((popHead s.head 0).2 ::ₘ s.popped) s.reported hp ?_
      rw [h, ← Multiset.singleton_add]
      simp only [Thread.inHand]
      abel
    | get i data h =>
      refine inHand_move s.popped (data ::ₘ s.reported) hp ?_
      rw [h, ← Multiset.singleton_add]
      simp only [Thread.inHand]
      abel

/-- No value is lost or handed out twice, and none is popped from an empty list. -/
theorem conservation {producer : ι → Bool} {s : CondSystem ι}
    (h : Reachable Step (init producer) s) :
    s.pushed = ↑s.head + s.popped ∧
      s.popped = s.reported + total Thread.inHand s.thread ∧
      ∀ i woken, s.thread i = .pop woken → s.head ≠ [] := by
  have hs := h.invariant Conserved (conserved_init producer) fun _ _ hs hst => hs.step hst
  refine ⟨hs.pushed_eq, hs.popped_eq, fun i woken hi => ?_⟩
  obtain ⟨x, rest, hhead⟩ := hs.guarded.pop_cons hi
  rw [hhead]
  exact List.cons_ne_nil x rest

theorem conservation_after_push : ∃ s : CondSystem Bool, s.head = [7] ∧
    s.pushed = ↑s.head + s.popped ∧
    s.popped = s.reported + total Thread.inHand s.thread ∧
    ∀ i woken, s.thread i = .pop woken → s.head ≠ [] := by
  obtain ⟨s, h, -, hhead⟩ := sleep_then_push
  exact ⟨s, hhead, conservation h⟩

end Conservation

section WakeUp

variable {ι : Type*} [Fintype ι]

/-- While a consumer sleeps, each value in the list has a signal still to come
or a consumer on its way. -/
def Covered (head : List Int) (thread : ι → Thread) : Prop :=
  (∃ i, thread i = .asleep) →
    head.length ≤ count Thread.owesSignal thread + count Thread.awake thread

theorem covered_init (producer : ι → Bool) :
    Covered (init producer).head (init producer).thread := fun _ => Nat.zero_le _

variable [DecidableEq ι]

theorem Covered.move {head : List Int} {thread : ι → Thread} {i : ι} {x : Thread}
    (hs : Covered head thread) (list : List Int) (hx : x ≠ .asleep)
    (hlen : list.length + (thread i).owesSignal.toNat + (thread i).awake.toNat ≤
      head.length + x.owesSignal.toNat + x.awake.toNat) :
    Covered list (Function.update thread i x) := by
  rintro ⟨j, hj⟩
  have hji : j ≠ i := by
    rintro rfl
    rw [Function.update_self] at hj
    exact hx hj
  have hold := hs ⟨j, by rwa [Function.update_of_ne hji] at hj⟩
  have h1 := count_update Thread.owesSignal thread i x
  have h2 := count_update Thread.awake thread i x
  omega

/-- The consumer that a signal wakes takes the place of the signal that was owed. -/
theorem Covered.step {s t : CondSystem ι} (hg : Guarded s.mutex s.head s.thread)
    (hs : Covered s.head s.thread) (hst : Step s t) : Covered t.head t.thread := by
  cases hst with
  | rand i r h | lock i data h _ | unlock i data h | sell i data h | fetch i h _
  | spurious i h | relock i h _ | leave i data h | get i data h =>
    exact hs.move s.head nofun (by rw [h]; simp [Thread.owesSignal, Thread.awake])
  | push i data h =>
    refine hs.move (pushHead s.head data) nofun ?_
    rw [h]
    simp [Thread.owesSignal, Thread.awake, pushHead]
  | signal i j h hj =>
    have hwoken : Covered (0 :: s.head) (Function.update s.thread j .relock) :=
      hs.move _ nofun (by rw [hj]; simp [Thread.owesSignal, Thread.awake])
    refine hwoken.move s.head (x := .rand) nofun ?_
    rw [Function.update_of_ne (signal_ne h hj), h]
    simp [Thread.owesSignal, Thread.awake]
  | signalNone i h hj =>
    rintro ⟨k, hk⟩
    have hki : k ≠ i := by
      rintro rfl
      simp [CondSystem.move] at hk
    exact absurd (by simpa [CondSystem.move, hki] using hk) (hj k)
  | test i woken h =>
    by_cases he : isEmpty s.head = 0
    · rw [if_pos he]
      exact hs.move s.head nofun (by rw [h]; simp [Thread.owesSignal, Thread.awake])
    · rw [if_neg he]
      exact hs.move s.head nofun (by rw [h]; simp [Thread.owesSignal, Thread.awake])
  | wait i woken h =>
    change Covered s.head _
    rw [hg.wait_nil h]
    exact fun _ => Nat.zero_le _
  | pop i woken h =>
    obtain ⟨x, rest, hhead⟩ := hg.pop_cons h
    refine hs.move ((popHead s.head 0).1) nofun ?_
    rw [h, hhead, popHead_cons]
    cases woken <;> simp [Thread.owesSignal, Thread.awake]

/-- No wake-up is lost: beside a sleeping consumer there are no more values than
signals to come and consumers on their way. -/
theorem no_lost_wakeup {producer : ι → Bool} {s : CondSystem ι}
    (h : Reachable Step (init producer) s) (hs : ∃ i, s.thread i = .asleep) :
    s.head.length ≤ count Thread.owesSignal s.thread + count Thread.awake s.thread ∧
      (s.head ≠ [] →
        (∃ i, (s.thread i).owesSignal = true) ∨ ∃ i, (s.thread i).awake = true) := by
  have hinv := h.invariant
    (fun s => Guarded s.mutex s.head s.thread ∧ Covered s.head s.thread)
    ⟨guarded_init producer, covered_init producer⟩
    fun _ _ hs hst => ⟨hs.1.step hst, hs.2.step hs.1 hst⟩
  have hle := hinv.2 hs
  refine ⟨hle, fun hne => ?_⟩
  rw [← count_pos_iff, ← count_pos_iff]
  have := List.length_pos_of_ne_nil hne
  omega

theorem no_lost_wakeup_after_push : ∃ s : CondSystem Bool, s.head = [7] ∧
    s.head.length ≤ count Thread.owesSignal s.thread + count Thread.awake s.thread ∧
    (s.head ≠ [] →
      (∃ i, (s.thread i).owesSignal = true) ∨ ∃ i, (s.thread i).awake = true) := by
  obtain ⟨s, h, hsleep, hhead⟩ := sleep_then_push
  exact ⟨s, hhead, no_lost_wakeup h ⟨false, hsleep⟩⟩

end WakeUp

end CondSystem

end LinuxStudy

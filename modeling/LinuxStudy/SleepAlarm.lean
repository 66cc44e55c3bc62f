import LinuxStudy.TransitionSystem
import Mathlib.Algebra.Group.Int.Defs

/-! `mysleep`: the caller blocks SIGALRM, sets an alarm and waits for it in
`sigsuspend`. Seconds pass and other signals are sent between any two of its
calls; only the alarm sends SIGALRM. -/

namespace LinuxStudy

abbrev Signal := Nat

def sigalrm : Signal := 14

/-- The mask of the caller, and its actions for the other signals: some have a
handler, which returns, and some end the process. -/
structure Caller where
  osig : Signal → Bool
  caught : Signal → Bool
  ends : Signal → Bool

def Caller.blocked (c : Caller) : Signal → Bool := Function.update c.osig sigalrm true

/-- The next call of `mysleep`. In `suspended` the process sleeps until a handler
has run, and `done` is behind the last call; `ret` is what `alarm(0)` returned,
which becomes an `int`. -/
inductive SleepPc
  | block | install | arm | suspend
  | suspended (woken : Bool)
  | disarm
  | uninstall (ret : Nat)
  | restore (ret : Nat)
  | done (ret : Nat)
  deriving DecidableEq

structure Sleeper where
  pc : SleepPc
  mask : Signal → Bool
  pending : Signal → Bool
  /-- SIGALRM has the handler `sigrun`, else its default action. -/
  handler : Bool
  /-- Seconds to go, 0 when no alarm is set. -/
  timer : Nat
  dead : Option Signal

/-- The argument of `alarm` is unsigned. -/
def seconds (secs : Int) : Nat := (secs % 2 ^ 32).toNat

namespace Sleeper

variable (c : Caller) (secs : Int)

def start : Sleeper := ⟨.block, c.osig, fun _ => false, false, 0, none⟩

def next (s : Sleeper) : Option Sleeper :=
  match s.pc with
  | .block => some { s with mask := Function.update s.mask sigalrm true, pc := .install }
  | .install => some { s with handler := true, pc := .arm }
  | .arm => some { s with timer := seconds secs, pc := .suspend }
  | .suspend => some { s with mask := c.osig, pc := .suspended false }
  | .suspended false => none
  | .suspended true => some { s with mask := c.blocked, pc := .disarm }
  | .disarm => some { s with timer := 0, pc := .uninstall s.timer }
  | .uninstall ret => some { s with handler := false, pc := .restore ret }
  | .restore ret => some { s with mask := c.osig, pc := .done ret }
  | .done _ => none

def catches (s : Sleeper) (sig : Signal) : Bool := if sig = sigalrm then s.handler else c.caught sig

def ended (sig : Signal) : Bool := if sig = sigalrm then true else c.ends sig

/-- The pending signal is handled; a handler that returns ends `sigsuspend`. -/
def deliver (s : Sleeper) (sig : Signal) : Sleeper :=
  let pending := Function.update s.pending sig false
  if s.catches c sig then
    { s with pending := pending, pc := if s.pc = .suspended false then .suspended true else s.pc }
  else { s with pending := pending, dead := if ended c sig then some sig else none }

/-- The next call is made when no signal is left to be handled. -/
inductive Step : Sleeper → Sleeper → Prop
  | tick {s : Sleeper} {n : Nat} (ha : s.dead = none) (h : s.timer = n + 2) :
      Step s { s with timer := n + 1 }
  | expire {s : Sleeper} (ha : s.dead = none) (h : s.timer = 1) :
      Step s { s with timer := 0, pending := Function.update s.pending sigalrm true }
  | send {s : Sleeper} (sig : Signal) (ha : s.dead = none) (hne : sig ≠ sigalrm) :
      Step s { s with pending := Function.update s.pending sig true }
  | deliver {s : Sleeper} (sig : Signal) (ha : s.dead = none) (hp : s.pending sig = true)
      (hm : s.mask sig = false) : Step s (s.deliver c sig)
  | run {s t : Sleeper} (ha : s.dead = none)
      (hq : ∀ sig, s.pending sig = true → s.mask sig = true) (h : s.next c secs = some t) :
      Step s t

end Sleeper

namespace SleepPc

@[simp] def mask (c : Caller) : SleepPc → Signal → Bool
  | block | suspended _ | done _ => c.osig
  | install | arm | suspend | disarm | uninstall _ | restore _ => c.blocked

@[simp] def handler : SleepPc → Bool
  | block | install | restore _ | done _ => false
  | arm | suspend | suspended _ | disarm | uninstall _ => true

@[simp] def armed : SleepPc → Bool
  | suspend | suspended _ | disarm => true
  | block | install | arm | uninstall _ | restore _ | done _ => false

/-- Nothing has ended `sigsuspend` yet, and it has been or will be called. -/
@[simp] def waits : SleepPc → Bool
  | suspend | suspended false => true
  | block | install | arm | suspended true | disarm | uninstall _ | restore _ | done _ => false

@[simp] def woken : SleepPc → Bool
  | suspended true | disarm | uninstall _ | restore _ | done _ => true
  | block | install | arm | suspend | suspended false => false

@[simp] def ret : SleepPc → Nat
  | uninstall ret | restore ret | done ret => ret
  | block | install | arm | suspend | suspended _ | disarm => 0

variable {c : Caller} {pc : SleepPc}

theorem armed_ret (h : pc.armed = true) : pc.ret = 0 := by
  cases pc <;> simp at h ⊢

theorem armed_waits (h : pc.armed = true) : pc.waits = true ∨ pc.woken = true := by
  cases pc with
  | suspended woken => cases woken <;> simp
  | _ => simp at h ⊢

/-- SIGALRM is handled in `sigsuspend`, or after the last call. -/
theorem unmasked (hm : pc.mask c sigalrm = false) (hpc : pc.waits = true ∨ pc.woken = true) :
    c.osig sigalrm = false ∧ ((∃ woken, pc = .suspended woken) ∨ ∃ ret, pc = .done ret) := by
  cases pc <;> simp_all [Caller.blocked]

end SleepPc

/-- Another signal than SIGALRM can end `sigsuspend`. -/
def Caller.Interrupts (c : Caller) : Prop :=
  ∃ sig, sig ≠ sigalrm ∧ c.caught sig = true ∧ c.osig sig = false

namespace Sleeper

variable {c : Caller} {secs : Int} {s t : Sleeper}

structure Inv (c : Caller) (secs : Int) (s : Sleeper) : Prop where
  mask : s.mask = s.pc.mask c
  handler : s.handler = s.pc.handler
  timer : s.timer ≠ 0 → s.pending sigalrm = false ∧ seconds secs ≠ 0 ∧ s.pc.armed = true
  pending : s.pending sigalrm = true → seconds secs ≠ 0 ∧ (s.pc.waits = true ∨ s.pc.woken = true)
  awaited : seconds secs ≠ 0 → s.pc.waits = true → s.timer ≠ 0 ∨ s.pending sigalrm = true
  woken : s.pc.woken = true → s.timer ≠ 0 ∨ s.pending sigalrm = true → c.osig sigalrm = false →
    c.Interrupts
  left : s.pc.ret ≠ 0 → s.pending sigalrm = false
  dead : s.dead = some sigalrm →
    (∃ ret, s.pc = .done ret) ∧ seconds secs ≠ 0 ∧ c.osig sigalrm = false ∧ c.Interrupts

theorem inv_start : (start c).Inv c secs := by
  constructor <;> simp [start]

theorem Inv.run (h : s.Inv c secs) (ht : s.next c secs = some t) : t.Inv c secs := by
  obtain ⟨hmask, hhandler, htimer, hpending, hawaited, hwoken, hleft, hdead⟩ := h
  cases hpc : s.pc with
  | suspended woken =>
    cases woken with
    | false => simp [next, hpc] at ht
    | true =>
      simp only [next, hpc, Option.some.injEq] at ht
      subst t
      constructor <;> simp_all
  | done ret => simp [next, hpc] at ht
  | _ =>
    simp only [next, hpc, Option.some.injEq] at ht
    subst t
    constructor <;> simp_all [Caller.blocked]

theorem Inv.tick (h : s.Inv c secs) {n : Nat} (hn : s.timer = n + 2) :
    { s with timer := n + 1 }.Inv c secs := by
  have hset : s.timer ≠ 0 := by omega
  exact ⟨h.mask, h.handler, fun _ => h.timer hset, h.pending, fun _ _ => .inl (by simp),
    fun hw _ => h.woken hw (.inl hset), h.left, h.dead⟩

theorem Inv.expire (h : s.Inv c secs) (ha : s.dead = none) (hone : s.timer = 1) :
    { s with timer := 0, pending := Function.update s.pending sigalrm true }.Inv c secs := by
  have hset : s.timer ≠ 0 := by omega
  have hrung : Function.update s.pending sigalrm true sigalrm = true := Function.update_self ..
  obtain ⟨-, hsecs, harmed⟩ := h.timer hset
  exact ⟨h.mask, h.handler, fun hzero => absurd rfl hzero,
    fun _ => ⟨hsecs, SleepPc.armed_waits harmed⟩, fun _ _ => .inr hrung,
    fun hw _ => h.woken hw (.inl hset), fun hret => absurd (SleepPc.armed_ret harmed) hret,
    fun hdead => by simp [ha] at hdead⟩

theorem Inv.other (h : s.Inv c secs) {pending : Signal → Bool} {dead : Option Signal}
    (hsame : pending sigalrm = s.pending sigalrm) (hdead : dead = some sigalrm → dead = s.dead) :
    { s with pending := pending, dead := dead }.Inv c secs := by
  constructor <;> simp only [hsame]
  · exact h.mask
  · exact h.handler
  · exact h.timer
  · exact h.pending
  · exact h.awaited
  · exact h.woken
  · exact h.left
  · exact fun hd => h.dead ((hdead hd).symm.trans hd)

theorem Inv.wake (h : s.Inv c secs) {woken : Bool} (hpc : s.pc = .suspended woken)
    (ha : s.dead = none) {pending : Signal → Bool}
    (hpending : pending sigalrm = true → s.pending sigalrm = true)
    (hinterrupts : s.timer ≠ 0 ∨ pending sigalrm = true → c.osig sigalrm = false → c.Interrupts) :
    { s with pending := pending, pc := .suspended true }.Inv c secs := by
  constructor <;> simp only [SleepPc.mask, SleepPc.handler, SleepPc.armed, SleepPc.waits,
    SleepPc.woken, SleepPc.ret]
  · simp [h.mask, hpc]
  · simp [h.handler, hpc]
  · intro hset
    obtain ⟨hnone, hsecs, -⟩ := h.timer hset
    exact ⟨Bool.eq_false_iff.mpr fun hp => by simp [hpending hp] at hnone, hsecs, trivial⟩
  · exact fun hp => ⟨(h.pending (hpending hp)).1, .inr trivial⟩
  · simp
  · exact fun _ hleft ho => hinterrupts hleft ho
  · simp
  · simp [ha]

theorem Inv.deliver_alarm (h : s.Inv c secs) (ha : s.dead = none)
    (hp : s.pending sigalrm = true) (hm : s.mask sigalrm = false) :
    (s.deliver c sigalrm).Inv c secs := by
  have hzero : s.timer = 0 := by
    by_contra hset
    simp [(h.timer hset).1] at hp
  have hnone : Function.update s.pending sigalrm false sigalrm = false := Function.update_self ..
  obtain ⟨hsecs, hplace⟩ := h.pending hp
  rw [h.mask] at hm
  obtain ⟨hosig, ⟨woken, hpc⟩ | ⟨ret, hpc⟩⟩ := SleepPc.unmasked hm hplace
  · have hdeliver : s.deliver c sigalrm = { s with
        pending := Function.update s.pending sigalrm false, pc := .suspended true } := by
      cases woken <;> simp [Sleeper.deliver, catches, h.handler, hpc]
    rw [hdeliver]
    exact h.wake hpc ha (by simp) (by simp [hzero])
  · have hdeliver : s.deliver c sigalrm = { s with
        pending := Function.update s.pending sigalrm false, dead := some sigalrm } := by
      simp [Sleeper.deliver, catches, ended, h.handler, hpc]
    have hinterrupts := h.woken (by simp [hpc]) (.inr hp) hosig
    rw [hdeliver]
    exact ⟨h.mask, h.handler, fun hset => absurd hzero hset, by simp, by simp [hpc], by simp [hzero],
      fun _ => hnone, fun _ => ⟨⟨ret, hpc⟩, hsecs, hosig, hinterrupts⟩⟩

theorem Inv.deliver (h : s.Inv c secs) (ha : s.dead = none) {sig : Signal}
    (hp : s.pending sig = true) (hm : s.mask sig = false) : (s.deliver c sig).Inv c secs := by
  by_cases halrm : sig = sigalrm
  · subst sig
    exact h.deliver_alarm ha hp hm
  · have hsame : Function.update s.pending sig false sigalrm = s.pending sigalrm :=
      Function.update_of_ne (Ne.symm halrm) _ _
    by_cases hcaught : c.caught sig = true
    · by_cases hpc : s.pc = .suspended false
      · rw [h.mask, hpc] at hm
        have hdeliver : s.deliver c sig = { s with
            pending := Function.update s.pending sig false, pc := .suspended true } := by
          simp [Sleeper.deliver, catches, halrm, hcaught, hpc]
        rw [hdeliver]
        exact h.wake hpc ha (by simp [hsame]) fun _ _ => ⟨sig, halrm, hcaught, hm⟩
      · have hdeliver : s.deliver c sig = { s with
            pending := Function.update s.pending sig false, dead := s.dead } := by
          simp [Sleeper.deliver, catches, halrm, hcaught, hpc]
        rw [hdeliver]
        exact h.other hsame fun _ => rfl
    · have hdeliver : s.deliver c sig = { s with
          pending := Function.update s.pending sig false,
          dead := if c.ends sig then some sig else none } := by
        simp [Sleeper.deliver, catches, ended, halrm, hcaught]
      rw [hdeliver]
      apply h.other hsame
      intro hdead
      cases hends : c.ends sig with
      | false => simp [hends] at hdead
      | true => exact absurd (by simpa [hends] using hdead) halrm

theorem Inv.step (h : s.Inv c secs) (hst : Step c secs s t) : t.Inv c secs := by
  cases hst with
  | tick _ hn => exact h.tick hn
  | expire ha hone => exact h.expire ha hone
  | send sig _ hne => exact h.other (Function.update_of_ne hne.symm _ _) fun _ => rfl
  | deliver sig ha hp hm => exact h.deliver ha hp hm
  | run _ _ ht => exact h.run ht

theorem inv_of_reachable (h : Reachable (Step c secs) (start c) s) : s.Inv c secs :=
  h.invariant (Inv c secs) inv_start fun _ _ hinv hst => hinv.step hst

def between (c : Caller) (pc : SleepPc) (pending : Signal → Bool) (timer : Nat) : Sleeper :=
  ⟨pc, pc.mask c, pending, pc.handler, timer, none⟩

def quietly : Signal → Bool := fun _ => false

theorem reach_suspended (c : Caller) (secs : Int) :
    Reachable (Step c secs) (start c) (between c (.suspended false) quietly (seconds secs)) := by
  have hq : ∀ pc : SleepPc, ∀ sig, quietly sig = true → pc.mask c sig = true :=
    fun pc sig h => by cases h
  have hblock : Step c secs (start c) (between c .install quietly 0) := .run rfl (hq .block) rfl
  have hinstall : Step c secs (between c .install quietly 0) (between c .arm quietly 0) :=
    .run rfl (hq .install) rfl
  have harm : Step c secs (between c .arm quietly 0)
      (between c .suspend quietly (seconds secs)) := .run rfl (hq .arm) rfl
  have hsuspend : Step c secs (between c .suspend quietly (seconds secs))
      (between c (.suspended false) quietly (seconds secs)) := .run rfl (hq .suspend) rfl
  exact .head hblock (.head hinstall (.head harm (.single hsuspend)))

/-- In every run of `mysleep` nothing is lost while it sleeps (the alarm is set
or the signal is there to be handled, unless the caller asked for no seconds or
has SIGALRM blocked), and all is set back when it has returned: the mask, the
action and the alarm; if seconds were left, no SIGALRM is on its way. -/
theorem sleep_run (h : Reachable (Step c secs) (start c) s) :
    (s.pc = .suspended false → seconds secs ≠ 0 → c.osig sigalrm = false →
      s.timer ≠ 0 ∨ s.pending sigalrm = true ∧ s.mask sigalrm = false ∧ s.handler = true) ∧
    (∀ ret, s.pc = .done ret → s.mask = c.osig ∧ s.handler = false ∧ s.timer = 0 ∧
      (ret ≠ 0 → s.pending sigalrm = false)) := by
  obtain ⟨hmask, hhandler, htimer, hpending, hawaited, hwoken, hleft, hdead⟩ := inv_of_reachable h
  constructor
  · intro hpc hsecs hosig
    simp_all
  · intro ret hpc
    simp_all

def lonely : Caller := ⟨fun _ => false, fun _ => false, fun _ => false⟩

theorem sleep_run_second : ∃ s, Reachable (Step lonely 1) (start lonely) s ∧
    s.pc = .suspended false ∧
    (s.timer ≠ 0 ∨ s.pending sigalrm = true ∧ s.mask sigalrm = false ∧ s.handler = true) :=
  ⟨_, reach_suspended lonely 1, rfl, (sleep_run (reach_suspended lonely 1)).1 rfl (by decide) rfl⟩

theorem tick_down {pc : SleepPc} {pending : Signal → Bool} (n : Nat) :
    Reachable (Step c secs) (between c pc pending (n + 1)) (between c pc pending 1) := by
  induction n with
  | zero => exact .refl
  | succ n ih => exact .head (.tick rfl rfl) ih

/-- A handler of another signal ends the sleep with the alarm still set. -/
theorem reach_disarm (h : c.Interrupts) :
    Reachable (Step c secs) (between c (.suspended false) quietly (seconds secs))
      (between c .disarm quietly (seconds secs)) := by
  obtain ⟨sig, hne, hcaught, hosig⟩ := h
  have hquiet : Function.update (Function.update quietly sig true) sig false = quietly := by
    rw [Function.update_idem]
    exact Function.update_eq_self sig quietly
  have hsend : Step c secs (between c (.suspended false) quietly (seconds secs))
      (between c (.suspended false) (Function.update quietly sig true) (seconds secs)) :=
    .send sig rfl hne
  have hmark : (between c (.suspended false) (Function.update quietly sig true)
      (seconds secs)).deliver c sig = between c (.suspended true) quietly (seconds secs) := by
    simp [between, deliver, catches, hne, hcaught, hquiet]
  have hdeliver : Step c secs (between c (.suspended false) (Function.update quietly sig true)
      (seconds secs)) (between c (.suspended true) quietly (seconds secs)) := by
    rw [← hmark]
    exact .deliver sig rfl (Function.update_self ..) hosig
  have hreturn : Step c secs (between c (.suspended true) quietly (seconds secs))
      (between c .disarm quietly (seconds secs)) := .run rfl (fun sig h => by cases h) rfl
  exact .head hsend (.head hdeliver (.single hreturn))

/-- If the second is over before `alarm(0)`, SIGALRM stays pending and ends the
process once it is unblocked, its handler being gone. -/
theorem reach_killed (secs : Int) (hosig : c.osig sigalrm = false) :
    ∃ s, Reachable (Step c secs) (between c .disarm quietly 1) s ∧ s.dead = some sigalrm := by
  let rung := Function.update quietly sigalrm true
  have hrung : rung sigalrm = true := Function.update_self ..
  have hq : ∀ sig, rung sig = true → c.blocked sig = true := by
    intro sig h
    by_cases hsig : sig = sigalrm
    · simp [hsig, Caller.blocked]
    · simp [rung, hsig, quietly] at h
  have hexpire : Step c secs (between c .disarm quietly 1) (between c .disarm rung 0) :=
    .expire rfl rfl
  have hdisarm : Step c secs (between c .disarm rung 0) (between c (.uninstall 0) rung 0) :=
    .run rfl hq rfl
  have huninstall : Step c secs (between c (.uninstall 0) rung 0)
      (between c (.restore 0) rung 0) := .run rfl hq rfl
  have hrestore : Step c secs (between c (.restore 0) rung 0) (between c (.done 0) rung 0) :=
    .run rfl hq rfl
  refine ⟨_, .head hexpire (.head hdisarm (.head huninstall (.head hrestore
    (.single (.deliver sigalrm rfl hrung hosig))))), ?_⟩
  simp [between, deliver, catches, ended]

/-- SIGALRM can end the process out of `mysleep` exactly when another signal can
end its sleep: then the alarm may ring before it is cancelled. -/
theorem sleep_killed_iff (c : Caller) (secs : Int) :
    (∃ s, Reachable (Step c secs) (start c) s ∧ s.dead = some sigalrm) ↔
      seconds secs ≠ 0 ∧ c.osig sigalrm = false ∧ c.Interrupts := by
  constructor
  · rintro ⟨s, hs, hdead⟩
    exact ((inv_of_reachable hs).dead hdead).2
  · rintro ⟨hsecs, hosig, hinterrupts⟩
    obtain ⟨n, hn⟩ := Nat.exists_eq_succ_of_ne_zero hsecs
    obtain ⟨s, hs, hdead⟩ := reach_killed secs hosig
    have hdisarm := (reach_suspended c secs).trans (reach_disarm hinterrupts)
    rw [hn] at hdisarm
    exact ⟨s, (hdisarm.trans (tick_down n)).trans hs, hdead⟩

end Sleeper

end LinuxStudy

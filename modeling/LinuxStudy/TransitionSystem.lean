import Mathlib.Logic.Function.Basic
import Mathlib.Logic.Relation

/-! Runs of a transition system: what every step preserves holds of every
reachable state. Processes that take turns inside one host are such a system. A
fatal step of any of them ends the host; what a process has started elsewhere
goes on by itself. -/

namespace LinuxStudy

section TransitionSystem

variable {σ : Type*} {step : σ → σ → Prop} {init s : σ}

abbrev Reachable (step : σ → σ → Prop) (init s : σ) : Prop := Relation.ReflTransGen step init s

theorem Reachable.invariant (inv : σ → Prop) (h : Reachable step init s) (hinit : inv init)
    (hstep : ∀ a b, inv a → step a b → inv b) : inv s := by
  induction h with
  | refl => exact hinit
  | tail _ h ih => exact hstep _ _ ih h

/-- What the steps of one system do, steps of the other can do, none or several
for each. -/
theorem Reachable.simulate {τ : Type*} {step' : τ → τ → Prop} {init' : τ} (rel : σ → τ → Prop)
    (h : Reachable step init s) (hinit : rel init init')
    (hstep : ∀ a b x, rel a x → step a b → ∃ y, Reachable step' x y ∧ rel b y) :
    ∃ t, Reachable step' init' t ∧ rel s t := by
  induction h with
  | refl => exact ⟨init', .refl, hinit⟩
  | tail _ h ih =>
    obtain ⟨x, hx, hrel⟩ := ih
    obtain ⟨y, hy, hrel⟩ := hstep _ _ x hrel h
    exact ⟨y, hx.trans hy, hrel⟩

end TransitionSystem

structure Host (ι σ : Type*) where
  alive : Bool
  state : ι → σ

section Interleaving

variable {ι σ : Type*} [DecidableEq ι] (step orphan : σ → σ → Prop) (fatal : σ → Prop)

def Host.move (s : Host ι σ) (i : ι) (x : σ) : Host ι σ :=
  { s with state := Function.update s.state i x }

inductive Host.Step : Host ι σ → Host ι σ → Prop
  | move {s : Host ι σ} (i : ι) (x : σ) (ha : s.alive = true) (h : step (s.state i) x) :
      Step s (s.move i x)
  | die {s : Host ι σ} (i : ι) (ha : s.alive = true) (h : fatal (s.state i)) :
      Step s { s with alive := false }
  | orphan {s : Host ι σ} (i : ι) (x : σ) (h : orphan (s.state i) x) : Step s (s.move i x)

variable {step orphan fatal} {init : ι → σ} {s : Host ι σ}

theorem Host.move_self (s : Host ι σ) (i : ι) (x : σ) : (s.move i x).state i = x :=
  Function.update_self ..

theorem Host.move_of_ne (s : Host ι σ) {i j : ι} (x : σ) (h : i ≠ j) :
    (s.move j x).state i = s.state i := Function.update_of_ne h ..

theorem Host.move_move (s : Host ι σ) (i : ι) (x y : σ) : (s.move i x).move i y = s.move i y := by
  rw [move, move, Function.update_idem]
  rfl

theorem Host.reach_state (horphan : ∀ x y, orphan x y → step x y)
    (h : Reachable (Host.Step step orphan fatal) ⟨true, init⟩ s) (i : ι) :
    Reachable step (init i) (s.state i) := by
  refine Reachable.invariant (fun s => ∀ i, Reachable step (init i) (s.state i)) h (fun _ => .refl)
    (fun a b hinv hst i => ?_) i
  have hmove : ∀ j x, step (a.state j) x → Reachable step (init i) ((a.move j x).state i) := by
    intro j x hx
    by_cases hij : i = j
    · subst j
      rw [move_self]
      exact (hinv i).tail hx
    · rw [move_of_ne a x hij]
      exact hinv i
  cases hst with
  | move j x _ hx => exact hmove j x hx
  | die => exact hinv i
  | orphan j x hx => exact hmove j x (horphan _ _ hx)

theorem Host.run (orphan : σ → σ → Prop) (fatal : σ → Prop) (ha : s.alive = true) (i : ι) {x : σ}
    (h : Reachable step (s.state i) x) :
    Reachable (Host.Step step orphan fatal) s (s.move i x) := by
  induction h with
  | refl =>
    rw [move, Function.update_eq_self]
  | @tail x y _ hxy ih =>
    rw [← s.move_move i x y]
    exact ih.tail (.move i y ha (by rwa [move_self]))

/-- The host lives on exactly when no process can come to a fatal step. -/
theorem Host.alive_iff (horphan : ∀ x y, orphan x y → step x y) :
    (∀ s, Reachable (Host.Step step orphan fatal) ⟨true, init⟩ s → s.alive = true) ↔
      ∀ i x, Reachable step (init i) x → ¬ fatal x := by
  constructor
  · intro h i x hx hfatal
    have hreach := Host.run (s := ⟨true, init⟩) orphan fatal rfl i hx
    have hdie := hreach.tail (.die i rfl (by rwa [move_self]))
    exact absurd (h _ hdie) Bool.false_ne_true
  · intro h s hs
    induction hs with
    | refl => rfl
    | tail hab hst ih =>
      cases hst with
      | move => exact ih
      | die i _ hfatal => exact absurd hfatal (h i _ (Host.reach_state horphan hab i))
      | orphan => exact ih

end Interleaving

end LinuxStudy

import Mathlib.Data.List.Nodup
import Mathlib.Data.List.Perm.Subperm
import Mathlib.Data.List.ReduceOption

/-! A table that tracks live things in its slots, and scans that serve what a
table holds while they change it. -/

namespace LinuxStudy

section Tracks

variable {α : Type*} {slots slots' live : List α} {c : α}

/-- No slot holds a dead thing, and none is in two slots. -/
structure Tracks (slots live : List α) : Prop where
  live_nodup : live.Nodup
  subperm : slots.Subperm live

theorem Tracks.nil : Tracks ([] : List α) [] := ⟨.nil, .refl []⟩

theorem Tracks.nodup (h : Tracks slots live) : slots.Nodup := by
  obtain ⟨l, hperm, hsub⟩ := h.subperm
  exact hperm.nodup_iff.mp (h.live_nodup.sublist hsub)

theorem Tracks.not_mem (h : Tracks slots live) (hc : c ∉ live) : c ∉ slots :=
  fun hmem => hc (h.subperm.subset hmem)

theorem Tracks.perm (h : Tracks slots live) (hp : slots.Perm slots') : Tracks slots' live :=
  ⟨h.live_nodup, hp.symm.subperm.trans h.subperm⟩

theorem Tracks.add (h : Tracks slots live) (hc : c ∉ live) : Tracks (c :: slots) (c :: live) :=
  ⟨h.live_nodup.cons hc, (List.subperm_cons c).mpr h.subperm⟩

theorem Tracks.miss (h : Tracks slots live) (hc : c ∉ live) : Tracks slots (c :: live) :=
  ⟨h.live_nodup.cons hc, h.subperm.cons_right c⟩

/-- Live, and in no slot. -/
def Stray (slots live : List α) (c : α) : Prop := c ∈ live ∧ c ∉ slots

variable {d : α}

theorem Tracks.stray (h : Tracks slots live) (hc : c ∉ live) : Stray slots (c :: live) c :=
  ⟨List.mem_cons_self, h.not_mem hc⟩

theorem Stray.perm (h : Stray slots live c) (hp : slots.Perm slots') : Stray slots' live c :=
  ⟨h.1, fun hmem => h.2 (hp.mem_iff.mpr hmem)⟩

theorem Stray.miss (h : Stray slots live c) (d : α) : Stray slots (d :: live) c :=
  ⟨List.mem_cons_of_mem d h.1, h.2⟩

theorem Stray.add (h : Stray slots live c) (hd : d ∉ live) : Stray (d :: slots) (d :: live) c := by
  have hne : c ≠ d := fun heq => hd (heq ▸ h.1)
  exact ⟨List.mem_cons_of_mem d h.1, List.not_mem_cons_of_ne_of_not_mem hne h.2⟩

variable [DecidableEq α]

theorem Stray.remove (h : Stray (d :: slots) live c) : Stray slots (live.erase d) c := by
  obtain ⟨hne, hnot⟩ := not_or.mp (List.mem_cons.not.mp h.2)
  exact ⟨(List.mem_erase_of_ne hne).mpr h.1, hnot⟩

theorem Tracks.remove (h : Tracks (c :: slots) live) : Tracks slots (live.erase c) := by
  refine ⟨h.live_nodup.erase c, ?_⟩
  have he := h.subperm.erase c
  rwa [List.erase_cons_head] at he

theorem Tracks.length_erase (h : Tracks slots live) (hc : c ∈ slots) :
    (live.erase c).length + 1 = live.length := by
  have hmem := h.subperm.subset hc
  have hpos := List.length_pos_of_mem hmem
  rw [List.length_erase_of_mem hmem]
  omega

/-- With as many slots as there are live things, each of them has exactly one. -/
theorem Tracks.count_eq (h : Tracks slots live) (hlen : live.length ≤ slots.length) (c : α) :
    slots.count c = if c ∈ live then 1 else 0 := by
  have hperm := h.subperm.perm_of_length_le hlen
  rw [hperm.count_eq]
  split
  · rename_i hc
    exact List.count_eq_one_of_mem h.live_nodup hc
  · rename_i hc
    exact List.count_eq_zero_of_not_mem hc

end Tracks

section Slots

variable {α : Type*} {slots : List (Option α)} {c : α} {i : Nat}

/-- The first free slot takes `c`, if there is one. -/
def place (c : α) : List (Option α) → List (Option α)
  | [] => []
  | none :: slots => some c :: slots
  | some d :: slots => some d :: place c slots

theorem place_full (h : none ∉ slots) : place c slots = slots := by
  induction slots with
  | nil => rfl
  | cons x slots ih =>
    rw [List.mem_cons, not_or] at h
    cases x with
    | none => exact absurd rfl h.1
    | some d => rw [place, ih h.2]

theorem place_perm (h : none ∈ slots) :
    (place c slots).reduceOption.Perm (c :: slots.reduceOption) := by
  induction slots with
  | nil => cases h
  | cons x slots ih =>
    cases x with
    | none => rw [place, List.reduceOption_cons_of_some, List.reduceOption_cons_of_none]
    | some d =>
      have hmem : none ∈ slots := by simpa using h
      rw [place, List.reduceOption_cons_of_some, List.reduceOption_cons_of_some]
      exact ((ih hmem).cons d).trans (.swap ..)

/-- A search of the table that does not ask for `c` sees no difference. -/
theorem place_filter {p : α → Bool} (hc : p c = false) (slots : List (Option α)) :
    (place c slots).reduceOption.filter p = slots.reduceOption.filter p := by
  induction slots with
  | nil => rfl
  | cons x slots ih =>
    cases x with
    | none => simp [place, List.reduceOption_cons_of_some, List.reduceOption_cons_of_none, hc]
    | some d =>
      rw [place, List.reduceOption_cons_of_some, List.reduceOption_cons_of_some,
        List.filter_cons, List.filter_cons, ih]

theorem length_place (c : α) (slots : List (Option α)) : (place c slots).length = slots.length := by
  induction slots with
  | nil => rfl
  | cons x slots ih =>
    cases x with
    | none => rfl
    | some d => rw [place, List.length_cons, List.length_cons, ih]

theorem clear_perm (h : slots[i]? = some (some c)) :
    slots.reduceOption.Perm (c :: (slots.set i none).reduceOption) := by
  induction slots generalizing i with
  | nil => simp at h
  | cons x slots ih =>
    cases i with
    | zero =>
      obtain rfl : x = some c := by simpa using h
      rw [List.set_cons_zero, List.reduceOption_cons_of_some, List.reduceOption_cons_of_none]
    | succ i =>
      have hp := ih (i := i) (by simpa using h)
      rw [List.set_cons_succ]
      cases x with
      | none =>
        rw [List.reduceOption_cons_of_none, List.reduceOption_cons_of_none]
        exact hp
      | some d =>
        rw [List.reduceOption_cons_of_some, List.reduceOption_cons_of_some]
        exact (hp.cons d).trans (.swap ..)

theorem count_some [DecidableEq α] (slots : List (Option α)) (c : α) :
    slots.count (some c) = slots.reduceOption.count c := by
  induction slots with
  | nil => rfl
  | cons x slots ih =>
    cases x with
    | none => rw [List.reduceOption_cons_of_none, ← ih, List.count_cons]; rfl
    | some d =>
      rw [List.reduceOption_cons_of_some, List.count_cons, List.count_cons, ih]
      simp

end Slots

section Scan

variable {σ α : Type*} {turn : σ → σ → Prop} {serves : σ → List α} {s t : σ} {n : Nat}
  {done : List α}

inductive Scan (turn : σ → σ → Prop) (serves : σ → List α) (s : σ) : Nat → List α → σ → Prop
  | start : Scan turn serves s 0 [] s
  | turn {n : Nat} {done : List α} {t u : σ} (h : Scan turn serves s n done t) (hu : turn t u) :
      Scan turn serves s (n + 1) (done ++ serves t) u

theorem Scan.perm (h : Scan turn serves s n done t) (inv : σ → Prop) (left : σ → List α)
    (hs : inv s) (hstep : ∀ a b, inv a → turn a b → inv b ∧ (serves a ++ left b).Perm (left a)) :
    inv t ∧ (done ++ left t).Perm (left s) := by
  induction h with
  | start => exact ⟨hs, .refl _⟩
  | @turn n done t u _ hu ih =>
    obtain ⟨hu', hp⟩ := hstep t u ih.1 hu
    refine ⟨hu', ?_⟩
    calc (done ++ serves t ++ left u).Perm (done ++ (serves t ++ left u)) := by
          rw [List.append_assoc]
      List.Perm _ (done ++ left t) := hp.append_left done
      List.Perm _ (left s) := ih.2

theorem Scan.subperm (h : Scan turn serves s n done t) (inv : σ → Prop) (left : σ → List α)
    (hs : inv s)
    (hstep : ∀ a b, inv a → turn a b → inv b ∧ (serves a ++ left b).Subperm (left a)) :
    inv t ∧ (done ++ left t).Subperm (left s) := by
  induction h with
  | start => exact ⟨hs, .refl _⟩
  | @turn n done t u _ hu ih =>
    obtain ⟨hu', hp⟩ := hstep t u ih.1 hu
    refine ⟨hu', ?_⟩
    rw [List.append_assoc]
    exact ((List.subperm_append_left done).mpr hp).trans ih.2

theorem Scan.mono {turn' : σ → σ → Prop} (h : Scan turn serves s n done t)
    (hstep : ∀ a b, turn a b → turn' a b) : Scan turn' serves s n done t := by
  induction h with
  | start => exact .start
  | turn _ hu ih => exact ih.turn (hstep _ _ hu)

theorem Scan.bound (h : Scan turn serves s n done t) (inv : σ → Prop) (rest : σ → Nat) (hs : inv s)
    (hstep : ∀ a b, inv a → turn a b → inv b ∧ rest b < rest a) : inv t ∧ n + rest t ≤ rest s := by
  induction h with
  | start => exact ⟨hs, Nat.le_of_eq (Nat.zero_add _)⟩
  | turn _ hu ih =>
    obtain ⟨hu', hlt⟩ := hstep _ _ ih.1 hu
    exact ⟨hu', by omega⟩

end Scan

end LinuxStudy

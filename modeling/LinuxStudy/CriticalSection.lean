import LinuxStudy.AccessRefinement

/-! A critical section of the producers and the consumers ends: whoever holds
the mutex can always go on, and gives it up after eight steps of its own, with
any steps of the others between them. -/

namespace LinuxStudy

namespace ListThread

/-- The steps that a thread inside makes at most before it is outside. -/
def left : ListThread → Nat
  | test => 8
  | malloc _ | popTest => 7
  | setData _ _ | loadDel => 6
  | setNext _ _ | loadNext _ => 5
  | loadHead _ _ | unlink _ _ => 4
  | link _ _ _ | loadData _ => 3
  | hang _ _ | free _ _ => 2
  | unlock _ | wait | leave _ => 1
  | rand | lock _ | sell _ | signal | fetch | asleep | relock | get _ => 0

variable {head : Addr} {m m' : Heap} {x x' : ListThread}

theorem left_le (x : ListThread) : x.left ≤ 8 := by
  cases x <;> simp [left]

theorem left_pos (h : x.holds = true) : 0 < x.left := by
  cases x with
  | rand | lock | sell | signal | fetch | asleep | relock | get => cases h
  | _ => exact Nat.succ_pos _

theorem eq_of_bind {ε α β : Type} {e : Except ε α} {f : α → Except ε β} {b : β}
    (h : (e >>= f) = .ok b) : ∃ a, f a = .ok b := by
  cases e with
  | error => cases h
  | ok a => exact ⟨a, h⟩

theorem access_left (h : x.access head m = some (.ok (x', m'))) :
    x'.holds = true ∧ x'.left < x.left := by
  cases x with
  | rand | lock | malloc | unlock | sell | signal | fetch | wait | asleep | relock | leave
  | get => cases h
  | test | popTest =>
    obtain ⟨e, he⟩ := eq_of_bind (Option.some.inj h)
    obtain ⟨rfl, -⟩ := Prod.mk.inj (Except.ok.inj he)
    split <;> simp [left, holds]
  | _ =>
    obtain ⟨e, he⟩ := eq_of_bind (Option.some.inj h)
    obtain ⟨rfl, -⟩ := Prod.mk.inj (Except.ok.inj he)
    simp [left, holds]

end ListThread

namespace ListSystem

variable {ι : Type*} [DecidableEq ι]

/-- Steps of the threads that are named, in this order. -/
inductive Run : List ι → ListSystem ι → ListSystem ι → Prop
  | nil (s : ListSystem ι) : Run [] s s
  | snoc {is : List ι} {s t u : ListSystem ι} (h : Run is s t) (hf : t.fault = none) (i : ι)
      (hst : Step i t u) : Run (is ++ [i]) s u

variable {s t u : ListSystem ι} {i j : ι} {is : List ι} {producer : ι → Bool} {head : Addr}

theorem Run.drop_all (s : ListSystem ι) : Run (is.drop is.length) s s := by
  rw [List.drop_length]
  exact .nil s

theorem Run.reachable (h : Run is s t) : Reachable Moves s t := by
  induction h with
  | nil => exact .refl
  | snoc _ hf i hst ih => exact ih.tail ⟨hf, i, hst⟩

theorem Step.other (hst : Step j s t) (hj : j ≠ i) (hi : (s.thread i).holds = true)
    (hm : s.mutex = some i) (hother : (s.thread j).holds = false) :
    t.mutex = some i ∧ t.thread i = s.thread i := by
  have hkeep (x : ListThread) : Function.update s.thread j x i = s.thread i :=
    Function.update_of_ne hj.symm ..
  cases hst with
  | rand | sell | signalNone | spurious | get => exact ⟨hm, hkeep _⟩
  | lock _ _ hfree | fetch _ hfree | relock _ hfree =>
    rw [hm] at hfree
    cases hfree
  | signal k _ hk =>
    refine ⟨hm, ?_⟩
    have hki : i ≠ k := by
      rintro rfl
      rw [hk] at hi
      cases hi
    simp [move, hj.symm, hki]
  | fault => exact ⟨hm, rfl⟩
  | access x m hx =>
    rw [ListThread.holds_of_access (hx ▸ Option.some_ne_none _)] at hother
    cases hother
  | malloc _ _ _ hx | unlock _ hx | wait hx | leave _ hx =>
    rw [hx] at hother
    cases hother

/-- The holder's own step ends its section or comes nearer to that. -/
theorem Step.own (hst : Step i s t) (hi : (s.thread i).holds = true) (hm : s.mutex = some i) :
    t.fault ≠ none ∨ t.mutex = none ∨
      t.mutex = some i ∧ (t.thread i).left < (s.thread i).left := by
  cases hst with
  | rand _ hx | lock _ hx | sell _ hx | signal _ hx | signalNone hx | fetch hx | spurious hx
  | relock hx | get _ hx =>
    rw [hx] at hi
    cases hi
  | unlock | wait | leave => exact .inr (.inl rfl)
  | fault => exact .inl (Option.some_ne_none _)
  | malloc data junk newNode hx =>
    refine .inr (.inr ⟨hm, ?_⟩)
    change (Function.update s.thread i _ i).left < _
    rw [Function.update_self, hx]
    cases newNode <;> simp [ListThread.created, ListThread.left]
  | access x m hx =>
    refine .inr (.inr ⟨hm, ?_⟩)
    change (Function.update s.thread i x i).left < _
    rw [Function.update_self]
    exact (ListThread.access_left hx).2

theorem Step.enabled (hi : (s.thread i).holds = true) : ∃ t, Step i s t := by
  cases haccess : (s.thread i).access s.head s.heap with
  | some r =>
    cases r with
    | error f => exact ⟨_, .fault f haccess⟩
    | ok r => exact ⟨_, .access r.1 r.2 haccess⟩
  | none =>
    cases hx : s.thread i with
    | rand | lock | sell | signal | fetch | asleep | relock | get =>
      rw [hx] at hi
      cases hi
    | malloc data =>
      exact ⟨_, .malloc data ⟨0, none⟩ none hx fun a ha => absurd ha (Option.not_mem_none a)⟩
    | unlock data => exact ⟨_, .unlock data hx⟩
    | wait => exact ⟨_, .wait hx⟩
    | leave data => exact ⟨_, .leave data hx⟩
    | _ =>
      rw [hx] at haccess
      cases haccess

theorem holds_of_reachable (h : Reachable Moves (init producer head) s) :
    (s.thread i).holds = true ↔ s.mutex = some i := by
  obtain ⟨t, -, ⟨sentinel, cells, hs⟩, -⟩ := shows_of_reachable h
  exact hs.holds_iff

/-- Either the run passes a state in which the holder has left, or each of the
holder's steps in it has brought the holder nearer to that. -/
theorem Run.left_or (h : Reachable Moves (init producer head) s) (hm : s.mutex = some i)
    (hf : s.fault = none) (hrun : Run is s t) :
    (∃ is' u, is' <+: is ∧ Run is' s u ∧ Run (is.drop is'.length) u t ∧
        (u.mutex = none ∨ u.fault ≠ none)) ∨
      t.mutex = some i ∧ (t.thread i).left + is.count i ≤ (s.thread i).left := by
  induction hrun with
  | nil s => exact .inr ⟨hm, Nat.le_refl _⟩
  | @snoc is s t u hrun hft j hst ih =>
    rcases ih h hm hf with ⟨is', v, hprefix, hv, hrest, hleft⟩ | ⟨hmt, hcount⟩
    · refine .inl ⟨is', v, hprefix.trans (List.prefix_append ..), hv, ?_, hleft⟩
      rw [List.drop_append_of_le_length hprefix.length_le]
      exact hrest.snoc hft j hst
    · have hreach := h.trans hrun.reachable
      have hi := (holds_of_reachable hreach).mpr hmt
      by_cases hj : j = i
      · subst j
        rcases hst.own hi hmt with hfault | hfree | ⟨hmu, hless⟩
        · exact .inl ⟨_, u, List.prefix_rfl, hrun.snoc hft i hst, .drop_all u, .inr hfault⟩
        · exact .inl ⟨_, u, List.prefix_rfl, hrun.snoc hft i hst, .drop_all u, .inl hfree⟩
        · refine .inr ⟨hmu, ?_⟩
          rw [List.count_append, List.count_singleton_self]
          omega
      · have hother : (t.thread j).holds = false := by
          rw [Bool.eq_false_iff, Ne, holds_of_reachable hreach, hmt]
          exact fun he => hj (Option.some.inj he).symm
        obtain ⟨hmu, hthread⟩ := hst.other hj hi hmt hother
        refine .inr ⟨hmu, ?_⟩
        rw [hthread, List.count_append, List.count_singleton, beq_false_of_ne hj]
        exact hcount

/-- Whoever holds the mutex can go on, and a run with eight steps of its own
passes a state in which it has given the mutex up, whatever the others do. -/
theorem holder_leaves (h : Reachable Moves (init producer head) s) (hm : s.mutex = some i) :
    (∃ t, Step i s t) ∧ ∀ is t, Run is s t → 8 ≤ is.count i →
      ∃ is' u, is' <+: is ∧ Run is' s u ∧ Run (is.drop is'.length) u t ∧
        (u.mutex = none ∨ u.fault ≠ none) := by
  have hi := (holds_of_reachable h).mpr hm
  refine ⟨Step.enabled hi, fun is t hrun hcount => ?_⟩
  by_cases hf : s.fault = none
  · rcases hrun.left_or h hm hf with hleft | ⟨hmt, hless⟩
    · exact hleft
    · have hpos := ListThread.left_pos ((holds_of_reachable (h.trans hrun.reachable)).mpr hmt)
      have hle := ListThread.left_le (s.thread i)
      omega
  · exact ⟨[], s, List.nil_prefix, .nil s, hrun, .inr hf⟩

theorem holder_leaves_after_hang : ∃ s : ListSystem Bool, s.thread true = .hang (some 2) 7 ∧
    (∃ t, Step true s t) ∧ ∀ is t, Run is s t → 8 ≤ is.count true →
      ∃ is' u, is' <+: is ∧ Run is' s u ∧ Run (is.drop is'.length) u t ∧
        (u.mutex = none ∨ u.fault ≠ none) := by
  obtain ⟨s, h, hm, hthread⟩ := at_hang
  exact ⟨s, hthread, holder_leaves h hm⟩

end ListSystem

end LinuxStudy

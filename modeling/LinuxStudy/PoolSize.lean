import LinuxStudy.PoolProgress

/-! The counter `size` of `data_pool`. Both bodies load and store it, and no
semaphore keeps a producer and a consumer apart. -/

namespace LinuxStudy

namespace BodyPc

/-- What a body that is to change `size` by `change` has made of it. -/
def Counts (change size kept : Int) : BodyPc → Prop
  | loadSize => size = kept
  | storeSize v => size = kept ∧ v = kept
  | loadIndex | cell _ => size = kept + change
  | loadNext | storeNext _ | loadMod | storeMod _ | post => size = kept

end BodyPc

namespace PoolCall

def Counts (size kept : Int) : PoolCall → Prop
  | outside => size = kept
  | getdata _ pc => pc.Counts 1 size kept
  | putdata pc => pc.Counts (-1) size kept

def running : PoolCall → Option PoolCall
  | outside => none
  | c => some c

theorem running_isSome (c : PoolCall) : c.running.isSome = c.inside := by
  cases c <;> rfl

theorem running_eq {c : PoolCall} (h : c.inside = true) : c.running = some c := by
  cases c with
  | outside => cases h
  | getdata | putdata => rfl

end PoolCall

namespace DataPool

theorem getAccess_counts (p : DataPool) (instr : String) {pc : BodyPc} {kept : Int}
    (h : pc.Counts 1 p.size kept) : (p.getAccess instr pc).2.Counts (p.getAccess instr pc).1.size
      (kept + (pc.stored instr).length) := by
  cases pc with
  | storeSize v =>
    change v + 1 = kept + 0 + 1
    rw [h.2, add_zero]
  | loadSize =>
    change p.size = kept + 0 ∧ p.size = kept + 0
    exact ⟨(add_zero kept).symm ▸ h, (add_zero kept).symm ▸ h⟩
  | cell => exact h
  | loadIndex | loadNext | storeNext | loadMod | storeMod | post =>
    exact (add_zero kept).symm ▸ h

theorem putAccess_counts (p : DataPool) {pc : BodyPc} {kept : Int}
    (h : pc.Counts (-1) p.size kept) : (p.putAccess pc).2.Counts (p.putAccess pc).1.size
      (kept - (p.handed pc).length) := by
  cases pc with
  | storeSize v =>
    change v - 1 = kept - 0 + -1
    rw [h.2, sub_zero]
    rfl
  | loadSize =>
    change p.size = kept - 0 ∧ p.size = kept - 0
    exact ⟨(sub_zero kept).symm ▸ h, (sub_zero kept).symm ▸ h⟩
  | cell => exact h
  | loadIndex | loadNext | storeNext | loadMod | storeMod | post =>
    exact (sub_zero kept).symm ▸ h

end DataPool

namespace PoolRun

section Tally

variable {ι : Type*} {s t : PoolRun ι}

/-- How many strings are in the cells. -/
def kept (s : PoolRun ι) : Int := s.given.length - s.taken.length

abbrev Tally (s : PoolRun ι) : Prop :=
  Lone (PoolCall.Counts s.pool.size s.kept) (s.pool.size = s.kept) (PoolCall.running ∘ s.thread)

/-- While no thread is inside, `size` is the number of strings in the cells. -/
def Sized (s : PoolRun ι) : Prop := (∀ i, s.thread i = .outside) → s.pool.size = s.kept

theorem Tally.sized (h : s.Tally) : s.Sized := by
  intro hout
  apply h.rest
  intro i
  change (s.thread i).running = none
  rw [hout i]
  rfl

variable {producer : ι → Bool} {blank data cap : Nat} {thread : ι → PoolCall} {i : ι}

theorem tally_wait [DecidableEq ι] {size kept : Int} {c : PoolCall}
    (h : Lone (PoolCall.Counts size kept) (size = kept) (PoolCall.running ∘ thread))
    (halone : Alone (PoolCall.running ∘ Function.update thread i c))
    (hout : thread i = .outside) (hc : c.running = some c)
    (hcounts : size = kept → c.Counts size kept) :
    Lone (PoolCall.Counts size kept) (size = kept)
      (PoolCall.running ∘ Function.update thread i c) := by
  have hnone : (PoolCall.running ∘ thread) i = none := by
    change (thread i).running = none
    rw [hout]
    rfl
  rw [Function.comp_update, hc] at halone ⊢
  exact h.enter halone hnone hcounts

theorem tally_access [DecidableEq ι] {size kept : Int} {c : PoolCall}
    (halone : Alone (PoolCall.running ∘ thread))
    (hi : (thread i).inside = true) (hcounts : c.Counts size kept) :
    Lone (PoolCall.Counts size kept) (size = kept)
      (PoolCall.running ∘ Function.update thread i c) := by
  have hrun : (PoolCall.running ∘ thread) i = some (thread i) := PoolCall.running_eq hi
  rw [Function.comp_update]
  cases c with
  | outside => exact Lone.leave halone hrun hcounts
  | getdata | putdata => exact Lone.move halone hrun hcounts

variable [Fintype ι]

theorem Units.alone (h : Units blank data cap thread) (hcap : cap = 1 ∨ ∀ i j : ι, i = j) :
    Alone (PoolCall.running ∘ thread) := by
  intro i j hi hj
  change (thread i).running.isSome = true at hi
  change (thread j).running.isSome = true at hj
  rw [PoolCall.running_isSome] at hi hj
  rw [Units] at h
  cases hcap with
  | inl hone => exact eq_of_count_le_one (by omega) hi hj
  | inr hsame => exact hsame i j

variable [DecidableEq ι]

theorem Tally.step (h : s.Tally) (hcap : cap = 1 ∨ ∀ i j : ι, i = j)
    (hs : Units s.pool.blank s.pool.data cap s.thread) (hst : Step producer s t) : t.Tally := by
  have halone := hs.alone hcap
  have halone' := (hs.step hst).alone hcap
  have hinside : ∀ {i c}, s.thread i = c → c.inside = true → c.Counts s.pool.size s.kept := by
    intro i c hi hc
    apply h.inside i
    change (s.thread i).running = some c
    rw [hi]
    exact PoolCall.running_eq hc
  cases hst with
  | waitBlank i instr hi hout hb => exact tally_wait h halone' hout rfl id
  | waitData i hi hout hd => exact tally_wait h halone' hout rfl id
  | @getdata i instr pc hi =>
    have hcounts := s.pool.getAccess_counts instr (hinside hi rfl)
    have hkept : s.kept + (pc.stored instr).length =
        (s.given ++ pc.stored instr).length - s.taken.length := by
      rw [kept, List.length_append]
      omega
    rw [hkept] at hcounts
    exact tally_access halone (by rw [hi]; rfl) hcounts
  | @putdata i pc hi =>
    have hcounts := s.pool.putAccess_counts (hinside hi rfl)
    have hkept : s.kept - (s.pool.handed pc).length =
        s.given.length - (s.taken ++ s.pool.handed pc).length := by
      rw [kept, List.length_append]
      omega
    rw [hkept] at hcounts
    exact tally_access halone (by rw [hi]; rfl) hcounts

theorem tally_of_reachable {cells : List String} (hcap : cap = 1 ∨ ∀ i j : ι, i = j)
    (h : Reachable (Step producer) (start cap 0 cells) s) : s.Tally := by
  have hboth : Units s.pool.blank s.pool.data cap s.thread ∧ s.Tally := by
    apply h.invariant fun s => Units s.pool.blank s.pool.data cap s.thread ∧ s.Tally
    · have hrefl : Reachable (Step producer) (start cap 0 cells) (start cap 0 cells) := .refl
      refine ⟨units_of_reachable hrefl, ?_, fun _ => rfl⟩
      intro i c hc
      cases hc
    · exact fun a b ha hst => ⟨ha.1.step hst, ha.2.step hcap ha.1 hst⟩
  exact hboth.2

end Tally

section Race

variable {ι : Type*} [DecidableEq ι] {producer : ι → Bool} {pool : DataPool}
  {thread : ι → PoolCall} {given taken : List String} {i p q : ι} {cap : Nat} {cells : List String}

/-- A whole call of `putdata` while the others stand still. -/
theorem reach_taken (hi : producer i = false) (hout : thread i = .outside) (hd : 0 < pool.data) :
    Reachable (Step producer) ⟨pool, thread, given, taken⟩
      ⟨{ pool.putdata.1 with data := pool.data - 1, blank := pool.blank + 1 }, thread, given,
        taken ++ [pool.putdata.2]⟩ := by
  have hnil := List.append_nil (taken ++ [pool.putdata.2])
  have h1 : Reachable (Step producer) ⟨pool, thread, given, taken⟩ _ := reach_read hi hout hd
  have h2 := h1.tail (put_access rfl rfl)
  have h3 := h2.tail (put_access rfl hnil)
  have h4 := h3.tail (put_access rfl hnil)
  have h5 := h4.tail (put_access rfl hnil)
  have h6 := h5.tail (put_access rfl hnil)
  have h7 := h6.tail (put_access rfl hnil)
  rw [← hout, Function.update_eq_self] at h7
  exact h7

/-- A producer loads `size` and stands still; when it goes on, what the others
have made of `size` meanwhile is lost. -/
theorem stale_size {pool' : DataPool} {given' taken' : List String} (hp : producer p = true)
    (hout : thread p = .outside) (hb : 0 < pool.blank)
    (hothers : Reachable (Step producer) ⟨{ pool with blank := pool.blank - 1 },
      Function.update thread p (.getdata "" (.storeSize pool.size)), given, taken⟩
      ⟨pool', Function.update thread p (.getdata "" (.storeSize pool.size)), given', taken'⟩) :
    ∃ last, Reachable (Step producer) ⟨pool, thread, given, taken⟩
      ⟨last, thread, given' ++ [""], taken'⟩ ∧ last.size = pool.size + 1 := by
  have hnil := List.append_nil given
  have h1 : Reachable (Step producer) ⟨pool, thread, given, taken⟩ _ :=
    .single (.waitBlank p "" hp hout hb)
  have h2 := (h1.tail (get_access rfl hnil)).trans hothers
  have h3 := h2.tail (get_access rfl (List.append_nil given'))
  have h4 := h3.tail (get_access rfl (List.append_nil given'))
  have h5 := h4.tail (get_access rfl rfl)
  have hnil' := List.append_nil (given' ++ [""])
  have h6 := h5.tail (get_access rfl hnil')
  have h7 := h6.tail (get_access rfl hnil')
  have h8 := h7.tail (get_access rfl hnil')
  have h9 := h8.tail (get_access rfl hnil')
  have h10 := h9.tail (get_access rfl hnil')
  rw [← hout, Function.update_eq_self] at h10
  exact ⟨_, h10, rfl⟩

theorem size_race (hcap : 1 < cap) (hpq : q ≠ p) (hp : producer p = true) :
    ∃ s, Reachable (Step producer) (start cap 0 cells) s ∧ ¬ s.Sized := by
  cases hq : producer q with
  | true =>
    obtain ⟨last, hlast, hsize⟩ : ∃ last, Reachable (Step producer) (start cap 0 cells)
        ⟨last, fun _ => .outside, [""] ++ [""], []⟩ ∧ last.size = 0 + 1 :=
      stale_size hp rfl (Nat.zero_lt_of_lt hcap)
        (reach_given hq (Function.update_of_ne hpq ..) (Nat.sub_pos_of_lt hcap) "")
    refine ⟨_, hlast, fun hsized => ?_⟩
    have hkept : last.size = 2 := hsized fun _ => rfl
    omega
  | false =>
    obtain ⟨pool, hfirst, hblank, hdata, hone⟩ : ∃ pool, Reachable (Step producer)
        (start cap 0 cells) ⟨pool, fun _ => .outside, [""], []⟩ ∧ pool.blank = cap - 1 ∧
        pool.data = 1 ∧ pool.size = 1 :=
      ⟨_, reach_given hp rfl (Nat.zero_lt_of_lt hcap) "", rfl, rfl, rfl⟩
    have hfilled : 0 < pool.data := by omega
    obtain ⟨last, hlast, hsize⟩ : ∃ last, Reachable (Step producer)
        ⟨pool, fun _ => .outside, [""], []⟩
        ⟨last, fun _ => .outside, [""] ++ [""], [pool.putdata.2]⟩ ∧ last.size = pool.size + 1 :=
      stale_size hp rfl (by omega)
        (reach_taken hq (Function.update_of_ne hpq ..) hfilled)
    refine ⟨_, hfirst.trans hlast, fun hsized => ?_⟩
    have hkept : last.size = 1 := hsized fun _ => rfl
    omega

/-- With two cells, one producer and one other thread are enough to get `size`
wrong for good. -/
theorem pool_size_iff [Fintype ι] (producer : ι → Bool) (hcap : 1 ≤ cap) (cells : List String) :
    (∀ s, Reachable (Step producer) (start cap 0 cells) s → s.Sized) ↔
      cap = 1 ∨ (∀ i, producer i = false) ∨ ∀ i j : ι, i = j := by
  constructor
  · intro hall
    by_contra hcond
    simp only [not_or, not_forall, Bool.not_eq_false] at hcond
    obtain ⟨hne, ⟨p, hp⟩, i, j, hij⟩ := hcond
    obtain ⟨q, hpq⟩ : ∃ q, q ≠ p := by
      by_cases hip : i = p
      · exact ⟨j, fun hjp => hij (hip.trans hjp.symm)⟩
      · exact ⟨i, hip⟩
    obtain ⟨s, hs, hnot⟩ : ∃ s, Reachable (Step producer) (start cap 0 cells) s ∧ ¬ s.Sized :=
      size_race (by omega) hpq hp
    exact hnot (hall s hs)
  · rintro (hone | hno | hsame) s hs
    · exact (tally_of_reachable (.inl hone) hs).sized
    · rw [eq_start_of_no_producer hno hs]
      exact fun _ => rfl
    · exact (tally_of_reachable (.inr hsame) hs).sized

theorem pool_size_two_threads :
    (∀ s, Reachable (Step (id : Bool → Bool)) (start 1 0 [""]) s → s.Sized) ∧
    ¬ ∀ s, Reachable (Step (id : Bool → Bool)) (start 2 0 ["", ""]) s → s.Sized := by
  refine ⟨(pool_size_iff id (Nat.le_refl 1) [""]).mpr (.inl rfl), ?_⟩
  intro hall
  rcases (pool_size_iff id (Nat.le_succ 1) ["", ""]).mp hall with h | h | h
  · cases h
  · cases h true
  · cases h true false

end Race

end PoolRun

end LinuxStudy

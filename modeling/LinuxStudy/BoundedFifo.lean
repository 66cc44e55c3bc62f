import LinuxStudy.DataPool

/-! When the pool is a bounded queue. The constructor leaves the vector empty, so
the first string a producer hands over is written outside it. -/

namespace LinuxStudy

namespace PoolSystem

theorem fifo_init {ι : Type*} (cap : Nat) (cells : List String) :
    (init { DataPool.init cap 0 with pool := cells } : PoolSystem ι).Fifo := by
  refine ⟨fun i instr h => ?_, fun i h => ?_, rfl, le_rfl, ?_, ?_, List.nil_prefix, fun k hk => ?_⟩
  · cases h
  · cases h
  · exact Int.natCast_nonneg cap
  · exact (Int.zero_emod _).symm
  · exact absurd hk (Nat.not_lt_zero k)

section Reached

variable {ι : Type*} [DecidableEq ι] {producer : ι → Bool} {cap : Nat} {size : Int}
  {cells : List String} {s : PoolSystem ι}

theorem fill_alone {i : ι} (hi : producer i = true) {k : Nat} (hk : k ≤ cap) :
    ∃ s, Reachable (Step producer) (init { DataPool.init cap size with pool := cells }) s ∧
      s.thread i = .outside ∧ s.pool.blank = cap - k ∧ s.pool.index1 = k % cap ∧
      s.pool.cap = cap ∧ s.pool.pool.length = cells.length := by
  induction k with
  | zero => exact ⟨_, .refl, rfl, rfl, (Nat.zero_mod cap).symm, rfl, rfl⟩
  | succ k ih =>
    obtain ⟨s, hs, hout, hblank, hindex, hcap, hlen⟩ := ih (by omega)
    have h1 := hs.tail (.waitBlank i "" hi hout (by omega))
    have h2 := h1.tail (.getdata i "" (Function.update_self ..))
    have h3 := h2.tail (.postData i (Function.update_self ..))
    refine ⟨_, h3, Function.update_self .., ?_, ?_, hcap, ?_⟩
    · change s.pool.blank - 1 = cap - (k + 1)
      omega
    · change (s.pool.index1 + 1) % s.pool.cap = (k + 1) % cap
      rw [hindex, hcap, Nat.mod_add_mod]
    · change (s.pool.pool.set s.pool.index1 "").length = cells.length
      rw [List.length_set, hlen]

theorem eq_init_of_no_producer (hno : ∀ i, producer i = false)
    (h : Reachable (Step producer) (init { DataPool.init cap size with pool := cells }) s) :
    s = init { DataPool.init cap size with pool := cells } := by
  refine h.invariant (· = init { DataPool.init cap size with pool := cells }) rfl ?_
  rintro a b rfl hst
  cases hst with
  | waitBlank i instr hi h hb => exact absurd hi (by rw [hno i]; exact Bool.false_ne_true)
  | waitData i hi h hd => exact absurd hd (Nat.lt_irrefl 0)
  | getdata i instr h => cases h
  | postData i h => cases h
  | putdata i h => cases h
  | postBlank i h => cases h

theorem fifo_iff [Fintype ι] (producer : ι → Bool) (hcap : 1 ≤ cap) (size : Int)
    (cells : List String) :
    (∀ s, Reachable (Step producer) (init { DataPool.init cap size with pool := cells }) s →
      s.Fifo) ↔ size = 0 ∧ ((∃ i, producer i = true) → cap ≤ cells.length) := by
  constructor
  · refine fun hall => ⟨(hall _ .refl).size_eq, fun ⟨i, hi⟩ => ?_⟩
    by_contra hshort
    obtain ⟨s, hs, hout, hblank, hindex, -, hlen⟩ :=
      fill_alone hi (by omega : cells.length ≤ cap)
    have hwait := hs.tail (.waitBlank i "" hi hout (by omega))
    have hin := (hall _ hwait).write_inside i "" (Function.update_self ..)
    change s.pool.index1 < s.pool.pool.length at hin
    rw [hindex, hlen, Nat.mod_eq_of_lt (by omega)] at hin
    exact Nat.lt_irrefl _ hin
  · rintro ⟨rfl, hroom⟩ s hs
    by_cases hp : ∃ i, producer i = true
    · have hstart : (init { DataPool.init cap 0 with pool := cells } : PoolSystem ι).Queued [] :=
        queued_init hcap rfl rfl rfl rfl rfl (hroom hp)
      obtain ⟨items, hq⟩ := hs.invariant (fun s => ∃ items, s.Queued items) ⟨[], hstart⟩
        fun a b ⟨items, hq⟩ hst => hq.step hst
      exact hq.fifo
    · have hno : ∀ i, producer i = false := fun i => by
        rw [← Bool.not_eq_true]
        exact fun hi => hp ⟨i, hi⟩
      rw [eq_init_of_no_producer hno hs]
      exact fifo_init cap cells

end Reached

/-- As constructed, the pool is a bounded queue only while nothing is put into
it; with a vector of `cap` cells it would be one in every run. -/
theorem bounded_fifo {ι : Type*} [Fintype ι] [DecidableEq ι] (producer : ι → Bool) {cap : Nat}
    (hcap : 1 ≤ cap) (size : Int) :
    ((∀ s, Reachable (Step producer) (init (.init cap size)) s → s.Fifo) ↔
      size = 0 ∧ ∀ i, producer i = false) ∧
    ∀ cells, (∀ s, Reachable (Step producer)
      (init { DataPool.init cap size with pool := cells }) s → s.Fifo) ↔
        size = 0 ∧ ((∃ i, producer i = true) → cap ≤ cells.length) := by
  refine ⟨(fifo_iff producer hcap size []).trans (and_congr_right fun _ => ?_),
    fifo_iff producer hcap size⟩
  constructor
  · refine fun h i => ?_
    rw [← Bool.not_eq_true]
    exact fun hi => absurd (h ⟨i, hi⟩) (Nat.not_le_of_lt hcap)
  · rintro h ⟨i, hi⟩
    exact absurd hi (by rw [h i]; exact Bool.false_ne_true)

theorem bounded_fifo_two_threads :
    ((∀ s, Reachable (Step (id : Bool → Bool)) (init (.init 3 0)) s → s.Fifo) ↔
      (0 : Int) = 0 ∧ ∀ i : Bool, id i = false) ∧
    ∀ cells, (∀ s, Reachable (Step (id : Bool → Bool))
      (init { DataPool.init 3 0 with pool := cells }) s → s.Fifo) ↔
        (0 : Int) = 0 ∧ ((∃ i : Bool, id i = true) → 3 ≤ cells.length) :=
  bounded_fifo id (by decide) 0

theorem first_string_outside : ∃ s : PoolSystem Bool,
    Reachable (Step id) (init (.init 3 0)) s ∧ s.thread true = .getting "hello" ∧
      ¬ s.pool.index1 < s.pool.pool.length ∧ ¬ s.Fifo := by
  have hstep : Step id (init (.init 3 0)) _ := .waitBlank true "hello" rfl rfl (by decide)
  refine ⟨_, .single hstep, rfl, Nat.lt_irrefl 0, fun hf => ?_⟩
  exact Nat.lt_irrefl 0 (hf.write_inside true "hello" rfl)

end PoolSystem

end LinuxStudy

import LinuxStudy.PoolRace

/-! Whether a thread of `data_pool` can wait in vain. The semaphores' units are
neither lost nor made, whatever becomes of the cells. -/

namespace LinuxStudy

namespace BodyPc

def left : BodyPc → Nat
  | loadSize => 9
  | storeSize _ => 8
  | loadIndex => 7
  | cell _ => 6
  | loadNext => 5
  | storeNext _ => 4
  | loadMod => 3
  | storeMod _ => 2
  | post => 1

end BodyPc

namespace DataPool

theorem getAccess_onward (p : DataPool) (instr : String) {pc : BodyPc} (h : pc ≠ .post) :
    ∃ q pc', p.getAccess instr pc = (q, .getdata instr pc') ∧ q.blank = p.blank ∧
      q.data = p.data ∧ pc'.left < pc.left := by
  cases pc with
  | post => exact absurd rfl h
  | loadSize | storeSize | loadIndex | cell | loadNext | storeNext | loadMod | storeMod =>
    exact ⟨_, _, rfl, rfl, rfl, Nat.lt_succ_self _⟩

theorem putAccess_onward (p : DataPool) {pc : BodyPc} (h : pc ≠ .post) :
    ∃ q pc', p.putAccess pc = (q, .putdata pc') ∧ q.blank = p.blank ∧ q.data = p.data ∧
      pc'.left < pc.left := by
  cases pc with
  | post => exact absurd rfl h
  | loadSize | storeSize | loadIndex | cell | loadNext | storeNext | loadMod | storeMod =>
    exact ⟨_, _, rfl, rfl, rfl, Nat.lt_succ_self _⟩

end DataPool

namespace PoolRun

variable {ι : Type*} [DecidableEq ι] (producer : ι → Bool) (thread : ι → PoolCall) (i : ι)

theorem get_leaves (instr : String) (taken : List String) (pc : BodyPc) (pool : DataPool)
    (given : List String) : ∃ pool' given',
      Reachable (Step producer) ⟨pool, Function.update thread i (.getdata instr pc), given, taken⟩
        ⟨pool', Function.update thread i .outside, given', taken⟩ ∧
      pool'.blank = pool.blank ∧ pool'.data = pool.data + 1 := by
  induction hn : pc.left using Nat.strong_induction_on generalizing pc pool given with
  | h n ih =>
    by_cases hpost : pc = .post
    · subst pc
      exact ⟨_, _, .single (get_access rfl rfl), rfl, rfl⟩
    · obtain ⟨q, pc', hq, hblank, hdata, hlt⟩ := pool.getAccess_onward instr hpost
      obtain ⟨pool', given', hreach, hb, hd⟩ :=
        ih _ (hn ▸ hlt) pc' q (given ++ pc.stored instr) rfl
      exact ⟨pool', given', .head (get_access hq rfl) hreach, hb.trans hblank, hdata ▸ hd⟩

theorem put_leaves (given : List String) (pc : BodyPc) (pool : DataPool) (taken : List String) :
    ∃ pool' taken',
      Reachable (Step producer) ⟨pool, Function.update thread i (.putdata pc), given, taken⟩
        ⟨pool', Function.update thread i .outside, given, taken'⟩ ∧
      pool'.blank = pool.blank + 1 ∧ pool'.data = pool.data := by
  induction hn : pc.left using Nat.strong_induction_on generalizing pc pool taken with
  | h n ih =>
    by_cases hpost : pc = .post
    · subst pc
      exact ⟨_, _, .single (put_access rfl rfl), rfl, rfl⟩
    · obtain ⟨q, pc', hq, hblank, hdata, hlt⟩ := pool.putAccess_onward hpost
      obtain ⟨pool', taken', hreach, hb, hd⟩ :=
        ih _ (hn ▸ hlt) pc' q (taken ++ pool.handed pc) rfl
      exact ⟨pool', taken', .head (put_access hq rfl) hreach, hblank ▸ hb, hd.trans hdata⟩

/-- A thread inside a call comes out of it by itself. -/
theorem leaves (s : PoolRun ι) : ∃ t, Reachable (Step producer) s t ∧
    t.thread = Function.update s.thread i .outside := by
  have hself : s = ⟨s.pool, Function.update s.thread i (s.thread i), s.given, s.taken⟩ := by
    rw [Function.update_eq_self]
  cases hi : s.thread i with
  | outside =>
    refine ⟨s, .refl, ?_⟩
    rw [← hi, Function.update_eq_self]
  | getdata instr pc =>
    obtain ⟨pool', given', hreach, -, -⟩ :=
      get_leaves producer s.thread i instr s.taken pc s.pool s.given
    rw [← hi, ← hself] at hreach
    exact ⟨_, hreach, rfl⟩
  | putdata pc =>
    obtain ⟨pool', taken', hreach, -, -⟩ :=
      put_leaves producer s.thread i s.given pc s.pool s.taken
    rw [← hi, ← hself] at hreach
    exact ⟨_, hreach, rfl⟩

section Units

variable {producer thread i} [Fintype ι] {blank data cap : Nat} {size : Int} {cells : List String}
  {s t : PoolRun ι}

/-- Every unit is in a semaphore or with a thread inside. -/
def Units (blank data cap : Nat) (thread : ι → PoolCall) : Prop :=
  blank + data + count PoolCall.inside thread = cap

theorem Units.move (h : Units blank data cap thread) (blank' data' : Nat) (x : PoolCall)
    (hunits : blank' + data' + x.inside.toNat = blank + data + (thread i).inside.toNat) :
    Units blank' data' cap (Function.update thread i x) := by
  have hcount := count_update PoolCall.inside thread i x
  rw [Units] at h ⊢
  omega

theorem Units.step (h : Units s.pool.blank s.pool.data cap s.thread) (hst : Step producer s t) :
    Units t.pool.blank t.pool.data cap t.thread := by
  cases hst with
  | waitBlank i instr hi hout hb =>
    apply h.move
    rw [hout]
    change s.pool.blank - 1 + s.pool.data + 1 = s.pool.blank + s.pool.data + 0
    omega
  | waitData i hi hout hd =>
    apply h.move
    rw [hout]
    change s.pool.blank + (s.pool.data - 1) + 1 = s.pool.blank + s.pool.data + 0
    omega
  | @getdata i instr pc hi =>
    apply h.move
    rw [hi]
    by_cases hpost : pc = .post
    · subst pc
      rfl
    · obtain ⟨q, pc', hq, hblank, hdata, -⟩ := s.pool.getAccess_onward instr hpost
      rw [hq, hblank, hdata]
      rfl
  | @putdata i pc hi =>
    apply h.move
    rw [hi]
    by_cases hpost : pc = .post
    · subst pc
      change s.pool.blank + 1 + s.pool.data + 0 = s.pool.blank + s.pool.data + 1
      omega
    · obtain ⟨q, pc', hq, hblank, hdata, -⟩ := s.pool.putAccess_onward hpost
      rw [hq, hblank, hdata]
      rfl

theorem units_of_reachable (h : Reachable (Step producer) (start cap size cells) s) :
    Units s.pool.blank s.pool.data cap s.thread := by
  apply h.invariant fun s => Units s.pool.blank s.pool.data cap s.thread
  · change cap + 0 + count PoolCall.inside (fun _ : ι => .outside) = cap
    have hnone : count PoolCall.inside (fun _ : ι => .outside) = 0 :=
      count_outside rfl fun _ => rfl
    rw [hnone]
    rfl
  · exact fun a b ha hst => ha.step hst

/-- From every state all threads can come out. -/
theorem all_leave (producer : ι → Bool) (s : PoolRun ι) :
    ∃ t, Reachable (Step producer) s t ∧ ∀ i, t.thread i = .outside := by
  induction hn : count PoolCall.inside s.thread using Nat.strong_induction_on generalizing s with
  | h n ih =>
    by_cases hout : ∀ i, s.thread i = .outside
    · exact ⟨s, .refl, hout⟩
    · obtain ⟨i, hi⟩ := not_forall.mp hout
      obtain ⟨t, hreach, hthread⟩ := leaves producer i s
      have hcount := count_update PoolCall.inside s.thread i .outside
      have hinside : (s.thread i).inside = true := by
        cases hc : s.thread i with
        | outside => exact absurd hc hi
        | getdata => rfl
        | putdata => rfl
      rw [hinside] at hcount
      change count _ _ + 1 = count _ _ + 0 at hcount
      rw [← hthread] at hcount
      obtain ⟨u, hu, hall⟩ := ih _ (by omega) t rfl
      exact ⟨u, hreach.trans hu, hall⟩

/-- With a thread of the other kind to make room, or to fill a cell, a thread gets in. -/
theorem gets_in (hcap : 1 ≤ cap) (h : Units s.pool.blank s.pool.data cap s.thread)
    (hout : ∀ i, s.thread i = .outside) {j : ι} (hj : producer j ≠ producer i) :
    ∃ t, Reachable (Step producer) s t ∧ t.thread i ≠ .outside := by
  have hnone : count PoolCall.inside s.thread = 0 := count_outside rfl hout
  rw [Units, hnone] at h
  have hself : ∀ j, Function.update s.thread j .outside = s.thread := by
    intro j
    rw [← hout j, Function.update_eq_self]
  cases hi : producer i with
  | true =>
    by_cases hb : 0 < s.pool.blank
    · refine ⟨_, .single (.waitBlank i "" hi (hout i) hb), ?_⟩
      simp
    · have hj' : producer j = false := by simpa [hi] using hj
      have hwait : Step producer s _ := .waitData j hj' (hout j) (by omega)
      obtain ⟨pool, taken, hreach, hblank, -⟩ := put_leaves producer s.thread j s.given .loadSize
        { s.pool with data := s.pool.data - 1 } s.taken
      rw [hself] at hreach
      have hfree : 0 < pool.blank := hblank ▸ Nat.zero_lt_succ s.pool.blank
      refine ⟨_, (Relation.ReflTransGen.head hwait hreach).tail
        (.waitBlank i "" hi (hout i) hfree), ?_⟩
      simp
  | false =>
    by_cases hd : 0 < s.pool.data
    · refine ⟨_, .single (.waitData i hi (hout i) hd), ?_⟩
      simp
    · have hj' : producer j = true := by simpa [hi] using hj
      have hwait : Step producer s _ := .waitBlank j "" hj' (hout j) (by omega)
      obtain ⟨pool, given, hreach, -, hdata⟩ := get_leaves producer s.thread j "" s.taken .loadSize
        { s.pool with blank := s.pool.blank - 1 } s.given
      rw [hself] at hreach
      have hfilled : 0 < pool.data := hdata ▸ Nat.zero_lt_succ s.pool.data
      refine ⟨_, (Relation.ReflTransGen.head hwait hreach).tail
        (.waitData i hi (hout i) hfilled), ?_⟩
      simp

end Units

section Stuck

variable {producer i} {cap : Nat} {size : Int} {cells : List String} {s t : PoolRun ι}

theorem reach_full (hi : producer i = true) {k : Nat} (hk : k ≤ cap) :
    ∃ pool given, Reachable (Step producer) (start cap size cells)
      ⟨pool, fun _ => .outside, given, []⟩ ∧ pool.blank = cap - k := by
  induction k with
  | zero => exact ⟨_, _, .refl, rfl⟩
  | succ k ih =>
    obtain ⟨pool, given, hreach, hblank⟩ := ih (by omega)
    have hmore := hreach.trans (reach_given hi rfl (by omega) "")
    refine ⟨_, _, hmore, ?_⟩
    change pool.blank - 1 = cap - (k + 1)
    omega

theorem eq_of_stuck (hout : ∀ i, s.thread i = .outside)
    (hblank : ∀ i, producer i = true → s.pool.blank = 0)
    (hdata : ∀ i, producer i = false → s.pool.data = 0) (h : Reachable (Step producer) s t) :
    t = s := by
  apply h.invariant (· = s) rfl
  rintro a b rfl hst
  cases hst with
  | waitBlank i instr hi _ hb => exact absurd (hblank i hi) (Nat.ne_of_gt hb)
  | waitData i hi _ hd => exact absurd (hdata i hi) (Nat.ne_of_gt hd)
  | getdata i hi => exact absurd (hout i) (by simp [hi])
  | putdata i hi => exact absurd (hout i) (by simp [hi])

/-- No thread waits in vain in any state exactly when each has one of the other
kind to wait for. -/
theorem pool_progress_iff [Fintype ι] (producer : ι → Bool) (hcap : 1 ≤ cap) (size : Int)
    (cells : List String) :
    (∀ s, Reachable (Step producer) (start cap size cells) s → ∀ i,
      ∃ t, Reachable (Step producer) s t ∧ t.thread i ≠ .outside) ↔
        ∀ i, ∃ j, producer j ≠ producer i := by
  constructor
  · intro hall i
    by_contra hsame
    simp only [ne_eq, not_exists, not_not] at hsame
    obtain ⟨s, hs, hout, hblank, hdata⟩ : ∃ s, Reachable (Step producer) (start cap size cells) s ∧
        (∀ i, s.thread i = .outside) ∧ (∀ i, producer i = true → s.pool.blank = 0) ∧
        ∀ i, producer i = false → s.pool.data = 0 := by
      cases hi : producer i with
      | true =>
        obtain ⟨pool, given, hreach, hblank⟩ := reach_full hi (Nat.le_refl cap)
        refine ⟨_, hreach, fun _ => rfl, ?_, ?_⟩
        · intro j _
          change pool.blank = 0
          omega
        · intro j hj
          simp [hsame j, hi] at hj
      | false =>
        refine ⟨_, .refl, fun _ => rfl, ?_, fun _ _ => rfl⟩
        intro j hj
        simp [hsame j, hi] at hj
    obtain ⟨t, ht, hin⟩ := hall s hs i
    rw [eq_of_stuck hout hblank hdata ht] at hin
    exact hin (hout i)
  · intro hother s hs i
    obtain ⟨t, ht, hout⟩ := all_leave producer s
    obtain ⟨j, hj⟩ := hother i
    obtain ⟨u, hu, hin⟩ := gets_in hcap (units_of_reachable (hs.trans ht)) hout hj
    exact ⟨u, ht.trans hu, hin⟩

theorem pool_progress_two_threads :
    (∀ s, Reachable (Step (id : Bool → Bool)) (start 2 0 []) s → ∀ i,
      ∃ t, Reachable (Step id) s t ∧ t.thread i ≠ .outside) ∧
    ¬ ∀ s, Reachable (Step fun _ : Bool => true) (start 2 0 []) s → ∀ i,
      ∃ t, Reachable (Step fun _ => true) s t ∧ t.thread i ≠ .outside := by
  have hcap : 1 ≤ 2 := Nat.le_succ 1
  constructor
  · apply (pool_progress_iff id hcap 0 []).mpr
    intro i
    exact ⟨!i, by cases i <;> simp⟩
  · intro hall
    obtain ⟨j, hj⟩ := (pool_progress_iff (fun _ : Bool => true) hcap 0 []).mp hall true
    exact hj rfl

end Stuck

end PoolRun

end LinuxStudy

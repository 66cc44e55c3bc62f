import LinuxStudy.PoolAccess

/-! What keeps `data_pool` intact access by access, and what breaks it: two threads
in one body, which the semaphores let in as soon as there are two cells. -/

namespace LinuxStudy

namespace PoolRun

variable {ι : Type*} [Fintype ι] {producer : ι → Bool} {s : PoolRun ι} {items : List String} {i : ι}
  {instr : String} {pc : BodyPc}

theorem Solid.getter_at (h : Solid producer s items) (hi : s.thread i = .getdata instr pc) :
    pc.At s.pool.cap (s.given.length % s.pool.cap) s.pool.index1 := by
  apply h.tail.inside i
  change (s.thread i).getPc = some pc
  rw [hi]
  rfl

theorem Solid.putter_at (h : Solid producer s items) (hi : s.thread i = .putdata pc) :
    pc.At s.pool.cap (s.taken.length % s.pool.cap) s.pool.index2 := by
  apply h.front.inside i
  change (s.thread i).putPc = some pc
  rw [hi]
  rfl

theorem Solid.tail_slot (h : Solid producer s items) :
    s.given.length % s.pool.cap = (s.taken.length % s.pool.cap + items.length) % s.pool.cap := by
  rw [h.given_eq, List.length_append, Nat.mod_add_mod]

theorem Solid.inside (h : Solid producer s items) (i : ι) (k : Nat)
    (hi : (s.thread i).atCell = some k) : k < s.pool.pool.length := by
  have hlt : ∀ n, n % s.pool.cap < s.pool.pool.length :=
    fun n => Nat.lt_of_lt_of_le (Nat.mod_lt n h.positive) h.room
  rcases PoolCall.atCell_cases hi with ⟨instr, hget⟩ | hput
  · rw [(h.getter_at hget).2]
    exact hlt s.given.length
  · rw [(h.putter_at hput).2]
    exact hlt s.taken.length

theorem Solid.cells_ne (h : Solid producer s items) {j : ι} {k l : Nat}
    (hget : s.thread i = .getdata instr (.cell k)) (hput : s.thread j = .putdata (.cell l)) :
    k ≠ l := by
  have hlt : items.length < s.pool.cap := h.permits.stored_lt (i := i) (by rw [hget]; rfl)
  have hpos : 0 < items.length := h.permits.stored_pos (i := j) (by rw [hput]; rfl)
  have hne := ring_slot_ne (s.taken.length % s.pool.cap) hpos hlt
  rw [(h.getter_at hget).2, (h.putter_at hput).2, h.tail_slot]
  rw [Nat.add_zero, Nat.mod_mod] at hne
  exact hne.symm

theorem Solid.apart (h : Solid producer s items) (hsolo : Solo producer s.pool.cap) :
    s.Apart := by
  intro i j k hi hj
  rcases PoolCall.atCell_cases hi with ⟨instr, hget⟩ | hput
  · rcases PoolCall.atCell_cases hj with ⟨instr', hget'⟩ | hput'
    · apply h.permits.getter_alone hsolo
      · simp [hget, PoolCall.getPc]
      · simp [hget', PoolCall.getPc]
    · exact absurd rfl (h.cells_ne hget hput')
  · rcases PoolCall.atCell_cases hj with ⟨instr', hget'⟩ | hput'
    · exact absurd rfl (h.cells_ne hget' hput)
    · apply h.permits.putter_alone hsolo
      · simp [hput, PoolCall.putPc]
      · simp [hput', PoolCall.putPc]

theorem Solid.intact (h : Solid producer s items) : s.Intact := by
  have hlen : s.given.length - s.taken.length = items.length := by
    rw [h.given_eq, List.length_append]
    omega
  constructor
  · exact h.inside
  · exact ⟨items, h.given_eq.symm⟩
  · intro k hk
    rw [hlen] at hk
    have hheld := h.holds k hk
    rw [Nat.mod_add_mod] at hheld
    rw [hheld, h.given_eq, List.getElem?_append_right (Nat.le_add_right _ k),
      Nat.add_sub_cancel_left]

theorem Solid.keep (h : Solid producer s items) {blank data index1 index2 : Nat} {size : Int}
    {thread : ι → PoolCall} (hpermits : Permits producer blank data s.pool.cap items.length thread)
    (htail : Cursor s.pool.cap (s.given.length % s.pool.cap) index1 (PoolCall.getPc ∘ thread))
    (hfront : Cursor s.pool.cap (s.taken.length % s.pool.cap) index2 (PoolCall.putPc ∘ thread)) :
    Solid producer { s with
      pool := ⟨blank, data, s.pool.cap, size, index1, index2, s.pool.pool⟩
      thread := thread } items :=
  ⟨h.given_eq, h.positive, h.room, h.holds, hpermits, htail, hfront⟩

variable [DecidableEq ι]

theorem Solid.wait_blank (h : Solid producer s items) (hsolo : Solo producer s.pool.cap)
    (instr : String) (hi : producer i = true) (hout : s.thread i = .outside)
    (hb : 0 < s.pool.blank) :
    Solid producer { s with
      pool := { s.pool with blank := s.pool.blank - 1 }
      thread := Function.update s.thread i (.getdata instr .loadSize) } items := by
  have hpermits : Permits producer (s.pool.blank - 1) s.pool.data s.pool.cap items.length
      (Function.update s.thread i (.getdata instr .loadSize)) := by
    apply h.permits.move
    · rw [hout]
      change s.pool.blank - 1 + 1 + items.length + 0 = s.pool.blank + 0 + items.length + 0
      omega
    · rw [hout]
      rfl
    · exact fun _ => hi
    · intro hsome
      cases hsome
  have halone := hpermits.getter_alone hsolo
  have htail := h.tail
  apply h.keep hpermits
  · rw [Function.comp_update] at halone ⊢
    have hnone : (PoolCall.getPc ∘ s.thread) i = none := by
      change (s.thread i).getPc = none
      rw [hout]
      rfl
    exact htail.enter halone hnone id
  · rw [comp_update_same (by rw [hout]; rfl)]
    exact h.front

theorem Solid.wait_data (h : Solid producer s items) (hsolo : Solo producer s.pool.cap)
    (hi : producer i = false) (hout : s.thread i = .outside) (hd : 0 < s.pool.data) :
    Solid producer { s with
      pool := { s.pool with data := s.pool.data - 1 }
      thread := Function.update s.thread i (.putdata .loadSize) } items := by
  have hpermits : Permits producer s.pool.blank (s.pool.data - 1) s.pool.cap items.length
      (Function.update s.thread i (.putdata .loadSize)) := by
    apply h.permits.move
    · rw [hout]
      rfl
    · rw [hout]
      change items.length + s.pool.data + 0 + 0 = items.length + (s.pool.data - 1) + 0 + 1
      omega
    · intro hsome
      cases hsome
    · exact fun _ => hi
  have halone := hpermits.putter_alone hsolo
  have hfront := h.front
  apply h.keep hpermits
  · rw [comp_update_same (by rw [hout]; rfl)]
    exact h.tail
  · rw [Function.comp_update] at halone ⊢
    have hnone : (PoolCall.putPc ∘ s.thread) i = none := by
      change (s.thread i).putPc = none
      rw [hout]
      rfl
    exact hfront.enter halone hnone id

/-- The string goes to the cell behind the stored ones. -/
theorem Solid.write_cell (h : Solid producer s items) (hsolo : Solo producer s.pool.cap) {k : Nat}
    (hi : s.thread i = .getdata instr (.cell k)) :
    Solid producer { s with
      pool := { s.pool with pool := s.pool.pool.set k instr }
      thread := Function.update s.thread i (.getdata instr .loadNext)
      given := s.given ++ [instr] } (items ++ [instr]) := by
  have hat := h.getter_at hi
  have hstored : items.length < s.pool.cap := h.permits.stored_lt (i := i) (by rw [hi]; rfl)
  have hslot : k < s.pool.pool.length := h.inside i k (by rw [hi]; rfl)
  have hgetter := h.permits.getters i (by rw [hi]; rfl)
  have halone := h.permits.getter_alone hsolo
  constructor
  · change s.given ++ [instr] = s.taken ++ (items ++ [instr])
    rw [h.given_eq, List.append_assoc]
  · exact h.positive
  · change s.pool.cap ≤ (s.pool.pool.set k instr).length
    rw [List.length_set]
    exact h.room
  · change RingHolds s.pool.cap (s.taken.length % s.pool.cap) (s.pool.pool.set k instr)
      (items ++ [instr])
    rw [hat.2, h.tail_slot] at hslot ⊢
    exact h.holds.push hstored hslot instr
  · change Permits producer s.pool.blank s.pool.data s.pool.cap (items ++ [instr]).length _
    rw [List.length_append]
    apply h.permits.move s.pool.blank s.pool.data
    · rw [hi]
      change s.pool.blank + 0 + (items.length + 1) + 0 = s.pool.blank + 1 + items.length + 0
      omega
    · rw [hi]
      change items.length + 1 + s.pool.data + 0 + 0 = items.length + s.pool.data + 1 + 0
      omega
    · exact fun _ => hgetter
    · intro hsome
      cases hsome
  · change Cursor s.pool.cap ((s.given ++ [instr]).length % s.pool.cap) s.pool.index1
      (PoolCall.getPc ∘ Function.update s.thread i _)
    have hnext : BodyPc.loadNext.At s.pool.cap ((s.given ++ [instr]).length % s.pool.cap)
        s.pool.index1 := by
      change (s.pool.index1 + 1) % s.pool.cap = _
      rw [hat.1, Nat.mod_add_mod, List.length_append]
      rfl
    have hpc : (PoolCall.getPc ∘ s.thread) i = some (.cell k) := by
      change (s.thread i).getPc = _
      rw [hi]
      rfl
    rw [Function.comp_update]
    exact Lone.move halone hpc hnext
  · change Cursor _ _ _ (PoolCall.putPc ∘ Function.update s.thread i _)
    rw [comp_update_same (by rw [hi]; rfl)]
    exact h.front

/-- What is handed out is the first of the stored strings. -/
theorem Solid.read_cell (h : Solid producer s items) (hsolo : Solo producer s.pool.cap) {k : Nat}
    (hi : s.thread i = .putdata (.cell k)) :
    ∃ rest, Solid producer { s with
      thread := Function.update s.thread i (.putdata .loadNext)
      taken := s.taken ++ [s.pool.pool.getD k ""] } rest := by
  have hat := h.putter_at hi
  have hputter := h.permits.putters i (by rw [hi]; rfl)
  have halone := h.permits.putter_alone hsolo
  have hstored : 0 < items.length := h.permits.stored_pos (i := i) (by rw [hi]; rfl)
  obtain ⟨x, rest, rfl⟩ := List.exists_cons_of_length_pos hstored
  have hx : s.pool.pool.getD k "" = x := by
    have hhead := h.holds.head_eq
    rw [Nat.mod_mod, ← hat.2] at hhead
    rw [List.getD_eq_getElem?_getD, hhead]
    rfl
  have hlen : (s.taken ++ [x]).length % s.pool.cap =
      (s.taken.length % s.pool.cap + 1) % s.pool.cap := by
    rw [List.length_append, Nat.mod_add_mod]
    rfl
  rw [hx]
  refine ⟨rest, ?_⟩
  constructor
  · change s.given = s.taken ++ [x] ++ rest
    rw [h.given_eq, List.append_assoc]
    rfl
  · exact h.positive
  · exact h.room
  · change RingHolds s.pool.cap ((s.taken ++ [x]).length % s.pool.cap) s.pool.pool rest
    rw [hlen]
    exact h.holds.pop
  · apply h.permits.move s.pool.blank s.pool.data
    · rw [hi]
      change s.pool.blank + 0 + rest.length + 1 = s.pool.blank + 0 + (rest.length + 1) + 0
      omega
    · rw [hi]
      change rest.length + s.pool.data + 0 + 1 = rest.length + 1 + s.pool.data + 0 + 0
      omega
    · intro hsome
      cases hsome
    · exact fun _ => hputter
  · change Cursor _ _ _ (PoolCall.getPc ∘ Function.update s.thread i _)
    rw [comp_update_same (by rw [hi]; rfl)]
    exact h.tail
  · change Cursor s.pool.cap ((s.taken ++ [x]).length % s.pool.cap) s.pool.index2
      (PoolCall.putPc ∘ Function.update s.thread i _)
    have hnext : BodyPc.loadNext.At s.pool.cap ((s.taken ++ [x]).length % s.pool.cap)
        s.pool.index2 := by
      change (s.pool.index2 + 1) % s.pool.cap = _
      rw [hat.1, hlen]
    have hpc : (PoolCall.putPc ∘ s.thread) i = some (.cell k) := by
      change (s.thread i).putPc = _
      rw [hi]
      rfl
    rw [Function.comp_update]
    exact Lone.move halone hpc hnext

theorem Solid.getdata (h : Solid producer s items) (hsolo : Solo producer s.pool.cap)
    (hi : s.thread i = .getdata instr pc) :
    ∃ items', Solid producer { s with
      pool := (s.pool.getAccess instr pc).1
      thread := Function.update s.thread i (s.pool.getAccess instr pc).2
      given := s.given ++ pc.stored instr } items' := by
  have hat := h.getter_at hi
  have hgetter := h.permits.getters i (by rw [hi]; rfl)
  have halone := h.permits.getter_alone hsolo
  have hpc : (PoolCall.getPc ∘ s.thread) i = some pc := by
    change (s.thread i).getPc = _
    rw [hi]
    rfl
  rcases s.pool.getAccess_cases instr hat with
    ⟨k, rfl⟩ | rfl | ⟨size, index1, pc', he, hst, hpc', hat'⟩
  · exact ⟨_, h.write_cell hsolo hi⟩
  · refine ⟨items, ?_⟩
    change Solid producer { s with
      pool := { s.pool with data := s.pool.data + 1 }
      thread := Function.update s.thread i .outside
      given := s.given ++ [] } items
    rw [List.append_nil]
    apply h.keep
    · apply h.permits.move s.pool.blank (s.pool.data + 1) items.length
      · rw [hi]
        rfl
      · rw [hi]
        change items.length + s.pool.data + 1 + 0 = items.length + (s.pool.data + 1) + 0 + 0
        omega
      · intro hsome
        cases hsome
      · intro hsome
        cases hsome
    · rw [Function.comp_update]
      exact Lone.leave halone hpc hat
    · rw [comp_update_same (by rw [hi]; rfl)]
      exact h.front
  · refine ⟨items, ?_⟩
    rw [he, hst, List.append_nil]
    apply h.keep
    · apply h.permits.move s.pool.blank s.pool.data
      · rw [hi]
        simp [PoolCall.filling, PoolCall.took, PoolCall.getPc, PoolCall.putPc, hpc']
      · rw [hi]
        simp [PoolCall.filled, PoolCall.taking, PoolCall.getPc, PoolCall.putPc, hpc']
      · exact fun _ => hgetter
      · intro hsome
        cases hsome
    · rw [Function.comp_update]
      exact Lone.move halone hpc hat'
    · rw [comp_update_same (by rw [hi]; rfl)]
      exact h.front

theorem Solid.putdata (h : Solid producer s items) (hsolo : Solo producer s.pool.cap)
    (hi : s.thread i = .putdata pc) :
    ∃ items', Solid producer { s with
      pool := (s.pool.putAccess pc).1
      thread := Function.update s.thread i (s.pool.putAccess pc).2
      taken := s.taken ++ s.pool.handed pc } items' := by
  have hat := h.putter_at hi
  have hputter := h.permits.putters i (by rw [hi]; rfl)
  have halone := h.permits.putter_alone hsolo
  have hpc : (PoolCall.putPc ∘ s.thread) i = some pc := by
    change (s.thread i).putPc = _
    rw [hi]
    rfl
  rcases s.pool.putAccess_cases hat with ⟨k, rfl⟩ | rfl | ⟨size, index2, pc', he, hst, hpc', hat'⟩
  · exact h.read_cell hsolo hi
  · refine ⟨items, ?_⟩
    change Solid producer { s with
      pool := { s.pool with blank := s.pool.blank + 1 }
      thread := Function.update s.thread i .outside
      taken := s.taken ++ [] } items
    rw [List.append_nil]
    apply h.keep
    · apply h.permits.move (s.pool.blank + 1) s.pool.data items.length
      · rw [hi]
        change s.pool.blank + 1 + 0 + items.length + 0 = s.pool.blank + 0 + items.length + 1
        omega
      · rw [hi]
        rfl
      · intro hsome
        cases hsome
      · intro hsome
        cases hsome
    · rw [comp_update_same (by rw [hi]; rfl)]
      exact h.tail
    · rw [Function.comp_update]
      exact Lone.leave halone hpc hat
  · refine ⟨items, ?_⟩
    rw [he, hst, List.append_nil]
    apply h.keep
    · apply h.permits.move s.pool.blank s.pool.data
      · rw [hi]
        simp [PoolCall.filling, PoolCall.took, PoolCall.getPc, PoolCall.putPc, hpc']
      · rw [hi]
        simp [PoolCall.filled, PoolCall.taking, PoolCall.getPc, PoolCall.putPc, hpc']
      · intro hsome
        cases hsome
      · exact fun _ => hputter
    · rw [comp_update_same (by rw [hi]; rfl)]
      exact h.tail
    · rw [Function.comp_update]
      exact Lone.move halone hpc hat'

theorem Solid.step {t : PoolRun ι} (h : Solid producer s items)
    (hsolo : Solo producer s.pool.cap) (hst : Step producer s t) :
    ∃ items', Solid producer t items' := by
  cases hst with
  | waitBlank i instr hi hout hb => exact ⟨items, h.wait_blank hsolo instr hi hout hb⟩
  | getdata i hi => exact h.getdata hsolo hi
  | waitData i hi hout hd => exact ⟨items, h.wait_data hsolo hi hout hd⟩
  | putdata i hi => exact h.putdata hsolo hi

end PoolRun

namespace PoolRun

section Race

variable {ι : Type*} {producer : ι → Bool} {pool : DataPool} {thread : ι → PoolCall}
  {given taken : List String} {i : ι} {cap : Nat} {size : Int} {cells : List String}

/-- The pool as constructed, but for the cells. -/
abbrev start (cap : Nat) (size : Int) (cells : List String) : PoolRun ι :=
  init { DataPool.init cap size with pool := cells }

theorem solid_start [Fintype ι] (producer : ι → Bool) (hcap : 1 ≤ cap)
    (hroom : cap ≤ cells.length) : Solid producer (start cap size cells) [] := by
  have hnone : ∀ p : PoolCall → Bool, p .outside = false →
      count p (fun _ : ι => PoolCall.outside) = 0 := by
    intro p hp
    exact count_outside hp fun _ => rfl
  have hrest : Cursor cap (0 % cap) 0 (fun _ : ι => none) := by
    constructor
    · intro i pc hpc
      cases hpc
    · exact fun _ => (Nat.zero_mod cap).symm
  constructor
  · rfl
  · exact hcap
  · exact hroom
  · exact ringHolds_nil _ _ _
  · constructor
    · change cap + count PoolCall.filling (fun _ : ι => .outside) + 0 +
        count PoolCall.took (fun _ : ι => .outside) = cap
      rw [hnone _ rfl, hnone _ rfl]
      rfl
    · change 0 = 0 + count PoolCall.filled (fun _ : ι => .outside) +
        count PoolCall.taking (fun _ : ι => .outside)
      rw [hnone _ rfl, hnone _ rfl]
    · intro i hi
      cases hi
    · intro i hi
      cases hi
  · exact hrest
  · exact hrest

variable [DecidableEq ι]

theorem get_access {q : DataPool} {c : PoolCall} {given' : List String} {instr : String}
    {pc : BodyPc} (hq : pool.getAccess instr pc = (q, c)) (hg : given ++ pc.stored instr = given') :
    Step producer ⟨pool, Function.update thread i (.getdata instr pc), given, taken⟩
      ⟨q, Function.update thread i c, given', taken⟩ := by
  have hst : Step producer _ _ := .getdata
    (s := ⟨pool, Function.update thread i (.getdata instr pc), given, taken⟩) i
    (Function.update_self ..)
  simpa only [Function.update_idem, hq, hg] using hst

theorem put_access {q : DataPool} {c : PoolCall} {taken' : List String} {pc : BodyPc}
    (hq : pool.putAccess pc = (q, c)) (hh : taken ++ pool.handed pc = taken') :
    Step producer ⟨pool, Function.update thread i (.putdata pc), given, taken⟩
      ⟨q, Function.update thread i c, given, taken'⟩ := by
  have hst : Step producer _ _ := .putdata
    (s := ⟨pool, Function.update thread i (.putdata pc), given, taken⟩) i
    (Function.update_self ..)
  simpa only [Function.update_idem, hq, hh] using hst

/-- A producer gets to its cell while the others stand still. -/
theorem reach_write (hi : producer i = true) (hout : thread i = .outside) (hb : 0 < pool.blank)
    (instr : String) :
    Reachable (Step producer) ⟨pool, thread, given, taken⟩
      ⟨{ pool with blank := pool.blank - 1, size := pool.size + 1 },
        Function.update thread i (.getdata instr (.cell pool.index1)), given, taken⟩ := by
  have hnil := List.append_nil given
  have h1 : Reachable (Step producer) ⟨pool, thread, given, taken⟩ _ :=
    .single (.waitBlank i instr hi hout hb)
  have h2 := h1.tail (get_access rfl hnil)
  have h3 := h2.tail (get_access rfl hnil)
  exact h3.tail (get_access rfl hnil)

theorem reach_read (hi : producer i = false) (hout : thread i = .outside) (hd : 0 < pool.data) :
    Reachable (Step producer) ⟨pool, thread, given, taken⟩
      ⟨{ pool with data := pool.data - 1, size := pool.size - 1 },
        Function.update thread i (.putdata (.cell pool.index2)), given, taken⟩ := by
  have hnil := List.append_nil taken
  have h1 : Reachable (Step producer) ⟨pool, thread, given, taken⟩ _ :=
    .single (.waitData i hi hout hd)
  have h2 := h1.tail (put_access rfl hnil)
  have h3 := h2.tail (put_access rfl hnil)
  exact h3.tail (put_access rfl hnil)

/-- A whole call of `getdata` while the others stand still. -/
theorem reach_given (hi : producer i = true) (hout : thread i = .outside) (hb : 0 < pool.blank)
    (instr : String) :
    Reachable (Step producer) ⟨pool, thread, given, taken⟩
      ⟨{ pool.getdata instr with blank := pool.blank - 1, data := pool.data + 1 }, thread,
        given ++ [instr], taken⟩ := by
  have hnil := List.append_nil (given ++ [instr])
  have h1 : Reachable (Step producer) ⟨pool, thread, given, taken⟩ _ :=
    reach_write hi hout hb instr
  have h2 := h1.tail (get_access rfl rfl)
  have h3 := h2.tail (get_access rfl hnil)
  have h4 := h3.tail (get_access rfl hnil)
  have h5 := h4.tail (get_access rfl hnil)
  have h6 := h5.tail (get_access rfl hnil)
  have h7 := h6.tail (get_access rfl hnil)
  rw [← hout, Function.update_eq_self] at h7
  exact h7

/-- Both producers write the same cell. -/
theorem producers_race (hcap : 1 < cap) (hroom : cap ≤ cells.length) {j : ι} (hij : i ≠ j)
    (hi : producer i = true) (hj : producer j = true) :
    ∃ s, Reachable (Step producer) (start cap size cells) s ∧ ¬ s.Intact := by
  have h1 : Reachable (Step producer) (start cap size cells) _ :=
    reach_write hi rfl (Nat.zero_lt_of_lt hcap) "a"
  have h2 := h1.trans
    (reach_write hj (Function.update_of_ne hij.symm ..) (Nat.sub_pos_of_lt hcap) "b")
  have h3 := h2.tail (.getdata i ((Function.update_of_ne hij ..).trans (Function.update_self ..)))
  have h4 := h3.tail (.getdata j ((Function.update_of_ne hij.symm ..).trans
    (Function.update_self ..)))
  refine ⟨_, h4, fun hintact => ?_⟩
  have hfirst : ((cells.set 0 "a").set 0 "b")[0 % cap]? = some "a" :=
    hintact.stored 0 (Nat.zero_lt_succ 1)
  rw [Nat.zero_mod, List.getElem?_set_self (by rw [List.length_set]; omega)] at hfirst
  simp at hfirst

/-- Both consumers are handed the same string. -/
theorem consumers_race (hcap : 1 < cap) (hroom : cap ≤ cells.length) {j p : ι} (hij : i ≠ j)
    (hp : producer p = true) (hi : producer i = false) (hj : producer j = false) :
    ∃ s, Reachable (Step producer) (start cap size cells) s ∧ ¬ s.Intact := by
  have h1 : Reachable (Step producer) (start cap size cells) _ :=
    reach_given hp rfl (Nat.zero_lt_of_lt hcap) "a"
  have h2 := h1.trans (reach_given hp rfl (Nat.sub_pos_of_lt hcap) "b")
  have h3 := h2.trans (reach_read hi rfl (Nat.zero_lt_succ 1))
  have h4 := h3.trans (reach_read hj (Function.update_of_ne hij.symm ..) Nat.one_pos)
  have h5 := h4.tail (.putdata i ((Function.update_of_ne hij ..).trans (Function.update_self ..)))
  have h6 := h5.tail (.putdata j ((Function.update_of_ne hij.symm ..).trans
    (Function.update_self ..)))
  refine ⟨_, h6, fun hintact => ?_⟩
  have hprefix : [((cells.set 0 "a").set ((0 + 1) % cap) "b").getD 0 "",
      ((cells.set 0 "a").set ((0 + 1) % cap) "b").getD 0 ""] <+: ["a", "b"] :=
    hintact.taken_prefix
  have hfirst : ((cells.set 0 "a").set ((0 + 1) % cap) "b").getD 0 "" = "a" := by
    rw [Nat.mod_eq_of_lt (by omega), List.getD_eq_getElem?_getD,
      List.getElem?_set_ne (by omega), List.getElem?_set_self (by omega)]
    rfl
  rw [hfirst] at hprefix
  exact absurd hprefix (by decide)

theorem eq_start_of_no_producer (hno : ∀ i, producer i = false) {s : PoolRun ι}
    (h : Reachable (Step producer) (start cap size cells) s) : s = start cap size cells := by
  apply h.invariant (· = start cap size cells) rfl
  rintro a b rfl hst
  cases hst with
  | waitBlank i instr hi => exact absurd hi (by rw [hno i]; exact Bool.false_ne_true)
  | waitData i hi hout hd => exact absurd hd (Nat.lt_irrefl 0)
  | getdata i hi => cases hi
  | putdata i hi => cases hi

variable [Fintype ι]

theorem solid_of_reachable (hcap : 1 ≤ cap) (hroom : cap ≤ cells.length) (hsolo : Solo producer cap)
    {s : PoolRun ι} (h : Reachable (Step producer) (start cap size cells) s) :
    s.pool.cap = cap ∧ ∃ items, Solid producer s items := by
  apply h.invariant fun s => s.pool.cap = cap ∧ ∃ items, Solid producer s items
  · exact ⟨rfl, [], solid_start producer hcap hroom⟩
  · intro a b ⟨hc, items, hsolid⟩ hst
    exact ⟨hst.cap_eq.trans hc, hsolid.step (hc ▸ hsolo) hst⟩

/-- With room for `cap` strings, the semaphores alone keep the pool intact exactly
when they let one thread at most into each body. -/
theorem pool_access_iff (producer : ι → Bool) (hcap : 1 ≤ cap) (size : Int)
    (hroom : cap ≤ cells.length) :
    ((∀ s, Reachable (Step producer) (start cap size cells) s → s.Intact ∧ s.Apart) ↔
      cap = 1 ∨ Function.Injective producer ∨ ∀ i, producer i = false) ∧
    ((∀ s, Reachable (Step producer) (start cap size cells) s → s.Intact) →
      ∀ s, Reachable (Step producer) (start cap size cells) s → s.Apart) := by
  have hkept : (cap = 1 ∨ Function.Injective producer ∨ ∀ i, producer i = false) →
      ∀ s, Reachable (Step producer) (start cap size cells) s → s.Intact ∧ s.Apart := by
    intro hcond s hs
    by_cases hsolo : Solo producer cap
    · obtain ⟨hc, items, hsolid⟩ := solid_of_reachable hcap hroom hsolo hs
      exact ⟨hsolid.intact, hsolid.apart (hc ▸ hsolo)⟩
    · have hno : ∀ i, producer i = false := by
        rcases hcond with h | h | h
        · exact absurd (.inl h) hsolo
        · exact absurd (.inr h) hsolo
        · exact h
      rw [eq_start_of_no_producer hno hs]
      refine ⟨(solid_start producer hcap hroom).intact, ?_⟩
      intro i j k hi
      cases hi
  have hbroken : (∀ s, Reachable (Step producer) (start cap size cells) s → s.Intact) →
      cap = 1 ∨ Function.Injective producer ∨ ∀ i, producer i = false := by
    intro hall
    by_contra hcond
    simp only [not_or, not_forall, Bool.not_eq_false] at hcond
    obtain ⟨hne, hinj, p, hp⟩ := hcond
    have hgt : 1 < cap := by omega
    obtain ⟨i, j, heq, hij⟩ : ∃ i j, producer i = producer j ∧ i ≠ j := by
      simpa [Function.Injective] using hinj
    obtain ⟨s, hs, hnot⟩ : ∃ s, Reachable (Step producer) (start cap size cells) s ∧
        ¬ s.Intact := by
      cases hi : producer i with
      | true => exact producers_race hgt hroom hij hi (heq ▸ hi)
      | false => exact consumers_race hgt hroom hij hp hi (heq ▸ hi)
    exact hnot (hall s hs)
  refine ⟨⟨fun hall => hbroken fun s hs => (hall s hs).1, hkept⟩, ?_⟩
  exact fun hall s hs => (hkept (hbroken hall) s hs).2

theorem pool_access_two_threads :
    (∀ s, Reachable (Step (id : Bool → Bool)) (start 2 0 ["", ""]) s → s.Intact ∧ s.Apart) ∧
    ¬ ∀ s, Reachable (Step fun _ : Bool => true) (start 2 0 ["", ""]) s → s.Intact ∧ s.Apart := by
  have hcap : 1 ≤ 2 := by decide
  have hroom : 2 ≤ ["", ""].length := by decide
  refine ⟨(pool_access_iff id hcap 0 hroom).1.mpr (.inr (.inl Function.injective_id)), ?_⟩
  intro hall
  rcases (pool_access_iff (fun _ : Bool => true) hcap 0 hroom).1.mp hall with h | h | h
  · cases h
  · cases @h true false rfl
  · cases h true

end Race

end PoolRun

end LinuxStudy

import LinuxStudy.SelectServer

/-! What one scan of the select server serves, while its turns free slots and
fill them again. -/

namespace LinuxStudy

namespace SelectServer

section Scan

variable {s t : SelectServer} {slots : List (Option Sock)} {a : Replies} {n : Nat}
  {done : List Sock}

/-- The descriptors that the scan has still to serve. -/
def left (s : SelectServer) : List Sock :=
  (s.gfds.drop s.k).reduceOption.filter fun fd => fd ∈ s.rfds

def serves (s : SelectServer) : List Sock := s.next.toList

def later (s : SelectServer) : List Sock :=
  (s.gfds.drop (s.k + 1)).reduceOption.filter fun fd => fd ∈ s.rfds

theorem serves_append (s : SelectServer) : s.serves ++ s.later = s.left := by
  rw [serves, later, left]
  cases hx : s.gfds[s.k]? with
  | none =>
    have hlen := List.getElem?_eq_none_iff.mp hx
    rw [List.drop_eq_nil_of_le hlen, List.drop_eq_nil_of_le (hlen.trans (Nat.le_succ _)), next, hx]
    rfl
  | some x =>
    obtain ⟨hk, rfl⟩ := List.getElem?_eq_some_iff.mp hx
    rw [List.drop_eq_getElem_cons hk, next, hx]
    cases s.gfds[s.k] with
    | none => rw [List.reduceOption_cons_of_none]; rfl
    | some c =>
      rw [List.reduceOption_cons_of_some, List.filter_cons]
      by_cases hc : c ∈ s.rfds <;> simp [hc]

/-- A turn keeps what follows it in the table: a new client is not marked, and a
slot is freed only behind the scan. -/
theorem Table.later_eq (h : Table s slots) (hf : s.Fresh a) :
    ((s.turn a).gfds.drop (s.k + 1)).reduceOption.filter (fun fd => fd ∈ s.rfds) = s.later := by
  rw [later, h.gfds, List.drop_succ_cons]
  cases h.move hf with
  | keep hgfds hlive => rw [hgfds, List.drop_succ_cons]
  | add c hc hnext ha hzero hgfds hlive =>
    have hmark : c ∉ s.rfds := fun hmem => (h.marked hzero c hmem).elim hc.1 hc.2
    rw [hgfds, hzero, List.drop_succ_cons, List.drop_zero, List.drop_zero]
    exact place_filter (p := fun fd => decide (fd ∈ s.rfds)) (decide_eq_false hmark) slots
  | remove i c hi hc hgfds hlive =>
    rw [hgfds, hi, List.drop_succ_cons, List.drop_set_of_lt (Nat.lt_succ_self i)]

theorem Table.left_sublist (h : Table s slots) (hf : s.Fresh a) :
    (s.turn a).left.Sublist s.later := by
  obtain ⟨-, hrfds, hk⟩ := turn_frame s a
  rw [left, hk, ← h.later_eq hf]
  exact List.monotone_filter_right _ fun c hc =>
    decide_eq_true (hrfds (of_decide_eq_true hc))

theorem Table.left_eq (h : Table s slots) (hf : s.Fresh a) (ha : a.Short) :
    (s.turn a).left = s.later := by
  rw [left, turn_rfds s ha, (turn_frame s a).2.2]
  exact h.later_eq hf

theorem Table.turn (h : Table s slots) (ht : Turn s t) :
    (∃ slots', Table t slots') ∧ (s.serves ++ t.left).Subperm s.left := by
  obtain ⟨a, hk, hf, rfl⟩ := ht
  refine ⟨h.next hf, ?_⟩
  rw [← serves_append s]
  exact ((h.left_sublist hf).append_left s.serves).subperm

theorem Table.shortTurn (h : Table s slots) (ht : ShortTurn s t) :
    (∃ slots', Table t slots') ∧ (s.serves ++ t.left).Perm s.left := by
  obtain ⟨a, hk, hf, ha, rfl⟩ := ht
  refine ⟨h.next hf, ?_⟩
  rw [h.left_eq hf ha, serves_append]

theorem scan_turns (h : Scan Turn serves s n done t) : t.k = s.k + n := by
  induction h with
  | start => rfl
  | turn _ hu ih =>
    obtain ⟨a, -, -, rfl⟩ := hu
    rw [(turn_frame _ a).2.2, ih, Nat.add_assoc]

theorem scan_le (h : Scan Turn serves s n done t) (hk : s.k = 0) : n ≤ size := by
  cases h with
  | start => exact Nat.zero_le _
  | turn h hu =>
    obtain ⟨a, hlt, -, -⟩ := hu
    rw [scan_turns h, hk] at hlt
    omega

theorem scan_subperm (h : Table s slots) (hscan : Scan Turn serves s n done t) :
    done.Subperm s.left := by
  obtain ⟨-, hleft⟩ := hscan.subperm (fun s => ∃ slots, Table s slots) left
    ⟨slots, h⟩ fun a b ⟨_, ha⟩ hab => ha.turn hab
  exact (List.sublist_append_left _ _).subperm.trans hleft

theorem scan_perm (h : Table s slots) (hscan : Scan ShortTurn serves s n done t)
    (hk : size ≤ t.k) : done.Perm s.left := by
  obtain ⟨⟨slots', ht⟩, hperm⟩ := hscan.perm (fun s => ∃ slots, Table s slots) left
    ⟨slots, h⟩ fun a b ⟨_, ha⟩ hab => ha.shortTurn hab
  have hlen : t.gfds.length ≤ t.k := by
    rw [ht.gfds, List.length_cons, ht.length]
    exact hk
  have hnone : t.left = [] := by rw [left, List.drop_eq_nil_of_le hlen]; rfl
  rwa [hnone, List.append_nil] at hperm

end Scan

theorem left_select (s : SelectServer) (ready : Sock → Bool) :
    (s.watch.select ready).left = s.gfds.reduceOption.filter ready := by
  refine List.filter_congr fun c hc => ?_
  have hmem : c ∈ s.watch.rfds := by
    rw [watch_rfds, List.mem_toFinset]
    exact hc
  simp [select, hmem]

/-- What a scan serves is reported by `select` and served once, and if no `read`
in it fills the buffer, it serves all that is tracked and reported. -/
theorem select_scan {listensock : Sock} {s : SelectServer}
    (h : Reachable (Loop Fresh) (start listensock) s) (ready : Sock → Bool) {n : Nat}
    {done : List Sock} {t : SelectServer}
    (hscan : Scan Turn serves (s.watch.select ready) n done t) :
    n ≤ size ∧ done.Subperm (s.gfds.reduceOption.filter ready) ∧
      (Scan ShortTurn serves (s.watch.select ready) n done t → size ≤ t.k →
        done.Perm (s.gfds.reduceOption.filter ready)) := by
  obtain ⟨slots, hs⟩ := table_reachable (fun _ _ => id) h
  rw [← left_select]
  exact ⟨scan_le hscan rfl, scan_subperm (hs.select ready) hscan, scan_perm (hs.select ready)⟩

theorem turn_idle (s : SelectServer) : s.turn ⟨none, none⟩ = s.skip := by
  unfold turn
  split
  · rfl
  · split <;> rfl

theorem fresh_idle (s : SelectServer) : s.Fresh ⟨none, none⟩ := nofun

theorem reach_idle (s : SelectServer) {n : Nat} (hn : s.k + n ≤ size) :
    Reachable (Loop Fresh) s { s with k := s.k + n } := by
  induction n with
  | zero => exact .refl
  | succ n ih =>
    have hturn := Loop.turn (s := { s with k := s.k + n }) _ (by change s.k + n < size; omega)
      (fresh_idle _)
    rw [turn_idle] at hturn
    exact (ih (by omega)).tail hturn

/-- Where nothing is left to serve, a scan goes to its end. -/
theorem scan_idle {turns : SelectServer → SelectServer → Prop} {s t : SelectServer} {n m : Nat}
    {done : List Sock} (hturns : ∀ s, s.k < size → turns s (s.turn ⟨none, none⟩))
    (hscan : Scan turns serves s n done t) (hleft : t.left = []) (hk : t.k = n)
    (hm : n + m = size) :
    ∃ u, size ≤ u.k ∧ u.gfds = t.gfds ∧ Scan turns serves s size done u := by
  induction m generalizing n t with
  | zero =>
    rw [Nat.add_zero] at hm
    exact ⟨t, (hk.trans hm).ge, rfl, hm ▸ hscan⟩
  | succ m ih =>
    have hnext := hscan.turn (hturns t (by omega))
    rw [← serves_append] at hleft
    obtain ⟨hserves, hlater⟩ := List.append_eq_nil_iff.mp hleft
    rw [hserves, List.append_nil, turn_idle] at hnext
    have hrest : t.skip.left = [] := hlater
    have hcount : n + 1 + m = size := by rw [← hm, Nat.add_right_comm, Nat.add_assoc]
    exact ih (t := t.skip) hnext hrest (congrArg (· + 1) hk) hcount

/-- The server after a round in which `c` joined. -/
def joined (s : SelectServer) (c : Sock) : SelectServer :=
  { (s.watch.select fun _ => true).turn ⟨some c, none⟩ with k := size }

theorem reach_joined {listensock c : Sock} {s : SelectServer}
    (h : Reachable (Loop Fresh) (start listensock) s) (hk : size ≤ s.k)
    (hc : c ≠ s.listensock ∧ c ∉ s.live) :
    Reachable (Loop Fresh) (start listensock) (s.joined c) := by
  have hfresh : Fresh (s.watch.select fun _ => true) ⟨some c, none⟩ := by
    rintro _ ⟨⟩
    exact hc
  have hlt : (s.watch.select fun _ => true).k < size := Nat.zero_lt_succ _
  have hturn := (h.tail (.select (fun _ => true) hk)).tail (.turn _ hlt hfresh)
  have hone := (turn_frame (s.watch.select fun _ => true) ⟨some c, none⟩).2.2
  have hidle := reach_idle ((s.watch.select fun _ => true).turn ⟨some c, none⟩) (n := size - 1)
    (hone ▸ Nat.le_refl size)
  rw [hone] at hidle
  exact hturn.trans hidle

theorem ShortTurn.turn {s t : SelectServer} (h : ShortTurn s t) : Turn s t := by
  obtain ⟨a, hk, hf, -, ht⟩ := h
  exact ⟨a, hk, hf, ht⟩

/-- A client joins and another one leaves in the same scan. -/
theorem select_scan_reused : ∃ s t : SelectServer, s.gfds.reduceOption = [3, 4] ∧
    t.gfds.reduceOption = [3, 5] ∧
    Scan Turn serves (s.watch.select fun _ => true) size [3, 4] t ∧
    [3, 4].Perm (s.gfds.reduceOption.filter fun _ => true) := by
  obtain ⟨s, hs⟩ : ∃ s, s = (start 3).joined 4 := ⟨_, rfl⟩
  have hreach : Reachable (Loop Fresh) (start 3) s :=
    hs ▸ reach_joined .refl (Nat.le_refl _) (by decide)
  obtain ⟨u, hu⟩ : ∃ u, u = (s.watch.select fun _ => true).turn ⟨some 5, none⟩ := ⟨_, rfl⟩
  obtain ⟨t, ht⟩ : ∃ t, t = u.turn ⟨none, some []⟩ := ⟨_, rfl⟩
  have hfresh : 5 ≠ s.listensock ∧ 5 ∉ s.live := by
    rw [hs]
    decide +kernel
  have hserves : [] ++ (s.watch.select fun _ => true).serves ++ u.serves = [3, 4] := by
    rw [hu, hs]
    decide +kernel
  have hleft : t.k = 2 ∧ t.left = [] := by
    rw [ht, hu, hs]
    decide +kernel
  have hjoin : ShortTurn (s.watch.select fun _ => true) u :=
    ⟨⟨some 5, none⟩, Nat.zero_lt_succ _, fun _ hc => Option.some.inj hc ▸ hfresh, nofun, hu⟩
  have hleave : ShortTurn u t := by
    refine ⟨⟨none, some []⟩, ?_, nofun, fun text htext => ?_, ht⟩
    · rw [hu, (turn_frame _ _).2.2]
      exact Nat.lt_of_sub_pos (Nat.zero_lt_succ _)
    · rw [← Option.some.inj htext]
      exact Nat.zero_lt_succ _
  have hscan : Scan ShortTurn serves _ _ _ t := (Scan.start.turn hjoin).turn hleave
  rw [hserves] at hscan
  obtain ⟨v, hv, hgfds, hend⟩ := scan_idle (fun v hv => ⟨_, hv, fresh_idle v, nofun, rfl⟩) hscan
    hleft.2 hleft.1 (m := 126) rfl
  have hturns := hend.mono fun _ _ => ShortTurn.turn
  have htable : s.gfds.reduceOption = [3, 4] ∧ t.gfds.reduceOption = [3, 5] := by
    rw [ht, hu, hs]
    decide +kernel
  exact ⟨s, v, htable.1, hgfds ▸ htable.2, hturns,
    (select_scan hreach (fun _ => true) hturns).2.2 hend hv⟩

/-- A text that fills the buffer takes away the mark of the client behind it. -/
theorem select_scan_full : ∃ s t : SelectServer, Reachable (Loop Fresh) (start 3) s ∧
    s.gfds.reduceOption.filter (fun fd => fd ≠ 3) = [4, 5] ∧
    Scan Turn serves (s.watch.select fun fd => fd ≠ 3) size [4] t ∧ size ≤ t.k ∧
    ¬ [4].Perm (s.gfds.reduceOption.filter fun fd => fd ≠ 3) := by
  obtain ⟨s, hs⟩ : ∃ s, s = ((start 3).joined 4).joined 5 := ⟨_, rfl⟩
  have hreach : Reachable (Loop Fresh) (start 3) s :=
    hs ▸ reach_joined (reach_joined .refl (Nat.le_refl _) (by decide)) (Nat.le_refl _)
      (by decide +kernel)
  have hready : s.gfds.reduceOption.filter (fun fd => fd ≠ 3) = [4, 5] := by
    rw [hs]
    decide +kernel
  obtain ⟨u, hu⟩ : ∃ u, u = (s.watch.select fun fd => fd ≠ 3).turn ⟨none, none⟩ := ⟨_, rfl⟩
  obtain ⟨t, ht⟩ : ∃ t, t = u.turn ⟨none, some (List.replicate 1024 97)⟩ := ⟨_, rfl⟩
  have hskip : Turn (s.watch.select fun fd => fd ≠ 3) u :=
    ⟨_, Nat.zero_lt_succ _, fresh_idle _, hu⟩
  have hread : Turn u t := by
    refine ⟨⟨none, some (List.replicate 1024 97)⟩, ?_, nofun, ht⟩
    rw [hu, (turn_frame _ _).2.2]
    exact Nat.lt_of_sub_pos (Nat.zero_lt_succ _)
  have hserves : [] ++ (s.watch.select fun fd => fd ≠ 3).serves ++ u.serves = [4] := by
    rw [hu, hs]
    decide +kernel
  have hleft : t.k = 2 ∧ t.left = [] := by
    rw [ht, hu, hs]
    decide +kernel
  have hscan : Scan Turn serves _ _ _ t := (Scan.start.turn hskip).turn hread
  rw [hserves] at hscan
  obtain ⟨v, hv, -, hend⟩ := scan_idle (fun v hv => ⟨_, hv, fresh_idle v, rfl⟩) hscan hleft.2
    hleft.1 (m := 126) rfl
  exact ⟨s, v, hreach, hready, hend, hv, by rw [hready]; decide⟩

end SelectServer

end LinuxStudy

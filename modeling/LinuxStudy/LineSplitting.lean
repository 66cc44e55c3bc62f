import LinuxStudy.RequestLine

/-! `get_line` with its buffer. However the calls cut a stream up, together they
store it with every line end as one LF. -/

namespace LinuxStudy

structure LineCall where
  buf : Memory
  ret : Nat
  rest : List Byte

def LineCall.text (r : LineCall) : List Byte := (List.range r.ret).map r.buf

/-- The `c` that is stored for a received byte: behind a CR one more byte is
looked at, and taken when it is a LF. -/
def lookAhead (c : Byte) (s : List Byte) : Byte × List Byte :=
  if c = cr then
    match s with
    | [] => (lf, [])
    | d :: s' => if d = lf then (d, s') else (lf, d :: s')
  else (c, s)

/-- The `while` of `get_line` and the NUL behind it; `room` counts
`size - 1 - i`. Where `recv` fails, `c = '\n'` ends the loop. -/
def fillLine : Nat → Byte → Nat → Memory → List Byte → LineCall
  | 0, _, i, buf, s => ⟨Function.update buf i 0, i, s⟩
  | room + 1, c, i, buf, s =>
    if c = lf then ⟨Function.update buf i 0, i, s⟩
    else
      match s with
      | [] => ⟨Function.update buf i 0, i, []⟩
      | b :: s =>
        let (c, s) := lookAhead b s
        fillLine room c (i + 1) (Function.update buf i c) s

def getLineCall (size : Nat) (buf : Memory) (s : List Byte) : LineCall :=
  fillLine (size - 1) 0 0 buf s

/-- Every CR LF and every other CR as one LF. -/
def normalise : List Byte → List Byte
  | [] => []
  | [c] => [if c = cr then lf else c]
  | c :: d :: s =>
    if c = cr then lf :: (if d = lf then normalise s else normalise (d :: s))
    else c :: normalise (d :: s)

def storeAt (mem : Memory) (i : Nat) (t : List Byte) : Memory :=
  fun k => if k < i then mem k else (t ++ [0])[k - i]?.getD (mem k)

theorem storeAt_zero (mem : Memory) (t : List Byte) : storeAt mem 0 t = store mem t := by
  funext k
  rw [storeAt, if_neg (Nat.not_lt_zero k), store, Nat.sub_zero]

theorem storeAt_nil (mem : Memory) (i : Nat) : storeAt mem i [] = Function.update mem i 0 := by
  funext k
  rcases Nat.lt_trichotomy k i with hlt | rfl | hgt
  · rw [storeAt, if_pos hlt, Function.update_of_ne hlt.ne]
  · simp [storeAt]
  · obtain ⟨n, hn⟩ : ∃ n, k - i = n + 1 := ⟨k - i - 1, by omega⟩
    rw [storeAt, if_neg hgt.not_gt, Function.update_of_ne hgt.ne', hn]
    rfl

theorem storeAt_cons (mem : Memory) (i : Nat) (c : Byte) (t : List Byte) :
    storeAt mem i (c :: t) = storeAt (Function.update mem i c) (i + 1) t := by
  funext k
  rcases Nat.lt_trichotomy k i with hlt | rfl | hgt
  · rw [storeAt, if_pos hlt, storeAt, if_pos (by omega), Function.update_of_ne hlt.ne]
  · simp [storeAt]
  · obtain ⟨n, hn⟩ : ∃ n, k - i = n + 1 := ⟨k - i - 1, by omega⟩
    rw [storeAt, if_neg hgt.not_gt, storeAt, if_neg (by omega), Function.update_of_ne hgt.ne', hn,
      show k - (i + 1) = n by omega, List.cons_append, List.getElem?_cons_succ]

theorem map_store_range (mem : Memory) (t : List Byte) :
    (List.range t.length).map (store mem t) = t := by
  refine List.ext_getElem (by simp) fun k hk hk' => ?_
  rw [List.getElem_map, List.getElem_range, store_lt hk']

theorem lookAhead_suffix (c : Byte) (s : List Byte) : (lookAhead c s).2 <:+ s := by
  unfold lookAhead
  split
  · cases s with
    | nil => exact List.suffix_rfl
    | cons d s =>
      by_cases hd : d = lf
      · simp only [hd, if_true]
        exact List.suffix_cons lf s
      · simp only [hd, if_false]
        exact List.suffix_rfl
  · exact List.suffix_rfl

theorem normalise_cons (c : Byte) (s : List Byte) :
    normalise (c :: s) = (lookAhead c s).1 :: normalise (lookAhead c s).2 := by
  by_cases hc : c = cr
  · cases s with
    | nil => simp [normalise, lookAhead, hc]
    | cons d s =>
      by_cases hd : d = lf
      · simp [normalise, lookAhead, hc, hd]
      · simp [normalise, lookAhead, hc, hd]
  · cases s with
    | nil => simp [normalise, lookAhead, hc]
    | cons d s => simp [normalise, lookAhead, hc]

theorem getLineLoop_cons (room : Nat) (c : Byte) (s : List Byte) :
    getLineLoop (room + 1) (c :: s) =
      if (lookAhead c s).1 = lf then ([lf], (lookAhead c s).2)
      else ((lookAhead c s).1 :: (getLineLoop room (lookAhead c s).2).1,
        (getLineLoop room (lookAhead c s).2).2) := by
  by_cases hc : c = cr
  · cases s with
    | nil => simp [getLineLoop, lookAhead, hc]
    | cons d s =>
      by_cases hd : d = lf
      · simp [getLineLoop, lookAhead, hc, hd]
      · simp [getLineLoop, lookAhead, hc, hd]
  · simp [getLineLoop, lookAhead, hc]

theorem fillLine_eq {room : Nat} {c : Byte} (hc : c ≠ lf) (i : Nat) (buf : Memory)
    (s : List Byte) :
    fillLine room c i buf s = ⟨storeAt buf i (getLineLoop room s).1,
      i + (getLineLoop room s).1.length, (getLineLoop room s).2⟩ := by
  induction room generalizing c i buf s with
  | zero =>
    rw [fillLine, getLineLoop, storeAt_nil]
    rfl
  | succ room ih =>
    cases s with
    | nil => simp [fillLine, hc, getLineLoop, storeAt_nil]
    | cons b s =>
      simp only [fillLine, hc, if_false]
      rw [getLineLoop_cons]
      by_cases hl : (lookAhead b s).1 = lf
      · rw [if_pos hl, storeAt_cons, storeAt_nil]
        simp only [hl]
        cases room with
        | zero => rfl
        | succ room => simp [fillLine]
      · rw [if_neg hl, storeAt_cons, ih hl, List.length_cons]
        simp only [Nat.add_assoc, Nat.add_comm 1]

theorem getLineCall_eq (size : Nat) (buf : Memory) (s : List Byte) :
    getLineCall size buf s =
      ⟨store buf (getLine size s).1, (getLine size s).1.length, (getLine size s).2⟩ := by
  rw [getLineCall, fillLine_eq (show (0 : Byte) ≠ lf by decide), storeAt_zero, Nat.zero_add]
  rfl

theorem getLineCall_text (size : Nat) (buf : Memory) (s : List Byte) :
    (getLineCall size buf s).text = (getLine size s).1 := by
  rw [getLineCall_eq]
  exact map_store_range buf (getLine size s).1

theorem getLineLoop_lf {room k : Nat} {s : List Byte}
    (h : (getLineLoop room s).1[k]? = some lf) : k + 1 = (getLineLoop room s).1.length := by
  induction room generalizing k s with
  | zero => simp [getLineLoop] at h
  | succ room ih =>
    cases s with
    | nil => simp [getLineLoop] at h
    | cons c s =>
      rw [getLineLoop_cons] at h ⊢
      by_cases hl : (lookAhead c s).1 = lf
      · rw [if_pos hl] at h ⊢
        have hk := (List.getElem?_eq_some_iff.mp h).1
        rw [List.length_singleton] at hk ⊢
        omega
      · rw [if_neg hl] at h ⊢
        cases k with
        | zero => exact absurd (Option.some.inj h) hl
        | succ k =>
          rw [List.getElem?_cons_succ] at h
          rw [List.length_cons, ih h]

theorem getLineLoop_suffix (room : Nat) (s : List Byte) : (getLineLoop room s).2 <:+ s := by
  induction room generalizing s with
  | zero => exact List.suffix_rfl
  | succ room ih =>
    cases s with
    | nil => exact List.suffix_rfl
    | cons c s =>
      have hnext := (lookAhead_suffix c s).trans (List.suffix_cons c s)
      rw [getLineLoop_cons]
      by_cases hl : (lookAhead c s).1 = lf
      · rw [if_pos hl]
        exact hnext
      · rw [if_neg hl]
        exact (ih _).trans hnext

theorem getLineLoop_nonempty (room : Nat) {s : List Byte} (h : s ≠ []) :
    0 < (getLineLoop (room + 1) s).1.length := by
  obtain ⟨c, s, rfl⟩ := List.exists_cons_of_ne_nil h
  rw [getLineLoop_cons]
  split
  · exact Nat.one_pos
  · exact Nat.succ_pos _

theorem getLineLoop_normalise (room : Nat) (s : List Byte) :
    (getLineLoop room s).1 ++ normalise (getLineLoop room s).2 = normalise s := by
  induction room generalizing s with
  | zero => rfl
  | succ room ih =>
    cases s with
    | nil => rfl
    | cons c s =>
      rw [getLineLoop_cons, normalise_cons]
      by_cases hl : (lookAhead c s).1 = lf
      · rw [if_pos hl, hl]
        rfl
      · rw [if_neg hl, List.cons_append, ih]

theorem getLineCall_rest_lt {size : Nat} {buf : Memory} {s : List Byte}
    (h : 0 < (getLineCall size buf s).ret) : (getLineCall size buf s).rest.length < s.length := by
  rw [getLineCall_eq] at h ⊢
  exact getLine_rest_lt h

/-- The text that successive calls return, up to the first that returns 0; the
`k`-th has a buffer of `size k` bytes with the contents `buf k`. -/
def readAll (size : Nat → Nat) (buf : Nat → Memory) (k : Nat) (s : List Byte) : List Byte :=
  if 0 < (getLineCall (size k) (buf k) s).ret then
    (getLineCall (size k) (buf k) s).text ++
      readAll size buf (k + 1) (getLineCall (size k) (buf k) s).rest
  else []
termination_by s.length
decreasing_by exact getLineCall_rest_lt (by assumption)

/-- What a call of `get_line` on `s` guarantees. -/
structure LineCall.Splits (size : Nat) (s : List Byte) (r : LineCall) : Prop where
  ret_le : r.ret ≤ size - 1
  nul : r.buf r.ret = 0
  lf_last : ∀ k, k < r.ret → r.buf k = lf → k + 1 = r.ret
  rest : r.rest <:+ s
  progress : r.rest.length < s.length ∨ (s = [] ∧ r.ret = 0)

theorem getLineCall_splits {size : Nat} (hsize : 2 ≤ size) (buf : Memory) (s : List Byte) :
    (getLineCall size buf s).Splits size s := by
  have hloop : getLine size s = getLineLoop (size - 1) s := rfl
  rw [getLineCall_eq]
  refine ⟨getLineLoop_le (size - 1) s, store_length .., fun k hk hlf => ?_,
    getLineLoop_suffix (size - 1) s, ?_⟩
  · change store buf (getLine size s).1 k = lf at hlf
    rw [store_lt hk] at hlf
    apply getLineLoop_lf
    rw [← hloop, List.getElem?_eq_getElem hk, hlf]
  · by_cases hs : s = []
    · subst s
      refine .inr ⟨rfl, ?_⟩
      rw [hloop]
      cases size - 1 <;> rfl
    · have hpos := getLineLoop_nonempty (size - 2) hs
      rw [show size - 2 + 1 = size - 1 by omega, ← hloop] at hpos
      exact .inl (getLine_rest_lt hpos)

theorem readAll_eq (size : Nat → Nat) (hsize : ∀ k, 2 ≤ size k) (buf : Nat → Memory) (k : Nat)
    (s : List Byte) : readAll size buf k s = normalise s := by
  induction k, s using readAll.induct size buf with
  | case1 k s hret ih =>
    rw [readAll, if_pos hret, ih, getLineCall_text, getLineCall_eq]
    exact getLineLoop_normalise (size k - 1) s
  | case2 k s hret =>
    have hs : s = [] := by
      by_contra hs
      have hpos := getLineLoop_nonempty (size k - 2) hs
      have h2 := hsize k
      rw [show size k - 2 + 1 = size k - 1 by omega] at hpos
      rw [getLineCall_eq] at hret
      exact hret hpos
    rw [readAll, if_neg hret, hs]
    rfl

/-- Each call keeps inside its buffer and makes progress, and together the calls
return the stream with its line ends normalised, whatever their sizes. -/
theorem line_splitting (size : Nat → Nat) (hsize : ∀ k, 2 ≤ size k) (buf : Nat → Memory)
    (stream : List Byte) :
    (∀ k s, (getLineCall (size k) (buf k) s).Splits (size k) s) ∧
      readAll size buf 0 stream = normalise stream :=
  ⟨fun k s => getLineCall_splits (hsize k) (buf k) s, readAll_eq size hsize buf 0 stream⟩

theorem line_splitting_cut_pair :
    (∀ k s, (getLineCall (k + 2) (fun _ => 7) s).Splits (k + 2) s) ∧
      readAll (· + 2) (fun _ _ => 7) 0 (bytes "a\r\n\rbc\r") = bytes "a\n\nbc\n" :=
  ⟨(line_splitting (· + 2) (fun k => Nat.le_add_left 2 k) (fun _ _ => 7) []).1,
    (line_splitting (· + 2) (fun k => Nat.le_add_left 2 k) (fun _ _ => 7)
      (bytes "a\r\n\rbc\r")).2.trans (by decide)⟩

end LinuxStudy

import Mathlib.Data.List.DropRight
import LinuxStudy.CText

/-! `cat` of the tiny server: it sends a file line by line with `fgets`, and
looks at `feof` before it sends what the last `fgets` stored. -/

namespace LinuxStudy

/-- A `FILE *`: the bytes still to be read, and whether a read has met the end. -/
structure Stream where
  data : List Byte
  eof : Bool

/-- What `fgets` takes with `room` bytes left, what stays, and whether it met the
end of the file. -/
def takeLine : Nat → List Byte → List Byte × List Byte × Bool
  | 0, s => ([], s, false)
  | _ + 1, [] => ([], [], true)
  | room + 1, c :: s =>
    if c = lf then ([lf], s, false)
    else
      let (t, rest, eof) := takeLine room s
      (c :: t, rest, eof)

/-- `fgets(buf, size, f)`: the array is left alone when there is nothing to read. -/
def fgets (size : Nat) (buf : List Byte) (f : Stream) : List Byte × Stream :=
  let (t, rest, eof) := takeLine (size - 1) f.data
  (if t = [] then buf else t ++ [0], ⟨rest, f.eof || eof⟩)

theorem takeLine_append (room : Nat) (s : List Byte) :
    (takeLine room s).1 ++ (takeLine room s).2.1 = s := by
  induction room generalizing s with
  | zero => rfl
  | succ room ih =>
    cases s with
    | nil => rfl
    | cons c s =>
      rw [takeLine]
      split
      · rename_i hc
        rw [hc]
        rfl
      · exact congrArg (c :: ·) (ih s)

theorem takeLine_progress (room : Nat) {s : List Byte} (h : (takeLine (room + 1) s).2.2 = false) :
    (takeLine (room + 1) s).1 ≠ [] := by
  cases s with
  | nil => cases h
  | cons c s =>
    rw [takeLine]
    split
    · exact List.cons_ne_nil lf []
    · exact List.cons_ne_nil c _

theorem takeLine_le (room : Nat) (s : List Byte) : (takeLine room s).2.1.length ≤ s.length := by
  have happ := congrArg List.length (takeLine_append room s)
  rw [List.length_append] at happ
  omega

theorem takeLine_lt {room : Nat} {s : List Byte} (h : (takeLine (room + 1) s).2.2 = false) :
    (takeLine (room + 1) s).2.1.length < s.length := by
  have happ := congrArg List.length (takeLine_append (room + 1) s)
  have hpos := List.length_pos_of_ne_nil (takeLine_progress room h)
  rw [List.length_append] at happ
  omega

def Stream.left (f : Stream) : Nat := f.data.length + if f.eof then 0 else 1

theorem fgets_left {size : Nat} (buf : List Byte) {f : Stream} (hsize : 2 ≤ size)
    (h : f.eof = false) : (fgets size buf f).2.left < f.left := by
  obtain ⟨room, hroom⟩ : ∃ room, size - 1 = room + 1 := ⟨size - 2, by omega⟩
  rw [fgets, hroom, Stream.left, Stream.left, h]
  cases heof : (takeLine (room + 1) f.data).2.2 with
  | true =>
    simp only [heof]
    exact Nat.lt_succ_of_le (takeLine_le (room + 1) f.data)
  | false =>
    simp only [heof]
    exact Nat.succ_lt_succ (takeLine_lt heof)

/-- The loop of `cat`: what it passes to `send`. -/
def catLoop (buf : List Byte) (f : Stream) : List (List Byte) :=
  if f.eof = true then []
  else cstr buf :: catLoop (fgets 1024 buf f).1 (fgets 1024 buf f).2
termination_by f.left
decreasing_by exact fgets_left buf (by decide) (Bool.eq_false_iff.mpr ‹_›)

/-- `cat` on a file just opened, with an array that holds `buf`. -/
def cat (buf file : List Byte) : List (List Byte) :=
  catLoop (fgets 1024 buf ⟨file, false⟩).1 (fgets 1024 buf ⟨file, false⟩).2

def lastLine (s : List Byte) : List Byte := s.rtakeWhile (· ≠ lf)

section TakeLine

variable {room : Nat} {s : List Byte}

theorem takeLine_end (h : (takeLine room s).2.2 = true) :
    (takeLine room s).2.1 = [] ∧ s.length < room ∧ lf ∉ s := by
  induction room generalizing s with
  | zero => cases h
  | succ room ih =>
    cases s with
    | nil => exact ⟨rfl, Nat.succ_pos room, List.not_mem_nil⟩
    | cons c s =>
      rw [takeLine] at h ⊢
      by_cases hc : c = lf
      · rw [if_pos hc] at h
        cases h
      · rw [if_neg hc] at h ⊢
        obtain ⟨hrest, hlen, hmem⟩ := ih h
        exact ⟨hrest, Nat.succ_lt_succ hlen, List.not_mem_cons_of_ne_of_not_mem (Ne.symm hc) hmem⟩

theorem takeLine_full (h : (takeLine room s).2.2 = false) :
    (∃ t, (takeLine room s).1 = t ++ [lf]) ∨
      (takeLine room s).1.length = room ∧ lf ∉ (takeLine room s).1 := by
  induction room generalizing s with
  | zero => exact .inr ⟨rfl, List.not_mem_nil⟩
  | succ room ih =>
    cases s with
    | nil => cases h
    | cons c s =>
      rw [takeLine] at h ⊢
      by_cases hc : c = lf
      · rw [if_pos hc]
        exact .inl ⟨[], rfl⟩
      · rw [if_neg hc] at h ⊢
        rcases ih h with ⟨t, ht⟩ | ⟨hlen, hmem⟩
        · exact .inl ⟨c :: t, congrArg (c :: ·) ht⟩
        · exact .inr ⟨congrArg Nat.succ hlen,
            List.not_mem_cons_of_ne_of_not_mem (Ne.symm hc) hmem⟩

end TakeLine

theorem lastLine_of_not_mem {s : List Byte} (h : lf ∉ s) : lastLine s = s :=
  List.rtakeWhile_eq_self_iff.mpr fun b hb => by
    simpa using fun hlf : b = lf => h (hlf ▸ hb)

theorem lastLine_append_lf (t s : List Byte) : lastLine (t ++ lf :: s) = lastLine s := by
  induction s using List.reverseRecOn with
  | nil => exact List.rtakeWhile_concat_neg _ _ _ (by simp)
  | append_singleton s b ih =>
    have hassoc : t ++ lf :: (s ++ [b]) = (t ++ lf :: s) ++ [b] := by simp
    rw [lastLine, lastLine, hassoc, List.rtakeWhile_concat, List.rtakeWhile_concat]
    by_cases hb : b = lf
    · simp [hb]
    · have hsplit := congrArg (· ++ [b]) ih
      simpa [hb, lastLine] using hsplit

theorem lastLine_append {t s : List Byte} (h : lf ∉ t) :
    lastLine (t ++ s) = if lf ∈ s then lastLine s else t ++ s := by
  split
  · rename_i hs
    obtain ⟨u, v, rfl⟩ := List.mem_iff_append.mp hs
    rw [← List.append_assoc, lastLine_append_lf, lastLine_append_lf]
  · rename_i hs
    exact lastLine_of_not_mem (by simp [h, hs])

/-- How many bytes at the end of a file `cat` leaves out. -/
def unsent (file : List Byte) : Nat := (lastLine file).length % 1023

theorem unsent_append_lf (t s : List Byte) : unsent (t ++ lf :: s) = unsent s := by
  rw [unsent, unsent, lastLine_append_lf]

theorem cat_eq (buf file : List Byte) :
    cat buf file = if (takeLine 1023 file).2.2 = true then []
      else cstr ((takeLine 1023 file).1 ++ [0]) ::
        cat ((takeLine 1023 file).1 ++ [0]) (takeLine 1023 file).2.1 := by
  have hfgets : fgets 1024 buf ⟨file, false⟩ = (if (takeLine 1023 file).1 = [] then buf
      else (takeLine 1023 file).1 ++ [0], ⟨(takeLine 1023 file).2.1, (takeLine 1023 file).2.2⟩) :=
    rfl
  rw [cat, hfgets, catLoop]
  cases heof : (takeLine 1023 file).2.2 with
  | true => rfl
  | false =>
    rw [if_neg (takeLine_progress 1022 heof)]
    rfl

theorem unsent_append {t : List Byte} (hlen : t.length = 1023) (ht : lf ∉ t) (s : List Byte) :
    unsent (t ++ s) = unsent s := by
  rw [unsent, unsent, lastLine_append ht]
  split
  · rfl
  · rename_i hs
    rw [lastLine_of_not_mem hs, List.length_append, hlen, Nat.add_mod_left]

theorem unsent_le (file : List Byte) : unsent file ≤ file.length :=
  (Nat.mod_le _ _).trans (List.IsSuffix.length_le (List.rtakeWhile_suffix _ file))

theorem cat_plain (buf : List Byte) {file : List Byte} (h : 0 ∉ file) :
    (cat buf file).flatten = file.take (file.length - unsent file) := by
  induction hn : file.length using Nat.strong_induction_on generalizing buf file with
  | _ n ih =>
  subst hn
  rw [cat_eq]
  cases heof : (takeLine 1023 file).2.2 with
  | true =>
    obtain ⟨-, hlen, hmem⟩ := takeLine_end heof
    have hall : unsent file = file.length := by
      rw [unsent, lastLine_of_not_mem hmem, Nat.mod_eq_of_lt hlen]
    rw [hall, Nat.sub_self]
    rfl
  | false =>
    have happ := takeLine_append 1023 file
    have hlt := takeLine_lt heof
    have hfull := takeLine_full heof
    generalize (takeLine 1023 file).1 = t at happ hfull ⊢
    generalize (takeLine 1023 file).2.1 = rest at happ hlt ⊢
    rw [← happ, List.mem_append, not_or] at h
    have hrest := ih rest.length hlt (t ++ [0]) h.2 rfl
    have hunsent : unsent file = unsent rest := by
      rw [← happ]
      rcases hfull with ⟨t, rfl⟩ | ⟨hlen, hmem⟩
      · rw [List.append_assoc]
        exact unsent_append_lf t rest
      · exact unsent_append hlen hmem rest
    have hle := unsent_le rest
    have htext : cstr (t ++ [0]) = t := by
      rw [cstr_append_nul, cstr_of_plain fun b hb hzero => h.1 (hzero ▸ hb)]
    rw [if_neg Bool.false_ne_true, List.flatten_cons, htext, hrest, hunsent, ← happ,
      List.length_append, Nat.add_sub_assoc hle, List.take_length_add_append]

theorem cat_no_nul (buf file : List Byte) : 0 ∉ (cat buf file).flatten := by
  induction hn : file.length using Nat.strong_induction_on generalizing buf file with
  | _ n ih =>
  subst hn
  intro hmem
  rw [cat_eq] at hmem
  cases heof : (takeLine 1023 file).2.2 with
  | true =>
    rw [heof] at hmem
    exact List.not_mem_nil hmem
  | false =>
    rw [heof, if_neg Bool.false_ne_true, List.flatten_cons, List.mem_append] at hmem
    rcases hmem with hmem | hmem
    · simpa using List.mem_takeWhile_imp hmem
    · exact ih _ (takeLine_lt heof) _ _ rfl hmem

/-- Of a file without NUL the end of an unfinished last line is left out, as much
as `fgets` stored last; so it arrives as it is exactly when it holds no NUL and
its last line is finished, or ends where `fgets` has just filled the array. -/
theorem cat_whole_iff (buf file : List Byte) :
    (0 ∉ file → (cat buf file).flatten =
      file.take (file.length - (lastLine file).length % 1023)) ∧
    ((cat buf file).flatten = file ↔ 0 ∉ file ∧ 1023 ∣ (lastLine file).length) := by
  refine ⟨cat_plain buf, fun h => ?_, ?_⟩
  · have hnul : 0 ∉ file := h ▸ cat_no_nul buf file
    refine ⟨hnul, Nat.dvd_of_mod_eq_zero ?_⟩
    have hle := unsent_le file
    have hlen := congrArg List.length (h.symm.trans (cat_plain buf hnul))
    rw [List.length_take] at hlen
    change unsent file = 0
    omega
  · rintro ⟨hnul, hdvd⟩
    have hzero : unsent file = 0 := Nat.mod_eq_zero_of_dvd hdvd
    rw [cat_plain buf hnul, hzero, Nat.sub_zero, List.take_length]

example : cat [] (bytes "one\ntwo") = [bytes "one\n"] := by decide +kernel

end LinuxStudy

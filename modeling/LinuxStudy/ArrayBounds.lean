import LinuxStudy.PlainGet

/-! The places at which `Dealwithsock` reads and writes its arrays, in the order
of the source: each loop tests the element before it tests the index. -/

namespace LinuxStudy

inductive LocalArray
  | buf | method | url | path | deal | allPath
  deriving DecidableEq

def LocalArray.size : LocalArray → Nat
  | buf => bufSize
  | method => 100
  | url => 1024
  | path => 522
  | deal => 100
  | allPath => pathSize

structure Access where
  array : LocalArray
  index : Nat

def InBounds (accesses : List Access) : Prop := ∀ a ∈ accesses, a.index < a.array.size

/-- The `n` places from `i` on. -/
def span (array : LocalArray) (i n : Nat) : List Access :=
  (List.range n).map fun k => ⟨array, i + k⟩

def copyAccesses (src dst : LocalArray) (stop : Byte → Bool) (mem : Memory) :
    Nat → Nat → Nat → List Access
  | 0, i, _ => [⟨src, i⟩]
  | limit + 1, i, j =>
    ⟨src, i⟩ ::
      if stop (mem i) then []
      else ⟨src, i⟩ :: ⟨dst, j⟩ :: copyAccesses src dst stop mem limit (i + 1) (j + 1)

def skipAccesses (mem : Memory) : Nat → Nat → List Access
  | 0, i => [⟨.buf, i⟩]
  | fuel + 1, i => ⟨.buf, i⟩ :: if isspace (mem i) then skipAccesses mem fuel (i + 1) else []

/-- Where the URL starts. -/
def urlStart (buf : Memory) : Nat :=
  let n := (copyUntil isspace buf 99 0).length
  skipSpace buf (bufSize - n) n

/-- `get_line`, `printf` and the loops for the method and the URL. -/
def lineAccesses (m : Locals) (line : List Byte) : List Access :=
  let buf := store m.buf line
  let n := (copyUntil isspace buf 99 0).length
  let i := urlStart buf
  span .buf 0 (line.length + 1) ++ span .buf 0 ((cstr line).length + 1) ++
    copyAccesses .buf .method isspace buf 99 0 0 ++ [⟨.method, n⟩] ++
    skipAccesses buf (bufSize - n) n ++
    copyAccesses .buf .url isspace buf 1023 i 0 ++ [⟨.url, (copyUntil isspace buf 1023 i).length⟩]

/-- The comparisons of the method, which read it up to its NUL at most. -/
def methodAccesses (r : Request) : List Access := span .method 0 (r.method.length + 1)

/-- The loop of a GET request for `?`. -/
def queryAccesses (m : Locals) (line : List Byte) : List Access :=
  let buf := store m.buf line
  let url := store m.url (copyUntil isspace buf 1023 (urlStart buf))
  let j := (copyUntil (· == questionMark) url 521 0).length
  copyAccesses .url .path (· == questionMark) url 521 0 0 ++ [⟨.path, j⟩, ⟨.url, j⟩]

/-- The loop that copies the version to `Deal`. -/
def dealAccesses (m : Locals) (line : List Byte) : List Access :=
  let buf := store m.buf line
  let i := urlStart buf + (copyUntil isspace buf 1023 (urlStart buf)).length
  skipAccesses buf (bufSize - i) i ++
    copyAccesses .buf .deal isspace buf 99 (skipSpace buf (bufSize - i) i) 0

/-- `strcat(All_path, "index.html")` behind `n` bytes. -/
def strcatIndex (n : Nat) : List Access := span .allPath 0 (n + 1) ++ span .allPath n 11

/-- `sprintf`, the test for `/`, `stat` and the branch for a directory. -/
def pathAccesses (fs : FileSystem) (r : Request) : List Access :=
  let n := (wwwroot ++ r.target).length
  let source := if r.path.isSome then .path else .url
  span source 0 (r.target.length + 1) ++ span .allPath 0 (n + 1) ++
    span .allPath 0 (n + 1) ++ [⟨.allPath, n - 1⟩] ++
    (if (wwwroot ++ r.target).getLast? = some slash then strcatIndex n else []) ++
    span .allPath 0 ((allPath r).length + 1) ++
    match fs (allPath r) with
    | none => []
    | some st =>
      if st.isDir then
        span .allPath 0 ((allPath r).length + 1) ++ [⟨.allPath, (allPath r).length⟩] ++
          strcatIndex ((allPath r).length + 1)
      else []

/-- `Dealwithsock` on the line that `get_line` stored. A method that is neither
GET nor POST ends it behind the comparisons. -/
def accesses (fs : FileSystem) (m : Locals) (line : List Byte) : List Access :=
  let r := readRequest m line
  lineAccesses m line ++ methodAccesses r ++
    if r.accepted then
      (if methodIs "GET" r.method then queryAccesses m line else []) ++ dealAccesses m line ++
        pathAccesses fs r
    else []

section InBounds

variable {as bs : List Access} {array src dst : LocalArray} {stop : Byte → Bool} {mem : Memory}
  {limit fuel i j n : Nat}

theorem inBounds_append : InBounds (as ++ bs) ↔ InBounds as ∧ InBounds bs :=
  List.forall_mem_append

theorem inBounds_cons {a : Access} : InBounds (a :: as) ↔ a.index < a.array.size ∧ InBounds as :=
  List.forall_mem_cons

theorem inBounds_nil : InBounds [] := List.forall_mem_nil _

theorem inBounds_singleton {a : Access} : InBounds [a] ↔ a.index < a.array.size :=
  List.forall_mem_singleton

theorem inBounds_span : InBounds (span array i (n + 1)) ↔ i + n < array.size := by
  constructor
  · intro h
    exact h ⟨array, i + n⟩ (List.mem_map_of_mem (List.mem_range.mpr (Nat.lt_succ_self n)))
  · intro h a ha
    obtain ⟨k, hk, rfl⟩ := List.mem_map.mp ha
    rw [List.mem_range] at hk
    change i + k < array.size
    omega

theorem inBounds_copy (hj : j + limit ≤ dst.size) :
    InBounds (copyAccesses src dst stop mem limit i j) ↔
      i + (copyUntil stop mem limit i).length < src.size := by
  induction limit generalizing i j with
  | zero => exact inBounds_singleton
  | succ limit ih =>
    rw [copyAccesses, copyUntil, inBounds_cons]
    by_cases hs : stop (mem i) = true
    · rw [if_pos hs, if_pos hs]
      exact and_iff_left inBounds_nil
    · rw [if_neg hs, if_neg hs, inBounds_cons, inBounds_cons, ih (by omega), List.length_cons]
      change i < src.size ∧ i < src.size ∧ j < dst.size ∧ _ ↔ _
      omega

theorem inBounds_skip :
    InBounds (skipAccesses mem fuel i) ↔ skipSpace mem fuel i < bufSize := by
  induction fuel generalizing i with
  | zero => exact inBounds_singleton
  | succ fuel ih =>
    rw [skipAccesses, skipSpace, inBounds_cons]
    by_cases hs : isspace (mem i) = true
    · rw [if_pos hs, if_pos hs, ih]
      have hle := le_skipSpace mem fuel (i + 1)
      change i < bufSize ∧ _ ↔ _
      omega
    · rw [if_neg hs, if_neg hs]
      exact and_iff_left inBounds_nil

end InBounds

section Scanning

/-- Where a scan of words of at most `limits` bytes ends in `buf`: white space
is skipped between two words, and not beyond the array. -/
def scanEnd (mem : Memory) : List Nat → Nat → Nat
  | [], i => i
  | [n], i => i + (copyUntil isspace mem n i).length
  | n :: limits, i =>
    let j := i + (copyUntil isspace mem n i).length
    scanEnd mem limits (skipSpace mem (bufSize - j) j)

def Word (mem : Memory) (i j : Nat) : Prop := ∀ p, i ≤ p → p < j → isspace (mem p) = false

def Gap (mem : Memory) (i j : Nat) : Prop := ∀ p, i ≤ p → p < j → isspace (mem p) = true

/-- From `i` on, `buf` holds nothing but words of at most `limits` bytes, one of
each, and white space between them. -/
def WordsFill (mem : Memory) : List Nat → Nat → Prop
  | [], i => bufSize ≤ i
  | [n], i => bufSize ≤ i + n ∧ Word mem i bufSize
  | n :: limits, i => ∃ j k, i ≤ j ∧ j ≤ i + n ∧ Word mem i j ∧ j ≤ k ∧ k ≤ bufSize ∧ Gap mem j k ∧
      WordsFill mem limits k

variable {mem : Memory} {limit fuel i j k n : Nat}

theorem word_copyUntil (mem : Memory) (limit i : Nat) :
    Word mem i (i + (copyUntil isspace mem limit i).length) := by
  induction limit generalizing i with
  | zero =>
    intro p hi hp
    rw [copyUntil, List.length_nil] at hp
    omega
  | succ limit ih =>
    intro p hi hp
    rw [copyUntil] at hp
    by_cases hs : isspace (mem i) = true
    · rw [if_pos hs, List.length_nil] at hp
      omega
    · rw [if_neg hs, List.length_cons] at hp
      rcases Nat.lt_or_eq_of_le hi with hlt | rfl
      · exact ih (i + 1) p hlt (by omega)
      · exact Bool.eq_false_iff.mpr hs

theorem Word.le_copyUntil (h : Word mem i j) (hj : j ≤ i + limit) :
    j ≤ i + (copyUntil isspace mem limit i).length := by
  induction limit generalizing i with
  | zero => omega
  | succ limit ih =>
    by_cases hij : j ≤ i
    · omega
    · have hs : isspace (mem i) = false := h i le_rfl (by omega)
      have hnext := ih (i := i + 1) (fun p hp hpj => h p (by omega) hpj) (by omega)
      rw [copyUntil, hs, if_neg Bool.false_ne_true, List.length_cons]
      omega

theorem skipSpace_le (mem : Memory) (fuel i : Nat) : skipSpace mem fuel i ≤ i + fuel := by
  induction fuel generalizing i with
  | zero => exact le_rfl
  | succ fuel ih =>
    have hnext := ih (i + 1)
    rw [skipSpace]
    split
    · omega
    · omega

theorem gap_skipSpace (mem : Memory) (fuel i : Nat) : Gap mem i (skipSpace mem fuel i) := by
  induction fuel generalizing i with
  | zero =>
    intro p hi hp
    rw [skipSpace] at hp
    omega
  | succ fuel ih =>
    intro p hi hp
    rw [skipSpace] at hp
    by_cases hs : isspace (mem i) = true
    · rw [if_pos hs] at hp
      rcases Nat.lt_or_eq_of_le hi with hlt | rfl
      · exact ih (i + 1) p hlt hp
      · exact hs
    · rw [if_neg hs] at hp
      omega

theorem Gap.le_skipSpace (h : Gap mem i j) (hj : j ≤ i + fuel) : j ≤ skipSpace mem fuel i := by
  induction fuel generalizing i with
  | zero => exact hj
  | succ fuel ih =>
    by_cases hij : j ≤ i
    · exact hij.trans (LinuxStudy.le_skipSpace mem (fuel + 1) i)
    · have hs : isspace (mem i) = true := h i le_rfl (by omega)
      have hnext := ih (i := i + 1) (fun p hp hpj => h p (by omega) hpj) (by omega)
      rwa [skipSpace, if_pos hs]

theorem copyEnd_mono (mem : Memory) (limit : Nat) (h : i ≤ j) :
    i + (copyUntil isspace mem limit i).length ≤ j + (copyUntil isspace mem limit j).length := by
  have hword := word_copyUntil mem limit i
  have hlen := copyUntil_length_le isspace mem limit i
  by_cases hj : i + (copyUntil isspace mem limit i).length ≤ j
  · omega
  · exact Word.le_copyUntil (fun p hp hpj => hword p (h.trans hp) hpj) (by omega)

theorem skipEnd_mono (mem : Memory) (h : i ≤ j) :
    skipSpace mem (bufSize - i) i ≤ skipSpace mem (bufSize - j) j := by
  have hgap := gap_skipSpace mem (bufSize - i) i
  have hle := skipSpace_le mem (bufSize - i) i
  have hj := le_skipSpace mem (bufSize - j) j
  by_cases hend : skipSpace mem (bufSize - i) i ≤ j
  · omega
  · exact Gap.le_skipSpace (fun p hp hpj => hgap p (h.trans hp) hpj) (by omega)

theorem scanEnd_mono (mem : Memory) (limits : List Nat) (h : i ≤ j) :
    scanEnd mem limits i ≤ scanEnd mem limits j := by
  induction limits generalizing i j with
  | nil => exact h
  | cons n limits ih =>
    have hcopy := copyEnd_mono mem n h
    cases limits with
    | nil => exact hcopy
    | cons n' limits => exact ih (skipEnd_mono mem hcopy)

theorem wordsFill_end (mem : Memory) (limits : List Nat) : WordsFill mem limits bufSize := by
  induction limits with
  | nil => exact le_rfl
  | cons n limits ih =>
    cases limits with
    | nil => exact ⟨Nat.le_add_right _ n, fun p hp hpj => absurd hp (by omega)⟩
    | cons n' limits =>
      exact ⟨bufSize, bufSize, le_rfl, Nat.le_add_right _ n, fun p hp hpj => absurd hp (by omega),
        le_rfl, le_rfl, fun p hp hpj => absurd hp (by omega), ih⟩

/-- The scan comes to the end of the array exactly when the array has no more
than these words: a scan that starts later ends no earlier. -/
theorem wordsFill_iff (mem : Memory) (limits : List Nat) (hi : i ≤ bufSize) :
    WordsFill mem limits i ↔ bufSize ≤ scanEnd mem limits i := by
  induction limits generalizing i with
  | nil => exact Iff.rfl
  | cons n limits ih =>
    have hword := word_copyUntil mem n i
    have hlen := copyUntil_length_le isspace mem n i
    cases limits with
    | nil =>
      constructor
      · rintro ⟨hroom, hfill⟩
        exact hfill.le_copyUntil hroom
      · intro hend
        change bufSize ≤ i + (copyUntil isspace mem n i).length at hend
        exact ⟨by omega, fun p hp hpj => hword p hp (by omega)⟩
    | cons n' limits =>
      constructor
      · rintro ⟨j, k, hij, hjn, hw, hjk, hk, hg, hrest⟩
        have hj := hw.le_copyUntil hjn
        have hskip : k ≤ skipSpace mem (bufSize - j) j := hg.le_skipSpace (by omega)
        have hk' := hskip.trans (skipEnd_mono mem hj)
        exact ((ih hk).mp hrest).trans (scanEnd_mono mem (n' :: limits) hk')
      · intro hend
        by_cases hover : bufSize ≤ i + (copyUntil isspace mem n i).length
        · exact ⟨bufSize, bufSize, hi, by omega, fun p hp hpj => hword p hp (by omega), le_rfl,
            le_rfl, fun p hp hpj => absurd hp (by omega), wordsFill_end mem (n' :: limits)⟩
        · have hle := skipSpace_le mem (bufSize - (i + (copyUntil isspace mem n i).length))
            (i + (copyUntil isspace mem n i).length)
          have hk : skipSpace mem (bufSize - (i + (copyUntil isspace mem n i).length))
              (i + (copyUntil isspace mem n i).length) ≤ bufSize := by omega
          exact ⟨_, _, Nat.le_add_right i _, by omega, hword, le_skipSpace mem _ _, hk,
            gap_skipSpace mem _ _, (ih hk).mpr hend⟩

end Scanning

end LinuxStudy

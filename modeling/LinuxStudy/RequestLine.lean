import LinuxStudy.GetLine

/-! The request line as `Dealwithsock` takes it apart. Its arrays are locals
that hold whatever the stack held before the call. An array is a memory indexed
from its first byte; a position past its declared size is the memory after it,
so a scan that runs on reads on. -/

namespace LinuxStudy

abbrev Memory := Nat → Byte

/-- The arrays of `Dealwithsock` before anything is stored in them. -/
structure Locals where
  buf : Memory
  method : Memory
  url : Memory
  path : Memory

def Locals.const (c : Byte) : Locals := ⟨fun _ => c, fun _ => c, fun _ => c, fun _ => c⟩

def store (mem : Memory) (s : List Byte) : Memory := fun i => (s ++ [0])[i]?.getD (mem i)

/-- The bytes the scanning loops copy from position `i` on: at most `limit`,
and none from the first byte that stops the loop. -/
def copyUntil (stop : Byte → Bool) (mem : Memory) : Nat → Nat → List Byte
  | 0, _ => []
  | limit + 1, i => if stop (mem i) then [] else mem i :: copyUntil stop mem limit (i + 1)

/-- Where `while(isspace(buf[i]) && i < sizeof(buf)) i++` ends; `fuel` counts
`sizeof(buf) - i`. -/
def skipSpace (mem : Memory) : Nat → Nat → Nat
  | 0, i => i
  | fuel + 1, i => if isspace (mem i) then skipSpace mem fuel (i + 1) else i

/-- The C string at position `i` of an array with `room` bytes left. -/
def stringAt (mem : Memory) (room i : Nat) : List Byte := copyUntil (· == 0) mem room i

def bufSize : Nat := 102400

def questionMark : Byte := 63

def methodIs (name : String) (method : List Byte) : Bool := strcasecmpEq (bytes name) method

structure Request where
  method : List Byte
  url : List Byte
  /-- Set for GET only. -/
  path : Option (List Byte)
  /-- `query_string`, with `none` for the null pointer. -/
  query : Option (List Byte)
  cgi : Bool
  deriving DecidableEq

/-- What `Dealwithsock` makes of the method and the bytes stored in `url`. -/
def splitUrl (m : Locals) (method urlBytes : List Byte) : Request :=
  let url := store m.url urlBytes
  let pathBytes := copyUntil (· == questionMark) url 521 0
  let j := pathBytes.length
  let asked := methodIs "GET" method && url j == questionMark
  { method := method
    url := stringAt url 1024 0
    path := if methodIs "GET" method then some (stringAt (store m.path pathBytes) 522 0) else none
    query := if asked then some (stringAt url (1024 - (j + 1)) (j + 1)) else none
    cgi := methodIs "POST" method || asked }

/-- The scanning loops of `Dealwithsock` on the line that `get_line` stored. -/
def readRequest (m : Locals) (line : List Byte) : Request :=
  let buf := store m.buf line
  let methodBytes := copyUntil isspace buf 99 0
  let i := skipSpace buf (bufSize - methodBytes.length) methodBytes.length
  splitUrl m (stringAt (store m.method methodBytes) 100 0) (copyUntil isspace buf 1023 i)

theorem store_lt {mem : Memory} {s : List Byte} {i : Nat} (h : i < s.length) :
    store mem s i = s[i] := by
  simp [store, List.getElem?_append_left h, h]

@[simp] theorem store_length (mem : Memory) (s : List Byte) : store mem s s.length = 0 := by
  simp [store]

theorem store_gt {mem : Memory} {s : List Byte} {i : Nat} (h : s.length < i) :
    store mem s i = mem i := by
  have hn : (s ++ [0])[i]? = none := by
    rw [List.getElem?_eq_none_iff]
    simp; omega
  simp [store, hn]

theorem copyUntil_length_le (stop : Byte → Bool) (mem : Memory) (limit i : Nat) :
    (copyUntil stop mem limit i).length ≤ limit := by
  induction limit generalizing i with
  | zero => simp [copyUntil]
  | succ limit ih =>
    rw [copyUntil]
    split
    · simp
    · simpa using ih (i + 1)

theorem copyUntil_congr {stop : Byte → Bool} {a b : Memory} {limit i n : Nat}
    (hab : ∀ k ≤ n, a (i + k) = b (i + k)) (hn : limit ≤ n ∨ stop (a (i + n)) = true) :
    copyUntil stop a limit i = copyUntil stop b limit i := by
  induction limit generalizing i n with
  | zero => rfl
  | succ limit ih =>
    have h0 := hab 0 (Nat.zero_le n)
    simp only [Nat.add_zero] at h0
    rw [copyUntil, copyUntil, ← h0]
    by_cases hs : stop (a i) = true
    · rw [if_pos hs, if_pos hs]
    · rw [if_neg hs, if_neg hs]
      obtain ⟨n, rfl⟩ : ∃ n', n = n' + 1 := by
        cases n with
        | zero => exact absurd (by simpa using hn) hs
        | succ n => exact ⟨n, rfl⟩
      rw [ih (n := n)
        (fun k hk => by simpa [Nat.add_assoc, Nat.add_comm 1] using hab (k + 1) (by omega))
        (by simpa [Nat.add_assoc, Nat.add_comm 1] using hn)]

def scanText (stop : Byte → Bool) (s : List Byte) (limit i : Nat) : List Byte :=
  ((s.drop i).take limit).takeWhile (fun b => !stop b)

theorem scanText_succ {stop : Byte → Bool} {s : List Byte} {limit i : Nat} (h : i < s.length) :
    scanText stop s (limit + 1) i =
      if stop s[i] then [] else s[i] :: scanText stop s limit (i + 1) := by
  rw [scanText, List.drop_eq_getElem_cons h, List.take_succ_cons, List.takeWhile_cons, scanText]
  cases stop s[i] <;> rfl

theorem scanText_end (stop : Byte → Bool) {s : List Byte} (limit : Nat) {i : Nat}
    (h : s.length ≤ i) : scanText stop s limit i = [] := by
  simp [scanText, List.drop_eq_nil_of_le h]

theorem copyUntil_store (stop : Byte → Bool) (mem : Memory) (s : List Byte) (limit : Nat) {i : Nat}
    (hi : i ≤ s.length) :
    ∃ t, copyUntil stop (store mem s) limit i = scanText stop s limit i ++ t ∧
      (t = [] ∨ t.head? = some 0) := by
  induction limit generalizing i with
  | zero => exact ⟨[], by simp [copyUntil, scanText], .inl rfl⟩
  | succ limit ih =>
    rcases Nat.lt_or_eq_of_le hi with hlt | rfl
    · rw [copyUntil, scanText_succ hlt, store_lt hlt]
      by_cases hs : stop s[i] = true
      · exact ⟨[], by simp [hs], .inl rfl⟩
      · obtain ⟨t, ht, h0⟩ := ih hlt
        exact ⟨t, by simp [hs, ht], h0⟩
    · rw [copyUntil, scanText_end stop (limit + 1) (Nat.le_refl _), store_length]
      by_cases hs : stop 0 = true
      · exact ⟨[], by simp [hs], .inl rfl⟩
      · exact ⟨_, by rw [if_neg hs]; rfl, .inr rfl⟩

theorem copyUntil_store_ends (stop : Byte → Bool) (mem : Memory) (s : List Byte) {limit i : Nat}
    (h : limit ≤ s.length - i ∨ ∃ b ∈ (s.drop i).take limit, stop b = true) :
    copyUntil stop (store mem s) limit i = scanText stop s limit i := by
  induction limit generalizing i with
  | zero => simp [copyUntil, scanText]
  | succ limit ih =>
    have hlt : i < s.length := by
      rcases h with h | ⟨b, hb, -⟩
      · omega
      · by_contra hge
        simp [List.drop_eq_nil_of_le (Nat.le_of_not_lt hge)] at hb
    rw [copyUntil, scanText_succ hlt, store_lt hlt]
    by_cases hs : stop s[i] = true
    · simp [hs]
    · rw [if_neg hs, if_neg hs, ih]
      rcases h with h | ⟨b, hb, hstop⟩
      · exact .inl (by omega)
      · rw [List.drop_eq_getElem_cons hlt, List.take_succ_cons] at hb
        rcases List.mem_cons.mp hb with rfl | hb
        · exact absurd hstop hs
        · exact .inr ⟨b, hb, hstop⟩

/-- Otherwise it passes the NUL; over memory that holds one byte throughout, it
copies that byte up to its limit. -/
theorem copyUntil_store_passes {stop : Byte → Bool} {c : Byte} {s : List Byte} {limit i : Nat}
    (h0 : stop 0 = false) (hc : stop c = false) (hi : i ≤ s.length) (hlen : s.length - i < limit)
    (hs : ∀ b ∈ s.drop i, stop b = false) :
    copyUntil stop (store (fun _ => c) s) limit i =
      s.drop i ++ 0 :: List.replicate (limit - (s.length - i) - 1) c := by
  induction limit generalizing i with
  | zero => omega
  | succ limit ih =>
    rcases Nat.lt_or_eq_of_le hi with hlt | rfl
    · have hd := List.drop_eq_getElem_cons hlt
      rw [hd] at hs
      have hh := ih (i := i + 1) hlt (by omega) fun b hb => hs b (List.mem_cons_of_mem _ hb)
      have hsub : limit - (s.length - (i + 1)) - 1 = limit + 1 - (s.length - i) - 1 := by omega
      rw [copyUntil, store_lt hlt, hs s[i] List.mem_cons_self, if_neg Bool.false_ne_true, hh, hsub,
        hd, List.cons_append]
    · have hrun : ∀ n k, s.length < k →
          copyUntil stop (store (fun _ => c) s) n k = List.replicate n c := by
        intro n
        induction n with
        | zero => simp [copyUntil]
        | succ n ihn =>
          intro k hk
          rw [copyUntil, store_gt hk, hc, ihn (k + 1) (by omega)]
          rfl
      rw [copyUntil, store_length, h0, hrun limit _ (by omega)]
      simp

theorem le_skipSpace (mem : Memory) (fuel i : Nat) : i ≤ skipSpace mem fuel i := by
  induction fuel generalizing i with
  | zero => exact le_rfl
  | succ fuel ih =>
    rw [skipSpace]
    split
    · exact (Nat.le_succ i).trans (ih (i + 1))
    · exact le_rfl

theorem skipSpace_store (mem : Memory) (s : List Byte) {fuel i : Nat} (hi : i ≤ s.length)
    (hf : s.length - i ≤ fuel) :
    skipSpace (store mem s) fuel i = i + ((s.drop i).takeWhile isspace).length := by
  induction fuel generalizing i with
  | zero =>
    have hn : s.drop i = [] := List.drop_eq_nil_of_le (by omega)
    simp [skipSpace, hn]
  | succ fuel ih =>
    rcases Nat.lt_or_eq_of_le hi with hlt | rfl
    · rw [skipSpace, store_lt hlt, List.drop_eq_getElem_cons hlt, List.takeWhile_cons]
      by_cases hs : isspace s[i] = true
      · rw [if_pos hs, if_pos hs, ih (i := i + 1) hlt (by omega), List.length_cons]
        omega
      · simp [hs]
    · have h0 : isspace 0 = false := rfl
      simp [skipSpace, h0]

section Between

variable {stop : Byte → Bool} {pre tok rest : List Byte} {b : Byte} {limit : Nat}

theorem scanText_between (pre rest : List Byte) (htok : ∀ c ∈ tok, stop c = false)
    (hb : stop b = true) (hlen : tok.length ≤ limit) :
    scanText stop (pre ++ tok ++ b :: rest) limit pre.length = tok := by
  have hpass : ∀ c ∈ tok, (!stop c) = true := fun c hc => by rw [htok c hc]; rfl
  rw [scanText, List.append_assoc, List.drop_left, List.take_append,
    List.take_of_length_le hlen, List.takeWhile_append_of_pos hpass]
  cases limit - tok.length with
  | zero => simp
  | succ n => simp [hb]

/-- A scan that starts at a token copies it: the byte behind the token ends it,
or the limit does. -/
theorem copyUntil_between (mem : Memory) (pre rest : List Byte) (htok : ∀ c ∈ tok, stop c = false)
    (hb : stop b = true) (hlen : tok.length ≤ limit) :
    copyUntil stop (store mem (pre ++ tok ++ b :: rest)) limit pre.length = tok := by
  rw [copyUntil_store_ends]
  · exact scanText_between pre rest htok hb hlen
  · rcases Nat.lt_or_eq_of_le hlen with hlt | rfl
    · refine .inr ⟨b, ?_, hb⟩
      obtain ⟨n, hn⟩ : ∃ n, limit - tok.length = n + 1 := ⟨limit - tok.length - 1, by omega⟩
      rw [List.append_assoc, List.drop_left, List.take_append, hn, List.take_succ_cons]
      exact List.mem_append_right _ List.mem_cons_self
    · refine .inl ?_
      rw [List.length_append, List.length_append]
      omega

theorem skipSpace_between (mem : Memory) {gap : List Byte} {fuel : Nat}
    (hgap : ∀ c ∈ gap, isspace c = true) (hb : isspace b = false)
    (hfuel : (gap ++ b :: rest).length ≤ fuel) :
    skipSpace (store mem (pre ++ gap ++ b :: rest)) fuel pre.length = (pre ++ gap).length := by
  rw [List.append_assoc, skipSpace_store, List.drop_left, List.takeWhile_append_of_pos hgap,
    List.takeWhile_cons, hb, List.length_append]
  · simp
  · rw [List.length_append]
    exact Nat.le_add_right _ _
  · rw [List.length_append, Nat.add_sub_cancel_left]
    exact hfuel

end Between

theorem cstr_append_head_nul {s t : List Byte} (h : t = [] ∨ t.head? = some 0) :
    cstr (s ++ t) = cstr s := by
  rcases h with rfl | h
  · rw [List.append_nil]
  · obtain ⟨t, rfl⟩ : ∃ t', t = 0 :: t' := by
      cases t with
      | nil => simp at h
      | cons b t => exact ⟨t, by simpa using h⟩
    exact cstr_append_nul s t

theorem stringAt_store (mem : Memory) (s : List Byte) (room : Nat) {i : Nat} (hi : i ≤ s.length)
    (hroom : s.length - i < room) : stringAt (store mem s) room i = cstr (s.drop i) := by
  induction room generalizing i with
  | zero => omega
  | succ room ih =>
    rcases Nat.lt_or_eq_of_le hi with hlt | rfl
    · have hh := ih (i := i + 1) hlt (by omega)
      rw [stringAt, cstr] at hh
      rw [stringAt, copyUntil, store_lt hlt, cstr, List.drop_eq_getElem_cons hlt,
        List.takeWhile_cons, hh]
      by_cases hs : s[i] = 0
      · rw [hs]; rfl
      · rw [if_neg (by simpa using hs), if_pos (by simpa using hs)]
    · simp [stringAt, copyUntil]

theorem stringAt_whole (mem : Memory) {s : List Byte} {room : Nat} (h : s.length < room) :
    stringAt (store mem s) room 0 = cstr s := by
  rw [stringAt_store mem s room (Nat.zero_le _) h, List.drop_zero]

end LinuxStudy

import LinuxStudy.CText

/-! `get_line` of the HTTP server and the two loops that read a header block
with it. A connection is the bytes still to be received, then end-of-file.
`get_line` returns what it stored before the NUL, so its `int` result is the
length of the piece. -/

namespace LinuxStudy

/-- The loop of `get_line`; `room` counts `size - 1 - i`. Behind a CR the MSG_PEEK
shows whether a line feed is to be consumed with it. -/
def getLineLoop : Nat → List Byte → List Byte × List Byte
  | 0, s => ([], s)
  | _ + 1, [] => ([], [])
  | room + 1, c :: s =>
    if c = cr then
      match s with
      | [] => ([lf], [])
      | d :: s' => if d = lf then ([lf], s') else ([lf], d :: s')
    else if c = lf then ([lf], s)
    else (c :: (getLineLoop room s).1, (getLineLoop room s).2)

def getLine (size : Nat) (s : List Byte) : List Byte × List Byte := getLineLoop (size - 1) s

theorem getLineLoop_le (room : Nat) (s : List Byte) :
    (getLineLoop room s).1.length ≤ room := by
  induction room generalizing s with
  | zero => simp [getLineLoop]
  | succ room ih =>
    cases s with
    | nil => simp [getLineLoop]
    | cons c s =>
      have hh := ih s
      by_cases hc : c = cr
      · cases s with
        | nil => simp [getLineLoop, hc]
        | cons d s => by_cases hd : d = lf <;> simp [getLineLoop, hc, hd]
      · by_cases hl : c = lf
        · simp [getLineLoop, hl, lf, cr]
        · simpa [getLineLoop, hc, hl] using hh

theorem getLineLoop_length (room : Nat) (s : List Byte) :
    (getLineLoop room s).1.length + (getLineLoop room s).2.length ≤ s.length := by
  induction room generalizing s with
  | zero => simp [getLineLoop]
  | succ room ih =>
    cases s with
    | nil => simp [getLineLoop]
    | cons c s =>
      have hh := ih s
      by_cases hc : c = cr
      · cases s with
        | nil => simp [getLineLoop, hc]
        | cons d s =>
          by_cases hd : d = lf
          · simp [getLineLoop, hc, hd]; omega
          · simp [getLineLoop, hc, hd]; omega
      · by_cases hl : c = lf
        · simp [getLineLoop, hl, lf, cr]; omega
        · simp only [getLineLoop, hc, hl, if_false, List.length_cons]
          omega

theorem getLineLoop_within {room : Nat} {t : List Byte} (s : List Byte)
    (ht : ∀ b ∈ t, b ≠ cr ∧ b ≠ lf) (hlen : t.length ≤ room) :
    getLineLoop room (t ++ s) =
      (t ++ (getLineLoop (room - t.length) s).1, (getLineLoop (room - t.length) s).2) := by
  induction t generalizing room with
  | nil => simp
  | cons c t ih =>
    obtain ⟨room, rfl⟩ : ∃ r, room = r + 1 := ⟨room - 1, by simp at hlen; omega⟩
    have hc := ht c (by simp)
    have hh := ih (fun b hb => ht b (by simp [hb])) (by simpa using hlen)
    simp only [List.cons_append, getLineLoop, hc.1, hc.2, if_false, hh, List.length_cons,
      Nat.add_sub_add_right]

theorem getLine_rest_lt {size : Nat} {s : List Byte} (h : 0 < (getLine size s).1.length) :
    (getLine size s).2.length < s.length := by
  have hh := getLineLoop_length (size - 1) s
  unfold getLine at h ⊢
  omega

/-- The `do … while` loops over pieces of a 1024-byte buffer: `go` is the test
on the piece just read, `f` what the body keeps of it. Both loops also stop on
an empty piece, which is end-of-file. -/
def pieceLoop {α : Type*} (go : List Byte → Bool) (f : α → List Byte → α) (a : α) (s : List Byte) :
    α × List Byte :=
  if 0 < (getLine 1024 s).1.length ∧ go (getLine 1024 s).1 = true then
    pieceLoop go f (f a (getLine 1024 s).1) (getLine 1024 s).2
  else (f a (getLine 1024 s).1, (getLine 1024 s).2)
termination_by s.length
decreasing_by exact getLine_rest_lt (by omega)

/-- `ret > 0 && strcmp("\n", buf)`, the first half being in `pieceLoop`. -/
def clearTest (buf : List Byte) : Bool := !strcmpEq (bytes "\n") buf

/-- `ret > 1 && strcmp("\n", buf) != 0`. -/
def postTest (buf : List Byte) : Bool := 1 < buf.length && !strcmpEq (bytes "\n") buf

def lengthField : List Byte := bytes "Content-Length: "

def readLength (len : Int) (buf : List Byte) : Int :=
  if strncmpEq lengthField buf 16 then atoi (buf.drop 16) else len

def clearHeader (s : List Byte) : List Byte := (pieceLoop clearTest (fun _ _ => ()) () s).2

/-- The POST loop of `echo_cgi`: the final `len` and what is left unread. -/
def headerLoop (s : List Byte) : Int × List Byte := pieceLoop postTest readLength 0 s

end LinuxStudy

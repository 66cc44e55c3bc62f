import LinuxStudy.GetLine

/-! Where the two header scanners stop on a well-formed header block. They
test pieces of at most 1023 bytes, so a line whose length is a multiple of
1023 ends in a piece that is a lone newline and passes for the empty line. -/

namespace LinuxStudy

def terminator (crlf : Bool) : List Byte := if crlf then [cr, lf] else [lf]

/-- A header line: its text is not empty and holds no CR, LF or NUL. -/
structure HeaderLine where
  text : List Byte
  crlf : Bool
  ne : text ≠ []
  plain : ∀ b ∈ text, b ≠ cr ∧ b ≠ lf ∧ b ≠ 0

def HeaderLine.bytes (h : HeaderLine) : List Byte := h.text ++ terminator h.crlf

def requestBytes (hs : List HeaderLine) (crlf : Bool) (body : List Byte) : List Byte :=
  hs.flatMap HeaderLine.bytes ++ (terminator crlf ++ body)

/-- A text cut every `n + 1` bytes, as `get_line` cuts a long line. -/
def cutEvery (n : Nat) (t : List Byte) : List (List Byte) :=
  if t.length ≤ n + 1 then [t] else t.take (n + 1) :: cutEvery n (t.drop (n + 1))
termination_by t.length

/-- The value of the last of some texts that starts with `Content-Length: `. -/
def declaredLength (ts : List (List Byte)) : Int := ts.foldl readLength 0

/-- The lines up to the first whose length is a multiple of 1023. -/
def scannedLines : List HeaderLine → List HeaderLine
  | [] => []
  | h :: hs => if 1023 ∣ h.text.length then [h] else h :: scannedLines hs

/-- What stands behind the newline that passes for the empty line. -/
def unreadPart : List HeaderLine → Bool → List Byte → List Byte
  | [], _, body => body
  | h :: hs, crlf, body =>
    if 1023 ∣ h.text.length then requestBytes hs crlf body else unreadPart hs crlf body

theorem scannedLines_eq {hs : List HeaderLine} (h : ∀ x ∈ hs, ¬ 1023 ∣ x.text.length) :
    scannedLines hs = hs := by
  induction hs with
  | nil => rfl
  | cons x hs ih =>
    rw [scannedLines, if_neg (h x List.mem_cons_self),
      ih fun y hy => h y (List.mem_cons_of_mem x hy)]

theorem unreadPart_eq {hs : List HeaderLine} (h : ∀ x ∈ hs, ¬ 1023 ∣ x.text.length) (crlf : Bool)
    (body : List Byte) : unreadPart hs crlf body = body := by
  induction hs with
  | nil => rfl
  | cons x hs ih =>
    rw [unreadPart, if_neg (h x List.mem_cons_self), ih fun y hy => h y (List.mem_cons_of_mem x hy)]

theorem length_lt_requestBytes (hs : List HeaderLine) (crlf : Bool) (body : List Byte) :
    body.length < (requestBytes hs crlf body).length := by
  have hterm : 0 < (terminator crlf).length := by cases crlf <;> simp [terminator]
  simp only [requestBytes, List.length_append]
  omega

theorem length_lt_unreadPart {hs : List HeaderLine} (h : ∃ x ∈ hs, 1023 ∣ x.text.length)
    (crlf : Bool) (body : List Byte) : body.length < (unreadPart hs crlf body).length := by
  induction hs with
  | nil => simp at h
  | cons x hs ih =>
    rw [unreadPart]
    by_cases hd : 1023 ∣ x.text.length
    · rw [if_pos hd]
      exact length_lt_requestBytes hs crlf body
    · rw [if_neg hd]
      obtain ⟨y, hy, hdvd⟩ := h
      rcases List.mem_cons.mp hy with rfl | hy
      · exact absurd hdvd hd
      · exact ih ⟨y, hy, hdvd⟩

theorem getLineLoop_cut {room : Nat} {t : List Byte} (s : List Byte)
    (ht : ∀ b ∈ t, b ≠ cr ∧ b ≠ lf) (hlen : room ≤ t.length) :
    getLineLoop room (t ++ s) = (t.take room, t.drop room ++ s) := by
  have hh := getLineLoop_within (t.drop room ++ s)
    (fun b hb => ht b (List.mem_of_mem_take hb)) (List.length_take_le room t)
  rw [← List.append_assoc, List.take_append_drop] at hh
  rw [hh]
  simp [Nat.min_eq_left hlen, getLineLoop]

theorem getLineLoop_terminator (room : Nat) (crlf : Bool) (s : List Byte) :
    getLineLoop (room + 1) (terminator crlf ++ s) = ([lf], s) := by
  cases crlf with
  | true => simp [terminator, getLineLoop]
  | false => simp [terminator, getLineLoop, lf, cr]

section Line

variable {α : Type*} {go : List Byte → Bool} {f : α → List Byte → α}

theorem pieceLoop_go {a : α} {s p r : List Byte} (hs : getLine 1024 s = (p, r))
    (hp : p ≠ []) (hgo : go p = true) : pieceLoop go f a s = pieceLoop go f (f a p) r := by
  rw [pieceLoop]
  simp [hs, List.length_pos_iff.mpr hp, hgo]

theorem pieceLoop_stop {a : α} {s p r : List Byte} (hs : getLine 1024 s = (p, r))
    (hgo : go p = false) : pieceLoop go f a s = (f a p, r) := by
  rw [pieceLoop]
  simp [hs, hgo]

theorem pieceLoop_terminator (hlf : go [lf] = false) (flf : ∀ a, f a [lf] = a) (a : α)
    (crlf : Bool) (s : List Byte) : pieceLoop go f a (terminator crlf ++ s) = (a, s) := by
  rw [pieceLoop_stop (getLineLoop_terminator 1022 crlf s) hlf, flf]

/-- What a loop does on one line. It goes on to the next line unless the length
is a multiple of 1023, and then stops on the newline that is left over. -/
theorem pieceLoop_line (hlf : go [lf] = false)
    (hgo : ∀ p, 1 < p.length → p.head? ≠ some lf → go p = true) (flf : ∀ a, f a [lf] = a)
    (fend : ∀ a p, (∀ b ∈ p, b ≠ 0) → f a (p ++ [lf]) = f a p)
    (t : List Byte) (hne : t ≠ []) (ht : ∀ b ∈ t, b ≠ cr ∧ b ≠ lf ∧ b ≠ 0)
    (a : α) (crlf : Bool) (s : List Byte) :
    pieceLoop go f a (t ++ (terminator crlf ++ s)) =
      if 1023 ∣ t.length then ((cutEvery 1022 t).foldl f a, s)
      else pieceLoop go f ((cutEvery 1022 t).foldl f a) s := by
  have hpos : 0 < t.length := List.length_pos_iff.mpr hne
  have ht' : ∀ b ∈ t, b ≠ cr ∧ b ≠ lf := fun b hb => ⟨(ht b hb).1, (ht b hb).2.1⟩
  have hhead : t.head? ≠ some lf := fun hh => (ht lf (List.mem_of_head? hh)).2.1 rfl
  rcases lt_trichotomy t.length 1023 with hlt | heq | hgt
  · have hline : getLine 1024 (t ++ (terminator crlf ++ s)) = (t ++ [lf], s) := by
      have hh := getLineLoop_within (terminator crlf ++ s) ht' hlt.le
      rwa [show 1023 - t.length = (1022 - t.length) + 1 by omega, getLineLoop_terminator] at hh
    have hgo' : go (t ++ [lf]) = true :=
      hgo _ (by simp; omega) (by rwa [List.head?_append, Option.or_of_isSome (by simpa using hne)])
    have hndvd : ¬ 1023 ∣ t.length := fun hd => absurd (Nat.le_of_dvd hpos hd) (by omega)
    rw [pieceLoop_go hline (by simp) hgo', if_neg hndvd, cutEvery, if_pos hlt.le,
      fend a t fun c hc => (ht c hc).2.2]
    rfl
  · have hline : getLine 1024 (t ++ (terminator crlf ++ s)) = (t, terminator crlf ++ s) := by
      have hh := getLineLoop_cut (terminator crlf ++ s) ht' heq.ge
      rwa [List.take_of_length_le heq.le, List.drop_eq_nil_of_le heq.le] at hh
    rw [pieceLoop_go hline hne (hgo t (by omega) hhead), pieceLoop_terminator hlf flf,
      if_pos (heq ▸ Nat.dvd_refl 1023), cutEvery, if_pos heq.le]
    rfl
  · have hline : getLine 1024 (t ++ (terminator crlf ++ s)) =
        (t.take 1023, t.drop 1023 ++ (terminator crlf ++ s)) := getLineLoop_cut _ ht' hgt.le
    have hlen : (t.take 1023).length = 1023 := List.length_take_of_le hgt.le
    have hgo' : go (t.take 1023) = true := hgo _ (by omega) (by simpa [List.head?_take] using hhead)
    have hrest : t.drop 1023 ≠ [] := by simpa [List.drop_eq_nil_iff] using hgt
    have hih := pieceLoop_line hlf hgo flf fend (t.drop 1023) hrest
      (fun c hc => ht c (List.mem_of_mem_drop hc)) (f a (t.take 1023)) crlf s
    have hdvd : 1023 ∣ (t.drop 1023).length ↔ 1023 ∣ t.length := by
      rw [List.length_drop, Nat.dvd_sub_iff_left hgt.le (Nat.dvd_refl 1023)]
    rw [pieceLoop_go hline (List.ne_nil_of_length_pos (by omega)) hgo', hih, cutEvery.eq_def 1022 t,
      if_neg (by omega : ¬ t.length ≤ 1022 + 1)]
    simp only [hdvd, List.foldl_cons, Nat.reduceAdd]
termination_by t.length
decreasing_by simp only [List.length_drop]; omega

/-- Both loops read the scanned lines, cut into pieces, and leave the rest. -/
theorem pieceLoop_scanned (go : List Byte → Bool) (f : α → List Byte → α) (hlf : go [lf] = false)
    (hgo : ∀ p, 1 < p.length → p.head? ≠ some lf → go p = true) (flf : ∀ a, f a [lf] = a)
    (fend : ∀ a p, (∀ b ∈ p, b ≠ 0) → f a (p ++ [lf]) = f a p)
    (hs : List HeaderLine) (a : α) (crlf : Bool) (body : List Byte) :
    pieceLoop go f a (requestBytes hs crlf body) =
      (((scannedLines hs).flatMap fun h => cutEvery 1022 h.text).foldl f a,
        unreadPart hs crlf body) := by
  induction hs generalizing a with
  | nil => exact pieceLoop_terminator hlf flf a crlf body
  | cons h hs ih =>
    have hline := pieceLoop_line hlf hgo flf fend h.text h.ne h.plain a h.crlf
      (requestBytes hs crlf body)
    have hcons : requestBytes (h :: hs) crlf body =
        h.text ++ (terminator h.crlf ++ requestBytes hs crlf body) := by
      simp [requestBytes, HeaderLine.bytes, List.append_assoc]
    rw [hcons, hline, scannedLines, unreadPart]
    by_cases hd : 1023 ∣ h.text.length
    · rw [if_pos hd, if_pos hd, if_pos hd, List.flatMap_singleton]
    · rw [if_neg hd, if_neg hd, if_neg hd, ih, List.flatMap_cons, List.foldl_append]

end Line

theorem strcmpEq_newline {p : List Byte} (h : p.head? ≠ some lf) :
    strcmpEq (bytes "\n") p = false := by
  cases p with
  | nil => rfl
  | cons b p =>
    have hb : b ≠ 10 := by simpa [lf] using h
    have hn : cstr (bytes "\n") = [10] := rfl
    rw [strcmpEq, hn, beq_eq_false_iff_ne]
    by_cases h0 : b = 0
    · simp [cstr, h0]
    · simp [cstr, h0, hb.symm]

theorem clearTest_of_head {p : List Byte} (h : p.head? ≠ some lf) : clearTest p = true := by
  simp [clearTest, strcmpEq_newline h]

theorem postTest_of_head {p : List Byte} (hlen : 1 < p.length) (h : p.head? ≠ some lf) :
    postTest p = true := by
  simp [postTest, hlen, strcmpEq_newline h]

theorem readLength_lf (len : Int) : readLength len [lf] = len := rfl

theorem strncmpEq_length_iff {p : List Byte} (h : ∀ b ∈ p, b ≠ 0) :
    strncmpEq lengthField p 16 = true ↔ p.take 16 = lengthField := by
  have hc : (cstr lengthField).take 16 = lengthField := rfl
  rw [strncmpEq, hc, cstr_of_plain h, beq_iff_eq, eq_comm]

theorem readLength_append_lf (len : Int) (p : List Byte) (h : ∀ b ∈ p, b ≠ 0) :
    readLength len (p ++ [lf]) = readLength len p := by
  have hlf : ∀ b ∈ p ++ [lf], b ≠ 0 := by
    intro b hb
    rcases List.mem_append.mp hb with hb | hb
    · exact h b hb
    · rw [List.mem_singleton.mp hb]; decide
  by_cases hlen : 16 ≤ p.length
  · have htake : (p ++ [lf]).take 16 = p.take 16 := List.take_append_of_le_length hlen
    have heq : strncmpEq lengthField (p ++ [lf]) 16 = strncmpEq lengthField p 16 := by
      rw [Bool.eq_iff_iff, strncmpEq_length_iff hlf, strncmpEq_length_iff h, htake]
    rw [readLength, readLength, heq, List.drop_append_of_le_length hlen,
      atoi_append_lf _ fun b hb => h b (List.mem_of_mem_drop hb)]
  · have hno : strncmpEq lengthField p 16 = false := by
      rw [Bool.eq_false_iff, Ne, strncmpEq_length_iff h]
      intro he
      have := congrArg List.length he
      rw [List.length_take] at this
      have hl : lengthField.length = 16 := rfl
      omega
    have hno' : strncmpEq lengthField (p ++ [lf]) 16 = false := by
      rw [Bool.eq_false_iff, Ne, strncmpEq_length_iff hlf, List.take_of_length_le (by simp; omega)]
      intro he
      have hm : lf ∈ lengthField := by rw [← he]; simp
      exact absurd hm (by decide)
    simp [readLength, hno, hno']

theorem clearHeader_block (hs : List HeaderLine) (crlf : Bool) (body : List Byte) :
    clearHeader (requestBytes hs crlf body) = unreadPart hs crlf body := by
  have hclear := pieceLoop_scanned clearTest (fun _ _ => ()) rfl
    (fun p _ => clearTest_of_head) (fun _ => rfl) (fun _ _ _ => rfl) hs () crlf body
  exact congrArg Prod.snd hclear

theorem headerLoop_block (hs : List HeaderLine) (crlf : Bool) (body : List Byte) :
    headerLoop (requestBytes hs crlf body) =
      (declaredLength ((scannedLines hs).flatMap fun h => cutEvery 1022 h.text),
        unreadPart hs crlf body) :=
  pieceLoop_scanned postTest readLength rfl (fun _ => postTest_of_head) readLength_lf
    readLength_append_lf hs 0 crlf body

/-- Both scanners stop at the body, and the POST loop has the length the header
lines declare, exactly when no line length is a multiple of 1023 and the last
1023-byte cut of a line that starts with the field name has the value of the
last line that does. -/
theorem header_framing_iff (hs : List HeaderLine) (crlf : Bool) (body : List Byte) :
    (clearHeader (requestBytes hs crlf body) = body ∧
      headerLoop (requestBytes hs crlf body) = (declaredLength (hs.map HeaderLine.text), body)) ↔
    (∀ h ∈ hs, ¬ 1023 ∣ h.text.length) ∧
      declaredLength (hs.flatMap fun h => cutEvery 1022 h.text) =
        declaredLength (hs.map HeaderLine.text) := by
  rw [clearHeader_block, headerLoop_block]
  by_cases hlen : ∀ h ∈ hs, ¬ 1023 ∣ h.text.length
  · rw [and_iff_right hlen, scannedLines_eq hlen, unreadPart_eq hlen, Prod.mk.injEq]
    exact ⟨fun h => h.2.1, fun h => ⟨rfl, h, rfl⟩⟩
  · have hearly := length_lt_unreadPart (by simpa using hlen) crlf body
    constructor
    · rintro ⟨hc, -⟩
      rw [hc] at hearly
      exact absurd hearly (lt_irrefl _)
    · rintro ⟨hc, -⟩
      exact absurd hc hlen

theorem declaredLength_cut_short (hs : List HeaderLine) (h : ∀ x ∈ hs, x.text.length < 1023) :
    declaredLength (hs.flatMap fun x => cutEvery 1022 x.text) =
      declaredLength (hs.map HeaderLine.text) := by
  congr 1
  induction hs with
  | nil => rfl
  | cons x hs ih =>
    have hx : cutEvery 1022 x.text = [x.text] := by
      rw [cutEvery, if_pos (h x (by simp)).le]
    rw [List.flatMap_cons, hx, ih (fun y hy => h y (by simp [hy]))]
    rfl

def fullPieceLine : HeaderLine where
  text := List.replicate 1023 97
  crlf := false
  ne := List.ne_nil_of_length_pos (by rw [List.length_replicate]; omega)
  plain := by
    intro b hb
    rw [List.eq_of_mem_replicate hb]
    decide

theorem header_framing_full_piece :
    ¬ (clearHeader (requestBytes [fullPieceLine] false []) = [] ∧
      headerLoop (requestBytes [fullPieceLine] false []) =
        (declaredLength [fullPieceLine.text], [])) := by
  rintro ⟨hc, -⟩
  have hdvd : 1023 ∣ fullPieceLine.text.length := ⟨1, List.length_replicate⟩
  have hearly := length_lt_unreadPart ⟨fullPieceLine, List.mem_singleton_self _, hdvd⟩ false []
  rw [← clearHeader_block, hc] at hearly
  exact absurd hearly (lt_irrefl _)

end LinuxStudy

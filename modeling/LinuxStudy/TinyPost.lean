import LinuxStudy.BodyRelay
import LinuxStudy.TinyServer

/-! A POST request of the tiny server. The loop over the header lines compares
their first 15 bytes, and reads the number from the 17th on; a line that the end
of the file cuts off behind the 15th leaves the number to what the array held. -/

namespace LinuxStudy

/-- What the loop makes of a piece that ends in its own array. -/
def tinyRead (len : Int) (p : List Byte) : Int :=
  if strcasecmpEq (p.take 15) contentLength then atoi (p.drop 16) else len

/-- The value of the last of some texts with the field name in any case. -/
def tinyDeclared (ts : List (List Byte)) : Int := ts.foldl tinyRead (-1)

section Piece

variable (buf : Memory) {p : List Byte}

theorem update_store_long (h : 15 ≤ p.length) :
    Function.update (store buf p) 15 0 = store (store buf p) (p.take 15) := by
  have hlen : (p.take 15).length = 15 := List.length_take_of_le h
  funext i
  rcases lt_trichotomy i 15 with hlt | rfl | hgt
  · rw [Function.update_of_ne (Nat.ne_of_lt hlt), store_lt (hlt.trans_le h),
      store_lt (hlt.trans_eq hlen.symm), List.getElem_take]
  · have hnul := store_length (store buf p) (p.take 15)
    rw [hlen] at hnul
    rw [Function.update_self, hnul]
  · rw [Function.update_of_ne (Nat.ne_of_gt hgt), store_gt (hlen.trans_lt hgt)]

theorem update_store_short (h : p.length < 15) :
    Function.update (store buf p) 15 0 = store (Function.update buf 15 0) p := by
  funext i
  rcases Nat.lt_or_ge p.length i with hgt | hle
  · rw [store_gt hgt]
    by_cases hi : i = 15
    · rw [hi, Function.update_self, Function.update_self]
    · rw [Function.update_of_ne hi, Function.update_of_ne hi, store_gt hgt]
  · rw [Function.update_of_ne (by omega)]
    rcases Nat.lt_or_eq_of_le hle with hlt | rfl
    · rw [store_lt hlt, store_lt hlt]
    · rw [store_length, store_length]

/-- The name that is compared is the first 15 bytes of the line. -/
theorem stringAt_name (h0 : ∀ b ∈ p, b ≠ 0) :
    stringAt (Function.update (store buf p) 15 0) 1024 0 = p.take 15 := by
  rcases Nat.lt_or_ge p.length 15 with hlt | hge
  · rw [update_store_short buf hlt, stringAt_whole _ (by omega), cstr_of_plain h0,
      List.take_of_length_le hlt.le]
  · rw [update_store_long buf hge, stringAt_whole _ (by rw [List.length_take]; omega)]
    exact cstr_of_plain fun b hb => h0 b (List.mem_of_mem_take hb)

/-- The number is read from the line if that goes so far. -/
theorem stringAt_value (h0 : ∀ b ∈ p, b ≠ 0) (hlo : 16 ≤ p.length) (hhi : p.length ≤ 1023) :
    stringAt (Function.update (store buf p) 15 0) 1008 16 = p.drop 16 := by
  have hsame : stringAt (Function.update (store buf p) 15 0) 1008 16 =
      stringAt (store buf p) 1008 16 :=
    copyUntil_congr (n := 1008) (fun k _ => Function.update_of_ne (by omega) _ _)
      (.inl (Nat.le_refl 1008))
  rw [hsame, stringAt_store buf p 1008 hlo (by omega)]
  exact cstr_of_plain fun b hb => h0 b (List.mem_of_mem_drop hb)

theorem name_length {t : List Byte} (h0 : ∀ b ∈ t, b ≠ 0)
    (h : strcasecmpEq t contentLength = true) : t.length = 15 ∧ lf ∉ t := by
  have hname : cstr contentLength = contentLength := by decide
  have hlow : lf ∉ contentLength.map tolower := by decide
  rw [strcasecmpEq, cstr_of_plain h0, hname, beq_iff_eq] at h
  refine ⟨?_, fun hmem => hlow ?_⟩
  · have hlen := congrArg List.length h
    rw [List.length_map, List.length_map] at hlen
    exact hlen.trans (by decide)
  · rw [← h]
    exact List.mem_map_of_mem (f := tolower) hmem

/-- The loop reads a piece so when it ends in a line feed or fills the array. -/
theorem tinyRead_eq (h0 : ∀ b ∈ p, b ≠ 0) (hlen : p.length ≤ 1023)
    (hend : lf ∈ p ∨ p.length = 1023) (len : Int) :
    (if strcasecmpEq (stringAt (Function.update (store buf p) 15 0) 1024 0) contentLength then
      atoi (stringAt (Function.update (store buf p) 15 0) 1008 16) else len) = tinyRead len p := by
  rw [stringAt_name buf h0, tinyRead]
  split
  · rename_i hname
    obtain ⟨hname, hlf⟩ := name_length (fun b hb => h0 b (List.mem_of_mem_take hb)) hname
    rw [List.length_take] at hname
    have hlong : 16 ≤ p.length := by
      rcases hend with hmem | hfull
      · by_contra hshort
        rw [List.take_of_length_le (by omega)] at hlf
        exact hlf hmem
      · omega
    rw [stringAt_value buf h0 hlong hlen]
  · rfl

end Piece

theorem tinyRead_append_lf (len : Int) {t : List Byte} (h0 : ∀ b ∈ t, b ≠ 0) :
    tinyRead len (t ++ [lf]) = tinyRead len t := by
  have hlf : ∀ b ∈ t ++ [lf], b ≠ 0 := by
    intro b hb
    rcases List.mem_append.mp hb with hb | hb
    · exact h0 b hb
    · rw [List.mem_singleton.mp hb]
      decide
  rcases Nat.lt_or_ge t.length 15 with hlt | hge
  · have hno : ∀ p : List Byte, (∀ b ∈ p, b ≠ 0) → lf ∈ p ∨ p.length < 15 →
        strcasecmpEq p contentLength = false := by
      intro p hp hshort
      rw [Bool.eq_false_iff]
      intro hname
      obtain ⟨hlen, hmem⟩ := name_length hp hname
      rcases hshort with h | h
      · exact hmem h
      · omega
    have hwhole : (t ++ [lf]).take 15 = t ++ [lf] := List.take_of_length_le (by simp; omega)
    rw [tinyRead, tinyRead, hwhole, List.take_of_length_le hlt.le, hno t h0 (.inr hlt),
      hno (t ++ [lf]) hlf (.inl (by simp))]
    rfl
  · rw [tinyRead, tinyRead, List.take_append_of_le_length hge]
    rcases Nat.eq_or_lt_of_le hge with heq | hgt
    · have hend : (t ++ [lf]).drop 16 = [] := List.drop_eq_nil_of_le (by simp; omega)
      have hend' : t.drop 16 = [] := List.drop_eq_nil_of_le (by omega)
      rw [hend, hend']
    · rw [List.drop_append_of_le_length hgt,
        atoi_append_lf _ fun b hb => h0 b (List.mem_of_mem_drop hb)]

theorem getLine_line {t : List Byte} (ht : ∀ b ∈ t, b ≠ cr ∧ b ≠ lf ∧ b ≠ 0) (crlf : Bool)
    (s : List Byte) : getLine 1024 (t ++ (terminator crlf ++ s)) =
      if t.length < 1023 then (t ++ [lf], s)
      else (t.take 1023, t.drop 1023 ++ (terminator crlf ++ s)) := by
  have ht' : ∀ b ∈ t, b ≠ cr ∧ b ≠ lf := fun b hb => ⟨(ht b hb).1, (ht b hb).2.1⟩
  split
  · rename_i hlt
    have hline := getLineLoop_within (terminator crlf ++ s) ht' hlt.le
    rwa [show 1023 - t.length = (1022 - t.length) + 1 by omega, getLineLoop_terminator] at hline
  · exact getLineLoop_cut _ ht' (by omega)

theorem tinyLength_go (buf : Memory) (len : Int) {s p r : List Byte}
    (hs : getLine 1024 s = (p, r)) (hne : p ≠ []) (hgo : clearTest p = true)
    (h0 : ∀ b ∈ p, b ≠ 0) (hend : lf ∈ p ∨ p.length = 1023) (hlen : p.length ≤ 1023) :
    ∃ buf', tinyLength buf len s = tinyLength buf' (tinyRead len p) r := by
  refine ⟨Function.update (store buf p) 15 0, ?_⟩
  rw [tinyLength, hs]
  simp only [List.length_pos_iff.mpr hne, hgo, and_self, if_true]
  rw [tinyRead_eq buf h0 hlen hend]

theorem tinyRead_nil (len : Int) : tinyRead len [] = len := by
  have hno : strcasecmpEq [] contentLength = false := by decide
  rw [tinyRead, List.take_nil, hno]
  rfl

/-- What the loop does on one line, as `pieceLoop_line` says of the other two. -/
theorem tinyLength_line (t : List Byte) (ht : ∀ b ∈ t, b ≠ cr ∧ b ≠ lf ∧ b ≠ 0) (buf : Memory)
    (len : Int) (crlf : Bool) (s : List Byte) :
    ∃ buf', tinyLength buf len (t ++ (terminator crlf ++ s)) =
      if 1023 ∣ t.length then ((cutEvery 1022 t).foldl tinyRead len, s)
      else tinyLength buf' ((cutEvery 1022 t).foldl tinyRead len) s := by
  have h0 : ∀ b ∈ t, b ≠ 0 := fun b hb => (ht b hb).2.2
  have hhead : t.head? ≠ some lf := fun hh => (ht lf (List.mem_of_head? hh)).2.1 rfl
  have hline := getLine_line ht crlf s
  by_cases hlt : t.length < 1023
  · rw [if_pos hlt] at hline
    have hcut : cutEvery 1022 t = [t] := by rw [cutEvery, if_pos hlt.le]
    rw [hcut, List.foldl_cons, List.foldl_nil]
    by_cases hne : t = []
    · rw [hne] at hline ⊢
      refine ⟨buf, ?_⟩
      rw [tinyLength, hline, tinyRead_nil]
      rfl
    · have hndvd : ¬ 1023 ∣ t.length := fun hd =>
        absurd (Nat.le_of_dvd (List.length_pos_iff.mpr hne) hd) (by omega)
      have hgo : clearTest (t ++ [lf]) = true := clearTest_of_head
        (by rwa [List.head?_append, Option.or_of_isSome (by simpa using hne)])
      have hplain : ∀ b ∈ t ++ [lf], b ≠ 0 := by
        intro b hb
        rcases List.mem_append.mp hb with hb | hb
        · exact h0 b hb
        · rw [List.mem_singleton.mp hb]
          decide
      obtain ⟨buf', hstep⟩ := tinyLength_go buf len hline (by simp) hgo hplain (.inl (by simp))
        (by simp; omega)
      exact ⟨buf', by rw [hstep, tinyRead_append_lf len h0, if_neg hndvd]⟩
  · rw [if_neg hlt] at hline
    have hlen : (t.take 1023).length = 1023 := List.length_take_of_le (by omega)
    have hgo : clearTest (t.take 1023) = true :=
      clearTest_of_head (by simpa [List.head?_take] using hhead)
    obtain ⟨buf', hstep⟩ := tinyLength_go buf len hline
      (List.ne_nil_of_length_pos (by omega)) hgo (fun b hb => h0 b (List.mem_of_mem_take hb))
      (.inr hlen) hlen.le
    obtain ⟨buf'', hrest⟩ := tinyLength_line (t.drop 1023)
      (fun c hc => ht c (List.mem_of_mem_drop hc)) buf' (tinyRead len (t.take 1023)) crlf s
    have hdvd : 1023 ∣ (t.drop 1023).length ↔ 1023 ∣ t.length := by
      rw [List.length_drop, Nat.dvd_sub_iff_left (by omega) (Nat.dvd_refl 1023)]
    have hcut : (cutEvery 1022 (t.drop 1023)).foldl tinyRead (tinyRead len (t.take 1023)) =
        (cutEvery 1022 t).foldl tinyRead len := by
      rcases Nat.lt_or_eq_of_le (Nat.le_of_not_lt hlt) with hgt | heq
      · rw [cutEvery.eq_def 1022 t, if_neg (by omega : ¬ t.length ≤ 1022 + 1)]
        rfl
      · have hdrop : t.drop 1023 = [] := List.drop_eq_nil_of_le heq.ge
        have hend : cutEvery 1022 ([] : List Byte) = [[]] := by
          rw [cutEvery]
          rfl
        rw [cutEvery.eq_def 1022 t, if_pos heq.ge, hdrop, hend, List.take_of_length_le heq.ge]
        exact tinyRead_nil _
    exact ⟨buf'', by rw [hstep, hrest, hcut]; simp only [hdvd]⟩
termination_by t.length
decreasing_by simp only [List.length_drop]; omega

/-- The length that the loop ends with on a header block. -/
def tinyLengthRead (hs : List HeaderLine) : Int :=
  tinyDeclared ((scannedLines hs).flatMap fun h => cutEvery 1022 h.text)

theorem tinyLength_block (hs : List HeaderLine) (buf : Memory) (len : Int) (crlf : Bool)
    (body : List Byte) : tinyLength buf len (requestBytes hs crlf body) =
      (((scannedLines hs).flatMap fun h => cutEvery 1022 h.text).foldl tinyRead len,
        unreadPart hs crlf body) := by
  induction hs generalizing buf len with
  | nil =>
    obtain ⟨buf', hstop⟩ := tinyLength_line [] (fun b hb => absurd hb List.not_mem_nil) buf len crlf
      body
    have hend : (cutEvery 1022 ([] : List Byte)).foldl tinyRead len = len := by
      rw [cutEvery]
      exact tinyRead_nil len
    rw [List.length_nil, if_pos (dvd_zero 1023), hend] at hstop
    exact hstop
  | cons h hs ih =>
    obtain ⟨buf', hline⟩ := tinyLength_line h.text h.plain buf len h.crlf (requestBytes hs crlf body)
    have hcons : requestBytes (h :: hs) crlf body =
        h.text ++ (terminator h.crlf ++ requestBytes hs crlf body) := by
      simp [requestBytes, HeaderLine.bytes, List.append_assoc]
    rw [hcons, hline, scannedLines, unreadPart]
    by_cases hd : 1023 ∣ h.text.length
    · rw [if_pos hd, if_pos hd, if_pos hd, List.flatMap_singleton]
    · rw [if_neg hd, if_neg hd, if_neg hd, ih, List.flatMap_cons, List.foldl_append]

theorem toInt32_bounds (x : Int) : -2 ^ 31 ≤ toInt32 x ∧ toInt32 x < 2 ^ 31 := by
  have hlo := Int.le_bmod (x := x) (m := 2 ^ 32) (by decide)
  have hhi := Int.bmod_lt (x := x) (m := 2 ^ 32) (by decide)
  rw [toInt32]
  omega

theorem tinyDeclared_bounds (ts : List (List Byte)) :
    -2 ^ 31 ≤ tinyDeclared ts ∧ tinyDeclared ts < 2 ^ 31 := by
  have hfold : ∀ len : Int, -2 ^ 31 ≤ len ∧ len < 2 ^ 31 →
      -2 ^ 31 ≤ ts.foldl tinyRead len ∧ ts.foldl tinyRead len < 2 ^ 31 := by
    induction ts with
    | nil => exact fun _ h => h
    | cons t ts ih =>
      intro len h
      refine ih _ ?_
      rw [tinyRead]
      split
      · exact toInt32_bounds _
      · exact h
  exact hfold (-1) (by decide)

def TinyAct.written : TinyAct → List Byte
  | .write b _ => [b]
  | _ => []

def TinyAct.copied : TinyAct → List Byte
  | .copy text => text
  | _ => []

/-- The program runs with the body as its input, knows how long it is, and all
that it writes until it ends is passed on. -/
def TinyRelayed (res : TinyResults) (as : List TinyAct) (path body : List Byte) : Prop :=
  ∃ env output, .fork path env true ∈ as ∧ env.length = some (body.length : Int) ∧
    (∀ b, .write b false ∉ as) ∧ as.flatMap TinyAct.written = body ∧
    res.program path env body = some output ∧ as.flatMap TinyAct.copied = output

/-- No call fails on the way to `execl`; the program keeps its input open while
it is written, and ends without waiting for an end of it. -/
structure TinyReaches (res : TinyResults) : Prop where
  create : res.create = true
  pipeOut : res.pipeOut = true
  pipeIn : res.pipeIn = true
  fork : res.fork = true
  execl : res.execl = true
  reader : ∀ k, res.bodyReader k = true
  ends : ∀ path env body, (res.program path env body).isSome = true

theorem TinyRequest.read_post (m : Locals) {line : List Byte}
    (hpost : methodIs "POST" (read m line).method = true) :
    (read m line).method.length ≤ 4 ∧ (read m line).query = none := by
  rw [read_eq] at hpost ⊢
  have hacc : (split m (cstr (methodBytes m line)) (urlBytes m line)).accepted = true := by
    rw [accepted, hpost, Bool.or_true]
  refine ⟨accepted_length m hacc, ?_⟩
  have hget := post_not_get hpost
  simp only [split] at hget ⊢
  rw [hget]
  rfl

section Post

variable {fs : FileSystem} {res : TinyResults} (m : TinyLocals)

theorem programRan_post (hexecl : res.execl = true) {method : List Byte}
    (hpost : methodIs "POST" method = true) (hmethod : method.length ≤ 4)
    (ts : List (List Byte)) : programRan res (tinyEnv method none (tinyDeclared ts)) = true := by
  obtain ⟨hlo, hhi⟩ := tinyDeclared_bounds ts
  have hget : methodIs "GET" method = (none : Option (List Byte)).isSome := post_not_get hpost
  have hfits := (TinyRequest.fits_iff hmethod hget hlo hhi).mpr
    fun q hq => absurd hq (Option.not_mem_none q)
  rw [programRan, hexecl, decide_eq_true hfits]
  rfl

theorem flatMap_mapIdx {α β : Type*} {f : Nat → α → β} {g : β → List α}
    (h : ∀ k x, g (f k x) = [x]) (l : List α) : (l.mapIdx f).flatMap g = l := by
  induction l generalizing f with
  | nil => rfl
  | cons x l ih =>
    rw [List.mapIdx_cons, List.flatMap_cons, h, ih fun k x => h (k + 1) x]
    rfl

theorem tinyRelay_flatMap {g : TinyAct → List Byte} (hcopy : ∀ b, g (.copy [b]) = [])
    (hhang : g .hang = []) (output : Option (List Byte)) : (tinyRelay output).flatMap g = [] := by
  rw [List.flatMap_eq_nil_iff]
  intro a ha
  cases output with
  | none =>
    rw [List.mem_singleton.mp ha]
    exact hhang
  | some output =>
    obtain ⟨b, -, rfl⟩ := List.mem_map.mp ha
    exact hcopy b

theorem written_parent (body : List Byte) (output : Option (List Byte)) :
    (tinyParent res body output).flatMap TinyAct.written = body := by
  have hwrite : (body.mapIdx fun k b => .write b (res.bodyReader k)).flatMap TinyAct.written =
      body := flatMap_mapIdx (fun _ _ => rfl) body
  have hcopy := tinyRelay_flatMap (g := TinyAct.written) (fun _ => rfl) rfl output
  rw [tinyParent, List.flatMap_append, List.flatMap_append, List.flatMap_append, hwrite, hcopy]
  simp [TinyAct.written]

theorem copied_parent (body output : List Byte) :
    (tinyParent res body (some output)).flatMap TinyAct.copied = output := by
  have hwrite : (body.mapIdx fun k b => .write b (res.bodyReader k)).flatMap TinyAct.copied =
      [] := by
    rw [List.flatMap_eq_nil_iff]
    intro a ha
    obtain ⟨k, hk, rfl⟩ := List.mem_mapIdx.mp ha
    rfl
  have hcopy : (output.map fun b => .copy [b]).flatMap TinyAct.copied = output := by
    rw [List.flatMap_map]
    exact List.flatMap_singleton' output
  rw [tinyParent, tinyRelay, List.flatMap_append, List.flatMap_append, List.flatMap_append, hwrite,
    hcopy]
  simp [TinyAct.copied]

theorem fork_not_mem_parent (body : List Byte) (output : Option (List Byte)) (path : List Byte)
    (env : TinyEnv) (ran : Bool) : TinyAct.fork path env ran ∉ tinyParent res body output := by
  cases output <;> simp [tinyParent, tinyRelay]

theorem write_mem_parent (hres : TinyReaches res) (body : List Byte) (output : Option (List Byte))
    (b : Byte) : TinyAct.write b false ∉ tinyParent res body output := by
  cases output <;> simp [tinyParent, tinyRelay, hres.reader]

/-- The length that is read is the body's, and so are the bytes behind the lines. -/
def TinyKept (hs : List HeaderLine) (crlf : Bool) (body : List Byte) : Prop :=
  tinyLengthRead hs = body.length ∧ (unreadPart hs crlf body).take body.length = body

theorem turn_post (hres : TinyReaches res) {stream line : List Byte} {hs : List HeaderLine}
    {crlf : Bool} {body : List Byte} {st : FileNode}
    (hstream : getLine 1024 stream = (line, requestBytes hs crlf body))
    (hpost : methodIs "POST" (TinyRequest.read m.toLocals line).method = true)
    (hroute : tinyRoute fs (.read m.toLocals line) = .cgi st) :
    ∃ n, tinyTurn fs res m stream =
      .opened .conn :: .stat (TinyRequest.read m.toLocals line).path :: .received n ::
        (runTinyCgi res m (tinyPath st (TinyRequest.read m.toLocals line).path)
          (TinyRequest.read m.toLocals line).method none (tinyLengthRead hs)
          (unreadPart hs crlf body) ++ [.closed .conn]) := by
  have hheaders : readHeaders m (TinyRequest.read m.toLocals line).method
      (requestBytes hs crlf body) = (tinyLengthRead hs, unreadPart hs crlf body) := by
    rw [readHeaders, post_not_get hpost, if_neg Bool.false_ne_true, tinyLength_block]
    rfl
  have hquery := (TinyRequest.read_post m.toLocals hpost).2
  refine ⟨(requestBytes hs crlf body).length - (unreadPart hs crlf body).length, ?_⟩
  rw [tinyTurn, hres.create, if_pos rfl, acceptRequest, hstream]
  simp only [tinyServe, hroute, executeCgi, hheaders, hquery]
  rfl

theorem tinyCgi_post (hres : TinyReaches res) {method : List Byte}
    (hget : methodIs "GET" method = false) (len : Int) :
    tinyCgi res method len = if len = -1 then .noLength else .forked := by
  rw [tinyCgi, hget, hres.pipeOut, hres.pipeIn, hres.fork]
  split
  · rename_i h
    rw [if_pos h.2]
  · rename_i h
    rw [if_neg fun hlen => h ⟨rfl, hlen⟩]
    rfl

theorem runTinyCgi_post (hres : TinyReaches res) {method : List Byte}
    (hpost : methodIs "POST" method = true) {len : Int} (hlen : len ≠ -1)
    (hran : programRan res (tinyEnv method none len) = true) (path rest : List Byte) :
    runTinyCgi res m path method none len rest =
      .send okLine :: (openedOut ++ openedIn ++ .fork path (tinyEnv method none len) true ::
        tinyParent res (bodyBytes len.toNat m.c rest)
          (res.program path (tinyEnv method none len) (bodyBytes len.toNat m.c rest))) := by
  obtain ⟨hfits, hexecl⟩ : (tinyEnv method none len).Fits ∧ res.execl = true := by
    simpa [programRan] using hran
  have hbody : tinyBody m method len rest = bodyBytes len.toNat m.c rest := by
    rw [tinyBody, feedCount, hpost, if_pos rfl]
  rw [runTinyCgi, tinyCgi_post hres (post_not_get hpost), if_neg hlen, hran, hbody, tinyOutput,
    if_neg (not_not.mpr hfits), if_pos hexecl]

/-- Only the program that was forked for can have been given the body. -/
theorem relayed_iff (hres : TinyReaches res) {method : List Byte}
    (hpost : methodIs "POST" method = true) (hmethod : method.length ≤ 4) (path p : List Byte)
    (n : Nat) (ts : List (List Byte)) {rest body : List Byte} (hle : body.length ≤ rest.length) :
    TinyRelayed res (.opened .conn :: .stat p :: .received n ::
        (runTinyCgi res m path method none (tinyDeclared ts) rest ++ [.closed .conn])) path body ↔
      tinyDeclared ts = body.length ∧ rest.take body.length = body := by
  have hran := programRan_post hres.execl hpost hmethod ts
  generalize tinyDeclared ts = len at hran ⊢
  by_cases hlen : len = -1
  · rw [runTinyCgi, tinyCgi_post hres (post_not_get hpost), if_pos hlen]
    refine iff_of_false ?_ fun h => ?_
    · rintro ⟨env, output, hfork, -⟩
      simp at hfork
    · omega
  · have htold : (tinyEnv method none len).length = some len := by
      rw [tinyEnv, post_not_get hpost]
      rfl
    rw [runTinyCgi_post m hres hpost hlen hran]
    constructor
    · rintro ⟨env, output, hmem, henv, -, hwritten, -⟩
      obtain rfl : env = tinyEnv method none len := by
        simpa [openedOut, openedIn, fork_not_mem_parent] using hmem
      obtain rfl : len = body.length := Option.some.inj (htold.symm.trans henv)
      rw [Int.toNat_natCast, bodyBytes_take m.c hle] at hwritten
      have hbody : rest.take body.length = body := by
        simpa [openedOut, openedIn, written_parent, TinyAct.written] using hwritten
      exact ⟨rfl, hbody⟩
    · rintro ⟨rfl, hbody⟩
      rw [Int.toNat_natCast, bodyBytes_take m.c hle, hbody]
      obtain ⟨output, houtput⟩ := Option.isSome_iff_exists.mp
        (hres.ends path (tinyEnv method none body.length) body)
      rw [houtput]
      refine ⟨tinyEnv method none body.length, output, ?_, htold, fun b => ?_, ?_, houtput, ?_⟩
      · simp [openedOut, openedIn]
      · simp [openedOut, openedIn, write_mem_parent hres]
      · simp [openedOut, openedIn, written_parent, TinyAct.written]
      · simp [openedOut, openedIn, copied_parent, TinyAct.copied]

theorem cut_short {hs : List HeaderLine} (h : ∀ x ∈ hs, x.text.length < 1023) :
    (hs.flatMap fun x => cutEvery 1022 x.text) = hs.map HeaderLine.text := by
  induction hs with
  | nil => rfl
  | cons x hs ih =>
    have hx : cutEvery 1022 x.text = [x.text] := by
      rw [cutEvery, if_pos (h x List.mem_cons_self).le]
    rw [List.flatMap_cons, hx, ih fun y hy => h y (List.mem_cons_of_mem x hy)]
    rfl

theorem tinyKept_short {hs : List HeaderLine} (h : ∀ x ∈ hs, x.text.length < 1023) (crlf : Bool)
    (body : List Byte) :
    TinyKept hs crlf body ↔ tinyDeclared (hs.map HeaderLine.text) = body.length := by
  have hdvd : ∀ x ∈ hs, ¬ 1023 ∣ x.text.length := by
    intro x hx hd
    have hpos := Nat.le_of_dvd (List.length_pos_iff.mpr x.ne) hd
    have hlt := h x hx
    omega
  rw [TinyKept, tinyLengthRead, scannedLines_eq hdvd, cut_short h, unreadPart_eq hdvd,
    List.take_length, and_iff_left rfl]

end Post

def lowerLengthLine : HeaderLine where
  text := bytes "content-length: 3"
  crlf := true
  ne := List.cons_ne_nil _ _
  plain := forall_mem_of_all (by decide)

def TinyResults.echoing : TinyResults where
  create := true
  fopen := true
  pipeOut := true
  pipeIn := true
  fork := true
  execl := true
  bodyReader := fun _ => true
  program := fun _ _ input => some input
  stdout := []
  overrun := []

def TinyLocals.const (c : Byte) : TinyLocals where
  toLocals := .const c
  cgiBuf := fun _ => c
  c := c
  badBuf := fun _ => c
  catBuf := []

end LinuxStudy

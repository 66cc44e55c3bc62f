import LinuxStudy.ArrayBounds

/-! When `Dealwithsock` keeps inside its arrays. The scans leave `buf` when they
find no end in it, and `All_path` is too short for most of the paths that fit
`path`. -/

namespace LinuxStudy

theorem stringAt_store_le (mem : Memory) (s : List Byte) (room : Nat) :
    (stringAt (store mem s) room 0).length ≤ s.length := by
  apply copyUntil_length_le_of_stop
  rw [Nat.zero_add, store_length]
  rfl

section Lengths

variable (m : Locals) (line : List Byte)

theorem readRequest_method_le : (readRequest m line).method.length ≤ 99 :=
  (stringAt_store_le ..).trans (copyUntil_length_le isspace _ 99 0)

theorem readRequest_url_le : (readRequest m line).url.length ≤ 1023 :=
  (stringAt_store_le ..).trans (copyUntil_length_le isspace _ 1023 _)

theorem readRequest_path_le {p : List Byte} (h : (readRequest m line).path = some p) :
    p.length ≤ 521 := by
  simp only [readRequest, splitUrl] at h
  split at h
  · rw [← Option.some.inj h]
    exact (stringAt_store_le ..).trans (copyUntil_length_le (· == questionMark) _ 521 0)
  · cases h

end Lengths

theorem inBounds_strcatIndex {n : Nat} : InBounds (strcatIndex n) ↔ n + 10 < pathSize := by
  rw [strcatIndex, inBounds_append, inBounds_span, inBounds_span]
  change 0 + n < pathSize ∧ n + 10 < pathSize ↔ _
  omega

section Paths

variable {fs : FileSystem} {r : Request}

theorem inBounds_index : InBounds (if (wwwroot ++ r.target).getLast? = some slash then
      strcatIndex (wwwroot ++ r.target).length else []) ∧ (wwwroot ++ r.target).length < pathSize ↔
    (allPath r).length < pathSize := by
  rw [allPath]
  split
  · have hlen : (wwwroot ++ r.target ++ indexName).length = (wwwroot ++ r.target).length + 10 :=
      List.length_append
    rw [inBounds_strcatIndex, hlen]
    omega
  · exact and_iff_right inBounds_nil

theorem inBounds_dir {p : List Byte} (hp : p.length < pathSize) (st : FileNode) :
    InBounds (if st.isDir then
      span .allPath 0 (p.length + 1) ++ [⟨.allPath, p.length⟩] ++ strcatIndex (p.length + 1)
    else []) ↔ (servedPath st p).length < pathSize := by
  rw [servedPath]
  split
  · rw [inBounds_append, inBounds_append, inBounds_span, inBounds_singleton, inBounds_strcatIndex,
      List.length_append]
    change (0 + p.length < pathSize ∧ p.length < pathSize) ∧ _ ↔ p.length + 11 < pathSize
    omega
  · exact iff_of_true inBounds_nil hp

theorem inBounds_pathAccesses (hpath : ∀ p, r.path = some p → p.length ≤ 521)
    (hurl : r.url.length ≤ 1023) : InBounds (pathAccesses fs r) ↔
      (allPath r).length < pathSize ∧
        ∀ st, fs (allPath r) = some st → (servedPath st (allPath r)).length < pathSize := by
  have hsource :
      InBounds (span (if r.path.isSome then .path else .url) 0 (r.target.length + 1)) := by
    rw [inBounds_span, Nat.zero_add, Request.target]
    cases hp : r.path with
    | none => exact Nat.lt_succ_of_le hurl
    | some p => exact Nat.lt_succ_of_le (hpath p hp)
  have hpos : 0 < (wwwroot ++ r.target).length := by
    rw [List.length_append]
    exact Nat.add_pos_left (by decide) _
  have hindex := inBounds_index (r := r)
  simp only [pathAccesses, inBounds_append, inBounds_span, inBounds_singleton, Nat.zero_add]
  rw [inBounds_span, Nat.zero_add] at hsource
  change ((((((_ ∧ (wwwroot ++ r.target).length < pathSize) ∧
    (wwwroot ++ r.target).length < pathSize) ∧ (wwwroot ++ r.target).length - 1 < pathSize) ∧ _) ∧
    (allPath r).length < pathSize) ∧ _) ↔ _
  constructor
  · rintro ⟨⟨-, hlen⟩, hdir⟩
    refine ⟨hlen, fun st hst => (inBounds_dir hlen st).mp ?_⟩
    rwa [hst] at hdir
  · rintro ⟨hlen, hserved⟩
    obtain ⟨hstrcat, hname⟩ := hindex.mpr hlen
    refine ⟨⟨⟨⟨⟨⟨hsource, hname⟩, hname⟩, by omega⟩, hstrcat⟩, hlen⟩, ?_⟩
    cases hst : fs (allPath r) with
    | none => exact inBounds_nil
    | some st => exact (inBounds_dir hlen st).mpr (hserved st hst)

end Paths

section Scans

variable (m : Locals) {line : List Byte}

theorem inBounds_lineAccesses (hline : line.length < bufSize) :
    InBounds (lineAccesses m line) ↔ scanEnd (store m.buf line) [99, 1023] 0 < bufSize := by
  have hcstr : (cstr line).length ≤ line.length := (List.takeWhile_sublist _).length_le
  have hmethod := copyUntil_length_le isspace (store m.buf line) 99 0
  have hurl := copyUntil_length_le isspace (store m.buf line) 1023 (urlStart (store m.buf line))
  have hend : scanEnd (store m.buf line) [99, 1023] 0 = urlStart (store m.buf line) +
      (copyUntil isspace (store m.buf line) 1023 (urlStart (store m.buf line))).length := by
    simp only [scanEnd, urlStart, Nat.zero_add]
  have hsize : bufSize = 102400 := rfl
  simp only [lineAccesses, inBounds_append, inBounds_span, inBounds_singleton, inBounds_skip]
  rw [inBounds_copy (show 0 + 99 ≤ LocalArray.method.size by decide),
    inBounds_copy (show 0 + 1023 ≤ LocalArray.url.size by decide), hend]
  change ((((((0 + line.length < bufSize ∧ 0 + (cstr line).length < bufSize) ∧ _ < bufSize) ∧
    _ < 100) ∧ urlStart (store m.buf line) < bufSize) ∧ _ < bufSize) ∧ _ < 1024) ↔ _
  omega

theorem inBounds_queryAccesses (line : List Byte) : InBounds (queryAccesses m line) := by
  have hj := copyUntil_length_le (· == questionMark)
    (store m.url (copyUntil isspace (store m.buf line) 1023 (urlStart (store m.buf line)))) 521 0
  simp only [queryAccesses, inBounds_append, inBounds_cons]
  rw [inBounds_copy (show 0 + 521 ≤ LocalArray.path.size by decide)]
  change 0 + _ < 1024 ∧ _ < 522 ∧ _ < 1024 ∧ InBounds []
  exact ⟨by omega, by omega, by omega, inBounds_nil⟩

theorem inBounds_dealAccesses (line : List Byte) :
    InBounds (dealAccesses m line) ↔
      scanEnd (store m.buf line) [99, 1023, 99] 0 < bufSize := by
  simp only [dealAccesses, inBounds_append, inBounds_skip]
  rw [inBounds_copy (show 0 + 99 ≤ LocalArray.deal.size by decide)]
  simp only [scanEnd, Nat.zero_add]
  rw [urlStart]
  change _ ∧ _ < bufSize ↔ _
  exact ⟨fun h => h.2, fun h => ⟨lt_of_le_of_lt (Nat.le_add_right _ _) h, h⟩⟩

theorem scanEnd_le_deal (mem : Memory) :
    scanEnd mem [99, 1023] 0 ≤ scanEnd mem [99, 1023, 99] 0 := by
  simp only [scanEnd]
  exact (le_skipSpace ..).trans (Nat.le_add_right _ _)

end Scans

/-- The array `buf` has an end for the scans of the line, and the name that is
served has room in `All_path`. -/
def RoomLeft (fs : FileSystem) (m : Locals) (line : List Byte) : Prop :=
  let r := readRequest m line
  if r.accepted then
    ¬ WordsFill (store m.buf line) [99, 1023, 99] 0 ∧ (allPath r).length < pathSize ∧
      ∀ st, fs (allPath r) = some st → (servedPath st (allPath r)).length < pathSize
  else ¬ WordsFill (store m.buf line) [99, 1023] 0

theorem inBounds_accesses (fs : FileSystem) (m : Locals) {line : List Byte}
    (hline : line.length < bufSize) :
    InBounds (accesses fs m line) ↔ RoomLeft fs m line := by
  have hmethod : InBounds (methodAccesses (readRequest m line)) := by
    have hle := readRequest_method_le m line
    rw [methodAccesses, inBounds_span]
    change 0 + _ < 100
    omega
  have hpath : InBounds (pathAccesses fs (readRequest m line)) ↔ _ :=
    inBounds_pathAccesses (fun p => readRequest_path_le m line) (readRequest_url_le m line)
  have hquery : InBounds (if methodIs "GET" (readRequest m line).method then queryAccesses m line
      else []) := by
    split
    · exact inBounds_queryAccesses m line
    · exact inBounds_nil
  have hle := scanEnd_le_deal (store m.buf line)
  simp only [accesses, inBounds_append, inBounds_lineAccesses m hline, RoomLeft]
  rw [wordsFill_iff _ _ (Nat.zero_le _), wordsFill_iff _ _ (Nat.zero_le _)]
  split
  · rw [inBounds_append, inBounds_append, hpath, inBounds_dealAccesses]
    exact ⟨fun h => ⟨by omega, h.2.2⟩, fun h => ⟨⟨by omega, hmethod⟩, ⟨hquery, by omega⟩, h.2⟩⟩
  · exact ⟨fun h => Nat.not_le_of_lt h.1.1, fun h => ⟨⟨Nat.lt_of_not_le h, hmethod⟩, inBounds_nil⟩⟩

def longUrl : List Byte := slash :: List.replicate 514 97

theorem longUrl_plain : PlainUrl longUrl where
  noSpace := by
    intro b hb
    rcases List.mem_cons.mp hb with rfl | hb
    · decide
    · rw [List.eq_of_mem_replicate hb]
      decide
  noMark := by
    intro hb
    rcases List.mem_cons.mp hb with he | hb
    · exact absurd he (by decide)
    · exact absurd (List.eq_of_mem_replicate hb) (by decide)
  noNul := by
    intro hb
    rcases List.mem_cons.mp hb with he | hb
    · exact absurd he (by decide)
    · exact absurd (List.eq_of_mem_replicate hb) (by decide)
  ne_nil := List.cons_ne_nil _ _
  length_le := by
    rw [longUrl, List.length_cons, List.length_replicate]
    omega

/-- A line that fills `buf` with a method and spaces. -/
def blankLine : List Byte := bytes "GET" ++ List.replicate 102396 space

theorem blankLine_length : blankLine.length = 102399 := by
  rw [blankLine, List.length_append, List.length_replicate]
  rfl

theorem getLine_blankLine : (getLine bufSize blankLine).1 = blankLine := by
  have hplain : ∀ b ∈ blankLine, b ≠ cr ∧ b ≠ lf := by
    intro b hb
    rcases List.mem_append.mp hb with hb | hb
    · exact forall_mem_of_all (p := fun b => b ≠ cr ∧ b ≠ lf) (by decide) b hb
    · rw [List.eq_of_mem_replicate hb]
      decide
  have hlen : blankLine.length ≤ bufSize - 1 := by
    rw [blankLine_length]
    exact le_rfl
  have hloop := getLineLoop_within [] hplain hlen
  have hroom : bufSize - 1 - blankLine.length = 0 := by
    rw [blankLine_length]
    rfl
  rw [List.append_nil, hroom] at hloop
  rw [getLine, hloop]
  exact List.append_nil blankLine

theorem blankLine_fills (mem : Memory) : WordsFill (store mem blankLine) [99, 1023] 0 := by
  have hlen := blankLine_length
  have hsize : bufSize = 102400 := rfl
  refine ⟨3, 102399, by omega, by omega, fun p _ hp => ?_, by omega, by omega, fun p hp hp' => ?_,
    by omega, fun p hp hp' => ?_⟩
  · rw [store_lt (by omega)]
    have hget : blankLine[p]? = (bytes "GET")[p]? := List.getElem?_append_left hp
    have hmem : blankLine[p] ∈ bytes "GET" := by
      rw [List.getElem?_eq_getElem (by omega)] at hget
      exact List.mem_of_getElem? hget.symm
    exact forall_mem_of_all (p := fun b => isspace b = false) (by decide) _ hmem
  · rw [store_lt (by omega)]
    have hget : blankLine[p]? = (List.replicate 102396 space)[p - 3]? :=
      List.getElem?_append_right hp
    rw [List.getElem?_eq_getElem (by omega)] at hget
    rw [List.eq_of_mem_replicate (List.mem_of_getElem? hget.symm)]
    decide
  · have hend : p = blankLine.length := by omega
    rw [hend, store_length]
    decide

/-- For every byte stream, all accesses are inside the arrays exactly when there
is room left. -/
theorem array_bounds_iff (fs : FileSystem) (m : Locals) (stream : List Byte) :
    InBounds (accesses fs m (getLine bufSize stream).1) ↔
      RoomLeft fs m (getLine bufSize stream).1 :=
  inBounds_accesses fs m (getLine_length_lt bufSize (by decide) stream)

theorem array_overruns :
    (¬ InBounds (accesses (fun _ => none) (.const 0)
      (getLine bufSize (getRequest longUrl (bytes "HTTP/1.0\r\n"))).1)) ∧
    ¬ InBounds (accesses (fun _ => none) (.const 0) (getLine bufSize blankLine).1) := by
  constructor
  · rw [inBounds_accesses _ _ (getLine_length_lt bufSize (by decide) _), RoomLeft]
    obtain ⟨query, cgi, hread, -⟩ := longUrl_plain.read (.const 0) (bytes "HTTP/1.0\r\n")
    have haccepted : (readRequest (.const 0)
        (getLine bufSize (getRequest longUrl (bytes "HTTP/1.0\r\n"))).1).accepted = true := by
      rw [hread]
      rfl
    rw [if_pos haccepted, hread]
    rintro ⟨-, hlen, -⟩
    have hname : (wwwroot ++ longUrl).length = 522 := by
      rw [longUrl, List.length_append, List.length_cons, List.length_replicate]
      rfl
    have hle : (wwwroot ++ longUrl).length < pathSize :=
      (inBounds_index (r := ⟨bytes "GET", longUrl, some longUrl, query, cgi⟩)).mpr hlen |>.2
    rw [hname] at hle
    exact Nat.lt_irrefl 522 hle
  · intro h
    rw [getLine_blankLine] at h
    have hline : blankLine.length < bufSize := by
      rw [blankLine_length]
      decide
    have hscan := (inBounds_lineAccesses (.const 0) hline).mp
      (inBounds_append.mp (inBounds_append.mp h).1).1
    exact absurd ((wordsFill_iff _ _ (Nat.zero_le _)).mp (blankLine_fills _))
      (Nat.not_le_of_lt hscan)

end LinuxStudy

import LinuxStudy.PlainGet
import Mathlib.Data.List.Basic

/-! A request line written out from its parts is read back as these parts, over
any old contents of the arrays. -/

namespace LinuxStudy

def isBlank (b : Byte) : Bool := b == 32 || b == 9

structure PrintedRequest where
  method : List Byte
  gap : List Byte
  url : List Byte
  gap' : List Byte
  version : List Byte
  ending : List Byte
  method_case : method.map tolower = bytes "get" ∨ method.map tolower = bytes "post"
  gap_ne : gap ≠ []
  gap_blank : ∀ b ∈ gap, isBlank b = true
  url_ne : url ≠ []
  url_plain : ∀ b ∈ url, isspace b = false ∧ b ≠ 0
  url_le : url.length ≤ 1023
  gap'_ne : gap' ≠ []
  gap'_blank : ∀ b ∈ gap', isBlank b = true
  version_ne : version ≠ []
  version_plain : ∀ b ∈ version, isspace b = false ∧ b ≠ 0
  ending_eq : ending = [lf] ∨ ending = [cr, lf]
  short : (method ++ gap ++ url ++ gap' ++ version).length < 102399

namespace PrintedRequest

def line (t : PrintedRequest) : List Byte := t.method ++ t.gap ++ t.url ++ t.gap' ++ t.version

def text (t : PrintedRequest) : List Byte := t.line ++ t.ending

end PrintedRequest

theorem exists_eq_idxOf {α : Type*} [DecidableEq α] {a : α} {s : List α} (h : a ∈ s) :
    s = s.take (s.idxOf a) ++ a :: s.drop (s.idxOf a + 1) ∧ a ∉ s.take (s.idxOf a) := by
  have hlt := List.idxOf_lt_length_of_mem h
  constructor
  · conv_lhs => rw [← List.take_append_drop (s.idxOf a) s, List.drop_eq_getElem_cons hlt,
      List.getElem_idxOf]
  · rw [List.mem_take_iff_idxOf_lt h]
    exact Nat.lt_irrefl _

section StoredUrl

theorem cstr_split (s : List Byte) : ∃ t, s = cstr s ++ t ∧ (t = [] ∨ t.head? = some 0) := by
  induction s with
  | nil => exact ⟨[], rfl, .inl rfl⟩
  | cons b s ih =>
    by_cases hb : b = 0
    · refine ⟨b :: s, ?_, .inr (congrArg some hb)⟩
      rw [hb]
      rfl
    · obtain ⟨t, ht, h0⟩ := ih
      refine ⟨t, ?_, h0⟩
      have hcons : cstr (b :: s) = b :: cstr s := List.takeWhile_cons_of_pos (by simpa using hb)
      rw [hcons, List.cons_append, ← ht]

theorem ne_nul_of_mem_cstr {s : List Byte} {b : Byte} (h : b ∈ cstr s) : b ≠ 0 := by
  have hb := List.mem_takeWhile_imp h
  simpa using hb

theorem stringAt_take (mem : Memory) (s : List Byte) {n room : Nat} (h : n < room) :
    stringAt (store mem ((cstr s).take n)) room 0 = (cstr s).take n := by
  rw [stringAt_whole mem ((List.length_take_le n _).trans_lt h)]
  exact cstr_of_plain fun b hb => ne_nul_of_mem_cstr (List.mem_of_mem_take hb)

variable {urlBytes : List Byte}

theorem url_stringAt (m : Locals) (hlen : urlBytes.length ≤ 1023) {i : Nat}
    (hi : i ≤ (cstr urlBytes).length) :
    stringAt (store m.url urlBytes) (1024 - i) i = (cstr urlBytes).drop i := by
  obtain ⟨t, ht, h0⟩ := cstr_split urlBytes
  have hle : i ≤ urlBytes.length := hi.trans (List.takeWhile_sublist _).length_le
  rw [stringAt_store m.url urlBytes _ hle (by omega)]
  conv_lhs => rw [ht]
  rw [List.drop_append_of_le_length hi, cstr_append_head_nul h0]
  exact cstr_of_plain fun b hb => ne_nul_of_mem_cstr (List.mem_of_mem_drop hb)

theorem splitUrl_url (m : Locals) (method : List Byte) (hlen : urlBytes.length ≤ 1023) :
    (splitUrl m method urlBytes).url = cstr urlBytes :=
  url_stringAt m hlen (Nat.zero_le _)

theorem splitUrl_query (m : Locals) {method : List Byte} (hlen : urlBytes.length ≤ 1023)
    (hget : methodIs "GET" method = true) (hmark : questionMark ∈ cstr urlBytes)
    (hp : (cstr urlBytes).idxOf questionMark ≤ 521) :
    (splitUrl m method urlBytes).path =
        some ((cstr urlBytes).take ((cstr urlBytes).idxOf questionMark)) ∧
      (splitUrl m method urlBytes).query =
        some ((cstr urlBytes).drop ((cstr urlBytes).idxOf questionMark + 1)) ∧
      (splitUrl m method urlBytes).cgi = true := by
  obtain ⟨hsplit, hno⟩ := exists_eq_idxOf hmark
  obtain ⟨t, ht, -⟩ := cstr_split urlBytes
  have hlt := List.idxOf_lt_length_of_mem hmark
  generalize hj : (cstr urlBytes).idxOf questionMark = p at *
  have hpath : ((cstr urlBytes).take p).length = p := by
    rw [List.length_take]
    omega
  have hall : urlBytes =
      [] ++ (cstr urlBytes).take p ++ questionMark :: ((cstr urlBytes).drop (p + 1) ++ t) := by
    conv_lhs => rw [ht, hsplit]
    simp
  have hscan : copyUntil (· == questionMark) (store m.url urlBytes) 521 0 =
      (cstr urlBytes).take p := by
    have hmark' : (questionMark == questionMark) = true := rfl
    have htok : ∀ c ∈ (cstr urlBytes).take p, (c == questionMark) = false :=
      fun c hc => beq_eq_false_iff_ne.mpr fun he => hno (he ▸ hc)
    conv_lhs => rw [hall]
    exact copyUntil_between m.url [] _ htok hmark' (hpath.trans_le hp)
  have hat : store m.url urlBytes p = questionMark := by
    have hk : p < urlBytes.length := hlt.trans_le (List.takeWhile_sublist _).length_le
    rw [store_lt hk]
    have hget : urlBytes[p]? = some questionMark := by
      rw [hall, List.nil_append, List.getElem?_append_right hpath.le, hpath, Nat.sub_self]
      rfl
    rwa [List.getElem?_eq_getElem hk, Option.some_inj] at hget
  have hstring := stringAt_take m.path urlBytes (Nat.lt_succ_of_le hp)
  simp only [splitUrl, hget, hscan, hpath, hat, hstring, beq_self_eq_true, Bool.and_self,
    Bool.or_true, if_true, url_stringAt m hlen (Nat.succ_le_of_lt hlt), and_self]

end StoredUrl

theorem isspace_of_isBlank {b : Byte} (h : isBlank b = true) : isspace b = true := by
  rw [isBlank, Bool.or_eq_true, beq_iff_eq, beq_iff_eq] at h
  rcases h with rfl | rfl
  · decide
  · decide

namespace PrintedRequest

variable (t : PrintedRequest)

theorem method_plain : ∀ b ∈ t.method, isspace b = false ∧ b ≠ 0 := by
  intro b hb
  have hlow : tolower b ∈ bytes "get" ∨ tolower b ∈ bytes "post" := by
    have hmem := List.mem_map_of_mem (f := tolower) hb
    rcases t.method_case with h | h
    · exact .inl (h ▸ hmem)
    · exact .inr (h ▸ hmem)
  have hplain : isspace (tolower b) = false ∧ tolower b ≠ 0 := by
    rcases hlow with h | h
    · exact forall_mem_of_all (p := fun c => isspace c = false ∧ c ≠ 0) (by decide) _ h
    · exact forall_mem_of_all (p := fun c => isspace c = false ∧ c ≠ 0) (by decide) _ h
  rw [isspace_tolower, Ne, tolower_eq_zero] at hplain
  exact hplain

theorem method_length : t.method.length ≤ 4 := by
  rcases t.method_case with h | h
  · have hlen := congrArg List.length h
    rw [List.length_map] at hlen
    rw [hlen]
    decide
  · have hlen := congrArg List.length h
    rw [List.length_map] at hlen
    rw [hlen]
    decide

theorem line_no_end : ∀ b ∈ t.line, b ≠ cr ∧ b ≠ lf := by
  have hplain : ∀ b, isspace b = false → b ≠ cr ∧ b ≠ lf := by
    intro b hb
    constructor
    · rintro rfl
      exact absurd hb (by decide)
    · rintro rfl
      exact absurd hb (by decide)
  have hblank : ∀ b, isBlank b = true → b ≠ cr ∧ b ≠ lf := by
    intro b hb
    constructor
    · rintro rfl
      exact absurd hb (by decide)
    · rintro rfl
      exact absurd hb (by decide)
  intro b hb
  simp only [line, List.mem_append] at hb
  rcases hb with (((hb | hb) | hb) | hb) | hb
  · exact hplain b (t.method_plain b hb).1
  · exact hblank b (t.gap_blank b hb)
  · exact hplain b (t.url_plain b hb).1
  · exact hblank b (t.gap'_blank b hb)
  · exact hplain b (t.version_plain b hb).1

theorem getLine_text (rest : List Byte) :
    getLine bufSize (t.text ++ rest) = (t.line ++ [lf], rest) := by
  have hsize : bufSize = 102400 := rfl
  have hshort := t.short
  rw [← line] at hshort
  obtain ⟨room, hroom⟩ : ∃ room, bufSize - 1 - t.line.length = room + 1 :=
    ⟨bufSize - 2 - t.line.length, by omega⟩
  rw [getLine, text, List.append_assoc, getLineLoop_within _ t.line_no_end (by omega), hroom]
  rcases t.ending_eq with he | he
  · rw [he]
    rfl
  · rw [he]
    rfl

theorem url_end : ∃ b rest, isspace b = true ∧
    t.line ++ [lf] = t.method ++ t.gap ++ t.url ++ b :: rest := by
  obtain ⟨b, gap, hgap⟩ := List.exists_cons_of_ne_nil t.gap'_ne
  refine ⟨b, gap ++ t.version ++ [lf], ?_, ?_⟩
  · exact isspace_of_isBlank (t.gap'_blank b (by rw [hgap]; exact List.mem_cons_self))
  · simp [line, hgap]

theorem method_end : ∃ b rest, isspace b = true ∧ t.line ++ [lf] = [] ++ t.method ++ b :: rest := by
  obtain ⟨b, gap, hgap⟩ := List.exists_cons_of_ne_nil t.gap_ne
  refine ⟨b, gap ++ t.url ++ t.gap' ++ t.version ++ [lf], ?_, ?_⟩
  · exact isspace_of_isBlank (t.gap_blank b (by rw [hgap]; exact List.mem_cons_self))
  · simp [line, hgap]

theorem gap_end : ∃ b rest, isspace b = false ∧
    t.line ++ [lf] = t.method ++ t.gap ++ b :: rest := by
  obtain ⟨b, url, hurl⟩ := List.exists_cons_of_ne_nil t.url_ne
  refine ⟨b, url ++ t.gap' ++ t.version ++ [lf], ?_, ?_⟩
  · exact (t.url_plain b (by rw [hurl]; exact List.mem_cons_self)).1
  · simp [line, hurl]

/-- The three scans over the line stop where its parts do. -/
theorem readRequest_line (m : Locals) :
    readRequest m (t.line ++ [lf]) = splitUrl m t.method t.url := by
  have hsize : bufSize = 102400 := rfl
  have hmethod : copyUntil isspace (store m.buf (t.line ++ [lf])) 99 0 = t.method := by
    obtain ⟨b, rest, hb, heq⟩ := t.method_end
    rw [heq]
    exact copyUntil_between m.buf [] rest (fun c hc => (t.method_plain c hc).1) hb
      (t.method_length.trans (by decide))
  have hgap : skipSpace (store m.buf (t.line ++ [lf])) (bufSize - t.method.length)
      t.method.length = (t.method ++ t.gap).length := by
    obtain ⟨b, rest, hb, heq⟩ := t.gap_end
    have hlen := congrArg List.length heq
    have hshort := t.short
    rw [← line] at hshort
    simp only [List.length_append, List.length_cons, List.length_nil] at hlen
    rw [heq]
    apply skipSpace_between m.buf (fun c hc => isspace_of_isBlank (t.gap_blank c hc)) hb
    rw [List.length_append, List.length_cons]
    omega
  have hurl : copyUntil isspace (store m.buf (t.line ++ [lf])) 1023 (t.method ++ t.gap).length =
      t.url := by
    obtain ⟨b, rest, hb, heq⟩ := t.url_end
    rw [heq]
    exact copyUntil_between m.buf (t.method ++ t.gap) rest (fun c hc => (t.url_plain c hc).1) hb
      t.url_le
  have hname : stringAt (store m.method t.method) 100 0 = t.method := by
    have hlen := t.method_length
    rw [stringAt_whole m.method (by omega)]
    exact cstr_of_plain fun b hb => (t.method_plain b hb).2
  rw [readRequest, hmethod, hgap, hurl, hname]

theorem cstr_url : cstr t.url = t.url := cstr_of_plain fun b hb => (t.url_plain b hb).2

/-- Parsing undoes printing. -/
theorem readRequest_text (m : Locals) (rest : List Byte) :
    let r := readRequest m (getLine bufSize (t.text ++ rest)).1
    r.method = t.method ∧ r.url = t.url ∧
      (t.method.map tolower = bytes "get" → questionMark ∈ t.url →
        t.url.idxOf questionMark ≤ 521 →
        r.path = some (t.url.take (t.url.idxOf questionMark)) ∧
          r.query = some (t.url.drop (t.url.idxOf questionMark + 1)) ∧ r.cgi = true) := by
  intro r
  have hr : r = splitUrl m t.method t.url := by
    have hline := congrArg Prod.fst (t.getLine_text rest)
    exact (congrArg (readRequest m) hline).trans (t.readRequest_line m)
  rw [hr]
  have hurl := splitUrl_url m t.method t.url_le
  rw [t.cstr_url] at hurl
  refine ⟨rfl, hurl, fun hlow hmark hp => ?_⟩
  have hget : methodIs "GET" t.method = true := by
    rw [methodIs, strcasecmpEq, cstr_of_plain fun b hb => (t.method_plain b hb).2, hlow]
    rfl
  have hquery := splitUrl_query m t.url_le hget
  rw [t.cstr_url] at hquery
  exact hquery hmark hp

/-- `gEt \t/a?b?c\tHTTP/1.0` with CR LF, over arrays full of question marks. -/
def mixedLine : PrintedRequest where
  method := bytes "gEt"
  gap := bytes " \t"
  url := bytes "/a?b?c"
  gap' := bytes "\t"
  version := bytes "HTTP/1.0"
  ending := [cr, lf]
  method_case := by decide
  gap_ne := by decide
  gap_blank := forall_mem_of_all (by decide)
  url_ne := by decide
  url_plain := forall_mem_of_all (by decide)
  url_le := by decide
  gap'_ne := by decide
  gap'_blank := forall_mem_of_all (by decide)
  version_ne := by decide
  version_plain := forall_mem_of_all (by decide)
  ending_eq := by decide
  short := by decide

theorem readRequest_mixed :
    let r := readRequest (.const questionMark) (getLine bufSize (mixedLine.text ++ [120])).1
    r.method = bytes "gEt" ∧ r.url = bytes "/a?b?c" ∧
      r.path = some (bytes "/a") ∧ r.query = some (bytes "b?c") ∧ r.cgi = true := by
  intro r
  obtain ⟨hmethod, hurl, hquery⟩ := mixedLine.readRequest_text (.const questionMark) [120]
  exact ⟨hmethod, hurl, hquery (by decide) (by decide) (by decide)⟩

end PrintedRequest

/-- The line `method url HTTP/1.0` with CR LF. -/
def printedLine (method : List Byte)
    (hcase : method.map tolower = bytes "get" ∨ method.map tolower = bytes "post")
    (url : List Byte) (hne : url ≠ []) (hplain : ∀ b ∈ url, isspace b = false ∧ b ≠ 0)
    (hle : url.length ≤ 1023) : PrintedRequest where
  method := method
  gap := [space]
  url := url
  gap' := [space]
  version := bytes "HTTP/1.0"
  ending := [cr, lf]
  method_case := hcase
  gap_ne := List.cons_ne_nil _ _
  gap_blank := forall_mem_of_all (by decide)
  url_ne := hne
  url_plain := hplain
  url_le := hle
  gap'_ne := List.cons_ne_nil _ _
  gap'_blank := forall_mem_of_all (by decide)
  version_ne := by decide
  version_plain := forall_mem_of_all (by decide)
  ending_eq := .inr rfl
  short := by
    have hversion : (bytes "HTTP/1.0").length = 8 := by decide
    have hmethod : method.length ≤ 4 := by
      rw [← List.length_map tolower]
      rcases hcase with h | h
      · rw [h]
        decide
      · rw [h]
        decide
    simp only [List.length_append, List.length_singleton, hversion]
    omega

end LinuxStudy

import LinuxStudy.StaleMemory

/-! A GET request whose URL has no query. Its path is the URL, and it is taken
for one with a query only by a `?` that the old `url` holds behind it. -/

namespace LinuxStudy

def space : Byte := 32

def getRequest (url tail : List Byte) : List Byte := bytes "GET " ++ (url ++ space :: tail)

theorem getRequest_eq (url tail : List Byte) :
    getRequest url tail = bytes "GET " ++ (url ++ [space]) ++ tail := by
  simp [getRequest]

structure PlainUrl (url : List Byte) : Prop where
  noSpace : ∀ b ∈ url, isspace b = false
  noMark : questionMark ∉ url
  noNul : 0 ∉ url
  ne_nil : url ≠ []
  length_le : url.length ≤ 521

/-- The old `url` has a `?` that the scan of a URL of length `n` comes to. -/
def StaleMark (m : Locals) (n : Nat) : Prop := ∃ k, n < k ∧ k ≤ 521 ∧ m.url k = questionMark

theorem StaleMark.mono {m : Locals} {n n' : Nat} (h : StaleMark m n') (hn : n ≤ n') :
    StaleMark m n := by
  obtain ⟨k, hk, hle, hmark⟩ := h
  exact ⟨k, by omega, hle, hmark⟩

theorem not_staleMark_const {c : Byte} (hc : c ≠ questionMark) (n : Nat) :
    ¬ StaleMark (.const c) n := fun ⟨_, _, _, hk⟩ => hc hk

theorem copyUntil_stops_iff (stop : Byte → Bool) (mem : Memory) (limit i : Nat) :
    stop (mem (i + (copyUntil stop mem limit i).length)) = true ↔
      ∃ k ≤ limit, stop (mem (i + k)) = true := by
  constructor
  · intro h
    exact ⟨_, copyUntil_length_le stop mem limit i, h⟩
  · rintro ⟨k, hk, hstop⟩
    have hle := copyUntil_length_le_of_stop limit hstop
    rcases copyUntil_length_stop stop mem limit i with he | he
    · rwa [show (copyUntil stop mem limit i).length = k by omega]
    · exact he

theorem splitUrl_get (m : Locals) {method : List Byte} (urlBytes : List Byte)
    (hget : methodIs "GET" method = true) (hpost : methodIs "POST" method = false) :
    ∃ query, splitUrl m method urlBytes =
      ⟨method, stringAt (store m.url urlBytes) 1024 0,
        some (stringAt (store m.path
          (copyUntil (· == questionMark) (store m.url urlBytes) 521 0)) 522 0), query,
        store m.url urlBytes
          (copyUntil (· == questionMark) (store m.url urlBytes) 521 0).length == questionMark⟩ := by
  refine ⟨(splitUrl m method urlBytes).query, ?_⟩
  simp only [splitUrl, hget, hpost, Bool.true_and, Bool.false_or, if_true]

section PlainGet

variable {url : List Byte}

theorem PlainUrl.line (hu : PlainUrl url) (tail : List Byte) : ∃ rest,
    (getLine bufSize (getRequest url tail)).1 = getRequest url rest := by
  have hplain : ∀ b ∈ bytes "GET " ++ (url ++ [space]), b ≠ cr ∧ b ≠ lf := by
    intro b hb
    rw [List.mem_append, List.mem_append, List.mem_singleton] at hb
    rcases hb with hb | hb | rfl
    · exact forall_mem_of_all (p := fun b => b ≠ cr ∧ b ≠ lf) (by decide) b hb
    · have hs := hu.noSpace b hb
      constructor <;> (rintro rfl; exact absurd hs (by decide))
    · decide
  have hlen : (bytes "GET " ++ (url ++ [space])).length ≤ bufSize - 1 := by
    have hget : (bytes "GET ").length = 4 := by decide
    have hsize : bufSize = 102400 := rfl
    have := hu.length_le
    rw [List.length_append, List.length_append, List.length_singleton]
    omega
  refine ⟨(getLineLoop (bufSize - 1 - (bytes "GET " ++ (url ++ [space])).length) tail).1, ?_⟩
  rw [getLine, getRequest_eq, getLineLoop_within tail hplain hlen, getRequest_eq]

theorem plainGet_method (url tail : List Byte) : methodText (getRequest url tail) = bytes "GET" :=
  rfl

theorem plainGet_methodEnds (url tail : List Byte) : MethodEnds (getRequest url tail) :=
  .inr ⟨space, List.mem_append_left _ (by decide), rfl⟩

theorem PlainUrl.start (hu : PlainUrl url) (tail : List Byte) :
    targetStart (getRequest url tail) = 4 := by
  obtain ⟨b, rest, rfl⟩ := List.exists_cons_of_ne_nil hu.ne_nil
  have hb : isspace b = false := hu.noSpace b List.mem_cons_self
  rw [targetStart, plainGet_method]
  change 3 + (List.takeWhile isspace (space :: b :: (rest ++ space :: tail))).length = 4
  rw [List.takeWhile_cons, List.takeWhile_cons, hb]
  rfl

theorem PlainUrl.urlBytes (hu : PlainUrl url) (m : Locals) (tail : List Byte) :
    urlBytes m (getRequest url tail) = url := by
  have hlong : url.length ≤ 1023 := hu.length_le.trans (by decide)
  rw [LinuxStudy.urlBytes, hu.start, getRequest, ← List.append_assoc]
  exact copyUntil_between m.buf (bytes "GET ") tail hu.noSpace (b := space) rfl hlong

theorem PlainUrl.mark_iff (hu : PlainUrl url) (m : Locals) :
    (∃ k ≤ 521, (store m.url url (0 + k) == questionMark) = true) ↔ StaleMark m url.length := by
  simp only [Nat.zero_add, beq_iff_eq]
  constructor
  · rintro ⟨k, hk, hmark⟩
    rcases Nat.lt_trichotomy k url.length with hlt | rfl | hgt
    · rw [store_lt hlt] at hmark
      exact absurd (hmark ▸ List.getElem_mem hlt) hu.noMark
    · rw [store_length] at hmark
      exact absurd hmark.symm questionMark_ne_zero
    · rw [store_gt hgt] at hmark
      exact ⟨k, hgt, hk, hmark⟩
  · rintro ⟨k, hgt, hk, hmark⟩
    exact ⟨k, hk, by rw [store_gt hgt, hmark]⟩

theorem PlainUrl.cstr_eq (hu : PlainUrl url) : cstr url = url :=
  cstr_of_plain fun _ hb h0 => hu.noNul (h0 ▸ hb)

theorem PlainUrl.path (hu : PlainUrl url) (m : Locals) :
    stringAt (store m.path (copyUntil (· == questionMark) (store m.url url) 521 0)) 522 0 =
      url := by
  obtain ⟨t, ht, h0⟩ := copyUntil_store (· == questionMark) m.url url 521 (Nat.zero_le _)
  have hpass : ∀ b ∈ url, (!(b == questionMark)) = true := by
    intro b hb
    rw [Bool.not_eq_true', beq_eq_false_iff_ne]
    rintro rfl
    exact hu.noMark hb
  have htext : scanText (· == questionMark) url 521 0 = url := by
    rw [scanText, List.drop_zero, List.take_of_length_le hu.length_le]
    exact List.takeWhile_eq_self_iff.mpr hpass
  have hlen := copyUntil_length_le (· == questionMark) (store m.url url) 521 0
  rw [stringAt_whole m.path (Nat.lt_succ_of_le hlen), ht, htext, cstr_append_head_nul h0,
    hu.cstr_eq]

theorem PlainUrl.read (hu : PlainUrl url) (m : Locals) (tail : List Byte) : ∃ query cgi,
    readRequest m (getLine bufSize (getRequest url tail)).1 =
      ⟨bytes "GET", url, some url, query, cgi⟩ ∧
      (cgi = true ↔ StaleMark m url.length) := by
  obtain ⟨rest, hline⟩ := hu.line tail
  have hsize : (getRequest url rest).length < bufSize :=
    hline ▸ getLine_length_lt bufSize (by decide) _
  have hread := readRequest_of_methodEnds m hsize (plainGet_methodEnds url rest)
  have hlong : url.length < 1024 := hu.length_le.trans_lt (by decide)
  have hurl := stringAt_whole m.url hlong
  rw [hu.cstr_eq] at hurl
  have hcstr : cstr (bytes "GET") = bytes "GET" := by decide
  have hget : methodIs "GET" (bytes "GET") = true := by decide
  obtain ⟨query, hsplit⟩ := splitUrl_get m url hget (by decide)
  rw [hurl, hu.path m] at hsplit
  rw [plainGet_method, hu.urlBytes, hcstr, hsplit] at hread
  refine ⟨query, _, (congrArg (readRequest m) hline).trans hread, ?_⟩
  have hstop := copyUntil_stops_iff (· == questionMark) (store m.url url) 521 0
  rw [Nat.zero_add] at hstop
  exact hstop.trans (hu.mark_iff m)

end PlainGet

end LinuxStudy

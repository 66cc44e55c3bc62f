import LinuxStudy.RequestHandling

/-! When the outcome of a request does not depend on what the local arrays held
before it. The scans of the request line do not stop at a NUL: a line without
white space is continued in the old `buf`, and a URL without `?` in the old
`url`. -/

namespace LinuxStudy

def methodText (line : List Byte) : List Byte := scanText isspace line 99 0

def targetStart (line : List Byte) : Nat :=
  (methodText line).length + ((line.drop (methodText line).length).takeWhile isspace).length

def targetText (line : List Byte) : List Byte := scanText isspace line 1023 (targetStart line)

def MethodEnds (line : List Byte) : Prop := 99 ≤ line.length ∨ ∃ b ∈ line, isspace b = true

/-- The scan for `?` ends inside the URL. -/
def QueryScanEnds (line : List Byte) : Prop :=
  questionMark ∈ (targetText line).take 522 ∨ 521 ≤ (targetText line).length

theorem methodText_le (line : List Byte) : (methodText line).length ≤ line.length := by
  have h := (List.takeWhile_sublist (l := (line.drop 0).take 99) (fun b => !isspace b)).length_le
  rw [List.drop_zero, List.length_take] at h
  exact h.trans (Nat.min_le_right _ _)

theorem targetStart_le (line : List Byte) : targetStart line ≤ line.length := by
  have h1 := methodText_le line
  have h2 := (List.takeWhile_sublist (l := line.drop (methodText line).length) isspace).length_le
  rw [List.length_drop] at h2
  unfold targetStart
  omega

theorem readRequest_method (m : Locals) (line : List Byte) :
    (readRequest m line).method = cstr (methodText line) := by
  obtain ⟨t, ht, h0⟩ := copyUntil_store isspace m.buf line 99 (Nat.zero_le _)
  have hlen := copyUntil_length_le isspace (store m.buf line) 99 0
  simp only [readRequest, splitUrl]
  rw [stringAt_whole m.method (Nat.lt_succ_of_le hlen), ht, cstr_append_head_nul h0, methodText]

def urlBytes (m : Locals) (line : List Byte) : List Byte :=
  copyUntil isspace (store m.buf line) 1023 (targetStart line)

theorem methodEnds_copy (mem : Memory) {line : List Byte} (h : MethodEnds line) :
    copyUntil isspace (store mem line) 99 0 = methodText line := by
  apply copyUntil_store_ends
  rcases h with h | ⟨b, hb, hs⟩
  · exact .inl (by simpa using h)
  · by_cases hlen : 99 ≤ line.length
    · exact .inl (by simpa using hlen)
    · exact .inr ⟨b, by simpa [List.take_of_length_le (Nat.le_of_not_le hlen)] using hb, hs⟩

theorem readRequest_of_methodEnds (m : Locals) {line : List Byte} (hsize : line.length < bufSize)
    (h : MethodEnds line) :
    readRequest m line = splitUrl m (cstr (methodText line)) (urlBytes m line) := by
  have hskip : skipSpace (store m.buf line) (bufSize - (methodText line).length)
      (methodText line).length = targetStart line :=
    skipSpace_store m.buf line (methodText_le line) (by omega)
  have hmethod : stringAt (store m.method (methodText line)) 100 0 = cstr (methodText line) := by
    rw [← readRequest_method m line, readRequest, methodEnds_copy m.buf h]
    rfl
  rw [readRequest, methodEnds_copy m.buf h, hskip, hmethod, urlBytes]

theorem urlBytes_eq (m : Locals) (line : List Byte) :
    ∃ t, urlBytes m line = targetText line ++ t ∧ (t = [] ∨ t.head? = some 0) :=
  copyUntil_store isspace m.buf line 1023 (targetStart_le line)

theorem url_get (m : Locals) (line : List Byte) {k : Nat} (hk : k < (targetText line).length) :
    store m.url (urlBytes m line) k = (targetText line)[k] := by
  obtain ⟨t, ht, -⟩ := urlBytes_eq m line
  have hk' : k < (urlBytes m line).length := by rw [ht, List.length_append]; omega
  rw [store_lt hk']
  simp only [ht, List.getElem_append_left hk]

theorem url_get_length (m : Locals) (line : List Byte) :
    store m.url (urlBytes m line) (targetText line).length = 0 := by
  obtain ⟨t, ht, h0⟩ := urlBytes_eq m line
  rcases h0 with rfl | h0
  · rw [List.append_nil] at ht
    rw [ht, store_length]
  · obtain ⟨t, rfl⟩ : ∃ t', t = 0 :: t' := by
      cases t with
      | nil => simp at h0
      | cons b t => exact ⟨t, by simpa using h0⟩
    have hk : (targetText line).length < (urlBytes m line).length := by rw [ht]; simp
    rw [store_lt hk]
    simp [ht]

theorem url_get_congr (m m' : Locals) (line : List Byte) {k : Nat}
    (hk : k ≤ (targetText line).length) :
    store m'.url (urlBytes m' line) k = store m.url (urlBytes m line) k := by
  rcases Nat.lt_or_eq_of_le hk with hk | rfl
  · rw [url_get m' line hk, url_get m line hk]
  · rw [url_get_length, url_get_length]

theorem copyUntil_length_le_of_stop {stop : Byte → Bool} {mem : Memory} {n i : Nat} (limit : Nat)
    (h : stop (mem (i + n)) = true) : (copyUntil stop mem limit i).length ≤ n := by
  induction limit generalizing i n with
  | zero => simp [copyUntil]
  | succ limit ih =>
    rw [copyUntil]
    cases n with
    | zero => rw [if_pos (by simpa using h)]; simp
    | succ n =>
      have hh := ih (i := i + 1) (n := n) (by rwa [Nat.add_assoc, Nat.add_comm 1])
      split
      · simp
      · simpa using hh

theorem copyUntil_length_stop (stop : Byte → Bool) (mem : Memory) (limit i : Nat) :
    (copyUntil stop mem limit i).length = limit ∨
      stop (mem (i + (copyUntil stop mem limit i).length)) = true := by
  induction limit generalizing i with
  | zero => simp [copyUntil]
  | succ limit ih =>
    rw [copyUntil]
    by_cases hs : stop (mem i) = true
    · simp [hs]
    · have hh := ih (i + 1)
      rw [if_neg hs, List.length_cons]
      rwa [Nat.add_assoc, Nat.add_comm 1, ← Nat.add_right_cancel_iff (n := 1)] at hh

theorem splitUrl_of_not_get (m : Locals) {method urlBytes : List Byte}
    (hlen : urlBytes.length < 1024)
    (hget : methodIs "GET" method = false) :
    splitUrl m method urlBytes = ⟨method, cstr urlBytes, none, none, methodIs "POST" method⟩ := by
  have hs := stringAt_whole m.url hlen
  simp [splitUrl, hget, hs]

theorem urlBytes_length (m : Locals) (line : List Byte) : (urlBytes m line).length < 1024 :=
  Nat.lt_succ_of_le (copyUntil_length_le _ _ _ _)

/-- The part of `splitUrl` that looks for `?`: two memories agree on it when
the scan ends inside the URL. -/
theorem queryScan_congr (m m' : Locals) {line : List Byte} (h : QueryScanEnds line) :
    let p := copyUntil (· == questionMark) (store m.url (urlBytes m line)) 521 0
    copyUntil (· == questionMark) (store m'.url (urlBytes m' line)) 521 0 = p ∧
      p.length ≤ (targetText line).length := by
  intro p
  rcases h with h | h
  · obtain ⟨n, hn, hq⟩ := List.mem_iff_getElem.mp h
    rw [List.length_take] at hn
    have hn' : n < (targetText line).length := lt_of_lt_of_le hn (Nat.min_le_right _ _)
    rw [List.getElem_take] at hq
    have hstop : ∀ m : Locals, (store m.url (urlBytes m line) (0 + n) == questionMark) = true := by
      intro m
      rw [Nat.zero_add, url_get m line hn', hq]
      rfl
    refine ⟨copyUntil_congr (n := n) (fun k hk => ?_) (.inr (hstop m')), ?_⟩
    · rw [Nat.zero_add]
      exact url_get_congr m m' line (by omega)
    · have hle : (copyUntil (· == questionMark) (store m.url (urlBytes m line)) 521 0).length ≤ n :=
        copyUntil_length_le_of_stop 521 (hstop m)
      exact hle.trans hn'.le
  · refine ⟨copyUntil_congr (n := (targetText line).length) (fun k hk => ?_) (.inl h), ?_⟩
    · rw [Nat.zero_add]
      exact url_get_congr m m' line hk
    · have hle := copyUntil_length_le (· == questionMark) (store m.url (urlBytes m line)) 521 0
      exact hle.trans h

theorem questionMark_ne_zero : questionMark ≠ 0 := by decide

/-- A string that starts inside the URL ends with it. -/
theorem url_string (m : Locals) (line : List Byte) {i : Nat} (hi : i ≤ (targetText line).length) :
    stringAt (store m.url (urlBytes m line)) (1024 - i) i = cstr ((targetText line).drop i) := by
  obtain ⟨t, ht, h0⟩ := urlBytes_eq m line
  have hlen : (urlBytes m line).length = (targetText line).length + t.length := by
    rw [ht, List.length_append]
  have hlt := urlBytes_length m line
  rw [stringAt_store m.url (urlBytes m line) _ (by omega) (by omega), ht,
    List.drop_append_of_le_length hi, cstr_append_head_nul h0]

theorem splitUrl_congr (m m' : Locals) (method : List Byte) {line : List Byte}
    (h : QueryScanEnds line) :
    splitUrl m method (urlBytes m line) = splitUrl m' method (urlBytes m' line) := by
  obtain ⟨hp, hle⟩ := queryScan_congr m m' h
  have hurl : ∀ m : Locals, stringAt (store m.url (urlBytes m line)) 1024 0 =
      cstr (targetText line) := fun m => url_string m line (Nat.zero_le _)
  have hplen := copyUntil_length_le (· == questionMark) (store m.url (urlBytes m line)) 521 0
  have hmark := url_get_congr m m' line hle
  simp only [splitUrl, hp, hurl, hmark, stringAt_whole _ (Nat.lt_succ_of_le hplen)]
  rw [Request.mk.injEq]
  refine ⟨rfl, rfl, rfl, ?_, rfl⟩
  split
  · rename_i hasked
    rw [Bool.and_eq_true, beq_iff_eq] at hasked
    have hlt : (copyUntil (· == questionMark) (store m.url (urlBytes m line)) 521 0).length <
        (targetText line).length := by
      refine lt_of_le_of_ne hle fun he => ?_
      rw [he, url_get_length] at hasked
      exact questionMark_ne_zero hasked.2.symm
    rw [url_string m line (Nat.succ_le_of_lt hlt), url_string m' line (Nat.succ_le_of_lt hlt)]
  · rfl

theorem readRequest_const_url {c : Byte} (hs : isspace c = false) (h0 : c ≠ 0) {line : List Byte}
    (h : ¬ MethodEnds line) : (readRequest (.const c) line).url.head? = some c := by
  rw [MethodEnds, not_or, not_exists] at h
  have hlen : line.length < 99 := Nat.lt_of_not_le h.1
  have hplain : ∀ b ∈ line.drop 0, isspace b = false :=
    fun b hb => Bool.eq_false_iff.mpr fun hb' => h.2 b ⟨by simpa using hb, hb'⟩
  have hcopy := copyUntil_store_passes rfl hs (Nat.zero_le _) (Nat.sub_lt_of_lt hlen) hplain
  have hclen : (copyUntil isspace (store (fun _ => c) line) 99 0).length = 99 := by
    rw [hcopy]
    simp only [List.drop_zero, List.length_append, List.length_cons, List.length_replicate]
    omega
  have hat : store (fun _ => c) line 99 = c := store_gt (by omega)
  have hskip : skipSpace (store (fun _ => c) line) (bufSize - 99) 99 = 99 := by
    rw [show bufSize - 99 = 102300 + 1 from rfl, skipSpace, hat, hs]
    rfl
  have hurl : copyUntil isspace (store (fun _ => c) line) 1023 99 =
      c :: copyUntil isspace (store (fun _ => c) line) 1022 100 := by
    rw [copyUntil, hat, hs]
    rfl
  have hread : (readRequest (.const c) line).url =
      stringAt (store (fun _ => c) (c :: copyUntil isspace (store (fun _ => c) line) 1022 100))
        1024 0 := by
    rw [readRequest]
    simp only [Locals.const, hclen, hskip, hurl]
    rfl
  have hbound := copyUntil_length_le isspace (store (fun _ => c) line) 1022 100
  rw [hread, stringAt_whole _ (by rw [List.length_cons]; omega)]
  simp [cstr, h0]

theorem store_replicate {c : Byte} {s : List Byte} {n k : Nat} (hk : s.length < k)
    (hk' : k ≤ s.length + n) : store (fun _ => c) (s ++ 0 :: List.replicate n c) k = c := by
  have hlen : (s ++ 0 :: List.replicate n c).length = s.length + 1 + n := by
    simp only [List.length_append, List.length_cons, List.length_replicate]
    omega
  rw [store_lt (by omega), List.getElem_append_right hk.le]
  obtain ⟨j, hj⟩ : ∃ j, k - s.length = j + 1 := ⟨k - s.length - 1, by omega⟩
  simp [hj]

theorem url_get_const {c : Byte} (hs : isspace c = false) {line : List Byte} {k : Nat}
    (hk : (targetText line).length < k) (hk' : k < 1023) :
    store (Locals.const c).url (urlBytes (.const c) line) k = c := by
  by_cases h : 1023 ≤ line.length - targetStart line ∨
      ∃ b ∈ (line.drop (targetStart line)).take 1023, isspace b = true
  · have hcopy : urlBytes (.const c) line = targetText line :=
      copyUntil_store_ends isspace _ line h
    rw [hcopy, store_gt hk]
    rfl
  · rw [not_or, not_exists] at h
    have hlen : line.length - targetStart line < 1023 := Nat.lt_of_not_le h.1
    have htake : (line.drop (targetStart line)).take 1023 = line.drop (targetStart line) :=
      List.take_of_length_le (by rw [List.length_drop]; omega)
    have hspace : ∀ b ∈ line.drop (targetStart line), isspace b = false := fun b hb =>
      Bool.eq_false_iff.mpr fun hb' => h.2 b ⟨by rwa [htake], hb'⟩
    have htext : targetText line = line.drop (targetStart line) := by
      rw [targetText, scanText, htake, List.takeWhile_eq_self_iff]
      intro b hb
      rw [hspace b hb]
      rfl
    have hcopy := copyUntil_store_passes rfl hs (targetStart_le line) hlen hspace
    rw [← htext] at hcopy
    have htlen : (targetText line).length = line.length - targetStart line := by
      rw [htext, List.length_drop]
    rw [urlBytes]
    change store (fun _ => c)
      (copyUntil isspace (store (fun _ => c) line) 1023 (targetStart line)) k = c
    rw [hcopy]
    exact store_replicate hk (by omega)

/-- When the scan leaves the URL, it ends at a `?` only if the old memory is
made of them. -/
theorem queryScan_const {c : Byte} (hs : isspace c = false) {line : List Byte}
    (hscan : ¬ QueryScanEnds line) :
    let url := store (Locals.const c).url (urlBytes (.const c) line)
    (url (copyUntil (· == questionMark) url 521 0).length == questionMark) =
      (c == questionMark) := by
  intro url
  rw [QueryScanEnds, not_or] at hscan
  have hlen : (targetText line).length < 521 := Nat.lt_of_not_le hscan.2
  have hno : questionMark ∉ targetText line := by
    rw [← List.take_of_length_le (show (targetText line).length ≤ 522 by omega)]
    exact hscan.1
  have hat : ∀ k ≤ 521, url k = questionMark → c = questionMark := by
    intro k hk hmark
    rcases Nat.lt_trichotomy k (targetText line).length with hlt | rfl | hgt
    · rw [show url k = _ from url_get (.const c) line hlt] at hmark
      exact absurd (hmark ▸ List.getElem_mem hlt) hno
    · rw [show url _ = _ from url_get_length (.const c) line] at hmark
      exact absurd hmark.symm questionMark_ne_zero
    · rw [show url k = _ from url_get_const hs hgt (by omega)] at hmark
      exact hmark
  rw [Bool.eq_iff_iff, beq_iff_eq, beq_iff_eq]
  refine ⟨hat _ (copyUntil_length_le _ _ _ _), ?_⟩
  rintro rfl
  have hnext : url ((targetText line).length + 1) = questionMark :=
    url_get_const hs (by omega) (by omega)
  have hle : (copyUntil (· == questionMark) url 521 0).length ≤ (targetText line).length + 1 :=
    copyUntil_length_le_of_stop 521 (by rw [Nat.zero_add, hnext]; rfl)
  rcases copyUntil_length_stop (· == questionMark) url 521 0 with he | he
  · have hn : (targetText line).length + 1 = 521 := by omega
    rw [he, ← hn, hnext]
  · simpa using he

theorem readRequest_const_cgi {c : Byte} (hs : isspace c = false) {line : List Byte}
    (hsize : line.length < bufSize) (h : MethodEnds line)
    (hget : methodIs "GET" (cstr (methodText line)) = true) (hscan : ¬ QueryScanEnds line) :
    (readRequest (.const c) line).cgi =
      (methodIs "POST" (cstr (methodText line)) || c == questionMark) := by
  rw [readRequest_of_methodEnds _ hsize h, splitUrl]
  simp only [hget, Bool.true_and, queryScan_const hs hscan]

theorem getLine_length_lt (size : Nat) (hsize : 0 < size) (s : List Byte) :
    (getLine size s).1.length < size := by
  have := getLineLoop_le (size - 1) s
  unfold getLine
  omega

/-- The outcome is the same for all contents of the arrays exactly when the
method ends inside the line and, for GET, the scan for `?` inside the URL. -/
theorem stale_independent_iff (stream : List Byte) :
    (∀ m m' : Locals,
      readRequest m (getLine bufSize stream).1 = readRequest m' (getLine bufSize stream).1 ∧
      ∀ fs res, dealwithsock fs res m stream = dealwithsock fs res m' stream) ↔
    MethodEnds (getLine bufSize stream).1 ∧
      (methodIs "GET" (cstr (methodText (getLine bufSize stream).1)) = true →
        QueryScanEnds (getLine bufSize stream).1) := by
  have hsize : (getLine bufSize stream).1.length < bufSize :=
    getLine_length_lt bufSize (by decide) stream
  generalize hline : (getLine bufSize stream).1 = line at hsize
  constructor
  · intro h
    have hends : MethodEnds line := by
      by_contra hno
      have hurl := congrArg (fun r => r.url.head?) (h (.const 120) (.const 121)).1
      simp only [readRequest_const_url (c := 120) rfl (by decide) hno,
        readRequest_const_url (c := 121) rfl (by decide) hno] at hurl
      exact absurd hurl (by decide)
    refine ⟨hends, fun hget => ?_⟩
    by_contra hno
    have hcgi := congrArg Request.cgi (h (.const questionMark) (.const 120)).1
    rw [readRequest_const_cgi rfl hsize hends hget hno,
      readRequest_const_cgi rfl hsize hends hget hno] at hcgi
    have hpost : methodIs "POST" (cstr (methodText line)) = false := by
      rw [methodIs, strcasecmpEq, beq_iff_eq] at hget
      rw [methodIs, strcasecmpEq, ← hget]
      rfl
    rw [hpost] at hcgi
    exact absurd hcgi (by decide)
  · rintro ⟨hends, hscan⟩ m m'
    have heq : readRequest m line = readRequest m' line := by
      rw [readRequest_of_methodEnds m hsize hends, readRequest_of_methodEnds m' hsize hends]
      cases hget : methodIs "GET" (cstr (methodText line)) with
      | true => exact splitUrl_congr m m' _ (hscan hget)
      | false =>
        obtain ⟨t, ht, h0⟩ := urlBytes_eq m line
        obtain ⟨t', ht', h0'⟩ := urlBytes_eq m' line
        rw [splitUrl_of_not_get m (urlBytes_length m line) hget,
          splitUrl_of_not_get m' (urlBytes_length m' line) hget, ht, ht',
          cstr_append_head_nul h0, cstr_append_head_nul h0']
    refine ⟨heq, fun fs res => ?_⟩
    rw [dealwithsock, dealwithsock, hline, heq]

theorem stale_question_marks :
    ¬ ∀ m m' : Locals,
      readRequest m (getLine bufSize (bytes "GET / HTTP/1.0\r\n\r\n")).1 =
          readRequest m' (getLine bufSize (bytes "GET / HTTP/1.0\r\n\r\n")).1 ∧
        ∀ fs res, dealwithsock fs res m (bytes "GET / HTTP/1.0\r\n\r\n") =
          dealwithsock fs res m' (bytes "GET / HTTP/1.0\r\n\r\n") := by
  intro h
  have hline : (getLine bufSize (bytes "GET / HTTP/1.0\r\n\r\n")).1 = bytes "GET / HTTP/1.0\n" := by
    decide
  have hends : MethodEnds (bytes "GET / HTTP/1.0\n") := .inr ⟨32, by decide, rfl⟩
  have htarget : targetText (bytes "GET / HTTP/1.0\n") = bytes "/" := by decide
  have hscan : ¬ QueryScanEnds (bytes "GET / HTTP/1.0\n") := by
    rw [QueryScanEnds, htarget]
    decide
  have hcgi := congrArg Request.cgi (h (.const questionMark) (.const 120)).1
  rw [hline, readRequest_const_cgi rfl (by decide) hends (by decide) hscan,
    readRequest_const_cgi rfl (by decide) hends (by decide) hscan] at hcgi
  exact absurd hcgi (by decide)

end LinuxStudy

import LinuxStudy.QueryScanner
import LinuxStudy.QuotedLiteral

/-! The INSERT statement that the submitted values are put into, and how MySQL
reads it back. The scanner quotes values without escaping them. -/

namespace LinuxStudy

def insertHead : List Byte := bytes "INSERT INTO tbl_douyu(name,platform,room_id,id)values("

def closeParen : Byte := 41

def sqlInsert (str : List Byte) : List Byte := cstr (insertHead ++ str ++ [closeParen])

/-- What `main` of the insert program sends, if it sends anything. -/
def insertStatement (method query : Option (List Byte)) : Option (List Byte) :=
  match getData method query with
  | none => none
  | some str => if str = [] then none else some (sqlInsert str)

def backslash : Byte := 92

/-- What a backslash sequence of a MySQL string literal denotes. -/
def mysqlUnescape (d : Byte) : List Byte :=
  if d = 48 then [0]
  else if d = 98 then [8]
  else if d = 110 then [10]
  else if d = 114 then [13]
  else if d = 116 then [9]
  else if d = 90 then [26]
  else if d = 37 ∨ d = 95 then [backslash, d]
  else [d]

def mysqlQuote (q : Byte) : Prop := q = quote ∨ q = 34

/-- The statement is a single INSERT with one row of string literals that
denote the given texts. -/
def ReadsInsert (text : List Byte) (vs : List (List Byte)) : Prop :=
  ∃ s, text = insertHead ++ s ∧
    LiteralList isspace mysqlQuote backslash mysqlUnescape comma closeParen s vs

/-- Values that a quoted MySQL literal denotes as they stand: they have no
quote, and a backslash only before `%` or `_`. -/
abbrev SqlVerbatim : List Byte → Prop := Verbatim backslash mysqlUnescape quote

theorem mysqlUnescape_length (d : Byte) : (mysqlUnescape d).length ≤ 2 := by
  unfold mysqlUnescape
  repeat' split
  all_goals simp

theorem mysqlUnescape_pair (d : Byte) (h : (mysqlUnescape d).length = 2) :
    mysqlUnescape d = [backslash, d] := by
  revert h
  unfold mysqlUnescape
  repeat' split
  all_goals simp

theorem scannedSegments_quoteAll (segs : List (List Byte)) (hne : segs ≠ [])
    (hlast : equalsSign ∈ segs.getLast hne) :
    scannedSegments segs ++ [closeParen] =
        quoteAll comma closeParen quote (segs.filterMap segmentValue) ∧
      segs.filterMap segmentValue ≠ [] := by
  induction segs with
  | nil => exact absurd rfl hne
  | cons s rest ih =>
    cases rest with
    | nil =>
      have hs : segmentValue s = some (s.dropWhile (· != equalsSign)).tail := if_pos hlast
      simp [scannedSegments, hs, closeValue, quoteAll]
    | cons t rest =>
      obtain ⟨hrest, hvs⟩ := ih (by simp) (by simpa using hlast)
      cases hs : segmentValue s with
      | none =>
        rw [scannedSegments, hs, List.filterMap_cons_none hs]
        exact ⟨hrest, hvs⟩
      | some v =>
        rw [scannedSegments, hs, List.filterMap_cons_some hs]
        obtain ⟨w, ws, hw⟩ := List.exists_cons_of_ne_nil hvs
        refine ⟨?_, by simp⟩
        rw [List.append_assoc, hrest, hw]
        simp [closeValue, quoteAll]

theorem mem_scanQuery {b : Byte} (m : Bool) (q : List Byte) (h : b ∈ scanQuery m q) :
    b ∈ q ∨ b = quote ∨ b = comma := by
  induction q generalizing m with
  | nil => cases m <;> simp_all [scanQuery]
  | cons c q ih =>
    cases m with
    | false =>
      by_cases hc : c = equalsSign
      · simp only [scanQuery, hc, if_true, List.mem_cons] at h
        rcases h with rfl | h
        · exact .inr (.inl rfl)
        · exact (ih true h).imp_left (List.mem_cons_of_mem c)
      · simp only [scanQuery, hc, if_false] at h
        exact (ih false h).imp_left (List.mem_cons_of_mem c)
    | true =>
      by_cases hc : c = ampersand
      · simp only [scanQuery, hc, if_true, List.mem_cons] at h
        rcases h with rfl | rfl | h
        · exact .inr (.inl rfl)
        · exact .inr (.inr rfl)
        · exact (ih false h).imp_left (List.mem_cons_of_mem c)
      · simp only [scanQuery, hc, if_false, List.mem_cons] at h
        rcases h with rfl | h
        · exact .inl List.mem_cons_self
        · exact (ih true h).imp_left (List.mem_cons_of_mem c)

theorem cstr_sqlInsert {str : List Byte} (h : ∀ b ∈ str, b ≠ 0) :
    sqlInsert str = insertHead ++ str ++ [closeParen] := by
  apply cstr_of_plain
  intro b hb
  simp only [List.append_assoc, List.mem_append, List.mem_singleton] at hb
  rcases hb with hb | hb | rfl
  · exact (forall_mem_of_all (by decide) : ∀ b ∈ insertHead, b ≠ 0) b hb
  · exact h b hb
  · decide

theorem insertStatement_get (q : List Byte) (hnul : ∀ b ∈ q, b ≠ 0)
    (hlast : equalsSign ∈ (querySegments q).getLast (List.splitOn_ne_nil ampersand q)) :
    insertStatement (some (bytes "GET")) (some q) =
      some (insertHead ++ quoteAll comma closeParen quote (submittedValues q)) := by
  obtain ⟨hq, hvs⟩ := scannedSegments_quoteAll (querySegments q) _ hlast
  have hscan := (scanQuery_segments q).1
  have hnul' : ∀ b ∈ scannedSegments (querySegments q), b ≠ 0 := by
    intro b hb
    rcases mem_scanQuery false q (hscan ▸ hb) with hb | rfl | rfl
    · exact hnul b hb
    · decide
    · decide
  have hne : scannedSegments (querySegments q) ≠ [] := by
    intro he
    obtain ⟨v, vs, hv⟩ := List.exists_cons_of_ne_nil hvs
    have hlen := congrArg List.length hq
    rw [he, hv] at hlen
    cases vs <;> simp [quoteAll] at hlen
  simp only [insertStatement, getData_get q hnul, if_neg hne, cstr_sqlInsert hnul',
    List.append_assoc, hq, submittedValues]

/-- The statement is read back as the submitted values exactly when every one
of them denotes itself between quotes. -/
theorem insertStatement_faithful_iff (q : List Byte) (hnul : ∀ b ∈ q, b ≠ 0)
    (hlast : equalsSign ∈ (querySegments q).getLast (List.splitOn_ne_nil ampersand q)) :
    (∃ text, insertStatement (some (bytes "GET")) (some q) = some text ∧
      ReadsInsert text (submittedValues q)) ↔
    ∀ v ∈ submittedValues q, SqlVerbatim v := by
  obtain ⟨v, vs, hvs⟩ :=
    List.exists_cons_of_ne_nil (scannedSegments_quoteAll (querySegments q) _ hlast).2
  have hvs' : submittedValues q = v :: vs := hvs
  rw [insertStatement_get q hnul hlast]
  constructor
  · rintro ⟨text, ht, s, hs, hread⟩
    rw [← Option.some.inj ht] at hs
    rw [← List.append_cancel_left hs] at hread
    exact hread.verbatim mysqlUnescape_length mysqlUnescape_pair rfl rfl
  · intro h
    rw [hvs'] at h ⊢
    exact ⟨_, rfl, _, rfl, .of_verbatim (.inl rfl) rfl rfl rfl (by decide) (by decide) h⟩

theorem insertStatement_faithful_plain :
    ∃ text, insertStatement (some (bytes "GET")) (some (bytes "name=ann&id=7")) = some text ∧
      ReadsInsert text [bytes "ann", bytes "7"] :=
  (insertStatement_faithful_iff (bytes "name=ann&id=7") (forall_mem_of_all (by decide))
    (by decide)).mpr fun v hv => by
    have hp : ∀ v ∈ submittedValues (bytes "name=ann&id=7"),
        v.all (fun c => decide (c ≠ quote ∧ c ≠ backslash)) = true := by decide
    exact .of_plain (forall_mem_of_all (hp v hv))

def apostropheQuery : List Byte := bytes "name=O'Brien"

theorem insertStatement_apostrophe :
    (∀ b ∈ apostropheQuery, b ≠ 0) ∧
      equalsSign ∈ (querySegments apostropheQuery).getLast
        (List.splitOn_ne_nil ampersand apostropheQuery) ∧
      ¬ ∃ text, insertStatement (some (bytes "GET")) (some apostropheQuery) = some text ∧
        ReadsInsert text (submittedValues apostropheQuery) := by
  have hnul : ∀ b ∈ apostropheQuery, b ≠ 0 := forall_mem_of_all (by decide)
  refine ⟨hnul, by decide, ?_⟩
  rintro ⟨text, ht, s, hs, hread⟩
  rw [insertStatement_get apostropheQuery hnul (by decide)] at ht
  rw [← Option.some.inj ht] at hs
  rw [← List.append_cancel_left hs] at hread
  have hv := hread.verbatim mysqlUnescape_length mysqlUnescape_pair rfl rfl (bytes "O'Brien")
    (by decide)
  exact hv.not_mem (by decide) (by decide)

end LinuxStudy

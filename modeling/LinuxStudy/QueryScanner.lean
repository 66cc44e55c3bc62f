import LinuxStudy.CText

/-! `get_data` of the SQL insert program. Its two nested pointer loops are one
pass over the query string with a flag that says the inner loop is running;
the end of the list is the terminating NUL. -/

namespace LinuxStudy

def ampersand : Byte := 38

def equalsSign : Byte := 61

def quote : Byte := 39

def comma : Byte := 44

/-- What the loops append to `str`. The inner loop ends at `&` or at the NUL,
where the outer one breaks. -/
def scanQuery : Bool → List Byte → List Byte
  | false, [] => []
  | false, c :: q => if c = equalsSign then quote :: scanQuery true q else scanQuery false q
  | true, [] => [quote]
  | true, c :: q =>
    if c = ampersand then quote :: comma :: scanQuery false q else c :: scanQuery true q

/-- `get_data` on the environment's `METHOD` and `QUERY_STRING`. There is no
result where the program follows a null pointer. -/
def getData (method query : Option (List Byte)) : Option (List Byte) :=
  match method with
  | none => some []
  | some m =>
    if strcmpEq (bytes "GET") m then query.map fun q => scanQuery false (cstr q) else some []

def segmentValue (s : List Byte) : Option (List Byte) :=
  if equalsSign ∈ s then some ((s.dropWhile (· != equalsSign)).tail) else none

def querySegments (q : List Byte) : List (List Byte) := q.splitOn ampersand

def submittedValues (q : List Byte) : List (List Byte) := (querySegments q).filterMap segmentValue

def closeValue (rest : List (List Byte)) (v : List Byte) : List Byte :=
  v ++ quote :: (if rest = [] then [] else [comma])

def scannedSegments : List (List Byte) → List Byte
  | [] => []
  | s :: rest =>
    (match segmentValue s with
      | none => []
      | some v => quote :: closeValue rest v) ++ scannedSegments rest

theorem segmentValue_cons_of_ne {c : Byte} (hc : c ≠ equalsSign) (s : List Byte) :
    segmentValue (c :: s) = segmentValue s := by
  simp [segmentValue, hc, hc.symm]

theorem segmentValue_equals (s : List Byte) : segmentValue (equalsSign :: s) = some s := by
  simp [segmentValue]

/-- The scanner agrees with the split at `&`, in both of its modes. -/
theorem scanQuery_segments (q : List Byte) :
    scanQuery false q = scannedSegments (querySegments q) ∧
      ∀ v rest, querySegments q = v :: rest →
        scanQuery true q = closeValue rest v ++ scannedSegments rest := by
  induction q with
  | nil =>
    refine ⟨rfl, fun v rest h => ?_⟩
    rw [querySegments, List.splitOn_nil, List.cons.injEq] at h
    obtain ⟨rfl, rfl⟩ := h
    rfl
  | cons c q ih =>
    obtain ⟨v, rest, hq⟩ := List.exists_cons_of_ne_nil (List.splitOn_ne_nil ampersand q)
    have hsegs : querySegments q = v :: rest := hq
    by_cases hc : c = ampersand
    · subst c
      have hcons : querySegments (ampersand :: q) = [] :: querySegments q := by
        simp [querySegments, List.splitOn_cons_eq_if_modifyHead]
      refine ⟨?_, fun v' rest' h => ?_⟩
      · have hne : ampersand ≠ equalsSign := by decide
        rw [scanQuery, if_neg hne, ih.1, hcons]
        rfl
      · rw [hcons, List.cons.injEq] at h
        obtain ⟨rfl, rfl⟩ := h
        have hne : querySegments q ≠ [] := List.splitOn_ne_nil ampersand q
        simp [scanQuery, closeValue, hne, ← ih.1]
    · have hcons : querySegments (c :: q) = (c :: v) :: rest := by
        simp [querySegments, List.splitOn_cons_eq_if_modifyHead, hc, hq]
      refine ⟨?_, fun v' rest' h => ?_⟩
      · rw [hcons]
        by_cases he : c = equalsSign
        · subst c
          rw [scanQuery, if_pos rfl, ih.2 v rest hsegs]
          simp [scannedSegments, segmentValue_equals]
        · rw [scanQuery, if_neg he, ih.1, hsegs]
          simp [scannedSegments, segmentValue_cons_of_ne he]
      · rw [hcons, List.cons.injEq] at h
        obtain ⟨rfl, rfl⟩ := h
        rw [scanQuery, if_neg hc, ih.2 v rest hsegs]
        rfl

theorem getData_get (q : List Byte) (h : ∀ b ∈ q, b ≠ 0) :
    getData (some (bytes "GET")) (some q) = some (scannedSegments (querySegments q)) := by
  have hm : strcmpEq (bytes "GET") (bytes "GET") = true := rfl
  simp [getData, hm, cstr_of_plain h, (scanQuery_segments q).1]

end LinuxStudy

import LinuxStudy.QueryScanner

/-! `get_data` against the grammar of a query string: the values of the segments
with `=`, quoted and joined with commas. -/

namespace LinuxStudy

def quoted (v : List Byte) : List Byte := quote :: v ++ [quote]

/-- The list of values that a query string stands for. -/
def joinedValues (segments : List (List Byte)) : List Byte :=
  [comma].intercalate ((segments.filterMap segmentValue).map quoted)

/-- The last of the segments has a value. -/
def EndsInValue (segments : List (List Byte)) : Prop :=
  ∃ s, segments.getLast? = some s ∧ equalsSign ∈ s

theorem segmentValue_isSome_iff (s : List Byte) : (segmentValue s).isSome ↔ equalsSign ∈ s := by
  rw [segmentValue]
  split
  · rename_i h
    exact iff_of_true rfl h
  · rename_i h
    exact iff_of_false Bool.false_ne_true h

theorem segmentValue_eq_none_iff (s : List Byte) : segmentValue s = none ↔ equalsSign ∉ s := by
  rw [← segmentValue_isSome_iff, Option.not_isSome_iff_eq_none]

section Segments

variable {s : List Byte} {segments : List (List Byte)}

theorem endsInValue_singleton : EndsInValue [s] ↔ equalsSign ∈ s := by
  constructor
  · rintro ⟨t, ht, h⟩
    have hs : s = t := Option.some.inj ht
    rwa [hs]
  · intro h
    exact ⟨s, rfl, h⟩

theorem endsInValue_cons (hne : segments ≠ []) :
    EndsInValue (s :: segments) ↔ EndsInValue segments := by
  rw [EndsInValue, EndsInValue, List.getLast?_cons_of_ne_nil hne]

theorem joinedValues_cons_none (h : segmentValue s = none) :
    joinedValues (s :: segments) = joinedValues segments := by
  rw [joinedValues, List.filterMap_cons_none h, joinedValues]

theorem joinedValues_cons_some {v : List Byte} (h : segmentValue s = some v) :
    joinedValues (s :: segments) = quoted v ++
      (if segments.filterMap segmentValue = [] then [] else comma :: joinedValues segments) := by
  rw [joinedValues, List.filterMap_cons_some h, List.map_cons]
  split
  · rename_i hnone
    rw [hnone, List.map_nil, List.intercalate_singleton, List.append_nil]
  · rename_i hsome
    have hne : (segments.filterMap segmentValue).map quoted ≠ [] := fun he =>
      hsome (List.map_eq_nil_iff.mp he)
    rw [List.intercalate_cons_of_ne_nil hne, joinedValues, List.append_assoc]
    rfl

/-- Behind the values the scanner leaves a comma, unless there are none or the
last segment has one. -/
theorem scannedSegments_eq (segments : List (List Byte)) :
    ∃ tail, scannedSegments segments = joinedValues segments ++ tail ∧
      (tail = [] ↔ segments.filterMap segmentValue = [] ∨ EndsInValue segments) := by
  induction segments with
  | nil => exact ⟨[], rfl, iff_of_true rfl (.inl rfl)⟩
  | cons s segments ih =>
    obtain ⟨tail, hscan, htail⟩ := ih
    cases hs : segmentValue s with
    | none =>
      have hno := (segmentValue_eq_none_iff s).mp hs
      refine ⟨tail, ?_, ?_⟩
      · rw [scannedSegments, hs, joinedValues_cons_none hs, hscan]
        rfl
      · rw [htail, List.filterMap_cons_none hs]
        by_cases hne : segments = []
        · subst hne
          exact iff_of_true (.inl rfl) (.inl rfl)
        · rw [endsInValue_cons hne]
    | some v =>
      have hmem : equalsSign ∈ s := (segmentValue_isSome_iff s).mp (by rw [hs]; rfl)
      by_cases hne : segments = []
      · subst hne
        refine ⟨[], ?_, iff_of_true rfl (.inr (endsInValue_singleton.mpr hmem))⟩
        rw [scannedSegments, hs, joinedValues_cons_some hs]
        simp [scannedSegments, closeValue, quoted]
      · rw [endsInValue_cons hne, List.filterMap_cons_some hs, joinedValues_cons_some hs]
        by_cases hvalues : segments.filterMap segmentValue = []
        · refine ⟨comma :: scannedSegments segments, ?_, iff_of_false (List.cons_ne_nil _ _) ?_⟩
          · rw [scannedSegments, hs, if_pos hvalues]
            simp [closeValue, quoted, hne]
          · rintro (h | ⟨t, ht, h⟩)
            · exact List.cons_ne_nil _ _ h
            · have hnone := List.filterMap_eq_nil_iff.mp hvalues t (List.mem_of_getLast? ht)
              exact (segmentValue_eq_none_iff t).mp hnone h
        · refine ⟨tail, ?_, ?_⟩
          · rw [scannedSegments, hs, if_neg hvalues, hscan]
            simp [closeValue, quoted, hne]
          · rw [htail, or_iff_right hvalues, or_iff_right (List.cons_ne_nil _ _)]

end Segments

/-- The scanner builds the list of the grammar exactly when no segment has a
value or the last one does. -/
theorem query_grammar_iff {q : List Byte} (h : ∀ b ∈ q, b ≠ 0) :
    getData (some (bytes "GET")) (some q) = some (joinedValues (querySegments q)) ↔
      (∀ s ∈ querySegments q, equalsSign ∉ s) ∨ EndsInValue (querySegments q) := by
  obtain ⟨tail, hscan, htail⟩ := scannedSegments_eq (querySegments q)
  have hnone : (querySegments q).filterMap segmentValue = [] ↔
      ∀ s ∈ querySegments q, equalsSign ∉ s := by
    rw [List.filterMap_eq_nil_iff]
    exact forall₂_congr fun s _ => segmentValue_eq_none_iff s
  rw [getData_get q h, Option.some_inj, hscan, List.append_right_eq_self, htail, hnone]

theorem query_grammar_two_values :
    getData (some (bytes "GET")) (some (bytes "x&a=1&&b=2=3")) = some (bytes "'1','2=3'") :=
  (query_grammar_iff (forall_mem_of_all (by decide))).mpr (.inr ⟨bytes "b=2=3", by decide⟩) |>.trans
    (by decide)

theorem query_trailing_comma :
    getData (some (bytes "GET")) (some (bytes "a=1&b")) = some (bytes "'1',") ∧
      getData (some (bytes "GET")) (some (bytes "a=1&b")) ≠
        some (joinedValues (querySegments (bytes "a=1&b"))) := by
  decide

end LinuxStudy

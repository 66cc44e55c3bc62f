import Mathlib.Algebra.Group.Even
import Mathlib.Algebra.Group.Nat.Even
import LinuxStudy.QueryScanner
import LinuxStudy.RequestLine

/-! The loops of `get_data` one pointer step at a time. A state is the statement
that comes next, with `query` as an index into the environment's memory, which is
the number of increments so far; `str` remembers which of its bytes the scanner
added. -/

namespace LinuxStudy

inductive ScanPlace
  | test | body | inner | close | advance | done
  deriving DecidableEq

inductive Piece
  | added (b : Byte)
  | copied (b : Byte)
  deriving DecidableEq

def Piece.byte : Piece → Byte
  | added b | copied b => b

structure QueryScan where
  place : ScanPlace
  query : Nat
  str : List Piece

namespace QueryScan

def start : QueryScan := ⟨.test, 0, []⟩

/-- The next statement, where `c` is the byte at `query`. -/
def step (c : Byte) : QueryScan → QueryScan
  | ⟨.test, query, str⟩ => if c ≠ 0 then ⟨.body, query, str⟩ else ⟨.done, query, str⟩
  | ⟨.body, query, str⟩ =>
    if c = equalsSign then ⟨.inner, query + 1, str ++ [.added quote]⟩ else ⟨.advance, query, str⟩
  | ⟨.inner, query, str⟩ =>
    if c ≠ ampersand ∧ c ≠ 0 then ⟨.inner, query + 1, str ++ [.copied c]⟩
    else ⟨.close, query, str⟩
  | ⟨.close, query, str⟩ =>
    if c = ampersand then ⟨.advance, query, str ++ [.added quote, .added comma]⟩
    else ⟨.done, query, str ++ [.added quote]⟩
  | ⟨.advance, query, str⟩ => ⟨.test, query + 1, str⟩
  | ⟨.done, query, str⟩ => ⟨.done, query, str⟩

def next (mem : Memory) (s : QueryScan) : QueryScan := s.step (mem s.query)

def run (mem : Memory) (k : Nat) : QueryScan := (next mem)^[k] start

def quotes (str : List Piece) : Nat := str.count (.added quote)

/-- How far the loops have come in the string `q`, and what is still to be
appended. A value is open in the inner loop and behind it. -/
inductive Sound (q : List Byte) : QueryScan → Prop
  | test {i : Nat} {str : List Piece} (hi : i ≤ q.length) (hquotes : Even (quotes str))
      (htext : str.map Piece.byte ++ scanQuery false (q.drop i) = scanQuery false q) :
      Sound q ⟨.test, i, str⟩
  | body {i : Nat} {str : List Piece} (hi : i < q.length) (hquotes : Even (quotes str))
      (htext : str.map Piece.byte ++ scanQuery false (q.drop i) = scanQuery false q) :
      Sound q ⟨.body, i, str⟩
  | inner {i : Nat} {str : List Piece} (hi : i ≤ q.length) (hquotes : Odd (quotes str))
      (htext : str.map Piece.byte ++ scanQuery true (q.drop i) = scanQuery false q) :
      Sound q ⟨.inner, i, str⟩
  | close {i : Nat} {str : List Piece} (hi : i ≤ q.length) (hquotes : Odd (quotes str))
      (hend : ∀ c ∈ q[i]?, c = ampersand)
      (htext : str.map Piece.byte ++ scanQuery true (q.drop i) = scanQuery false q) :
      Sound q ⟨.close, i, str⟩
  | advance {i : Nat} {str : List Piece} (hi : i < q.length) (hquotes : Even (quotes str))
      (htext : str.map Piece.byte ++ scanQuery false (q.drop (i + 1)) = scanQuery false q) :
      Sound q ⟨.advance, i, str⟩
  | done {i : Nat} {str : List Piece} (hi : i ≤ q.length) (hquotes : Even (quotes str))
      (htext : str.map Piece.byte = scanQuery false q) : Sound q ⟨.done, i, str⟩

/-- A bound on the statements still to come, in a string of `n` bytes. -/
def rank (n : Nat) (s : QueryScan) : Nat :=
  match s.place with
  | .test => 3 * (n - s.query) + 1
  | .body => 3 * (n - s.query)
  | .inner => 3 * (n - s.query) + 2
  | .close => 3 * (n - s.query) + 1
  | .advance => 3 * (n - s.query) - 1
  | .done => 0

/-- `t` comes after `s` and is nearer to the end. -/
def Onward (q : List Byte) (s t : QueryScan) : Prop := Sound q t ∧ t.rank q.length < s.rank q.length

section Sound

variable {q : List Byte} {s : QueryScan} {mem : Memory} {i : Nat} {str : List Piece}

theorem Sound.query_le (h : Sound q s) : s.query ≤ q.length := by
  cases h with
  | test hi | inner hi | close hi | done hi => exact hi
  | body hi | advance hi => exact Nat.le_of_lt hi

theorem Sound.ended (h : Sound q s) (hdone : s.place = .done) :
    Even (quotes s.str) ∧ s.str.map Piece.byte = scanQuery false q := by
  cases h with
  | done _ hquotes htext => exact ⟨hquotes, htext⟩
  | test | body | inner | close | advance => cases hdone

theorem sound_start (q : List Byte) : Sound q start :=
  .test (Nat.zero_le _) .zero rfl

theorem quotes_append (str str' : List Piece) :
    quotes (str ++ str') = quotes str + quotes str' := List.count_append ..

theorem store_end (hi : i ≤ q.length) (hend : ¬ i < q.length) : store mem q i = 0 := by
  rw [Nat.le_antisymm hi (Nat.le_of_not_lt hend), store_length]

theorem onward_test (hnul : ∀ b ∈ q, b ≠ 0) (hi : i ≤ q.length) (hquotes : Even (quotes str))
    (htext : str.map Piece.byte ++ scanQuery false (q.drop i) = scanQuery false q) :
    Onward q ⟨.test, i, str⟩ (next (store mem q) ⟨.test, i, str⟩) := by
  by_cases hlt : i < q.length
  · have hc : store mem q i ≠ 0 := by
      rw [store_lt hlt]
      exact hnul _ (List.getElem_mem hlt)
    have hnext : next (store mem q) ⟨.test, i, str⟩ = ⟨.body, i, str⟩ := if_pos hc
    rw [hnext]
    exact ⟨.body hlt hquotes htext, Nat.lt_succ_self _⟩
  · have hc : store mem q i = 0 := store_end hi hlt
    have hnext : next (store mem q) ⟨.test, i, str⟩ = ⟨.done, i, str⟩ := if_neg (not_not.mpr hc)
    rw [List.drop_eq_nil_of_le (Nat.le_of_not_lt hlt), scanQuery, List.append_nil] at htext
    rw [hnext]
    exact ⟨.done hi hquotes htext, Nat.succ_pos _⟩

theorem onward_body (hi : i < q.length) (hquotes : Even (quotes str))
    (htext : str.map Piece.byte ++ scanQuery false (q.drop i) = scanQuery false q) :
    Onward q ⟨.body, i, str⟩ (next (store mem q) ⟨.body, i, str⟩) := by
  have hc : store mem q i = q[i] := store_lt hi
  rw [List.drop_eq_getElem_cons hi, scanQuery] at htext
  by_cases he : q[i] = equalsSign
  · have hnext : next (store mem q) ⟨.body, i, str⟩ =
        ⟨.inner, i + 1, str ++ [.added quote]⟩ := if_pos (hc.trans he)
    rw [if_pos he] at htext
    rw [hnext]
    refine ⟨.inner hi ?_ ?_, ?_⟩
    · rw [quotes_append]
      exact hquotes.add_one
    · rw [List.map_append, List.append_assoc]
      exact htext
    · simp only [rank]
      omega
  · have hnext : next (store mem q) ⟨.body, i, str⟩ = ⟨.advance, i, str⟩ :=
      if_neg fun heq => he (hc.symm.trans heq)
    rw [if_neg he] at htext
    rw [hnext]
    refine ⟨.advance hi hquotes htext, ?_⟩
    simp only [rank]
    omega

theorem onward_inner (hnul : ∀ b ∈ q, b ≠ 0) (hi : i ≤ q.length) (hquotes : Odd (quotes str))
    (htext : str.map Piece.byte ++ scanQuery true (q.drop i) = scanQuery false q) :
    Onward q ⟨.inner, i, str⟩ (next (store mem q) ⟨.inner, i, str⟩) := by
  by_cases hgo : ∃ hlt : i < q.length, q[i] ≠ ampersand
  · obtain ⟨hlt, ha⟩ := hgo
    have hc : store mem q i = q[i] := store_lt hlt
    have hne : store mem q i ≠ ampersand ∧ store mem q i ≠ 0 := by
      rw [hc]
      exact ⟨ha, hnul _ (List.getElem_mem hlt)⟩
    have hnext : next (store mem q) ⟨.inner, i, str⟩ =
        ⟨.inner, i + 1, str ++ [.copied q[i]]⟩ := by
      rw [← hc]
      exact if_pos hne
    rw [List.drop_eq_getElem_cons hlt, scanQuery, if_neg ha] at htext
    rw [hnext]
    refine ⟨.inner hlt ?_ ?_, ?_⟩
    · rw [quotes_append]
      exact hquotes
    · rw [List.map_append, List.append_assoc]
      exact htext
    · simp only [rank]
      omega
  · have hend : ∀ c ∈ q[i]?, c = ampersand := by
      intro c hc
      obtain ⟨hlt, rfl⟩ := List.getElem?_eq_some_iff.mp hc
      exact not_not.mp fun ha => hgo ⟨hlt, ha⟩
    have hstop : ¬ (store mem q i ≠ ampersand ∧ store mem q i ≠ 0) := by
      rintro ⟨ha, hzero⟩
      by_cases hlt : i < q.length
      · exact ha ((store_lt hlt).trans (hend _ (List.getElem?_eq_getElem hlt)))
      · exact hzero (store_end hi hlt)
    have hnext : next (store mem q) ⟨.inner, i, str⟩ = ⟨.close, i, str⟩ := if_neg hstop
    rw [hnext]
    exact ⟨.close hi hquotes hend htext, Nat.lt_succ_self _⟩

theorem onward_close (hi : i ≤ q.length) (hquotes : Odd (quotes str))
    (hend : ∀ c ∈ q[i]?, c = ampersand)
    (htext : str.map Piece.byte ++ scanQuery true (q.drop i) = scanQuery false q) :
    Onward q ⟨.close, i, str⟩ (next (store mem q) ⟨.close, i, str⟩) := by
  by_cases hlt : i < q.length
  · have ha : q[i] = ampersand := hend _ (List.getElem?_eq_getElem hlt)
    have hnext : next (store mem q) ⟨.close, i, str⟩ =
        ⟨.advance, i, str ++ [.added quote, .added comma]⟩ := if_pos ((store_lt hlt).trans ha)
    rw [List.drop_eq_getElem_cons hlt, scanQuery, if_pos ha] at htext
    rw [hnext]
    refine ⟨.advance hlt ?_ ?_, ?_⟩
    · rw [quotes_append]
      exact hquotes.add_one
    · rw [List.map_append, List.append_assoc]
      exact htext
    · simp only [rank]
      omega
  · have hne : store mem q i ≠ ampersand := by
      rw [store_end hi hlt]
      decide
    have hnext : next (store mem q) ⟨.close, i, str⟩ = ⟨.done, i, str ++ [.added quote]⟩ :=
      if_neg hne
    rw [List.drop_eq_nil_of_le (Nat.le_of_not_lt hlt), scanQuery] at htext
    rw [hnext]
    refine ⟨.done hi ?_ ?_, Nat.succ_pos _⟩
    · rw [quotes_append]
      exact hquotes.add_one
    · rw [List.map_append]
      exact htext

theorem onward_advance (hi : i < q.length) (hquotes : Even (quotes str))
    (htext : str.map Piece.byte ++ scanQuery false (q.drop (i + 1)) = scanQuery false q) :
    Onward q ⟨.advance, i, str⟩ ⟨.test, i + 1, str⟩ := by
  refine ⟨.test hi hquotes htext, ?_⟩
  simp only [rank]
  omega

theorem Sound.onward (h : Sound q s) (hnul : ∀ b ∈ q, b ≠ 0) (hgo : s.place ≠ .done) :
    Onward q s (s.next (store mem q)) := by
  cases h with
  | test hi hquotes htext => exact onward_test hnul hi hquotes htext
  | body hi hquotes htext => exact onward_body hi hquotes htext
  | inner hi hquotes htext => exact onward_inner hnul hi hquotes htext
  | close hi hquotes hend htext => exact onward_close hi hquotes hend htext
  | advance hi hquotes htext => exact onward_advance hi hquotes htext
  | done => exact absurd rfl hgo

theorem Sound.next (h : Sound q s) (hnul : ∀ b ∈ q, b ≠ 0) : Sound q (s.next (store mem q)) := by
  by_cases hdone : s.place = .done
  · cases h with
    | done hi hquotes htext => exact .done hi hquotes htext
    | test | body | inner | close | advance => cases hdone
  · exact (h.onward hnul hdone).1

theorem Sound.ends (h : Sound q s) (hnul : ∀ b ∈ q, b ≠ 0) :
    ∃ k ≤ s.rank q.length, ((QueryScan.next (store mem q))^[k] s).place = .done := by
  induction hr : s.rank q.length using Nat.strong_induction_on generalizing s with
  | h r ih =>
    by_cases hdone : s.place = .done
    · exact ⟨0, Nat.zero_le _, hdone⟩
    · obtain ⟨hnext, hlt⟩ := h.onward hnul hdone
      obtain ⟨k, hk, hend⟩ := ih _ (hr ▸ hlt) hnext rfl
      exact ⟨k + 1, by omega, hend⟩

theorem sound_run (hnul : ∀ b ∈ q, b ≠ 0) (k : Nat) : Sound q (run (store mem q) k) := by
  induction k with
  | zero => exact sound_start q
  | succ k ih =>
    rw [run, Function.iterate_succ_apply']
    exact ih.next hnul

/-- On a string that ends at its first NUL the pointer never passes it, the
loops end, and every value that the scanner opened is closed. -/
theorem query_pointer_ends (mem : Memory) (q : List Byte) (hnul : ∀ b ∈ q, b ≠ 0) :
    (∀ k, (run (store mem q) k).query ≤ q.length) ∧
      (∃ k ≤ 3 * q.length + 1, (run (store mem q) k).place = .done) ∧
      ∀ k, (run (store mem q) k).place = .done → Even (quotes (run (store mem q) k).str) ∧
        getData (some (bytes "GET")) (some q) =
          some ((run (store mem q) k).str.map Piece.byte) := by
  have hget : getData (some (bytes "GET")) (some q) = some (scanQuery false q) := by
    rw [getData_get q hnul, (scanQuery_segments q).1]
  refine ⟨fun k => (sound_run hnul k).query_le, (sound_start q).ends hnul, fun k hdone => ?_⟩
  obtain ⟨hquotes, htext⟩ := (sound_run hnul k).ended hdone
  exact ⟨hquotes, by rw [hget, htext]⟩

/-- The string may end right behind `=`. -/
theorem query_pointer_ends_open :
    ∃ k ≤ 19, (run (store (fun _ => comma) (bytes "a=1&b=")) k).place = .done ∧
      Even (quotes (run (store (fun _ => comma) (bytes "a=1&b=")) k).str) := by
  obtain ⟨-, ⟨k, hk, hdone⟩, hquotes⟩ :=
    query_pointer_ends (fun _ => comma) (bytes "a=1&b=") (forall_mem_of_all (by decide))
  exact ⟨k, hk, hdone, (hquotes k hdone).1⟩

end Sound

end QueryScan

end LinuxStudy

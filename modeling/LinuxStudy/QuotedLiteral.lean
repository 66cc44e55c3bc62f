import Mathlib.Data.List.TakeWhile

/-! Quoted literals with a doubled delimiter and an escape character, over any
alphabet. A reader never yields more letters than it consumes, so a text that
is read back at its own length was read verbatim. -/

namespace LinuxStudy

section Literal

variable {α : Type*} (esc : α) (unescape : α → List α) (q : α)

/-- After the opening delimiter `q`: the source, the text it denotes, the rest. -/
inductive LiteralBody : List α → List α → List α → Prop
  | close {r} (h : r.head? ≠ some q) : LiteralBody (q :: r) [] r
  | double {s v r} (h : LiteralBody s v r) : LiteralBody (q :: q :: s) (q :: v) r
  | escape {d s v r} (h : LiteralBody s v r) : LiteralBody (esc :: d :: s) (unescape d ++ v) r
  | letter {c s v r} (hq : c ≠ q) (he : c ≠ esc) (h : LiteralBody s v r) :
      LiteralBody (c :: s) (c :: v) r

/-- Texts that denote themselves between delimiters. -/
inductive Verbatim : List α → Prop
  | nil : Verbatim []
  | escape {d s} (hd : unescape d = [esc, d]) (h : Verbatim s) : Verbatim (esc :: d :: s)
  | letter {c s} (hq : c ≠ q) (he : c ≠ esc) (h : Verbatim s) : Verbatim (c :: s)

variable {esc unescape q}

theorem Verbatim.of_plain {v : List α} (h : ∀ c ∈ v, c ≠ q ∧ c ≠ esc) :
    Verbatim esc unescape q v := by
  induction v with
  | nil => exact .nil
  | cons c v ih =>
    have hc := h c (by simp)
    exact .letter hc.1 hc.2 (ih fun x hx => h x (by simp [hx]))

theorem Verbatim.not_mem {v : List α} (h : Verbatim esc unescape q v) (he : esc ∉ v) : q ∉ v := by
  induction h with
  | nil => simp
  | escape hd h ih => simp at he
  | letter hq _ h ih =>
    simp only [List.mem_cons, not_or] at he ⊢
    exact ⟨hq.symm, ih he.2⟩

theorem LiteralBody.length_le (hu : ∀ d, (unescape d).length ≤ 2) {s v r : List α}
    (h : LiteralBody esc unescape q s v r) : v.length + 1 + r.length ≤ s.length := by
  induction h with
  | close h => simp; omega
  | double h ih => simp only [List.length_cons]; omega
  | @escape d s v r h ih =>
    have := hu d
    simp only [List.length_cons, List.length_append]
    omega
  | letter hq he h ih => simp only [List.length_cons]; omega

theorem LiteralBody.tight (hu : ∀ d, (unescape d).length ≤ 2)
    (hpair : ∀ d, (unescape d).length = 2 → unescape d = [esc, d]) {s v r : List α}
    (h : LiteralBody esc unescape q s v r) (hlen : s.length ≤ v.length + 1 + r.length) :
    s = v ++ q :: r ∧ Verbatim esc unescape q v := by
  induction h with
  | close h => exact ⟨rfl, .nil⟩
  | double h ih =>
    have := h.length_le hu
    simp only [List.length_cons] at hlen
    omega
  | @escape d s v r h ih =>
    have hle := h.length_le hu
    have h2 := hu d
    simp only [List.length_cons, List.length_append] at hlen
    have hd := hpair d (by omega)
    obtain ⟨hs, hv⟩ := ih (by omega)
    rw [hd]
    exact ⟨by simp [hs], .escape hd hv⟩
  | letter hq he h ih =>
    simp only [List.length_cons] at hlen
    obtain ⟨hs, hv⟩ := ih (by omega)
    exact ⟨by simp [hs], .letter hq he hv⟩

theorem Verbatim.literalBody {v : List α} (h : Verbatim esc unescape q v) {r : List α}
    (hr : r.head? ≠ some q) : LiteralBody esc unescape q (v ++ q :: r) v r := by
  induction h with
  | nil => exact .close hr
  | @escape d s hd h ih =>
    have hh := LiteralBody.escape (d := d) ih
    rwa [hd] at hh
  | letter hq he h ih => exact .letter hq he ih

end Literal

section Values

variable {α : Type*} (space : α → Bool) (quotes : α → Prop) (esc : α) (unescape : α → List α)
  (sep stop : α)

/-- Literals separated by `sep`, with spaces between the tokens, up to a `stop`
that ends the text. -/
inductive LiteralList : List α → List (List α) → Prop
  | last {s t v r e q} (hq : quotes q) (hs : s.dropWhile space = q :: t)
      (hb : LiteralBody esc unescape q t v r) (hr : r.dropWhile space = stop :: e)
      (he : e.dropWhile space = []) : LiteralList s [v]
  | more {s t v r s' vs q} (hq : quotes q) (hs : s.dropWhile space = q :: t)
      (hb : LiteralBody esc unescape q t v r) (hr : r.dropWhile space = sep :: s')
      (h : LiteralList s' vs) : LiteralList s (v :: vs)

def quoteAll (q : α) : List (List α) → List α
  | [] => [stop]
  | [v] => q :: v ++ [q, stop]
  | v :: w :: vs => q :: v ++ q :: sep :: quoteAll q (w :: vs)

variable {space quotes esc unescape sep stop}

theorem length_dropWhile_eq {s t : List α} {q : α} (h : s.dropWhile space = q :: t) :
    t.length + 1 ≤ s.length := by
  have hh := List.length_dropWhile_le space s
  rw [h] at hh
  simpa using hh

theorem LiteralList.length_le (hu : ∀ d, (unescape d).length ≤ 2) {s : List α}
    {vs : List (List α)} (h : LiteralList space quotes esc unescape sep stop s vs) (q : α) :
    (quoteAll sep stop q vs).length ≤ s.length := by
  induction h with
  | last hq hs hb hr he =>
    have h1 := length_dropWhile_eq hs
    have h2 := hb.length_le hu
    have h3 := length_dropWhile_eq hr
    simp only [quoteAll, List.length_append, List.length_cons, List.length_nil]
    omega
  | @more s t v r s' vs q' hq hs hb hr h ih =>
    have h1 := length_dropWhile_eq hs
    have h2 := hb.length_le hu
    have h3 := length_dropWhile_eq hr
    cases vs with
    | nil => cases h
    | cons w vs =>
      simp only [quoteAll, List.length_append, List.length_cons]
      omega

theorem dropWhile_quote {q : α} (hq : space q = false) (s : List α) :
    (q :: s).dropWhile space = q :: s := by simp [hq]

/-- A quotation that is read back as the texts it quotes quotes them verbatim. -/
theorem LiteralList.verbatim (hu : ∀ d, (unescape d).length ≤ 2)
    (hpair : ∀ d, (unescape d).length = 2 → unescape d = [esc, d]) {q : α}
    (hsp : space q = false) (hsep : space sep = false) {vs : List (List α)}
    (h : LiteralList space quotes esc unescape sep stop (quoteAll sep stop q vs) vs) :
    ∀ v ∈ vs, Verbatim esc unescape q v := by
  induction vs with
  | nil => simp
  | cons v vs ih =>
    cases vs with
    | nil =>
      cases h with
      | last hq hs hb hr he =>
        rw [quoteAll, List.cons_append, dropWhile_quote hsp, List.cons.injEq] at hs
        obtain ⟨rfl, rfl⟩ := hs
        have h3 := length_dropWhile_eq hr
        obtain ⟨-, hv⟩ := hb.tight hu hpair (by
          simp only [List.length_append, List.length_cons, List.length_nil]; omega)
        simpa using hv
      | more hq hs hb hr h => cases h
    | cons w vs =>
      cases h with
      | @more s t v r s' vs q' hq hs hb hr h =>
        rw [quoteAll, List.cons_append, dropWhile_quote hsp, List.cons.injEq] at hs
        obtain ⟨rfl, rfl⟩ := hs
        have hle := h.length_le hu q
        have h3 := length_dropWhile_eq hr
        obtain ⟨heq, hv⟩ := hb.tight hu hpair (by
          simp only [List.length_append, List.length_cons]; omega)
        have hrest : r = sep :: quoteAll sep stop q (w :: vs) :=
          (List.cons.inj (List.append_cancel_left heq)).2.symm
        rw [hrest, dropWhile_quote hsep, List.cons.injEq] at hr
        rw [← hr.2] at h
        intro x hx
        rcases List.mem_cons.mp hx with rfl | hx
        · exact hv
        · exact ih h x hx

theorem LiteralList.of_verbatim {q : α} (hq : quotes q) (hsp : space q = false)
    (hsep : space sep = false) (hstop : space stop = false) (hqsep : sep ≠ q) (hqstop : stop ≠ q)
    {v : List α} {vs : List (List α)} (h : ∀ x ∈ v :: vs, Verbatim esc unescape q x) :
    LiteralList space quotes esc unescape sep stop (quoteAll sep stop q (v :: vs)) (v :: vs) := by
  induction vs generalizing v with
  | nil =>
    have hb := (h v (by simp)).literalBody (r := [stop]) (by simpa using hqstop)
    exact .last hq (dropWhile_quote hsp _) hb (dropWhile_quote hstop _) rfl
  | cons w vs ih =>
    have hb := (h v (by simp)).literalBody (r := sep :: quoteAll sep stop q (w :: vs))
      (by simpa using hqsep)
    exact .more hq (dropWhile_quote hsp _) hb (dropWhile_quote hsep _)
      (ih fun x hx => h x (by simp [hx]))

end Values

end LinuxStudy

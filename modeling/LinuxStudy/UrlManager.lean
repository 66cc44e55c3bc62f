import Mathlib.Data.Finset.Card

/-! The crawler's manager of URLs: the set of those still to be visited and the
set of those that it has handed out. -/

namespace LinuxStudy

structure Manager (U : Type*) where
  newUrl : Finset U
  oldUrl : Finset U

namespace Manager

variable {U : Type*}

def init : Manager U := ⟨∅, ∅⟩

def HasNewUrl (m : Manager U) : Prop := m.newUrl.card ≠ 0

instance (m : Manager U) : Decidable m.HasNewUrl := inferInstanceAs (Decidable (_ ≠ _))

theorem hasNewUrl_iff {m : Manager U} : m.HasNewUrl ↔ m.newUrl.Nonempty := Finset.card_ne_zero

variable [DecidableEq U]

def addUrl (m : Manager U) : Option U → Manager U
  | none => m
  | some url =>
    if url ∉ m.newUrl ∧ url ∉ m.oldUrl then { m with newUrl := insert url m.newUrl } else m

/-- The elements of a set of URLs come in the order of its iteration. -/
def addUrls (m : Manager U) : Option (List (Option U)) → Manager U
  | none => m
  | some urls => if urls.length = 0 then m else urls.foldl addUrl m

/-- `ret` is what `new_url.pop` returned. -/
def getUrl (m : Manager U) (ret : U) : Manager U where
  newUrl := m.newUrl.erase ret
  oldUrl := insert ret m.oldUrl

variable {m : Manager U} {u url : U} {urls : List (Option U)}

theorem mem_newUrl_addUrl : u ∈ (m.addUrl (some url)).newUrl ↔
    u ∈ m.newUrl ∨ u = url ∧ u ∉ m.oldUrl := by
  rw [addUrl]
  split
  · rename_i h
    rw [Finset.mem_insert, or_comm]
    refine or_congr_right (iff_self_and.mpr ?_)
    rintro rfl
    exact h.2
  · rename_i h
    refine iff_self_or.mpr ?_
    rintro ⟨rfl, ho⟩
    by_contra hn
    exact h ⟨hn, ho⟩

theorem oldUrl_addUrl (m : Manager U) (url : Option U) : (m.addUrl url).oldUrl = m.oldUrl := by
  cases url with
  | none => rfl
  | some url =>
    rw [addUrl]
    split <;> rfl

theorem addUrls_some (m : Manager U) (urls : List (Option U)) :
    m.addUrls (some urls) = urls.foldl addUrl m := by
  rw [addUrls]
  split
  · rename_i h
    rw [List.length_eq_zero_iff.mp h, List.foldl_nil]
  · rfl

theorem oldUrl_addUrls (m : Manager U) (urls : List (Option U)) :
    (m.addUrls (some urls)).oldUrl = m.oldUrl := by
  rw [addUrls_some]
  induction urls generalizing m with
  | nil => rfl
  | cons x urls ih => rw [List.foldl_cons, ih, oldUrl_addUrl]

theorem mem_newUrl_addUrls : u ∈ (m.addUrls (some urls)).newUrl ↔
    u ∈ m.newUrl ∨ some u ∈ urls ∧ u ∉ m.oldUrl := by
  rw [addUrls_some]
  induction urls generalizing m with
  | nil => simp
  | cons x urls ih =>
    rw [List.foldl_cons, ih, oldUrl_addUrl, List.mem_cons]
    cases x with
    | none => simp [addUrl]
    | some x =>
      rw [mem_newUrl_addUrl, Option.some.injEq]
      tauto

end Manager

end LinuxStudy

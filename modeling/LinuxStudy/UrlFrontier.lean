import LinuxStudy.TransitionSystem
import LinuxStudy.UrlManager
import Mathlib.Data.Finset.Union
import Mathlib.Data.Finset.Option
import Mathlib.Data.List.ReduceOption

/-! Any sequence of calls of the manager. Every URL that was ever added is handed
out at most once, and none is forgotten. -/

namespace LinuxStudy

/-- `added` are the URLs given to `add_url` and `add_urls`, `returned` what
`get_url` has returned. -/
structure UrlRun (U : Type*) where
  manager : Manager U
  added : Finset U
  returned : List U

namespace UrlRun

variable {U : Type*}

def start : UrlRun U := ⟨Manager.init, ∅, []⟩

structure Inv (s : UrlRun U) : Prop where
  fresh : ∀ u ∈ s.manager.newUrl, u ∉ s.manager.oldUrl
  added : ∀ u, u ∈ s.added ↔ u ∈ s.manager.newUrl ∨ u ∈ s.manager.oldUrl
  returned : ∀ u, u ∈ s.manager.oldUrl ↔ u ∈ s.returned
  nodup : s.returned.Nodup

theorem inv_start : Inv (start : UrlRun U) :=
  ⟨by simp [start, Manager.init], by simp [start, Manager.init], by simp [start, Manager.init],
    List.nodup_nil⟩

variable [DecidableEq U]

inductive Step : UrlRun U → UrlRun U → Prop
  | addUrl {s : UrlRun U} (url : Option U) :
      Step s { s with manager := s.manager.addUrl url, added := s.added ∪ url.toFinset }
  | addUrls {s : UrlRun U} (urls : Option (List (Option U))) :
      Step s { s with
        manager := s.manager.addUrls urls
        added := s.added ∪ (urls.getD []).reduceOption.toFinset }
  | getUrl {s : UrlRun U} (ret : U) (hnew : s.manager.HasNewUrl) (h : ret ∈ s.manager.newUrl) :
      Step s { s with manager := s.manager.getUrl ret, returned := s.returned ++ [ret] }

section Inv

variable {s t : UrlRun U}

theorem Inv.add (h : s.Inv) {m : Manager U} {us : Finset U}
    (hnew : ∀ u, u ∈ m.newUrl ↔ u ∈ s.manager.newUrl ∨ u ∈ us ∧ u ∉ s.manager.oldUrl)
    (hold : m.oldUrl = s.manager.oldUrl) :
    Inv { s with manager := m, added := s.added ∪ us } := by
  refine ⟨fun u hu => ?_, fun u => ?_, fun u => ?_, h.nodup⟩
  · rw [hold]
    rcases (hnew u).mp hu with hu | hu
    · exact h.fresh u hu
    · exact hu.2
  · rw [Finset.mem_union, h.added, hnew, hold]
    tauto
  · rw [hold]
    exact h.returned u

theorem Inv.get (h : s.Inv) {ret : U} (hret : ret ∈ s.manager.newUrl) :
    Inv { s with manager := s.manager.getUrl ret, returned := s.returned ++ [ret] } := by
  have hunseen : ret ∉ s.returned := fun hr => h.fresh ret hret ((h.returned ret).mpr hr)
  refine ⟨fun u hu => ?_, fun u => ?_, fun u => ?_, ?_⟩
  · obtain ⟨hne, hu⟩ := Finset.mem_erase.mp hu
    rw [Manager.getUrl, Finset.mem_insert, not_or]
    exact ⟨hne, h.fresh u hu⟩
  · rw [h.added, Manager.getUrl, Finset.mem_erase, Finset.mem_insert]
    by_cases hu : u = ret
    · subst u
      simp [hret]
    · simp [hu]
  · rw [Manager.getUrl, Finset.mem_insert, h.returned, List.mem_append, List.mem_singleton,
      or_comm]
  · exact List.nodup_append.mpr ⟨h.nodup, List.nodup_singleton ret,
      fun a ha b hb he => hunseen (List.mem_singleton.mp hb ▸ he ▸ ha)⟩

theorem Inv.step (h : s.Inv) (hst : Step s t) : t.Inv := by
  cases hst with
  | addUrl url =>
    refine h.add (fun u => ?_) (Manager.oldUrl_addUrl s.manager url)
    cases url with
    | none => simp [Manager.addUrl]
    | some url =>
      rw [Manager.mem_newUrl_addUrl, Option.toFinset_some, Finset.mem_singleton]
  | addUrls urls =>
    cases urls with
    | none =>
      have hadd := h.add (m := s.manager) (fun u => by simp : ∀ u, u ∈ s.manager.newUrl ↔
        u ∈ s.manager.newUrl ∨ u ∈ (∅ : Finset U) ∧ u ∉ s.manager.oldUrl) rfl
      exact hadd
    | some urls =>
      refine h.add (fun u => ?_) (Manager.oldUrl_addUrls s.manager urls)
      rw [Manager.mem_newUrl_addUrls, Option.getD_some, List.mem_toFinset,
        List.reduceOption_mem_iff]
  | getUrl ret hnew hret => exact h.get hret

end Inv

/-- Whatever was called, the two sets share what was added, the old ones have
been returned once each, and no new one is left exactly when all have. -/
theorem url_frontier {s : UrlRun U} (h : Reachable Step start s) :
    Disjoint s.manager.newUrl s.manager.oldUrl ∧
      s.manager.newUrl ∪ s.manager.oldUrl = s.added ∧
      s.manager.oldUrl = s.returned.toFinset ∧ s.returned.Nodup ∧
      (¬ s.manager.HasNewUrl ↔ ∀ u ∈ s.added, s.returned.count u = 1) := by
  have hs := h.invariant Inv inv_start fun _ _ hs hst => hs.step hst
  refine ⟨Finset.disjoint_left.mpr hs.fresh, Finset.ext fun u => ?_, Finset.ext fun u => ?_,
    hs.nodup, ?_⟩
  · rw [Finset.mem_union, hs.added]
  · rw [List.mem_toFinset, hs.returned]
  · rw [Manager.hasNewUrl_iff, Finset.not_nonempty_iff_eq_empty]
    constructor
    · intro hnone u hu
      have hold : u ∈ s.manager.oldUrl := by simpa [hnone] using (hs.added u).mp hu
      exact List.count_eq_one_of_mem hs.nodup ((hs.returned u).mp hold)
    · refine fun hall => Finset.eq_empty_of_forall_notMem fun u hu => ?_
      have hcount := hall u ((hs.added u).mpr (.inl hu))
      have hmem : u ∈ s.returned := List.count_pos_iff.mp (by omega)
      exact hs.fresh u hu ((hs.returned u).mpr hmem)

theorem url_frontier_readded : ∃ s : UrlRun Nat, s.returned = [7] ∧ s.added = {7} ∧
    (¬ s.manager.HasNewUrl ↔ ∀ u ∈ s.added, s.returned.count u = 1) := by
  have h1 : Reachable Step (start : UrlRun Nat) _ :=
    .single (.addUrls (some [some 7, none, some 7]))
  have h2 := h1.tail (.getUrl 7 (by decide) (by decide))
  have h3 := h2.tail (.addUrl (some 7))
  exact ⟨_, rfl, by decide, (url_frontier h3).2.2.2.2⟩

end UrlRun

end LinuxStudy

import LinuxStudy.CrawlRows
import LinuxStudy.SearchOrder

/-! The crawler as a search of the pages that the first one leads to: what it
visits, over all that `set.pop` may return. -/

namespace LinuxStudy

namespace Web

variable {w : Web} {rootUrl u : Url} {count : Nat} {s : Spider} {newUrls : List Url}
  {data : ResData} {l : List Url}

structure Searching (w : Web) (rootUrl : Url) (count : Nat) (s : Spider) : Prop where
  atMost : count ≤ 5
  length : s.visited.length = count
  order : SearchOrder w.Links rootUrl s.visited
  old : ∀ u, u ∈ s.urls.oldUrl ↔ u ∈ s.visited
  fresh : ∀ u, u ∈ s.urls.newUrl ↔ Known w.Links rootUrl s.visited u ∧ u ∉ s.visited
  datas : List.Forall₂ (fun u x => ∃ newUrls, Spider.visit w u = .ok (newUrls, x)) s.visited s.datas

theorem searching_start (w : Web) (rootUrl : Url) :
    w.Searching rootUrl 0 ⟨Manager.init.addUrl (some rootUrl), [], []⟩ := by
  refine ⟨Nat.zero_le _, rfl, .nil, fun u => ?_, fun u => ?_, .nil⟩
  · rw [Manager.oldUrl_addUrl]
    simp [Manager.init]
  · rw [Manager.mem_newUrl_addUrl]
    simp [Manager.init, Known]

theorem Searching.collect (h : w.Searching rootUrl count s) (hc : count < 5)
    (hu : u ∈ s.urls.newUrl) (hv : Spider.visit w u = .ok (newUrls, data)) :
    w.Searching rootUrl (count + 1) (s.collect u newUrls data) := by
  obtain ⟨hknown, hnew⟩ := (h.fresh u).mp hu
  refine ⟨hc, ?_, h.order.visit hknown hnew, fun v => ?_, fun v => ?_, ?_⟩
  · simp [Spider.collect, h.length]
  · rw [Spider.mem_oldUrl_collect, h.old]
    simp [Spider.collect, or_comm]
  · rw [Spider.mem_newUrl_collect, h.old, h.fresh, ← links_iff hv]
    change _ ↔ Known w.Links rootUrl (s.visited ++ [u]) v ∧ v ∉ s.visited ++ [u]
    rw [known_concat, List.mem_append, List.mem_singleton, not_or]
    tauto
  · exact List.rel_append h.datas (.cons ⟨newUrls, hv⟩ .nil)

theorem Searching.exhausted (h : w.Searching rootUrl count s) (hempty : ¬ s.urls.newUrl.Nonempty) :
    Exhausted w.Links rootUrl s.visited := by
  intro u hu
  by_contra hnew
  exact hempty ⟨u, (h.fresh u).mpr ⟨hu, hnew⟩⟩

theorem complete_of_rows {visited : List Url} {datas : List ResData} {rows : List (List String)}
    (h : List.Forall₂ (fun u x => ∃ newUrls, Spider.visit w u = .ok (newUrls, x)) visited datas)
    (hrow : List.Forall₂ (fun x r => row x = .ok r) datas rows) (hu : u ∈ visited) :
    w.Complete u := by
  induction h generalizing rows with
  | nil => simp at hu
  | @cons v x visited datas hv _ ih =>
    cases hrow with
    | cons hx hrow =>
      rcases List.mem_cons.mp hu with rfl | hu
      · obtain ⟨newUrls, hv⟩ := hv
        refine complete_iff.mpr ⟨newUrls, x, hv, ?_⟩
        cases hs : x.summ with
        | none => simp [row, hs] at hx
        | some summ => rfl
      · exact ih hrow hu

theorem collected_of_complete {visited : List Url} {datas : List ResData}
    (h : List.Forall₂ (fun u x => ∃ newUrls, Spider.visit w u = .ok (newUrls, x)) visited datas)
    (hall : ∀ u ∈ visited, w.Complete u) : List.Forall₂ w.Collected visited datas := by
  induction h with
  | nil => exact .nil
  | @cons v x visited datas hv _ ih =>
    obtain ⟨newUrls, hv⟩ := hv
    obtain ⟨newUrls', data, hv', hsumm⟩ := complete_iff.mp (hall v List.mem_cons_self)
    rw [hv] at hv'
    cases Except.ok.inj hv'
    exact .cons (collected hv hsumm) (ih fun u hu => hall u (List.mem_cons_of_mem v hu))

/-- The turns go through `l` from its start. -/
structure Through (w : Web) (rootUrl : Url) (l : List Url) (count : Nat) (s : Spider) : Prop where
  searching : w.Searching rootUrl count s
  visited : s.visited = l.take count

theorem Through.next_mem (h : w.Through rootUrl l count s) (hl : SearchOrder w.Links rootUrl l)
    (hc : count < l.length) : l.getD count rootUrl ∈ s.urls.newUrl := by
  have hsplit : l.take count ++ l.getD count rootUrl :: l.drop (count + 1) = l := by simp [hc]
  apply (h.searching.fresh _).mpr
  rw [h.visited]
  apply SearchOrder.known_of_cons (m := l.drop (count + 1))
  rwa [hsplit]

theorem Through.lt_length (h : w.Through rootUrl l count s) (hn : s.urls.newUrl.Nonempty)
    (hc : count < 5) (hexh : l.length < 5 → Exhausted w.Links rootUrl l) : count < l.length := by
  by_contra hle
  have hall : s.visited = l := by rw [h.visited, List.take_of_length_le (by omega)]
  obtain ⟨u, hu⟩ := hn
  obtain ⟨hknown, hnew⟩ := (h.searching.fresh u).mp hu
  rw [hall] at hknown hnew
  exact hnew (hexh (by omega) u hknown)

theorem Through.turn (h : w.Through rootUrl l count s) (hl : SearchOrder w.Links rootUrl l)
    (hexh : l.length < 5 → Exhausted w.Links rootUrl l) (hn : s.urls.newUrl.Nonempty) (hc : count < 5)
    (hv : Spider.visit w (followPath (l.getD · rootUrl) count s.urls.newUrl hn) =
      .ok (newUrls, data)) :
    w.Through rootUrl l (count + 1)
      (s.collect (followPath (l.getD · rootUrl) count s.urls.newUrl hn) newUrls data) := by
  have hlt := h.lt_length hn hc hexh
  have hnext := h.next_mem hl hlt
  rw [followPath_of_mem hnext] at hv ⊢
  refine ⟨h.searching.collect hc hnext hv, ?_⟩
  change s.visited ++ [l.getD count rootUrl] = _
  rw [h.visited]
  simp [hlt]

/-- The lists of pages that the crawler can visit and print, over all that `set.pop`
may return, are the orders in which a search can visit five complete pages, or
all that can be reached if these are fewer. -/
theorem craw_visits_iff (w : Web) (rootUrl : Url) (visited : List Url) :
    (∃ pop html, Spider.craw w pop (some rootUrl) = .ok (visited, html)) ↔
      SearchOrder w.Links rootUrl visited ∧ visited.length ≤ 5 ∧
        (visited.length < 5 →
          ∀ u, u ∈ visited ↔ Relation.ReflTransGen w.Links rootUrl u) ∧
        ∀ u ∈ visited, w.Complete u := by
  constructor
  · rintro ⟨pop, html, hcraw⟩
    obtain ⟨t, hl, rfl, rows, hrow, -⟩ := Spider.craw_eq_ok_iff.mp hcraw
    obtain ⟨n, ht, hdone⟩ := Spider.loop_invariant (w.Searching rootUrl)
      (fun count s hn newUrls data hc hs hv => hs.collect hc (pop count s.urls.newUrl hn).2 hv)
      (searching_start w rootUrl) hl
    refine ⟨ht.order, ht.length.le.trans ht.atMost, fun hlt => ?_, fun u hu => ?_⟩
    · apply ht.order.exhausted_iff.mp
      apply ht.exhausted
      intro hn
      exact hdone ⟨hn, ht.length ▸ hlt⟩
    · exact complete_of_rows ht.datas hrow hu
  · rintro ⟨horder, hle, hreach, hall⟩
    have hexh := fun hlt => horder.exhausted_iff.mpr (hreach hlt)
    have hstart : w.Through rootUrl visited 0 _ := ⟨searching_start w rootUrl, rfl⟩
    have hends : ∃ t n, Spider.loop w (followPath (visited.getD · rootUrl)) 0
        ⟨Manager.init.addUrl (some rootUrl), [], []⟩ = .ok t ∧ w.Through rootUrl visited n t := by
      apply Spider.loop_ends _ _ hstart
      intro count s hn hc hs
      have hlt := hs.lt_length hn hc hexh
      have hpop : (followPath (visited.getD · rootUrl) count s.urls.newUrl hn : Url) =
          visited.getD count rootUrl := followPath_of_mem (hs.next_mem horder hlt) hn
      have hmem : visited.getD count rootUrl ∈ visited := by simp [hlt]
      obtain ⟨newUrls, data, hv, -⟩ := complete_iff.mp (hall _ hmem)
      rw [← hpop] at hv
      exact ⟨newUrls, data, hv, hs.turn horder hexh hn hc hv⟩
    obtain ⟨t, -, hl, -⟩ := hends
    obtain ⟨n, ht, hdone⟩ := Spider.loop_invariant (w.Through rootUrl visited)
      (fun _ _ hn _ _ hc hs hv => hs.turn horder hexh hn hc hv) hstart hl
    have hend : t.visited = visited := by
      rw [ht.visited]
      apply List.take_of_length_le
      by_contra hlt
      exact hdone ⟨⟨_, ht.next_mem horder (by omega)⟩, by omega⟩
    obtain ⟨rows, hrow, -⟩ := rows_of_collected
      (collected_of_complete ht.searching.datas (hend ▸ hall))
    exact ⟨_, table rows, Spider.craw_eq_ok_iff.mpr ⟨t, hl, hend, rows, hrow, rfl⟩⟩

end Web

end LinuxStudy

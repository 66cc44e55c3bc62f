import LinuxStudy.Crawler

/-! When the crawler ends without an exception, with a row for every page that it
has downloaded. -/

namespace LinuxStudy

namespace Spider

variable {w : Web} {pop : SetPop} {rootUrl u : Url} {count : Nat} {s t : Spider}
  {newUrls : List Url} {data : ResData}

theorem loop_invariant (inv : Nat → Spider → Prop)
    (hturn : ∀ count s (hn : s.urls.newUrl.Nonempty) newUrls data, count < 5 → inv count s →
      visit w (pop count s.urls.newUrl hn) = .ok (newUrls, data) →
      inv (count + 1) (s.collect (pop count s.urls.newUrl hn) newUrls data))
    (h : inv count s) (hl : loop w pop count s = .ok t) :
    ∃ n, inv n t ∧ ¬ (t.urls.newUrl.Nonempty ∧ n < 5) := by
  induction hk : 5 - count generalizing count s with
  | zero =>
    have hdone : ¬ (s.urls.newUrl.Nonempty ∧ count < 5) := fun hs => by omega
    rw [loop_of_done hdone] at hl
    cases Except.ok.inj hl
    exact ⟨count, h, hdone⟩
  | succ k ih =>
    by_cases hn : s.urls.newUrl.Nonempty
    · have hc : count < 5 := by omega
      rw [loop_of_turn hn hc] at hl
      obtain ⟨s', hs, hl⟩ := except_bind_eq_ok.mp hl
      obtain ⟨newUrls, data, hv, rfl⟩ := turn_eq_ok_iff.mp hs
      exact ih (hturn count s hn newUrls data hc h hv) hl (by omega)
    · rw [loop_of_done fun hs => hn hs.1] at hl
      cases Except.ok.inj hl
      exact ⟨count, h, fun hs => hn hs.1⟩

theorem loop_ends (inv : Nat → Spider → Prop)
    (hturn : ∀ count s (hn : s.urls.newUrl.Nonempty), count < 5 → inv count s →
      ∃ newUrls data, visit w (pop count s.urls.newUrl hn) = .ok (newUrls, data) ∧
        inv (count + 1) (s.collect (pop count s.urls.newUrl hn) newUrls data))
    (h : inv count s) : ∃ t n, loop w pop count s = .ok t ∧ inv n t := by
  induction hk : 5 - count generalizing count s with
  | zero => exact ⟨s, count, loop_of_done fun hs => by omega, h⟩
  | succ k ih =>
    by_cases hn : s.urls.newUrl.Nonempty
    · have hc : count < 5 := by omega
      obtain ⟨newUrls, data, hv, hinv⟩ := hturn count s hn hc h
      obtain ⟨t, n, hl, ht⟩ := ih hinv (by omega)
      refine ⟨t, n, ?_, ht⟩
      rw [loop_of_turn hn hc]
      exact except_bind_eq_ok.mpr ⟨_, turn_eq_ok_iff.mpr ⟨newUrls, data, hv, rfl⟩, hl⟩
    · exact ⟨s, count, loop_of_done fun hs => hn hs.1, h⟩

theorem mem_newUrl_collect : u ∈ (s.collect v newUrls data).urls.newUrl ↔
    u ≠ v ∧ u ∈ s.urls.newUrl ∨ u ∈ newUrls ∧ u ≠ v ∧ u ∉ s.urls.oldUrl := by
  simp [collect, Manager.mem_newUrl_addUrls, Manager.getUrl]

theorem mem_oldUrl_collect : u ∈ (s.collect v newUrls data).urls.oldUrl ↔
    u = v ∨ u ∈ s.urls.oldUrl := by
  simp [collect, Manager.oldUrl_addUrls, Manager.getUrl]

end Spider

namespace Web

variable {w : Web} {pop : SetPop} {rootUrl u v : Url} {count : Nat} {s t : Spider}
  {newUrls : List Url} {data : ResData}

theorem complete_iff : w.Complete u ↔
    ∃ newUrls data, Spider.visit w u = .ok (newUrls, data) ∧ data.summ.isSome = true := by
  constructor
  · rintro ⟨cont, hopen, ht, hsumm⟩
    obtain ⟨title, ht⟩ := Option.isSome_iff_exists.mp ht
    exact ⟨_, _, Spider.visit_eq_ok_iff.mpr ⟨cont, title, hopen, ht, rfl, rfl⟩, hsumm⟩
  · rintro ⟨newUrls, data, hv, hsumm⟩
    obtain ⟨cont, title, hopen, ht, -, rfl⟩ := Spider.visit_eq_ok_iff.mp hv
    exact ⟨cont, hopen, Option.isSome_iff_exists.mpr ⟨title, ht⟩, hsumm⟩

theorem links_iff (hv : Spider.visit w u = .ok (newUrls, data)) : w.Links u v ↔ v ∈ newUrls := by
  obtain ⟨cont, title, hopen, -, rfl, -⟩ := Spider.visit_eq_ok_iff.mp hv
  constructor
  · rintro ⟨cont', hopen', hmem⟩
    rw [hopen] at hopen'
    cases Except.ok.inj hopen'
    exact hmem
  · exact fun hmem => ⟨cont, hopen, hmem⟩

structure Collected (w : Web) (u : Url) (x : ResData) : Prop where
  url : x.url = u
  summ : x.summ.isSome = true
  downloaded : w.downloaded u = true

theorem collected (hv : Spider.visit w u = .ok (newUrls, data)) (hsumm : data.summ.isSome = true) :
    w.Collected u data := by
  obtain ⟨cont, title, hopen, -, -, rfl⟩ := Spider.visit_eq_ok_iff.mp hv
  exact ⟨rfl, hsumm, downloaded_of_urlopen hopen⟩

def IsRow (u : Url) (r : List String) : Prop :=
  ∃ title summ, r = ["<tr>", cell u, cell title, cell summ, "</tr>"]

/-- What `craw` is to come to. -/
def CrawlsWell (w : Web) (pop : SetPop) (rootUrl : Url) : Prop :=
  ∃ visited html, Spider.craw w pop (some rootUrl) = .ok (visited, html) ∧ visited.length ≤ 5 ∧
    visited.Nodup ∧
    ∃ rows, List.Forall₂ IsRow (visited.filter w.downloaded) rows ∧ html = table rows

structure Crawling (w : Web) (rootUrl : Url) (count : Nat) (s : Spider) : Prop where
  atMost : count ≤ 5
  length : s.visited.length = count
  nodup : s.visited.Nodup
  old : ∀ u, u ∈ s.urls.oldUrl ↔ u ∈ s.visited
  fresh : ∀ u ∈ s.urls.newUrl, u ∉ s.urls.oldUrl
  near : ∀ u ∈ s.urls.newUrl, ∃ n ≤ count, Walk w.Links rootUrl n u
  datas : List.Forall₂ w.Collected s.visited s.datas

theorem crawling_start (w : Web) (rootUrl : Url) :
    w.Crawling rootUrl 0 ⟨Manager.init.addUrl (some rootUrl), [], []⟩ := by
  refine ⟨Nat.zero_le _, rfl, List.nodup_nil, fun u => ?_, fun u _ => ?_, fun u hu => ?_, .nil⟩
  · rw [Manager.oldUrl_addUrl]
    simp [Manager.init]
  · rw [Manager.oldUrl_addUrl]
    simp [Manager.init]
  · rcases Manager.mem_newUrl_addUrl.mp hu with hu | ⟨rfl, -⟩
    · simp [Manager.init] at hu
    · exact ⟨0, Nat.le_refl 0, .start⟩

theorem Crawling.collect (h : w.Crawling rootUrl count s) (hc : count < 5)
    (hu : u ∈ s.urls.newUrl) (hv : Spider.visit w u = .ok (newUrls, data))
    (hsumm : data.summ.isSome = true) :
    w.Crawling rootUrl (count + 1) (s.collect u newUrls data) := by
  have hunseen : u ∉ s.visited := fun hmem => h.fresh u hu ((h.old u).mpr hmem)
  refine ⟨hc, ?_, ?_, fun v => ?_, fun v hv => ?_, fun v hmem => ?_, ?_⟩
  · rw [Spider.collect, List.length_append, h.length, List.length_singleton]
  · exact List.nodup_append.mpr ⟨h.nodup, List.nodup_singleton u,
      fun a ha b hb he => hunseen (List.mem_singleton.mp hb ▸ he ▸ ha)⟩
  · rw [Spider.mem_oldUrl_collect, h.old]
    simp [Spider.collect, or_comm]
  · rw [Spider.mem_oldUrl_collect]
    rcases Spider.mem_newUrl_collect.mp hv with ⟨hne, hnew⟩ | ⟨-, hne, hold⟩
    · exact not_or.mpr ⟨hne, h.fresh v hnew⟩
    · exact not_or.mpr ⟨hne, hold⟩
  · rcases Spider.mem_newUrl_collect.mp hmem with ⟨-, hnew⟩ | ⟨hlink, -⟩
    · obtain ⟨n, hn, hw⟩ := h.near v hnew
      exact ⟨n, Nat.le_succ_of_le hn, hw⟩
    · obtain ⟨n, hn, hw⟩ := h.near u hu
      exact ⟨n + 1, Nat.succ_le_succ hn, hw.step ((links_iff hv).mpr hlink)⟩
  · exact List.rel_append h.datas (.cons (collected hv hsumm) .nil)

theorem rows_of_collected {visited : List Url} {datas : List ResData}
    (h : List.Forall₂ w.Collected visited datas) :
    ∃ rows, List.Forall₂ (fun x r => row x = .ok r) datas rows ∧
      List.Forall₂ IsRow (visited.filter w.downloaded) rows := by
  induction h with
  | nil => exact ⟨[], .nil, .nil⟩
  | @cons u x visited datas hx _ ih =>
    obtain ⟨rows, hrow, his⟩ := ih
    obtain ⟨summ, hs⟩ := Option.isSome_iff_exists.mp hx.summ
    refine ⟨["<tr>", cell x.url, cell x.title, cell summ, "</tr>"] :: rows, .cons ?_ hrow, ?_⟩
    · rw [row, hs]
    · rw [List.filter_cons_of_pos hx.downloaded, hx.url]
      exact .cons ⟨_, _, rfl⟩ his

theorem crawlsWell_of_complete (h : ∀ n ≤ 4, ∀ u, Walk w.Links rootUrl n u → w.Complete u)
    (pop : SetPop) : w.CrawlsWell pop rootUrl := by
  have hturn : ∀ count s (hn : s.urls.newUrl.Nonempty), count < 5 → w.Crawling rootUrl count s →
      ∃ newUrls data, Spider.visit w (pop count s.urls.newUrl hn) = .ok (newUrls, data) ∧
        w.Crawling rootUrl (count + 1)
          (s.collect (pop count s.urls.newUrl hn) newUrls data) := by
    intro count s hn hc hs
    have hmem := (pop count s.urls.newUrl hn).2
    obtain ⟨n, hle, hw⟩ := hs.near _ hmem
    obtain ⟨newUrls, data, hv, hsumm⟩ := complete_iff.mp (h n (by omega) _ hw)
    exact ⟨newUrls, data, hv, hs.collect hc hmem hv hsumm⟩
  obtain ⟨t, n, hl, ht⟩ := Spider.loop_ends _ hturn (crawling_start w rootUrl)
  obtain ⟨rows, hrow, his⟩ := rows_of_collected ht.datas
  exact ⟨t.visited, table rows, Spider.craw_eq_ok_iff.mpr ⟨t, hl, rfl, rows, hrow, rfl⟩,
    ht.length.le.trans ht.atMost, ht.nodup, rows, his, rfl⟩

/-- The element that `path` has for the turn, where the set has it. -/
noncomputable def followPath (path : Nat → Url) : SetPop := fun count s hs =>
  if h : path count ∈ s then ⟨path count, h⟩ else ⟨hs.choose, hs.choose_spec⟩

theorem followPath_of_mem {path : Nat → Url} {s : Finset Url} (h : path count ∈ s)
    (hs : s.Nonempty) : (followPath path count s hs : Url) = path count := by
  rw [followPath, dif_pos h]

/-- The turns go along `path` for `n` steps, to a page that is not complete. -/
structure Following (path : Nat → Url) (n count : Nat) (s : Spider) : Prop where
  along : count ≤ n → path count ∈ s.urls.newUrl ∧ ∀ u ∈ s.urls.oldUrl, ∃ i < count, u = path i
  lost : n < count → ∃ x ∈ s.datas, x.summ = none

theorem following_start {path : Nat → Url} (n : Nat) :
    Following path n 0 ⟨Manager.init.addUrl (some (path 0)), [], []⟩ := by
  refine ⟨fun _ => ⟨Manager.mem_newUrl_addUrl.mpr (.inr ⟨rfl, ?_⟩), fun u hu => ?_⟩, nofun⟩
  · simp [Manager.init]
  · rw [Manager.oldUrl_addUrl] at hu
    simp [Manager.init] at hu

theorem Following.collect {path : Nat → Url} {n : Nat}
    (hp : IsShortest w.Links (fun u => ¬ w.Complete u) rootUrl n path)
    (h : Following path n count s) (hn : s.urls.newUrl.Nonempty)
    (hv : Spider.visit w (followPath path count s.urls.newUrl hn) = .ok (newUrls, data)) :
    Following path n (count + 1)
      (s.collect (followPath path count s.urls.newUrl hn) newUrls data) := by
  have hkept : ∀ x ∈ s.datas, x ∈ collectData s.datas (some data) :=
    fun x hx => List.mem_append_left _ hx
  rcases Nat.lt_or_ge n count with hc | hc
  · obtain ⟨x, hx, hnone⟩ := h.lost hc
    exact ⟨fun hle => by omega, fun _ => ⟨x, hkept x hx, hnone⟩⟩
  · obtain ⟨hmem, hold⟩ := h.along hc
    rw [followPath_of_mem hmem] at hv ⊢
    refine ⟨fun hle => ⟨?_, fun u hu => ?_⟩, fun hlt => ⟨data, List.mem_concat_self, ?_⟩⟩
    · refine Spider.mem_newUrl_collect.mpr (.inr ⟨(links_iff hv).mp (hp.step count hle), ?_, ?_⟩)
      · exact (hp.inj count (count + 1) (Nat.lt_succ_self count) hle).symm
      · intro hmem
        obtain ⟨i, hi, he⟩ := hold _ hmem
        exact hp.inj i (count + 1) (Nat.lt_succ_of_lt hi) hle he.symm
    · rcases Spider.mem_oldUrl_collect.mp hu with rfl | hu
      · exact ⟨count, Nat.lt_succ_self count, rfl⟩
      · obtain ⟨i, hi, he⟩ := hold u hu
        exact ⟨i, Nat.lt_succ_of_lt hi, he⟩
    · obtain rfl : count = n := by omega
      by_contra hsumm
      exact hp.last (complete_iff.mpr ⟨newUrls, data, hv, Option.isSome_iff_ne_none.mpr hsumm⟩)

theorem not_crawlsWell_of_path {path : Nat → Url} {n : Nat} (hn : n ≤ 4)
    (hp : IsShortest w.Links (fun u => ¬ w.Complete u) rootUrl n path) :
    ¬ w.CrawlsWell (followPath path) rootUrl := by
  rintro ⟨visited, html, hcraw, -⟩
  obtain ⟨t, hl, -, rows, hrow, -⟩ := Spider.craw_eq_ok_iff.mp hcraw
  rw [← hp.zero] at hl
  obtain ⟨m, ht, hdone⟩ := Spider.loop_invariant (Following path n)
    (fun count s hn newUrls data _ hs hv => hs.collect hp hn hv) (following_start n) hl
  have hm : n < m := by
    by_contra hle
    exact hdone ⟨⟨_, (ht.along (by omega)).1⟩, by omega⟩
  obtain ⟨x, hx, hnone⟩ := ht.lost hm
  obtain ⟨r, -, hr⟩ := exists_of_forall₂ hrow hx
  rw [row, hnone] at hr
  cases hr

/-- The crawler ends as it should, whatever `set.pop` returns, when every page
that is at most four links away is there and has a summary. -/
theorem crawlsWell_iff (w : Web) (rootUrl : Url) :
    (∀ pop, w.CrawlsWell pop rootUrl) ↔
      ∀ n ≤ 4, ∀ u, Walk w.Links rootUrl n u → w.Complete u := by
  constructor
  · intro h n hn u hw
    by_contra hu
    obtain ⟨m, hm, path, hp⟩ := hw.exists_shortest (p := fun u => ¬ w.Complete u) hu
    exact not_crawlsWell_of_path (hm.trans hn) hp (h _)
  · exact fun h pop => crawlsWell_of_complete h pop

def noContent : Web where
  urlopen := fun _ => .ok ⟨204, ""⟩
  beautifulSoup := fun _ => ⟨[], some "", none⟩
  urljoin := fun _ href => href

theorem craw_raises :
    ¬ ∀ (w : Web) (pop : SetPop) (rootUrl : Url), (∀ u, ∃ ret, w.urlopen u = .ok ret) →
      (∀ cont, (w.beautifulSoup cont).title.isSome = true) → w.CrawlsWell pop rootUrl := by
  intro h
  obtain ⟨visited, html, hcraw, -⟩ := h noContent (fun _ s hs => ⟨hs.choose, hs.choose_spec⟩)
    "http://baike.baidu.com/" (fun _ => ⟨_, rfl⟩) (fun _ => rfl)
  obtain ⟨t, hl, -⟩ := Spider.craw_eq_ok_iff.mp hcraw
  have hn : (Manager.init.addUrl (some "http://baike.baidu.com/")).newUrl.Nonempty :=
    ⟨_, Manager.mem_newUrl_addUrl.mpr (.inr ⟨rfl, by simp [Manager.init]⟩)⟩
  rw [Spider.loop_of_turn hn (by decide)] at hl
  obtain ⟨s, hs, -⟩ := except_bind_eq_ok.mp hl
  obtain ⟨newUrls, data, hv, -⟩ := Spider.turn_eq_ok_iff.mp hs
  obtain ⟨cont, -, hopen, -⟩ := Spider.visit_eq_ok_iff.mp hv
  have hcode : 204 = 200 := congrArg Response.code (Except.ok.inj hopen)
  exact absurd hcode (by decide)

end Web

end LinuxStudy

import LinuxStudy.Exceptions
import LinuxStudy.ShortestPath
import LinuxStudy.UrlManager

/-! The crawler: up to five pages of the encyclopedia are downloaded, parsed and
printed as the rows of a table. -/

namespace LinuxStudy

abbrev Url := String

inductive PyError
  | attributeError | keyError | typeError | urlError

structure Response where
  code : Nat
  cont : String

/-- What the searches in a page find: the `href`s with `/item/`, the text of the
heading and that of the summary. -/
structure Soup where
  links : List String
  title : Option String
  summ : Option String

structure ResData where
  url : Url
  title : String
  summ : Option String

structure Web where
  urlopen : Url → Except PyError Response
  beautifulSoup : String → Soup
  urljoin : Url → String → Url

namespace Web

variable (w : Web)

def download : Option Url → Except PyError (Option String)
  | none => .ok none
  | some url => do
    let ret ← w.urlopen url
    if ret.code ≠ 200 then return none
    return some ret.cont

def getNewUrls (pageUrl : Url) (soup : Soup) : List Url :=
  soup.links.foldl (fun newUrls x => newUrls.insert (w.urljoin pageUrl x)) []

def getNewData (pageUrl : Url) (soup : Soup) : Except PyError ResData :=
  match soup.title with
  | none => .error .attributeError
  | some title => .ok ⟨pageUrl, title, soup.summ⟩

def parse : Option Url → Option String → Except PyError (Option (List Url × ResData))
  | none, _ => .ok none
  | some _, none => .ok none
  | some pageUrl, some htmlCont => do
    let soup := w.beautifulSoup htmlCont
    let newData ← getNewData pageUrl soup
    return some (w.getNewUrls pageUrl soup, newData)

def collectData (datas : List ResData) : Option ResData → List ResData
  | none => datas
  | some data => datas ++ [data]

def cell (text : String) : String := "<td>" ++ text ++ "</td>"

def row (x : ResData) : Except PyError (List String) :=
  match x.summ with
  | none => .error .keyError
  | some summ => .ok ["<tr>", cell x.url, cell x.title, cell summ, "</tr>"]

def table (rows : List (List String)) : List String :=
  ["<html>", "<body>", "<table>"] ++ rows.flatten ++ ["</table>", "</body>", "</html>"]

def outputHtml (datas : List ResData) : Except PyError (List String) := do
  let rows ← datas.mapM row
  return table rows

end Web

/-- `visited` are the arguments of `download`, in order. -/
structure Spider where
  urls : Manager Url
  datas : List ResData
  visited : List Url

/-- What `set.pop` returns, at each turn of the loop. -/
abbrev SetPop := Nat → (s : Finset Url) → s.Nonempty → s

namespace Spider

variable (w : Web) (pop : SetPop)

/-- The page of a turn, whose links and data are unpacked from a pair. -/
def visit (newUrl : Url) : Except PyError (List Url × ResData) := do
  let htmlCont ← w.download (some newUrl)
  match ← w.parse (some newUrl) htmlCont with
  | none => throw .typeError
  | some (newUrls, urlData) => return (newUrls, urlData)

def collect (s : Spider) (newUrl : Url) (newUrls : List Url) (urlData : ResData) : Spider where
  urls := (s.urls.getUrl newUrl).addUrls (some (newUrls.map some))
  datas := Web.collectData s.datas (some urlData)
  visited := s.visited ++ [newUrl]

def turn (s : Spider) (newUrl : Url) : Except PyError Spider := do
  let (newUrls, urlData) ← visit w newUrl
  return s.collect newUrl newUrls urlData

def loop (count : Nat) (s : Spider) : Except PyError Spider :=
  if h : s.urls.HasNewUrl ∧ count < 5 then do
    let t ← s.turn w (pop count s.urls.newUrl (Manager.hasNewUrl_iff.mp h.1))
    loop (count + 1) t
  else .ok s
termination_by 5 - count

def craw (rootUrl : Option Url) : Except PyError (List Url × List String) := do
  let s ← loop w pop 0 { urls := Manager.init.addUrl rootUrl, datas := [], visited := [] }
  let html ← Web.outputHtml s.datas
  return (s.visited, html)

end Spider

namespace Web

variable {w : Web} {u v : Url} {newUrls : List Url} {data : ResData}

def Links (w : Web) (u v : Url) : Prop :=
  ∃ cont, w.urlopen u = .ok ⟨200, cont⟩ ∧ v ∈ w.getNewUrls u (w.beautifulSoup cont)

def Complete (w : Web) (u : Url) : Prop :=
  ∃ cont, w.urlopen u = .ok ⟨200, cont⟩ ∧ (w.beautifulSoup cont).title.isSome = true ∧
    (w.beautifulSoup cont).summ.isSome = true

def downloaded (w : Web) (u : Url) : Bool :=
  match w.download (some u) with
  | .ok (some _) => true
  | .ok none => false
  | .error _ => false

theorem download_eq_ok_some_iff {cont : String} :
    w.download (some u) = .ok (some cont) ↔ w.urlopen u = .ok ⟨200, cont⟩ := by
  refine except_bind_eq_ok.trans ⟨?_, fun h => ⟨_, h, rfl⟩⟩
  rintro ⟨⟨code, cont'⟩, hopen, h⟩
  split at h
  · cases Except.ok.inj h
  · rename_i hcode
    obtain rfl : code = 200 := not_not.mp hcode
    cases Except.ok.inj h
    exact hopen

theorem getNewData_eq_ok_iff {soup : Soup} : getNewData u soup = .ok data ↔
    ∃ title, soup.title = some title ∧ data = ⟨u, title, soup.summ⟩ := by
  rw [getNewData]
  cases soup.title with
  | none => simp
  | some title => simp [eq_comm]

theorem downloaded_of_urlopen {cont : String} (h : w.urlopen u = .ok ⟨200, cont⟩) :
    w.downloaded u = true := by
  rw [downloaded, download_eq_ok_some_iff.mpr h]

end Web

namespace Spider

variable {w : Web} {u : Url} {newUrls : List Url} {data : ResData}

theorem visit_eq_ok_iff : visit w u = .ok (newUrls, data) ↔
    ∃ cont title, w.urlopen u = .ok ⟨200, cont⟩ ∧ (w.beautifulSoup cont).title = some title ∧
      newUrls = w.getNewUrls u (w.beautifulSoup cont) ∧
      data = ⟨u, title, (w.beautifulSoup cont).summ⟩ := by
  refine except_bind_eq_ok.trans ⟨?_, ?_⟩
  · rintro ⟨htmlCont, hd, h⟩
    obtain ⟨parsed, hp, h⟩ := except_bind_eq_ok.mp h
    cases htmlCont with
    | none =>
      cases Except.ok.inj hp
      cases h
    | some cont =>
      obtain ⟨newData, hn, hp⟩ := except_bind_eq_ok.mp hp
      obtain ⟨title, ht, rfl⟩ := Web.getNewData_eq_ok_iff.mp hn
      cases Except.ok.inj hp
      cases Except.ok.inj h
      exact ⟨cont, title, Web.download_eq_ok_some_iff.mp hd, ht, rfl, rfl⟩
  · rintro ⟨cont, title, hopen, ht, rfl, rfl⟩
    have hp : w.parse (some u) (some cont) = .ok (some (w.getNewUrls u (w.beautifulSoup cont),
        ⟨u, title, (w.beautifulSoup cont).summ⟩)) :=
      except_bind_eq_ok.mpr ⟨_, Web.getNewData_eq_ok_iff.mpr ⟨title, ht, rfl⟩, rfl⟩
    exact ⟨some cont, Web.download_eq_ok_some_iff.mpr hopen, except_bind_eq_ok.mpr ⟨_, hp, rfl⟩⟩

theorem turn_eq_ok_iff {s t : Spider} : s.turn w u = .ok t ↔
    ∃ newUrls data, visit w u = .ok (newUrls, data) ∧ s.collect u newUrls data = t := by
  refine except_bind_eq_ok.trans ⟨?_, ?_⟩
  · rintro ⟨⟨newUrls, data⟩, hv, h⟩
    exact ⟨newUrls, data, hv, Except.ok.inj h⟩
  · rintro ⟨newUrls, data, hv, rfl⟩
    exact ⟨_, hv, rfl⟩

theorem loop_of_turn {pop : SetPop} {count : Nat} {s : Spider} (hn : s.urls.newUrl.Nonempty)
    (hc : count < 5) :
    loop w pop count s = (s.turn w (pop count s.urls.newUrl hn)).bind (loop w pop (count + 1)) := by
  rw [loop, dif_pos ⟨Manager.hasNewUrl_iff.mpr hn, hc⟩]
  rfl

theorem loop_of_done {pop : SetPop} {count : Nat} {s : Spider}
    (h : ¬ (s.urls.newUrl.Nonempty ∧ count < 5)) : loop w pop count s = .ok s := by
  rw [loop, dif_neg]
  exact fun hs => h ⟨Manager.hasNewUrl_iff.mp hs.1, hs.2⟩

theorem craw_eq_ok_iff {pop : SetPop} {rootUrl : Option Url} {visited : List Url}
    {html : List String} : craw w pop rootUrl = .ok (visited, html) ↔
    ∃ s, loop w pop 0 ⟨Manager.init.addUrl rootUrl, [], []⟩ = .ok s ∧ s.visited = visited ∧
      ∃ rows, List.Forall₂ (fun x r => Web.row x = .ok r) s.datas rows ∧ Web.table rows = html := by
  refine except_bind_eq_ok.trans (exists_congr fun s => and_congr_right fun _ => ?_)
  refine except_bind_eq_ok.trans ⟨?_, ?_⟩
  · rintro ⟨_, ho, h⟩
    obtain ⟨rows, hr, ho⟩ := except_bind_eq_ok.mp ho
    cases Except.ok.inj h
    exact ⟨rfl, rows, except_mapM_eq_ok.mp hr, Except.ok.inj ho⟩
  · rintro ⟨rfl, rows, hr, rfl⟩
    exact ⟨_, except_bind_eq_ok.mpr ⟨rows, except_mapM_eq_ok.mpr hr, rfl⟩, rfl⟩

end Spider

end LinuxStudy

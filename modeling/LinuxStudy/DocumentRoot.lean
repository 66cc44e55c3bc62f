import LinuxStudy.RequestHandling
import LinuxStudy.LexicalPath

/-! Which requests name a file under the document root. The URL is glued to
`wwwroot` as it is, so its first segment is part of a directory name and its
`..` are the file system's. -/

namespace LinuxStudy

def dot : List Byte := bytes "."

def dotdot : List Byte := bytes ".."

/-- The names of a path: empty segments and `.` mean the directory itself. -/
def realNames (segs : List (List Byte)) : List (List Byte) :=
  segs.filter (fun s => s ≠ [] ∧ s ≠ dot)

def pathNames (p : List Byte) : List (List Byte) := realNames (p.splitOn slash)

/-- Resolved lexically, the path is `wwwroot` or lies below it. -/
def Confined (p : List Byte) : Prop := Under dotdot wwwroot (pathNames p)

instance (p : List Byte) : Decidable (Confined p) := by
  unfold Confined
  infer_instance

/-- The condition on a URL: it starts with a slash or is empty, or is brought
back into `wwwroot` later; the walk along its segments never leaves the
server's directory upwards and does not end in it. -/
def StaysBelow (url : List Byte) : Prop :=
  walk dotdot wwwroot 1 (decide ((url.splitOn slash).head? = some []))
    (realNames (url.splitOn slash).tail) = true

theorem splitOn_append_left {w : List Byte} (hw : slash ∉ w) (url : List Byte) :
    (w ++ url).splitOn slash = (url.splitOn slash).modifyHead (w ++ ·) := by
  induction w with
  | nil =>
    obtain ⟨s, ss, hs⟩ := List.exists_cons_of_ne_nil (List.splitOn_ne_nil slash url)
    simp [hs]
  | cons b w ih =>
    have hb : (b == slash) = false := by simpa using fun h => hw (by simp [h])
    rw [List.cons_append, List.splitOn_cons_eq_if_modifyHead, hb,
      ih (fun h => hw (List.mem_cons_of_mem b h))]
    obtain ⟨s, ss, hs⟩ := List.exists_cons_of_ne_nil (List.splitOn_ne_nil slash url)
    simp [hs]

theorem splitOn_append_slash (p name : List Byte) (hname : slash ∉ name) :
    (p ++ slash :: name).splitOn slash = p.splitOn slash ++ [name] := by
  rw [List.splitOn_append_cons_self, List.splitOn_eq_singleton hname]

theorem realNames_append (a b : List (List Byte)) :
    realNames (a ++ b) = realNames a ++ realNames b := List.filter_append a b

theorem confined_append_index (p : List Byte) :
    Confined (p ++ slash :: indexName) ↔ Confined p := by
  have hn : realNames [indexName] = [indexName] := by decide
  rw [Confined, Confined, pathNames, splitOn_append_slash p indexName (by decide), realNames_append,
    hn]
  exact under_append_name (by decide) (by decide) _

theorem confined_append_slash (p : List Byte) : Confined (p ++ [slash]) ↔ Confined p := by
  have hn : realNames [[]] = [] := by decide
  rw [Confined, Confined, pathNames, splitOn_append_slash p [] (by decide), realNames_append, hn,
    List.append_nil, pathNames]

theorem confined_root_iff (url : List Byte) : Confined (wwwroot ++ url) ↔ StaysBelow url := by
  obtain ⟨s, ss, hs⟩ := List.exists_cons_of_ne_nil (List.splitOn_ne_nil slash url)
  have hne : wwwroot ++ s ≠ [] := by simp [wwwroot, bytes]
  have hdot : wwwroot ++ s ≠ dot := by
    intro h
    have := congrArg List.length h
    simp [wwwroot, bytes, dot] at this
  have hup : wwwroot ++ s ≠ dotdot := by
    intro h
    have := congrArg List.length h
    simp [wwwroot, bytes, dotdot] at this
  have hnames : pathNames (wwwroot ++ url) = (wwwroot ++ s) :: realNames ss := by
    rw [pathNames, splitOn_append_left (by decide), hs]
    simp [realNames, hne, hdot]
  have hflag : wwwroot ++ s = wwwroot ↔ some s = some [] := by simp
  rw [Confined, under_iff_walk, hnames, StaysBelow, hs]
  rw [List.head?_cons, List.tail_cons, walk, if_neg hup, decide_eq_decide.mpr hflag]

theorem confined_allPath_iff (r : Request) : Confined (allPath r) ↔ StaysBelow r.target := by
  rw [← confined_root_iff, allPath]
  by_cases hlast : (wwwroot ++ r.target).getLast? = some slash
  · obtain ⟨p, hp⟩ := List.getLast?_eq_some_iff.mp hlast
    have hindex : p ++ [slash] ++ indexName = p ++ slash :: indexName := by simp
    rw [if_pos hlast, hp, hindex, confined_append_index, confined_append_slash]
  · rw [if_neg hlast]

theorem confined_servedPath_iff (st : FileNode) (p : List Byte) :
    Confined (servedPath st p) ↔ Confined p := by
  rw [servedPath]
  split
  · exact confined_append_index p
  · rfl

def ChildAct.path? : ChildAct → Option (List Byte)
  | .execl p _ _ => some p
  | _ => none

def Action.paths : Action → List (List Byte)
  | .stat p => [p]
  | .openFile _ p _ => [p]
  | .fork child => child.filterMap ChildAct.path?
  | _ => []

def accessedPaths (as : List Action) : List (List Byte) := as.flatMap Action.paths

@[simp] theorem accessedPaths_nil : accessedPaths [] = [] := rfl

@[simp] theorem accessedPaths_cons (a : Action) (as : List Action) :
    accessedPaths (a :: as) = a.paths ++ accessedPaths as := rfl

@[simp] theorem accessedPaths_append (as bs : List Action) :
    accessedPaths (as ++ bs) = accessedPaths as ++ accessedPaths bs := List.flatMap_append

section Paths

variable (fs : FileSystem) (res : SysResults)

theorem echoError_paths {code : Nat} {p : List Byte}
    (hp : p ∈ accessedPaths (echoError fs res code)) : ∃ text, errorPage code = some (text, p) := by
  rw [echoError] at hp
  cases he : errorPage code with
  | none => simp [he] at hp
  | some page =>
    obtain ⟨text, path⟩ := page
    suffices hpath : p = path from ⟨text, by rw [hpath]⟩
    rw [he] at hp
    cases hf : fs path with
    | none => simpa [sendError, hf, Action.paths] using hp
    | some st => cases ho : res.pageOpen <;> simpa [sendError, hf, ho, Action.paths] using hp

theorem cgiParent_paths (body output : List Byte) :
    accessedPaths (cgiParent res body output) = [] :=
  cgiParent_flatMap res (fun _ => rfl) (fun _ _ => rfl) (fun _ _ => rfl) rfl body output

theorem cgiChild_paths {path : List Byte} {env : CgiEnv} {p : List Byte}
    (hp : p ∈ (cgiChild res path env).filterMap ChildAct.path?) : p = path := by
  rw [cgiChild] at hp
  split at hp
  · cases he : res.execl <;> simpa [he, ChildAct.path?, eq_comm] using hp
  · simp [ChildAct.path?] at hp

theorem runCgi_paths {method path : List Byte} {query : Option (List Byte)} {len : Int}
    {rest p : List Byte} (hp : p ∈ accessedPaths (runCgi fs res method path query len rest)) :
    p = path ∨ ∃ code text, errorPage code = some (text, p) := by
  have herr : p ∈ accessedPaths (echoError fs res 500) →
      p = path ∨ ∃ code text, errorPage code = some (text, p) :=
    fun h => .inr ⟨500, echoError_paths fs res h⟩
  rw [runCgi] at hp
  cases hb : cgiBranch res method len with
  | forked =>
    rw [hb] at hp
    exact .inl (cgiChild_paths res (by simpa [openedPipes, Action.paths, cgiParent_paths] using hp))
  | _ =>
    rw [hb] at hp
    exact herr (by simpa [openedPipes, Action.paths] using hp)

theorem echoWww_paths {path : List Byte} {size : Int} {p : List Byte}
    (hp : p ∈ accessedPaths (echoWww fs res path size)) :
    p = path ∨ ∃ code text, errorPage code = some (text, p) := by
  have herr : p ∈ accessedPaths (echoError fs res 500) →
      ∃ code text, errorPage code = some (text, p) :=
    fun h => ⟨500, echoError_paths fs res h⟩
  rw [echoWww] at hp
  cases hb : wwwBranch fs res path with
  | notOpened => exact .inl (by simpa [hb, Action.paths] using hp)
  | sent st n => exact .inl (by simpa [hb, Action.paths] using hp)
  | headFailed st =>
    have hor : p = path ∨ p ∈ accessedPaths (echoError fs res 500) := by
      simpa [hb, Action.paths] using hp
    exact hor.imp_right herr
  | bodyFailed st =>
    have hor : p = path ∨ p ∈ accessedPaths (echoError fs res 500) := by
      simpa [hb, Action.paths] using hp
    exact hor.imp_right herr

theorem route_accepted {r : Request} (h : ∀ x, route fs r = x → x ≠ .rejected) :
    r.accepted = true := by
  by_contra hacc
  exact h .rejected (by rw [route, if_pos (by simpa using hacc)]) rfl

theorem serveRequest_paths {r : Request} {s p : List Byte}
    (hp : p ∈ accessedPaths (serveRequest fs res r s)) :
    (r.accepted = true ∧ (p = allPath r ∨ ∃ st, p = servedPath st (allPath r))) ∨
      ∃ code text, errorPage code = some (text, p) := by
  rw [serveRequest] at hp
  cases hr : route fs r with
  | rejected =>
    exact .inr ⟨400, echoError_paths fs res (by simpa [hr, Action.paths] using hp)⟩
  | tooLong => simp [hr, Action.paths] at hp
  | missing =>
    have hacc := route_accepted fs (r := r) (by rintro x rfl; simp [hr])
    have hor : p = allPath r ∨ p ∈ accessedPaths (echoError fs res 404) := by
      simpa [hr, Action.paths, clearAction] using hp
    exact hor.imp (fun h => ⟨hacc, .inl h⟩) fun h => ⟨404, echoError_paths fs res h⟩
  | servedTooLong =>
    have hacc := route_accepted fs (r := r) (by rintro x rfl; simp [hr])
    exact .inl ⟨hacc, .inl (by simpa [hr, Action.paths] using hp)⟩
  | cgi st =>
    have hacc := route_accepted fs (r := r) (by rintro x rfl; simp [hr])
    simp only [hr, accessedPaths_cons, Action.paths, echoCgi, List.mem_append, List.mem_singleton,
      List.nil_append] at hp
    rcases hp with hp | hp
    · exact .inl ⟨hacc, .inl hp⟩
    · exact (runCgi_paths fs res hp).imp_left fun h => ⟨hacc, .inr ⟨st, h⟩⟩
  | static st =>
    have hacc := route_accepted fs (r := r) (by rintro x rfl; simp [hr])
    have hend : ∀ n : Int, accessedPaths (if n < 0 then [.exit 5] else [.closed .conn]) = [] := by
      intro n
      split <;> rfl
    simp only [hr, accessedPaths_append, accessedPaths_cons, Action.paths, clearAction,
      accessedPaths_nil, hend, List.append_nil, List.mem_append, List.mem_singleton] at hp
    rcases hp with hp | hp
    · exact .inl ⟨hacc, .inl hp⟩
    · exact (echoWww_paths fs res hp).imp_left fun h => ⟨hacc, .inr ⟨st, h⟩⟩

end Paths

theorem confined_errorPage {code : Nat} {text p : List Byte} (h : errorPage code = some (text, p)) :
    Confined p := by
  rw [errorPage.eq_def] at h
  split at h
  all_goals first
    | (cases h; decide)
    | cases h

theorem serveRequest_confined (fs : FileSystem) (res : SysResults) {r : Request} {s p : List Byte}
    (h : r.accepted = true → StaysBelow r.target)
    (hp : p ∈ accessedPaths (serveRequest fs res r s)) : Confined p := by
  rcases serveRequest_paths fs res hp with ⟨hacc, rfl | ⟨st, rfl⟩⟩ | ⟨code, text, he⟩
  · exact (confined_allPath_iff r).mpr (h hacc)
  · exact (confined_servedPath_iff st _).mpr ((confined_allPath_iff r).mpr (h hacc))
  · exact confined_errorPage he

/-- Every path that is looked up, opened or executed, and `All_path` even when
it is too long for its array, lies in the document root exactly when the URL of
an accepted request stays below. -/
theorem document_root_iff (m : Locals) (stream : List Byte) :
    ((∀ fs res, ∀ p ∈ accessedPaths (dealwithsock fs res m stream), Confined p) ∧
      ((readRequest m (getLine bufSize stream).1).accepted = true →
        Confined (allPath (readRequest m (getLine bufSize stream).1)))) ↔
    ((readRequest m (getLine bufSize stream).1).accepted = true →
      StaysBelow (readRequest m (getLine bufSize stream).1).target) := by
  constructor
  · rintro ⟨-, h⟩ hacc
    exact (confined_allPath_iff _).mp (h hacc)
  · intro h
    exact ⟨fun fs res p hp => serveRequest_confined fs res h hp,
      fun hacc => (confined_allPath_iff _).mpr (h hacc)⟩

def climbingRequest : List Byte := bytes "GET /../secret? HTTP/1.0\r\n\r\n"

theorem document_root_dotdot :
    ¬ ((∀ fs res, ∀ p ∈ accessedPaths (dealwithsock fs res (.const 120) climbingRequest),
        Confined p) ∧
      ((readRequest (.const 120) (getLine bufSize climbingRequest).1).accepted = true →
        Confined (allPath (readRequest (.const 120) (getLine bufSize climbingRequest).1)))) := by
  have hread : readRequest (.const 120) (getLine bufSize climbingRequest).1 =
      ⟨bytes "GET", bytes "/../secret?", some (bytes "/../secret"), some [], true⟩ := by decide
  rw [hread]
  rintro ⟨-, h⟩
  exact absurd (h (by decide)) (by decide)

end LinuxStudy

import LinuxStudy.RequestPrinting
import LinuxStudy.RequestBounds

/-! The environment a GET request gives its CGI program. The query is cut out of
`url`, and written into an array of 255 bytes by the child. -/

namespace LinuxStudy

def Action.children : Action → List (List ChildAct)
  | .fork child => [child]
  | _ => []

def children (as : List Action) : List (List ChildAct) := as.flatMap Action.children

/-- No system call before the child's `execl` fails or ends the child. -/
structure ReachesExec (res : SysResults) : Prop where
  pipeIn : res.pipeIn = true
  pipeOut : res.pipeOut = true
  fork : res.fork = true
  cgiHead : res.cgiHead ≠ .sigpipe
  cgiBlank : res.cgiBlank ≠ .sigpipe

/-- One child is made; all it writes fits, and it calls `execl` on `path` with
this environment. -/
def ExecutedWith (as : List Action) (path method query : List Byte) : Prop :=
  ∃ child env ok, children as = [child] ∧ .overflow ∉ child ∧ .execl path env ok ∈ child ∧
    env.method = method ∧ env.query = some query

/-- What stands behind the first `?`. -/
def queryPart (url : List Byte) : List Byte := url.drop (url.idxOf questionMark + 1)

/-- The array `url` once the URL is stored. -/
def urlMemory (m : Locals) (line : List Byte) : Memory :=
  store m.url (copyUntil isspace (store m.buf line) 1023 (urlStart (store m.buf line)))

/-- The scan for `?` finds one, which a NUL follows. -/
def EmptyQueryAt (url : Memory) : Prop :=
  ∃ j ≤ 521, url j = questionMark ∧ (∀ k < j, url k ≠ questionMark) ∧ url (j + 1) = 0

/-- The request is not taken for one with a length, or has one. -/
def LengthGiven (method rest : List Byte) : Prop :=
  wantsLength method = true → 0 < (headerLoop rest).1

def QueryKept (m : Locals) (line : List Byte) : Prop :=
  let url := (readRequest m line).url
  if questionMark ∈ url then (queryPart url).length ≤ 241 else EmptyQueryAt (urlMemory m line)

theorem queryPart_of_notMem {url : List Byte} (h : questionMark ∉ url) : queryPart url = [] := by
  rw [queryPart, List.idxOf_eq_length h]
  exact List.drop_eq_nil_of_le (Nat.le_succ _)

theorem readRequest_eq (m : Locals) (line : List Byte) : ∃ method, readRequest m line =
    splitUrl m method (copyUntil isspace (store m.buf line) 1023 (urlStart (store m.buf line))) :=
  ⟨_, rfl⟩

theorem copyUntil_length_eq {stop : Byte → Bool} {mem : Memory} {limit i j : Nat} (hj : j ≤ limit)
    (hstop : stop (mem (i + j)) = true) (hpass : ∀ k < j, stop (mem (i + k)) = false) :
    (copyUntil stop mem limit i).length = j := by
  have hle : (copyUntil stop mem limit i).length ≤ j := copyUntil_length_le_of_stop limit hstop
  refine Nat.le_antisymm hle (Nat.le_of_not_lt fun hlt => ?_)
  rcases copyUntil_length_stop stop mem limit i with he | he
  · omega
  · rw [hpass _ hlt] at he
    exact Bool.false_ne_true he

theorem stringAt_eq_nil {mem : Memory} {room i : Nat} (hroom : 0 < room) :
    stringAt mem room i = [] ↔ mem i = 0 := by
  obtain ⟨room, rfl⟩ : ∃ r, room = r + 1 := ⟨room - 1, by omega⟩
  rw [stringAt, copyUntil]
  by_cases h : mem i = 0
  · simp [h]
  · simp [h]

/-- A URL without `?` leaves an empty query only if the scan finds one behind it. -/
theorem splitUrl_query_nil (m : Locals) {method : List Byte} (urlBytes : List Byte)
    (hget : methodIs "GET" method = true) :
    (splitUrl m method urlBytes).query.getD nullText = [] ↔
      EmptyQueryAt (store m.url urlBytes) := by
  have hlen := copyUntil_length_le (· == questionMark) (store m.url urlBytes) 521 0
  have hfirst : ∀ n, store m.url urlBytes n = questionMark →
      (copyUntil (· == questionMark) (store m.url urlBytes) 521 0).length ≤ n := by
    intro n he
    apply copyUntil_length_le_of_stop
    rw [Nat.zero_add, he]
    rfl
  simp only [splitUrl, hget, Bool.true_and]
  generalize hj : (copyUntil (· == questionMark) (store m.url urlBytes) 521 0).length = j at *
  constructor
  · intro h
    split at h
    · rename_i hmark
      refine ⟨j, hlen, eq_of_beq hmark, fun k hk he => ?_, (stringAt_eq_nil (by omega)).mp h⟩
      have hle := hfirst k he
      omega
    · exact absurd h (by decide)
  · rintro ⟨i, hi, hmark, hbefore, hnul⟩
    have hji : (copyUntil (· == questionMark) (store m.url urlBytes) 521 0).length = i := by
      apply copyUntil_length_eq hi
      · rw [Nat.zero_add, hmark]
        rfl
      · intro k hk
        rw [Nat.zero_add]
        exact beq_eq_false_iff_ne.mpr (hbefore k hk)
    rw [hj] at hji
    subst hji
    rw [hmark, if_pos (beq_self_eq_true questionMark)]
    exact (stringAt_eq_nil (by omega)).mpr hnul

/-- A first `?` beyond the scan leaves a path that is too long to be served. -/
theorem path_of_late_mark (m : Locals) {method urlBytes : List Byte}
    (hget : methodIs "GET" method = true) (hlate : 521 < (cstr urlBytes).idxOf questionMark) :
    (splitUrl m method urlBytes).path = some ((cstr urlBytes).take 521) := by
  obtain ⟨t, ht, -⟩ := cstr_split urlBytes
  have hlong : 521 < (cstr urlBytes).length := hlate.trans_le List.idxOf_le_length
  have hmem : questionMark ∉ (cstr urlBytes).take 521 := by
    by_cases h : questionMark ∈ cstr urlBytes
    · rw [List.mem_take_iff_idxOf_lt h]
      omega
    · exact fun hmem => h (List.mem_of_mem_take hmem)
  have htake : urlBytes.take 521 = (cstr urlBytes).take 521 := by
    conv_lhs => rw [ht]
    exact List.take_append_of_le_length hlong.le
  have hle : (cstr urlBytes).length ≤ urlBytes.length := (List.takeWhile_sublist _).length_le
  have hscan : copyUntil (· == questionMark) (store m.url urlBytes) 521 0 =
      (cstr urlBytes).take 521 := by
    rw [copyUntil_store_ends _ _ _ (.inl (by omega)), scanText, List.drop_zero, htake,
      List.takeWhile_eq_self_iff]
    intro c hc
    have hne : (c == questionMark) = false := beq_eq_false_iff_ne.mpr fun he => hmem (he ▸ hc)
    rw [hne]
    rfl
  have hstring := stringAt_take m.path urlBytes (Nat.lt_succ_self 521)
  simp only [splitUrl, hget, hscan, hstring, if_true]

theorem length_le_allPath (r : Request) : (wwwroot ++ r.target).length ≤ (allPath r).length := by
  rw [allPath]
  split
  · exact (List.sublist_append_left _ indexName).length_le
  · exact le_rfl

theorem mark_within_scan {fs : FileSystem} (m : Locals) {method urlBytes : List Byte}
    {st : FileNode} (hget : methodIs "GET" method = true)
    (hroute : route fs (splitUrl m method urlBytes) = .cgi st) :
    (cstr urlBytes).idxOf questionMark ≤ 521 := by
  by_contra hlate
  have hlong : 521 < (cstr urlBytes).length :=
    (Nat.lt_of_not_le hlate).trans_le List.idxOf_le_length
  have hpath := path_of_late_mark m hget (Nat.lt_of_not_le hlate)
  have hlen := (length_le_allPath (splitUrl m method urlBytes)).trans_lt
    (found_of_route (.inl hroute)).room
  rw [Request.target, hpath, Option.getD_some, List.length_append, List.length_take] at hlen
  have hroot : wwwroot.length = 7 := by decide
  have hsize : pathSize = 522 := rfl
  omega

theorem cgiEnv_get {method : List Byte} (len : Int) (query : Option (List Byte))
    (hget : methodIs "GET" method = true) :
    (cgiEnv method len query).query = some (query.getD nullText) := by
  rw [cgiEnv, hget]
  rfl

theorem fits_get_iff {method : List Byte} (len : Int) (query : Option (List Byte))
    (hget : methodIs "GET" method = true) (hmethod : method.length ≤ 99) :
    (cgiEnv method len query).Fits ↔ (query.getD nullText).length ≤ 241 := by
  have hm : (bytes "METHOD=").length = 7 := by decide
  have hq : (bytes "QUERY_STRING=").length = 13 := by decide
  rw [CgiEnv.Fits, cgiEnv_get len query hget, hm, hq]
  change 7 + method.length < 255 ∧ _ ↔ _
  simp only [Option.mem_some_iff, forall_eq']
  omega

/-- What the child is given fits, and is the query of the URL. -/
theorem queryKept_iff {fs : FileSystem} (m : Locals) (line : List Byte) {st : FileNode}
    (hget : methodIs "GET" (readRequest m line).method = true)
    (hroute : route fs (readRequest m line) = .cgi st) :
    ((readRequest m line).query.getD nullText).length ≤ 241 ∧
        (readRequest m line).query.getD nullText = queryPart (readRequest m line).url ↔
      QueryKept m line := by
  obtain ⟨method, hread⟩ := readRequest_eq m line
  have hlen := copyUntil_length_le isspace (store m.buf line) 1023 (urlStart (store m.buf line))
  rw [QueryKept, urlMemory]
  rw [hread] at hget hroute ⊢
  generalize copyUntil isspace (store m.buf line) 1023 (urlStart (store m.buf line)) = urlBytes
    at hlen hget hroute ⊢
  have hget' : methodIs "GET" method = true := hget
  rw [splitUrl_url m method hlen]
  split
  · rename_i hmark
    have hquery := (splitUrl_query m hlen hget' hmark (mark_within_scan m hget' hroute)).2.1
    rw [hquery, Option.getD_some, ← queryPart]
    exact and_iff_left rfl
  · rename_i hmark
    rw [queryPart_of_notMem hmark, ← splitUrl_query_nil m urlBytes hget']
    refine ⟨fun h => h.2, fun h => ⟨?_, h⟩⟩
    rw [h]
    exact Nat.zero_le _

section Children

variable (fs : FileSystem) (res : SysResults)

theorem children_append (as bs : List Action) : children (as ++ bs) = children as ++ children bs :=
  List.flatMap_append

theorem children_cons (a : Action) (as : List Action) :
    children (a :: as) = a.children ++ children as := List.flatMap_cons

theorem children_echoError (code : Nat) : children (echoError fs res code) = [] := by
  rw [echoError]
  cases errorPage code with
  | none => rfl
  | some page =>
    simp only [children_cons, sendError]
    cases fs page.2 with
    | none => rfl
    | some st => cases res.pageOpen <;> rfl

theorem children_runCgi (method path : List Byte) (query : Option (List Byte)) (len : Int)
    (rest : List Byte) : children (runCgi fs res method path query len rest) =
      if cgiBranch res method len = .forked then [cgiChild res path (cgiEnv method len query)]
      else [] := by
  cases hbranch : cgiBranch res method len with
  | noLength => simp only [runCgi, hbranch, children_append, children_echoError]; rfl
  | noPipeIn => simp only [runCgi, hbranch, children_append, children_echoError]; rfl
  | noPipeOut => simp only [runCgi, hbranch, children_append, children_echoError]; rfl
  | noFork => simp only [runCgi, hbranch, children_append, children_echoError]; rfl
  | forked =>
    have hparent : ∀ body output, children (cgiParent res body output) = [] :=
      cgiParent_flatMap res (fun _ => rfl) (fun _ _ => rfl) (fun _ _ => rfl) rfl
    simp only [runCgi, hbranch, children_append, children_cons, hparent]
    rfl

theorem children_cgi {r : Request} {st : FileNode} (s : List Byte) (hroute : route fs r = .cgi st) :
    children (serveRequest fs res r s) =
      if cgiBranch res r.method (cgiHeaders r.method s).1 = .forked then
        [cgiChild res (servedPath st (allPath r))
          (cgiEnv r.method (cgiHeaders r.method s).1 r.query)]
      else [] := by
  rw [serveRequest, hroute]
  change children (.stat (allPath r) :: .headers _ _ :: runCgi ..) = _
  rw [children_cons, children_cons, children_runCgi]
  rfl

end Children

theorem cgiBranch_forked {res : SysResults} (hres : ReachesExec res) (method : List Byte)
    (len : Int) :
    cgiBranch res method len = .forked ↔ (wantsLength method = true → 0 < len) := by
  rw [cgiBranch, hres.pipeIn, hres.pipeOut, hres.fork]
  split
  · rename_i h
    exact ⟨nofun, fun hpos => absurd (hpos h.1) (by omega)⟩
  · rename_i h
    refine ⟨fun _ hw => Int.lt_of_not_ge fun hle => h ⟨hw, hle⟩, fun _ => rfl⟩

theorem execl_mem_cgiChild {res : SysResults} {path path' : List Byte} {env env' : CgiEnv}
    {ok : Bool} : .execl path' env' ok ∈ cgiChild res path env ↔
      env.Fits ∧ path' = path ∧ env' = env ∧ ok = res.execl := by
  rw [cgiChild]
  split
  · rename_i hfits
    rw [and_iff_right hfits]
    cases res.execl <;> simp
  · rename_i hfits
    simp [hfits]

theorem overflow_mem_cgiChild {res : SysResults} {path : List Byte} {env : CgiEnv} :
    .overflow ∈ cgiChild res path env ↔ ¬ env.Fits := by
  rw [cgiChild]
  split
  · rename_i hfits
    refine iff_of_false ?_ (not_not_intro hfits)
    cases res.execl <;> simp
  · rename_i hfits
    simp [hfits]

theorem executedWith_child {res : SysResults} {as : List Action} {path method query : List Byte}
    {env : CgiEnv} (has : children as = [cgiChild res path env]) :
    ExecutedWith as path method query ↔
      env.Fits ∧ env.method = method ∧ env.query = some query := by
  constructor
  · rintro ⟨child, env', ok, hchild, -, hexec, hmethod, hquery⟩
    obtain rfl : cgiChild res path env = child := List.singleton_inj.mp (has.symm.trans hchild)
    obtain ⟨hfits, -, rfl, -⟩ := execl_mem_cgiChild.mp hexec
    exact ⟨hfits, hmethod, hquery⟩
  · rintro ⟨hfits, hmethod, hquery⟩
    exact ⟨_, env, res.execl, has, fun hover => overflow_mem_cgiChild.mp hover hfits,
      execl_mem_cgiChild.mpr ⟨hfits, rfl, rfl, rfl⟩, hmethod, hquery⟩

theorem lengthGiven_iff {res : SysResults} (hres : ReachesExec res) (method rest : List Byte) :
    cgiBranch res method (cgiHeaders method rest).1 = .forked ↔ LengthGiven method rest := by
  rw [cgiBranch_forked hres, LengthGiven, cgiHeaders]
  refine forall_congr' fun hw => ?_
  rw [if_pos hw]

theorem executedWith_serve {fs : FileSystem} {res : SysResults} (hres : ReachesExec res)
    {r : Request} {st : FileNode} (hget : methodIs "GET" r.method = true)
    (hmethod : r.method.length ≤ 99) (hroute : route fs r = .cgi st) (rest query : List Byte) :
    ExecutedWith (serveRequest fs res r rest) (servedPath st (allPath r)) r.method query ↔
      LengthGiven r.method rest ∧
        (r.query.getD nullText).length ≤ 241 ∧ r.query.getD nullText = query := by
  have hchild := children_cgi fs res rest hroute
  rw [← lengthGiven_iff hres]
  by_cases hbranch : cgiBranch res r.method (cgiHeaders r.method rest).1 = .forked
  · rw [if_pos hbranch] at hchild
    rw [executedWith_child hchild, fits_get_iff _ _ hget hmethod, cgiEnv_get _ _ hget,
      Option.some_inj]
    exact ⟨fun h => ⟨hbranch, h.1, h.2.2⟩, fun h => ⟨h.2.1, rfl, h.2.2⟩⟩
  · rw [if_neg hbranch] at hchild
    refine iff_of_false ?_ fun h => hbranch h.1
    rintro ⟨child, env, ok, hone, -⟩
    rw [hchild] at hone
    cases hone

theorem reachesExec_succeeding (n : Nat) : ReachesExec (.succeeding n) :=
  ⟨rfl, rfl, rfl, nofun, nofun⟩

/-- A GET request that goes to a CGI program hands it its method and its query
exactly when the child is made and the query is kept. -/
theorem query_transfer_iff (fs : FileSystem) (m : Locals) (stream : List Byte) {st : FileNode}
    (hget : methodIs "GET" (readRequest m (getLine bufSize stream).1).method = true)
    (hroute : route fs (readRequest m (getLine bufSize stream).1) = .cgi st) :
    (∀ res, ReachesExec res →
      ExecutedWith (dealwithsock fs res m stream)
        (servedPath st (allPath (readRequest m (getLine bufSize stream).1)))
        (readRequest m (getLine bufSize stream).1).method
        (queryPart (readRequest m (getLine bufSize stream).1).url)) ↔
    LengthGiven (readRequest m (getLine bufSize stream).1).method (getLine bufSize stream).2 ∧
      QueryKept m (getLine bufSize stream).1 := by
  rw [← queryKept_iff m _ hget hroute]
  have hmethod := readRequest_method_le m (getLine bufSize stream).1
  constructor
  · intro hall
    have hres := reachesExec_succeeding 1
    exact (executedWith_serve hres hget hmethod hroute _ _).mp (hall _ hres)
  · intro hkept res hres
    exact (executedWith_serve hres hget hmethod hroute _ _).mpr hkept

def printedGet (url : List Byte) (hne : url ≠ []) (hplain : ∀ b ∈ url, isspace b = false ∧ b ≠ 0)
    (hle : url.length ≤ 1023) : PrintedRequest :=
  printedLine (bytes "GET") (.inl (by decide)) url hne hplain hle

def queryLine : PrintedRequest :=
  printedGet (bytes "/c?a=1") (by decide) (forall_mem_of_all (by decide)) (by decide)

theorem query_transfer_queryLine :
    ExecutedWith (dealwithsock (oneFile 0o755) (.succeeding 1) (.const 0) (queryLine.text ++ crlf))
      (bytes "wwwroot/c") (bytes "GET") (bytes "a=1") := by
  have hline := queryLine.getLine_text crlf
  have hread : readRequest (.const 0) (getLine bufSize (queryLine.text ++ crlf)).1 =
      ⟨bytes "GET", bytes "/c?a=1", some (bytes "/c"), some (bytes "a=1"), true⟩ := by
    rw [hline, queryLine.readRequest_line]
    decide
  have hroute : route (oneFile 0o755)
      (readRequest (.const 0) (getLine bufSize (queryLine.text ++ crlf)).1) =
        .cgi ⟨0o755, 1, [120]⟩ := by
    rw [hread]
    rfl
  have hiff := query_transfer_iff (oneFile 0o755) (.const 0) (queryLine.text ++ crlf)
    (by rw [hread]; decide) hroute
  rw [QueryKept, hread] at hiff
  refine hiff.mpr ⟨?_, ?_⟩ _ (reachesExec_succeeding 1)
  · rw [LengthGiven]
    decide
  · rw [if_pos (by decide)]
    decide

def longQueryUrl : List Byte := bytes "/c?" ++ List.replicate 242 97

theorem longQueryUrl_plain : ∀ b ∈ longQueryUrl, isspace b = false ∧ b ≠ 0 := by
  intro b hb
  rcases List.mem_append.mp hb with hb | hb
  · exact forall_mem_of_all (p := fun b => isspace b = false ∧ b ≠ 0) (by decide) b hb
  · rw [List.eq_of_mem_replicate hb]
    decide

def longQueryLine : PrintedRequest :=
  printedGet longQueryUrl (by rw [longQueryUrl]; exact List.cons_ne_nil _ _) longQueryUrl_plain
    (by rw [longQueryUrl, List.length_append, List.length_replicate]; decide)

def noQueryLine : PrintedRequest :=
  printedGet (bytes "/c") (by decide) (forall_mem_of_all (by decide)) (by decide)

theorem not_emptyQuery_const (url : List Byte) (h : questionMark ∉ url) :
    ¬ EmptyQueryAt (store (Locals.const 0).url url) := by
  rintro ⟨j, -, hmark, -⟩
  rcases Nat.lt_trichotomy j url.length with hlt | rfl | hgt
  · rw [store_lt hlt] at hmark
    exact h (hmark ▸ List.getElem_mem hlt)
  · rw [store_length] at hmark
    exact questionMark_ne_zero hmark.symm
  · rw [store_gt hgt] at hmark
    exact questionMark_ne_zero hmark.symm

theorem route_executable {r : Request} (haccepted : r.accepted = true)
    (htarget : r.target = bytes "/c") :
    route (oneFile 0o755) r = .cgi ⟨0o755, 1, [120]⟩ ∧ allPath r = bytes "wwwroot/c" := by
  have hall : allPath r = bytes "wwwroot/c" := by
    rw [allPath, htarget]
    decide
  have hfound : Found (oneFile 0o755) r ⟨0o755, 1, [120]⟩ := by
    refine ⟨haccepted, ?_, rfl, ?_⟩
    · rw [hall]
      decide
    · rw [hall]
      decide
  have hexec : FileNode.executable ⟨0o755, 1, [120]⟩ = true := rfl
  refine ⟨?_, hall⟩
  rw [hfound.route, hexec, Bool.or_true, if_pos rfl]

theorem not_transferred (t : PrintedRequest) (hget : methodIs "GET" t.method = true)
    (htarget : (splitUrl (.const 0) t.method t.url).target = bytes "/c")
    (hlost : ¬ if questionMark ∈ t.url then (queryPart t.url).length ≤ 241
      else EmptyQueryAt (store (Locals.const 0).url t.url)) :
    ¬ ExecutedWith (dealwithsock (oneFile 0o755) (.succeeding 1) (.const 0) (t.text ++ crlf))
      (bytes "wwwroot/c") t.method (queryPart t.url) := by
  have haccepted : (splitUrl (.const 0) t.method t.url).accepted = true := by
    rw [Request.accepted, Bool.or_eq_true]
    exact .inl hget
  obtain ⟨hroute, hall⟩ := route_executable haccepted htarget
  have hlen := t.method_length
  intro h
  rw [dealwithsock, t.getLine_text crlf, t.readRequest_line] at h
  rw [← hall] at h
  obtain ⟨-, hshort, hpart⟩ :=
    (executedWith_serve (reachesExec_succeeding 1) hget (hlen.trans (by decide)) hroute crlf
      (queryPart t.url)).mp h
  apply hlost
  split
  · rw [hpart] at hshort
    exact hshort
  · rename_i hmark
    rw [queryPart_of_notMem hmark] at hpart
    exact (splitUrl_query_nil (.const 0) t.url hget).mp hpart

/-- An executable asked for without `?` is given the text `(null)`, and a query
of 242 bytes does not fit. -/
theorem query_lost :
    (¬ ExecutedWith (dealwithsock (oneFile 0o755) (.succeeding 1) (.const 0)
        (noQueryLine.text ++ crlf)) (bytes "wwwroot/c") (bytes "GET") []) ∧
      ¬ ExecutedWith (dealwithsock (oneFile 0o755) (.succeeding 1) (.const 0)
        (longQueryLine.text ++ crlf)) (bytes "wwwroot/c") (bytes "GET")
        (List.replicate 242 97) := by
  have hget : methodIs "GET" (bytes "GET") = true := by decide
  constructor
  · have hplain : PlainUrl (bytes "/c") :=
      ⟨forall_mem_of_all (by decide), by decide, by decide, by decide, by decide⟩
    refine not_transferred noQueryLine hget ?_ ?_
    · obtain ⟨query, hsplit⟩ := splitUrl_get (.const 0) (bytes "/c") hget (by decide)
      have hpath := hplain.path (.const 0)
      change (splitUrl (.const 0) (bytes "GET") (bytes "/c")).target = bytes "/c"
      rw [hsplit, hpath]
      rfl
    · rw [if_neg (by decide)]
      exact not_emptyQuery_const _ (by decide)
  · have hidx : longQueryUrl.idxOf questionMark = 2 := by decide +kernel
    have hmark : questionMark ∈ longQueryUrl := by decide +kernel
    have hpart : queryPart longQueryUrl = List.replicate 242 97 := by
      rw [queryPart, hidx]
      rfl
    have hcstr : cstr longQueryUrl = longQueryUrl := longQueryLine.cstr_url
    have hget' : methodIs "GET" longQueryLine.method = true := hget
    have hquery := splitUrl_query (.const 0) longQueryLine.url_le hget'
    change (_ ∈ cstr longQueryUrl → (cstr longQueryUrl).idxOf _ ≤ 521 → _) at hquery
    rw [hcstr, hidx] at hquery
    have hlost := not_transferred longQueryLine hget ?_ ?_
    · rw [show longQueryLine.url = longQueryUrl from rfl, hpart] at hlost
      exact hlost
    · have hpath := (hquery hmark (by decide)).1
      rw [Request.target, hpath]
      rfl
    · change ¬ if questionMark ∈ longQueryUrl then (queryPart longQueryUrl).length ≤ 241 else _
      rw [if_pos hmark, hpart, List.length_replicate]
      decide

end LinuxStudy

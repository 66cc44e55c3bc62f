import LinuxStudy.RequestLine
import LinuxStudy.QueryScanner

/-! What one connection makes the server do: `thread_mechine`, `Dealwithsock`
and the functions below it, as the system calls issued in order. The results
of the calls that may fail are given. A call that does not return (`exit`, a
write that raises SIGPIPE, a string written past its array) ends the run there,
whatever the list has behind it. Of the text that `printf` writes, the part that
`fork` copies is kept; what `syslog` writes is left out. -/

namespace LinuxStudy

/-- A `send`, `sendfile` or `write`: how many bytes were taken, -1, or a signal. -/
inductive SendResult
  | accepted (n : Nat)
  | failed
  | sigpipe
  deriving DecidableEq

def SendResult.taken : SendResult → Nat
  | .accepted n => n
  | _ => 0

structure CgiEnv where
  method : List Byte
  contentLen : Option Int
  query : Option (List Byte)
  deriving DecidableEq

structure FileNode where
  mode : Nat
  size : Int
  contents : List Byte

abbrev FileSystem := List Byte → Option FileNode

inductive Descr
  | conn | file | page | in0 | in1 | out0 | out1
  deriving DecidableEq

inductive ChildAct
  | send (text : List Byte) (r : SendResult)
  | execl (path : List Byte) (env : CgiEnv) (ok : Bool)
  | overflow
  | exit (code : Int)
  deriving DecidableEq

/-- System calls of the thread that serves a connection. -/
inductive Action
  | opened (d : Descr)
  | closed (d : Descr)
  | stat (path : List Byte)
  | openFile (d : Descr) (path : List Byte) (ok : Bool)
  | headers (wantsLength : Bool) (received : Nat)
  | send (text : List Byte) (r : SendResult)
  | sendfile (d : Descr) (contents : List Byte) (count : Int) (r : SendResult)
  | fork (child : List ChildAct)
  | write (b : Byte) (hasReader : Bool)
  | relay (b : Byte) (r : SendResult)
  | waitpid
  | overflow
  | exit (code : Int)
  deriving DecidableEq

structure SysResults where
  create : Int
  detach : Int
  errHead : SendResult
  pageOpen : Bool
  pageSend : SendResult
  fileOpen : Bool
  wwwHead : SendResult
  fileSend : SendResult
  pipeIn : Bool
  pipeOut : Bool
  fork : Bool
  cgiHead : SendResult
  cgiBlank : SendResult
  execl : Bool
  /-- Does the `k`-th write to `input[1]` find a reader? -/
  bodyReader : Nat → Bool
  relay : Nat → SendResult
  /-- What a CGI program writes, from its path, its environment and its input. -/
  program : List Byte → CgiEnv → List Byte → List Byte
  /-- What the buffer of `stdout` holds at the `fork`: lines of this request and
  of any other one. -/
  stdout : List Byte
  /-- What comes out of a child that has written past its arrays. -/
  overrun : List Byte

def SysResults.leaving (res : SysResults) (stdout overrun : List Byte) : SysResults :=
  { res with stdout := stdout, overrun := overrun }

section Handling

variable (fs : FileSystem) (res : SysResults)

def errorPage : Nat → Option (List Byte × List Byte)
  | 401 => some (bytes "HTTP/1.0 401 Unauthorized\r\n\r\n", bytes "wwwroot/error/401.html")
  | 400 => some (bytes "HTTP/1.0 400 Bad Request\r\n\r\n", bytes "wwwroot/error/400.html")
  | 403 => some (bytes "HTTP/1.0 403 Forbidden\r\n\r\n", bytes "wwwroot/error/403.html")
  | 404 => some (bytes "HTTP/1.0 404 Not Found\r\n\r\n", bytes "wwwroot/error/404.html")
  | 500 => some (bytes "HTTP/1.0 500 Internal Server Error\r\n\r\n",
      bytes "wwwroot/error/500.html")
  | 503 => some (bytes "HTTP/1.0 503 Server Unavailable\r\n\r\n", bytes "wwwroot/error/503.html")
  | _ => none

def sendError (path : List Byte) : List Action :=
  match fs path with
  | none => [.stat path]
  | some st =>
    if res.pageOpen then
      [.stat path, .openFile .page path true, .sendfile .page st.contents st.size res.pageSend,
        .closed .page]
    else [.stat path, .openFile .page path false]

def echoError (code : Nat) : List Action :=
  match errorPage code with
  | none => []
  | some (text, path) => .send text res.errHead :: sendError fs res path

def okHead : List Byte := bytes "HTTP/1.0 200 OK\r\n\r\n"

/-- The two parts in which the child of `echo_cgi` sends the same header. -/
def okLine : List Byte := bytes "HTTP/1.0 200 OK\r\n"

def crlf : List Byte := bytes "\r\n"

/-- The ways through `echo_www`. -/
inductive WwwBranch
  | notOpened
  | headFailed (st : FileNode)
  | bodyFailed (st : FileNode)
  | sent (st : FileNode) (n : Nat)

def wwwBranch (path : List Byte) : WwwBranch :=
  match fs path with
  | none => .notOpened
  | some st =>
    if res.fileOpen = false then .notOpened
    else
      match res.wwwHead with
      | .accepted (_ + 1) =>
        match res.fileSend with
        | .accepted n => .sent st n
        | _ => .bodyFailed st
      | _ => .headFailed st

def echoWww (path : List Byte) (size : Int) : List Action :=
  match wwwBranch fs res path with
  | .notOpened => [.openFile .file path false]
  | .headFailed _ =>
    [.openFile .file path true, .send okHead res.wwwHead] ++ echoError fs res 500
  | .bodyFailed st =>
    [.openFile .file path true, .send okHead res.wwwHead,
      .sendfile .file st.contents size res.fileSend] ++ echoError fs res 500
  | .sent st _ =>
    [.openFile .file path true, .send okHead res.wwwHead,
      .sendfile .file st.contents size res.fileSend]

def WwwBranch.ret : WwwBranch → Int
  | .sent _ n => n
  | _ => -1

/-- The bytes the parent writes to the program: `ch` keeps its value where
`recv` meets end-of-file. -/
def bodyBytes : Nat → Byte → List Byte → List Byte
  | 0, _, _ => []
  | n + 1, ch, [] => ch :: bodyBytes n ch []
  | n + 1, _, b :: s => b :: bodyBytes n b s

def nullText : List Byte := bytes "(null)"

/-- The environment the child puts together; glibc prints a null string so. -/
def cgiEnv (method : List Byte) (len : Int) (query : Option (List Byte)) : CgiEnv where
  method := method
  contentLen := if methodIs "POST" method then some len else none
  query := if methodIs "GET" method then some (query.getD nullText) else none

/-- Do the `sprintf`s of the child stay inside their arrays of 255 bytes? -/
def CgiEnv.Fits (env : CgiEnv) : Prop :=
  (bytes "METHOD=").length + env.method.length < 255 ∧
    ∀ q ∈ env.query, (bytes "QUERY_STRING=").length + q.length < 255

instance (env : CgiEnv) : Decidable env.Fits := by
  unfold CgiEnv.Fits
  infer_instance

def cgiChild (path : List Byte) (env : CgiEnv) : List ChildAct :=
  if env.Fits then
    [.send okLine res.cgiHead, .send crlf res.cgiBlank, .execl path env res.execl] ++
      (if res.execl then [] else [.exit 0])
  else [.overflow]

/-- What the parent reads from the pipe. After an `execl` that fails, the
child's `exit` writes out the copy of the buffer that it got with `fork`. -/
def cgiOutput (path : List Byte) (env : CgiEnv) (body : List Byte) : List Byte :=
  if ¬ env.Fits then res.overrun
  else if res.cgiHead = .sigpipe ∨ res.cgiBlank = .sigpipe then []
  else if res.execl then res.program path env body
  else res.stdout

/-- The child stays inside its arrays and, if it gets to `execl`, that succeeds. -/
def Executes (env : CgiEnv) : Prop :=
  env.Fits ∧ (res.cgiHead ≠ .sigpipe → res.cgiBlank ≠ .sigpipe → res.execl = true)

def cgiParent (body output : List Byte) : List Action :=
  [.closed .in0, .closed .out1] ++
    body.mapIdx (fun k b => .write b (res.bodyReader k)) ++
    output.mapIdx (fun k b => .relay b (res.relay k)) ++
    [.closed .in1, .closed .out0, .closed .conn, .waitpid]

/-- `strcmp("GET", method) != 0`, on which `echo_cgi` takes the request for a
POST with a length. -/
def wantsLength (method : List Byte) : Bool := !strcmpEq (bytes "GET") method

def cgiHeaders (method s : List Byte) : Int × List Byte :=
  if wantsLength method then headerLoop s else (0, clearHeader s)

/-- The ways through `echo_cgi` up to the fork. -/
inductive CgiBranch
  | noLength | noPipeIn | noPipeOut | noFork | forked
  deriving DecidableEq

def cgiBranch (method : List Byte) (len : Int) : CgiBranch :=
  if wantsLength method = true ∧ len ≤ 0 then .noLength
  else if res.pipeIn = false then .noPipeIn
  else if res.pipeOut = false then .noPipeOut
  else if res.fork = false then .noFork
  else .forked

/-- How many bytes the parent feeds to the program; the test is for POST here. -/
def feedCount (method : List Byte) (len : Int) : Nat :=
  if methodIs "POST" method then len.toNat else 0

def cgiBody (method : List Byte) (len : Int) (rest : List Byte) : List Byte :=
  bodyBytes (feedCount method len) 0 rest

def openedPipes : List Action := [.opened .in0, .opened .in1, .opened .out0, .opened .out1]

def runCgi (method path : List Byte) (query : Option (List Byte)) (len : Int) (rest : List Byte) :
    List Action :=
  let env := cgiEnv method len query
  let body := cgiBody method len rest
  match cgiBranch res method len with
  | .noLength => echoError fs res 500 ++ [.exit (-1)]
  | .noPipeIn => echoError fs res 500 ++ [.closed .conn, .exit (-1)]
  | .noPipeOut =>
    [.opened .in0, .opened .in1] ++ echoError fs res 500 ++ [.closed .conn, .exit (-1)]
  | .noFork => openedPipes ++ echoError fs res 500 ++ [.closed .conn, .exit (-1)]
  | .forked =>
    openedPipes ++ .fork (cgiChild res path env) :: cgiParent res body (cgiOutput res path env body)

/-- `echo_cgi` with the unread rest of the connection. -/
def echoCgi (method path : List Byte) (query : Option (List Byte)) (s : List Byte) : List Action :=
  .headers (wantsLength method) (s.length - (cgiHeaders method s).2.length) ::
    runCgi fs res method path query (cgiHeaders method s).1 (cgiHeaders method s).2

def wwwroot : List Byte := bytes "wwwroot"

def slash : Byte := 47

def indexName : List Byte := bytes "index.html"

/-- The text `All_path` is made from: the path for GET, the URL for POST. -/
def Request.target (r : Request) : List Byte := r.path.getD r.url

def Request.accepted (r : Request) : Bool := methodIs "GET" r.method || methodIs "POST" r.method

def allPath (r : Request) : List Byte :=
  let p := wwwroot ++ r.target
  if p.getLast? = some slash then p ++ indexName else p

def FileNode.isDir (st : FileNode) : Bool := st.mode &&& 0o040000 ≠ 0

def FileNode.executable (st : FileNode) : Bool :=
  st.mode &&& 0o100 ≠ 0 || st.mode &&& 0o010 ≠ 0 || st.mode &&& 0o001 ≠ 0

def servedPath (st : FileNode) (p : List Byte) : List Byte :=
  if st.isDir then p ++ slash :: indexName else p

def pathSize : Nat := 522

/-- The ways through `Dealwithsock` after the request line. -/
inductive Route
  | rejected
  | tooLong
  | missing
  | servedTooLong
  | cgi (st : FileNode)
  | static (st : FileNode)

def route (r : Request) : Route :=
  if r.accepted = false then .rejected
  else if pathSize ≤ (allPath r).length then .tooLong
  else
    match fs (allPath r) with
    | none => .missing
    | some st =>
      if pathSize ≤ (servedPath st (allPath r)).length then .servedTooLong
      else if r.cgi || st.executable then .cgi st
      else .static st

def clearAction (s : List Byte) : Action := .headers false (s.length - (clearHeader s).length)

/-- `Dealwithsock` after the request line, with the rest of the connection. -/
def serveRequest (r : Request) (s : List Byte) : List Action :=
  match route fs r with
  | .rejected => echoError fs res 400 ++ [.closed .conn, .exit 3]
  | .tooLong => [.overflow]
  | .missing => [.stat (allPath r), clearAction s] ++ echoError fs res 404 ++ [.exit 4]
  | .servedTooLong => [.stat (allPath r), .overflow]
  | .cgi st => .stat (allPath r) :: echoCgi fs res r.method (servedPath st (allPath r)) r.query s
  | .static st =>
    [.stat (allPath r), clearAction s] ++
      echoWww fs res (servedPath st (allPath r)) (toInt32 st.size) ++
      if (wwwBranch fs res (servedPath st (allPath r))).ret < 0 then [.exit 5] else [.closed .conn]

def dealwithsock (m : Locals) (stream : List Byte) : List Action :=
  serveRequest fs res (readRequest m (getLine bufSize stream).1) (getLine bufSize stream).2

def threadMechine (m : Locals) (stream : List Byte) : List Action :=
  if res.detach = 0 then dealwithsock fs res m stream else [.closed .conn]

/-- One turn of `main`'s loop: the test on `pthread_create` is for a negative
result, so a positive one leaves the connection without a thread. -/
def acceptConnection (m : Locals) (stream : List Byte) : List Action :=
  .opened .conn ::
    if res.create < 0 then [.closed .conn]
    else if res.create = 0 then threadMechine fs res m stream
    else []

/-- A child that is forked for the request executes its program. -/
def RequestExecutes (r : Request) (s : List Byte) : Prop :=
  ∀ st, route fs r = .cgi st → cgiBranch res r.method (cgiHeaders r.method s).1 = .forked →
    Executes res (cgiEnv r.method (cgiHeaders r.method s).1 r.query)

theorem cgiOutput_leaving {env : CgiEnv} (h : Executes res env) (l o path body : List Byte) :
    cgiOutput (res.leaving l o) path env body = cgiOutput res path env body := by
  obtain ⟨hfits, hexec⟩ := h
  by_cases hpipe : res.cgiHead = .sigpipe ∨ res.cgiBlank = .sigpipe
  · simp [cgiOutput, SysResults.leaving, hfits, hpipe]
  · obtain ⟨hhead, hblank⟩ := not_or.mp hpipe
    simp [cgiOutput, SysResults.leaving, hfits, hhead, hblank, hexec hhead hblank]

theorem runCgi_leaving {method : List Byte} {query : Option (List Byte)} {len : Int}
    (h : cgiBranch res method len = .forked → Executes res (cgiEnv method len query))
    (l o path rest : List Byte) :
    runCgi fs (res.leaving l o) method path query len rest =
      runCgi fs res method path query len rest := by
  have hbranch : cgiBranch (res.leaving l o) method len = cgiBranch res method len := rfl
  rw [runCgi, runCgi, hbranch]
  cases hb : cgiBranch res method len with
  | forked =>
    simp only [cgiOutput_leaving res (h hb)]
    rfl
  | _ => rfl

/-- Where the child executes its program, nothing that was left behind comes out. -/
theorem serveRequest_leaving {r : Request} {s : List Byte} (h : RequestExecutes fs res r s)
    (l o : List Byte) :
    serveRequest fs (res.leaving l o) r s = serveRequest fs res r s := by
  rw [serveRequest, serveRequest]
  cases hr : route fs r with
  | cgi st =>
    simp only [echoCgi, runCgi_leaving fs res (h st hr)]
  | _ => rfl

theorem cgiParent_flatMap {α : Type*} {f : Action → List α} (hclosed : ∀ d, f (.closed d) = [])
    (hwrite : ∀ b h, f (.write b h) = []) (hrelay : ∀ b r, f (.relay b r) = [])
    (hwait : f .waitpid = []) (body output : List Byte) :
    (cgiParent res body output).flatMap f = [] := by
  rw [List.flatMap_eq_nil_iff]
  intro a ha
  simp only [cgiParent, List.mem_append, List.mem_mapIdx, List.mem_cons, List.not_mem_nil,
    or_false] at ha
  rcases ha with (((rfl | rfl) | ⟨k, hk, rfl⟩) | ⟨k, hk, rfl⟩) | rfl | rfl | rfl | rfl
  all_goals first
    | exact hclosed _
    | exact hwrite _ _
    | exact hrelay _ _
    | exact hwait

/-- The file that a request asks for is there, and its name fits `All_path`. -/
structure Found (r : Request) (st : FileNode) : Prop where
  accepted : r.accepted = true
  room : (allPath r).length < pathSize
  file : fs (allPath r) = some st
  servedRoom : (servedPath st (allPath r)).length < pathSize

variable {fs}

theorem Found.route {r : Request} {st : FileNode} (h : Found fs r st) :
    route fs r = if r.cgi || st.executable then .cgi st else .static st := by
  rw [LinuxStudy.route, h.accepted, if_neg Bool.noConfusion, if_neg (Nat.not_le_of_lt h.room),
    h.file]
  exact if_neg (Nat.not_le_of_lt h.servedRoom)

theorem found_of_route {r : Request} {st : FileNode}
    (h : LinuxStudy.route fs r = .cgi st ∨ LinuxStudy.route fs r = .static st) : Found fs r st := by
  rw [LinuxStudy.route] at h
  split at h
  · simp at h
  · rename_i hacc
    split at h
    · simp at h
    · rename_i hroom
      cases hfile : fs (allPath r) with
      | none => simp [hfile] at h
      | some st' =>
        simp only [hfile] at h
        split at h
        · simp at h
        · rename_i hserved
          obtain rfl : st' = st := by
            split at h
            · simpa using h
            · simpa using h
          exact ⟨by simpa using hacc, Nat.lt_of_not_le hroom, hfile, Nat.lt_of_not_le hserved⟩

end Handling

def SysResults.succeeding (n : Nat) : SysResults where
  create := 0
  detach := 0
  errHead := .accepted n
  pageOpen := true
  pageSend := .accepted n
  fileOpen := true
  wwwHead := .accepted n
  fileSend := .accepted n
  pipeIn := true
  pipeOut := true
  fork := true
  cgiHead := .accepted n
  cgiBlank := .accepted n
  execl := true
  bodyReader := fun _ => true
  relay := fun _ => .accepted 1
  program := fun _ _ _ => []
  stdout := []
  overrun := []

def oneFile (mode : Nat) : FileSystem := fun _ => some ⟨mode, 1, [120]⟩

end LinuxStudy

import LinuxStudy.TinyFile
import LinuxStudy.TinyRequest

/-! What one connection makes the tiny server do: `accept_request` and the
functions below it, as the system calls issued in order. The results of the
calls that are tested are given; no result of `send`, `recv` or `write` is. A
call that does not return (`fclose` of a null pointer, a `write` without a
reader, a `read` from a program that never ends) ends the run there, whatever the
list has behind it. A SIGPIPE from the client's end is left out. -/

namespace LinuxStudy

/-- The arrays and the variable that are read before they are written, or
written past what is stored in them. -/
structure TinyLocals extends Locals where
  cgiBuf : Memory
  c : Byte
  badBuf : Memory
  catBuf : List Byte

structure TinyResults where
  create : Bool
  fopen : Bool
  pipeOut : Bool
  pipeIn : Bool
  fork : Bool
  execl : Bool
  /-- Does the `k`-th write to `cgi_input[1]` find a reader? -/
  bodyReader : Nat → Bool
  /-- What a CGI program writes until it ends, from its path, its environment and
  its input, which stays open behind the body; nothing if it and the server come
  to wait for each other. -/
  program : List Byte → TinyEnv → List Byte → Option (List Byte)
  /-- What the buffer of `stdout` holds at the `fork`. -/
  stdout : List Byte
  /-- What comes out of a child that has written past its arrays. -/
  overrun : List Byte

inductive TinyAct
  | opened (d : Descr)
  | closed (d : Descr)
  | received (n : Nat)
  | stat (path : List Byte)
  | openFile (path : List Byte) (ok : Bool)
  | send (text : List Byte)
  | copy (text : List Byte)
  | fork (path : List Byte) (env : TinyEnv) (ran : Bool)
  | write (b : Byte) (hasReader : Bool)
  | hang
  | waitpid
  | crash
  deriving DecidableEq

def serverString : List Byte := bytes "Server: jdbhttpd/0.1.0\r\n"

def htmlType : List Byte := bytes "Content-Type: text/html\r\n"

def unimplemented : List (List Byte) :=
  [bytes "HTTP/1.0 501 Method Not Implemented\r\n", serverString, htmlType, crlf,
    bytes "<HTML><HEAD><TITLE>Method Not Implemented\r\n", bytes "</TITLE></HEAD>\r\n",
    bytes "<BODY><P>HTTP request method not supported.\r\n", bytes "</BODY></HTML>\r\n"]

def notFound : List (List Byte) :=
  [bytes "HTTP/1.0 404 NOT FOUND\r\n", serverString, htmlType, crlf,
    bytes "<HTML><TITLE>Not Found</TITLE>\r\n", bytes "<BODY><P>The server could not fulfill\r\n",
    bytes "your request because the resource specified\r\n",
    bytes "is unavailable or nonexistent.\r\n", bytes "</BODY></HTML>\r\n"]

def cannotExecute : List (List Byte) :=
  [bytes "HTTP/1.0 500 Internal Server Error\r\n", bytes "Content-type: text/html\r\n", crlf,
    bytes "<P>Error prohibited CGI execution.\r\n"]

def tinyHeaders : List (List Byte) := [okLine, serverString, htmlType, crlf]

def badRequestTexts : List (List Byte) :=
  [bytes "HTTP/1.0 400 BAD REQUEST\r\n", bytes "Content-type: text/html\r\n", crlf,
    bytes "<P>Your browser sent a bad request, ",
    bytes "such as a POST without a Content-Length.\r\n"]

/-- `bad_request` sends `sizeof(buf)` bytes each time, whatever stands behind
the text. -/
def wholeArrays : Memory → List (List Byte) → List (List Byte)
  | _, [] => []
  | buf, t :: ts => (List.range 1024).map (store buf t) :: wholeArrays (store buf t) ts

def badRequest (buf : Memory) : List (List Byte) := wholeArrays buf badRequestTexts

def contentLength : List Byte := bytes "Content-Length:"

/-- The POST loop of `execute_cgi` on its array: the final `content_length` and
what is left unread. -/
def tinyLength (buf : Memory) (len : Int) (s : List Byte) : Int × List Byte :=
  if 0 < (getLine 1024 s).1.length ∧ clearTest (getLine 1024 s).1 = true then
    let buf := Function.update (store buf (getLine 1024 s).1) 15 0
    let len := if strcasecmpEq (stringAt buf 1024 0) contentLength then
        atoi (stringAt buf 1008 16) else len
    tinyLength buf len (getLine 1024 s).2
  else (len, (getLine 1024 s).2)
termination_by s.length
decreasing_by exact getLine_rest_lt (by omega)

inductive TinyCgi
  | noLength | noPipeOut | noPipeIn | noFork | forked
  deriving DecidableEq

inductive TinyRoute
  | rejected
  | missing
  | cgi (st : FileNode)
  | static (st : FileNode)

section Handling

variable (fs : FileSystem) (res : TinyResults) (m : TinyLocals)

def tinyCgi (method : List Byte) (len : Int) : TinyCgi :=
  if methodIs "GET" method = false ∧ len = -1 then .noLength
  else if res.pipeOut = false then .noPipeOut
  else if res.pipeIn = false then .noPipeIn
  else if res.fork = false then .noFork
  else .forked

def programRan (env : TinyEnv) : Bool := decide env.Fits && res.execl

/-- The body that the parent writes, one byte for each that was announced. -/
def tinyBody (method : List Byte) (len : Int) (rest : List Byte) : List Byte :=
  bodyBytes (feedCount method len) m.c rest

/-- What the parent reads from the pipe until its end, if that comes. -/
def tinyOutput (path : List Byte) (env : TinyEnv) (body : List Byte) : Option (List Byte) :=
  if ¬ env.Fits then some res.overrun
  else if res.execl then res.program path env body
  else some res.stdout

def tinyRelay : Option (List Byte) → List TinyAct
  | none => [.hang]
  | some output => output.map fun b => .copy [b]

/-- The input of the program is closed only when its output has ended. -/
def tinyParent (body : List Byte) (output : Option (List Byte)) : List TinyAct :=
  [.closed .out1, .closed .in0] ++ body.mapIdx (fun k b => .write b (res.bodyReader k)) ++
    tinyRelay output ++ [.closed .out0, .closed .in1, .waitpid]

def openedOut : List TinyAct := [.opened .out0, .opened .out1]

def openedIn : List TinyAct := [.opened .in0, .opened .in1]

def runTinyCgi (path method : List Byte) (query : Option (List Byte)) (len : Int)
    (rest : List Byte) : List TinyAct :=
  let env := tinyEnv method query len
  let body := tinyBody m method len rest
  match tinyCgi res method len with
  | .noLength => (badRequest m.badBuf).map .send
  | .noPipeOut => .send okLine :: cannotExecute.map .send
  | .noPipeIn => .send okLine :: (openedOut ++ cannotExecute.map .send)
  | .noFork => .send okLine :: (openedOut ++ openedIn ++ cannotExecute.map .send)
  | .forked =>
    .send okLine :: (openedOut ++ openedIn ++ .fork path env (programRan res env) ::
      tinyParent res body (tinyOutput res path env body))

def readHeaders (method s : List Byte) : Int × List Byte :=
  if methodIs "GET" method then (-1, clearHeader s) else tinyLength m.cgiBuf (-1) s

def executeCgi (path method : List Byte) (query : Option (List Byte)) (s : List Byte) :
    List TinyAct :=
  .received (s.length - (readHeaders m method s).2.length) ::
    runTinyCgi res m path method query (readHeaders m method s).1 (readHeaders m method s).2

def openedText (path : List Byte) : Option (List Byte) :=
  if res.fopen then (fs path).map FileNode.contents else none

/-- `serve_file` closes a null pointer when it could not open the file. -/
def serveFile (path s : List Byte) : List TinyAct :=
  .received (s.length - (clearHeader s).length) ::
    match openedText fs res path with
    | none => .openFile path false :: (notFound.map .send ++ [.crash])
    | some text =>
      .openFile path true :: (tinyHeaders.map .send ++ (cat m.catBuf text).map .copy ++
        [.closed .file])

def tinyRoute (r : TinyRequest) : TinyRoute :=
  if r.accepted = false then .rejected
  else
    match fs r.path with
    | none => .missing
    | some st => if r.cgi || st.executable then .cgi st else .static st

def discardAfter (line s : List Byte) : List Byte :=
  if 0 < line.length ∧ clearTest line = true then clearHeader s else s

def tinyServe (r : TinyRequest) (line s : List Byte) : List TinyAct :=
  match tinyRoute fs r with
  | .rejected => unimplemented.map .send
  | .missing =>
    [.stat r.path, .received (s.length - (discardAfter line s).length)] ++ notFound.map .send ++
      [.closed .conn]
  | .cgi st =>
    .stat r.path :: executeCgi res m (tinyPath st r.path) r.method r.query s ++ [.closed .conn]
  | .static st =>
    .stat r.path :: serveFile fs res m (tinyPath st r.path) s ++
      if (openedText fs res (tinyPath st r.path)).isSome then [.closed .conn] else []

def acceptRequest (stream : List Byte) : List TinyAct :=
  tinyServe fs res m (.read m.toLocals (getLine 1024 stream).1) (getLine 1024 stream).1
    (getLine 1024 stream).2

def tinyTurn (stream : List Byte) : List TinyAct :=
  .opened .conn :: if res.create then acceptRequest fs res m stream else []

end Handling

end LinuxStudy

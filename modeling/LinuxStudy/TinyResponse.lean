import LinuxStudy.TinyServer
import LinuxStudy.TruthfulResponse

/-! What one connection of the tiny server leaves behind: the descriptors that
are still open, and the status lines that the client was sent. -/

namespace LinuxStudy

/-- The descriptors that are open after a call; there is no result when an open
one is opened again or one that is not open is closed. -/
def TinyAct.holds (held : List Descr) : TinyAct → Option (List Descr)
  | .opened d => if d ∈ held then none else some (d :: held)
  | .openFile _ ok => if ok = true then if .file ∈ held then none else some (.file :: held)
    else some held
  | .closed d => if d ∈ held then some (held.erase d) else none
  | .received _ => some held
  | .stat _ => some held
  | .send _ => some held
  | .copy _ => some held
  | .fork _ _ _ => some held
  | .write _ _ => some held
  | .hang => some held
  | .waitpid => some held
  | .crash => some held

def tinyHeld (held : List Descr) (as : List TinyAct) : Option (List Descr) :=
  as.foldlM TinyAct.holds held

def TinyAct.statuses : TinyAct → List (List Byte)
  | .send text => if isStatus text then [firstLine text] else []
  | _ => []

def tinyStatuses (as : List TinyAct) : List (List Byte) := as.flatMap TinyAct.statuses

/-- A file was opened to be sent, or a program started. -/
def TinyAct.serves : TinyAct → Bool
  | .openFile _ ok => ok
  | .fork _ _ ran => ran
  | _ => false

/-- There is one status line, and it is 200 only if something was served. -/
def TinyTruthful (as : List TinyAct) : Prop :=
  ∃ line, tinyStatuses as = [line] ∧ (line = okLine → as.any TinyAct.serves = true)

section Held

variable (fs : FileSystem) (res : TinyResults) (m : TinyLocals)

theorem tinyHeld_append (held : List Descr) (as bs : List TinyAct) :
    tinyHeld held (as ++ bs) = (tinyHeld held as).bind fun held => tinyHeld held bs :=
  List.foldlM_append

theorem tinyHeld_quiet {held : List Descr} {as : List TinyAct}
    (h : ∀ a ∈ as, a.holds held = some held) : tinyHeld held as = some held := by
  induction as with
  | nil => rfl
  | cons a as ih =>
    rw [tinyHeld, List.foldlM_cons, h a List.mem_cons_self]
    exact ih fun b hb => h b (List.mem_cons_of_mem a hb)

theorem tinyHeld_map {α : Type*} (held : List Descr) {f : α → TinyAct}
    (h : ∀ x, (f x).holds held = some held) (xs : List α) : tinyHeld held (xs.map f) = some held := by
  refine tinyHeld_quiet fun a ha => ?_
  obtain ⟨x, -, rfl⟩ := List.mem_map.mp ha
  exact h x

theorem tinyHeld_send (held : List Descr) (ts : List (List Byte)) :
    tinyHeld held (ts.map .send) = some held := tinyHeld_map held (fun _ => rfl) ts

theorem tinyHeld_relay (held : List Descr) (output : Option (List Byte)) :
    tinyHeld held (tinyRelay output) = some held := by
  cases output with
  | none => rfl
  | some output => exact tinyHeld_map held (fun _ => rfl) output

theorem tinyHeld_parent (body : List Byte) (output : Option (List Byte)) :
    tinyHeld [.in1, .in0, .out1, .out0, .conn] (tinyParent res body output) = some [.conn] := by
  have hwrite : tinyHeld [.in1, .out0, .conn]
      (body.mapIdx fun k b => .write b (res.bodyReader k)) = some [.in1, .out0, .conn] := by
    refine tinyHeld_quiet fun a ha => ?_
    obtain ⟨k, hk, rfl⟩ := List.mem_mapIdx.mp ha
    rfl
  have hcopy := tinyHeld_relay [.in1, .out0, .conn] output
  have hclose : tinyHeld [.in1, .in0, .out1, .out0, .conn] [.closed .out1, .closed .in0] =
      some [.in1, .out0, .conn] := rfl
  rw [tinyParent, tinyHeld_append, tinyHeld_append, tinyHeld_append, hclose, Option.bind_some,
    hwrite, Option.bind_some, hcopy]
  rfl

/-- What stays open behind `execute_cgi`, besides the connection. -/
def TinyCgi.left : TinyCgi → List Descr
  | .noPipeIn => [.out1, .out0]
  | .noFork => [.in1, .in0, .out1, .out0]
  | _ => []

theorem tinyHeld_cgi (path method : List Byte) (query : Option (List Byte)) (len : Int)
    (rest : List Byte) : tinyHeld [.conn] (runTinyCgi res m path method query len rest) =
      some ((tinyCgi res method len).left ++ [.conn]) := by
  have hout : tinyHeld [.conn] (.send okLine :: openedOut) = some [.out1, .out0, .conn] := rfl
  have hboth : tinyHeld [.conn] (.send okLine :: (openedOut ++ openedIn)) =
      some [.in1, .in0, .out1, .out0, .conn] := rfl
  rw [runTinyCgi]
  cases tinyCgi res method len with
  | noLength => exact tinyHeld_send [.conn] (badRequest m.badBuf)
  | noPipeOut =>
    simp only
    rw [← List.map_cons]
    exact tinyHeld_send [.conn] _
  | noPipeIn =>
    simp only
    rw [← List.cons_append, tinyHeld_append, hout]
    exact tinyHeld_send [.out1, .out0, .conn] cannotExecute
  | noFork =>
    simp only
    rw [← List.cons_append, tinyHeld_append, hboth]
    exact tinyHeld_send [.in1, .in0, .out1, .out0, .conn] cannotExecute
  | forked =>
    simp only
    rw [← List.cons_append, tinyHeld_append, hboth]
    exact tinyHeld_parent res _ _

/-- What stays open when a request has been answered. -/
def leftOpen (r : TinyRequest) (s : List Byte) : List Descr :=
  match tinyRoute fs r with
  | .rejected => [.conn]
  | .missing => []
  | .cgi _ => (tinyCgi res r.method (readHeaders m r.method s).1).left
  | .static st => if (openedText fs res (tinyPath st r.path)).isSome then [] else [.conn]

theorem tinyHeld_serve (r : TinyRequest) (line s : List Byte) :
    tinyHeld [.conn] (tinyServe fs res m r line s) = some (leftOpen fs res m r s) := by
  rw [tinyServe, leftOpen]
  cases tinyRoute fs r with
  | rejected => exact tinyHeld_send _ _
  | missing => rfl
  | cgi st =>
    have hcgi := tinyHeld_cgi res m (tinyPath st r.path) r.method r.query
      (readHeaders m r.method s).1 (readHeaders m r.method s).2
    change tinyHeld [.conn] (runTinyCgi .. ++ [.closed .conn]) = _
    rw [tinyHeld_append, hcgi]
    cases tinyCgi res r.method (readHeaders m r.method s).1 with
    | _ => rfl
  | static st =>
    simp only [serveFile]
    cases openedText fs res (tinyPath st r.path) with
    | none => rfl
    | some text =>
      have hcopy := tinyHeld_map [.file, .conn] (f := .copy) (fun _ => rfl)
        (cat m.catBuf text)
      change tinyHeld [.file, .conn] (tinyHeaders.map .send ++ (cat m.catBuf text).map .copy ++
        [.closed .file] ++ [.closed .conn]) = _
      rw [tinyHeld_append, tinyHeld_append, tinyHeld_append, tinyHeld_send, Option.bind_some, hcopy]
      rfl

/-- Nothing is closed twice, and what stays open is: a connection without a
thread, a connection whose method is not known, the pipes that were made before
a call failed, and the connection when `serve_file` has crashed. -/
theorem tiny_descriptors (stream : List Byte) :
    tinyHeld [] (tinyTurn fs res m stream) = some (if res.create = true then
      leftOpen fs res m (.read m.toLocals (getLine 1024 stream).1) (getLine 1024 stream).2
      else [.conn]) := by
  have hopen : ∀ as, tinyHeld [] (.opened .conn :: as) = tinyHeld [.conn] as := fun as => rfl
  rw [tinyTurn, hopen]
  cases res.create with
  | false => rfl
  | true =>
    rw [if_pos rfl, if_pos rfl, acceptRequest]
    exact tinyHeld_serve fs res m _ _ _

end Held

section Statuses

variable (fs : FileSystem) (res : TinyResults) (m : TinyLocals)

theorem array_eq (buf : Memory) {t : List Byte} (h : t.length < 1024) :
    ∃ u, (List.range 1024).map (store buf t) = t ++ 0 :: u := by
  refine ⟨(List.range (1023 - t.length)).map fun i => store buf t (t.length + 1 + i), ?_⟩
  have hall : 1024 = t.length + (1 + (1023 - t.length)) := by omega
  have htext : (List.range t.length).map (store buf t) = t :=
    List.ext_getElem (by simp) fun i hi hi' => by simpa using store_lt hi'
  have hnul : store buf t t.length = 0 := store_length buf t
  rw [hall, List.range_add, List.map_append, htext, List.range_add]
  simp [hnul, Nat.add_assoc]

theorem tinyStatuses_append (as bs : List TinyAct) :
    tinyStatuses (as ++ bs) = tinyStatuses as ++ tinyStatuses bs := List.flatMap_append

theorem tinyStatuses_cons (a : TinyAct) (as : List TinyAct) :
    tinyStatuses (a :: as) = a.statuses ++ tinyStatuses as := rfl

theorem tinyStatuses_map {α : Type*} {f : α → TinyAct} (h : ∀ x, (f x).statuses = [])
    (xs : List α) : tinyStatuses (xs.map f) = [] := by
  rw [tinyStatuses, List.flatMap_eq_nil_iff]
  intro a ha
  obtain ⟨x, -, rfl⟩ := List.mem_map.mp ha
  exact h x

/-- What stands behind a text in its array does not make another status line. -/
theorem wholeArrays_statuses (buf : Memory) {ts : List (List Byte)}
    (h : ∀ t ∈ ts, t.length < 1024 ∧
      ∀ u, (TinyAct.send (t ++ 0 :: u)).statuses = (TinyAct.send t).statuses) :
    tinyStatuses ((wholeArrays buf ts).map .send) = tinyStatuses (ts.map .send) := by
  induction ts generalizing buf with
  | nil => rfl
  | cons t ts ih =>
    obtain ⟨hlen, hsame⟩ := h t List.mem_cons_self
    obtain ⟨u, hu⟩ := array_eq buf hlen
    rw [wholeArrays, List.map_cons, List.map_cons, tinyStatuses_cons, tinyStatuses_cons, hu, hsame,
      ih _ fun x hx => h x (List.mem_cons_of_mem t hx)]

theorem badRequest_statuses (buf : Memory) :
    tinyStatuses ((badRequest buf).map .send) = [bytes "HTTP/1.0 400 BAD REQUEST\r\n"] := by
  refine (wholeArrays_statuses buf fun t ht => ?_).trans (by decide)
  rw [badRequestTexts] at ht
  simp only [List.mem_cons, List.not_mem_nil, or_false] at ht
  rcases ht with rfl | rfl | rfl | rfl | rfl
  all_goals exact ⟨by decide, fun u => rfl⟩

theorem tinyParent_quiet {a : TinyAct} {body : List Byte} {output : Option (List Byte)}
    (h : a ∈ tinyParent res body output) : a.statuses = [] ∧ a.serves = false := by
  simp only [tinyParent, List.mem_append, List.mem_mapIdx, List.mem_cons, List.not_mem_nil,
    or_false] at h
  rcases h with (((rfl | rfl) | ⟨k, hk, rfl⟩) | hrelay) | rfl | rfl | rfl
  case inl.inr =>
    cases output with
    | none =>
      obtain rfl := List.mem_singleton.mp hrelay
      exact ⟨rfl, rfl⟩
    | some output =>
      obtain ⟨b, -, rfl⟩ := List.mem_map.mp hrelay
      exact ⟨rfl, rfl⟩
  all_goals exact ⟨rfl, rfl⟩

theorem tinyStatuses_parent (body : List Byte) (output : Option (List Byte)) :
    tinyStatuses (tinyParent res body output) = [] :=
  List.flatMap_eq_nil_iff.mpr fun _ ha => (tinyParent_quiet res ha).1

theorem serves_parent (body : List Byte) (output : Option (List Byte)) :
    (tinyParent res body output).any TinyAct.serves = false := by
  rw [List.any_eq_false]
  exact fun _ ha => by simp [(tinyParent_quiet res ha).2]

theorem not_tinyTruthful {as : List TinyAct} (h : (tinyStatuses as).length ≠ 1) :
    ¬ TinyTruthful as := by
  rintro ⟨line, hs, -⟩
  exact h (by rw [hs]; rfl)

/-- A request that goes to a program has it started, or is told the length is
missing. -/
def TinyAnswered (r : TinyRequest) (s : List Byte) : Prop :=
  ∀ st, tinyRoute fs r = .cgi st →
    tinyCgi res r.method (readHeaders m r.method s).1 = .noLength ∨
      tinyCgi res r.method (readHeaders m r.method s).1 = .forked ∧
        programRan res (tinyEnv r.method r.query (readHeaders m r.method s).1) = true

theorem serves_sends (ts : List (List Byte)) :
    (ts.map TinyAct.send).any TinyAct.serves = false := by
  simp [TinyAct.serves, Function.comp_def]

/-- The status lines that `execute_cgi` sends on each way through it. -/
def TinyCgi.lines : TinyCgi → List (List Byte)
  | .noLength => [bytes "HTTP/1.0 400 BAD REQUEST\r\n"]
  | .forked => [okLine]
  | _ => [okLine, bytes "HTTP/1.0 500 Internal Server Error\r\n"]

section Cgi

variable (path method : List Byte) (query : Option (List Byte)) (len : Int) (rest : List Byte)

theorem runTinyCgi_statuses :
    tinyStatuses (runTinyCgi res m path method query len rest) = (tinyCgi res method len).lines := by
  have hok : (TinyAct.send okLine).statuses = [okLine] := by decide
  have hfail : tinyStatuses (cannotExecute.map .send) =
      [bytes "HTTP/1.0 500 Internal Server Error\r\n"] := by decide
  have hout : tinyStatuses openedOut = [] := rfl
  have hin : tinyStatuses openedIn = [] := rfl
  have hfork : ∀ p env ran, (TinyAct.fork p env ran).statuses = [] := fun p env ran => rfl
  rw [runTinyCgi]
  cases tinyCgi res method len with
  | noLength => exact badRequest_statuses m.badBuf
  | noPipeOut => simp only [tinyStatuses_cons, hok, hfail, TinyCgi.lines, List.singleton_append]
  | noPipeIn =>
    simp only [tinyStatuses_cons, tinyStatuses_append, hok, hfail, hout, TinyCgi.lines,
      List.singleton_append, List.nil_append]
  | noFork =>
    simp only [tinyStatuses_cons, tinyStatuses_append, hok, hfail, hout, hin, TinyCgi.lines,
      List.singleton_append, List.nil_append]
  | forked =>
    simp only [tinyStatuses_cons, tinyStatuses_append, hok, hout, hin, hfork, tinyStatuses_parent,
      TinyCgi.lines, List.append_nil]

theorem runTinyCgi_serves :
    (runTinyCgi res m path method query len rest).any TinyAct.serves =
      (decide (tinyCgi res method len = .forked) &&
        programRan res (tinyEnv method query len)) := by
  have hsend : (TinyAct.send okLine).serves = false := rfl
  have hout : openedOut.any TinyAct.serves = false := rfl
  have hin : openedIn.any TinyAct.serves = false := rfl
  rw [runTinyCgi]
  cases tinyCgi res method len with
  | forked =>
    simp only [List.any_cons, List.any_append, hout, hin, serves_parent, TinyAct.serves,
      Bool.false_or, Bool.or_false, decide_true, Bool.true_and]
  | noLength => exact serves_sends _
  | _ =>
    simp only [List.any_cons, List.any_append, hsend, hout, hin, serves_sends, Bool.or_self,
      reduceCtorEq, decide_false, Bool.false_and]

end Cgi

theorem TinyCgi.truthful_iff (c : TinyCgi) (ran : Bool) :
    (∃ line, c.lines = [line] ∧ (line = okLine → (decide (c = .forked) && ran) = true)) ↔
      c = .noLength ∨ c = .forked ∧ ran = true := by
  cases c with
  | noLength =>
    exact iff_of_true ⟨_, rfl, fun h => absurd h (by decide)⟩ (.inl rfl)
  | forked =>
    simp [TinyCgi.lines]
  | _ => simp [TinyCgi.lines]

theorem tinyTruthful_cons {a : TinyAct} (hs : a.statuses = []) (hserves : a.serves = false)
    (as : List TinyAct) : TinyTruthful (a :: as) ↔ TinyTruthful as := by
  rw [TinyTruthful, TinyTruthful, tinyStatuses_cons, hs, List.nil_append, List.any_cons, hserves,
    Bool.false_or]

theorem tinyTruthful_concat {a : TinyAct} (hs : a.statuses = []) (hserves : a.serves = false)
    (as : List TinyAct) : TinyTruthful (as ++ [a]) ↔ TinyTruthful as := by
  have hone : tinyStatuses [a] = [] := by rw [tinyStatuses_cons, hs]; rfl
  have hany : [a].any TinyAct.serves = false := by rw [List.any_cons, hserves]; rfl
  rw [TinyTruthful, TinyTruthful, tinyStatuses_append, hone, List.append_nil, List.any_append, hany,
    Bool.or_false]

/-- A page whose first line is not 200 is a truthful answer. -/
theorem tinyTruthful_error {ts : List (List Byte)} (line : List Byte)
    (h : tinyStatuses (ts.map .send) = [line]) (hne : line ≠ okLine) :
    TinyTruthful (ts.map .send) := ⟨line, h, fun hok => absurd hok hne⟩

theorem notFound_truthful : TinyTruthful (notFound.map .send) :=
  tinyTruthful_error (bytes "HTTP/1.0 404 NOT FOUND\r\n") (by decide) (by decide)

theorem serveFile_truthful (path s : List Byte) : TinyTruthful (serveFile fs res m path s) := by
  rw [serveFile, tinyTruthful_cons rfl rfl]
  cases openedText fs res path with
  | none =>
    simp only
    rw [tinyTruthful_cons rfl rfl, tinyTruthful_concat rfl rfl]
    exact notFound_truthful
  | some text =>
    have hhead : tinyStatuses (tinyHeaders.map .send) = [okLine] := by decide
    have hcopy := tinyStatuses_map (f := .copy) (fun _ => rfl) (cat m.catBuf text)
    refine ⟨okLine, ?_, fun _ => rfl⟩
    simp only
    rw [tinyStatuses_cons, tinyStatuses_append, tinyStatuses_append, hhead, hcopy]
    rfl

theorem tinyServe_truthful (r : TinyRequest) (line s : List Byte) :
    TinyTruthful (tinyServe fs res m r line s) ↔ TinyAnswered fs res m r s := by
  rw [tinyServe, TinyAnswered]
  cases tinyRoute fs r with
  | rejected =>
    have hpage : TinyTruthful (unimplemented.map .send) :=
      tinyTruthful_error (bytes "HTTP/1.0 501 Method Not Implemented\r\n") (by decide)
        (by decide)
    exact iff_of_true hpage fun st h => by cases h
  | missing =>
    simp only
    rw [tinyTruthful_concat rfl rfl, List.cons_append, tinyTruthful_cons rfl rfl, List.cons_append,
      tinyTruthful_cons rfl rfl]
    exact iff_of_true notFound_truthful fun st h => by cases h
  | static st =>
    refine iff_of_true ?_ fun st h => by cases h
    have hfile := serveFile_truthful fs res m (tinyPath st r.path) s
    simp only
    rw [List.cons_append, tinyTruthful_cons rfl rfl]
    split
    · exact (tinyTruthful_concat rfl rfl _).mpr hfile
    · rwa [List.append_nil]
  | cgi st =>
    simp only [executeCgi]
    rw [tinyTruthful_concat rfl rfl, tinyTruthful_cons rfl rfl, tinyTruthful_cons rfl rfl,
      TinyTruthful, runTinyCgi_statuses, runTinyCgi_serves, TinyCgi.truthful_iff]
    exact ⟨fun h st' _ => h, fun h => h st rfl⟩

theorem tinyServe_statuses {r : TinyRequest} {st : FileNode} (hroute : tinyRoute fs r = .cgi st)
    (line s : List Byte) : tinyStatuses (tinyServe fs res m r line s) =
      (tinyCgi res r.method (readHeaders m r.method s).1).lines := by
  have hclose : tinyStatuses [.closed .conn] = [] := rfl
  have hquiet : ∀ p n as, tinyStatuses (.stat p :: .received n :: as) = tinyStatuses as :=
    fun _ _ _ => rfl
  simp only [tinyServe, hroute, executeCgi]
  rw [tinyStatuses_append, hclose, List.append_nil, hquiet, runTinyCgi_statuses]

theorem TinyCgi.lines_failed {method : List Byte} {len : Int}
    (hlen : tinyCgi res method len ≠ .noLength)
    (hfail : res.pipeOut = false ∨ res.pipeIn = false ∨ res.fork = false) :
    (tinyCgi res method len).lines = [okLine, bytes "HTTP/1.0 500 Internal Server Error\r\n"] := by
  cases h : tinyCgi res method len with
  | noLength => exact absurd h hlen
  | forked =>
    rw [tinyCgi] at h
    split_ifs at h with h1 h2 h3 h4
    rcases hfail with hfail | hfail | hfail
    · exact absurd hfail h2
    · exact absurd hfail h3
    · exact absurd hfail h4
  | _ => rfl

/-- One truthful status line is sent exactly when there is a thread for the
connection and a program that is to run is not held up: a failed `pipe` or
`fork` is told behind the 200, and a failed `execl` is not told at all. -/
theorem tiny_truthful_iff (stream : List Byte) :
    (TinyTruthful (tinyTurn fs res m stream) ↔ res.create = true ∧
      TinyAnswered fs res m (.read m.toLocals (getLine 1024 stream).1) (getLine 1024 stream).2) ∧
    ∀ r st, r = TinyRequest.read m.toLocals (getLine 1024 stream).1 → res.create = true →
      tinyRoute fs r = .cgi st →
      tinyCgi res r.method (readHeaders m r.method (getLine 1024 stream).2).1 ≠ .noLength →
      res.pipeOut = false ∨ res.pipeIn = false ∨ res.fork = false →
      tinyStatuses (tinyTurn fs res m stream) =
        [okLine, bytes "HTTP/1.0 500 Internal Server Error\r\n"] := by
  constructor
  · rw [tinyTurn, tinyTruthful_cons rfl rfl]
    cases res.create with
    | false => exact iff_of_false (not_tinyTruthful Nat.zero_ne_one) fun h => Bool.false_ne_true h.1
    | true =>
      rw [and_iff_right rfl, if_pos rfl, acceptRequest]
      exact tinyServe_truthful fs res m _ _ _
  · intro r st hr hcreate hroute hlen hfail
    have hopen : (TinyAct.opened .conn).statuses = [] := rfl
    rw [tinyTurn, if_pos hcreate, acceptRequest, ← hr, tinyStatuses_cons, hopen, List.nil_append,
      tinyServe_statuses fs res m hroute, TinyCgi.lines_failed res hlen hfail]

end Statuses

end LinuxStudy

import LinuxStudy.RequestHandling

/-! The status lines sent for one request, by the thread and by the child it
forks, and when there is exactly one and it tells the truth. -/

namespace LinuxStudy

/-- The first line of a text that is sent, with its line feed. -/
def firstLine (text : List Byte) : List Byte := text.takeWhile (· ≠ lf) ++ [lf]

def isStatus (text : List Byte) : Bool := (bytes "HTTP/").isPrefixOf text

/-- The `send` that offers the line takes all of it; one that the next text would
complete counts as missing. -/
def LineSent (text : List Byte) (r : SendResult) : Prop := (firstLine text).length ≤ r.taken

instance (text : List Byte) (r : SendResult) : Decidable (LineSent text r) := by
  unfold LineSent
  infer_instance

def ChildAct.statuses : ChildAct → List (List Byte × SendResult)
  | .send text r => if isStatus text then [(text, r)] else []
  | _ => []

def Action.statuses : Action → List (List Byte × SendResult)
  | .send text r => if isStatus text then [(text, r)] else []
  | .fork child => child.flatMap ChildAct.statuses
  | _ => []

def statusSends (as : List Action) : List (List Byte × SendResult) := as.flatMap Action.statuses

def ChildAct.starts : ChildAct → Bool
  | .execl _ _ ok => ok
  | _ => false

def Action.serves : Action → Bool
  | .sendfile .file _ _ (.accepted _) => true
  | .fork child => child.any ChildAct.starts
  | _ => false

def served (as : List Action) : Bool := as.any Action.serves

/-- One status line is sent, whole and by one `send`, and it is 200 only if
something was served. -/
def Truthful (as : List Action) : Prop :=
  ∃ text r, statusSends as = [(text, r)] ∧ LineSent text r ∧ (firstLine text = okLine → served as)

/-- No `send` fails, though it may take less than it is given, and no call meets
a connection closed by the client. -/
structure SendsSucceed (res : SysResults) : Prop where
  errHead : 0 < res.errHead.taken
  wwwHead : 0 < res.wwwHead.taken
  cgiHead : 0 < res.cgiHead.taken
  cgiBlank : 0 < res.cgiBlank.taken
  pageSend : res.pageSend ≠ .sigpipe
  fileSend : res.fileSend ≠ .sigpipe
  relay : ∀ k, 0 < (res.relay k).taken

@[simp] theorem statusSends_nil : statusSends [] = [] := rfl

@[simp] theorem statusSends_cons (a : Action) (as : List Action) :
    statusSends (a :: as) = a.statuses ++ statusSends as := rfl

@[simp] theorem statusSends_append (as bs : List Action) :
    statusSends (as ++ bs) = statusSends as ++ statusSends bs := List.flatMap_append

@[simp] theorem served_nil : served [] = false := rfl

@[simp] theorem served_cons (a : Action) (as : List Action) :
    served (a :: as) = (a.serves || served as) := rfl

@[simp] theorem served_append (as bs : List Action) :
    served (as ++ bs) = (served as || served bs) := List.any_append

theorem truthful_of_statusSends {as : List Action} {text : List Byte} {r : SendResult}
    (h : statusSends as = [(text, r)]) :
    Truthful as ↔ LineSent text r ∧ (firstLine text = okLine → served as) := by
  constructor
  · rintro ⟨text', r', h', hsent, hok⟩
    obtain ⟨rfl, rfl⟩ : text = text' ∧ r = r' := by simpa [h] using h'
    exact ⟨hsent, hok⟩
  · rintro ⟨hsent, hok⟩
    exact ⟨text, r, h, hsent, hok⟩

theorem not_truthful {as : List Action} (h : (statusSends as).length ≠ 1) : ¬ Truthful as := by
  rintro ⟨text, r, hs, -⟩
  exact h (by rw [hs]; rfl)

theorem errorPage_status {code : Nat} {text path : List Byte}
    (h : errorPage code = some (text, path)) : isStatus text = true ∧ firstLine text ≠ okLine := by
  rw [errorPage.eq_def] at h
  split at h
  all_goals first
    | (cases h; decide)
    | cases h

section Responses

variable (fs : FileSystem) (res : SysResults)

def ErrorLineSent (code : Nat) : Prop := ∃ page ∈ errorPage code, LineSent page.1 res.errHead

instance (code : Nat) : Decidable (ErrorLineSent res code) := by
  unfold ErrorLineSent
  infer_instance

def Answered (r : Request) (s : List Byte) : Prop :=
  match route fs r with
  | .rejected => ErrorLineSent res 400
  | .missing => ErrorLineSent res 404
  | .tooLong => False
  | .servedTooLong => False
  | .static st =>
    (fs (servedPath st (allPath r))).isSome ∧ res.fileOpen = true ∧ LineSent okHead res.wwwHead ∧
      res.fileSend ≠ .failed
  | .cgi _ =>
    let len := (cgiHeaders r.method s).1
    if cgiBranch res r.method len = .forked then
      (cgiEnv r.method len r.query).Fits ∧ LineSent okLine res.cgiHead ∧ res.execl = true
    else ErrorLineSent res 500

theorem sendError_statuses (path : List Byte) : statusSends (sendError fs res path) = [] := by
  rw [sendError]
  cases fs path with
  | none => rfl
  | some st => cases res.pageOpen <;> rfl

theorem echoError_statuses (code : Nat) {text path : List Byte}
    (h : errorPage code = some (text, path)) :
    statusSends (echoError fs res code) = [(text, res.errHead)] := by
  simp [echoError, h, sendError_statuses, Action.statuses, (errorPage_status h).1]

theorem truthful_error {as : List Action} (code : Nat) {page : List Byte × List Byte}
    (h : errorPage code = some page)
    (hs : statusSends as = statusSends (echoError fs res code)) :
    Truthful as ↔ ErrorLineSent res code := by
  obtain ⟨text, path⟩ := page
  rw [echoError_statuses fs res code h] at hs
  have hne := (errorPage_status h).2
  simp [truthful_of_statusSends hs, hne, ErrorLineSent, h]

theorem cgiParent_statuses (body output : List Byte) :
    statusSends (cgiParent res body output) = [] :=
  cgiParent_flatMap res (fun _ => rfl) (fun _ _ => rfl) (fun _ _ => rfl) rfl body output

theorem served_cgiParent (body output : List Byte) :
    served (cgiParent res body output) = false := by
  have h := cgiParent_flatMap res (f := fun a => if a.serves then [()] else []) (fun _ => rfl)
    (fun _ _ => rfl) (fun _ _ => rfl) rfl body output
  rw [List.flatMap_eq_nil_iff] at h
  rw [served, List.any_eq_false]
  intro a ha hserves
  simpa [hserves] using h a ha

theorem cgiChild_statuses (path : List Byte) (env : CgiEnv) :
    (cgiChild res path env).flatMap ChildAct.statuses =
      if env.Fits then [(okLine, res.cgiHead)] else [] := by
  have hok : isStatus okLine = true := by decide
  have hblank : isStatus crlf = false := by decide
  rw [cgiChild]
  by_cases hf : env.Fits
  · cases he : res.execl <;> simp [hf, ChildAct.statuses, hok, hblank]
  · simp [hf, ChildAct.statuses]

theorem cgiChild_starts (path : List Byte) (env : CgiEnv) :
    (cgiChild res path env).any ChildAct.starts = decide (env.Fits ∧ res.execl = true) := by
  rw [cgiChild]
  by_cases hf : env.Fits
  · cases he : res.execl <;> simp [hf, ChildAct.starts]
  · simp [hf, ChildAct.starts]

theorem runCgi_truthful (pre : List Action) (hpre : statusSends pre = [])
    (hserves : served pre = false)
    (method path : List Byte) (query : Option (List Byte)) (len : Int) (rest : List Byte) :
    Truthful (pre ++ runCgi fs res method path query len rest) ↔
      if cgiBranch res method len = .forked then
        (cgiEnv method len query).Fits ∧ LineSent okLine res.cgiHead ∧ res.execl = true
      else ErrorLineSent res 500 := by
  rw [runCgi]
  cases hb : cgiBranch res method len with
  | forked =>
    rw [if_pos rfl]
    by_cases hf : (cgiEnv method len query).Fits
    · have hs : statusSends (pre ++ (openedPipes ++
          .fork (cgiChild res path (cgiEnv method len query)) ::
          cgiParent res (cgiBody method len rest)
            (cgiOutput res path (cgiEnv method len query) (cgiBody method len rest)))) =
          [(okLine, res.cgiHead)] := by
        simp [openedPipes, hpre, Action.statuses, cgiChild_statuses, cgiParent_statuses, hf]
      have hok : firstLine okLine = okLine := by decide
      rw [truthful_of_statusSends hs, and_iff_right hf]
      simp [openedPipes, hserves, Action.serves, cgiChild_starts, served_cgiParent, hf, hok]
    · refine iff_of_false (not_truthful ?_) fun h => hf h.1
      simp [openedPipes, hpre, Action.statuses, cgiChild_statuses, cgiParent_statuses, hf]
  | _ =>
    rw [if_neg CgiBranch.noConfusion]
    refine truthful_error fs res 500 rfl ?_
    simp [openedPipes, hpre, Action.statuses]

theorem okHead_status : isStatus okHead = true ∧ firstLine okHead = okLine := by decide

theorem wwwBranch_cases (hsend : SendsSucceed res) (path : List Byte) :
    (wwwBranch fs res path = .notOpened ∧ ¬ ((fs path).isSome ∧ res.fileOpen = true)) ∨
      ∃ st, (fs path).isSome ∧ res.fileOpen = true ∧
        ((wwwBranch fs res path = .bodyFailed st ∧ res.fileSend = .failed) ∨
          ∃ n, wwwBranch fs res path = .sent st n ∧ res.fileSend = .accepted n) := by
  cases hfs : fs path with
  | none => exact .inl ⟨by rw [wwwBranch, hfs], by simp⟩
  | some st =>
    cases ho : res.fileOpen with
    | false => exact .inl ⟨by simp [wwwBranch, hfs, ho], by simp⟩
    | true =>
      obtain ⟨n, hn⟩ : ∃ n, res.wwwHead = .accepted (n + 1) := by
        have hpos := hsend.wwwHead
        cases hw : res.wwwHead with
        | accepted n =>
          have hn : 0 < n := by simpa [hw, SendResult.taken] using hpos
          exact ⟨n - 1, by rw [Nat.sub_add_cancel hn]⟩
        | _ => simp [hw, SendResult.taken] at hpos
      refine .inr ⟨st, rfl, rfl, ?_⟩
      cases hb : res.fileSend with
      | accepted k => exact .inr ⟨k, by simp [wwwBranch, hfs, ho, hn, hb], rfl⟩
      | failed => exact .inl ⟨by simp [wwwBranch, hfs, ho, hn, hb], rfl⟩
      | sigpipe => exact absurd hb hsend.fileSend

theorem echoWww_truthful (hsend : SendsSucceed res) {pre post : List Action}
    (hpre : statusSends pre = []) (hpost : statusSends post = []) (path : List Byte) (size : Int) :
    Truthful (pre ++ echoWww fs res path size ++ post) ↔
      (fs path).isSome ∧ res.fileOpen = true ∧ LineSent okHead res.wwwHead ∧
        res.fileSend ≠ .failed := by
  obtain ⟨hstatus, hfirst⟩ := okHead_status
  rcases wwwBranch_cases fs res hsend path with ⟨hb, hno⟩ | ⟨st, hst, ho, ⟨hb, hf⟩ | ⟨n, hb, hf⟩⟩
  · refine iff_of_false (not_truthful ?_) fun h => hno ⟨h.1, h.2.1⟩
    simp [echoWww, hb, hpre, hpost, Action.statuses]
  · refine iff_of_false (not_truthful ?_) fun h => h.2.2.2 hf
    simp [echoWww, hb, hpre, hpost, Action.statuses, hstatus,
      echoError_statuses fs res 500 rfl]
  · have hs : statusSends (pre ++ echoWww fs res path size ++ post) = [(okHead, res.wwwHead)] := by
      simp [echoWww, hb, hpre, hpost, Action.statuses, hstatus]
    have hserved : served (pre ++ echoWww fs res path size ++ post) = true := by
      simp [echoWww, hb, Action.serves, hf]
    rw [truthful_of_statusSends hs, hserved]
    simp [hst, ho, hf]

theorem serveRequest_truthful (hsend : SendsSucceed res) (r : Request) (s : List Byte) :
    Truthful (serveRequest fs res r s) ↔ Answered fs res r s := by
  rw [serveRequest, Answered]
  cases hr : route fs r with
  | rejected =>
    refine truthful_error fs res 400 rfl ?_
    simp [Action.statuses]
  | missing =>
    refine truthful_error fs res 404 rfl ?_
    simp [Action.statuses, clearAction]
  | tooLong => exact iff_of_false (not_truthful (by simp [Action.statuses])) id
  | servedTooLong => exact iff_of_false (not_truthful (by simp [Action.statuses])) id
  | static st =>
    refine echoWww_truthful fs res hsend (by simp [Action.statuses, clearAction]) ?_ _ _
    split <;> rfl
  | cgi st =>
    exact runCgi_truthful fs res [.stat (allPath r), .headers (wantsLength r.method) _]
      rfl rfl _ _ _ _ _

end Responses

/-- One truthful status line is sent for a request exactly under the condition. -/
theorem truthful_response_iff (fs : FileSystem) (res : SysResults) (hsend : SendsSucceed res)
    (m : Locals) (stream : List Byte) :
    Truthful (dealwithsock fs res m stream) ↔
      Answered fs res (readRequest m (getLine bufSize stream).1) (getLine bufSize stream).2 :=
  serveRequest_truthful fs res hsend _ _

theorem SysResults.succeeding_sends (n : Nat) : SendsSucceed (.succeeding (n + 1)) :=
  ⟨n.succ_pos, n.succ_pos, n.succ_pos, n.succ_pos, nofun, nofun, fun _ => Nat.one_pos⟩

def queryRequest : List Byte := bytes "GET /program? HTTP/1.0\r\n\r\n"

def programRequest : Request :=
  ⟨bytes "GET", bytes "/program?", some (bytes "/program"), some [], true⟩

theorem queryRequest_read :
    readRequest (.const 120) (getLine bufSize queryRequest).1 = programRequest := by decide

theorem route_programRequest : route (oneFile 0o755) programRequest = .cgi ⟨0o755, 1, [120]⟩ := rfl

theorem cgiHeaders_programRequest (s : List Byte) : (cgiHeaders programRequest.method s).1 = 0 := by
  have hwants : wantsLength programRequest.method = false := by decide
  simp [cgiHeaders, hwants]

theorem truthful_response_started :
    Truthful (dealwithsock (oneFile 0o755) (.succeeding 100) (.const 120) queryRequest) := by
  refine (truthful_response_iff _ _ (SysResults.succeeding_sends 99) _ _).mpr ?_
  simp only [queryRequest_read, Answered, route_programRequest, cgiHeaders_programRequest]
  decide

def SysResults.execlFails : SysResults := { SysResults.succeeding 100 with execl := false }

theorem truthful_response_not_started :
    SendsSucceed .execlFails ∧
      ¬ Truthful (dealwithsock (oneFile 0o755) .execlFails (.const 120) queryRequest) := by
  have hsend : SendsSucceed .execlFails := by
    refine ⟨?_, ?_, ?_, ?_, nofun, nofun, fun _ => Nat.one_pos⟩
    all_goals decide
  refine ⟨hsend, ?_⟩
  rw [dealwithsock, queryRequest_read, serveRequest_truthful _ _ hsend]
  simp only [Answered, route_programRequest, cgiHeaders_programRequest]
  decide

end LinuxStudy

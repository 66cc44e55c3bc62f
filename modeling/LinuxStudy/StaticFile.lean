import LinuxStudy.PlainGet

/-! What a client receives of a static file. The size goes through an `int`, and
`sendfile` is called once. -/

namespace LinuxStudy

/-- What the client gets from a call of the thread that serves it. -/
def Action.delivered : Action → List Byte
  | .send text r => text.take r.taken
  | .sendfile _ contents _ r => contents.take r.taken
  | _ => []

def delivered (as : List Action) : List Byte := as.flatMap Action.delivered

/-- `sendfile` fails, or moves between one byte and as many as it is asked for
while there are any. The count is a `size_t`. -/
def AdmissibleSendfile (contents : List Byte) (count : Int) : SendResult → Prop
  | .accepted k =>
    k ≤ contents.length ∧ k ≤ (count % 2 ^ 64).toNat ∧ (k = 0 → contents = [] ∨ count % 2 ^ 64 = 0)
  | .failed => True
  | .sigpipe => True

/-- `sendfile` is asked for the size of the file, and a result that is not
negative means that the header and the whole file have arrived. -/
def ArrivesWhole (st : FileNode) (ret : Int) (as : List Action) : Prop :=
  (0 ≤ ret → delivered as = okHead ++ st.contents) ∧
    ∀ contents count r, .sendfile .file contents count r ∈ as → count = st.size

theorem delivered_append (as bs : List Action) :
    delivered (as ++ bs) = delivered as ++ delivered bs := List.flatMap_append

section StaticFile

variable {fs : FileSystem} {res : SysResults}

theorem sendfile_not_mem_echoError {code : Nat} {contents : List Byte} {count : Int}
    {r : SendResult} : .sendfile .file contents count r ∉ echoError fs res code := by
  rw [echoError]
  cases errorPage code with
  | none => exact List.not_mem_nil
  | some page =>
    simp only [sendError]
    cases fs page.2 with
    | none => simp
    | some st => cases res.pageOpen <;> simp

theorem take_append_take_iff (s t : List Byte) (i j : Nat) :
    s.take i ++ t.take j = s ++ t ↔ s.length ≤ i ∧ t.length ≤ j := by
  constructor
  · intro h
    have hlen := congrArg List.length h
    simp only [List.length_append, List.length_take] at hlen
    omega
  · rintro ⟨hi, hj⟩
    rw [List.take_of_length_le hi, List.take_of_length_le hj]

/-- The file could not be opened, or no header sent. -/
def NothingServed (res : SysResults) : Prop := res.fileOpen = false ∨ res.wwwHead.taken = 0

theorem wwwBranch_served {path : List Byte} {st : FileNode} (hfile : fs path = some st)
    (h : ¬ NothingServed res) : wwwBranch fs res path =
      match res.fileSend with
      | .accepted n => .sent st n
      | _ => .bodyFailed st := by
  rw [NothingServed, not_or, Bool.not_eq_false] at h
  rw [wwwBranch, hfile]
  simp only [h.1]
  cases hhead : res.wwwHead with
  | accepted n =>
    cases n with
    | zero => exact absurd (by rw [hhead]; rfl) h.2
    | succ n => rfl
  | failed => exact absurd (by rw [hhead]; rfl) h.2
  | sigpipe => exact absurd (by rw [hhead]; rfl) h.2

theorem echoWww_nothing {path : List Byte} {st : FileNode} (hfile : fs path = some st)
    (h : NothingServed res) (size : Int) :
    (wwwBranch fs res path).ret = -1 ∧
      ∀ contents count r, .sendfile .file contents count r ∉ echoWww fs res path size := by
  have hbranch : wwwBranch fs res path = .notOpened ∨ wwwBranch fs res path = .headFailed st := by
    rw [wwwBranch, hfile]
    simp only
    split
    · exact .inl rfl
    · rename_i hopen
      have hhead := h.resolve_left hopen
      cases hr : res.wwwHead with
      | accepted n =>
        rw [hr] at hhead
        obtain rfl : n = 0 := hhead
        exact .inr rfl
      | failed => exact .inr rfl
      | sigpipe => exact .inr rfl
  rcases hbranch with hb | hb
  · rw [echoWww, hb]
    exact ⟨rfl, fun contents count r hmem => by simp at hmem⟩
  · rw [echoWww, hb]
    refine ⟨rfl, fun contents count r hmem => ?_⟩
    simp only [List.mem_append, List.mem_cons, List.not_mem_nil, or_false, reduceCtorEq,
      false_or] at hmem
    exact sendfile_not_mem_echoError hmem

/-- The rest of the request neither sends nor calls `sendfile`. -/
theorem arrivesWhole_echoWww {r : Request} {st : FileNode} (hroute : route fs r = .static st)
    (hdir : st.isDir = false) (s : List Byte) (ret : Int) :
    ArrivesWhole st ret (serveRequest fs res r s) ↔
      ArrivesWhole st ret (echoWww fs res (allPath r) (toInt32 st.size)) := by
  have hserved : servedPath st (allPath r) = allPath r := by
    rw [servedPath, hdir]
    rfl
  obtain ⟨last, hlast, hserve⟩ : ∃ last, (last = .exit 5 ∨ last = .closed .conn) ∧
      serveRequest fs res r s = [.stat (allPath r), clearAction s] ++
        echoWww fs res (allPath r) (toInt32 st.size) ++ [last] := by
    rw [serveRequest, hroute]
    simp only [hserved]
    by_cases hret : (wwwBranch fs res (allPath r)).ret < 0
    · exact ⟨.exit 5, .inl rfl, by simp only [hret, if_true]⟩
    · exact ⟨.closed .conn, .inr rfl, by simp only [hret, if_false]⟩
  have hdelivered : delivered (serveRequest fs res r s) =
      delivered (echoWww fs res (allPath r) (toInt32 st.size)) := by
    have hnone : delivered [last] = [] := by
      rcases hlast with rfl | rfl
      · rfl
      · rfl
    rw [hserve, delivered_append, delivered_append, hnone, List.append_nil]
    rfl
  have hmem : ∀ contents count result, .sendfile .file contents count result ∈
      serveRequest fs res r s ↔ .sendfile .file contents count result ∈
        echoWww fs res (allPath r) (toInt32 st.size) := by
    intro contents count result
    rw [hserve, clearAction]
    rcases hlast with rfl | rfl
    · simp
    · simp
  rw [ArrivesWhole, ArrivesWhole, hdelivered]
  simp only [hmem]

theorem arrivesWhole_bodyFailed {path : List Byte} {st : FileNode}
    (hb : wwwBranch fs res path = .bodyFailed st) (size : Int) :
    ArrivesWhole st (wwwBranch fs res path).ret (echoWww fs res path size) ↔ size = st.size := by
  have hneg : ¬ (0 : Int) ≤ -1 := by decide
  rw [echoWww, hb, ArrivesWhole]
  refine (and_iff_right fun h => absurd h hneg).trans ⟨fun h => ?_, fun h => ?_⟩
  · exact h st.contents _ res.fileSend (by simp)
  · intro contents count r hmem
    simp only [List.mem_append, List.mem_cons, List.not_mem_nil, or_false, reduceCtorEq,
      false_or, Action.sendfile.injEq] at hmem
    rcases hmem with hmem | hmem
    · rw [hmem.2.2.1, h]
    · exact absurd hmem sendfile_not_mem_echoError

theorem arrivesWhole_sent {path : List Byte} {st : FileNode} {k : Nat}
    (hsend : res.fileSend = .accepted k) (hb : wwwBranch fs res path = .sent st k) (size : Int) :
    ArrivesWhole st (wwwBranch fs res path).ret (echoWww fs res path size) ↔
      size = st.size ∧ okHead.length ≤ res.wwwHead.taken ∧ st.contents.length ≤ k := by
  have hsent : delivered (echoWww fs res path size) =
      okHead.take res.wwwHead.taken ++ st.contents.take k := by
    rw [echoWww, hb, hsend]
    exact congrArg (okHead.take res.wwwHead.taken ++ ·) (List.append_nil _)
  have hasked : (∀ contents count r, .sendfile .file contents count r ∈
      echoWww fs res path size → count = st.size) ↔ size = st.size := by
    rw [echoWww, hb]
    refine ⟨fun h => h st.contents size res.fileSend (by simp), fun h contents count r hmem => ?_⟩
    simp only [List.mem_cons, List.not_mem_nil, or_false, reduceCtorEq, false_or,
      Action.sendfile.injEq] at hmem
    exact hmem.2.2.1.trans h
  have hret : (0 : Int) ≤ (wwwBranch fs res path).ret := by
    rw [hb]
    exact Int.natCast_nonneg k
  rw [ArrivesWhole, hsent, take_append_take_iff, hasked, and_comm]
  exact and_congr_right fun _ => ⟨fun h => h hret, fun h _ => h⟩

theorem arrivesWhole_served {path : List Byte} {st : FileNode} (hfile : fs path = some st)
    (hserved : ¬ NothingServed res) (hsize : st.size = st.contents.length) :
    ArrivesWhole st (wwwBranch fs res path).ret (echoWww fs res path (toInt32 st.size)) ↔
      st.contents.length < 2 ^ 31 ∧ ∀ k, res.fileSend = .accepted k →
        okHead.length ≤ res.wwwHead.taken ∧ st.contents.length ≤ k := by
  have hbranch := wwwBranch_served hfile hserved
  have hcount : toInt32 st.size = st.size ↔ st.contents.length < 2 ^ 31 := by
    rw [hsize]
    exact toInt32_natCast_iff st.contents.length
  rw [← hcount]
  cases hsend : res.fileSend with
  | accepted k =>
    rw [hsend] at hbranch
    rw [arrivesWhole_sent hsend hbranch]
    refine and_congr_right fun _ => ⟨fun h j hj => ?_, fun h => h k rfl⟩
    exact SendResult.accepted.inj hj ▸ h
  | failed =>
    rw [hsend] at hbranch
    rw [arrivesWhole_bodyFailed hbranch]
    exact (and_iff_left nofun).symm
  | sigpipe =>
    rw [hsend] at hbranch
    rw [arrivesWhole_bodyFailed hbranch]
    exact (and_iff_left nofun).symm

/-- A static file arrives whole exactly when nothing of it is served, or its size
fits an `int` and the one call of `sendfile` moves all of it behind the whole
header. -/
theorem whole_file_iff (fs : FileSystem) (res : SysResults) (m : Locals) (stream : List Byte)
    {st : FileNode} (hroute : route fs (readRequest m (getLine bufSize stream).1) = .static st)
    (hdir : st.isDir = false) (hsize : st.size = st.contents.length)
    (hadm : AdmissibleSendfile st.contents (toInt32 st.size) res.fileSend) :
    ArrivesWhole st
        (wwwBranch fs res (allPath (readRequest m (getLine bufSize stream).1))).ret
        (dealwithsock fs res m stream) ↔
      NothingServed res ∨ st.contents.length < 2 ^ 31 ∧ ∀ k, res.fileSend = .accepted k →
        okHead.length ≤ res.wwwHead.taken ∧ k = st.contents.length := by
  have hfile := (found_of_route (.inr hroute)).file
  have hserve : dealwithsock fs res m stream = serveRequest fs res
      (readRequest m (getLine bufSize stream).1) (getLine bufSize stream).2 := rfl
  rw [hserve, arrivesWhole_echoWww hroute hdir]
  by_cases hnothing : NothingServed res
  · obtain ⟨hret, hnone⟩ := echoWww_nothing hfile hnothing (toInt32 st.size)
    refine iff_of_true ⟨fun h => ?_, fun contents count r hmem => ?_⟩ (.inl hnothing)
    · rw [hret] at h
      exact absurd h (by decide)
    · exact absurd hmem (hnone contents count r)
  · rw [arrivesWhole_served hfile hnothing hsize, or_iff_right hnothing]
    refine and_congr_right fun _ => forall₂_congr fun k hk => and_congr_right fun _ => ?_
    rw [hk] at hadm
    have hle := hadm.1
    omega

end StaticFile

def pageFile (contents : List Byte) : FileNode := ⟨0o644, contents.length, contents⟩

def pageFs (contents : List Byte) : FileSystem := fun _ => some (pageFile contents)

def pageRequest : List Byte := getRequest (bytes "/p") (bytes "HTTP/1.0\r\n\r\n")

/-- Every call succeeds, and `sendfile` moves `k` bytes. -/
def sendingPage (k : Nat) : SysResults := { SysResults.succeeding 19 with fileSend := .accepted k }

theorem pageRequest_read : ∃ query, readRequest (.const 0) (getLine bufSize pageRequest).1 =
    ⟨bytes "GET", bytes "/p", some (bytes "/p"), query, false⟩ := by
  have hplain : PlainUrl (bytes "/p") :=
    ⟨forall_mem_of_all (by decide), by decide, by decide, by decide, by decide⟩
  obtain ⟨query, cgi, hread, hcgi⟩ := hplain.read (.const 0) (bytes "HTTP/1.0\r\n\r\n")
  have hfalse : cgi = false := by
    rw [← Bool.not_eq_true, hcgi]
    exact not_staleMark_const (by decide) _
  rw [hfalse] at hread
  exact ⟨query, hread⟩

theorem pageFile_isDir (contents : List Byte) : (pageFile contents).isDir = false := by
  have hmode : (pageFile contents).mode = 0o644 := rfl
  rw [FileNode.isDir, hmode]
  rfl

theorem pageFile_executable (contents : List Byte) : (pageFile contents).executable = false := by
  have hmode : (pageFile contents).mode = 0o644 := rfl
  rw [FileNode.executable, hmode]
  rfl

theorem pageRequest_route (contents : List Byte) :
    route (pageFs contents) (readRequest (.const 0) (getLine bufSize pageRequest).1) =
      .static (pageFile contents) := by
  obtain ⟨query, hread⟩ := pageRequest_read
  rw [hread]
  have hall : allPath ⟨bytes "GET", bytes "/p", some (bytes "/p"), query, false⟩ =
      bytes "wwwroot/p" := rfl
  have hserved : servedPath (pageFile contents) (bytes "wwwroot/p") = bytes "wwwroot/p" := by
    rw [servedPath, pageFile_isDir]
    rfl
  have hfound : Found (pageFs contents) ⟨bytes "GET", bytes "/p", some (bytes "/p"), query, false⟩
      (pageFile contents) := by
    refine ⟨rfl, ?_, rfl, ?_⟩
    · rw [hall]
      decide
    · rw [hall, hserved]
      decide
  rw [hfound.route, pageFile_executable]
  rfl

theorem sendingPage_served (k : Nat) : ¬ NothingServed (sendingPage k) := by
  rintro (h | h)
  · cases h
  · cases h

theorem whole_file_two_bytes :
    ArrivesWhole (pageFile (bytes "hi"))
      (wwwBranch (pageFs (bytes "hi")) (sendingPage 2)
        (allPath (readRequest (.const 0) (getLine bufSize pageRequest).1))).ret
      (dealwithsock (pageFs (bytes "hi")) (sendingPage 2) (.const 0) pageRequest) := by
  have hadm : AdmissibleSendfile (bytes "hi") (toInt32 2) (.accepted 2) := by
    refine ⟨by decide, by decide, nofun⟩
  refine (whole_file_iff _ (sendingPage 2) _ _ (pageRequest_route (bytes "hi")) rfl rfl hadm).mpr
    (.inr ⟨by decide, fun k hk => ?_⟩)
  obtain rfl : 2 = k := SendResult.accepted.inj hk
  decide

theorem not_whole {contents : List Byte} {k : Nat}
    (h : ¬ (contents.length < 2 ^ 31 ∧ contents.length ≤ k)) :
    ¬ ArrivesWhole (pageFile contents)
      (wwwBranch (pageFs contents) (sendingPage k)
        (allPath (readRequest (.const 0) (getLine bufSize pageRequest).1))).ret
      (dealwithsock (pageFs contents) (sendingPage k) (.const 0) pageRequest) := by
  have hroute := pageRequest_route contents
  intro hwhole
  have hserved :=
    (arrivesWhole_echoWww hroute (pageFile_isDir contents) (getLine bufSize pageRequest).2 _).mp
      hwhole
  obtain ⟨hsize, hsent⟩ :=
    (arrivesWhole_served (found_of_route (.inr hroute)).file (sendingPage_served k) rfl).mp hserved
  exact h ⟨hsize, (hsent k rfl).2⟩

/-- One byte of two is moved, and of 2³² + 1 bytes one is asked for. -/
theorem file_cut_short :
    (AdmissibleSendfile (bytes "hi") (toInt32 2) (.accepted 1) ∧
      ¬ ArrivesWhole (pageFile (bytes "hi"))
        (wwwBranch (pageFs (bytes "hi")) (sendingPage 1)
          (allPath (readRequest (.const 0) (getLine bufSize pageRequest).1))).ret
        (dealwithsock (pageFs (bytes "hi")) (sendingPage 1) (.const 0) pageRequest)) ∧
    (AdmissibleSendfile (List.replicate 4294967297 120) (toInt32 4294967297) (.accepted 1) ∧
      ¬ ArrivesWhole (pageFile (List.replicate 4294967297 120))
        (wwwBranch (pageFs (List.replicate 4294967297 120)) (sendingPage 1)
          (allPath (readRequest (.const 0) (getLine bufSize pageRequest).1))).ret
        (dealwithsock (pageFs (List.replicate 4294967297 120)) (sendingPage 1) (.const 0)
          pageRequest)) := by
  refine ⟨⟨⟨by decide, by decide, nofun⟩, not_whole (by decide)⟩, ⟨⟨?_, by decide, nofun⟩,
    not_whole ?_⟩⟩
  · rw [List.length_replicate]
    decide
  · rw [List.length_replicate]
    decide

end LinuxStudy

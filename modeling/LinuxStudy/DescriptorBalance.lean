import LinuxStudy.PlainGet
import LinuxStudy.ServerIsolation

/-! Which descriptors are still open once a connection has been handled and the
process lives on. -/

namespace LinuxStudy

/-- The descriptors of the connection that are open after a call; there is no
result when an open one is opened again or one that is not open is closed. -/
def Action.holds (held : List Descr) : Action → Option (List Descr)
  | .opened d => if d ∈ held then none else some (d :: held)
  | .openFile d _ ok => if ok = true then if d ∈ held then none else some (d :: held) else some held
  | .closed d => if d ∈ held then some (held.erase d) else none
  | .stat _ => some held
  | .headers _ _ => some held
  | .send _ _ => some held
  | .sendfile _ _ _ _ => some held
  | .fork _ => some held
  | .write _ _ => some held
  | .relay _ _ => some held
  | .waitpid => some held
  | .overflow => some held
  | .exit _ => some held

def heldAfter (held : List Descr) (as : List Action) : Option (List Descr) :=
  as.foldlM Action.holds held

def Balanced (as : List Action) : Prop := heldAfter [] as = some []

section Balance

variable (fs : FileSystem) (res : SysResults)

def FileSent (r : Request) : Prop :=
  ∃ st, route fs r = .static st ∧ (fs (servedPath st (allPath r))).isSome = true ∧
    res.fileOpen = true ∧ (∃ k, res.wwwHead = .accepted (k + 1)) ∧ ∃ n, res.fileSend = .accepted n

theorem heldAfter_cons (held : List Descr) (a : Action) (as : List Action) :
    heldAfter held (a :: as) = (a.holds held).bind fun held => heldAfter held as :=
  List.foldlM_cons

theorem heldAfter_append (held : List Descr) (as bs : List Action) :
    heldAfter held (as ++ bs) = (heldAfter held as).bind fun held => heldAfter held bs :=
  List.foldlM_append

theorem heldAfter_quiet {held : List Descr} {as : List Action}
    (h : ∀ a ∈ as, a.holds held = some held) : heldAfter held as = some held := by
  induction as with
  | nil => rfl
  | cons a as ih =>
    rw [heldAfter, List.foldlM_cons, h a List.mem_cons_self]
    exact ih fun b hb => h b (List.mem_cons_of_mem a hb)

theorem heldAfter_cgi (child : List ChildAct) (body output : List Byte) :
    heldAfter [.conn] (openedPipes ++ .fork child :: cgiParent res body output) = some [] := by
  have hwrite : heldAfter [.out0, .in1, .conn]
      (body.mapIdx fun k b => .write b (res.bodyReader k)) = some [.out0, .in1, .conn] := by
    refine heldAfter_quiet fun a ha => ?_
    obtain ⟨k, hk, rfl⟩ := List.mem_mapIdx.mp ha
    rfl
  have hrelay : heldAfter [.out0, .in1, .conn]
      (output.mapIdx fun k b => .relay b (res.relay k)) = some [.out0, .in1, .conn] := by
    refine heldAfter_quiet fun a ha => ?_
    obtain ⟨k, hk, rfl⟩ := List.mem_mapIdx.mp ha
    rfl
  have hopen : heldAfter [.conn] (openedPipes ++ [.fork child, .closed .in0, .closed .out1]) =
      some [.out0, .in1, .conn] := rfl
  calc heldAfter [.conn] (openedPipes ++ .fork child :: cgiParent res body output)
      = heldAfter [.conn] ((openedPipes ++ [.fork child, .closed .in0, .closed .out1]) ++
          ((body.mapIdx fun k b => .write b (res.bodyReader k)) ++
            ((output.mapIdx fun k b => .relay b (res.relay k)) ++
              [.closed .in1, .closed .out0, .closed .conn, .waitpid]))) := by
        simp [cgiParent]
    _ = some [] := by
        rw [heldAfter_append, hopen, Option.bind_some, heldAfter_append, hwrite, Option.bind_some,
          heldAfter_append, hrelay]
        rfl

theorem wwwBranch_ret_iff (path : List Byte) :
    0 ≤ (wwwBranch fs res path).ret ↔ (fs path).isSome = true ∧ res.fileOpen = true ∧
      (∃ k, res.wwwHead = .accepted (k + 1)) ∧ ∃ n, res.fileSend = .accepted n := by
  rw [wwwBranch.eq_def]
  cases hpath : fs path with
  | none => simp [WwwBranch.ret]
  | some st =>
    cases hopen : res.fileOpen with
    | false => simp [WwwBranch.ret]
    | true =>
      rcases hhead : res.wwwHead with (_ | k) | - | -
      case accepted.succ =>
        cases hsend : res.fileSend with
        | accepted n => simp [WwwBranch.ret]
        | failed | sigpipe => simp [WwwBranch.ret]
      all_goals simp [WwwBranch.ret]

theorem heldAfter_static {r : Request} {st : FileNode} (hroute : route fs r = .static st)
    (h : 0 ≤ (wwwBranch fs res (servedPath st (allPath r))).ret) (s : List Byte) :
    heldAfter [.conn] (serveRequest fs res r s) = some [.file] := by
  rw [serveRequest, hroute]
  cases hb : wwwBranch fs res (servedPath st (allPath r)) with
  | sent st n =>
    have hn : ¬ (n : Int) < 0 := by omega
    simp only [echoWww, hb, WwwBranch.ret, if_neg hn]
    rfl
  | _ =>
    rw [hb] at h
    exact absurd h (by simp [WwwBranch.ret])

theorem balanced_request (r : Request) (s : List Byte) :
    (Returns (serveRequest fs res r s) → heldAfter [.conn] (serveRequest fs res r s) = some []) ↔
      ¬ FileSent fs res r := by
  rw [returns_serveRequest, RequestSurvives]
  cases hroute : route fs r with
  | static st =>
    have hsent : FileSent fs res r ↔ 0 ≤ (wwwBranch fs res (servedPath st (allPath r))).ret := by
      rw [wwwBranch_ret_iff, FileSent, hroute]
      simp
    rw [hsent]
    refine ⟨fun h hret => ?_, fun h hret => absurd hret h⟩
    have hheld := h hret
    rw [heldAfter_static fs res hroute hret s] at hheld
    cases hheld
  | cgi st =>
    refine iff_of_true ?_ ?_
    · rintro ⟨hforked, -⟩
      rw [serveRequest, hroute]
      simp only [echoCgi, runCgi, hforked, heldAfter_cons, Action.holds, Option.bind_some]
      exact heldAfter_cgi res ..
    · rintro ⟨st', hst, -⟩
      rw [hroute] at hst
      cases hst
  | _ =>
    refine iff_of_true (fun h => h.elim) ?_
    rintro ⟨st', hst, -⟩
    rw [hroute] at hst
    cases hst

theorem balanced_thread (hcreate : res.create = 0) (hdetach : res.detach = 0) (m : Locals)
    (stream : List Byte) :
    (Returns (acceptConnection fs res m stream) →
        Balanced (acceptConnection fs res m stream)) ↔
      ¬ FileSent fs res (readRequest m (getLine bufSize stream).1) := by
  have hret : ∀ as, Returns (.opened .conn :: as) ↔ Returns as := fun as => by simp [Action.ends]
  have hheld : ∀ as, heldAfter [] (.opened .conn :: as) = heldAfter [.conn] as := fun as => rfl
  have hlt : ¬ res.create < 0 := by omega
  rw [acceptConnection, if_neg hlt, if_pos hcreate, threadMechine, if_pos hdetach, dealwithsock,
    Balanced, hret, hheld]
  exact balanced_request fs res _ _

/-- A server that lives on has closed everything, except where a positive result
left the connection without a thread and where a static file was sent. -/
theorem descriptor_balance_iff (m : Locals) (stream : List Byte) :
    (Returns (acceptConnection fs res m stream) →
        Balanced (acceptConnection fs res m stream)) ↔
      res.create ≤ 0 ∧ (res.create = 0 → res.detach = 0 →
        ¬ FileSent fs res (readRequest m (getLine bufSize stream).1)) := by
  rcases lt_trichotomy res.create 0 with hlt | hzero | hgt
  · rw [acceptConnection, if_pos hlt]
    exact iff_of_true (fun _ => rfl) ⟨hlt.le, fun h0 => absurd h0 hlt.ne⟩
  · by_cases hdetach : res.detach = 0
    · rw [balanced_thread fs res hzero hdetach]
      exact ⟨fun h => ⟨hzero.le, fun _ _ => h⟩, fun h => h.2 hzero hdetach⟩
    · rw [acceptConnection, if_neg hzero.not_lt, if_pos hzero, threadMechine, if_neg hdetach]
      exact iff_of_true (fun _ => rfl) ⟨hzero.le, fun _ h => absurd h hdetach⟩
  · rw [acceptConnection, if_neg (by omega), if_neg hgt.ne']
    refine iff_of_false (fun h => ?_) fun h => absurd h.1 (by omega)
    have hheld := h (by simp [Action.ends])
    cases hheld

end Balance

theorem descriptor_leak :
    ¬ ∀ fs res m stream, Returns (acceptConnection fs res m stream) →
      Balanced (acceptConnection fs res m stream) := by
  intro h
  have hurl : PlainUrl (bytes "/page") :=
    ⟨forall_mem_of_all (by decide), by decide, by decide, by decide, by decide⟩
  obtain ⟨query, cgi, hread, hcgi⟩ := hurl.read (.const 120) (bytes "HTTP/1.0\r\n\r\n")
  obtain rfl : cgi = false := by
    rw [Bool.eq_false_iff, Ne, hcgi]
    exact not_staleMark_const (by decide) _
  have hnot := balanced_thread (oneFile 0o644) (.succeeding 100) rfl rfl (.const 120)
    (getRequest (bytes "/page") (bytes "HTTP/1.0\r\n\r\n"))
  rw [hread] at hnot
  refine hnot.mp (h _ _ _ _) ?_
  exact ⟨⟨0o644, 1, [120]⟩, rfl, rfl, rfl, ⟨99, rfl⟩, 100, rfl⟩

end LinuxStudy

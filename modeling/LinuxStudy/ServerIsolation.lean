import LinuxStudy.RequestHandling
import LinuxStudy.TransitionSystem

/-! All connections at once, one thread each. `exit` in a thread and SIGPIPE end
the process with every other thread; a child that ends takes nothing with it.
What another request has left in the buffer that a child copies may still come
out in its response. -/

namespace LinuxStudy

/-- A connection: the stack its thread finds, what the client sends, and how
the system calls made for it turn out. -/
structure Client where
  locals : Locals
  stream : List Byte
  res : SysResults

/-- The same connection with other text in the buffer and other bytes from a
child that has written past its arrays. -/
def Client.leaving (c : Client) (stdout overrun : List Byte) : Client :=
  { c with res := c.res.leaving stdout overrun }

def Client.actions (fs : FileSystem) (c : Client) : List Action :=
  acceptConnection fs c.res c.locals c.stream

/-- Calls of the child that do not return. -/
def ChildAct.ends : ChildAct → Bool
  | .send _ r => r = .sigpipe
  | .execl _ _ ok => ok
  | .overflow => true
  | .exit _ => true

/-- Calls of a thread that end the process. -/
def Action.ends : Action → Bool
  | .send _ r => r = .sigpipe
  | .sendfile _ _ _ r => r = .sigpipe
  | .write _ hasReader => !hasReader
  | .relay _ r => r = .sigpipe
  | .overflow => true
  | .exit _ => true
  | .opened _ => false
  | .closed _ => false
  | .stat _ => false
  | .openFile _ _ _ => false
  | .headers _ _ => false
  | .fork _ => false
  | .waitpid => false

def ChildAct.bytes : ChildAct → List Byte
  | .send text r => text.take r.taken
  | _ => []

def Action.bytes : Action → List Byte
  | .send text r => text.take r.taken
  | .sendfile _ contents _ r => contents.take r.taken
  | .relay b r => [b].take r.taken
  | _ => []

def childBytes : List ChildAct → List Byte
  | [] => []
  | a :: as => a.bytes ++ if a.ends then [] else childBytes as

def Action.response : Action → List Byte
  | .fork child => childBytes child
  | a => a.bytes

def response : List Action → List Byte
  | [] => []
  | a :: as => a.response ++ if a.ends then [] else response as

/-- Calls that wait for the child: there is nothing to relay before the program
runs, and `waitpid`. -/
def Action.waits : Action → Bool
  | .relay _ _ => true
  | .waitpid => true
  | _ => false

def Action.spawned (a : Action) (child : List ChildAct) : List ChildAct :=
  match a with
  | .fork new => new
  | _ => child

/-- Calls that do not send while the child may still be sending. -/
def Action.quiet : Action → Bool
  | .send _ _ => false
  | .sendfile _ _ _ _ => false
  | .fork _ => false
  | _ => true

def Orderly : List Action → Prop
  | [] => True
  | a :: as => (∀ child, a = .fork child → ∀ b ∈ as, b.quiet = true) ∧ Orderly as

structure ThreadRun where
  todo : List Action
  child : List ChildAct
  sent : List Byte

namespace ThreadRun

def start (as : List Action) : ThreadRun := ⟨as, [], []⟩

inductive ChildStep : ThreadRun → ThreadRun → Prop
  | act {s : ThreadRun} {a : ChildAct} {as : List ChildAct} (h : s.child = a :: as) :
      ChildStep s { s with child := if a.ends then [] else as, sent := s.sent ++ a.bytes }

inductive Step : ThreadRun → ThreadRun → Prop
  | act {s : ThreadRun} {a : Action} {as : List Action} (h : s.todo = a :: as)
      (hends : a.ends = false) (hwait : a.waits = true → s.child = []) :
      Step s ⟨as, a.spawned s.child, s.sent ++ a.bytes⟩
  | child {s t : ThreadRun} (h : ChildStep s t) : Step s t

/-- The next call of the thread ends the process. -/
def Fatal (s : ThreadRun) : Prop :=
  ∃ a as, s.todo = a :: as ∧ a.ends = true ∧ (a.waits = true → s.child = [])

def Done (s : ThreadRun) : Prop := s.todo = [] ∧ s.child = []

theorem reach_child (s : ThreadRun) :
    ∃ t, Reachable Step s t ∧ t.todo = s.todo ∧ t.child = [] := by
  obtain ⟨todo, child, sent⟩ := s
  induction child generalizing sent with
  | nil => exact ⟨_, .refl, rfl, rfl⟩
  | cons a as ih =>
    by_cases ha : a.ends = true
    · refine ⟨_, .single (.child (.act rfl)), rfl, ?_⟩
      rw [if_pos ha]
    · obtain ⟨t, ht, htodo, hchild⟩ := ih (sent ++ a.bytes)
      have hstep : Step ⟨todo, a :: as, sent⟩ ⟨todo, as, sent ++ a.bytes⟩ := by
        have h := Step.child (.act (s := ⟨todo, a :: as, sent⟩) rfl)
        rwa [if_neg ha] at h
      exact ⟨t, ht.head hstep, htodo, hchild⟩

theorem reach_todo {s : ThreadRun} {pre post : List Action} (htodo : s.todo = pre ++ post)
    (hpre : ∀ a ∈ pre, a.ends = false) :
    ∃ t, Reachable Step s t ∧ t.todo = post ∧ t.child = [] := by
  induction pre generalizing s with
  | nil =>
    obtain ⟨t, ht, htodo', hchild⟩ := reach_child s
    exact ⟨t, ht, htodo'.trans htodo, hchild⟩
  | cons a pre ih =>
    obtain ⟨t, ht, htodo', hchild⟩ := reach_child s
    have hact := ht.tail (.act (htodo'.trans htodo) (hpre a List.mem_cons_self) fun _ => hchild)
    obtain ⟨u, hu, hend⟩ := ih (s := ⟨pre ++ post, _, _⟩) rfl
      fun b hb => hpre b (List.mem_cons_of_mem a hb)
    exact ⟨u, hact.trans hu, hend⟩

theorem reach_suffix {as : List Action} {s : ThreadRun} (h : Reachable Step (start as) s) :
    s.todo <:+ as := by
  refine Reachable.invariant (fun s => s.todo <:+ as) h (List.suffix_refl as) fun a b hinv hst => ?_
  cases hst with
  | act h => exact (List.suffix_cons _ _).trans (h ▸ hinv)
  | child h =>
    cases h
    exact hinv

theorem never_fatal_iff {as : List Action} :
    (∀ s, Reachable Step (start as) s → ¬ s.Fatal) ↔ ∀ a ∈ as, a.ends = false := by
  constructor
  · intro h
    by_contra hends
    have hfind : (as.find? Action.ends).isSome := by simpa using hends
    obtain ⟨a, ha⟩ := Option.isSome_iff_exists.mp hfind
    obtain ⟨haends, pre, post, has, hpre⟩ := List.find?_eq_some_iff_append.mp ha
    have hret : ∀ b ∈ pre, b.ends = false := fun b hb => by simpa using hpre b hb
    obtain ⟨t, ht, htodo, hchild⟩ := reach_todo (s := start as) has hret
    exact h t ht ⟨a, post, htodo, haends, fun _ => hchild⟩
  · rintro h s hs ⟨a, post, htodo, ha, -⟩
    have hmem : a ∈ as := (reach_suffix hs).subset (by rw [htodo]; exact List.mem_cons_self)
    exact absurd (ha.symm.trans (h a hmem)) Bool.noConfusion

structure InOrder (total : List Byte) (s : ThreadRun) : Prop where
  returns : ∀ a ∈ s.todo, a.ends = false
  orderly : Orderly s.todo
  waiting : s.child ≠ [] → ∀ a ∈ s.todo, a.quiet = true
  sent : s.sent ++ childBytes s.child ++ response s.todo = total

theorem InOrder.start {as : List Action} (h : ∀ a ∈ as, a.ends = false) (ho : Orderly as) :
    InOrder (response as) (start as) := ⟨h, ho, fun hc => absurd rfl hc, rfl⟩

theorem InOrder.act {total : List Byte} {s : ThreadRun} {a : Action} {as : List Action}
    (h : InOrder total s) (htodo : s.todo = a :: as) (hwait : a.waits = true → s.child = []) :
    InOrder total ⟨as, a.spawned s.child, s.sent ++ a.bytes⟩ := by
  obtain ⟨hret, ho, hquiet, hsent⟩ := h
  rw [htodo] at hret ho hquiet hsent
  have hends := hret a List.mem_cons_self
  rw [response, hends, if_neg Bool.false_ne_true] at hsent
  refine ⟨fun b hb => hret b (List.mem_cons_of_mem a hb), ho.2, fun hc b hb => ?_, ?_⟩
  · cases a with
    | fork child => exact ho.1 child rfl b hb
    | _ => exact hquiet hc b (List.mem_cons_of_mem _ hb)
  · rw [← hsent]
    by_cases hc : s.child = []
    · cases a with
      | fork child => simp [hc, childBytes, Action.spawned, Action.bytes, Action.response]
      | _ => simp [hc, childBytes, Action.spawned, Action.response]
    · have hq := hquiet hc a List.mem_cons_self
      cases a with
      | send | sendfile | fork => exact absurd hq Bool.false_ne_true
      | relay | waitpid => exact absurd (hwait rfl) hc
      | _ => simp [Action.spawned, Action.bytes, Action.response]

theorem InOrder.step {total : List Byte} {s t : ThreadRun} (h : InOrder total s)
    (hst : Step s t) : InOrder total t := by
  cases hst with
  | act htodo _ hwait => exact h.act htodo hwait
  | child hst =>
    obtain ⟨hret, ho, hquiet, hsent⟩ := h
    cases hst with
    | @act a as hchild =>
      refine ⟨hret, ho, fun _ => hquiet (by rw [hchild]; exact List.cons_ne_nil _ _), ?_⟩
      rw [← hsent, hchild, childBytes]
      by_cases ha : a.ends = true
      · simp [ha, childBytes]
      · simp [ha]

end ThreadRun

abbrev ServerStep {ι : Type*} [DecidableEq ι] : Host ι ThreadRun → Host ι ThreadRun → Prop :=
  Host.Step ThreadRun.Step ThreadRun.ChildStep ThreadRun.Fatal

/-- The server lives, and every connection has got a part of the response it
would have got alone, whatever the other requests have left behind, and can
still get the rest. -/
structure Isolated {ι : Type*} [DecidableEq ι] (fs : FileSystem) (clients : ι → Client)
    (s : Host ι ThreadRun) : Prop where
  alive : s.alive = true
  sent : ∀ c l o, (s.state c).sent <+: response (((clients c).leaving l o).actions fs)
  complete : ∀ c l o, (s.state c).Done →
    (s.state c).sent = response (((clients c).leaving l o).actions fs)
  finishes : ∀ c, ∃ t, Reachable ServerStep s t ∧ (t.state c).Done

section Survival

variable (fs : FileSystem)

def CgiServed (res : SysResults) (method path : List Byte) (query : Option (List Byte)) (len : Int)
    (rest : List Byte) : Prop :=
  cgiBranch res method len = .forked ∧
    (∀ k < (cgiBody method len rest).length, res.bodyReader k = true) ∧
    ∀ k < (cgiOutput res path (cgiEnv method len query) (cgiBody method len rest)).length,
      res.relay k ≠ .sigpipe

def RequestSurvives (res : SysResults) (r : Request) (s : List Byte) : Prop :=
  match route fs r with
  | .cgi st =>
    CgiServed res r.method (servedPath st (allPath r)) r.query (cgiHeaders r.method s).1
      (cgiHeaders r.method s).2
  | .static st => 0 ≤ (wwwBranch fs res (servedPath st (allPath r))).ret
  | _ => False

def Client.Survives (c : Client) : Prop :=
  c.res.create = 0 → c.res.detach = 0 →
    RequestSurvives fs c.res (readRequest c.locals (getLine bufSize c.stream).1)
      (getLine bufSize c.stream).2

def Client.Executes (c : Client) : Prop :=
  RequestExecutes fs c.res (readRequest c.locals (getLine bufSize c.stream).1)
    (getLine bufSize c.stream).2

def Returns (as : List Action) : Prop := ∀ a ∈ as, a.ends = false

@[simp] theorem returns_nil : Returns [] := nofun

@[simp] theorem returns_cons (a : Action) (as : List Action) :
    Returns (a :: as) ↔ a.ends = false ∧ Returns as := List.forall_mem_cons

@[simp] theorem returns_append (as bs : List Action) :
    Returns (as ++ bs) ↔ Returns as ∧ Returns bs := List.forall_mem_append

theorem returns_mapIdx (l : List Byte) (f : Nat → Byte → Action) (p : Nat → Prop)
    (hf : ∀ k b, (f k b).ends = false ↔ p k) : Returns (l.mapIdx f) ↔ ∀ k < l.length, p k := by
  constructor
  · intro h k hk
    exact (hf k l[k]).mp (h _ (List.mem_mapIdx.mpr ⟨k, hk, rfl⟩))
  · intro h a ha
    obtain ⟨k, hk, rfl⟩ := List.mem_mapIdx.mp ha
    exact (hf k l[k]).mpr (h k hk)

variable (res : SysResults)

theorem returns_cgiParent (body output : List Byte) :
    Returns (cgiParent res body output) ↔
      (∀ k < body.length, res.bodyReader k = true) ∧
        ∀ k < output.length, res.relay k ≠ .sigpipe := by
  have hwrite := returns_mapIdx body (fun k b => .write b (res.bodyReader k))
    (fun k => res.bodyReader k = true) fun k b => by cases res.bodyReader k <;> simp [Action.ends]
  have hrelay := returns_mapIdx output (fun k b => .relay b (res.relay k))
    (fun k => res.relay k ≠ .sigpipe) fun k b => by cases res.relay k <;> simp [Action.ends]
  simp [cgiParent, hwrite, hrelay, Action.ends]

theorem returns_runCgi (method path : List Byte) (query : Option (List Byte)) (len : Int)
    (rest : List Byte) :
    Returns (runCgi fs res method path query len rest) ↔
      CgiServed res method path query len rest := by
  rw [runCgi, CgiServed]
  cases cgiBranch res method len with
  | forked => simp [openedPipes, returns_cgiParent, Action.ends]
  | _ => simp [Action.ends]

theorem wwwBranch_sent {path : List Byte} {st : FileNode} {n : Nat}
    (h : wwwBranch fs res path = .sent st n) :
    (∃ k, res.wwwHead = .accepted k) ∧ res.fileSend = .accepted n := by
  rw [wwwBranch.eq_def] at h
  split at h
  · cases h
  · split at h
    · cases h
    · split at h
      · split at h
        · rename_i hsend
          cases h
          exact ⟨⟨_, by assumption⟩, hsend⟩
        · cases h
      · cases h

theorem returns_static (path : List Byte) (size : Int) :
    Returns (echoWww fs res path size ++
      if (wwwBranch fs res path).ret < 0 then [.exit 5] else [.closed .conn]) ↔
      0 ≤ (wwwBranch fs res path).ret := by
  cases hb : wwwBranch fs res path with
  | sent st n =>
    obtain ⟨⟨k, hhead⟩, hsend⟩ := wwwBranch_sent fs res hb
    have hn : ¬ (n : Int) < 0 := by omega
    simp [echoWww, hb, WwwBranch.ret, hn, hhead, hsend, Action.ends]
  | _ => simp [WwwBranch.ret, Action.ends]

theorem returns_serveRequest (r : Request) (s : List Byte) :
    Returns (serveRequest fs res r s) ↔ RequestSurvives fs res r s := by
  rw [serveRequest, RequestSurvives]
  cases route fs r with
  | cgi st => simp [echoCgi, returns_runCgi, Action.ends]
  | static st =>
    have h := returns_static fs res (servedPath st (allPath r)) (toInt32 st.size)
    rw [returns_append] at h
    simp only [returns_append, returns_cons, returns_nil, and_true, List.append_assoc, h]
    simp [Action.ends, clearAction]
  | _ => simp [Action.ends]

theorem returns_actions (c : Client) : Returns (c.actions fs) ↔ c.Survives fs := by
  rw [Client.actions, acceptConnection, Client.Survives]
  by_cases hcreate : c.res.create = 0
  · have hlt : ¬ c.res.create < 0 := by omega
    by_cases hdetach : c.res.detach = 0
    · simp [hcreate, hdetach, threadMechine, dealwithsock, returns_serveRequest, Action.ends]
    · simp [hcreate, hdetach, threadMechine, Action.ends]
  · by_cases hlt : c.res.create < 0
    · simp [hcreate, hlt, Action.ends]
    · simp [hcreate, hlt, Action.ends]

theorem orderly_of_quiet {as : List Action} (h : ∀ a ∈ as, a.quiet = true) : Orderly as := by
  induction as with
  | nil => trivial
  | cons a as ih =>
    exact ⟨fun _ _ b hb => h b (List.mem_cons_of_mem a hb),
      ih fun b hb => h b (List.mem_cons_of_mem a hb)⟩

theorem cgiParent_quiet (body output : List Byte) :
    ∀ a ∈ cgiParent res body output, a.quiet = true := by
  intro a ha
  have h := cgiParent_flatMap res (f := fun a => if a.quiet then [] else [()]) (fun _ => rfl)
    (fun _ _ => rfl) (fun _ _ => rfl) rfl body output
  by_contra hq
  simpa [hq] using List.flatMap_eq_nil_iff.mp h a ha

theorem orderly_serveRequest {r : Request} {s : List Byte} (h : Returns (serveRequest fs res r s)) :
    Orderly (serveRequest fs res r s) := by
  rw [returns_serveRequest, RequestSurvives] at h
  rw [serveRequest]
  cases hr : route fs r with
  | cgi st =>
    rw [hr] at h
    have hquiet := cgiParent_quiet res
    have horderly := fun body output => orderly_of_quiet (hquiet body output)
    simpa [echoCgi, runCgi, h.1, openedPipes, Orderly, horderly] using hquiet _ _
  | static st =>
    rw [hr] at h
    have hret : ¬ (wwwBranch fs res (servedPath st (allPath r))).ret < 0 := Int.not_lt.mpr h
    cases hb : wwwBranch fs res (servedPath st (allPath r)) with
    | sent st' n =>
      have hn : ¬ (n : Int) < 0 := by omega
      simp [echoWww, hb, WwwBranch.ret, hn, clearAction, Orderly]
    | _ =>
      rw [hb] at hret
      exact absurd (Int.negSucc_lt_zero 0) hret
  | _ => simp [hr] at h

theorem orderly_actions {c : Client} (h : Returns (c.actions fs)) : Orderly (c.actions fs) := by
  rw [Client.actions, acceptConnection] at h ⊢
  by_cases hcreate : c.res.create = 0
  · by_cases hdetach : c.res.detach = 0
    · simp only [hcreate, hdetach, threadMechine, dealwithsock, returns_cons, lt_irrefl, if_true,
        if_false] at h
      obtain ⟨-, hserve⟩ := h
      simp [hcreate, hdetach, threadMechine, dealwithsock, orderly_serveRequest, hserve, Orderly]
    · simp [hcreate, hdetach, threadMechine, Orderly]
  · by_cases hlt : c.res.create < 0
    · simp [hlt, Orderly]
    · simp [hcreate, hlt, Orderly]

theorem actions_leaving {c : Client} (h : c.Executes fs) (l o : List Byte) :
    (c.leaving l o).actions fs = c.actions fs := by
  have hserve : dealwithsock fs (c.res.leaving l o) c.locals c.stream =
      dealwithsock fs c.res c.locals c.stream := serveRequest_leaving fs c.res h l o
  have hdetach : (c.res.leaving l o).detach = c.res.detach := rfl
  have hcreate : (c.res.leaving l o).create = c.res.create := rfl
  simp only [Client.actions, Client.leaving, acceptConnection, threadMechine, hserve, hdetach,
    hcreate]

end Survival

abbrev serverStart {ι : Type*} (fs : FileSystem) (clients : ι → Client) : Host ι ThreadRun :=
  ⟨true, fun c => .start ((clients c).actions fs)⟩

theorem childStep_step {x y : ThreadRun} (h : ThreadRun.ChildStep x y) : ThreadRun.Step x y :=
  .child h

theorem alive_iff_survives {ι : Type*} [DecidableEq ι] (fs : FileSystem) (clients : ι → Client) :
    (∀ s, Reachable ServerStep (serverStart fs clients) s → s.alive = true) ↔
      ∀ c, (clients c).Survives fs := by
  simp only [← returns_actions]
  exact (Host.alive_iff fun _ _ h => childStep_step h).trans
    (forall_congr' fun _ => ThreadRun.never_fatal_iff)

def twoClients : Bool → Client
  | true => ⟨.const 120, bytes "GET /page HTTP/1.0\r\n\r\n", .succeeding 100⟩
  | false => ⟨.const 120, bytes "HELLO /page HTTP/1.0\r\n\r\n", .succeeding 100⟩

end LinuxStudy

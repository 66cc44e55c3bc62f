import LinuxStudy.EpollServer

/-! The memory of the epoll server: a node for each registered descriptor, whose
address the kernel keeps and gives back with each report, and an array of
reports for each turn of the main loop. -/

namespace LinuxStudy

abbrev Ptr := Nat

inductive EpollBlock
  | epfd (fd : Sock)
  | events
  deriving DecidableEq

/-- The reports that are still to be handled are in `reports`, with the addresses
the kernel has given back; `server` holds none. -/
structure EpollMemory where
  server : EpollServer
  /-- `data.ptr` of what is registered. -/
  ptr : Sock → Ptr
  heap : Ptr → Option EpollBlock
  reports : List (Ptr × Interest)
  evs : Option Ptr
  /-- How often nothing was reported in time. -/
  timeouts : Nat

namespace EpollMemory

/-- `node` is the address of the listening socket's node. -/
def start (listensock : Sock) (n : Nat) (node : Ptr) : EpollMemory where
  server := .start listensock n
  ptr := fun _ => node
  heap := Function.update (fun _ => none) node (some (.epfd listensock))
  reports := []
  evs := none
  timeouts := 0

inductive Act
  | arrive (c : Sock) (n : Nat)
  | hangUp (c : Sock)
  | drained (c : Sock)
  | wait (evs : List (Sock × Interest)) (block : Ptr)
  | timeout (block : Ptr)
  | waitFails
  | handle (o : EpollServer.Outcomes) (node : Option Ptr)
  | scanned

/-- The node of an accepted socket, which is freed again when it cannot be
registered. There is no result when `malloc` has none. -/
def getepfd (s : EpollMemory) (o : EpollServer.Outcomes) (node : Option Ptr) :
    Option EpollMemory :=
  match o.accept, node with
  | none, _ => some s
  | some _, none => none
  | some (sock, _, _), some p =>
    if o.add = true then
      some { s with
        ptr := Function.update s.ptr sock p
        heap := Function.update s.heap p (some (.epfd sock)) }
    else some s

/-- The report's descriptor is read from the node it points to. -/
def handle (s : EpollMemory) (o : EpollServer.Outcomes) (node : Option Ptr) : Option EpollMemory :=
  match s.reports with
  | [] => some s
  | (p, i) :: reports =>
    match s.heap p with
    | some (.epfd jfd) =>
      let t := { s with server := s.server.dispatch jfd o i, reports := reports }
      if i = .output then some t
      else if jfd = s.server.listensock then t.getepfd o node
      else if o.read = some 0 then some { t with heap := Function.update s.heap p none }
      else some t
    | _ => none

/-- After a timeout the loop goes on without `free(evs)`. -/
def next (s : EpollMemory) : Act → Option EpollMemory
  | .arrive c n => some { s with server := s.server.next (.arrive c n) }
  | .hangUp c => some { s with server := s.server.next (.hangUp c) }
  | .drained c => some { s with server := s.server.next (.drained c) }
  | .wait evs block =>
    some { s with
      server := { s.server.next (.wait evs) with evs := [] }
      heap := Function.update s.heap block (some .events)
      reports := evs.map fun e => (s.ptr e.1, e.2)
      evs := some block }
  | .timeout block =>
    some { s with
      heap := Function.update s.heap block (some .events)
      timeouts := s.timeouts + 1 }
  | .waitFails => some { s with server := s.server.next .waitFails }
  | .handle o node => s.handle o node
  | .scanned =>
    match s.evs with
    | none => some s
    | some block =>
      if s.heap block = some .events then
        some { s with heap := Function.update s.heap block none, evs := none }
      else none

/-- What can happen next; `malloc` returns no address that is allocated. -/
def Enabled (s : EpollMemory) : Act → Prop
  | .arrive c n => s.server.Enabled (.arrive c n)
  | .hangUp c => s.server.Enabled (.hangUp c)
  | .drained c => s.server.Enabled (.drained c)
  | .wait evs block => s.evs = none ∧ s.server.Enabled (.wait evs) ∧ s.heap block = none
  | .timeout block => s.evs = none ∧ s.server.polling = true ∧ s.heap block = none
  | .waitFails => s.evs = none
  | .handle o node =>
    match s.reports with
    | [] => False
    | (p, i) :: _ => (∀ jfd, s.heap p = some (.epfd jfd) → s.server.Possible jfd o i) ∧
        ∀ q ∈ node, s.heap q = none
  | .scanned => s.evs.isSome = true ∧ s.reports = []

inductive Step : EpollMemory → EpollMemory → Prop
  | act {s t : EpollMemory} (a : Act) (h : s.Enabled a) (ht : s.next a = some t) : Step s t

end EpollMemory

namespace EpollServer

/-- The descriptor is registered, unless `epoll_wait` has failed. -/
def Open (s : EpollServer) (c : Sock) : Prop := c = s.listensock ∨ c ∈ s.live

theorem dispatch_evs (s : EpollServer) (evs : List (Sock × Interest)) (jfd : Sock) (o : Outcomes)
    (i : Interest) :
    ({ s with evs := evs } : EpollServer).dispatch jfd o i =
      { s.dispatch jfd o i with evs := evs } := by
  cases i with
  | input =>
    by_cases hl : jfd = s.listensock
    · simp only [dispatch, if_pos hl]
      rcases o.accept with - | ⟨sock, n, ended⟩
      · rfl
      · simp only [acceptClient]
        split <;> rfl
    · simp only [dispatch, if_neg hl]
      rcases o.read with - | - | size
      · rfl
      · rfl
      · simp only [readClient]
        split <;> rfl
  | output =>
    simp only [dispatch, writeClient]
    split
    · split <;> rfl
    · rfl

theorem dispatch_listensock (s : EpollServer) (jfd : Sock) (o : Outcomes) (i : Interest) :
    (s.dispatch jfd o i).listensock = s.listensock := by
  have hhandled := handled s jfd o i
  generalize s.dispatch jfd o i = t at hhandled ⊢
  cases hhandled <;> rfl

theorem next_listensock (s : EpollServer) (a : Act) : (s.next a).listensock = s.listensock := by
  cases a with
  | handle o =>
    simp only [next]
    split
    · rfl
    · exact dispatch_listensock ..
  | _ => rfl

theorem reachable_listensock {ok : EpollServer → Act → Prop} {listensock : Sock} {n : Nat}
    {s : EpollServer} (h : Reachable (Step ok) (start listensock n) s) :
    s.listensock = listensock := by
  apply h.invariant (fun s => s.listensock = listensock) rfl
  rintro a b ha ⟨act, -, -⟩
  rw [next_listensock, ha]

theorem dispatch_live_output (s : EpollServer) (jfd : Sock) (o : Outcomes) :
    (s.dispatch jfd o .output).live = s.live := by
  have hhandled := handled s jfd o .output
  generalize s.dispatch jfd o .output = t at hhandled ⊢
  cases hhandled <;> rfl

theorem dispatch_live_read (s : EpollServer) {jfd : Sock} {o : Outcomes} (hl : jfd ≠ s.listensock)
    (hread : o.read ≠ some 0) : (s.dispatch jfd o .input).live = s.live := by
  have hhandled := handled s jfd o .input
  generalize s.dispatch jfd o .input = t at hhandled ⊢
  cases hhandled with
  | accepted hl' => exact absurd hl' hl
  | closed _ hr => exact absurd hr hread
  | _ => rfl

/-- Only what is open is registered, and nothing is open twice. -/
structure Registered (s : EpollServer) : Prop where
  nodup : s.live.Nodup
  listens : s.listensock ∉ s.live
  armed : ∀ c, (s.watched c).armed ≠ none → s.Open c

variable {s t : EpollServer} {c jfd : Sock} {o : Outcomes} {i : Interest}

theorem Registered.setWatched (h : s.Registered) (w : Watched)
    (hw : w.armed ≠ none → s.Open c) : (s.setWatched c w).Registered := by
  refine ⟨h.nodup, h.listens, fun d hd => ?_⟩
  by_cases hdc : d = c
  · subst d
    simp only [EpollServer.setWatched, Function.update_self] at hd
    exact hw hd
  · simp only [EpollServer.setWatched, Function.update_of_ne hdc] at hd
    exact h.armed d hd

theorem Registered.handle (h : s.Registered) (hh : Handled s jfd o i t) (hp : s.Possible jfd o i)
    (hopen : s.Open jfd) : t.Registered := by
  cases hh with
  | notAccepted | notRead | notWritten => exact h
  | written => exact ⟨h.nodup, h.listens, h.armed⟩
  | refused | notArmed => exact h.setWatched _ fun _ => hopen
  | armed => exact ⟨h.nodup, h.listens, (h.setWatched _ fun _ => hopen).armed⟩
  | @accepted sock n ended hl ha =>
    simp only [Possible, if_pos hl, ha] at hp
    obtain ⟨-, hne, hfresh⟩ := hp sock rfl
    refine ⟨List.nodup_cons.mpr ⟨hfresh, h.nodup⟩,
      List.not_mem_cons_of_ne_of_not_mem hne.symm h.listens, fun d hd => ?_⟩
    by_cases hds : d = sock
    · exact .inr (hds ▸ List.mem_cons_self)
    · simp only [EpollServer.setWatched, Function.update_of_ne hds] at hd
      have hold := (h.setWatched ((s.watched jfd).take 1) fun _ => hopen).armed d hd
      exact hold.imp_right (List.mem_cons_of_mem sock)
  | closed hl hr =>
    refine ⟨h.nodup.erase jfd, fun hmem => h.listens (List.mem_of_mem_erase hmem), fun d hd => ?_⟩
    by_cases hdj : d = jfd
    · simp [EpollServer.setWatched, hdj, Watched.unwatched] at hd
    · simp only [EpollServer.setWatched, Function.update_of_ne hdj] at hd
      exact (h.armed d hd).imp_right fun hmem => (List.mem_erase_of_ne hdj).mpr hmem

end EpollServer

namespace EpollMemory

section Heap

variable {heap : Ptr → Option EpollBlock} {ptr : Sock → Ptr} {op op' : Sock → Prop} {p : Ptr}
  {c : Sock} {timeouts : Nat} {evs : Option Ptr} {b : Option EpollBlock}

/-- Each node belongs to the open descriptor that points to it. -/
def Nodes (heap : Ptr → Option EpollBlock) (ptr : Sock → Ptr) (op : Sock → Prop) : Prop :=
  ∀ p c, heap p = some (.epfd c) ↔ op c ∧ p = ptr c

/-- Besides the array at hand there is one for each timeout. -/
def Arrays (heap : Ptr → Option EpollBlock) (timeouts : Nat) (evs : Option Ptr) : Prop :=
  ∃ l : List Ptr, l.Nodup ∧ l.length = timeouts ∧ (∀ p ∈ evs, p ∉ l) ∧
    ∀ p, heap p = some .events ↔ p ∈ l ∨ evs = some p

theorem Nodes.add (h : Nodes heap ptr op) (hp : heap p = none) (hnew : ¬ op c)
    (hop : ∀ d, op' d ↔ d = c ∨ op d) :
    Nodes (Function.update heap p (some (.epfd c))) (Function.update ptr c p) op' := by
  intro q d
  rw [hop]
  by_cases hq : q = p
  · subst q
    rw [Function.update_self]
    by_cases hd : d = c
    · simp [hd]
    · have hnode : ¬ (op d ∧ p = ptr d) := fun hd => by
        have := (h p d).mpr hd
        simp [hp] at this
      simpa [hd, Ne.symm hd] using hnode
  · rw [Function.update_of_ne hq, h]
    by_cases hd : d = c
    · simp [hd, hq, hnew]
    · simp [hd]

theorem Nodes.remove (h : Nodes heap ptr op) (hc : op c) (hop : ∀ d, op' d ↔ d ≠ c ∧ op d) :
    Nodes (Function.update heap (ptr c) none) ptr op' := by
  intro q d
  rw [hop]
  by_cases hd : d = c
  · by_cases hq : q = ptr c <;> simp [hd, hq, h q c]
  · have hother : op d → ptr d ≠ ptr c := by
      intro hopen heq
      have hown := (h (ptr c) c).mpr ⟨hc, rfl⟩
      rw [← heq, (h (ptr d) d).mpr ⟨hopen, rfl⟩] at hown
      exact hd (by simpa using hown)
    by_cases hq : q = ptr c
    · subst q
      rw [Function.update_self]
      simp only [reduceCtorEq, false_iff, not_and]
      exact fun hopen heq => hother hopen.2 heq.symm
    · rw [Function.update_of_ne hq, h]
      simp [hd]

theorem Nodes.other (h : Nodes heap ptr op) (hp : ∀ c, heap p ≠ some (.epfd c))
    (hb : ∀ c, b ≠ some (.epfd c)) : Nodes (Function.update heap p b) ptr op := by
  intro q d
  rw [← h]
  by_cases hq : q = p
  · subst q
    simp [hp d, hb d]
  · rw [Function.update_of_ne hq]

theorem Arrays.other (h : Arrays heap timeouts evs) (hp : heap p ≠ some .events)
    (hb : b ≠ some .events) : Arrays (Function.update heap p b) timeouts evs := by
  obtain ⟨l, hnodup, hlen, hdis, hevents⟩ := h
  refine ⟨l, hnodup, hlen, hdis, fun q => ?_⟩
  rw [← hevents]
  by_cases hq : q = p
  · subst q
    simp [hp, hb]
  · rw [Function.update_of_ne hq]

theorem Arrays.wait (h : Arrays heap timeouts none) (hp : heap p = none) :
    Arrays (Function.update heap p (some .events)) timeouts (some p) := by
  obtain ⟨l, hnodup, hlen, -, hevents⟩ := h
  have hnew : p ∉ l := fun hmem => by
    have := (hevents p).mpr (.inl hmem)
    simp [hp] at this
  refine ⟨l, hnodup, hlen, by simpa using hnew, fun q => ?_⟩
  by_cases hq : q = p
  · simp [hq]
  · rw [Function.update_of_ne hq, hevents]
    simp [Ne.symm hq]

theorem Arrays.timeout (h : Arrays heap timeouts none) (hp : heap p = none) :
    Arrays (Function.update heap p (some .events)) (timeouts + 1) none := by
  obtain ⟨l, hnodup, hlen, hdis, hevents⟩ := h.wait hp
  refine ⟨p :: l, List.nodup_cons.mpr ⟨hdis p rfl, hnodup⟩, by simp [hlen], by simp, fun q => ?_⟩
  rw [hevents]
  simp [or_comm, eq_comm]

theorem Arrays.heap_evs (h : Arrays heap timeouts evs) (hp : evs = some p) :
    heap p = some .events := by
  obtain ⟨l, -, -, -, hevents⟩ := h
  exact (hevents p).mpr (.inr hp)

theorem Arrays.free (h : Arrays heap timeouts (some p)) :
    Arrays (Function.update heap p none) timeouts none := by
  obtain ⟨l, hnodup, hlen, hdis, hevents⟩ := h
  refine ⟨l, hnodup, hlen, by simp, fun q => ?_⟩
  by_cases hq : q = p
  · subst q
    simpa using hdis _ rfl
  · rw [Function.update_of_ne hq, hevents]
    simp [Ne.symm hq]

end Heap

/-- The reports at hand are `cs`; they point to nodes of different open descriptors. -/
structure Sound (s : EpollMemory) (cs : List (Sock × Interest)) : Prop where
  idle : s.evs = none → cs = []
  registered : s.server.Registered
  noEvs : s.server.evs = []
  reports : s.reports = cs.map fun e => (s.ptr e.1, e.2)
  distinct : (cs.map Prod.fst).Nodup
  opened : ∀ e ∈ cs, s.server.Open e.1
  nodes : Nodes s.heap s.ptr s.server.Open
  arrays : Arrays s.heap s.timeouts s.evs

variable {s t : EpollMemory} {cs : List (Sock × Interest)} {c : Sock} {i : Interest}
  {o : EpollServer.Outcomes} {node : Option Ptr}

theorem Sound.heap_ptr (h : s.Sound cs) (hc : s.server.Open c) :
    s.heap (s.ptr c) = some (.epfd c) := (h.nodes _ c).mpr ⟨hc, rfl⟩

theorem sound_start (listensock : Sock) (n : Nat) (p : Ptr) : (start listensock n p).Sound [] := by
  refine ⟨fun _ => rfl, ⟨List.nodup_nil, by simp [start, EpollServer.start], fun c hc => ?_⟩, rfl, rfl,
    List.nodup_nil, by simp, fun q c => ?_, ⟨[], List.nodup_nil, rfl, by simp [start], fun q => ?_⟩⟩
  · by_cases hl : c = listensock
    · exact .inl hl
    · simp [start, EpollServer.start, hl, Watched.unwatched] at hc
  · by_cases hq : q = p
    · simp [start, EpollServer.start, EpollServer.Open, hq, eq_comm]
    · simp [start, hq]
  · by_cases hq : q = p <;> simp [start, hq]

/-- The server does something that leaves its descriptors open. -/
theorem Sound.server (h : s.Sound cs) {server : EpollServer} (hreg : server.Registered)
    (hevs : server.evs = []) (hsock : server.listensock = s.server.listensock)
    (hlive : server.live = s.server.live) : { s with server := server }.Sound cs := by
  have hopen : server.Open = s.server.Open := by
    funext c
    rw [EpollServer.Open, EpollServer.Open, hsock, hlive]
  refine ⟨h.idle, hreg, hevs, h.reports, h.distinct, ?_, ?_, h.arrays⟩
  · rw [hopen]
    exact h.opened
  · rw [hopen]
    exact h.nodes

theorem Sound.accepted (h : s.Sound cs) {server : EpollServer} (hreg : server.Registered)
    (hevs : server.evs = []) (hsock : server.listensock = s.server.listensock) {sock : Sock}
    (hlive : server.live = sock :: s.server.live) {p : Ptr} (hp : s.heap p = none) :
    { s with
      server := server
      ptr := Function.update s.ptr sock p
      heap := Function.update s.heap p (some (.epfd sock)) }.Sound cs := by
  have hnew : ¬ s.server.Open sock := by
    have hnodup := hreg.nodup
    have hlistens := hreg.listens
    rw [hlive] at hnodup hlistens
    rw [hsock] at hlistens
    rintro (heq | hmem)
    · exact hlistens (heq ▸ List.mem_cons_self)
    · exact (List.nodup_cons.mp hnodup).1 hmem
  have hopen : ∀ d, server.Open d ↔ d = sock ∨ s.server.Open d := fun d => by
    rw [EpollServer.Open, EpollServer.Open, hsock, hlive, List.mem_cons]
    tauto
  refine ⟨h.idle, hreg, hevs, ?_, h.distinct, fun e he => (hopen e.1).mpr (.inr (h.opened e he)),
    h.nodes.add hp hnew hopen, h.arrays.other (by simp [hp]) (by simp)⟩
  rw [h.reports]
  apply List.map_congr_left
  intro e he
  have hold : e.1 ≠ sock := fun heq => hnew (heq ▸ h.opened e he)
  simp [hold]

theorem Sound.closed (h : s.Sound cs) {server : EpollServer} (hreg : server.Registered)
    (hevs : server.evs = []) (hsock : server.listensock = s.server.listensock)
    (hc : c ∈ s.server.live) (hlive : server.live = s.server.live.erase c)
    (hnot : c ∉ cs.map Prod.fst) :
    { s with server := server, heap := Function.update s.heap (s.ptr c) none }.Sound cs := by
  have hne : c ≠ s.server.listensock := fun heq => h.registered.listens (heq ▸ hc)
  have hopen : ∀ d, server.Open d ↔ d ≠ c ∧ s.server.Open d := fun d => by
    rw [EpollServer.Open, EpollServer.Open, hsock, hlive, h.registered.nodup.mem_erase_iff]
    by_cases hd : d = c
    · simp [hd, hne]
    · simp [hd]
  refine ⟨h.idle, hreg, hevs, h.reports, h.distinct, fun e he => (hopen e.1).mpr ⟨fun heq => ?_,
    h.opened e he⟩, h.nodes.remove (.inr hc) hopen,
    h.arrays.other (by simp [h.heap_ptr (.inr hc)]) (by simp)⟩
  exact hnot (heq ▸ List.mem_map_of_mem he)

theorem Sound.tail (h : s.Sound ((c, i) :: cs)) :
    { s with reports := cs.map fun e : Sock × Interest => (s.ptr e.1, e.2) }.Sound cs :=
  ⟨fun hnone => absurd (h.idle hnone) (List.cons_ne_nil _ _), h.registered, h.noEvs, rfl,
    (List.nodup_cons.mp h.distinct).2,
    fun e he => h.opened e (List.mem_cons_of_mem _ he), h.nodes, h.arrays⟩

theorem Sound.getepfd (h : s.Sound ((c, .input) :: cs)) (hl : c = s.server.listensock)
    (hreg : (s.server.dispatch c o .input).Registered)
    (hevs : (s.server.dispatch c o .input).evs = []) (hnode : ∀ q ∈ node, s.heap q = none)
    (ht : EpollMemory.getepfd { s with
      server := s.server.dispatch c o .input
      reports := cs.map fun e : Sock × Interest => (s.ptr e.1, e.2) } o node = some t) :
    t.Sound cs ∧ t.server = s.server.dispatch c o .input := by
  have hsock := EpollServer.dispatch_listensock s.server c o .input
  rcases ha : o.accept with - | ⟨sock, n, ended⟩
  · have hlive : (s.server.dispatch c o .input).live = s.server.live := by
      simp [EpollServer.dispatch, hl, EpollServer.acceptClient, ha]
    simp only [EpollMemory.getepfd, ha] at ht
    obtain rfl := Option.some.inj ht
    exact ⟨h.tail.server hreg hevs hsock hlive, rfl⟩
  · cases node with
    | none => simp [EpollMemory.getepfd, ha] at ht
    | some p =>
      simp only [EpollMemory.getepfd, ha] at ht
      by_cases hadd : o.add = true
      · have hlive : (s.server.dispatch c o .input).live = sock :: s.server.live := by
          simp [EpollServer.dispatch, hl, EpollServer.acceptClient, ha, hadd,
            EpollServer.setWatched]
        rw [if_pos hadd] at ht
        obtain rfl := Option.some.inj ht
        exact ⟨h.tail.accepted hreg hevs hsock hlive (hnode p rfl), rfl⟩
      · have hlive : (s.server.dispatch c o .input).live = s.server.live := by
          simp [EpollServer.dispatch, hl, EpollServer.acceptClient, ha, hadd,
            EpollServer.setWatched]
        rw [if_neg hadd] at ht
        obtain rfl := Option.some.inj ht
        exact ⟨h.tail.server hreg hevs hsock hlive, rfl⟩

/-- A report finds its node, and leads to what the server does for it. -/
theorem Sound.handle (h : s.Sound ((c, i) :: cs)) (hp : s.server.Possible c o i)
    (hnode : ∀ q ∈ node, s.heap q = none) (ht : s.handle o node = some t) :
    t.Sound cs ∧ t.server = s.server.dispatch c o i := by
  have hopen : s.server.Open c := h.opened (c, i) List.mem_cons_self
  have hhandled := EpollServer.handled s.server c o i
  have hreg := h.registered.handle hhandled hp hopen
  have hevs := hhandled.evs.trans h.noEvs
  simp only [EpollMemory.handle, h.reports, List.map_cons, h.heap_ptr hopen] at ht
  have hsock := EpollServer.dispatch_listensock s.server c o i
  cases i with
  | output =>
    obtain rfl := Option.some.inj ht
    exact ⟨h.tail.server hreg hevs hsock (EpollServer.dispatch_live_output ..), rfl⟩
  | input =>
    by_cases hl : c = s.server.listensock
    · simp only [reduceCtorEq, if_false, if_pos hl] at ht
      exact h.getepfd hl hreg hevs hnode ht
    · simp only [reduceCtorEq, if_false, if_neg hl] at ht
      by_cases hread : o.read = some 0
      · rw [if_pos hread] at ht
        obtain rfl := Option.some.inj ht
        have hclosed : s.server.dispatch c o .input =
            { s.server.setWatched c .unwatched with live := s.server.live.erase c } := by
          simp [EpollServer.dispatch, hl, hread, EpollServer.readClient]
        refine ⟨h.tail.closed hreg hevs hsock (hopen.resolve_left hl) ?_
          (List.nodup_cons.mp h.distinct).1, rfl⟩
        rw [hclosed]
      · rw [if_neg hread] at ht
        obtain rfl := Option.some.inj ht
        exact ⟨h.tail.server hreg hevs hsock (EpollServer.dispatch_live_read _ hl hread), rfl⟩

theorem Sound.env (h : s.Sound cs) (c : Sock) {w : Watched}
    (hw : w.armed = (s.server.watched c).armed) :
    { s with server := s.server.setWatched c w }.Sound cs := by
  have hreg : (s.server.setWatched c w).Registered := by
    apply h.registered.setWatched
    rw [hw]
    exact h.registered.armed c
  exact h.server hreg h.noEvs rfl rfl

theorem Sound.wait (h : s.Sound cs) {evs : List (Sock × Interest)} {block : Ptr}
    (ha : s.Enabled (.wait evs block)) (ht : s.next (.wait evs block) = some t) :
    t.Sound evs := by
  obtain ⟨hnone, ⟨-, -, -, -, hdistinct, hdue⟩, hfree⟩ := ha
  obtain rfl := Option.some.inj ht
  have harmed : ∀ c, ((s.server.next (.wait evs)).watched c).armed = (s.server.watched c).armed := by
    intro c
    simp only [EpollServer.next]
    split <;> rfl
  have harrays := h.arrays
  rw [hnone] at harrays
  refine ⟨by simp, ⟨h.registered.nodup, h.registered.listens, fun c hc => ?_⟩, rfl, rfl, hdistinct,
    fun e he => ?_, h.nodes.other (by simp [hfree]) (by simp), harrays.wait hfree⟩
  · exact h.registered.armed c (harmed c ▸ hc)
  · have hopen := h.registered.armed e.1 (by simp [(hdue e he).2])
    exact hopen

/-- Each step is none or one of the server. -/
theorem Sound.step (h : s.Sound cs) {a : Act} (ha : s.Enabled a) (ht : s.next a = some t) :
    ∃ cs', t.Sound cs' ∧ Reachable (EpollServer.Step fun _ _ => True)
      { s.server with evs := cs } { t.server with evs := cs' } := by
  cases a with
  | arrive c n =>
    obtain rfl := Option.some.inj ht
    exact ⟨cs, h.env c rfl, .single (.act (.arrive c n) ha trivial)⟩
  | hangUp c =>
    obtain rfl := Option.some.inj ht
    exact ⟨cs, h.env c rfl, .single (.act (.hangUp c) ha trivial)⟩
  | drained c =>
    obtain rfl := Option.some.inj ht
    exact ⟨cs, h.env c rfl, .single (.act (.drained c) ha trivial)⟩
  | wait evs block =>
    have hwait := h.wait ha ht
    obtain rfl := Option.some.inj ht
    obtain rfl := h.idle ha.1
    obtain ⟨hpolling, -, hrest⟩ := ha.2.1
    exact ⟨evs, hwait, .single (.act (.wait evs) ⟨hpolling, rfl, hrest⟩ trivial)⟩
  | timeout block =>
    obtain ⟨hnone, -, hfree⟩ := ha
    obtain rfl := Option.some.inj ht
    have harrays := h.arrays
    rw [hnone] at harrays
    have hmore := harrays.timeout hfree
    rw [← hnone] at hmore
    exact ⟨cs, ⟨h.idle, h.registered, h.noEvs, h.reports, h.distinct, h.opened,
      h.nodes.other (by simp [hfree]) (by simp), hmore⟩, .refl⟩
  | waitFails =>
    obtain rfl := Option.some.inj ht
    obtain rfl := h.idle ha
    have hreg : (s.server.next .waitFails).Registered :=
      ⟨h.registered.nodup, h.registered.listens, fun c hc => absurd rfl hc⟩
    exact ⟨[], h.server hreg h.noEvs rfl rfl, .single (.act .waitFails rfl trivial)⟩
  | handle o node =>
    cases cs with
    | nil =>
      simp [Enabled, h.reports] at ha
    | cons e cs =>
      obtain ⟨c, i⟩ := e
      have hptr := h.heap_ptr (h.opened (c, i) List.mem_cons_self)
      simp only [Enabled, h.reports, List.map_cons, hptr] at ha
      have hp := ha.1 c rfl
      obtain ⟨hsound, hserver⟩ := h.handle hp ha.2 ht
      have hnext : EpollServer.Step (fun _ _ => True) { s.server with evs := (c, i) :: cs } _ :=
        .act (.handle o) hp trivial
      refine ⟨cs, hsound, .single ?_⟩
      rw [hserver]
      simp only [EpollServer.next] at hnext
      rwa [EpollServer.dispatch_evs] at hnext
  | scanned =>
    obtain ⟨hsome, hreports⟩ := ha
    obtain ⟨block, hblock⟩ := Option.isSome_iff_exists.mp hsome
    have hevents := h.arrays.heap_evs hblock
    have hnil : cs = [] := List.map_eq_nil_iff.mp (h.reports.symm.trans hreports)
    simp only [next, hblock, if_pos hevents] at ht
    obtain rfl := Option.some.inj ht
    have harrays := h.arrays
    rw [hblock] at harrays
    exact ⟨cs, ⟨fun _ => hnil, h.registered, h.noEvs, h.reports, h.distinct, h.opened,
      h.nodes.other (by simp [hevents]) (by simp), harrays.free⟩, .refl⟩

def OutOfMemory (s : EpollMemory) : Act → Prop
  | .handle o none => o.accept.isSome = true ∧
      s.reports.head? = some (s.ptr s.server.listensock, .input)
  | _ => False

theorem getepfd_eq_none (s : EpollMemory) (o : EpollServer.Outcomes) (node : Option Ptr) :
    s.getepfd o node = none ↔ o.accept.isSome = true ∧ node = none := by
  rcases hacc : o.accept with - | ⟨sock, n, ended⟩
  · simp [getepfd, hacc]
  · cases node with
    | none => simp [getepfd, hacc]
    | some p => by_cases hadd : o.add = true <;> simp [getepfd, hacc, hadd]

/-- Only a node that `malloc` did not give is written without being there. -/
theorem Sound.next_eq_none (h : s.Sound cs) {a : Act} (ha : s.Enabled a) :
    s.next a = none ↔ s.OutOfMemory a := by
  cases a with
  | handle o node =>
    cases cs with
    | nil => simp [Enabled, h.reports] at ha
    | cons e cs =>
      obtain ⟨c, i⟩ := e
      have hopen := h.opened (c, i) List.mem_cons_self
      have hptr := h.heap_ptr hopen
      have hsame : s.ptr c = s.ptr s.server.listensock → c = s.server.listensock := fun heq => by
        have hlisten := h.heap_ptr (.inl rfl)
        rw [← heq, hptr] at hlisten
        simpa using hlisten
      have hstarved : s.OutOfMemory (.handle o node) ↔
          node = none ∧ o.accept.isSome = true ∧ c = s.server.listensock ∧ i = .input := by
        cases node with
        | none =>
          simp only [OutOfMemory, h.reports, List.map_cons, List.head?_cons, Option.some.injEq,
            Prod.mk.injEq, true_and]
          exact and_congr_right fun _ => and_congr_left fun _ => ⟨hsame, congrArg s.ptr⟩
        | some p => simp [OutOfMemory]
      rw [hstarved]
      simp only [next, EpollMemory.handle, h.reports, List.map_cons, hptr]
      cases i with
      | output => simp
      | input =>
        by_cases hl : c = s.server.listensock
        · simp [hl, getepfd_eq_none, and_comm]
        · by_cases hread : o.read = some 0 <;> simp [hl, hread]
  | scanned =>
    obtain ⟨block, hblock⟩ := Option.isSome_iff_exists.mp ha.1
    simp [next, hblock, h.arrays.heap_evs hblock, OutOfMemory]
  | _ => simp [next, OutOfMemory]

theorem sound_of_reachable {listensock : Sock} {n : Nat} {p : Ptr}
    (h : Reachable Step (start listensock n p) s) :
    ∃ cs, s.Sound cs ∧ Reachable (EpollServer.Step fun _ _ => True) (.start listensock n)
      { s.server with evs := cs } := by
  apply h.invariant (fun s => ∃ cs, s.Sound cs ∧ Reachable (EpollServer.Step fun _ _ => True)
    (.start listensock n) { s.server with evs := cs })
  · exact ⟨[], sound_start listensock n p, .refl⟩
  · rintro a b ⟨cs, hsound, hrun⟩ ⟨act, ha, ht⟩
    obtain ⟨cs', hsound', hsteps⟩ := hsound.step ha ht
    exact ⟨cs', hsound', hrun.trans hsteps⟩

/-- In every run the memory is as the server needs it: the reports point to the
nodes of the descriptors they are for, every node is that of an open descriptor,
one array is lost with each timeout, and no access can fail but that to a node
that `malloc` did not give. -/
theorem epoll_memory {listensock : Sock} {n : Nat} {p : Ptr}
    (h : Reachable Step (start listensock n p) s) :
    (∃ evs, s.reports = evs.map (fun e => (s.ptr e.1, e.2)) ∧
      Reachable (EpollServer.Step fun _ _ => True) (.start listensock n)
        { s.server with evs := evs }) ∧
    (∀ q c, s.heap q = some (.epfd c) ↔ (c = listensock ∨ c ∈ s.server.live) ∧ q = s.ptr c) ∧
    (∃ l : List Ptr, l.Nodup ∧ l.length = s.timeouts ∧
      ∀ q, s.heap q = some .events ↔ q ∈ l ∨ s.evs = some q) ∧
    ∀ a, s.Enabled a → (s.next a = none ↔ s.OutOfMemory a) := by
  obtain ⟨cs, hsound, hrun⟩ := sound_of_reachable h
  obtain ⟨l, hnodup, hlen, -, hevents⟩ := hsound.arrays
  refine ⟨⟨cs, hsound.reports, hrun⟩, fun q c => ?_, ⟨l, hnodup, hlen, hevents⟩,
    fun a ha => hsound.next_eq_none ha⟩
  have hsock := EpollServer.reachable_listensock hrun
  change s.server.listensock = listensock at hsock
  rw [hsound.nodes, EpollServer.Open, hsock]

/-- A client has left, after a timeout. -/
theorem epoll_memory_left : ∃ s, Reachable Step (start 3 1 100) s ∧ s.timeouts = 1 ∧
    s.server.live = [] ∧
    ∃ l : List Ptr, l.Nodup ∧ l.length = s.timeouts ∧
      ∀ q, s.heap q = some .events ↔ q ∈ l ∨ s.evs = some q := by
  let left : EpollServer.Outcomes := ⟨some (4, 0, true), true, some 0, true, true, true⟩
  have hrun : Reachable Step (start 3 1 100) _ :=
    .single (.act (.timeout 101) ⟨rfl, rfl, rfl⟩ rfl)
  have hrun := hrun.tail (.act (.wait [(3, .input)] 102) ⟨rfl, by decide, rfl⟩ rfl)
  have hrun := hrun.tail (.act (.handle left (some 103)) ⟨fun jfd hj => by
    obtain rfl : 3 = jfd := EpollBlock.epfd.inj (Option.some.inj hj)
    decide, fun q hq => by
    obtain rfl : 103 = q := Option.some.inj hq
    rfl⟩ rfl)
  have hrun := hrun.tail (.act .scanned ⟨rfl, rfl⟩ rfl)
  have hrun := hrun.tail (.act (.wait [(4, .input)] 102) ⟨rfl, by decide, rfl⟩ rfl)
  have hrun := hrun.tail (.act (.handle left none) ⟨fun jfd hj => by
    obtain rfl : 4 = jfd := EpollBlock.epfd.inj (Option.some.inj hj)
    decide, by simp⟩ rfl)
  exact ⟨_, hrun, rfl, rfl, (epoll_memory hrun).2.2.1⟩

end EpollMemory

end LinuxStudy

import LinuxStudy.SentinelList

/-! The producers and the consumers access by access: inside `IsEmpty`,
`Push_head` and `Pop_head` a thread makes one access to the list at a time, and
the other threads may move between any two. A bad access ends the process. -/

namespace LinuxStudy

def Heap.setData (m : Heap) (p : Option Addr) (data : Int) : Except Fault Heap :=
  match p with
  | none => .error .null
  | some a =>
    match m.node a with
    | none => .error .dangling
    | some node =>
      .ok { m with node := Function.update m.node a (some { node with data := data }) }

inductive ListThread
  | rand
  | lock (data : Int)
  | malloc (data : Int)
  | setData (newNode : Option Addr) (data : Int)
  | setNext (newNode : Option Addr) (data : Int)
  | loadHead (newNode : Option Addr) (data : Int)
  | link (newNode next : Option Addr) (data : Int)
  | hang (newNode : Option Addr) (data : Int)
  | unlock (data : Int)
  | sell (data : Int)
  | signal
  | fetch
  | test
  | wait
  | asleep
  | relock
  | popTest
  | loadDel
  | loadNext (del : Option Addr)
  | unlink (del next : Option Addr)
  | loadData (del : Option Addr)
  | free (del : Option Addr) (data : Int)
  | leave (data : Int)
  | get (data : Int)

namespace ListThread

/-- The access a thread makes next, and where it is after it. `Pop_head` leaves the
`data` of the consumer at 0 when it finds the list empty. -/
def access (head : Addr) (m : Heap) : ListThread → Option (Except Fault (ListThread × Heap))
  | setData newNode data => some do
    let m ← m.setData newNode data
    return (setNext newNode data, m)
  | setNext newNode data => some do
    let m ← m.setNext newNode none
    return (loadHead newNode data, m)
  | loadHead newNode data => some do
    let node ← m.load (some head)
    return (link newNode node.next data, m)
  | link newNode next data => some do
    let m ← m.setNext newNode next
    return (hang newNode data, m)
  | hang newNode data => some do
    let m ← m.setNext (some head) newNode
    return (unlock data, m)
  | test => some do
    return (if (← m.isEmpty (some head)) = 0 then wait else popTest, m)
  | popTest => some do
    return (if (← m.isEmpty (some head)) ≠ 0 then loadDel else leave 0, m)
  | loadDel => some do
    let node ← m.load (some head)
    return (loadNext node.next, m)
  | loadNext del => some do
    let node ← m.load del
    return (unlink del node.next, m)
  | unlink del next => some do
    let m ← m.setNext (some head) next
    return (loadData del, m)
  | loadData del => some do
    let node ← m.load del
    return (free del node.data, m)
  | free del data => some do
    let m ← m.delNode del
    return (leave data, m)
  | rand | lock _ | malloc _ | unlock _ | sell _ | signal | fetch | wait | asleep | relock
  | leave _ | get _ => none

def created (data : Int) : Option Addr → ListThread
  | none => loadHead none data
  | some a => setData (some a) data

def holds : ListThread → Bool
  | malloc _ | setData _ _ | setNext _ _ | loadHead _ _ | link _ _ _ | hang _ _ | unlock _ | test
  | wait | popTest | loadDel | loadNext _ | unlink _ _ | loadData _ | free _ _ | leave _ => true
  | rand | lock _ | sell _ | signal | fetch | asleep | relock | get _ => false

/-- The node that the thread has and the list has not. -/
def spare : ListThread → Option Addr
  | setData newNode _ | setNext newNode _ | loadHead newNode _ | link newNode _ _
  | hang newNode _ => newNode
  | loadData del | free del _ => del
  | rand | lock _ | malloc _ | unlock _ | sell _ | signal | fetch | test | wait | asleep | relock
  | popTest | loadDel | loadNext _ | unlink _ _ | leave _ | get _ => none

/-- At most `n` accesses of one thread with no other thread between them. -/
def call (head : Addr) : Nat → ListThread → Heap → Except Fault (ListThread × Heap)
  | 0, x, m => .ok (x, m)
  | n + 1, x, m =>
    match x.access head m with
    | none => .ok (x, m)
    | some r => r >>= fun next => call head n next.1 next.2

end ListThread

structure ListSystem (ι : Type*) where
  mutex : Option ι
  heap : Heap
  head : Addr
  thread : ι → ListThread
  got : Multiset Int
  fault : Option Fault

namespace ListSystem

variable {ι : Type*}

def init (producer : ι → Bool) (head : Addr) : ListSystem ι :=
  ⟨none, (Heap.initList ⟨fun _ => none, fun _ => none, []⟩ (some head)).1, head,
    fun i => if producer i then .rand else .fetch, 0, none⟩

def move [DecidableEq ι] (s : ListSystem ι) (i : ι) (x : ListThread) : ListSystem ι :=
  { s with thread := Function.update s.thread i x }

def malloc (m : Heap) (junk : ListNode) : Option Addr → Heap
  | none => m
  | some a => { m with node := Function.update m.node a (some junk) }

/-- A step of the thread `i`. The memory that `malloc` returns is not in use and
holds anything. -/
inductive Step [DecidableEq ι] (i : ι) : ListSystem ι → ListSystem ι → Prop
  | rand {s} (r : Nat) (h : s.thread i = .rand) :
      Step i s (s.move i (.lock ((r % 100000 : Nat) : Int)))
  | lock {s} (data : Int) (h : s.thread i = .lock data) (hm : s.mutex = none) :
      Step i s { s.move i (.malloc data) with mutex := some i }
  | malloc {s} (data : Int) (junk : ListNode) (newNode : Option Addr)
      (h : s.thread i = .malloc data) (hnew : ∀ a ∈ newNode, s.heap.node a = none) :
      Step i s { s.move i (.created data newNode) with heap := malloc s.heap junk newNode }
  | access {s} (x : ListThread) (m : Heap)
      (h : (s.thread i).access s.head s.heap = some (.ok (x, m))) :
      Step i s { s.move i x with heap := m }
  | fault {s} (f : Fault) (h : (s.thread i).access s.head s.heap = some (.error f)) :
      Step i s { s with fault := some f }
  | unlock {s} (data : Int) (h : s.thread i = .unlock data) :
      Step i s { s.move i (.sell data) with mutex := none }
  | sell {s} (data : Int) (h : s.thread i = .sell data) : Step i s (s.move i .signal)
  | signal {s} (j : ι) (h : s.thread i = .signal) (hj : s.thread j = .asleep) :
      Step i s ((s.move j .relock).move i .rand)
  | signalNone {s} (h : s.thread i = .signal) (hj : ∀ j, s.thread j ≠ .asleep) :
      Step i s (s.move i .rand)
  | fetch {s} (h : s.thread i = .fetch) (hm : s.mutex = none) :
      Step i s { s.move i .test with mutex := some i }
  | wait {s} (h : s.thread i = .wait) : Step i s { s.move i .asleep with mutex := none }
  | spurious {s} (h : s.thread i = .asleep) : Step i s (s.move i .relock)
  | relock {s} (h : s.thread i = .relock) (hm : s.mutex = none) :
      Step i s { s.move i .test with mutex := some i }
  | leave {s} (data : Int) (h : s.thread i = .leave data) :
      Step i s { s.move i (.get data) with mutex := none }
  | get {s} (data : Int) (h : s.thread i = .get data) :
      Step i s { s.move i .fetch with got := data ::ₘ s.got }

theorem malloc_node (m : Heap) (junk : ListNode) (a : Addr) :
    (malloc m junk (some a)).node a = some junk := Function.update_self ..

abbrev Moves [DecidableEq ι] (s t : ListSystem ι) : Prop := s.fault = none ∧ ∃ i, Step i s t

end ListSystem

namespace ListThread

theorem ok_bind {ε α β : Type} (a : α) (f : α → Except ε β) : (Except.ok a >>= f) = f a := rfl

theorem setData_some {m : Heap} {a : Addr} {n : ListNode} (h : m.node a = some n) (data : Int) :
    m.setData (some a) data =
      .ok { m with node := Function.update m.node a (some { n with data := data }) } := by
  rw [Heap.setData, h]

/-- The accesses of a push one after the other are `Push_head`, in any heap. -/
theorem call_pushHead (head : Addr) (m : Heap) (junk : ListNode) (newNode : Option Addr)
    (data : Int) :
    call head 5 (created data newNode) (ListSystem.malloc m junk newNode) =
      (fun m => (unlock data, m)) <$> m.pushHead (some head) data newNode := by
  cases newNode with
  | none =>
    simp only [created, call, access, ListSystem.malloc, Heap.pushHead, Heap.creatNode, assert,
      map_bind, bind_assoc, pure_bind]
    rfl
  | some a =>
    have hdata := setData_some (ListSystem.malloc_node m junk a) data
    have hnext := Heap.setNext_some (m := { m with
      node := Function.update m.node a (some ⟨data, junk.next⟩) }) (Function.update_self ..) none
    simp only [ListSystem.malloc, Function.update_idem] at hdata hnext
    simp only [created, call, access, ListSystem.malloc, Heap.pushHead, Heap.creatNode, assert,
      map_bind, bind_assoc, pure_bind, hdata, hnext, ok_bind]
    rfl

/-- The accesses of a pop one after the other are `Pop_head`; what it stores is
what the consumer takes along. -/
theorem call_popHead {p : Addr} (head : Addr) (m : Heap) (hp : m.out p = some 0) :
    call head 6 popTest m = (fun m' => (leave ((m'.out p).getD 0), { m' with out := m.out })) <$>
      m.popHead (some head) (some p) := by
  have hfirst : call head 6 popTest m = (do
      let e ← m.isEmpty (some head)
      call head 5 (if e ≠ 0 then loadDel else leave 0) m) := by
    rw [call, access]
    simp only [bind_assoc, pure_bind]
  rw [hfirst]
  simp only [Heap.popHead, assert, map_bind]
  change _ = m.isEmpty (some head) >>= fun e => _
  congr 1
  funext e
  by_cases he : e = 0
  · simp only [he, call, access, ne_eq, not_true_eq_false, if_false, map_pure, hp]
    rfl
  · simp only [call, access, he, ne_eq, not_false_iff, if_true, bind_assoc, pure_bind, map_bind]
    congr 1
    funext sentinel
    congr 1
    funext del
    simp only [Heap.setNext]
    cases m.node head with
    | none => rfl
    | some h =>
      simp only [ok_bind, Heap.store, hp]
      congr 1
      funext node
      cases sentinel.next with
      | none => rfl
      | some a =>
        simp only [Heap.delNode, Heap.free, assert]
        generalize Function.update m.node head _ = node
        cases node a with
        | none => rfl
        | some n => simp [Functor.map, Except.map, ok_bind]

end ListThread

end LinuxStudy

import LinuxStudy.ChainedCells
import LinuxStudy.ProducerConsumer

/-! The list of the producers and consumers as it lies in the heap, behind a
sentinel. A pointer is an address or NULL; an access that C leaves undefined is
a fault. What `malloc` returns is an argument of the function that calls it. -/

namespace LinuxStudy

abbrev Addr := Nat

structure ListNode where
  data : Int
  next : Option Addr

inductive Fault
  | null | dangling | abort
  deriving DecidableEq

/-- The nodes and the ints that are allocated, and the nodes freed so far. -/
structure Heap where
  node : Addr → Option ListNode
  out : Addr → Option Int
  freed : List Addr

def assert : Option Addr → Except Fault Unit
  | none => .error .abort
  | some _ => .ok ()

namespace Heap

def load (m : Heap) : Option Addr → Except Fault ListNode
  | none => .error .null
  | some a =>
    match m.node a with
    | none => .error .dangling
    | some node => .ok node

def setNext (m : Heap) (p next : Option Addr) : Except Fault Heap :=
  match p with
  | none => .error .null
  | some a =>
    match m.node a with
    | none => .error .dangling
    | some node =>
      .ok { m with node := Function.update m.node a (some { node with next := next }) }

def store (m : Heap) (p : Option Addr) (data : Int) : Except Fault Heap :=
  match p with
  | none => .error .null
  | some a =>
    match m.out a with
    | none => .error .dangling
    | some _ => .ok { m with out := Function.update m.out a (some data) }

def free (m : Heap) : Option Addr → Except Fault Heap
  | none => .ok m
  | some a =>
    match m.node a with
    | none => .error .dangling
    | some _ => .ok { m with node := Function.update m.node a none, freed := m.freed ++ [a] }

def creatNode (m : Heap) (malloc : Option Addr) (data : Int) : Heap × Option Addr :=
  match malloc with
  | none => (m, none)
  | some a => ({ m with node := Function.update m.node a (some ⟨data, none⟩) }, some a)

def initList (m : Heap) (malloc : Option Addr) : Heap × Option Addr := m.creatNode malloc 0

def pushHead (m : Heap) (head : Option Addr) (data : Int) (malloc : Option Addr) :
    Except Fault Heap := do
  assert head
  let (m, newNode) := m.creatNode malloc data
  let node ← m.load head
  let m ← m.setNext newNode node.next
  m.setNext head newNode

def isEmpty (m : Heap) (head : Option Addr) : Except Fault Int := do
  assert head
  let node ← m.load head
  return if node.next = none then 0 else 1

def delNode (m : Heap) (del : Option Addr) : Except Fault Heap := do
  assert del
  m.free del

def popHead (m : Heap) (head data : Option Addr) : Except Fault Heap := do
  assert head
  if (← m.isEmpty head) ≠ 0 then
    let del := (← m.load head).next
    let m ← m.setNext head (← m.load del).next
    let m ← m.store data (← m.load del).data
    m.delNode del
  else
    return m

/-- Calls after `InitList`, with the stack they make. -/
inductive Runs (head : Addr) : List Int → Heap → Prop
  | init (m : Heap) (hfresh : m.node head = none) : Runs head [] (m.initList (some head)).1
  | push {stack : List Int} {m m' : Heap} (h : Runs head stack m) (data : Int) (a : Addr)
      (hfresh : m.node a = none) (hm : m.pushHead (some head) data (some a) = .ok m') :
      Runs head (LinuxStudy.pushHead stack data) m'
  | pop {stack : List Int} {m m' : Heap} (h : Runs head stack m) (p : Addr) (d : Int)
      (hp : m.out p = some d) (hm : m.popHead (some head) (some p) = .ok m') :
      Runs head (LinuxStudy.popHead stack d).1 m'

abbrev PointsTo (m : Heap) : Addr → Addr → Prop := LinuxStudy.PointsTo ListNode.next m.node

abbrev Reaches (m : Heap) : Addr → Addr → Prop := Relation.ReflTransGen m.PointsTo

/-- The cells behind the sentinel `s`. -/
abbrev Chain (m : Heap) (head : Addr) (s : ListNode) (cells : List (Addr × ListNode)) : Prop :=
  ChainFrom ListNode.next m.node (some head) ((head, s) :: cells)

section Access

variable {m : Heap} {a : Addr} {n : ListNode}

theorem load_some (h : m.node a = some n) : m.load (some a) = .ok n := by
  rw [load, h]

theorem load_dangling (h : m.node a = none) : m.load (some a) = .error .dangling := by
  rw [load, h]

theorem setNext_some (h : m.node a = some n) (next : Option Addr) :
    m.setNext (some a) next =
      .ok { m with node := Function.update m.node a (some { n with next := next }) } := by
  rw [setNext, h]

theorem store_some {d : Int} (h : m.out a = some d) (data : Int) :
    m.store (some a) data = .ok { m with out := Function.update m.out a (some data) } := by
  rw [store, h]

theorem delNode_some (h : m.node a = some n) : m.delNode (some a) =
    .ok { m with node := Function.update m.node a none, freed := m.freed ++ [a] } := by
  change m.free (some a) = _
  rw [free, h]

end Access

section Chain

variable {m : Heap} {head a p : Addr} {s n : ListNode} {cells : List (Addr × ListNode)}

theorem Chain.sentinel (h : m.Chain head s cells) : m.node head = some s :=
  h.allocated List.mem_cons_self

theorem Chain.rest (h : m.Chain head s cells) : ChainFrom ListNode.next m.node s.next cells := by
  cases h with
  | cons _ h => exact h

theorem Chain.first (h : m.Chain head s ((a, n) :: cells)) :
    s.next = some a ∧ m.node a = some n ∧ ChainFrom ListNode.next m.node n.next cells := by
  have hrest := h.rest
  generalize s.next = next at hrest
  cases hrest with
  | cons ha h => exact ⟨rfl, ha, h⟩

theorem Chain.isEmpty (h : m.Chain head s cells) :
    m.isEmpty (some head) = .ok (if s.next = none then 0 else 1) := by
  change m.load (some head) >>= _ = _
  rw [load_some h.sentinel]
  rfl

theorem Chain.nil_iff (h : m.Chain head s cells) : cells = [] ↔ s.next = none := by
  have hrest := h.rest
  constructor
  · rintro rfl
    generalize s.next = next at hrest
    cases hrest
    rfl
  · intro hnext
    rw [hnext] at hrest
    cases hrest
    rfl

theorem Chain.pushHead_eq (h : m.Chain head s cells) (ha : m.node a = none) (data : Int) :
    m.pushHead (some head) data (some a) = .ok { m with
      node := Function.update (Function.update m.node a (some ⟨data, s.next⟩)) head
        (some ⟨s.data, some a⟩) } := by
  have hne : head ≠ a := fun heq => by
    rw [← heq, h.sentinel] at ha
    cases ha
  have hload : ∀ node, Function.update m.node a node head = some s := fun node => by
    rw [Function.update_of_ne hne, h.sentinel]
  change (Heap.load { m with node := Function.update m.node a (some ⟨data, none⟩) } (some head) >>=
    fun node => _) = _
  rw [load_some (hload _)]
  change (setNext _ (some a) s.next >>= fun m => m.setNext (some head) (some a)) = _
  rw [setNext_some (Function.update_self ..)]
  change setNext _ (some head) (some a) = _
  rw [setNext_some (n := s) (by simpa using hload _)]
  simp

theorem Chain.pushed (h : m.Chain head s cells) (ha : m.node a = none) (data : Int) :
    Chain { m with
      node := Function.update (Function.update m.node a (some ⟨data, s.next⟩)) head
        (some ⟨s.data, some a⟩) } head ⟨s.data, some a⟩ ((a, ⟨data, s.next⟩) :: cells) := by
  have hne : a ≠ head := fun heq => by
    rw [heq, h.sentinel] at ha
    cases ha
  have hcells := List.nodup_cons.mp h.nodup
  have hnew : a ∉ cells.map Prod.fst := fun hmem => h.not_mem ha (List.mem_cons_of_mem _ hmem)
  refine .cons (Function.update_self ..) (.cons ?_ ?_)
  · simp [hne]
  · exact (h.rest.update _ hnew).update _ hcells.1

/-- The first node is unlinked and its value stored before it is freed. -/
def popped (m : Heap) (head p : Addr) (s n : ListNode) : Heap := { m with
  node := Function.update m.node head (some { s with next := n.next })
  out := Function.update m.out p (some n.data) }

theorem Chain.popHead_nil (h : m.Chain head s []) (data : Option Addr) :
    m.popHead (some head) data = .ok m := by
  change (m.isEmpty (some head) >>= _) = _
  rw [h.isEmpty, if_pos (h.nil_iff.mp rfl)]
  rfl

theorem Chain.popHead_store (h : m.Chain head s ((a, n) :: cells)) (data : Option Addr) :
    m.popHead (some head) data =
      (Heap.store { m with node := Function.update m.node head (some { s with next := n.next }) }
        data n.data >>= fun m => m.delNode (some a)) := by
  obtain ⟨hnext, ha, hrest⟩ := h.first
  have hne : a ≠ head := Ne.symm (List.ne_of_not_mem_cons (List.nodup_cons.mp h.nodup).1)
  change (m.isEmpty (some head) >>= _) = _
  rw [h.isEmpty, hnext, if_neg nofun]
  change (m.load (some head) >>= _) = _
  rw [load_some h.sentinel]
  change (m.load s.next >>= _) = _
  rw [hnext, load_some ha]
  change (m.setNext (some head) n.next >>= _) = _
  rw [setNext_some h.sentinel]
  change (load _ (some a) >>= _) = _
  rw [load_some (n := n) (by simpa [hne] using ha)]
  rfl

theorem Chain.unlinked (h : m.Chain head s ((a, n) :: cells)) (p : Addr) :
    (m.popped head p s n).Chain head { s with next := n.next } cells := by
  have hcells := List.nodup_cons.mp h.nodup
  have hhead : head ∉ cells.map Prod.fst := fun hmem => hcells.1 (List.mem_cons_of_mem a hmem)
  exact .cons (Function.update_self ..) (h.first.2.2.update _ hhead)

theorem Chain.not_reaches (h : m.Chain head s ((a, n) :: cells)) (p : Addr) :
    ¬ (m.popped head p s n).Reaches head a := by
  refine (h.unlinked p).reaches_iff.not.mpr ?_
  have hcells := List.nodup_cons.mp h.nodup
  have hrest := List.nodup_cons.mp hcells.2
  intro hmem
  rcases List.mem_cons.mp hmem with heq | hmem
  · exact hcells.1 (heq ▸ List.mem_cons_self)
  · exact hrest.1 hmem

theorem Chain.popHead_eq (h : m.Chain head s ((a, n) :: cells)) {d : Int} (hp : m.out p = some d) :
    m.popHead (some head) (some p) = (m.popped head p s n).delNode (some a) := by
  have hstore := store_some (m := { m with
    node := Function.update m.node head (some { s with next := n.next }) }) hp n.data
  rw [h.popHead_store, hstore]
  rfl

theorem Chain.delNode_eq (h : m.Chain head s ((a, n) :: cells)) (p : Addr) :
    (m.popped head p s n).delNode (some a) = .ok { m.popped head p s n with
      node := Function.update (m.popped head p s n).node a none, freed := m.freed ++ [a] } := by
  have hne : a ≠ head := Ne.symm (List.ne_of_not_mem_cons (List.nodup_cons.mp h.nodup).1)
  have ha : (m.popped head p s n).node a = some n :=
    (Function.update_of_ne hne ..).trans h.first.2.1
  exact delNode_some ha

theorem Chain.freed (h : m.Chain head s ((a, n) :: cells)) (p : Addr) (freed : List Addr) :
    Chain { m.popped head p s n with
      node := Function.update (m.popped head p s n).node a none, freed := freed } head
      { s with next := n.next } cells := by
  refine (h.unlinked p).update none fun hmem => h.not_reaches p ?_
  exact (h.unlinked p).reaches_iff.mpr hmem

end Chain

section Runs

variable {m : Heap} {head : Addr} {stack : List Int}

theorem Runs.chain (h : Runs head stack m) :
    ∃ s cells, m.Chain head s cells ∧ cells.map (fun c => c.2.data) = stack := by
  induction h with
  | init m hfresh => exact ⟨⟨0, none⟩, [], .cons (Function.update_self ..) .nil, rfl⟩
  | push _ data a hfresh hm ih =>
    obtain ⟨s, cells, hchain, hdata⟩ := ih
    rw [hchain.pushHead_eq hfresh] at hm
    rw [← Except.ok.inj hm, ← hdata]
    exact ⟨_, _, hchain.pushed hfresh data, rfl⟩
  | pop _ p d hp hm ih =>
    obtain ⟨s, cells, hchain, hdata⟩ := ih
    cases cells with
    | nil =>
      rw [hchain.popHead_nil] at hm
      rw [← Except.ok.inj hm, ← hdata]
      exact ⟨s, [], hchain, rfl⟩
    | cons c cells =>
      rw [hchain.popHead_eq hp, hchain.delNode_eq] at hm
      rw [← Except.ok.inj hm, ← hdata]
      exact ⟨_, cells, hchain.freed p _, rfl⟩

end Runs

/-- What can be reached from the sentinel is one finite chain of allocated
nodes, whose data are the stack. -/
structure Represents (m : Heap) (head : Addr) (cells : List (Addr × ListNode))
    (stack : List Int) : Prop where
  chain : ∃ s, m.Chain head s cells
  data : cells.map (fun c => c.2.data) = stack
  distinct : (head :: cells.map Prod.fst).Nodup
  reaches : ∀ a, m.Reaches head a ↔ a ∈ head :: cells.map Prod.fst
  allocated : ∀ a, m.Reaches head a → m.node a ≠ none
  acyclic : ∀ a, m.Reaches head a → ¬ Relation.TransGen m.PointsTo a a

/-- `Pop_head` frees the node `a`, which cannot be reached any more, and returns
its value. -/
structure Pops (m : Heap) (head p : Addr) (a : Addr) (n : ListNode) (m' : Heap) : Prop where
  returns : m'.out = Function.update m.out p (some n.data)
  frees : m'.freed = m.freed ++ [a]
  unreached : ∃ m₁ : Heap, ¬ m₁.Reaches head a ∧
    m.popHead (some head) (some p) = m₁.delNode (some a) ∧ m₁.delNode (some a) = .ok m'

theorem Chain.represents {m : Heap} {head : Addr} {s : ListNode} {cells : List (Addr × ListNode)}
    (h : m.Chain head s cells) : m.Represents head cells (cells.map fun c => c.2.data) where
  chain := ⟨s, h⟩
  data := rfl
  distinct := h.nodup
  reaches _ := h.reaches_iff
  allocated _ hreach hnone := h.not_mem hnone (h.reaches_iff.mp hreach)
  acyclic _ hreach := h.acyclic (h.reaches_iff.mp hreach)

/-- After any calls the list is the stack they make, and the next call does not
fail: it puts a node in front, or takes the first one out and frees it. -/
theorem sentinel_list_stack {head : Addr} {stack : List Int} {m : Heap} (h : Runs head stack m) :
    ∃ cells, m.Represents head cells stack ∧
      (∀ data a, m.node a = none → ∃ m', m.pushHead (some head) data (some a) = .ok m' ∧
        m'.out = m.out ∧ m'.freed = m.freed ∧
        ∃ next, m'.Represents head ((a, ⟨data, next⟩) :: cells) (data :: stack)) ∧
      ∀ p d, m.out p = some d → ∃ m', m.popHead (some head) (some p) = .ok m' ∧
        (cells = [] → m' = m) ∧
        ∀ a n rest, cells = (a, n) :: rest →
          m.Pops head p a n m' ∧ m'.Represents head rest stack.tail := by
  obtain ⟨s, cells, hchain, rfl⟩ := h.chain
  refine ⟨cells, hchain.represents, fun data a ha => ?_, fun p d hp => ?_⟩
  · exact ⟨_, hchain.pushHead_eq ha data, rfl, rfl, s.next, (hchain.pushed ha data).represents⟩
  · cases cells with
    | nil => exact ⟨m, hchain.popHead_nil _, fun _ => rfl, nofun⟩
    | cons c cells =>
      have heq := hchain.popHead_eq hp
      have hfree := hchain.delNode_eq p
      refine ⟨_, heq.trans hfree, nofun, fun a n rest hcells => ?_⟩
      obtain ⟨rfl, rfl⟩ := List.cons.inj hcells
      exact ⟨⟨rfl, rfl, _, hchain.not_reaches p, heq, hfree⟩, (hchain.freed p _).represents⟩

/-- The address of a node that was popped is used again. -/
theorem sentinel_list_reuse : ∃ m cells, Runs 1 [9, 7] m ∧ m.freed = [3] ∧
    m.Represents 1 cells [9, 7] := by
  have hinit : Runs 1 [] _ := .init ⟨fun _ => none, fun _ => some 0, []⟩ rfl
  have hpush := (hinit.push 7 2 rfl rfl).push 8 3 rfl rfl
  have hreuse := (hpush.pop 0 0 rfl rfl).push 9 3 rfl rfl
  obtain ⟨cells, hcells, -⟩ := sentinel_list_stack hreuse
  exact ⟨_, cells, hreuse, rfl, hcells⟩

end Heap

end LinuxStudy

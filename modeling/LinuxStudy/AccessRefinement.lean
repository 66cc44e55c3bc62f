import LinuxStudy.CondQueue
import LinuxStudy.ListAccess

/-! The accesses of all the threads, however they interleave, do what the calls
do as a whole: the runs of `ListSystem` are those of `CondSystem`, with the list
in the heap. -/

namespace LinuxStudy

/-- The chain behind the sentinel, and one node apart from it, are all that is
allocated. -/
structure Heap.Keeps (m : Heap) (head : Addr) (sentinel : ListNode)
    (cells : List (Addr × ListNode)) (spare : Option Addr) : Prop where
  chain : m.Chain head sentinel cells
  apart : ∀ a ∈ spare, a ∉ head :: cells.map Prod.fst
  allocated : ∀ a, m.node a ≠ none ↔ a ∈ head :: cells.map Prod.fst ∨ a ∈ spare

namespace Heap.Keeps

variable {m : Heap} {head a : Addr} {sentinel n : ListNode} {cells : List (Addr × ListNode)}

theorem spare_ne (h : m.Keeps head sentinel cells (some a)) : head ≠ a :=
  (List.ne_of_not_mem_cons (h.apart a rfl)).symm

theorem malloc (h : m.Keeps head sentinel cells none) (ha : m.node a = none) (junk : ListNode) :
    ({ m with node := Function.update m.node a (some junk) } : Heap).Keeps head sentinel cells
      (some a) where
  chain := h.chain.update _ (h.chain.not_mem ha)
  apart b hb := Option.some.inj hb ▸ h.chain.not_mem ha
  allocated b := by
    by_cases hb : b = a
    · subst b
      simp
    · have hab : a ≠ b := Ne.symm hb
      simpa [hb, hab] using h.allocated b

theorem write (h : m.Keeps head sentinel cells (some a)) (n : ListNode) :
    ({ m with node := Function.update m.node a (some n) } : Heap).Keeps head sentinel cells
      (some a) where
  chain := h.chain.update _ (h.apart a rfl)
  apart := h.apart
  allocated b := by
    by_cases hb : b = a
    · subst b
      simp
    · have hab : a ≠ b := Ne.symm hb
      simpa [hb, hab] using h.allocated b

theorem hang {data : Int} (h : m.Keeps head sentinel cells (some a))
    (ha : m.node a = some ⟨data, sentinel.next⟩) :
    ({ m with node := Function.update m.node head (some ⟨sentinel.data, some a⟩) } : Heap).Keeps
      head ⟨sentinel.data, some a⟩ ((a, ⟨data, sentinel.next⟩) :: cells) none where
  chain := by
    have hcells := List.nodup_cons.mp h.chain.nodup
    have hkeep := Function.update_of_ne h.spare_ne.symm (some ⟨sentinel.data, some a⟩) m.node
    exact .cons (Function.update_self ..)
      (.cons (hkeep.trans ha) (h.chain.rest.update _ hcells.1))
  apart := fun b hb => absurd hb (Option.not_mem_none b)
  allocated b := by
    have hold := h.allocated b
    by_cases hb : b = head
    · subst b
      simp
    · simpa [hb, or_comm, eq_comm] using hold

theorem unlink (h : m.Keeps head sentinel ((a, n) :: cells) none) :
    ({ m with node := Function.update m.node head (some { sentinel with next := n.next }) } :
      Heap).Keeps head { sentinel with next := n.next } cells (some a) where
  chain := h.chain.unlinked 0
  apart b hb := by
    obtain rfl := Option.some.inj hb
    have hnodup := h.chain.nodup
    simp only [List.map_cons, List.nodup_cons, List.mem_cons, not_or] at hnodup ⊢
    exact ⟨Ne.symm hnodup.1.1, hnodup.2.1⟩
  allocated b := by
    have hold := h.allocated b
    by_cases hb : b = head
    · subst b
      simp
    · simpa [hb, or_comm, eq_comm] using hold

theorem free (h : m.Keeps head sentinel cells (some a)) (freed : List Addr) :
    ({ m with node := Function.update m.node a none, freed := freed } : Heap).Keeps head sentinel
      cells none where
  chain := h.chain.update none (h.apart a rfl)
  apart := fun b hb => absurd hb (Option.not_mem_none b)
  allocated b := by
    by_cases hb : b = a
    · rw [hb]
      simpa using h.apart a rfl
    · have hab : a ≠ b := Ne.symm hb
      simpa [hb, hab] using h.allocated b

end Heap.Keeps

namespace ListThread

/-- A thread at an access is, in `CondSystem`, still before the call or already
after it: a push happens when `head` gets the new node, a pop when `head` loses
its first one. -/
def Sees (m : Heap) (sentinel : ListNode) (y : Thread) : ListThread → Prop
  | rand => y = .rand
  | lock data => y = .lock data
  | malloc data => y = .push data
  | setData newNode data => y = .push data ∧ ∃ a n, newNode = some a ∧ m.node a = some n
  | setNext newNode data =>
    y = .push data ∧ ∃ a next, newNode = some a ∧ m.node a = some ⟨data, next⟩
  | loadHead newNode data => y = .push data ∧ ∀ a ∈ newNode, m.node a = some ⟨data, none⟩
  | link newNode next data => y = .push data ∧ next = sentinel.next ∧
    ∀ a ∈ newNode, m.node a = some ⟨data, none⟩
  | hang newNode data =>
    y = .push data ∧ ∃ a, newNode = some a ∧ m.node a = some ⟨data, sentinel.next⟩
  | unlock data => y = .unlock data
  | sell data => y = .sell data
  | signal => y = .signal
  | fetch => y = .fetch
  | test => ∃ woken, y = .test woken
  | wait => ∃ woken, y = .wait woken
  | asleep => y = .asleep
  | relock => y = .relock
  | popTest | loadDel => ∃ woken, y = .pop woken
  | loadNext del => (∃ woken, y = .pop woken) ∧ del = sentinel.next
  | unlink del next => (∃ woken, y = .pop woken) ∧ del = sentinel.next ∧
    ∃ a n, del = some a ∧ m.node a = some n ∧ next = n.next
  | loadData del => ∃ a n, del = some a ∧ m.node a = some n ∧ y = .leave n.data
  | free del data => y = .leave data ∧ ∃ a n, del = some a ∧ m.node a = some n
  | leave data => y = .leave data
  | get data => y = .get data

variable {m m' : Heap} {sentinel sentinel' : ListNode} {x : ListThread} {y : Thread}

theorem Sees.holds_eq (h : x.Sees m sentinel y) : y.holds = x.holds := by
  cases x <;> simp only [Sees] at h <;> grind [Thread.holds, ListThread.holds]

theorem Sees.of_not_holds (h : x.Sees m sentinel y) (hx : x.holds = false) :
    x.Sees m' sentinel' y := by
  cases x with
  | rand | lock | sell | signal | fetch | asleep | relock | get => exact h
  | _ => cases hx

theorem Sees.eq_asleep (h : x.Sees m sentinel .asleep) : x = .asleep := by
  cases x <;> simp_all [Sees]

theorem holds_of_access {head : Addr} (hx : x.access head m ≠ none) : x.holds = true := by
  cases x with
  | rand | lock | sell | signal | fetch | asleep | relock | get => exact absurd rfl hx
  | _ => rfl

theorem spare_of_not_holds (hx : x.holds = false) : x.spare = none := by
  cases x with
  | rand | lock | sell | signal | fetch | asleep | relock | get => rfl
  | _ => cases hx

/-- What one access is among the steps of `CondSystem`. -/
inductive Effect (list : List Int) : Thread → List Int → Thread → Prop
  | none (y : Thread) : Effect list y list y
  | test (woken : Bool) :
      Effect list (.test woken) list (if isEmpty list = 0 then .wait woken else .pop woken)
  | push (data : Int) : Effect list (.push data) (pushHead list data) (.unlock data)
  | pop (woken : Bool) :
      Effect list (.pop woken) (popHead list 0).1 (.leave (popHead list 0).2)

/-- After an access the list in the heap is again one chain. -/
def Lands (head : Addr) (list : List Int) (y : Thread) (x : ListThread) (m : Heap) : Prop :=
  ∃ y' sentinel cells, x.Sees m sentinel y' ∧ m.Keeps head sentinel cells x.spare ∧
    Effect list y (cells.map fun c => c.2.data) y'

section Accesses

variable {head : Addr} {cells : List (Addr × ListNode)} {data : Int} {woken : Bool}

theorem lands_test (woken : Bool) (hk : m.Keeps head sentinel cells none) :
    ∃ x, access head m .test = some (.ok (x, m)) ∧
      Lands head (cells.map fun c => c.2.data) (.test woken) x m := by
  refine ⟨if (if sentinel.next = none then (0 : Int) else 1) = 0 then wait else popTest, ?_, ?_⟩
  · rw [access, hk.chain.isEmpty]
    rfl
  · have heff := @Effect.test (cells.map fun c => c.2.data) woken
    have hnil : cells.map (fun c => c.2.data) = [] ↔ sentinel.next = none := by
      rw [List.map_eq_nil_iff, hk.chain.nil_iff]
    simp only [isEmpty, hnil] at heff
    refine ⟨_, sentinel, cells, ?_, ?_, heff⟩
    · split
      · exact ⟨woken, rfl⟩
      · exact ⟨woken, rfl⟩
    · split
      · exact hk
      · exact hk

theorem lands_hang {a : Addr} (ha : m.node a = some ⟨data, sentinel.next⟩)
    (hk : m.Keeps head sentinel cells (some a)) :
    ∃ m', access head m (.hang (some a) data) = some (.ok (.unlock data, m')) ∧
      Lands head (cells.map fun c => c.2.data) (.push data) (.unlock data) m' := by
  refine ⟨_, ?_, _, _, _, rfl, hk.hang ha, .push data⟩
  rw [access, Heap.setNext_some hk.chain.sentinel]
  rfl

theorem lands_unlink (woken : Bool) {a : Addr} {n : ListNode}
    (hk : m.Keeps head sentinel ((a, n) :: cells) none) :
    ∃ m', access head m (.unlink (some a) n.next) = some (.ok (.loadData (some a), m')) ∧
      Lands head (((a, n) :: cells).map fun c => c.2.data) (.pop woken) (.loadData (some a))
        m' := by
  have hne : a ≠ head := Ne.symm (List.ne_of_not_mem_cons (List.nodup_cons.mp hk.chain.nodup).1)
  have ha := (Function.update_of_ne hne (some { sentinel with next := n.next }) m.node).trans
    hk.chain.first.2.1
  refine ⟨_, ?_, .leave n.data, _, cells, ⟨a, n, rfl, ha, rfl⟩, hk.unlink, .pop woken⟩
  rw [access, Heap.setNext_some hk.chain.sentinel]
  rfl

/-- An access finds its node, unless `malloc` gave the producer none, and goes on
as the calls do. -/
theorem Sees.access (h : x.Sees m sentinel y) (hk : m.Keeps head sentinel cells x.spare)
    (hfit : y.Fits (cells.map fun c => c.2.data)) {r : Except Fault (ListThread × Heap)}
    (hr : x.access head m = some r) :
    (∃ next data, x = .link none next data ∧ r = .error .null) ∨
      ∃ x' m', r = .ok (x', m') ∧ Lands head (cells.map fun c => c.2.data) y x' m' := by
  cases x with
  | rand | lock | malloc | unlock | sell | signal | fetch | wait | asleep | relock | leave
  | get => cases hr
  | setData newNode data =>
    obtain ⟨rfl, a, n, rfl, ha⟩ := h
    have hset := setData_some ha data
    rw [ListThread.access, hset] at hr
    refine .inr ⟨_, _, (Option.some.inj hr).symm, _, sentinel, cells, ⟨rfl, a, n.next, rfl, ?_⟩,
      hk.write _, .none _⟩
    exact Function.update_self ..
  | setNext newNode data =>
    obtain ⟨rfl, a, next, rfl, ha⟩ := h
    rw [ListThread.access, Heap.setNext_some ha] at hr
    refine .inr ⟨_, _, (Option.some.inj hr).symm, _, sentinel, cells, ⟨rfl, fun b hb => ?_⟩,
      hk.write _, .none _⟩
    obtain rfl := Option.some.inj hb
    exact Function.update_self ..
  | loadHead newNode data =>
    rw [ListThread.access, Heap.load_some hk.chain.sentinel] at hr
    exact .inr ⟨_, _, (Option.some.inj hr).symm, _, sentinel, cells, ⟨h.1, rfl, h.2⟩, hk, .none _⟩
  | link newNode next data =>
    obtain ⟨rfl, rfl, ha⟩ := h
    cases newNode with
    | none => exact .inl ⟨_, data, rfl, (Option.some.inj hr).symm⟩
    | some a =>
      rw [ListThread.access, Heap.setNext_some (ha a rfl)] at hr
      refine .inr ⟨_, _, (Option.some.inj hr).symm, _, sentinel, cells, ⟨rfl, a, rfl, ?_⟩,
        hk.write _, .none _⟩
      exact Function.update_self ..
  | hang newNode data =>
    obtain ⟨rfl, a, rfl, ha⟩ := h
    obtain ⟨m', hm', hlands⟩ := lands_hang ha hk
    exact .inr ⟨_, m', Option.some.inj (hr.symm.trans hm'), hlands⟩
  | test =>
    obtain ⟨woken, rfl⟩ := h
    obtain ⟨x', hx', hlands⟩ := lands_test woken hk
    exact .inr ⟨x', m, Option.some.inj (hr.symm.trans hx'), hlands⟩
  | popTest =>
    obtain ⟨woken, rfl⟩ := h
    have hnext : sentinel.next ≠ none := fun hnone =>
      hfit (List.map_eq_nil_iff.mpr (hk.chain.nil_iff.mpr hnone))
    rw [ListThread.access, hk.chain.isEmpty, if_neg hnext] at hr
    exact .inr ⟨_, _, (Option.some.inj hr).symm, _, sentinel, cells, ⟨woken, rfl⟩, hk, .none _⟩
  | loadDel =>
    rw [ListThread.access, Heap.load_some hk.chain.sentinel] at hr
    exact .inr ⟨_, _, (Option.some.inj hr).symm, _, sentinel, cells, ⟨h, rfl⟩, hk, .none _⟩
  | loadNext del =>
    obtain ⟨⟨woken, rfl⟩, rfl⟩ := h
    cases cells with
    | nil => exact absurd rfl hfit
    | cons c cells =>
      obtain ⟨hnext, ha, -⟩ := hk.chain.first
      rw [ListThread.access, hnext, Heap.load_some ha] at hr
      exact .inr ⟨_, _, (Option.some.inj hr).symm, _, sentinel, c :: cells,
        ⟨⟨woken, rfl⟩, hnext.symm, c.1, c.2, rfl, ha, rfl⟩, hk, .none _⟩
  | unlink del next =>
    obtain ⟨⟨woken, rfl⟩, hdel, a, n, rfl, ha, rfl⟩ := h
    cases cells with
    | nil => exact absurd rfl hfit
    | cons c cells =>
      obtain ⟨hnext, hc, -⟩ := hk.chain.first
      obtain rfl := Option.some.inj (hdel.trans hnext)
      obtain rfl := Option.some.inj (ha.symm.trans hc)
      obtain ⟨m', hm', hlands⟩ := lands_unlink woken hk
      exact .inr ⟨_, m', Option.some.inj (hr.symm.trans hm'), hlands⟩
  | loadData del =>
    obtain ⟨a, n, rfl, ha, rfl⟩ := h
    rw [ListThread.access, Heap.load_some ha] at hr
    exact .inr ⟨_, _, (Option.some.inj hr).symm, _, sentinel, cells, ⟨rfl, a, n, rfl, ha⟩, hk,
      .none _⟩
  | free del data =>
    obtain ⟨rfl, a, n, rfl, ha⟩ := h
    rw [ListThread.access, Heap.delNode_some ha] at hr
    exact .inr ⟨_, _, (Option.some.inj hr).symm, _, sentinel, cells, rfl, hk.free _, .none _⟩

end Accesses

end ListThread

namespace ListSystem

variable {ι : Type*}

/-- The node that is allocated and not in the list, if there is one. -/
def spare (s : ListSystem ι) : Option Addr := s.mutex.bind fun i => (s.thread i).spare

structure Shows (s : ListSystem ι) (t : CondSystem ι) (sentinel : ListNode)
    (cells : List (Addr × ListNode)) : Prop where
  mutex : t.mutex = s.mutex
  guarded : CondSystem.Guarded t.mutex t.head t.thread
  head : t.head = cells.map fun c => c.2.data
  got : t.reported = s.got
  sees : ∀ i, (s.thread i).Sees s.heap sentinel (t.thread i)
  keeps : s.heap.Keeps s.head sentinel cells s.spare

namespace Shows

variable {s : ListSystem ι} {t : CondSystem ι} {sentinel : ListNode}
  {cells : List (Addr × ListNode)} {i : ι} {x : ListThread} {y : Thread}

theorem holds_iff (h : s.Shows t sentinel cells) : (s.thread i).holds = true ↔ s.mutex = some i := by
  rw [← (h.sees i).holds_eq, ← h.mutex]
  exact h.guarded.holder i

theorem keeps_held (h : s.Shows t sentinel cells) (hi : (s.thread i).holds = true) :
    s.heap.Keeps s.head sentinel cells (s.thread i).spare := by
  have hk := h.keeps
  rwa [spare, h.holds_iff.mp hi] at hk

theorem keeps_free (h : s.Shows t sentinel cells) (hm : s.mutex = none) :
    s.heap.Keeps s.head sentinel cells none := by
  have hk := h.keeps
  rwa [spare, hm] at hk

theorem others (h : s.Shows t sentinel cells) (hi : (s.thread i).holds = true) {j : ι}
    (hj : j ≠ i) : (s.thread j).holds = false := by
  rw [Bool.eq_false_iff, Ne, h.holds_iff, h.holds_iff.mp hi]
  exact fun he => hj (Option.some.inj he).symm

variable [DecidableEq ι]

theorem sees_update (h : s.Shows t sentinel cells) (hx : x.Sees s.heap sentinel y) (j : ι) :
    (Function.update s.thread i x j).Sees s.heap sentinel (Function.update t.thread i y j) := by
  by_cases hj : j = i
  · subst j
    rwa [Function.update_self, Function.update_self]
  · rw [Function.update_of_ne hj, Function.update_of_ne hj]
    exact h.sees j

/-- The holder of the mutex moves, and may change the heap. -/
theorem inside (h : s.Shows t sentinel cells) (hi : (s.thread i).holds = true) {t' : CondSystem ι}
    {m : Heap} {sentinel' : ListNode} {cells' : List (Addr × ListNode)}
    (hmutex : t'.mutex = t.mutex) (hgot : t'.reported = t.reported)
    (hthread : t'.thread = Function.update t.thread i y)
    (hg : CondSystem.Guarded t'.mutex t'.head t'.thread)
    (hhead : t'.head = cells'.map fun c => c.2.data) (hx : x.Sees m sentinel' y)
    (hk : m.Keeps s.head sentinel' cells' x.spare) :
    ({ s.move i x with heap := m } : ListSystem ι).Shows t' sentinel' cells' where
  mutex := hmutex.trans h.mutex
  guarded := hg
  head := hhead
  got := hgot.trans h.got
  sees j := by
    rw [hthread]
    by_cases hj : j = i
    · subst j
      simpa [move] using hx
    · have hsees : (s.thread j).Sees m sentinel' (t.thread j) :=
        (h.sees j).of_not_holds (h.others hi hj)
      simpa [move, hj] using hsees
  keeps := by
    have hspare : ({ s.move i x with heap := m } : ListSystem ι).spare = x.spare := by
      simp [spare, move, h.holds_iff.mp hi]
    rwa [hspare]

/-- A thread outside moves and stays outside. -/
theorem outside (h : s.Shows t sentinel cells) (hi : (s.thread i).holds = false)
    (hx : x.Sees s.heap sentinel y) (hxf : x.holds = false)
    (hg : CondSystem.Guarded t.mutex t.head (t.move i y).thread) :
    (s.move i x).Shows (t.move i y) sentinel cells where
  mutex := h.mutex
  guarded := hg
  head := h.head
  got := h.got
  sees := h.sees_update hx
  keeps := by
    have hspare : (s.move i x).spare = s.spare := by
      unfold spare
      refine Option.bind_congr fun j _ => ?_
      by_cases hj : j = i
      · subst j
        simp [move, ListThread.spare_of_not_holds hi, ListThread.spare_of_not_holds hxf]
      · simp [move, hj]
    rw [hspare]
    exact h.keeps

theorem acquire (h : s.Shows t sentinel cells) (hm : s.mutex = none)
    (hx : x.Sees s.heap sentinel y) (hspare : x.spare = none)
    (hst : CondSystem.Step t { t.move i y with mutex := some i }) :
    ({ s.move i x with mutex := some i } : ListSystem ι).Shows
      { t.move i y with mutex := some i } sentinel cells where
  mutex := rfl
  guarded := h.guarded.step hst
  head := h.head
  got := h.got
  sees := h.sees_update hx
  keeps := by
    have hnone : ({ s.move i x with mutex := some i } : ListSystem ι).spare = none := by
      simp [spare, move, hspare]
    rw [hnone]
    exact h.keeps_free hm

theorem release (h : s.Shows t sentinel cells) (hi : (s.thread i).holds = true)
    (hspare : (s.thread i).spare = none) (hx : x.Sees s.heap sentinel y)
    (hst : CondSystem.Step t { t.move i y with mutex := none }) :
    ({ s.move i x with mutex := none } : ListSystem ι).Shows { t.move i y with mutex := none }
      sentinel cells where
  mutex := rfl
  guarded := h.guarded.step hst
  head := h.head
  got := h.got
  sees := h.sees_update hx
  keeps := by
    have hk := h.keeps_held hi
    rwa [hspare] at hk

/-- A step of a thread is a step of `CondSystem`, or it only brings the call the
thread is in further. -/
theorem step {s' : ListSystem ι} (h : s.Shows t sentinel cells) (hst : Step i s s') :
    ∃ t' sentinel' cells', Reachable CondSystem.Step t t' ∧ s'.Shows t' sentinel' cells' := by
  have hy := h.sees i
  cases hst with
  | rand r hx =>
    rw [hx] at hy
    have hst := CondSystem.Step.rand i r hy
    exact ⟨_, _, _, .single hst, h.outside (by rw [hx]; rfl) rfl rfl (h.guarded.step hst)⟩
  | lock data hx hm =>
    rw [hx] at hy
    have hst := CondSystem.Step.lock i data hy (h.mutex.trans hm)
    exact ⟨_, _, _, .single hst, h.acquire hm rfl rfl hst⟩
  | malloc data junk newNode hx hnew =>
    rw [hx] at hy
    have hi : (s.thread i).holds = true := by rw [hx]; rfl
    have hk := h.keeps_held hi
    rw [hx] at hk
    have hkeep := (Function.update_eq_self i t.thread).symm
    refine ⟨t, sentinel, cells, .refl, h.inside hi rfl rfl hkeep h.guarded h.head ?_ ?_⟩
    · cases newNode with
      | none => exact ⟨hy, fun a ha => absurd ha (Option.not_mem_none a)⟩
      | some a => exact ⟨hy, a, junk, rfl, Function.update_self ..⟩
    · cases newNode with
      | none => exact hk
      | some a => exact hk.malloc (hnew a rfl) junk
  | access x m hx =>
    have hi := ListThread.holds_of_access (hx ▸ Option.some_ne_none _)
    have hfit := h.guarded.fits i
    rw [h.head] at hfit
    rcases hy.access (h.keeps_held hi) hfit hx with ⟨_, _, _, herr⟩ | ⟨x', m', heq, hlands⟩
    · cases herr
    · obtain ⟨rfl, rfl⟩ := Prod.mk.inj (Except.ok.inj heq)
      obtain ⟨y', sentinel', cells', hsees, hk, heff⟩ := hlands
      rw [← h.head] at heff
      generalize hthread : t.thread i = y at heff
      generalize hlist : cells'.map (fun c => c.2.data) = list at heff
      cases heff with
      | none =>
        rw [← hthread] at hsees
        have hkeep := (Function.update_eq_self i t.thread).symm
        exact ⟨t, sentinel', cells', .refl,
          h.inside hi rfl rfl hkeep h.guarded hlist.symm hsees hk⟩
      | test woken =>
        have hst := CondSystem.Step.test i woken hthread
        exact ⟨_, sentinel', cells', .single hst,
          h.inside hi rfl rfl rfl (h.guarded.step hst) hlist.symm hsees hk⟩
      | push data =>
        have hst := CondSystem.Step.push i data hthread
        exact ⟨_, sentinel', cells', .single hst,
          h.inside hi rfl rfl rfl (h.guarded.step hst) hlist.symm hsees hk⟩
      | pop woken =>
        have hst := CondSystem.Step.pop i woken hthread
        exact ⟨_, sentinel', cells', .single hst,
          h.inside hi rfl rfl rfl (h.guarded.step hst) hlist.symm hsees hk⟩
  | fault => exact ⟨t, sentinel, cells, .refl, ⟨h.1, h.2, h.3, h.4, h.5, h.6⟩⟩
  | unlock data hx =>
    rw [hx] at hy
    have hst := CondSystem.Step.unlock i data hy
    exact ⟨_, _, _, .single hst, h.release (by rw [hx]; rfl) (by rw [hx]; rfl) rfl hst⟩
  | sell data hx =>
    rw [hx] at hy
    have hst := CondSystem.Step.sell i data hy
    exact ⟨_, _, _, .single hst, h.outside (by rw [hx]; rfl) rfl rfl (h.guarded.step hst)⟩
  | signal j hx hj =>
    rw [hx] at hy
    have hyj := h.sees j
    rw [hj] at hyj
    have hst := CondSystem.Step.signal i j hy hyj
    have hwoken := h.outside (x := .relock) (by rw [hj]; rfl) rfl rfl
      (h.guarded.step (.spurious j hyj))
    have hi : ((s.move j .relock).thread i).holds = false := by
      simp [move, CondSystem.signal_ne hy hyj, hx, ListThread.holds]
    exact ⟨_, _, _, .single hst, hwoken.outside hi rfl rfl (h.guarded.step hst)⟩
  | signalNone hx hj =>
    rw [hx] at hy
    have hst := CondSystem.Step.signalNone i hy fun j hyj => by
      have hsees := h.sees j
      rw [hyj] at hsees
      exact hj j hsees.eq_asleep
    exact ⟨_, _, _, .single hst, h.outside (by rw [hx]; rfl) rfl rfl (h.guarded.step hst)⟩
  | fetch hx hm =>
    rw [hx] at hy
    have hst := CondSystem.Step.fetch i hy (h.mutex.trans hm)
    exact ⟨_, _, _, .single hst, h.acquire hm ⟨false, rfl⟩ rfl hst⟩
  | wait hx =>
    rw [hx] at hy
    obtain ⟨woken, hy⟩ := hy
    have hst := CondSystem.Step.wait i woken hy
    exact ⟨_, _, _, .single hst, h.release (by rw [hx]; rfl) (by rw [hx]; rfl) rfl hst⟩
  | spurious hx =>
    rw [hx] at hy
    have hst := CondSystem.Step.spurious i hy
    exact ⟨_, _, _, .single hst, h.outside (by rw [hx]; rfl) rfl rfl (h.guarded.step hst)⟩
  | relock hx hm =>
    rw [hx] at hy
    have hst := CondSystem.Step.relock i hy (h.mutex.trans hm)
    exact ⟨_, _, _, .single hst, h.acquire hm ⟨true, rfl⟩ rfl hst⟩
  | leave data hx =>
    rw [hx] at hy
    have hst := CondSystem.Step.leave i data hy
    exact ⟨_, _, _, .single hst, h.release (by rw [hx]; rfl) (by rw [hx]; rfl) rfl hst⟩
  | get data hx =>
    rw [hx] at hy
    have hst := CondSystem.Step.get i data hy
    have hout := h.outside (x := .fetch) (by rw [hx]; rfl) rfl rfl (h.guarded.step hst)
    exact ⟨_, _, _, .single hst, hout.mutex, hout.guarded, hout.head,
      congrArg (data ::ₘ ·) h.got, hout.sees, hout.keeps⟩

end Shows

/-- The process has ended at a producer that got no memory. -/
def OutOfMemory (s : ListSystem ι) : Prop :=
  s.fault = some .null ∧ ∃ i next data, s.thread i = .link none next data

theorem shows_init (producer : ι → Bool) (head : Addr) :
    (init producer head).Shows (CondSystem.init producer) ⟨0, none⟩ [] where
  mutex := rfl
  guarded := CondSystem.guarded_init producer
  head := rfl
  got := rfl
  sees i := by
    simp only [init, CondSystem.init]
    split <;> rfl
  keeps := by
    refine ⟨.cons (Function.update_self ..) .nil, fun a ha => absurd ha (Option.not_mem_none a),
      fun a => ?_⟩
    by_cases ha : a = head
    · simp [init, Heap.initList, Heap.creatNode, ha]
    · simp [init, Heap.initList, Heap.creatNode, spare, ha]

variable [DecidableEq ι] {s s' : ListSystem ι} {t : CondSystem ι} {sentinel : ListNode}
  {cells : List (Addr × ListNode)} {producer : ι → Bool} {head : Addr} {i : ι}

theorem Shows.fault (h : s.Shows t sentinel cells) (hf : s.fault = none) (hst : Step i s s') :
    s'.fault = none ∨ s'.OutOfMemory := by
  cases hst with
  | fault f hx =>
    have hi := ListThread.holds_of_access (hx ▸ Option.some_ne_none _)
    have hfit := h.guarded.fits i
    rw [h.head] at hfit
    rcases (h.sees i).access (h.keeps_held hi) hfit hx with ⟨next, data, hlink, herr⟩ | ⟨_, _, heq, _⟩
    · exact .inr ⟨congrArg some (Except.error.inj herr), i, next, data, hlink⟩
    · cases heq
  | _ => exact .inl hf

theorem shows_of_reachable (h : Reachable Moves (init producer head) s) :
    ∃ t, Reachable CondSystem.Step (CondSystem.init producer) t ∧
      (∃ sentinel cells, s.Shows t sentinel cells) ∧ (s.fault = none ∨ s.OutOfMemory) :=
  h.simulate
    (fun s t => (∃ sentinel cells, s.Shows t sentinel cells) ∧ (s.fault = none ∨ s.OutOfMemory))
    ⟨⟨_, _, shows_init producer head⟩, .inl rfl⟩
    fun a b x ⟨⟨_, _, hx⟩, _⟩ ⟨hf, i, hst⟩ => by
      obtain ⟨y, sentinel, cells, hy, hb⟩ := hx.step hst
      exact ⟨y, hy, ⟨sentinel, cells, hb⟩, hx.fault hf hst⟩

/-- Whatever the threads do between the accesses, there is a run in which each
call is one step and that prints the same; no two threads are ever at accesses
at once, and no access fails but that of a producer whose `malloc` failed. -/
theorem access_by_access (h : Reachable Moves (init producer head) s) :
    ∃ t sentinel cells, Reachable CondSystem.Step (CondSystem.init producer) t ∧
      s.Shows t sentinel cells ∧
      (∀ i j, (s.thread i).access s.head s.heap ≠ none →
        (s.thread j).access s.head s.heap ≠ none → i = j) ∧
      (s.fault = none ∨ s.OutOfMemory) := by
  obtain ⟨t, ht, ⟨sentinel, cells, hs⟩, hf⟩ := shows_of_reachable h
  refine ⟨t, sentinel, cells, ht, hs, fun i j hi hj => ?_, hf⟩
  have hi := hs.holds_iff.mp (ListThread.holds_of_access hi)
  have hj := hs.holds_iff.mp (ListThread.holds_of_access hj)
  exact Option.some.inj (hi.symm.trans hj)

/-- The producer of two threads comes to where it writes the new node into
`head`. -/
theorem at_hang : ∃ s : ListSystem Bool, Reachable Moves (init id 1) s ∧
    s.mutex = some true ∧ s.thread true = .hang (some 2) 7 := by
  have h1 : Reachable Moves (init id 1) _ := .single ⟨rfl, true, .rand 7 rfl⟩
  have h2 := h1.tail ⟨rfl, true, .lock 7 rfl rfl⟩
  have h3 := h2.tail ⟨rfl, true, .malloc 7 ⟨3, some 5⟩ (some 2) rfl fun _ ha =>
    Option.some.inj ha ▸ rfl⟩
  have h4 := h3.tail ⟨rfl, true, .access _ _ rfl⟩
  have h5 := h4.tail ⟨rfl, true, .access _ _ rfl⟩
  have h6 := h5.tail ⟨rfl, true, .access _ _ rfl⟩
  have h7 := h6.tail ⟨rfl, true, .access _ _ rfl⟩
  exact ⟨_, h7, rfl, rfl⟩

theorem access_by_access_at_hang : ∃ s : ListSystem Bool, s.thread true = .hang (some 2) 7 ∧
    ∃ t sentinel cells, Reachable CondSystem.Step (CondSystem.init id) t ∧
      s.Shows t sentinel cells ∧
      (∀ i j, (s.thread i).access s.head s.heap ≠ none →
        (s.thread j).access s.head s.heap ≠ none → i = j) ∧
      (s.fault = none ∨ s.OutOfMemory) := by
  obtain ⟨s, h, -, hthread⟩ := at_hang
  exact ⟨s, hthread, access_by_access h⟩

end ListSystem

end LinuxStudy

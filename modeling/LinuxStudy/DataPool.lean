import LinuxStudy.RingBuffer
import LinuxStudy.Threads
import LinuxStudy.TransitionSystem

/-! The chat server's `data_pool`, called by any number of producers and
consumers. A thread inside a call has waited on its semaphore, or has run the
body as well and still has to post. -/

namespace LinuxStudy

structure DataPool where
  blank : Nat
  data : Nat
  cap : Nat
  size : Int
  index1 : Nat
  index2 : Nat
  pool : List String
deriving DecidableEq

namespace DataPool

def init (cap : Nat) (size : Int) : DataPool := ⟨cap, 0, cap, size, 0, 0, []⟩

/-- Between `sem_wait(blank)` and `sem_post(data)`. -/
def getdata (p : DataPool) (instr : String) : DataPool :=
  { p with
    size := p.size + 1
    pool := p.pool.set p.index1 instr
    index1 := (p.index1 + 1) % p.cap }

/-- Between `sem_wait(data)` and `sem_post(blank)`. -/
def putdata (p : DataPool) : DataPool × String :=
  ({ p with size := p.size - 1, index2 := (p.index2 + 1) % p.cap }, p.pool.getD p.index2 "")

end DataPool

inductive PoolThread
  | outside
  | getting (instr : String)
  | got
  | putting
  | put

namespace PoolThread

def isGetting : PoolThread → Bool
  | getting _ => true
  | outside | got | putting | put => false

def isGot : PoolThread → Bool
  | got => true
  | outside | getting _ | putting | put => false

def isPutting : PoolThread → Bool
  | putting => true
  | outside | getting _ | got | put => false

def isPut : PoolThread → Bool
  | put => true
  | outside | getting _ | got | putting => false

end PoolThread

/-- `given` and `taken` record the strings of the bodies run so far. -/
structure PoolSystem (ι : Type*) where
  pool : DataPool
  thread : ι → PoolThread
  given : List String
  taken : List String

namespace PoolSystem

variable {ι : Type*}

def init (pool : DataPool) : PoolSystem ι := ⟨pool, fun _ => .outside, [], []⟩

inductive Step [DecidableEq ι] (producer : ι → Bool) : PoolSystem ι → PoolSystem ι → Prop
  | waitBlank {s} (i : ι) (instr : String) (hi : producer i = true) (h : s.thread i = .outside)
      (hb : 0 < s.pool.blank) :
      Step producer s { s with
        pool := { s.pool with blank := s.pool.blank - 1 }
        thread := Function.update s.thread i (.getting instr) }
  | getdata {s} (i : ι) (instr : String) (h : s.thread i = .getting instr) :
      Step producer s { s with
        pool := s.pool.getdata instr
        thread := Function.update s.thread i .got
        given := s.given ++ [instr] }
  | postData {s} (i : ι) (h : s.thread i = .got) :
      Step producer s { s with
        pool := { s.pool with data := s.pool.data + 1 }
        thread := Function.update s.thread i .outside }
  | waitData {s} (i : ι) (hi : producer i = false) (h : s.thread i = .outside)
      (hd : 0 < s.pool.data) :
      Step producer s { s with
        pool := { s.pool with data := s.pool.data - 1 }
        thread := Function.update s.thread i .putting }
  | putdata {s} (i : ι) (h : s.thread i = .putting) :
      Step producer s { s with
        pool := s.pool.putdata.1
        thread := Function.update s.thread i .put
        taken := s.taken ++ [s.pool.putdata.2] }
  | postBlank {s} (i : ι) (h : s.thread i = .put) :
      Step producer s { s with
        pool := { s.pool with blank := s.pool.blank + 1 }
        thread := Function.update s.thread i .outside }

/-- The pool is a bounded queue: what a thread is about to access is there, and
the stored strings are the ones given and not yet taken. -/
structure Fifo (s : PoolSystem ι) : Prop where
  write_inside : ∀ i instr, s.thread i = .getting instr → s.pool.index1 < s.pool.pool.length
  read_inside : ∀ i, s.thread i = .putting → s.pool.index2 < s.pool.pool.length
  size_eq : s.pool.size = s.given.length - s.taken.length
  size_nonneg : 0 ≤ s.pool.size
  size_le : s.pool.size ≤ s.pool.cap
  index_eq : (s.pool.index1 : Int) = (s.pool.index2 + s.pool.size) % s.pool.cap
  taken_prefix : s.taken <+: s.given
  stored : ∀ k, k < s.given.length - s.taken.length →
    s.pool.pool[(s.pool.index2 + k) % s.pool.cap]? = s.given[s.taken.length + k]?

/-- The semaphores count the free and the filled cells no thread is at. -/
structure Tokens [Fintype ι] (blank data cap stored : Nat) (thread : ι → PoolThread) : Prop where
  blanks : blank + count PoolThread.isGetting thread + stored + count PoolThread.isPut thread = cap
  datas : stored = data + count PoolThread.isGot thread + count PoolThread.isPutting thread

structure Queued [Fintype ι] (s : PoolSystem ι) (items : List String) : Prop where
  given_eq : s.given = s.taken ++ items
  size_eq : s.pool.size = items.length
  room : s.pool.cap ≤ s.pool.pool.length
  head_lt : s.pool.index2 < s.pool.cap
  tail_eq : s.pool.index1 = (s.pool.index2 + items.length) % s.pool.cap
  holds : RingHolds s.pool.cap s.pool.index2 s.pool.pool items
  tokens : Tokens s.pool.blank s.pool.data s.pool.cap items.length s.thread

section Queued

variable [Fintype ι] {blank data cap stored : Nat} {thread : ι → PoolThread} {s t : PoolSystem ι}
  {items : List String}

theorem Tokens.stored_lt (h : Tokens blank data cap stored thread) {i : ι}
    (hi : (thread i).isGetting = true) : stored < cap := by
  have hpos := count_pos_iff.mpr ⟨i, hi⟩
  have hblanks := h.blanks
  omega

theorem Tokens.stored_pos (h : Tokens blank data cap stored thread) {i : ι}
    (hi : (thread i).isPutting = true) : 0 < stored := by
  have hpos := count_pos_iff.mpr ⟨i, hi⟩
  have hdatas := h.datas
  omega

theorem Queued.fifo (h : s.Queued items) : s.Fifo := by
  have hlen : s.given.length - s.taken.length = items.length := by
    rw [h.given_eq, List.length_append]
    omega
  have hcap : 0 < s.pool.cap := Nat.zero_lt_of_lt h.head_lt
  refine ⟨fun i instr _ => ?_, fun i _ => ?_, ?_, ?_, ?_, ?_, ?_, fun k hk => ?_⟩
  · rw [h.tail_eq]
    exact Nat.lt_of_lt_of_le (Nat.mod_lt _ hcap) h.room
  · exact Nat.lt_of_lt_of_le h.head_lt h.room
  · rw [h.size_eq, h.given_eq, List.length_append]
    omega
  · rw [h.size_eq]
    exact Int.natCast_nonneg items.length
  · have hblanks := h.tokens.blanks
    rw [h.size_eq]
    omega
  · rw [h.tail_eq, h.size_eq]
    norm_cast
  · exact ⟨items, h.given_eq.symm⟩
  · rw [hlen] at hk
    rw [h.holds k hk, h.given_eq, List.getElem?_append_right (Nat.le_add_right _ k),
      Nat.add_sub_cancel_left]

theorem queued_init {pool : DataPool} (hcap : 0 < pool.cap) (hblank : pool.blank = pool.cap)
    (hdata : pool.data = 0) (hsize : pool.size = 0) (h1 : pool.index1 = 0) (h2 : pool.index2 = 0)
    (hroom : pool.cap ≤ pool.pool.length) : (init pool : PoolSystem ι).Queued [] where
  given_eq := rfl
  size_eq := hsize
  room := hroom
  head_lt := by
    change pool.index2 < pool.cap
    omega
  tail_eq := by
    change pool.index1 = (pool.index2 + 0) % pool.cap
    rw [h1, h2, Nat.zero_mod]
  holds := ringHolds_nil _ _ _
  tokens := by
    have hnone : ∀ p : PoolThread → Bool, p .outside = false →
        count p (init pool : PoolSystem ι).thread = 0 := by
      intro p hp
      rw [count_eq_total]
      exact total_zero _ fun _ => by rw [init, hp]; rfl
    refine ⟨?_, ?_⟩
    · rw [hnone _ rfl, hnone _ rfl]
      exact hblank
    · rw [hnone _ rfl, hnone _ rfl]
      exact hdata.symm

variable [DecidableEq ι]

theorem Tokens.move (h : Tokens blank data cap stored thread) {i : ι} {x : PoolThread}
    (blank' data' stored' : Nat)
    (hblanks : blank' + x.isGetting.toNat + stored' + x.isPut.toNat =
      blank + (thread i).isGetting.toNat + stored + (thread i).isPut.toNat)
    (hdatas : stored' + data + (thread i).isGot.toNat + (thread i).isPutting.toNat =
      stored + data' + x.isGot.toNat + x.isPutting.toNat) :
    Tokens blank' data' cap stored' (Function.update thread i x) := by
  have h1 := count_update PoolThread.isGetting thread i x
  have h2 := count_update PoolThread.isPut thread i x
  have h3 := count_update PoolThread.isGot thread i x
  have h4 := count_update PoolThread.isPutting thread i x
  have hb := h.blanks
  have hd := h.datas
  constructor
  · omega
  · omega

theorem Queued.getdata (h : s.Queued items) {i : ι} {instr : String}
    (hi : s.thread i = .getting instr) :
    Queued { s with
      pool := s.pool.getdata instr
      thread := Function.update s.thread i .got
      given := s.given ++ [instr] } (items ++ [instr]) := by
  have hstored : items.length < s.pool.cap := h.tokens.stored_lt (i := i) (by rw [hi]; rfl)
  have hslot : s.pool.index1 < s.pool.pool.length := h.fifo.write_inside i instr hi
  constructor
  · change s.given ++ [instr] = s.taken ++ (items ++ [instr])
    rw [h.given_eq, List.append_assoc]
  · change s.pool.size + 1 = ((items ++ [instr]).length : Int)
    rw [h.size_eq, List.length_append, List.length_singleton]
    omega
  · change s.pool.cap ≤ (s.pool.pool.set s.pool.index1 instr).length
    rw [List.length_set]
    exact h.room
  · exact h.head_lt
  · change (s.pool.index1 + 1) % s.pool.cap =
      (s.pool.index2 + (items ++ [instr]).length) % s.pool.cap
    rw [h.tail_eq, List.length_append, List.length_singleton, Nat.mod_add_mod, Nat.add_assoc]
  · change RingHolds s.pool.cap s.pool.index2 (s.pool.pool.set s.pool.index1 instr)
      (items ++ [instr])
    rw [h.tail_eq] at hslot ⊢
    exact h.holds.push hstored hslot instr
  · rw [List.length_append]
    apply h.tokens.move s.pool.blank s.pool.data
    · rw [hi]
      simp only [PoolThread.isGetting, PoolThread.isPut, Bool.toNat_false, Bool.toNat_true,
        List.length_singleton]
      omega
    · rw [hi]
      simp only [PoolThread.isGot, PoolThread.isPutting, Bool.toNat_false, Bool.toNat_true,
        List.length_singleton]
      omega

theorem Queued.putdata (h : s.Queued items) {i : ι} (hi : s.thread i = .putting) :
    Queued { s with
      pool := s.pool.putdata.1
      thread := Function.update s.thread i .put
      taken := s.taken ++ [s.pool.putdata.2] } items.tail := by
  have hpos : 0 < items.length := h.tokens.stored_pos (i := i) (by rw [hi]; rfl)
  obtain ⟨x, rest, rfl⟩ := List.exists_cons_of_length_pos hpos
  have hx : s.pool.putdata.2 = x := by
    have hhead := h.holds.head_eq
    rw [Nat.mod_eq_of_lt h.head_lt] at hhead
    rw [DataPool.putdata, List.getD_eq_getElem?_getD, hhead, Option.getD_some]
  constructor
  · change s.given = s.taken ++ [s.pool.putdata.2] ++ rest
    rw [h.given_eq, hx, List.append_assoc]
    rfl
  · change s.pool.size - 1 = (rest.length : Int)
    rw [h.size_eq, List.length_cons]
    omega
  · exact h.room
  · exact Nat.mod_lt _ (Nat.zero_lt_of_lt h.head_lt)
  · change s.pool.index1 = ((s.pool.index2 + 1) % s.pool.cap + rest.length) % s.pool.cap
    rw [h.tail_eq, ring_slot_next, List.length_cons]
  · exact h.holds.pop
  · have htokens := h.tokens
    rw [List.length_cons] at htokens
    apply htokens.move s.pool.blank s.pool.data
    · rw [hi]
      simp only [PoolThread.isGetting, PoolThread.isPut, Bool.toNat_false, Bool.toNat_true,
        List.tail_cons]
      omega
    · rw [hi]
      simp only [PoolThread.isGot, PoolThread.isPutting, Bool.toNat_false, Bool.toNat_true,
        List.tail_cons]
      omega

theorem Queued.semaphore (h : s.Queued items) {i : ι} {x : PoolThread} (blank' data' : Nat)
    (hblanks : blank' + x.isGetting.toNat + x.isPut.toNat =
      s.pool.blank + (s.thread i).isGetting.toNat + (s.thread i).isPut.toNat)
    (hdatas : s.pool.data + (s.thread i).isGot.toNat + (s.thread i).isPutting.toNat =
      data' + x.isGot.toNat + x.isPutting.toNat) :
    Queued { s with
      pool := { s.pool with blank := blank', data := data' }
      thread := Function.update s.thread i x } items :=
  ⟨h.given_eq, h.size_eq, h.room, h.head_lt, h.tail_eq, h.holds,
    h.tokens.move blank' data' items.length (by omega) (by omega)⟩

theorem Queued.step {producer : ι → Bool} (h : s.Queued items) (hst : Step producer s t) :
    ∃ items, t.Queued items := by
  cases hst with
  | waitBlank i instr _ hi hb =>
    refine ⟨items, h.semaphore (s.pool.blank - 1) s.pool.data ?_ ?_⟩
    · rw [hi]
      simp only [PoolThread.isGetting, PoolThread.isPut, Bool.toNat_false, Bool.toNat_true]
      omega
    · rw [hi]
      rfl
  | getdata i instr hi => exact ⟨_, h.getdata hi⟩
  | postData i hi =>
    refine ⟨items, h.semaphore s.pool.blank (s.pool.data + 1) ?_ ?_⟩
    · rw [hi]
      rfl
    · rw [hi]
      rfl
  | waitData i _ hi hd =>
    refine ⟨items, h.semaphore s.pool.blank (s.pool.data - 1) ?_ ?_⟩
    · rw [hi]
      rfl
    · rw [hi]
      simp only [PoolThread.isGot, PoolThread.isPutting, Bool.toNat_false, Bool.toNat_true]
      omega
  | putdata i hi => exact ⟨_, h.putdata hi⟩
  | postBlank i hi =>
    refine ⟨items, h.semaphore (s.pool.blank + 1) s.pool.data ?_ ?_⟩
    · rw [hi]
      rfl
    · rw [hi]
      rfl

end Queued

end PoolSystem

end LinuxStudy

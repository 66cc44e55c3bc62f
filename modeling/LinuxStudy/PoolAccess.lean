import LinuxStudy.DataPool
import LinuxStudy.LoneThread

/-! `data_pool` access by access: nothing guards its bodies but the semaphores, so
the single loads and stores of the threads inside interleave. -/

namespace LinuxStudy

/-- What is next in a body; `index` is `index1` in `getdata`, `index2` in `putdata`. -/
inductive BodyPc
  | loadSize
  | storeSize (v : Int)
  | loadIndex
  | cell (k : Nat)
  | loadNext
  | storeNext (v : Nat)
  | loadMod
  | storeMod (v : Nat)
  | post
  deriving DecidableEq

inductive PoolCall
  | outside
  | getdata (instr : String) (pc : BodyPc)
  | putdata (pc : BodyPc)
  deriving DecidableEq

namespace DataPool

/-- The next access of `getdata`, and where it leaves the call. -/
def getAccess (p : DataPool) (instr : String) : BodyPc → DataPool × PoolCall
  | .loadSize => (p, .getdata instr (.storeSize p.size))
  | .storeSize v => ({ p with size := v + 1 }, .getdata instr .loadIndex)
  | .loadIndex => (p, .getdata instr (.cell p.index1))
  | .cell k => ({ p with pool := p.pool.set k instr }, .getdata instr .loadNext)
  | .loadNext => (p, .getdata instr (.storeNext p.index1))
  | .storeNext v => ({ p with index1 := v + 1 }, .getdata instr .loadMod)
  | .loadMod => (p, .getdata instr (.storeMod p.index1))
  | .storeMod v => ({ p with index1 := v % p.cap }, .getdata instr .post)
  | .post => ({ p with data := p.data + 1 }, .outside)

def putAccess (p : DataPool) : BodyPc → DataPool × PoolCall
  | .loadSize => (p, .putdata (.storeSize p.size))
  | .storeSize v => ({ p with size := v - 1 }, .putdata .loadIndex)
  | .loadIndex => (p, .putdata (.cell p.index2))
  | .cell _ => (p, .putdata .loadNext)
  | .loadNext => (p, .putdata (.storeNext p.index2))
  | .storeNext v => ({ p with index2 := v + 1 }, .putdata .loadMod)
  | .loadMod => (p, .putdata (.storeMod p.index2))
  | .storeMod v => ({ p with index2 := v % p.cap }, .putdata .post)
  | .post => ({ p with blank := p.blank + 1 }, .outside)

/-- What an access of `putdata` hands out. -/
def handed (p : DataPool) : BodyPc → List String
  | .cell k => [p.pool.getD k ""]
  | _ => []

end DataPool

def BodyPc.stored (instr : String) : BodyPc → List String
  | .cell _ => [instr]
  | _ => []

/-- `given` and `taken` record the strings in the order of the accesses to the cells. -/
structure PoolRun (ι : Type*) where
  pool : DataPool
  thread : ι → PoolCall
  given : List String
  taken : List String

namespace PoolRun

variable {ι : Type*}

def init (pool : DataPool) : PoolRun ι := ⟨pool, fun _ => .outside, [], []⟩

variable [DecidableEq ι]

inductive Step (producer : ι → Bool) : PoolRun ι → PoolRun ι → Prop
  | waitBlank {s : PoolRun ι} (i : ι) (instr : String) (hi : producer i = true)
      (h : s.thread i = .outside) (hb : 0 < s.pool.blank) :
      Step producer s { s with
        pool := { s.pool with blank := s.pool.blank - 1 }
        thread := Function.update s.thread i (.getdata instr .loadSize) }
  | getdata {s : PoolRun ι} (i : ι) {instr : String} {pc : BodyPc}
      (h : s.thread i = .getdata instr pc) :
      Step producer s { s with
        pool := (s.pool.getAccess instr pc).1
        thread := Function.update s.thread i (s.pool.getAccess instr pc).2
        given := s.given ++ pc.stored instr }
  | waitData {s : PoolRun ι} (i : ι) (hi : producer i = false) (h : s.thread i = .outside)
      (hd : 0 < s.pool.data) :
      Step producer s { s with
        pool := { s.pool with data := s.pool.data - 1 }
        thread := Function.update s.thread i (.putdata .loadSize) }
  | putdata {s : PoolRun ι} (i : ι) {pc : BodyPc} (h : s.thread i = .putdata pc) :
      Step producer s { s with
        pool := (s.pool.putAccess pc).1
        thread := Function.update s.thread i (s.pool.putAccess pc).2
        taken := s.taken ++ s.pool.handed pc }

theorem Step.cap_eq {producer : ι → Bool} {s t : PoolRun ι} (hst : Step producer s t) :
    t.pool.cap = s.pool.cap := by
  cases hst with
  | waitBlank | waitData => rfl
  | @getdata i instr pc => cases pc <;> rfl
  | @putdata i pc => cases pc <;> rfl

end PoolRun

namespace BodyPc

/-- Where the index is, for the slot of the next string. -/
def At (cap slot index : Nat) : BodyPc → Prop
  | loadSize | storeSize _ | loadIndex | post => index = slot
  | cell k => index = slot ∧ k = slot
  | loadNext => (index + 1) % cap = slot
  | storeNext v => (v + 1) % cap = slot
  | loadMod => index % cap = slot
  | storeMod v => v % cap = slot

/-- The cell has not been accessed yet. -/
def early : BodyPc → Bool
  | loadSize | storeSize _ | loadIndex | cell _ => true
  | loadNext | storeNext _ | loadMod | storeMod _ | post => false

end BodyPc

/-- An index that the threads inside use. -/
abbrev Cursor {ι : Type*} (cap slot index : Nat) (pcs : ι → Option BodyPc) : Prop :=
  Lone (BodyPc.At cap slot index) (index = slot) pcs

namespace PoolCall

def getPc : PoolCall → Option BodyPc
  | getdata _ pc => some pc
  | outside | putdata _ => none

def putPc : PoolCall → Option BodyPc
  | putdata pc => some pc
  | outside | getdata _ _ => none

def filling (c : PoolCall) : Bool := c.getPc.any BodyPc.early

def filled (c : PoolCall) : Bool := c.getPc.any fun pc => !pc.early

def taking (c : PoolCall) : Bool := c.putPc.any BodyPc.early

def took (c : PoolCall) : Bool := c.putPc.any fun pc => !pc.early

def inside (c : PoolCall) : Bool := c.getPc.isSome || c.putPc.isSome

/-- The cell that the call accesses next. -/
def atCell : PoolCall → Option Nat
  | getdata _ (.cell k) | putdata (.cell k) => some k
  | _ => none

theorem atCell_cases {c : PoolCall} {k : Nat} (h : c.atCell = some k) :
    (∃ instr, c = .getdata instr (.cell k)) ∨ c = .putdata (.cell k) := by
  cases c with
  | outside => cases h
  | getdata instr pc =>
    cases pc with
    | cell j =>
      obtain rfl : j = k := by simpa [atCell] using h
      exact .inl ⟨instr, rfl⟩
    | _ => cases h
  | putdata pc =>
    cases pc with
    | cell j =>
      obtain rfl : j = k := by simpa [atCell] using h
      exact .inr rfl
    | _ => cases h

theorem inside_toNat (c : PoolCall) :
    c.inside.toNat = c.filling.toNat + c.filled.toNat + c.taking.toNat + c.took.toNat := by
  cases c with
  | outside => rfl
  | getdata instr pc =>
    cases h : pc.early <;> simp [inside, filling, filled, taking, took, getPc, putPc, h]
  | putdata pc =>
    cases h : pc.early <;> simp [inside, filling, filled, taking, took, getPc, putPc, h]

end PoolCall

theorem comp_update_same {ι β : Type*} [DecidableEq ι] {f : PoolCall → Option β}
    {thread : ι → PoolCall} {i : ι} {x : PoolCall} (h : f (thread i) = f x) :
    f ∘ Function.update thread i x = f ∘ thread := by
  rw [Function.comp_update, ← h]
  exact Function.update_eq_self i (f ∘ thread)

theorem count_inside {ι : Type*} [Fintype ι] (thread : ι → PoolCall) :
    count PoolCall.inside thread = count PoolCall.filling thread + count PoolCall.filled thread +
      count PoolCall.taking thread + count PoolCall.took thread := by
  simp only [count_eq_total, total, ← Finset.sum_add_distrib]
  apply Finset.sum_congr rfl
  exact fun i _ => (thread i).inside_toNat

theorem count_outside {ι : Type*} [Fintype ι] {p : PoolCall → Bool} (hp : p .outside = false)
    {thread : ι → PoolCall} (h : ∀ i, thread i = .outside) : count p thread = 0 := by
  rw [count_eq_total]
  apply total_zero
  intro i
  rw [h i, hp]
  rfl

namespace PoolRun

variable {ι : Type*}

structure Intact (s : PoolRun ι) : Prop where
  inside : ∀ i k, (s.thread i).atCell = some k → k < s.pool.pool.length
  taken_prefix : s.taken <+: s.given
  stored : ∀ k, k < s.given.length - s.taken.length →
    s.pool.pool[(s.taken.length + k) % s.pool.cap]? = s.given[s.taken.length + k]?

def Apart (s : PoolRun ι) : Prop :=
  ∀ i j k, (s.thread i).atCell = some k → (s.thread j).atCell = some k → i = j

variable [Fintype ι] {producer : ι → Bool} {blank data cap stored : Nat} {thread : ι → PoolCall}
  {s : PoolRun ι} {items : List String}

/-- Who is inside, and for which of the semaphores' units. -/
structure Permits (producer : ι → Bool) (blank data cap stored : Nat) (thread : ι → PoolCall) :
    Prop where
  blanks : blank + count PoolCall.filling thread + stored + count PoolCall.took thread = cap
  datas : stored = data + count PoolCall.filled thread + count PoolCall.taking thread
  getters : ∀ i, (thread i).getPc.isSome = true → producer i = true
  putters : ∀ i, (thread i).putPc.isSome = true → producer i = false

theorem Permits.stored_lt (h : Permits producer blank data cap stored thread) {i : ι}
    (hi : (thread i).filling = true) : stored < cap := by
  have hpos := count_pos_iff.mpr ⟨i, hi⟩
  have hblanks := h.blanks
  omega

theorem Permits.stored_pos (h : Permits producer blank data cap stored thread) {i : ι}
    (hi : (thread i).taking = true) : 0 < stored := by
  have hpos := count_pos_iff.mpr ⟨i, hi⟩
  have hdatas := h.datas
  omega

theorem Permits.count_inside_le (h : Permits producer blank data cap stored thread) :
    count PoolCall.inside thread ≤ cap := by
  have hblanks := h.blanks
  have hdatas := h.datas
  rw [count_inside]
  omega

/-- At most one thread is inside each of the two bodies. -/
def Solo (producer : ι → Bool) (cap : Nat) : Prop := cap = 1 ∨ Function.Injective producer

theorem eq_of_count_le_one {p : PoolCall → Bool} (h : count p thread ≤ 1) {i j : ι}
    (hi : p (thread i) = true) (hj : p (thread j) = true) : i = j := by
  rw [count, Finset.card_le_one] at h
  exact h i (by simp [hi]) j (by simp [hj])

/-- The threads whose place `f` gives are of one kind, so there is one at most. -/
theorem Permits.alone (h : Permits producer blank data cap stored thread)
    (hsolo : Solo producer cap) {f : PoolCall → Option BodyPc} {kind : Bool}
    (hinside : ∀ c, (f c).isSome = true → c.inside = true)
    (hkind : ∀ i, (f (thread i)).isSome = true → producer i = kind) : Alone (f ∘ thread) := by
  intro i j hi hj
  cases hsolo with
  | inl hcap =>
    have hle : count PoolCall.inside thread ≤ 1 := hcap ▸ h.count_inside_le
    exact eq_of_count_le_one hle (hinside _ hi) (hinside _ hj)
  | inr hinj => exact hinj ((hkind i hi).trans (hkind j hj).symm)

theorem Permits.getter_alone (h : Permits producer blank data cap stored thread)
    (hsolo : Solo producer cap) : Alone (PoolCall.getPc ∘ thread) := by
  apply h.alone hsolo _ h.getters
  intro c hc
  simp [PoolCall.inside, hc]

theorem Permits.putter_alone (h : Permits producer blank data cap stored thread)
    (hsolo : Solo producer cap) : Alone (PoolCall.putPc ∘ thread) := by
  apply h.alone hsolo _ h.putters
  intro c hc
  simp [PoolCall.inside, hc]

theorem Permits.move [DecidableEq ι] (h : Permits producer blank data cap stored thread) {i : ι}
    {x : PoolCall} (blank' data' stored' : Nat)
    (hblanks : blank' + x.filling.toNat + stored' + x.took.toNat =
      blank + (thread i).filling.toNat + stored + (thread i).took.toNat)
    (hdatas : stored' + data + (thread i).filled.toNat + (thread i).taking.toNat =
      stored + data' + x.filled.toNat + x.taking.toNat)
    (hget : x.getPc.isSome = true → producer i = true)
    (hput : x.putPc.isSome = true → producer i = false) :
    Permits producer blank' data' cap stored' (Function.update thread i x) := by
  have h1 := count_update PoolCall.filling thread i x
  have h2 := count_update PoolCall.took thread i x
  have h3 := count_update PoolCall.filled thread i x
  have h4 := count_update PoolCall.taking thread i x
  have hb := h.blanks
  have hd := h.datas
  constructor
  · omega
  · omega
  · intro j hj
    by_cases hij : j = i
    · subst j
      exact hget (by simpa using hj)
    · exact h.getters j (by simpa [hij] using hj)
  · intro j hj
    by_cases hij : j = i
    · subst j
      exact hput (by simpa using hj)
    · exact h.putters j (by simpa [hij] using hj)

/-- `items` are the strings in the cells; the indices are where `given` and `taken`
leave them, or a lone thread is at them. -/
structure Solid (producer : ι → Bool) (s : PoolRun ι) (items : List String) : Prop where
  given_eq : s.given = s.taken ++ items
  positive : 0 < s.pool.cap
  room : s.pool.cap ≤ s.pool.pool.length
  holds : RingHolds s.pool.cap (s.taken.length % s.pool.cap) s.pool.pool items
  permits : Permits producer s.pool.blank s.pool.data s.pool.cap items.length s.thread
  tail : Cursor s.pool.cap (s.given.length % s.pool.cap) s.pool.index1 (PoolCall.getPc ∘ s.thread)
  front : Cursor s.pool.cap (s.taken.length % s.pool.cap) s.pool.index2 (PoolCall.putPc ∘ s.thread)

end PoolRun

namespace DataPool

/-- Away from the cell and the semaphore, an access of `getdata` carries the index on. -/
theorem getAccess_cases (p : DataPool) (instr : String) {pc : BodyPc} {slot : Nat}
    (hat : pc.At p.cap slot p.index1) :
    (∃ k, pc = .cell k) ∨ pc = .post ∨ ∃ size index1 pc',
      p.getAccess instr pc = ({ p with size := size, index1 := index1 }, .getdata instr pc') ∧
      pc.stored instr = [] ∧ pc'.early = pc.early ∧ pc'.At p.cap slot index1 := by
  cases pc with
  | cell k => exact .inl ⟨k, rfl⟩
  | post => exact .inr (.inl rfl)
  | loadSize => exact .inr (.inr ⟨_, _, _, rfl, rfl, rfl, hat⟩)
  | storeSize v => exact .inr (.inr ⟨_, _, _, rfl, rfl, rfl, hat⟩)
  | loadIndex => exact .inr (.inr ⟨_, _, _, rfl, rfl, rfl, hat, hat⟩)
  | loadNext => exact .inr (.inr ⟨_, _, _, rfl, rfl, rfl, hat⟩)
  | storeNext v => exact .inr (.inr ⟨_, _, _, rfl, rfl, rfl, hat⟩)
  | loadMod => exact .inr (.inr ⟨_, _, _, rfl, rfl, rfl, hat⟩)
  | storeMod v => exact .inr (.inr ⟨_, _, _, rfl, rfl, rfl, hat⟩)

theorem putAccess_cases (p : DataPool) {pc : BodyPc} {slot : Nat}
    (hat : pc.At p.cap slot p.index2) :
    (∃ k, pc = .cell k) ∨ pc = .post ∨ ∃ size index2 pc',
      p.putAccess pc = ({ p with size := size, index2 := index2 }, .putdata pc') ∧
      p.handed pc = [] ∧ pc'.early = pc.early ∧ pc'.At p.cap slot index2 := by
  cases pc with
  | cell k => exact .inl ⟨k, rfl⟩
  | post => exact .inr (.inl rfl)
  | loadSize => exact .inr (.inr ⟨_, _, _, rfl, rfl, rfl, hat⟩)
  | storeSize v => exact .inr (.inr ⟨_, _, _, rfl, rfl, rfl, hat⟩)
  | loadIndex => exact .inr (.inr ⟨_, _, _, rfl, rfl, rfl, hat, hat⟩)
  | loadNext => exact .inr (.inr ⟨_, _, _, rfl, rfl, rfl, hat⟩)
  | storeNext v => exact .inr (.inr ⟨_, _, _, rfl, rfl, rfl, hat⟩)
  | loadMod => exact .inr (.inr ⟨_, _, _, rfl, rfl, rfl, hat⟩)
  | storeMod v => exact .inr (.inr ⟨_, _, _, rfl, rfl, rfl, hat⟩)

end DataPool

end LinuxStudy

import Mathlib.Data.Finset.Image
import LinuxStudy.CText
import LinuxStudy.SlotTable
import LinuxStudy.TransitionSystem

/-! The loop of the select server. Below `FD_SETSIZE` an `fd_set` is the set of
its members. A state is what `main` has between two turns of its scan; `live` are
the sockets that `accept` returned and that are not closed. -/

namespace LinuxStudy

structure SelectServer where
  listensock : Sock
  gfds : List (Option Sock)
  maxFd : Sock
  rfds : Finset Sock
  k : Nat
  live : List Sock

namespace SelectServer

structure Replies where
  accept : Option Sock
  read : Option (List Byte)

def size : Nat := 128

/-- The length of `buf`, all of which is offered to `read`. -/
def readSize : Nat := 1024

def start (listensock : Sock) : SelectServer where
  listensock := listensock
  gfds := some listensock :: List.replicate (size - 1) none
  maxFd := listensock
  rfds := ∅
  k := size
  live := []

/-- The loop in front of `select`, which fills `rfds` and raises `max_fd`. -/
def watchLoop : List (Option Sock) → Finset Sock → Sock → Finset Sock × Sock
  | [], rfds, maxFd => (rfds, maxFd)
  | none :: gfds, rfds, maxFd => watchLoop gfds rfds maxFd
  | some fd :: gfds, rfds, maxFd =>
    watchLoop gfds (insert fd rfds) (if maxFd < fd then fd else maxFd)

def watch (s : SelectServer) : SelectServer :=
  { s with
    rfds := (watchLoop s.gfds ∅ s.maxFd).1
    maxFd := (watchLoop s.gfds ∅ s.maxFd).2 }

/-- `select` leaves in the set it is passed the members that are ready. -/
def select (s : SelectServer) (ready : Sock → Bool) : SelectServer :=
  { s with
    rfds := s.rfds.filter fun fd => ready fd = true
    k := 0 }

def next (s : SelectServer) : Option Sock :=
  match s.gfds[s.k]? with
  | some (some fd) => if fd ∈ s.rfds then some fd else none
  | some none => none
  | none => none

def skip (s : SelectServer) : SelectServer := { s with k := s.k + 1 }

def acceptClient (s : SelectServer) : Option Sock → SelectServer
  | none => s.skip
  | some sock => { s with gfds := place sock s.gfds, k := s.k + 1, live := sock :: s.live }

/-- What `buf[s] = '\0'` does to `rfds`. Behind a full buffer it stores the byte
after it, which in the program that is built beside the source is the first of
`rfds`, with the marks of the descriptors 0 to 7. -/
def terminate (text : List Byte) (rfds : Finset Sock) : Finset Sock :=
  if text.length < readSize then rfds else rfds.filter fun fd => 8 ≤ fd

def readClient (s : SelectServer) (fd : Sock) : Option (List Byte) → SelectServer
  | none => s.skip
  | some [] => { s with gfds := s.gfds.set s.k none, k := s.k + 1, live := s.live.erase fd }
  | some (b :: text) => { s with rfds := terminate (b :: text) s.rfds, k := s.k + 1 }

def turn (s : SelectServer) (a : Replies) : SelectServer :=
  match s.next with
  | none => s.skip
  | some fd =>
    if fd = s.listensock then s.acceptClient a.accept else s.readClient fd a.read

/-- The loop of `main`, for calls whose replies are `ok`. -/
inductive Loop (ok : SelectServer → Replies → Prop) : SelectServer → SelectServer → Prop
  | select {s : SelectServer} (ready : Sock → Bool) (hk : size ≤ s.k) :
      Loop ok s (s.watch.select ready)
  | unready {s : SelectServer} (hk : size ≤ s.k) : Loop ok s s.watch
  | turn {s : SelectServer} (a : Replies) (hk : s.k < size) (h : ok s a) : Loop ok s (s.turn a)

/-- `accept` returns a descriptor that is not open. -/
def Fresh (s : SelectServer) (a : Replies) : Prop :=
  ∀ c ∈ a.accept, c ≠ s.listensock ∧ c ∉ s.live

/-- No `read` fills the buffer. -/
def Replies.Short (a : Replies) : Prop := ∀ text ∈ a.read, text.length < readSize

def Turn (s t : SelectServer) : Prop := ∃ a, s.k < size ∧ s.Fresh a ∧ t = s.turn a

def ShortTurn (s t : SelectServer) : Prop := ∃ a, s.k < size ∧ s.Fresh a ∧ a.Short ∧ t = s.turn a

end SelectServer

namespace SelectServer

theorem watchLoop_rfds (gfds : List (Option Sock)) (rfds : Finset Sock) (maxFd : Sock) :
    (watchLoop gfds rfds maxFd).1 = rfds ∪ gfds.reduceOption.toFinset := by
  induction gfds generalizing rfds maxFd with
  | nil => simp [watchLoop, List.reduceOption]
  | cons x gfds ih =>
    cases x with
    | none => rw [watchLoop, ih, List.reduceOption_cons_of_none]
    | some fd =>
      rw [watchLoop, ih, List.reduceOption_cons_of_some, List.toFinset_cons, Finset.insert_union,
        Finset.union_insert]

theorem watchLoop_maxFd (gfds : List (Option Sock)) (rfds : Finset Sock) (maxFd : Sock) :
    maxFd ≤ (watchLoop gfds rfds maxFd).2 ∧
      ∀ c, some c ∈ gfds → c ≤ (watchLoop gfds rfds maxFd).2 := by
  induction gfds generalizing rfds maxFd with
  | nil => exact ⟨Nat.le_refl _, nofun⟩
  | cons x gfds ih =>
    cases x with
    | none =>
      obtain ⟨hle, hmem⟩ := ih rfds maxFd
      exact ⟨hle, fun c hc => hmem c (by simpa using hc)⟩
    | some fd =>
      obtain ⟨hle, hmem⟩ := ih (insert fd rfds) (if maxFd < fd then fd else maxFd)
      have hraise : maxFd ≤ (if maxFd < fd then fd else maxFd) ∧
          fd ≤ (if maxFd < fd then fd else maxFd) := by
        split
        · rename_i hlt
          exact ⟨hlt.le, Nat.le_refl fd⟩
        · rename_i hle
          exact ⟨Nat.le_refl maxFd, Nat.le_of_not_lt hle⟩
      rw [watchLoop]
      refine ⟨hraise.1.trans hle, fun c hc => ?_⟩
      rcases List.mem_cons.mp hc with hc | hc
      · obtain rfl := Option.some.inj hc
        exact hraise.2.trans hle
      · exact hmem c hc

theorem watch_rfds (s : SelectServer) : s.watch.rfds = s.gfds.reduceOption.toFinset := by
  rw [watch, watchLoop_rfds, Finset.empty_union]

theorem le_watch_maxFd (s : SelectServer) {c : Sock} (hc : some c ∈ s.gfds) :
    c ≤ s.watch.maxFd := (watchLoop_maxFd s.gfds ∅ s.maxFd).2 c hc

/-- The table behind the listening socket holds open clients, and in front of
the listening socket only what was open is marked. -/
structure Table (s : SelectServer) (slots : List (Option Sock)) : Prop where
  gfds : s.gfds = some s.listensock :: slots
  length : slots.length + 1 = size
  listens : s.listensock ∉ s.live
  tracks : Tracks slots.reduceOption s.live
  marked : s.k = 0 → ∀ c ∈ s.rfds, c = s.listensock ∨ c ∈ s.live

inductive TableMove (slots : List (Option Sock)) (a : Replies) (s t : SelectServer) : Prop
  | keep (hgfds : t.gfds = some s.listensock :: slots) (hlive : t.live = s.live)
  | add (c : Sock) (hc : c ≠ s.listensock ∧ c ∉ s.live) (hnext : s.next = some s.listensock)
      (ha : a.accept = some c) (hzero : s.k = 0)
      (hgfds : t.gfds = some s.listensock :: place c slots) (hlive : t.live = c :: s.live)
  | remove (i : Nat) (c : Sock) (hi : s.k = i + 1) (hc : slots[i]? = some (some c))
      (hgfds : t.gfds = some s.listensock :: slots.set i none) (hlive : t.live = s.live.erase c)

section TableMove

variable {s t : SelectServer} {slots : List (Option Sock)} {a : Replies}

theorem next_eq_some {c : Sock} : s.next = some c ↔ s.gfds[s.k]? = some (some c) ∧ c ∈ s.rfds := by
  unfold next
  split
  · rename_i fd hfd
    by_cases hmem : fd ∈ s.rfds
    · simp only [hmem, if_true, hfd, Option.some.injEq]
      exact ⟨fun h => ⟨h, h ▸ hmem⟩, And.left⟩
    · simp only [hmem, if_false, hfd, Option.some.injEq]
      exact ⟨nofun, fun h => absurd (h.1 ▸ h.2) hmem⟩
  · rename_i hnone
    simp [hnone]
  · rename_i hnone
    simp [hnone]

theorem Table.move (h : Table s slots) (hf : s.Fresh a) : TableMove slots a s (s.turn a) := by
  unfold turn
  cases hnext : s.next with
  | none => exact .keep h.gfds rfl
  | some c =>
    obtain ⟨hc, hmem⟩ := next_eq_some.mp hnext
    by_cases hsock : c = s.listensock
    · simp only [if_pos hsock]
      have hzero : s.k = 0 := by
        cases hk : s.k with
        | zero => rfl
        | succ i =>
          rw [hk, h.gfds, List.getElem?_cons_succ] at hc
          have hin : c ∈ slots.reduceOption :=
            List.reduceOption_mem_iff.mpr (List.mem_of_getElem? hc)
          exact absurd (hsock ▸ hin) (h.tracks.not_mem h.listens)
      cases hacc : a.accept with
      | none => exact .keep h.gfds rfl
      | some sock =>
        refine .add sock (hf sock hacc) (hsock ▸ hnext) hacc hzero ?_ rfl
        simp only [acceptClient, h.gfds, place]
    · simp only [if_neg hsock]
      cases hk : s.k with
      | zero =>
        rw [hk, h.gfds] at hc
        exact absurd (Option.some.inj (Option.some.inj hc)).symm hsock
      | succ i =>
        rw [hk, h.gfds, List.getElem?_cons_succ] at hc
        rcases hread : a.read with - | - | ⟨b, text⟩
        · exact .keep h.gfds rfl
        · refine .remove i c hk hc ?_ rfl
          simp only [readClient, h.gfds, hk, List.set_cons_succ]
        · exact .keep h.gfds rfl

theorem table_start (listensock : Sock) :
    Table (start listensock) (List.replicate (size - 1) none) := by
  have hnone := List.reduceOption_replicate_none (α := Sock) (n := size - 1)
  refine ⟨rfl, by simp [size], List.not_mem_nil, ?_, nofun⟩
  rw [hnone]
  exact .nil

theorem Table.watch (h : Table s slots) (hk : size ≤ s.k) : Table s.watch slots :=
  ⟨h.gfds, h.length, h.listens, h.tracks, fun h0 => absurd (h0 ▸ hk) (by decide)⟩

theorem Table.select (h : Table s slots) (ready : Sock → Bool) :
    Table (s.watch.select ready) slots := by
  refine ⟨h.gfds, h.length, h.listens, h.tracks, fun _ c hc => ?_⟩
  have hmem := (Finset.mem_filter.mp hc).1
  rw [watch_rfds, List.mem_toFinset, h.gfds, List.reduceOption_cons_of_some, List.mem_cons] at hmem
  exact hmem.imp_right fun hin => h.tracks.subperm.subset hin

theorem terminate_subset (text : List Byte) (rfds : Finset Sock) : terminate text rfds ⊆ rfds := by
  rw [terminate]
  split
  · exact Finset.Subset.refl rfds
  · exact Finset.filter_subset _ rfds

theorem turn_frame (s : SelectServer) (a : Replies) :
    (s.turn a).listensock = s.listensock ∧ (s.turn a).rfds ⊆ s.rfds ∧ (s.turn a).k = s.k + 1 := by
  have hsub := Finset.Subset.refl s.rfds
  unfold turn
  split
  · exact ⟨rfl, hsub, rfl⟩
  · split
    · cases a.accept <;> exact ⟨rfl, hsub, rfl⟩
    · rcases a.read with - | - | ⟨b, text⟩
      · exact ⟨rfl, hsub, rfl⟩
      · exact ⟨rfl, hsub, rfl⟩
      · exact ⟨rfl, terminate_subset (b :: text) s.rfds, rfl⟩

theorem turn_rfds (s : SelectServer) (ha : a.Short) : (s.turn a).rfds = s.rfds := by
  unfold turn
  split
  · rfl
  · split
    · cases a.accept <;> rfl
    · rcases hread : a.read with - | - | ⟨b, text⟩
      · rfl
      · rfl
      · exact if_pos (ha _ hread)

theorem Table.next (h : Table s slots) (hf : s.Fresh a) : ∃ slots', Table (s.turn a) slots' := by
  obtain ⟨hsock, hrfds, hk⟩ := turn_frame s a
  have hmarked : (s.turn a).k = 0 → ∀ c ∈ (s.turn a).rfds,
      c = (s.turn a).listensock ∨ c ∈ (s.turn a).live :=
    fun h0 => absurd (hk.symm.trans h0) (Nat.succ_ne_zero _)
  cases h.move hf with
  | keep hgfds hlive =>
    exact ⟨slots, by rw [hgfds, hsock], h.length, by rw [hsock, hlive]; exact h.listens,
      by rw [hlive]; exact h.tracks, hmarked⟩
  | add c hc hnext ha hzero hgfds hlive =>
    refine ⟨place c slots, by rw [hgfds, hsock], by rw [length_place]; exact h.length, ?_, ?_,
      hmarked⟩
    · rw [hsock, hlive]
      exact List.not_mem_cons_of_ne_of_not_mem hc.1.symm h.listens
    · rw [hlive]
      by_cases hfull : none ∈ slots
      · exact (h.tracks.add hc.2).perm (place_perm hfull).symm
      · rw [place_full hfull]
        exact h.tracks.miss hc.2
  | remove i c hi hc hgfds hlive =>
    refine ⟨slots.set i none, by rw [hgfds, hsock], by rw [List.length_set]; exact h.length, ?_, ?_,
      hmarked⟩
    · rw [hsock, hlive]
      exact fun hmem => h.listens (List.mem_of_mem_erase hmem)
    · rw [hlive]
      exact (h.tracks.perm (clear_perm hc)).remove

theorem Table.loop {ok : SelectServer → Replies → Prop} (hok : ∀ s a, ok s a → s.Fresh a)
    (h : Table s slots) (hst : Loop ok s t) :
    t.listensock = s.listensock ∧ ∃ slots', Table t slots' := by
  cases hst with
  | select ready hk => exact ⟨rfl, slots, h.select ready⟩
  | unready hk => exact ⟨rfl, slots, h.watch hk⟩
  | turn replies hk hr => exact ⟨(turn_frame s replies).1, h.next (hok s replies hr)⟩

end TableMove

theorem table_reachable {listensock : Sock} {s : SelectServer}
    {ok : SelectServer → Replies → Prop} (hok : ∀ s a, ok s a → s.Fresh a)
    (h : Reachable (Loop ok) (start listensock) s) : ∃ slots, Table s slots :=
  h.invariant (fun s => ∃ slots, Table s slots) ⟨_, table_start listensock⟩
    fun _ _ ⟨_, hs⟩ hst => (hs.loop hok hst).2

end SelectServer

end LinuxStudy

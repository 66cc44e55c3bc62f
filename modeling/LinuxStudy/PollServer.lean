import LinuxStudy.CText
import LinuxStudy.BroadcastTrace
import LinuxStudy.TransitionSystem
import Mathlib.Data.List.Perm.Basic
import Mathlib.Logic.Function.Basic

/-! The event loop of the poll server. A state is what `main` has between two
turns of its `for` loop, `usercounters` being the length of `pfd`; a turn takes
the results of the calls it makes. A pointer to `user[fd].buf` is that `fd`. -/

namespace LinuxStudy

abbrev Mask := BitVec 16

def userSize : Nat := 10

def writeSize : Nat := 1024

def pollin : Mask := 0x001

def pollout : Mask := 0x004

def pollerr : Mask := 0x008

def pollhup : Mask := 0x010

def pollnval : Mask := 0x020

structure ClientNode where
  datatowrite : Option Sock
  buf : List Byte

structure PollFd where
  fd : Sock
  events : Mask
  revents : Mask

abbrev Users := Sock → ClientNode

def Users.setPointer (user : Users) (c : Sock) (b : Option Sock) : Users :=
  Function.update user c { user c with datatowrite := b }

def Users.setBuf (user : Users) (c : Sock) (buf : List Byte) : Users :=
  Function.update user c { user c with buf := buf }

def zeros (n : Nat) : List Byte := List.replicate n 0

/-- A zeroed buffer after a `read`, with the NUL at `buf[s-1]`. -/
def lineBuf (text : List Byte) : List Byte :=
  (text ++ zeros (writeSize - text.length)).set (text.length - 1) 0

/-- The loop over the other clients, from entry 1 on. -/
def tellOthers (sockfd : Sock) (user : Users) : List PollFd → Users
  | [] => user
  | p :: ps =>
    tellOthers sockfd (if sockfd ≠ p.fd then user.setPointer p.fd (some sockfd) else user) ps

def askWrite (sockfd : Sock) (p : PollFd) : PollFd :=
  if sockfd ≠ p.fd then { p with events := (p.events ||| ~~~pollin) ||| pollout } else p

def askWrites (sockfd : Sock) : List PollFd → List PollFd
  | [] => []
  | p :: ps => p :: ps.map (askWrite sockfd)

def report (p : PollFd) (revents : Mask) : PollFd := { p with revents := revents }

/-- `pfd[j] = pfd[usercounters - 1]; usercounters--`. -/
def moveLast (pfd : List PollFd) (j : Nat) : List PollFd :=
  match pfd.getLast? with
  | none => pfd
  | some last => (pfd.set j last).dropLast

structure PollServer where
  listensock : Sock
  user : Users
  pfd : List PollFd
  j : Nat
  trace : List (Event Sock (List Byte))

structure Answers where
  accept : Option Sock
  read : Option (List Byte)
  write : Option Nat

inductive Branch
  | accept | error | hangup | input | output | idle
  deriving DecidableEq

def busyText : List Byte :=
  let text := bytes "The network is busy,please try again later!"
  text ++ zeros (128 - text.length)

namespace PollServer

def start (listensock : Sock) (user : Users) : PollServer where
  listensock := listensock
  user := user
  pfd := [⟨listensock, pollin ||| pollerr, 0⟩]
  j := 1
  trace := []

def branch (s : PollServer) (p : PollFd) : Branch :=
  if p.fd = s.listensock ∧ p.revents &&& pollin ≠ 0 then .accept
  else if p.revents &&& pollerr ≠ 0 then .error
  else if p.revents &&& pollhup ≠ 0 then .hangup
  else if p.revents &&& pollin ≠ 0 then .input
  else if p.revents &&& pollout ≠ 0 then .output
  else .idle

def skip (s : PollServer) : PollServer := { s with j := s.j + 1 }

def acceptClient (s : PollServer) : Option Sock → PollServer
  | none => s.skip
  | some sock =>
    if s.pfd.length = userSize + 1 then
      { s with j := s.j + 1, trace := s.trace ++ [.refused sock busyText] }
    else
      { s with
        user := s.user.setPointer sock none
        pfd := s.pfd ++ [⟨sock, pollin ||| pollerr ||| pollhup, 0⟩]
        j := s.j + 1
        trace := s.trace ++ [.joined sock] }

/-- The last client takes the place of the one who left: its node is copied and
its entry comes next. -/
def leave (s : PollServer) (p : PollFd) : PollServer :=
  match s.pfd.getLast? with
  | none => s
  | some last =>
    { s with
      user := Function.update s.user p.fd (s.user last.fd)
      pfd := moveLast s.pfd s.j
      trace := s.trace ++ [.left p.fd] }

def readClient (s : PollServer) (p : PollFd) (read : Option (List Byte)) : PollServer :=
  let cleared := { s with user := s.user.setBuf p.fd (zeros writeSize) }
  match read with
  | none => cleared.skip
  | some [] => cleared.leave p
  | some (b :: text) =>
    { s with
      user := tellOthers p.fd (s.user.setBuf p.fd (lineBuf (b :: text))) s.pfd.tail
      pfd := askWrites p.fd s.pfd
      j := s.j + 1
      trace := s.trace ++ [.line p.fd (b :: text).dropLast] }

def writeClient (s : PollServer) (p : PollFd) (write : Option Nat) : PollServer :=
  match (s.user p.fd).datatowrite, write with
  | some b, some n =>
    { s with
      user := (s.user.setBuf b (zeros writeSize)).setPointer p.fd none
      pfd := s.pfd.set s.j { p with events := (p.events ||| pollin) ||| ~~~pollout }
      j := s.j + 1
      trace := s.trace ++ [.writable p.fd [(cstr (s.user b).buf).take n]] }
  | _, _ => { s with j := s.j + 1, trace := s.trace ++ [.writable p.fd []] }

def turn (s : PollServer) (p : PollFd) (a : Answers) : PollServer :=
  match s.branch p with
  | .accept => s.acceptClient a.accept
  | .error => s.skip
  | .hangup => s.leave p
  | .input => s.readClient p a.read
  | .output => s.writeClient p a.write
  | .idle => s.skip

def poll (s : PollServer) (revents : List Mask) : PollServer :=
  { s with
    pfd := s.pfd.zipWith report revents
    j := 0 }

/-- `poll` is called after the last turn of the loop. It reports what is asked
for and what is always reported, and no hangup for a listening socket. -/
def Polled (s : PollServer) (revents : List Mask) : Prop :=
  s.pfd.length ≤ s.j ∧ revents.length = s.pfd.length ∧ ∀ q ∈ s.pfd.zip revents,
    q.2 &&& ~~~(q.1.events ||| (pollerr ||| pollhup ||| pollnval)) = 0 ∧
      (q.1.fd = s.listensock → q.2 &&& pollhup = 0)

instance (s : PollServer) (revents : List Mask) : Decidable (s.Polled revents) :=
  inferInstanceAs (Decidable (_ ∧ _))

/-- The loop of `main`, for calls whose answers are `ok`. -/
inductive Loop (ok : PollServer → PollFd → Answers → Prop) : PollServer → PollServer → Prop
  | poll {s : PollServer} (revents : List Mask) (h : s.Polled revents) : Loop ok s (s.poll revents)
  | turn {s : PollServer} (p : PollFd) (a : Answers) (hp : s.pfd[s.j]? = some p) (h : ok s p a) :
      Loop ok s (s.turn p a)

inductive Input
  | poll (revents : List Mask)
  | turn (a : Answers)

def loop (ok : PollServer → PollFd → Answers → Prop) [∀ s p a, Decidable (ok s p a)] :
    List Input → PollServer → Option PollServer
  | [], s => some s
  | .poll revents :: is, s => if s.Polled revents then loop ok is (s.poll revents) else none
  | .turn a :: is, s =>
    match s.pfd[s.j]? with
    | some p => if ok s p a then loop ok is (s.turn p a) else none
    | none => none

end PollServer

section Users

variable (user : Users) (c d : Sock)

@[simp] theorem Users.setPointer_datatowrite (b : Option Sock) :
    (user.setPointer c b d).datatowrite = if d = c then b else (user d).datatowrite := by
  by_cases h : d = c
  · subst d
    simp [setPointer]
  · simp [setPointer, h]

@[simp] theorem Users.setPointer_buf (b : Option Sock) :
    (user.setPointer c b d).buf = (user d).buf := by
  by_cases h : d = c
  · subst d
    simp [setPointer]
  · simp [setPointer, h]

@[simp] theorem Users.setBuf_datatowrite (buf : List Byte) :
    (user.setBuf c buf d).datatowrite = (user d).datatowrite := by
  by_cases h : d = c
  · subst d
    simp [setBuf]
  · simp [setBuf, h]

@[simp] theorem Users.setBuf_buf (buf : List Byte) :
    (user.setBuf c buf d).buf = if d = c then buf else (user d).buf := by
  by_cases h : d = c
  · subst d
    simp [setBuf]
  · simp [setBuf, h]

theorem tellOthers_datatowrite (ps : List PollFd) :
    (tellOthers c user ps d).datatowrite =
      if d ≠ c ∧ d ∈ ps.map PollFd.fd then some c else (user d).datatowrite := by
  induction ps generalizing user with
  | nil => simp [tellOthers]
  | cons p ps ih =>
    rw [tellOthers, ih]
    by_cases hc : c = p.fd
    · by_cases hd : d = p.fd <;> simp [hc, hd]
    · by_cases hd : d = p.fd
      · subst d
        simp [hc, Ne.symm hc]
      · simp [hc, hd]

@[simp] theorem tellOthers_buf (ps : List PollFd) :
    (tellOthers c user ps d).buf = (user d).buf := by
  induction ps generalizing user with
  | nil => rfl
  | cons p ps ih =>
    rw [tellOthers, ih]
    split
    · rw [Users.setPointer_buf]
    · rfl

end Users

@[simp] theorem askWrite_fd (c : Sock) (p : PollFd) : (askWrite c p).fd = p.fd := by
  rw [askWrite]
  split <;> rfl

theorem map_fd_askWrite (c : Sock) (ps : List PollFd) :
    (ps.map (askWrite c)).map PollFd.fd = ps.map PollFd.fd := by
  simp [Function.comp_def]

theorem map_fd_report {ps : List PollFd} {rs : List Mask} (h : ps.length ≤ rs.length) :
    (ps.zipWith report rs).map PollFd.fd = ps.map PollFd.fd := by
  have hfst : (ps.zipWith report rs).map PollFd.fd = ((ps.zip rs).map Prod.fst).map PollFd.fd := by
    rw [List.map_zipWith, List.map_map, List.zip, List.map_zipWith]
    rfl
  rw [hfst, List.map_fst_zip h]

theorem map_set_of_eq {β : Type*} (f : PollFd → β) {ps : List PollFd} {i : Nat} {p q : PollFd}
    (h : ps[i]? = some p) (hq : f q = f p) : (ps.set i q).map f = ps.map f := by
  obtain ⟨hi, rfl⟩ := List.getElem?_eq_some_iff.mp h
  have hmap : i < (ps.map f).length := by simpa using hi
  have hself : f ps[i] = (ps.map f)[i] := (List.getElem_map ..).symm
  rw [List.map_set, hq, hself, List.set_getElem_self]

theorem exists_getLast? {ps : List PollFd} {i : Nat} {p : PollFd} (h : ps[i]? = some p)
    (q : PollFd) : ∃ last, ps.getLast? = some last ∧ (q :: ps).getLast? = some last := by
  obtain ⟨hi, -⟩ := List.getElem?_eq_some_iff.mp h
  have hne : ps ≠ [] := List.ne_nil_of_length_pos (Nat.zero_lt_of_lt hi)
  obtain ⟨last, hlast⟩ := Option.ne_none_iff_exists'.mp (List.getLast?_eq_none_iff.not.mpr hne)
  exact ⟨last, hlast, by rw [List.getLast?_cons, hlast, Option.getD_some]⟩

theorem moveLast_cons {p : PollFd} {ps : List PollFd} {i : Nat} (h : i < ps.length) :
    moveLast (p :: ps) (i + 1) = p :: moveLast ps i := by
  have hne : ps ≠ [] := List.ne_nil_of_length_pos (Nat.zero_lt_of_lt h)
  obtain ⟨last, hlast, hcons⟩ := exists_getLast? (List.getElem?_eq_getElem h) p
  rw [moveLast, moveLast, hlast, hcons]
  exact List.dropLast_cons_of_ne_nil fun hset => hne (by simpa using hset)

theorem moveLast_perm {ps : List PollFd} {i : Nat} {p : PollFd} (h : ps[i]? = some p) :
    ps.Perm (p :: moveLast ps i) := by
  rcases List.eq_nil_or_concat ps with rfl | ⟨init, last, rfl⟩
  · simp at h
  · simp only [List.concat_eq_append, moveLast, List.getLast?_concat] at h ⊢
    by_cases hi : i < init.length
    · rw [List.getElem?_append_left hi] at h
      obtain ⟨_, rfl⟩ := List.getElem?_eq_some_iff.mp h
      rw [List.set_append_left _ _ hi, List.dropLast_concat]
      have hset := List.set_perm_cons_eraseIdx hi last
      have herase := List.getElem_cons_eraseIdx_perm hi
      calc (init ++ [last]).Perm (last :: init) := List.perm_append_singleton last init
        List.Perm _ (last :: init[i] :: init.eraseIdx i) := herase.symm.cons last
        List.Perm _ (init[i] :: last :: init.eraseIdx i) := .swap ..
        List.Perm _ (init[i] :: init.set i last) := hset.symm.cons _
    · rw [List.getElem?_append_right (Nat.le_of_not_lt hi)] at h
      have hlast : i - init.length = 0 ∧ last = p := by
        cases hk : i - init.length with
        | zero => simpa [hk] using h
        | succ => simp [hk] at h
      rw [List.set_append_right _ _ (Nat.le_of_not_lt hi), hlast.1, List.set_cons_zero,
        List.dropLast_concat, hlast.2]
      exact List.perm_append_singleton p init

theorem moveLast_drop {ps : List PollFd} {i : Nat} {p : PollFd} (h : ps[i]? = some p) :
    ((moveLast ps i).drop i).Perm (ps.drop (i + 1)) := by
  induction i generalizing ps with
  | zero =>
    cases ps with
    | nil => simp at h
    | cons q ps =>
      obtain rfl : q = p := by simpa using h
      exact (moveLast_perm h).symm.cons_inv
  | succ i ih =>
    cases ps with
    | nil => simp at h
    | cons q ps =>
      rw [List.getElem?_cons_succ] at h
      obtain ⟨hi, -⟩ := List.getElem?_eq_some_iff.mp h
      rw [moveLast_cons hi, List.drop_succ_cons, List.drop_succ_cons]
      exact ih h

theorem cstr_zeros (n : Nat) : cstr (zeros n) = [] := by
  cases n with
  | zero => rfl
  | succ n => rfl

theorem cstr_lineBuf {text : List Byte} (h : ∀ b ∈ text, b ≠ 0) (last : Byte) :
    cstr (lineBuf (text ++ [last])) = text := by
  have hset : lineBuf (text ++ [last]) =
      text ++ 0 :: zeros (writeSize - (text ++ [last]).length) := by
    simp [lineBuf]
  rw [hset, cstr_append_nul, cstr_of_plain h]

theorem reported_subset {r events m : Mask} (hr : r &&& ~~~events = 0) (hm : m &&& events = 0) :
    r &&& m = 0 := by
  have hmask : m = m &&& ~~~events := by
    ext i hi
    have hbit := congrArg (·[i]) hm
    simp at hbit ⊢
    grind
  calc r &&& m = m &&& (r &&& ~~~events) := by
        rw [hmask]
        ac_rfl
    _ = m &&& 0 := by rw [hr]
    _ = 0 := BitVec.and_zero

theorem PollServer.Polled.cons {s : PollServer} {revents : List Mask} (h : s.Polled revents)
    {r : Mask} {ps : List PollFd} (hpfd : s.pfd = ⟨s.listensock, pollin ||| pollerr, r⟩ :: ps) :
    ∃ r' rs, revents = r' :: rs ∧ rs.length = ps.length ∧ r' &&& pollhup = 0 ∧
      r' &&& pollout = 0 := by
  obtain ⟨-, hlen, hq⟩ := h
  rw [hpfd] at hlen hq
  cases revents with
  | nil => simp at hlen
  | cons r' rs =>
    have hhead := hq (_, r') List.mem_cons_self
    have hout : pollout &&& ((pollin ||| pollerr) ||| (pollerr ||| pollhup ||| pollnval)) = 0 := by
      decide
    exact ⟨r', rs, rfl, Nat.succ.inj hlen, hhead.2 rfl, reported_subset hhead.1 hout⟩

section Loop

variable {ok : PollServer → PollFd → Answers → Prop} [∀ s p a, Decidable (ok s p a)]
  {is : List Input} {s t : PollServer}

theorem PollServer.loop_poll {revents : List Mask}
    (h : loop ok (.poll revents :: is) s = some t) :
    s.Polled revents ∧ loop ok is (s.poll revents) = some t := by
  rw [loop] at h
  split at h
  · rename_i hp
    exact ⟨hp, h⟩
  · cases h

theorem PollServer.loop_turn {a : Answers} (h : loop ok (.turn a :: is) s = some t) :
    ∃ p, s.pfd[s.j]? = some p ∧ ok s p a ∧ loop ok is (s.turn p a) = some t := by
  rw [loop] at h
  split at h
  · rename_i p hp
    split at h
    · rename_i ha
      exact ⟨p, hp, ha, h⟩
    · cases h
  · cases h

theorem PollServer.reach_loop (h : loop ok is s = some t) : Reachable (Loop ok) s t := by
  induction is generalizing s with
  | nil => exact Option.some.inj h ▸ .refl
  | cons i is ih =>
    cases i with
    | poll revents =>
      obtain ⟨hp, h⟩ := loop_poll h
      exact (ih h).head (.poll revents hp)
    | turn a =>
      obtain ⟨p, hp, ha, h⟩ := loop_turn h
      exact (ih h).head (.turn p a hp ha)

end Loop

theorem PollServer.reach_mono {ok ok' : PollServer → PollFd → Answers → Prop}
    (hok : ∀ s p a, ok s p a → ok' s p a) {s t : PollServer} (h : Reachable (Loop ok) s t) :
    Reachable (Loop ok') s t := by
  refine Relation.ReflTransGen.mono (fun a b hst => ?_) s t h
  cases hst with
  | poll revents hp => exact .poll revents hp
  | turn p a hp ha => exact .turn p a hp (hok _ p a ha)

theorem PollServer.branch_listensock (s : PollServer) {events r : Mask}
    (hhup : r &&& pollhup = 0) (hout : r &&& pollout = 0) :
    s.branch ⟨s.listensock, events, r⟩ = .accept ∨ s.branch ⟨s.listensock, events, r⟩ = .error ∨
      s.branch ⟨s.listensock, events, r⟩ = .idle := by
  rw [branch]
  split
  · exact .inl rfl
  · rename_i hin
    split
    · exact .inr (.inl rfl)
    · rw [if_neg (not_not.mpr hhup), if_neg fun hne => hin ⟨rfl, hne⟩, if_neg (not_not.mpr hout)]
      exact .inr (.inr rfl)

theorem PollServer.branch_accept {s : PollServer} {p : PollFd} (h : s.branch p = .accept) :
    p.fd = s.listensock := by
  unfold branch at h
  split at h
  · rename_i hin
    exact hin.1
  · repeat' split at h
    all_goals cases h

/-- What a turn does while entry 0, and no other, is the listening socket. -/
inductive PollServer.TurnCase (s : PollServer) (ps : List PollFd) (p : PollFd) (a : Answers) :
    PollServer → Prop
  | accept (hj : s.j = 0) (hb : s.branch p = .accept) : TurnCase s ps p a (s.acceptClient a.accept)
  | skip : TurnCase s ps p a s.skip
  | hangup (i : Nat) (hj : s.j = i + 1) (hp : ps[i]? = some p) (hb : s.branch p = .hangup) :
      TurnCase s ps p a (s.leave p)
  | input (i : Nat) (hj : s.j = i + 1) (hp : ps[i]? = some p) (hb : s.branch p = .input) :
      TurnCase s ps p a (s.readClient p a.read)
  | output (i : Nat) (hj : s.j = i + 1) (hp : ps[i]? = some p) (hb : s.branch p = .output) :
      TurnCase s ps p a (s.writeClient p a.write)

theorem PollServer.turn_cases {s : PollServer} {r : Mask} {ps : List PollFd} {p : PollFd}
    (hpfd : s.pfd = ⟨s.listensock, pollin ||| pollerr, r⟩ :: ps) (hhup : r &&& pollhup = 0)
    (hout : r &&& pollout = 0) (hlistens : s.listensock ∉ ps.map PollFd.fd)
    (hp : s.pfd[s.j]? = some p) (a : Answers) : TurnCase s ps p a (s.turn p a) := by
  rw [turn]
  cases hj : s.j with
  | zero =>
    have hhead : p = ⟨s.listensock, pollin ||| pollerr, r⟩ := by
      rw [hpfd, hj] at hp
      exact (Option.some.inj hp).symm
    have hbranch : s.branch p = .accept ∨ s.branch p = .error ∨ s.branch p = .idle := by
      rw [hhead]
      exact s.branch_listensock hhup hout
    rcases hbranch with hb | hb | hb
    · simp only [hb]
      exact .accept hj hb
    · rw [hb]
      exact .skip
    · rw [hb]
      exact .skip
  | succ i =>
    have hpi : ps[i]? = some p := by rwa [hpfd, hj, List.getElem?_cons_succ] at hp
    cases hb : s.branch p with
    | accept =>
      have hmem : p.fd ∈ ps.map PollFd.fd := List.mem_map_of_mem (List.mem_of_getElem? hpi)
      exact absurd (branch_accept hb ▸ hmem) hlistens
    | error | idle => exact .skip
    | hangup => exact .hangup i hj hpi hb
    | input => exact .input i hj hpi hb
    | output => exact .output i hj hpi hb

end LinuxStudy

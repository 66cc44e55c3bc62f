import LinuxStudy.OpenConnections
import LinuxStudy.PollBroadcast

/-! What the cutting of a stream into reads does to its text. Each read loses its
last byte, which is taken for the end of a line. -/

namespace LinuxStudy

namespace PollServer

/-- A turn while only `c` sends: it is read once everything has been written to
`d`, and a write fails or takes the whole text. -/
def Relayed (c d : Sock) (s : PollServer) (p : PollFd) (a : Answers) : Prop :=
  a.accept = none ∧ s.branch p ≠ .hangup ∧ (s.branch p ≠ .input → a.read = none) ∧
    (s.branch p = .input → p.fd = c ∧ (s.user d).datatowrite = none ∧
      ∃ seg ∈ a.read, seg ≠ [] ∧ seg.length ≤ writeSize ∧ ∀ b ∈ seg, b ≠ 0) ∧
    (s.branch p = .output → ∀ b ∈ (s.user p.fd).datatowrite, ∀ n ∈ a.write,
      n = (cstr (s.user b).buf).length)

instance (c d : Sock) (s : PollServer) (p : PollFd) (a : Answers) : Decidable (s.Relayed c d p a) :=
  inferInstanceAs (Decidable (_ ∧ _))

def Input.piece : Input → List (List Byte)
  | .poll _ => []
  | .turn a => a.read.toList

/-- The pieces in which the stream is read. -/
def pieces (is : List Input) : List (List Byte) := is.flatMap Input.piece

/-- The server has the two clients `c` and `d`, and no text for them. -/
structure Pair (s : PollServer) (c d : Sock) : Prop where
  clients : (s.pfd.tail.map PollFd.fd).Perm [c, d]
  sender : (s.user c).datatowrite = none
  recipient : (s.user d).datatowrite = none

structure Relaying (s : PollServer) (c d : Sock) (segs : List (List Byte)) (t : PollServer) :
    Prop where
  fds : t.pfd.tail.map PollFd.fd = s.pfd.tail.map PollFd.fd
  sender : (t.user c).datatowrite = none
  nonempty : ∀ seg ∈ segs, seg ≠ []
  text : ∃ new, t.trace = s.trace ++ new ∧
    (received d new).flatten ++ (t.user.pending d).flatten = segs.flatMap List.dropLast

end PollServer

/-- A text without its line ends. -/
def unbroken (text : List Byte) : List Byte := text.filter (· ≠ lf)

section Pieces

variable {segs : List (List Byte)}

theorem unbroken_append (text text' : List Byte) :
    unbroken (text ++ text') = unbroken text ++ unbroken text' := List.filter_append ..

theorem flatMap_dropLast_sublist (segs : List (List Byte)) :
    (segs.flatMap List.dropLast).Sublist segs.flatten := by
  induction segs with
  | nil => exact .slnil
  | cons seg segs ih => exact (List.dropLast_sublist seg).append ih

/-- The last bytes are all that is missing. -/
theorem unbroken_dropLast (hne : ∀ seg ∈ segs, seg ≠ []) :
    unbroken (segs.flatMap List.dropLast) = unbroken segs.flatten ↔
      ∀ seg ∈ segs, seg.getLast? = some lf := by
  induction segs with
  | nil => simp [unbroken]
  | cons seg segs ih =>
    obtain ⟨hseg, hsegs⟩ := List.forall_mem_cons.mp hne
    obtain ⟨init, last, rfl⟩ : ∃ init last, seg = init ++ [last] :=
      ⟨_, _, (List.dropLast_append_getLast hseg).symm⟩
    rw [List.flatMap_cons, List.flatten_cons, List.dropLast_concat, List.forall_mem_cons,
      List.getLast?_concat, ← ih hsegs, List.append_assoc, unbroken_append, unbroken_append,
      unbroken_append, List.append_cancel_left_eq]
    by_cases hlast : last = lf
    · have hnone : unbroken [last] = [] := by simp [unbroken, hlast]
      rw [hnone, List.nil_append]
      exact ⟨fun h => ⟨congrArg some hlast, h⟩, fun h => h.2⟩
    · have hone : unbroken [last] = [last] := by simp [unbroken, hlast]
      have hle := ((flatMap_dropLast_sublist segs).filter (· ≠ lf)).length_le
      refine iff_of_false (fun heq => ?_) fun h => hlast (Option.some.inj h.1)
      rw [hone] at heq
      have hlen := congrArg List.length heq
      simp only [unbroken, List.singleton_append, List.length_cons] at hlen hle
      omega

end Pieces

namespace PollServer

section Relaying

variable {s t u : PollServer} {c d : Sock} {segs : List (List Byte)} {p : PollFd} {a : Answers}

theorem Pair.relaying (h : s.Pair c d) : s.Relaying c d [] s where
  fds := rfl
  sender := h.sender
  nonempty := nofun
  text := ⟨[], (List.append_nil _).symm, by rw [Users.pending_none h.recipient]; rfl⟩

theorem Relaying.mem (h : s.Relaying c d segs t) (hs : s.Pair c d) {b : Sock} :
    b ∈ t.pfd.tail.map PollFd.fd ↔ b = c ∨ b = d := by
  rw [h.fds, hs.clients.mem_iff]
  simp

theorem Relaying.skip (h : s.Relaying c d segs t) : s.Relaying c d segs t.skip :=
  ⟨h.fds, h.sender, h.nonempty, h.text⟩

theorem Relaying.poll (h : s.Relaying c d segs t) {revents : List Mask} (hp : t.Polled revents) :
    s.Relaying c d segs (t.poll revents) := by
  refine ⟨?_, h.sender, h.nonempty, h.text⟩
  rw [← h.fds, List.map_tail, List.map_tail]
  exact congrArg List.tail (map_fd_report hp.2.1.ge)

theorem Relaying.read (h : s.Relaying c d segs t) (hs : s.Pair c d) (hcd : c ≠ d) {seg : List Byte}
    (hc : p.fd = c) (hfree : (t.user d).datatowrite = none) (hne : seg ≠ [])
    (hnul : ∀ b ∈ seg, b ≠ 0) :
    s.Relaying c d (segs ++ [seg]) (t.readClient p (some seg)) := by
  have hd : d ∈ t.pfd.tail.map PollFd.fd := (h.mem hs).mpr (.inr rfl)
  have htext := cstr_lineBuf (fun x hx => hnul x (List.mem_of_mem_dropLast hx)) (seg.getLast hne)
  rw [List.dropLast_append_getLast hne] at htext
  obtain ⟨new, htrace, hnew⟩ := h.text
  rw [Users.pending_none hfree, List.flatten_nil, List.append_nil] at hnew
  obtain ⟨b, text, rfl⟩ := List.exists_cons_of_ne_nil hne
  have htold : (t.readClient p (some (b :: text))).user.pending d = [(b :: text).dropLast] := by
    have hptr : ((t.readClient p (some (b :: text))).user d).datatowrite = some c := by
      simp only [readClient, hc, tellOthers_datatowrite]
      exact if_pos ⟨hcd.symm, hd⟩
    have hbuf : ((t.readClient p (some (b :: text))).user c).buf = lineBuf (b :: text) := by
      simp [readClient, hc]
    rw [Users.pending_some hptr, hbuf, htext]
  refine ⟨?_, ?_, fun seg hseg => ?_, new ++ [.line p.fd (b :: text).dropLast], ?_, ?_⟩
  · rw [← h.fds]
    cases hpfd : t.pfd with
    | nil => simp only [readClient, hpfd, askWrites]
    | cons q qs => simp only [readClient, hpfd, askWrites, List.tail_cons, map_fd_askWrite]
  · simp only [readClient, hc, tellOthers_datatowrite, Users.setBuf_datatowrite]
    rw [if_neg fun hself => hself.1 rfl]
    exact h.sender
  · rcases List.mem_append.mp hseg with hseg | hseg
    · exact h.nonempty seg hseg
    · exact List.mem_singleton.mp hseg ▸ hne
  · rw [← List.append_assoc, ← htrace]
    rfl
  · rw [received_concat, htold, List.flatMap_append, ← hnew]
    simp [Event.received]

theorem Relaying.unwritten (h : s.Relaying c d segs t) (q : Sock) :
    s.Relaying c d segs { t with j := t.j + 1, trace := t.trace ++ [.writable q []] } := by
  obtain ⟨new, htrace, htext⟩ := h.text
  refine ⟨h.fds, h.sender, h.nonempty, new ++ [.writable q []], ?_, ?_⟩
  · rw [← List.append_assoc, ← htrace]
  · rw [received_concat, ← htext]
    simp [Event.received]

theorem Relaying.write (h : s.Relaying c d segs t) (hs : s.Pair c d) {r : Mask}
    {ps : List PollFd} (ht : Table t r ps) {i : Nat} (hj : t.j = i + 1) (hp : ps[i]? = some p)
    {write : Option Nat}
    (hw : ∀ b ∈ (t.user p.fd).datatowrite, ∀ n ∈ write, n = (cstr (t.user b).buf).length) :
    s.Relaying c d segs (t.writeClient p write) := by
  have hmem : p.fd = c ∨ p.fd = d := by
    rw [← h.mem hs, ht.pfd]
    exact List.mem_map_of_mem (List.mem_of_getElem? hp)
  cases hptr : (t.user p.fd).datatowrite with
  | none =>
    simp only [writeClient, hptr]
    exact h.unwritten p.fd
  | some b =>
    cases hwrite : write with
    | none =>
      simp only [writeClient, hptr]
      exact h.unwritten p.fd
    | some n =>
      have hfd : p.fd = d := by
        refine hmem.resolve_left fun hc => ?_
        rw [hc, h.sender] at hptr
        cases hptr
      have hset := map_set_of_eq PollFd.fd hp
        (q := { p with events := (p.events ||| pollin) ||| ~~~pollout }) rfl
      obtain ⟨new, htrace, htext⟩ := h.text
      simp only [writeClient, hptr, hw b hptr n hwrite, List.take_length]
      rw [hfd] at hptr
      rw [Users.pending_some hptr] at htext
      refine ⟨?_, ?_, h.nonempty, new ++ [.writable p.fd [cstr (t.user b).buf]], ?_, ?_⟩
      · rw [← h.fds, ht.pfd, hj, List.set_cons_succ]
        exact hset
      · by_cases hcd : c = d
        · simp [hfd, hcd]
        · simpa [hfd, hcd] using h.sender
      · rw [← List.append_assoc, ← htrace]
      · rw [received_concat, hfd, Users.pending_none (by simp), ← htext]
        simp [Event.received]

theorem Relaying.turn (h : s.Relaying c d segs t) (hs : s.Pair c d) (hcd : c ≠ d) {r : Mask}
    {ps : List PollFd} (ht : Table t r ps) (hp : t.pfd[t.j]? = some p) (ha : t.Relayed c d p a) :
    s.Relaying c d (segs ++ a.read.toList) (t.turn p a) := by
  obtain ⟨haccept, hhangup, hnone, hinput, houtput⟩ := ha
  cases hb : t.branch p with
  | input =>
    obtain ⟨hc, hfree, seg, hread, hne, -, hnul⟩ := hinput hb
    have hread' : a.read = some seg := hread
    rw [PollServer.turn, hb, hread']
    exact h.read hs hcd hc hfree hne hnul
  | hangup => exact absurd hb hhangup
  | output =>
    obtain ⟨i, hj, hpi⟩ := ht.client hp (.inr (.inr hb))
    rw [PollServer.turn, hb, hnone (by simp [hb]), Option.toList_none, List.append_nil]
    exact h.write hs ht hj hpi (houtput hb)
  | accept =>
    rw [PollServer.turn, hb, hnone (by simp [hb]), haccept, Option.toList_none, List.append_nil]
    exact h.skip
  | error | idle =>
    rw [PollServer.turn, hb, hnone (by simp [hb]), Option.toList_none, List.append_nil]
    exact h.skip

theorem Relaying.run {r : Mask} {ps : List PollFd} (ht : Table t r ps)
    (h : s.Relaying c d segs t) (hs : s.Pair c d) (hcd : c ≠ d) {is : List Input}
    (hrun : loop (Relayed c d) is t = some u) : s.Relaying c d (segs ++ pieces is) u := by
  induction is generalizing segs t r ps with
  | nil =>
    obtain rfl := Option.some.inj hrun
    simpa [pieces] using h
  | cons i is ih =>
    have hpieces : segs ++ pieces (i :: is) = (segs ++ i.piece) ++ pieces is := by
      rw [pieces, List.flatMap_cons, List.append_assoc]
      rfl
    rw [hpieces]
    cases i with
    | poll revents =>
      obtain ⟨hp, hrun⟩ := loop_poll hrun
      obtain ⟨r', ps', ht', -⟩ := ht.poll hp
      have hpolled := h.poll hp
      rw [← List.append_nil segs] at hpolled
      exact ih ht' hpolled hrun
    | turn a =>
      obtain ⟨p, hp, ha, hrun⟩ := loop_turn hrun
      have hfresh : t.Fresh p a := by
        rw [Fresh, ha.1]
        exact fun c hc => absurd hc (Option.not_mem_none c)
      obtain ⟨-, -, ps', ht'⟩ := ht.turn ⟨p, a, hp, hfresh, rfl⟩
      exact ih ht' (h.turn hs hcd ht hp ha) hrun

theorem Relaying.textSince_eq (h : s.Relaying c d segs t)
    (hnone : (t.user d).datatowrite = none) : textSince s d t = segs.flatMap List.dropLast := by
  obtain ⟨new, htrace, htext⟩ := h.text
  rw [Users.pending_none hnone, List.flatten_nil, List.append_nil] at htext
  rw [PollServer.textSince_eq htrace, htext]

end Relaying

/-- Two clients have connected. -/
def pairServer : PollServer :=
  (loop Fresh (connects 2) (start 3 fun _ => ⟨none, []⟩)).getD (start 3 fun _ => ⟨none, []⟩)

theorem pairServer_reach : Reachable (Loop Fresh) (start 3 fun _ => ⟨none, []⟩) pairServer := by
  have hsome : (loop Fresh (connects 2) (start 3 fun _ => ⟨none, []⟩)).isSome = true := by
    decide +kernel
  obtain ⟨s, hs⟩ := Option.isSome_iff_exists.mp hsome
  rw [pairServer, hs]
  exact reach_loop hs

theorem pairServer_pair : pairServer.Pair 4 5 := by
  have hfds : pairServer.pfd.tail.map PollFd.fd = [4, 5] := by decide +kernel
  exact ⟨.of_eq hfds, by decide +kernel, by decide +kernel⟩

/-- The first client is read in the pieces `cuts`, each written to the second
before the next. -/
def relays (cuts : List String) : List Input :=
  cuts.flatMap fun text =>
    [.poll [0, pollin, 0], .turn ⟨none, none, none⟩, .turn ⟨none, some (bytes text), none⟩,
      .turn ⟨none, none, none⟩, .poll [0, 0, pollout], .turn ⟨none, none, none⟩,
      .turn ⟨none, none, none⟩, .turn ⟨none, none, some (text.length - 1)⟩]

def relayed (cuts : List String) : Option (List Byte × Option Sock) :=
  (loop (Relayed 4 5) (relays cuts) pairServer).map fun t =>
    (textSince pairServer 5 t, (t.user 5).datatowrite)

section Segments

variable {s t t' : PollServer} {c d : Sock} {is is' : List Input}

/-- Two cuttings of a stream into reads carry the same text, with nothing but
line ends missing, exactly when every read ends behind a newline. -/
theorem segmentation_iff (listensock : Sock) (user : Users)
    (h : Reachable (Loop Fresh) (start listensock user) s) (hs : s.Pair c d)
    (hrun : loop (Relayed c d) is s = some t) (hrun' : loop (Relayed c d) is' s = some t')
    (hdone : (t.user d).datatowrite = none) (hdone' : (t'.user d).datatowrite = none)
    (hsame : (pieces is).flatten = (pieces is').flatten) :
    (unbroken (textSince s d t) = unbroken (textSince s d t') ∧
        unbroken (textSince s d t) = unbroken (pieces is).flatten ∧
        unbroken (textSince s d t') = unbroken (pieces is').flatten) ↔
      ∀ seg ∈ pieces is ++ pieces is', seg.getLast? = some lf := by
  obtain ⟨⟨r, ps, ht⟩, -⟩ := table_reachable h
  have hcd : c ≠ d := by
    have hnodup := ht.tracks.nodup
    have hfds : s.pfd.tail.map PollFd.fd = ps.map PollFd.fd := by rw [ht.pfd, List.tail_cons]
    rw [← hfds, hs.clients.nodup_iff] at hnodup
    simpa using hnodup
  have hrelay := hs.relaying.run ht hs hcd hrun
  have hrelay' := hs.relaying.run ht hs hcd hrun'
  rw [List.nil_append] at hrelay hrelay'
  rw [hrelay.textSince_eq hdone, hrelay'.textSince_eq hdone',
    unbroken_dropLast hrelay.nonempty, unbroken_dropLast hrelay'.nonempty, List.forall_mem_append]
  refine ⟨fun hall => hall.2, fun hall => ⟨?_, hall⟩⟩
  calc unbroken ((pieces is).flatMap List.dropLast) = unbroken (pieces is).flatten :=
        (unbroken_dropLast hrelay.nonempty).mpr hall.1
    _ = unbroken (pieces is').flatten := by rw [hsame]
    _ = unbroken ((pieces is').flatMap List.dropLast) :=
        ((unbroken_dropLast hrelay'.nonempty).mpr hall.2).symm

theorem segmentation_two : ∃ t t' : PollServer,
    unbroken (textSince pairServer 5 t) = bytes "abc" ∧
      unbroken (textSince pairServer 5 t) = unbroken (textSince pairServer 5 t') := by
  have hone : relayed ["ab\nc\n"] = some (bytes "ab\nc", none) := by decide +kernel
  have htwo : relayed ["ab\n", "c\n"] = some (bytes "abc", none) := by decide +kernel
  obtain ⟨t, hrun, ht⟩ := Option.map_eq_some_iff.mp hone
  obtain ⟨t', hrun', ht'⟩ := Option.map_eq_some_iff.mp htwo
  obtain ⟨htext, hdone⟩ := Prod.mk.inj ht
  obtain ⟨-, hdone'⟩ := Prod.mk.inj ht'
  refine ⟨t, t', by rw [htext]; decide, ?_⟩
  exact ((segmentation_iff 3 _ pairServer_reach pairServer_pair hrun hrun' hdone hdone'
    (by decide)).mpr (by decide)).1

theorem segmentation_drops : ¬ ∀ (listensock : Sock) (user : Users) (s t t' : PollServer)
    (c d : Sock) (is is' : List Input), Reachable (Loop Fresh) (start listensock user) s →
    s.Pair c d → loop (Relayed c d) is s = some t → loop (Relayed c d) is' s = some t' →
    (t.user d).datatowrite = none → (t'.user d).datatowrite = none →
    (pieces is).flatten = (pieces is').flatten →
    unbroken (textSince s d t) = unbroken (textSince s d t') := by
  intro h
  have hone : relayed ["abc\n"] = some (bytes "abc", none) := by decide +kernel
  have htwo : relayed ["ab", "c\n"] = some (bytes "ac", none) := by decide +kernel
  obtain ⟨t, hrun, ht⟩ := Option.map_eq_some_iff.mp hone
  obtain ⟨t', hrun', ht'⟩ := Option.map_eq_some_iff.mp htwo
  obtain ⟨htext, hdone⟩ := Prod.mk.inj ht
  obtain ⟨htext', hdone'⟩ := Prod.mk.inj ht'
  have hsame := h 3 _ _ t t' 4 5 _ _ pairServer_reach pairServer_pair hrun hrun' hdone
    hdone' (by decide)
  rw [htext, htext'] at hsame
  exact absurd hsame (by decide)

end Segments

end PollServer

end LinuxStudy

import LinuxStudy.PlainGet

/-! What `Dealwithsock` does with a directory. The mode and the size it goes by
are those of the path it looked up, which for a URL without the final slash is
the directory and not the index page. -/

namespace LinuxStudy

inductive Answer
  | refused
  | notFound
  | sent (path : List Byte) (size : Int)
  | run (path : List Byte)
  deriving DecidableEq

section Answer

variable (fs : FileSystem)

def answer (r : Request) : Answer :=
  match route fs r with
  | .rejected => .refused
  | .tooLong => .refused
  | .missing => .notFound
  | .servedTooLong => .refused
  | .cgi st => .run (servedPath st (allPath r))
  | .static st => .sent (servedPath st (allPath r)) (toInt32 st.size)

def answerAt (cgi : Bool) (p : List Byte) : Answer :=
  match fs p with
  | none => .notFound
  | some st =>
    if pathSize ≤ (servedPath st p).length then .refused
    else if cgi || st.executable then .run (servedPath st p)
    else .sent (servedPath st p) (toInt32 st.size)

theorem answer_eq {r : Request} (hacc : r.accepted = true) (hlen : (allPath r).length < pathSize) :
    answer fs r = answerAt fs r.cgi (allPath r) := by
  have hrejected : ¬ r.accepted = false := by rw [hacc]; exact Bool.noConfusion
  rw [answer, answerAt, route, if_neg hrejected, if_neg (Nat.not_le_of_lt hlen)]
  cases fs (allPath r) with
  | none => rfl
  | some st =>
    by_cases hlong : pathSize ≤ (servedPath st (allPath r)).length
    · simp only [if_pos hlong]
    · by_cases hcgi : (r.cgi || st.executable) = true
      · simp only [if_neg hlong, if_pos hcgi]
      · simp only [if_neg hlong, if_neg hcgi]

end Answer

def indexPath (d : List Byte) : List Byte := wwwroot ++ (d ++ slash :: indexName)

/-- The index page of a directory decides what is done with it. -/
def indexAnswer (fs : FileSystem) (d : List Byte) : Answer :=
  match fs (indexPath d) with
  | none => .notFound
  | some f => if f.executable = true then .run (indexPath d) else .sent (indexPath d) f.size

def directoryUrls (d : List Byte) : List (List Byte) :=
  [d, d ++ [slash], d ++ slash :: indexName]

structure PlainDirectory (d : List Byte) : Prop where
  noSpace : ∀ b ∈ d, isspace b = false
  noMark : questionMark ∉ d
  noNul : 0 ∉ d
  ne_nil : d ≠ []
  noSlash : d.getLast? ≠ some slash
  fits : (indexPath d).length < pathSize

section IndexPage

variable (fs : FileSystem) {d : List Byte}

theorem PlainDirectory.length (hd : PlainDirectory d) : d.length + 18 < 522 := by
  have hfits := hd.fits
  have hroot : wwwroot.length = 7 := by decide
  have hindex : indexName.length = 10 := by decide
  rw [indexPath, List.length_append, List.length_append, List.length_cons, hroot, hindex] at hfits
  change _ < 522 at hfits
  omega

theorem PlainDirectory.plainUrl (hd : PlainDirectory d) {x : List Byte}
    (hx : ∀ b ∈ x, isspace b = false ∧ b ≠ questionMark ∧ b ≠ 0) (hlen : x.length ≤ 11) :
    PlainUrl (d ++ x) where
  noSpace := List.forall_mem_append.mpr ⟨hd.noSpace, fun b hb => (hx b hb).1⟩
  noMark := by
    rw [List.mem_append, not_or]
    exact ⟨hd.noMark, fun hb => (hx _ hb).2.1 rfl⟩
  noNul := by
    rw [List.mem_append, not_or]
    exact ⟨hd.noNul, fun hb => (hx _ hb).2.2 rfl⟩
  ne_nil := List.append_ne_nil_of_left_ne_nil hd.ne_nil x
  length_le := by
    have := hd.length
    rw [List.length_append]
    omega

theorem allPath_directory (hd : PlainDirectory d) (query : Option (List Byte)) (cgi : Bool) :
    allPath ⟨bytes "GET", d, some d, query, cgi⟩ = wwwroot ++ d := by
  have hlast : (wwwroot ++ d).getLast? ≠ some slash := by
    obtain ⟨b, hb⟩ := Option.ne_none_iff_exists'.mp (List.getLast?_eq_none_iff.not.mpr hd.ne_nil)
    rw [List.getLast?_append, hb, Option.some_or, ← hb]
    exact hd.noSlash
  exact if_neg hlast

theorem allPath_index {u : List Byte} (hu : u ∈ [d ++ [slash], d ++ slash :: indexName])
    (query : Option (List Byte)) (cgi : Bool) :
    allPath ⟨bytes "GET", u, some u, query, cgi⟩ = indexPath d := by
  rw [List.mem_cons, List.mem_singleton] at hu
  rcases hu with rfl | rfl
  · have hlast : (wwwroot ++ (d ++ [slash])).getLast? = some slash := by simp
    have hpath : wwwroot ++ (d ++ [slash]) ++ indexName = indexPath d := by simp [indexPath]
    exact (if_pos hlast).trans hpath
  · have hlast : (wwwroot ++ (d ++ slash :: indexName)).getLast? ≠ some slash := by
      rw [List.getLast?_append, List.getLast?_append,
        show (slash :: indexName).getLast? = some 108 by decide, Option.some_or, Option.some_or]
      decide
    exact if_neg hlast

theorem answer_url {u p : List Byte} (hu : PlainUrl u) (m : Locals) (tail : List Byte)
    (hp : ∀ query cgi, allPath ⟨bytes "GET", u, some u, query, cgi⟩ = p)
    (hlen : p.length < pathSize) : ∃ cgi, (cgi = true ↔ StaleMark m u.length) ∧
      answer fs (readRequest m (getLine bufSize (getRequest u tail)).1) = answerAt fs cgi p := by
  obtain ⟨query, cgi, hread, hcgi⟩ := hu.read m tail
  refine ⟨cgi, hcgi, ?_⟩
  have hacc : Request.accepted ⟨bytes "GET", u, some u, query, cgi⟩ = true := by
    rw [Request.accepted, show methodIs "GET" (bytes "GET") = true by decide]
    rfl
  rw [hread, answer_eq fs hacc (by rwa [hp]), hp]

theorem answer_directory (hd : PlainDirectory d) (m : Locals) (tail : List Byte) {st : FileNode}
    (hst : fs (wwwroot ++ d) = some st) (hdir : st.isDir = true) :
    ∃ cgi, (cgi = true ↔ StaleMark m d.length) ∧
      answer fs (readRequest m (getLine bufSize (getRequest d tail)).1) =
        if cgi || st.executable then .run (indexPath d)
        else .sent (indexPath d) (toInt32 st.size) := by
  have hserved : servedPath st (wwwroot ++ d) = indexPath d := by
    rw [servedPath, if_pos hdir, indexPath, List.append_assoc]
  have hlen : (wwwroot ++ d).length < pathSize := by
    have hfits := hd.fits
    rw [← hserved, servedPath, if_pos hdir, List.length_append] at hfits
    omega
  have hplain : PlainUrl d := by simpa using hd.plainUrl (x := []) nofun (by decide)
  obtain ⟨cgi, hcgi, hans⟩ := answer_url fs hplain m tail (allPath_directory hd) hlen
  refine ⟨cgi, hcgi, ?_⟩
  rw [hans, answerAt, hst]
  simp only [hserved, if_neg (Nat.not_le_of_lt hd.fits)]

theorem answer_index (hd : PlainDirectory d) (m : Locals) (tail : List Byte) {u : List Byte}
    (hu : u ∈ [d ++ [slash], d ++ slash :: indexName]) :
    ∃ cgi, (cgi = true → StaleMark m d.length) ∧
      answer fs (readRequest m (getLine bufSize (getRequest u tail)).1) =
        answerAt fs cgi (indexPath d) := by
  have hplain : PlainUrl u ∧ d.length ≤ u.length := by
    rw [List.mem_cons, List.mem_singleton] at hu
    rcases hu with rfl | rfl
    · exact ⟨hd.plainUrl (forall_mem_of_all (by decide)) (by decide), by simp⟩
    · exact ⟨hd.plainUrl (forall_mem_of_all (by decide)) (by decide), by simp⟩
  obtain ⟨cgi, hcgi, hans⟩ := answer_url fs hplain.1 m tail (allPath_index hu) hd.fits
  exact ⟨cgi, fun hc => (hcgi.mp hc).mono hplain.2, hans⟩

/-- What the directory and its index page have to be for the mode and the size
of the one to do for the other. -/
def IndexDecides (fs : FileSystem) (m : Locals) (d : List Byte) (st : FileNode) : Prop :=
  ∃ f, fs (indexPath d) = some f ∧ f.isDir = false ∧
    ((f.executable = true ∧ (StaleMark m d.length ∨ st.executable = true)) ∨
      (f.executable = false ∧ ¬ StaleMark m d.length ∧ st.executable = false ∧
        toInt32 st.size = f.size ∧ toInt32 f.size = f.size))

theorem answerAt_file {f : FileNode} {p : List Byte} (hf : fs p = some f) (hfile : f.isDir = false)
    (hlen : p.length < pathSize) (cgi : Bool) : answerAt fs cgi p =
      if cgi || f.executable then .run p else .sent p (toInt32 f.size) := by
  have hserved : servedPath f p = p := by
    rw [servedPath, if_neg]
    rw [hfile]
    exact Bool.false_ne_true
  rw [answerAt, hf]
  simp only [hserved, if_neg (Nat.not_le_of_lt hlen)]

theorem answerAt_directory {f : FileNode} {p : List Byte} (hf : fs p = some f)
    (hdir : f.isDir = true) (cgi : Bool) :
    answerAt fs cgi p ≠ .run p ∧ ∀ size, answerAt fs cgi p ≠ .sent p size := by
  have hne : servedPath f p ≠ p := by
    intro he
    have hlen := congrArg List.length he
    rw [servedPath, if_pos hdir, List.length_append, List.length_cons] at hlen
    omega
  rw [answerAt, hf]
  simp only
  split
  · exact ⟨nofun, nofun⟩
  · split
    · exact ⟨fun he => hne (Answer.run.inj he), nofun⟩
    · exact ⟨nofun, fun size he => hne (Answer.sent.inj he).1⟩

theorem indexAnswer_of_file {f : FileNode} (hf : fs (indexPath d) = some f) : indexAnswer fs d =
    if f.executable = true then .run (indexPath d) else .sent (indexPath d) f.size := by
  rw [indexAnswer, hf]

theorem served_eq_iff {p : List Byte} {cgi exec exec' : Bool} {size size' : Int} :
    (if cgi || exec then Answer.run p else .sent p size) =
      (if exec' = true then .run p else .sent p size') ↔
    (exec' = true ∧ (cgi = true ∨ exec = true)) ∨
      (exec' = false ∧ cgi = false ∧ exec = false ∧ size = size') := by
  cases cgi <;> cases exec <;> cases exec' <;> simp

theorem decides_of_answers {m : Locals} {st : FileNode} {c c' : Bool}
    (hc : c = true ↔ StaleMark m d.length)
    (hd : (if c || st.executable then .run (indexPath d)
      else .sent (indexPath d) (toInt32 st.size)) = indexAnswer fs d)
    (hi : answerAt fs c' (indexPath d) = indexAnswer fs d)
    (hlen : (indexPath d).length < pathSize) : IndexDecides fs m d st := by
  cases hf : fs (indexPath d) with
  | none =>
    rw [indexAnswer, hf] at hd
    split at hd <;> cases hd
  | some f =>
    rw [indexAnswer_of_file fs hf] at hd hi
    cases hfile : f.isDir with
    | true =>
      obtain ⟨hrun, hsent⟩ := answerAt_directory fs hf hfile c'
      split at hi
      · exact absurd hi hrun
      · exact absurd hi (hsent _)
    | false =>
      rw [answerAt_file fs hf hfile hlen] at hi
      refine ⟨f, hf, hfile, ?_⟩
      rcases served_eq_iff.mp hd with ⟨hexec, hrun⟩ | ⟨hexec, hmark, hst, hsize⟩
      · exact .inl ⟨hexec, hrun.imp_left hc.mp⟩
      · rcases served_eq_iff.mp hi with ⟨hexec', -⟩ | ⟨-, -, -, hsize'⟩
        · rw [hexec] at hexec'
          cases hexec'
        · rw [← Bool.not_eq_true, hc] at hmark
          exact .inr ⟨hexec, hmark, hst, hsize, hsize'⟩

/-- The three URLs of a directory are answered by its index page exactly when the
directory's mode and size happen to lead there as well. -/
theorem index_agreement_iff (m : Locals) {d : List Byte} {st : FileNode}
    (hd : PlainDirectory d) (hst : fs (wwwroot ++ d) = some st) (hdir : st.isDir = true) :
    (∀ u ∈ directoryUrls d, ∀ tail,
      answer fs (readRequest m (getLine bufSize (getRequest u tail)).1) = indexAnswer fs d) ↔
    IndexDecides fs m d st := by
  constructor
  · intro h
    obtain ⟨c, hc, ha⟩ := answer_directory fs hd m [] hst hdir
    obtain ⟨c', -, ha'⟩ := answer_index fs hd m [] List.mem_cons_self
    have hurl := h d List.mem_cons_self []
    have hslash := h (d ++ [slash]) (List.mem_cons_of_mem _ List.mem_cons_self) []
    rw [ha] at hurl
    rw [ha'] at hslash
    exact decides_of_answers fs hc hurl hslash hd.fits
  · rintro ⟨f, hf, hfile, hcase⟩ u hu tail
    rw [indexAnswer_of_file fs hf]
    rcases List.mem_cons.mp hu with rfl | hu
    · obtain ⟨c, hc, ha⟩ := answer_directory fs hd m tail hst hdir
      rw [ha, served_eq_iff]
      rcases hcase with ⟨hexec, hmark⟩ | ⟨hexec, hmark, hst', hsize, -⟩
      · exact .inl ⟨hexec, hmark.imp_left hc.mpr⟩
      · exact .inr ⟨hexec, Bool.eq_false_iff.mpr fun hct => hmark (hc.mp hct), hst', hsize⟩
    · obtain ⟨c, hc, ha⟩ := answer_index fs hd m tail hu
      rw [ha, answerAt_file fs hf hfile hd.fits, served_eq_iff]
      rcases hcase with ⟨hexec, -⟩ | ⟨hexec, hmark, -, -, hsize⟩
      · exact .inl ⟨hexec, .inr hexec⟩
      · exact .inr ⟨hexec, Bool.eq_false_iff.mpr fun hct => hmark (hc hct), hexec, hsize⟩

def oneDirectory (dirMode indexMode : Nat) : FileSystem := fun p =>
  if p = wwwroot ++ bytes "/d" then some ⟨dirMode, 1, []⟩
  else if p = indexPath (bytes "/d") then some ⟨indexMode, 1, [120]⟩
  else none

theorem plainDirectory_d : PlainDirectory (bytes "/d") :=
  ⟨forall_mem_of_all (by decide), by decide, by decide, by decide, by decide, by decide⟩

theorem index_agreement_plain :
    answer (oneDirectory 0o040644 0o644) (readRequest (.const 120)
      (getLine bufSize (getRequest (bytes "/d") (bytes "HTTP/1.0\r\n\r\n"))).1) =
      .sent (indexPath (bytes "/d")) 1 :=
  (index_agreement_iff (oneDirectory 0o040644 0o644) (.const 120) plainDirectory_d rfl rfl).mpr
    ⟨⟨0o644, 1, [120]⟩, rfl, rfl, .inr ⟨rfl, not_staleMark_const (by decide) _, rfl, rfl, rfl⟩⟩
    (bytes "/d") List.mem_cons_self _

/-- A directory can be searched, so its page is taken for a program. -/
theorem index_run_as_program :
    ¬ ∀ (fs : FileSystem) (m : Locals) (d : List Byte) (st : FileNode), PlainDirectory d →
      fs (wwwroot ++ d) = some st → st.isDir = true →
      ∀ u ∈ directoryUrls d, ∀ tail,
        answer fs (readRequest m (getLine bufSize (getRequest u tail)).1) = indexAnswer fs d := by
  intro h
  have hd := h (oneDirectory 0o040755 0o644) (.const 120) (bytes "/d") ⟨0o040755, 1, []⟩
    plainDirectory_d rfl rfl _ List.mem_cons_self []
  have hst : oneDirectory 0o040755 0o644 (wwwroot ++ bytes "/d") = some ⟨0o040755, 1, []⟩ := rfl
  obtain ⟨c, -, ha⟩ := answer_directory (oneDirectory 0o040755 0o644) plainDirectory_d
    (.const 120) [] hst rfl
  rw [ha] at hd
  have hexec : FileNode.executable ⟨0o040755, 1, []⟩ = true := by decide
  rw [hexec, Bool.or_true, if_pos rfl] at hd
  cases hd

end IndexPage

end LinuxStudy

import LinuxStudy.HeaderFraming
import LinuxStudy.QueryTransfer

/-! The body of a POST request on its way to the CGI program. The parent counts
to the `int` that `atoi` made of the declared length, and writes its last byte
again where `recv` has none. -/

namespace LinuxStudy

def Action.written : Action → List Byte
  | .write b _ => [b]
  | _ => []

/-- The bytes written to the program's input. -/
def written (as : List Action) : List Byte := as.flatMap Action.written

/-- No child is made, and an error is sent. -/
def Refused (fs : FileSystem) (res : SysResults) (as : List Action) : Prop :=
  children as = [] ∧ echoError fs res 500 <:+: as

/-- As much of the body as `value` says and there is gets written to the input
of the one child, which calls `execl` with that value in the environment. -/
def Relayed (as : List Action) (body : List Byte) (value : Nat) : Prop :=
  written as = body.take value ∧ ∃ child path env ok, children as = [child] ∧
    .overflow ∉ child ∧ .execl path env ok ∈ child ∧ env.contentLen = some (value : Int)

/-- Nothing ends the child before its `execl`, nor the reader of its input. -/
structure KeepsReading (res : SysResults) : Prop where
  cgiHead : res.cgiHead ≠ .sigpipe
  cgiBlank : res.cgiBlank ≠ .sigpipe
  reader : ∀ k, res.bodyReader k = true

/-- One line of the block is `Content-Length: d`. -/
structure Declares (hs : List HeaderLine) (d : List Byte) : Prop where
  digits : ∀ b ∈ d, isdigit b = true
  line : ∃ pre h post, hs = pre ++ h :: post ∧ h.text = lengthField ++ d ∧
    ∀ x ∈ pre ++ post, x.text.take 16 ≠ lengthField

/-- The length that the loop over the header block ends with. -/
def lengthRead (hs : List HeaderLine) : Int :=
  declaredLength ((scannedLines hs).flatMap fun h => cutEvery 1022 h.text)

def LengthKept (hs : List HeaderLine) (crlf : Bool) (body d : List Byte) : Prop :=
  lengthRead hs ≤ 0 ∨ (lengthRead hs = digitsValue d ∧ digitsValue d ≤ body.length ∧
    (unreadPart hs crlf body).take (digitsValue d) = body.take (digitsValue d))

section Body

theorem length_bodyBytes (n : Nat) (ch : Byte) (s : List Byte) : (bodyBytes n ch s).length = n := by
  induction n generalizing ch s with
  | zero => rfl
  | succ n ih =>
    cases s with
    | nil => rw [bodyBytes, List.length_cons, ih]
    | cons b s => rw [bodyBytes, List.length_cons, ih]

theorem bodyBytes_take {n : Nat} (ch : Byte) {s : List Byte} (h : n ≤ s.length) :
    bodyBytes n ch s = s.take n := by
  induction n generalizing ch s with
  | zero => rfl
  | succ n ih =>
    cases s with
    | nil => exact absurd h (Nat.not_succ_le_zero n)
    | cons b s => rw [bodyBytes, ih b (Nat.le_of_succ_le_succ h), List.take_succ_cons]

theorem length_le_unreadPart (hs : List HeaderLine) (crlf : Bool) (body : List Byte) :
    body.length ≤ (unreadPart hs crlf body).length := by
  by_cases h : ∃ x ∈ hs, 1023 ∣ x.text.length
  · exact (length_lt_unreadPart h crlf body).le
  · rw [unreadPart_eq fun x hx hdvd => h ⟨x, hx, hdvd⟩]

/-- As many bytes are written as were counted, so they are the body's only if it
has as many. -/
theorem bodyBytes_eq_iff {rest body : List Byte} (hle : body.length ≤ rest.length) (v : Nat) :
    bodyBytes v 0 rest = body.take v ↔ v ≤ body.length ∧ rest.take v = body.take v := by
  constructor
  · intro h
    have hlen := congrArg List.length h
    rw [length_bodyBytes, List.length_take] at hlen
    refine ⟨by omega, ?_⟩
    rwa [bodyBytes_take 0 (by omega)] at h
  · rintro ⟨hv, htake⟩
    rw [bodyBytes_take 0 (hv.trans hle), htake]

end Body

section Written

theorem written_append (as bs : List Action) : written (as ++ bs) = written as ++ written bs :=
  List.flatMap_append

theorem written_cons (a : Action) (as : List Action) :
    written (a :: as) = a.written ++ written as := List.flatMap_cons

theorem written_mapIdx {f : Nat → Byte → Action} (hf : ∀ k b, (f k b).written = [b])
    (s : List Byte) : written (s.mapIdx f) = s := by
  induction s generalizing f with
  | nil => rfl
  | cons b s ih =>
    rw [List.mapIdx_cons, written_cons, hf, ih fun k b => hf (k + 1) b]
    rfl

theorem written_mapIdx_nil {f : Nat → Byte → Action} (hf : ∀ k b, (f k b).written = [])
    (s : List Byte) : written (s.mapIdx f) = [] := by
  induction s generalizing f with
  | nil => rfl
  | cons b s ih =>
    rw [List.mapIdx_cons, written_cons, hf, ih fun k b => hf (k + 1) b]
    rfl

variable (fs : FileSystem) (res : SysResults)

theorem written_cgiParent (body output : List Byte) :
    written (cgiParent res body output) = body := by
  have hwrite := written_mapIdx (f := fun k b => .write b (res.bodyReader k)) (fun _ _ => rfl) body
  have hrelay := written_mapIdx_nil (f := fun k b => .relay b (res.relay k)) (fun _ _ => rfl) output
  rw [cgiParent, written_append, written_append, written_append, hwrite, hrelay]
  exact (List.append_nil _).trans (List.append_nil body)

/-- A request that is not forked for is refused; else the body goes to the child. -/
theorem runCgi_branches (method path : List Byte) (query : Option (List Byte)) (len : Int)
    (rest : List Byte) :
    (cgiBranch res method len ≠ .forked →
      echoError fs res 500 <:+: runCgi fs res method path query len rest) ∧
    (cgiBranch res method len = .forked →
      written (runCgi fs res method path query len rest) = cgiBody method len rest) := by
  cases hbranch : cgiBranch res method len with
  | noLength =>
    refine ⟨fun _ => ⟨[], [.exit (-1)], ?_⟩, fun h => by cases h⟩
    rw [runCgi, hbranch]
    rfl
  | noPipeIn =>
    refine ⟨fun _ => ⟨[], [.closed .conn, .exit (-1)], ?_⟩, fun h => by cases h⟩
    rw [runCgi, hbranch]
    rfl
  | noPipeOut =>
    refine ⟨fun _ => ⟨[.opened .in0, .opened .in1], [.closed .conn, .exit (-1)], ?_⟩,
      fun h => by cases h⟩
    rw [runCgi, hbranch]
  | noFork =>
    refine ⟨fun _ => ⟨openedPipes, [.closed .conn, .exit (-1)], ?_⟩, fun h => by cases h⟩
    rw [runCgi, hbranch]
  | forked =>
    refine ⟨fun h => absurd rfl h, fun _ => ?_⟩
    simp only [runCgi, hbranch, written_append, written_cons, written_cgiParent]
    rfl

end Written

section Post

variable {method : List Byte}

theorem post_not_get (hpost : methodIs "POST" method = true) : methodIs "GET" method = false := by
  rw [methodIs, strcasecmpEq, beq_iff_eq] at hpost
  rw [methodIs, strcasecmpEq, ← hpost]
  rfl

theorem post_wantsLength (hpost : methodIs "POST" method = true) : wantsLength method = true := by
  rw [methodIs, strcasecmpEq, beq_iff_eq] at hpost
  rw [wantsLength, Bool.not_eq_true', strcmpEq, beq_eq_false_iff_ne]
  intro he
  rw [← he] at hpost
  exact absurd hpost (by decide)

theorem fits_post (len : Int) (query : Option (List Byte)) (hpost : methodIs "POST" method = true)
    (hmethod : method.length ≤ 99) : (cgiEnv method len query).Fits := by
  have hm : (bytes "METHOD=").length = 7 := by decide
  rw [CgiEnv.Fits, cgiEnv, post_not_get hpost, hm]
  refine ⟨?_, fun q hq => by cases hq⟩
  change 7 + method.length < 255
  omega

variable {fs : FileSystem} {res : SysResults} {r : Request} {st : FileNode} {len : Int}
  {rest unread : List Byte}

theorem serveRequest_post (hpost : methodIs "POST" r.method = true) (hroute : route fs r = .cgi st)
    (hheader : headerLoop rest = (len, unread)) : serveRequest fs res r rest =
      .stat (allPath r) :: .headers (wantsLength r.method) (rest.length - unread.length) ::
        runCgi fs res r.method (servedPath st (allPath r)) r.query len unread := by
  have hcgi : cgiHeaders r.method rest = (len, unread) := by
    rw [cgiHeaders, if_pos (post_wantsLength hpost), hheader]
  rw [serveRequest, hroute]
  simp only [echoCgi, hcgi]

theorem children_post (res : SysResults) (hpost : methodIs "POST" r.method = true)
    (hroute : route fs r = .cgi st) (hheader : headerLoop rest = (len, unread)) :
    children (serveRequest fs res r rest) =
      if cgiBranch res r.method len = .forked then
        [cgiChild res (servedPath st (allPath r)) (cgiEnv r.method len r.query)]
      else [] := by
  rw [children_cgi fs res rest hroute, cgiHeaders, if_pos (post_wantsLength hpost), hheader]

theorem relayed_forked (hpost : methodIs "POST" r.method = true) (hmethod : r.method.length ≤ 99)
    (hroute : route fs r = .cgi st) (hheader : headerLoop rest = (len, unread))
    (hforked : cgiBranch res r.method len = .forked) (body : List Byte) (v : Nat) :
    Relayed (serveRequest fs res r rest) body v ↔
      bodyBytes len.toNat 0 unread = body.take v ∧ len = v := by
  have hchild := children_post res hpost hroute hheader
  rw [if_pos hforked] at hchild
  have hfed : written (serveRequest fs res r rest) = bodyBytes len.toNat 0 unread := by
    have hwritten := (runCgi_branches fs res r.method (servedPath st (allPath r)) r.query len
      unread).2 hforked
    rw [serveRequest_post hpost hroute hheader, written_cons, written_cons, hwritten, cgiBody,
      feedCount, hpost]
    rfl
  have hlen : (cgiEnv r.method len r.query).contentLen = some len := by
    rw [cgiEnv, hpost]
    rfl
  have hfits := fits_post len r.query hpost hmethod
  constructor
  · rintro ⟨hbody, child, path, env, ok, hone, -, hexec, hvalue⟩
    rw [hchild] at hone
    obtain rfl := List.singleton_inj.mp hone
    obtain ⟨-, -, rfl, -⟩ := execl_mem_cgiChild.mp hexec
    rw [hlen] at hvalue
    exact ⟨hfed ▸ hbody, Option.some.inj hvalue⟩
  · rintro ⟨hbody, hvalue⟩
    exact ⟨hfed.trans hbody, _, servedPath st (allPath r), _, res.execl, hchild,
      fun hover => overflow_mem_cgiChild.mp hover hfits,
      execl_mem_cgiChild.mpr ⟨hfits, rfl, rfl, rfl⟩, hlen.trans (congrArg some hvalue)⟩

/-- A request is refused exactly where no child is forked for it. -/
theorem refused_or_relayed (res : SysResults) (hpost : methodIs "POST" r.method = true)
    (hmethod : r.method.length ≤ 99) (hroute : route fs r = .cgi st)
    (hheader : headerLoop rest = (len, unread)) (body : List Byte) (v : Nat) :
    Refused fs res (serveRequest fs res r rest) ∨ Relayed (serveRequest fs res r rest) body v ↔
      (cgiBranch res r.method len = .forked →
        bodyBytes len.toNat 0 unread = body.take v ∧ len = v) := by
  have hchild := children_post res hpost hroute hheader
  by_cases hbranch : cgiBranch res r.method len = .forked
  · have hsome : ¬ Refused fs res (serveRequest fs res r rest) := by
      rintro ⟨hnone, -⟩
      rw [hchild, if_pos hbranch] at hnone
      cases hnone
    rw [or_iff_right hsome, relayed_forked hpost hmethod hroute hheader hbranch]
    exact ⟨fun h _ => h, fun h => h hbranch⟩
  · have hrefused := (runCgi_branches fs res r.method (servedPath st (allPath r)) r.query len
      unread).1 hbranch
    rw [if_neg hbranch] at hchild
    refine iff_of_true (.inl ⟨hchild, ?_⟩) fun h => absurd h hbranch
    rw [serveRequest_post hpost hroute hheader]
    exact hrefused.trans (List.suffix_append [_, _] _).isInfix

end Post

theorem keepsReading_succeeding (n : Nat) : KeepsReading (.succeeding n) :=
  ⟨nofun, nofun, fun _ => rfl⟩

section Kept

variable {fs : FileSystem} {r : Request} {st : FileNode}

theorem fed_iff (hs : List HeaderLine) (crlf : Bool) (body d : List Byte) :
    bodyBytes (lengthRead hs).toNat 0 (unreadPart hs crlf body) = body.take (digitsValue d) ∧
        lengthRead hs = digitsValue d ↔
      lengthRead hs = digitsValue d ∧ digitsValue d ≤ body.length ∧
        (unreadPart hs crlf body).take (digitsValue d) = body.take (digitsValue d) := by
  rw [and_comm]
  refine and_congr_right fun hlen => ?_
  rw [hlen, Int.toNat_natCast]
  exact bodyBytes_eq_iff (length_le_unreadPart hs crlf body) (digitsValue d)

theorem LengthKept.relays {hs : List HeaderLine} {crlf : Bool} {body d : List Byte}
    (hkept : LengthKept hs crlf body d) (hpost : methodIs "POST" r.method = true)
    (hmethod : r.method.length ≤ 99) (hroute : route fs r = .cgi st) (res : SysResults) :
    Refused fs res (serveRequest fs res r (requestBytes hs crlf body)) ∨
      Relayed (serveRequest fs res r (requestBytes hs crlf body)) body (digitsValue d) := by
  have hheader := headerLoop_block hs crlf body
  refine (refused_or_relayed res hpost hmethod hroute hheader body (digitsValue d)).mpr
    fun hforked => ?_
  rcases hkept with hrefuse | hlen
  · rw [cgiBranch, if_pos ⟨post_wantsLength hpost, hrefuse⟩] at hforked
    cases hforked
  · exact (fed_iff hs crlf body d).mpr hlen

theorem lengthKept_of_relays {hs : List HeaderLine} {crlf : Bool} {body d : List Byte}
    {res : SysResults} (hres : ReachesExec res) (hpost : methodIs "POST" r.method = true)
    (hmethod : r.method.length ≤ 99) (hroute : route fs r = .cgi st)
    (h : Refused fs res (serveRequest fs res r (requestBytes hs crlf body)) ∨
      Relayed (serveRequest fs res r (requestBytes hs crlf body)) body (digitsValue d)) :
    LengthKept hs crlf body d := by
  have hheader := headerLoop_block hs crlf body
  have hfed := (refused_or_relayed res hpost hmethod hroute hheader body (digitsValue d)).mp h
  refine or_iff_not_imp_left.mpr fun hpos => (fed_iff hs crlf body d).mp (hfed ?_)
  exact (cgiBranch_forked hres r.method _).mpr fun _ => Int.lt_of_not_ge hpos

end Kept

section Declared

variable {hs : List HeaderLine} {d : List Byte}

theorem readLength_other (len : Int) {t : List Byte} (h0 : ∀ b ∈ t, b ≠ 0)
    (h : t.take 16 ≠ lengthField) : readLength len t = len := by
  have hno : strncmpEq lengthField t 16 = false := by
    rw [Bool.eq_false_iff, Ne, strncmpEq_length_iff h0]
    exact h
  rw [readLength, hno]
  rfl

theorem foldl_readLength_other (len : Int) (h : ∀ x ∈ hs, x.text.take 16 ≠ lengthField) :
    (hs.map HeaderLine.text).foldl readLength len = len := by
  induction hs with
  | nil => rfl
  | cons x hs ih =>
    have h0 : ∀ b ∈ x.text, b ≠ 0 := fun b hb => (x.plain b hb).2.2
    rw [List.map_cons, List.foldl_cons, readLength_other len h0 (h x List.mem_cons_self)]
    exact ih fun y hy => h y (List.mem_cons_of_mem x hy)

theorem Declares.length_eq (h : Declares hs d) :
    declaredLength (hs.map HeaderLine.text) = atoi d := by
  obtain ⟨pre, x, post, rfl, hx, hother⟩ := h.line
  have hpre : ∀ y ∈ pre, y.text.take 16 ≠ lengthField := fun y hy =>
    hother y (List.mem_append_left post hy)
  have hpost : ∀ y ∈ post, y.text.take 16 ≠ lengthField := fun y hy =>
    hother y (List.mem_append_right pre hy)
  have hlen : lengthField.length = 16 := rfl
  have h0 : ∀ b ∈ x.text, b ≠ 0 := fun b hb => (x.plain b hb).2.2
  have hread : readLength 0 x.text = atoi d := by
    have heq : strncmpEq lengthField x.text 16 = true := by
      rw [strncmpEq_length_iff h0, hx, ← hlen, List.take_left]
    rw [readLength, heq, if_pos rfl, hx, ← hlen, List.drop_left]
  rw [declaredLength, List.map_append, List.foldl_append, foldl_readLength_other 0 hpre,
    List.map_cons, List.foldl_cons, hread, foldl_readLength_other _ hpost]

theorem strtol_digits (h : ∀ b ∈ d, isdigit b = true) :
    strtol d = min (2 ^ 63 - 1) (digitsValue d : Int) := by
  have hdigit : ∀ b, isdigit b = true → b ≠ 0 ∧ isspace b = false ∧ b ≠ 45 ∧ b ≠ 43 := by
    have hall : ∀ n : Fin 256, isdigit (.ofFin n) = true → UInt8.ofFin n ≠ 0 ∧
        isspace (.ofFin n) = false ∧ UInt8.ofFin n ≠ 45 ∧ UInt8.ofFin n ≠ 43 := by decide +kernel
    exact fun b => hall b.toFin
  rw [strtol, cstr_of_plain fun b hb => (hdigit b (h b hb)).1]
  cases d with
  | nil => rfl
  | cons b t =>
    obtain ⟨-, hspace, hminus, hplus⟩ := hdigit b (h b List.mem_cons_self)
    rw [List.dropWhile_cons_of_neg (by rw [hspace]; exact Bool.false_ne_true)]
    simp only [hminus, hplus, if_false]

theorem atoi_digits_iff (h : ∀ b ∈ d, isdigit b = true) :
    atoi d = digitsValue d ↔ digitsValue d < 2 ^ 31 := by
  rw [atoi, strtol_digits h]
  by_cases hle : (digitsValue d : Int) ≤ 2 ^ 63 - 1
  · rw [min_eq_right hle]
    exact toInt32_natCast_iff (digitsValue d)
  · have hbig : min (2 ^ 63 - 1) (digitsValue d : Int) = 2 ^ 63 - 1 := min_eq_left (by omega)
    have hwrap : toInt32 (2 ^ 63 - 1) = -1 := by decide
    rw [hbig, hwrap]
    omega

theorem lengthKept_short (hdecl : Declares hs d) (hshort : ∀ x ∈ hs, x.text.length < 1023)
    (crlf : Bool) (body : List Byte) : LengthKept hs crlf body d ↔
      atoi d ≤ 0 ∨ digitsValue d < 2 ^ 31 ∧ digitsValue d ≤ body.length := by
  have hdvd : ∀ x ∈ hs, ¬ 1023 ∣ x.text.length := by
    intro x hx hd
    have hpos := Nat.le_of_dvd (List.length_pos_iff.mpr x.ne) hd
    have hlt := hshort x hx
    omega
  have hread : lengthRead hs = atoi d := by
    rw [lengthRead, scannedLines_eq hdvd, declaredLength_cut_short hs hshort, hdecl.length_eq]
  rw [LengthKept, hread, unreadPart_eq hdvd, and_iff_left rfl, atoi_digits_iff hdecl.digits]

end Declared

/-- A POST request is refused or its body relayed exactly when the length read
from the block is not positive, or is the declared one and the body as long; for
lines that fit the buffer, that is a length below 2³¹ that the body has. -/
theorem body_relay_iff (fs : FileSystem) (m : Locals) {stream line : List Byte}
    {hs : List HeaderLine} {crlf : Bool} {body d : List Byte} {st : FileNode}
    (hstream : getLine bufSize stream = (line, requestBytes hs crlf body))
    (hpost : methodIs "POST" (readRequest m line).method = true)
    (hroute : route fs (readRequest m line) = .cgi st) (hdecl : Declares hs d) :
    ((∀ res, KeepsReading res →
      Refused fs res (dealwithsock fs res m stream) ∨
        Relayed (dealwithsock fs res m stream) body (digitsValue d)) ↔
      LengthKept hs crlf body d) ∧
    ((∀ x ∈ hs, x.text.length < 1023) → (LengthKept hs crlf body d ↔
      atoi d ≤ 0 ∨ digitsValue d < 2 ^ 31 ∧ digitsValue d ≤ body.length)) := by
  refine ⟨?_, fun hshort => lengthKept_short hdecl hshort crlf body⟩
  have hmethod := readRequest_method_le m line
  have hserve : ∀ res, dealwithsock fs res m stream =
      serveRequest fs res (readRequest m line) (requestBytes hs crlf body) := by
    intro res
    rw [dealwithsock, hstream]
  simp only [hserve]
  constructor
  · intro hall
    exact lengthKept_of_relays (reachesExec_succeeding 1) hpost hmethod hroute
      (hall _ (keepsReading_succeeding 1))
  · exact fun hkept res _ => hkept.relays hpost hmethod hroute res

def lengthLine (d : List Byte) (hd : ∀ b ∈ d, isdigit b = true) : HeaderLine where
  text := lengthField ++ d
  crlf := true
  ne := List.cons_ne_nil _ _
  plain := by
    have hdigit : ∀ n : Fin 256, isdigit (.ofFin n) = true →
        UInt8.ofFin n ≠ cr ∧ UInt8.ofFin n ≠ lf ∧ UInt8.ofFin n ≠ 0 := by decide +kernel
    intro b hb
    rcases List.mem_append.mp hb with hb | hb
    · exact forall_mem_of_all (p := fun b => b ≠ cr ∧ b ≠ lf ∧ b ≠ 0) (by decide) b hb
    · exact hdigit b.toFin (hd b hb)

theorem declares_lengthLine {d : List Byte} (hd : ∀ b ∈ d, isdigit b = true) :
    Declares [lengthLine d hd] d :=
  ⟨hd, [], _, [], rfl, rfl, nofun⟩

theorem post_case : (bytes "POST").map tolower = bytes "post" := by
  decide

theorem shortUrl_plain : ∀ b ∈ bytes "/c", isspace b = false ∧ b ≠ 0 :=
  forall_mem_of_all (by decide)

theorem shortUrl_le : (bytes "/c").length ≤ 1023 := by
  decide

def postLine : PrintedRequest :=
  printedLine (bytes "POST") (.inr post_case) (bytes "/c") (List.cons_ne_nil _ _) shortUrl_plain
    shortUrl_le

def postStream (d : List Byte) (hd : ∀ b ∈ d, isdigit b = true) (body : List Byte) : List Byte :=
  postLine.text ++ requestBytes [lengthLine d hd] true body

theorem postLine_read : readRequest (.const 0) (postLine.line ++ [lf]) =
    ⟨bytes "POST", bytes "/c", none, none, true⟩ := by
  have hlen : (bytes "/c").length < 1024 := by decide
  have hget : methodIs "GET" (bytes "POST") = false := by decide
  rw [postLine.readRequest_line]
  exact splitUrl_of_not_get (.const 0) hlen hget

theorem postLine_route : route (oneFile 0o644) ⟨bytes "POST", bytes "/c", none, none, true⟩ =
    .cgi ⟨0o644, 1, [120]⟩ := rfl

theorem body_relay_three :
    Refused (oneFile 0o644) (.succeeding 1) (dealwithsock (oneFile 0o644) (.succeeding 1)
        (.const 0) (postStream (bytes "3") (forall_mem_of_all (by decide)) (bytes "abcdef"))) ∨
      Relayed (dealwithsock (oneFile 0o644) (.succeeding 1) (.const 0)
        (postStream (bytes "3") (forall_mem_of_all (by decide)) (bytes "abcdef")))
        (bytes "abcdef") (digitsValue (bytes "3")) := by
  have hd : ∀ b ∈ bytes "3", isdigit b = true := forall_mem_of_all (by decide)
  have hshort : ∀ x ∈ [lengthLine (bytes "3") hd], x.text.length < 1023 := by
    intro x hx
    rw [List.mem_singleton.mp hx]
    change (lengthField ++ bytes "3").length < 1023
    decide
  have hpost : methodIs "POST" (readRequest (.const 0) (postLine.line ++ [lf])).method = true := by
    rw [postLine_read]
    decide
  have hroute : route (oneFile 0o644) (readRequest (.const 0) (postLine.line ++ [lf])) =
      .cgi ⟨0o644, 1, [120]⟩ := by
    rw [postLine_read]
    exact postLine_route
  have hstream := postLine.getLine_text (requestBytes [lengthLine (bytes "3") hd] true
    (bytes "abcdef"))
  have hiff := body_relay_iff (oneFile 0o644) (.const 0) hstream hpost hroute
    (declares_lengthLine hd)
  have hkept := (hiff.2 hshort).mpr (.inr ⟨by decide, by decide⟩)
  exact hiff.1.mpr hkept _ (keepsReading_succeeding 1)

theorem not_relayed {d : List Byte} (hd : ∀ b ∈ d, isdigit b = true) (body : List Byte)
    (hshort : (lengthField ++ d).length < 1023) (hpos : 0 < atoi d)
    (hlost : ¬ (digitsValue d < 2 ^ 31 ∧ digitsValue d ≤ body.length)) :
    ¬ (Refused (oneFile 0o644) (.succeeding 1)
        (dealwithsock (oneFile 0o644) (.succeeding 1) (.const 0) (postStream d hd body)) ∨
      Relayed (dealwithsock (oneFile 0o644) (.succeeding 1) (.const 0) (postStream d hd body)) body
        (digitsValue d)) := by
  have hlines : ∀ x ∈ [lengthLine d hd], x.text.length < 1023 := by
    intro x hx
    rw [List.mem_singleton.mp hx]
    exact hshort
  have hkept := lengthKept_short (declares_lengthLine hd) hlines true body
  rw [dealwithsock, postStream, postLine.getLine_text, postLine_read]
  intro h
  have hpost : methodIs "POST" (bytes "POST") = true := by decide
  rcases hkept.mp (lengthKept_of_relays (reachesExec_succeeding 1) hpost (by decide)
    postLine_route h) with hle | hvalue
  · omega
  · exact hlost hvalue

/-- A body of three bytes declared as five, and two declared as 2³² + 1. -/
theorem body_lost :
    (¬ (Refused (oneFile 0o644) (.succeeding 1) (dealwithsock (oneFile 0o644) (.succeeding 1)
          (.const 0) (postStream (bytes "5") (forall_mem_of_all (by decide)) (bytes "abc"))) ∨
        Relayed (dealwithsock (oneFile 0o644) (.succeeding 1) (.const 0)
          (postStream (bytes "5") (forall_mem_of_all (by decide)) (bytes "abc")))
          (bytes "abc") 5)) ∧
      ¬ (Refused (oneFile 0o644) (.succeeding 1) (dealwithsock (oneFile 0o644) (.succeeding 1)
          (.const 0) (postStream (bytes "4294967297") (forall_mem_of_all (by decide))
            (bytes "ab"))) ∨
        Relayed (dealwithsock (oneFile 0o644) (.succeeding 1) (.const 0)
          (postStream (bytes "4294967297") (forall_mem_of_all (by decide)) (bytes "ab")))
          (bytes "ab") 4294967297) := by
  have h5 : digitsValue (bytes "5") = 5 := by decide
  have hwrap : digitsValue (bytes "4294967297") = 4294967297 := by decide
  refine ⟨?_, ?_⟩
  · rw [← h5]
    exact not_relayed _ (bytes "abc") (by decide) (by decide) (by decide)
  · rw [← hwrap]
    exact not_relayed _ (bytes "ab") (by decide) (by decide) (by decide)

end LinuxStudy

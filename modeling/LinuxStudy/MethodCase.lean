import Mathlib.Data.List.Forall2
import LinuxStudy.RequestHandling

/-! Two requests that differ only in the letter case of the method. The server
compares the method without regard to case, except where `echo_cgi` decides
whether it reads a length and where `get_data` reads its environment. Each
request finds text of its own in the buffer that a child copies. -/

namespace LinuxStudy

def CgiEnv.extracted (e : CgiEnv) : Option (List Byte) := getData (some e.method) e.query

/-- The environments give a program the same, the text of METHOD apart. -/
def CgiEnv.Alike (e e' : CgiEnv) : Prop :=
  e.contentLen = e'.contentLen ∧ e.query = e'.query ∧ e.extracted = e'.extracted

inductive ChildAct.Alike : ChildAct → ChildAct → Prop
  | refl (a : ChildAct) : Alike a a
  | execl {e e' : CgiEnv} (path : List Byte) (ok : Bool) (h : e.Alike e') :
      Alike (.execl path e ok) (.execl path e' ok)

inductive Action.Alike : Action → Action → Prop
  | refl (a : Action) : Alike a a
  | fork {child child' : List ChildAct} (h : List.Forall₂ ChildAct.Alike child child') :
      Alike (.fork child) (.fork child')

/-- The same system calls in the same order, with the same bytes. -/
def TreatedAlike (as bs : List Action) : Prop := List.Forall₂ Action.Alike as bs

/-- A program that learns the method through `get_data` only. -/
def ReadsThroughGetData (program : List Byte → CgiEnv → List Byte → List Byte) : Prop :=
  ∀ path e e' body, CgiEnv.Alike e e' → program path e body = program path e' body

theorem treatedAlike_refl (as : List Action) : TreatedAlike as as :=
  List.forall₂_same.mpr fun a _ => .refl a

theorem CgiEnv.Alike.fits {e e' : CgiEnv} (h : e.Alike e')
    (hlen : e.method.length = e'.method.length) : e.Fits ↔ e'.Fits := by
  rw [CgiEnv.Fits, CgiEnv.Fits, h.2.1, hlen]

theorem methodIs_congr (name : String) {s t : List Byte} (h : s.map tolower = t.map tolower) :
    methodIs name s = methodIs name t := by
  simp only [methodIs, strcasecmpEq, map_tolower_cstr, h]

theorem copyUntil_token {stop : Byte → Bool} {mem : Memory} {t : List Byte} {limit i : Nat}
    (hmem : ∀ (k : Nat) (hk : k < t.length), mem (i + k) = t[k]) (hstop : ∀ b ∈ t, stop b = false)
    (hlen : t.length ≤ limit) :
    copyUntil stop mem limit i = t ++ copyUntil stop mem (limit - t.length) (i + t.length) := by
  induction t generalizing limit i with
  | nil => simp
  | cons b t ih =>
    obtain ⟨limit, rfl⟩ : ∃ r, limit = r + 1 := ⟨limit - 1, by simp at hlen; omega⟩
    have hb : mem i = b := hmem 0 (by simp)
    have htail : ∀ (k : Nat) (hk : k < t.length), mem (i + 1 + k) = t[k] := by
      intro k hk
      rw [Nat.add_assoc, Nat.add_comm 1]
      exact hmem (k + 1) (by simpa using hk)
    have hh := ih htail (fun c hc => hstop c (List.mem_cons_of_mem b hc)) (by simpa using hlen)
    rw [copyUntil, hb, hstop b List.mem_cons_self, hh]
    simp [Nat.add_assoc, Nat.add_comm 1]

theorem skipSpace_congr {a b : Memory} {fuel i : Nat} (h : ∀ k, i ≤ k → a k = b k) :
    skipSpace a fuel i = skipSpace b fuel i := by
  induction fuel generalizing i with
  | zero => rfl
  | succ fuel ih =>
    rw [skipSpace, skipSpace, h i (Nat.le_refl i), ih fun k hk => h k (Nat.le_of_succ_le hk)]

structure MethodToken (t : List Byte) : Prop where
  noSpace : ∀ b ∈ t, isspace b = false
  length_le : t.length ≤ 99

theorem MethodToken.congr {t t' : List Byte} (ht : MethodToken t)
    (hcase : t.map tolower = t'.map tolower) : MethodToken t' := by
  have hlen : t.length = t'.length := by simpa using congrArg List.length hcase
  refine ⟨fun b hb => ?_, hlen ▸ ht.length_le⟩
  obtain ⟨c, hc, hcb⟩ : ∃ c ∈ t, tolower c = tolower b := by
    have hmem : tolower b ∈ t.map tolower := hcase ▸ List.mem_map_of_mem hb
    simpa using hmem
  rw [← isspace_tolower b, ← hcb, isspace_tolower]
  exact ht.noSpace c hc

theorem MethodToken.getLine {t : List Byte} (ht : MethodToken t) (s : List Byte) :
    getLine bufSize (t ++ s) = (t ++ (getLineLoop (bufSize - 1 - t.length) s).1,
      (getLineLoop (bufSize - 1 - t.length) s).2) := by
  refine getLineLoop_within s (fun b hb => ?_) (ht.length_le.trans (by decide))
  have hs := ht.noSpace b hb
  constructor
  · rintro rfl
    exact absurd hs (by decide)
  · rintro rfl
    exact absurd hs (by decide)

theorem store_token {mem : Memory} {t x : List Byte} {k : Nat} (hk : k < t.length) :
    store mem (t ++ x) k = t[k] := by
  rw [store_lt (by rw [List.length_append]; omega), List.getElem_append_left hk]

theorem store_after_token (mem : Memory) {t t' : List Byte} (x : List Byte)
    (hlen : t.length = t'.length) {k : Nat} (hk : t.length ≤ k) :
    store mem (t ++ x) k = store mem (t' ++ x) k := by
  have hk' : t'.length ≤ k := hlen ▸ hk
  rw [store, store, List.append_assoc, List.append_assoc, List.getElem?_append_right hk,
    List.getElem?_append_right hk', hlen]

theorem splitUrl_case (m : Locals) {a b : List Byte} (h : a.map tolower = b.map tolower)
    (urlBytes : List Byte) :
    splitUrl m b urlBytes = { splitUrl m a urlBytes with method := b } := by
  simp only [splitUrl, methodIs_congr _ h]

theorem readRequest_case (m : Locals) {t t' : List Byte} (ht : MethodToken t)
    (hcase : t.map tolower = t'.map tolower) (x : List Byte) :
    ∃ a b, (cstr a).map tolower = (cstr b).map tolower ∧
      (readRequest m (t ++ x)).method = cstr a ∧
      readRequest m (t' ++ x) = { readRequest m (t ++ x) with method := cstr b } := by
  have hlen : t.length = t'.length := by simpa using congrArg List.length hcase
  have ht' := ht.congr hcase
  have hafter : ∀ k, t.length ≤ k → store m.buf (t ++ x) k = store m.buf (t' ++ x) k :=
    fun k hk => store_after_token m.buf x hlen hk
  obtain ⟨u, hu, hu'⟩ : ∃ u, copyUntil isspace (store m.buf (t ++ x)) 99 0 = t ++ u ∧
      copyUntil isspace (store m.buf (t' ++ x)) 99 0 = t' ++ u := by
    refine ⟨_, copyUntil_token (fun k hk => ?_) ht.noSpace ht.length_le, ?_⟩
    · rw [Nat.zero_add, store_token hk]
    · rw [copyUntil_token (fun k hk => by rw [Nat.zero_add, store_token hk]) ht'.noSpace
        ht'.length_le,
        ← hlen]
      exact congrArg (t' ++ ·)
        (copyUntil_congr (n := 99) (fun k _ => (hafter _ (by omega)).symm) (.inl (by omega)))
  have hlenu : (t ++ u).length = (t' ++ u).length := by simp [hlen]
  have hmethod : ∀ s : List Byte, (copyUntil isspace (store m.buf s) 99 0).length < 100 :=
    fun s => Nat.lt_succ_of_le (copyUntil_length_le _ _ _ _)
  have hstr := stringAt_whole m.method (hu ▸ hmethod (t ++ x))
  have hstr' := stringAt_whole m.method (hu' ▸ hmethod (t' ++ x))
  have hskip : skipSpace (store m.buf (t' ++ x)) (bufSize - (t ++ u).length) (t ++ u).length =
      skipSpace (store m.buf (t ++ x)) (bufSize - (t ++ u).length) (t ++ u).length :=
    skipSpace_congr fun k hk => (hafter k (by rw [List.length_append] at hk; omega)).symm
  have hle := le_skipSpace (store m.buf (t ++ x)) (bufSize - (t ++ u).length) (t ++ u).length
  have hurl : ∀ i, (t ++ u).length ≤ i → copyUntil isspace (store m.buf (t' ++ x)) 1023 i =
      copyUntil isspace (store m.buf (t ++ x)) 1023 i :=
    fun i hi => copyUntil_congr
      (fun k _ => (hafter (i + k) (by rw [List.length_append] at hi; omega)).symm)
      (.inl (Nat.le_refl _))
  have hcstr : (cstr (t ++ u)).map tolower = (cstr (t' ++ u)).map tolower := by
    simp only [map_tolower_cstr, List.map_append, hcase]
  refine ⟨t ++ u, t' ++ u, hcstr, ?_, ?_⟩
  · rw [readRequest, hu, hstr]
    rfl
  · rw [readRequest, readRequest, hu, hu', ← hlenu, hskip, hstr, hstr', hurl _ hle,
      splitUrl_case m hcstr]

section Handling

variable (fs : FileSystem) (res : SysResults)

theorem route_case {r : Request} {method' : List Byte}
    (h : r.method.map tolower = method'.map tolower) :
    route fs { r with method := method' } = route fs r := by
  have hacc : { r with method := method' }.accepted = r.accepted := by
    simp only [Request.accepted, methodIs_congr _ h]
  rw [route, route, hacc]
  rfl

theorem cgiEnv_alike {method method' : List Byte} (hcase : method.map tolower = method'.map tolower)
    (hget : wantsLength method = wantsLength method') (len : Int) (query : Option (List Byte)) :
    (cgiEnv method len query).Alike (cgiEnv method' len query) := by
  have hget' : strcmpEq (bytes "GET") method = strcmpEq (bytes "GET") method' := by
    simpa [wantsLength] using hget
  refine ⟨?_, ?_, ?_⟩
  · simp only [cgiEnv, methodIs_congr _ hcase]
  · simp only [cgiEnv, methodIs_congr _ hcase]
  · rw [CgiEnv.extracted, CgiEnv.extracted, cgiEnv, cgiEnv, methodIs_congr "GET" hcase]
    simp only [getData]
    rw [hget']

theorem cgiChild_alike (path : List Byte) {e e' : CgiEnv} (h : e.Alike e')
    (hlen : e.method.length = e'.method.length) :
    List.Forall₂ ChildAct.Alike (cgiChild res path e) (cgiChild res path e') := by
  rw [cgiChild, cgiChild]
  by_cases hf : e.Fits
  · rw [if_pos hf, if_pos ((h.fits hlen).mp hf)]
    exact .cons (.refl _) (.cons (.refl _) (.cons (.execl path _ h)
      (List.forall₂_same.mpr fun a _ => .refl a)))
  · rw [if_neg hf, if_neg fun hf' => hf ((h.fits hlen).mpr hf')]
    exact .cons (.refl _) .nil

theorem runCgi_alike (hprog : ReadsThroughGetData res.program) {method method' : List Byte}
    (hcase : method.map tolower = method'.map tolower)
    (hget : wantsLength method = wantsLength method') (path : List Byte)
    (query : Option (List Byte)) (len : Int) (rest : List Byte) :
    TreatedAlike (runCgi fs res method path query len rest)
      (runCgi fs res method' path query len rest) := by
  have hlen : method.length = method'.length := by simpa using congrArg List.length hcase
  have hbranch : cgiBranch res method' len = cgiBranch res method len := by
    rw [cgiBranch, cgiBranch, hget]
  have hbody : cgiBody method' len rest = cgiBody method len rest := by
    simp only [cgiBody, feedCount, methodIs_congr _ hcase]
  have henv := cgiEnv_alike hcase hget len query
  have hout : ∀ body, cgiOutput res path (cgiEnv method' len query) body =
      cgiOutput res path (cgiEnv method len query) body := by
    intro body
    have hfits := henv.fits hlen
    simp only [cgiOutput, ← hfits, hprog path _ _ body henv]
  rw [runCgi, runCgi, hbranch]
  cases cgiBranch res method len with
  | forked =>
    rw [hbody, hout]
    exact List.rel_append (treatedAlike_refl openedPipes)
      (.cons (.fork (cgiChild_alike res path henv hlen)) (treatedAlike_refl _))
  | _ => exact treatedAlike_refl _

theorem serveRequest_alike (hprog : ReadsThroughGetData res.program) {r : Request}
    {method' : List Byte} (hcase : r.method.map tolower = method'.map tolower)
    (h : (∃ st, route fs r = .cgi st) → wantsLength r.method = wantsLength method')
    (s : List Byte) :
    TreatedAlike (serveRequest fs res r s)
      (serveRequest fs res { r with method := method' } s) := by
  rw [serveRequest, serveRequest, route_case fs hcase]
  cases hr : route fs r with
  | cgi st =>
    have hget := h ⟨st, hr⟩
    have hheaders : cgiHeaders method' s = cgiHeaders r.method s := by
      rw [cgiHeaders, cgiHeaders, hget]
    refine .cons (.refl _) ?_
    rw [echoCgi, echoCgi, hheaders, hget]
    exact .cons (.refl _) (runCgi_alike fs res hprog hcase hget _ _ _ _)
  | _ => exact treatedAlike_refl _

theorem Action.Alike.headers {wants wants' : Bool} {n n' : Nat}
    (h : Action.Alike (.headers wants n) (.headers wants' n')) : wants = wants' := by
  cases h
  rfl

/-- On the way to a CGI program `GET` is told from its other spellings. -/
theorem serveRequest_not_alike {r : Request} {method' : List Byte} (st : FileNode)
    (hcase : r.method.map tolower = method'.map tolower) (hr : route fs r = .cgi st) (s : List Byte)
    (h : TreatedAlike (serveRequest fs res r s)
      (serveRequest fs res { r with method := method' } s)) :
    wantsLength r.method = wantsLength method' := by
  rw [serveRequest, serveRequest, route_case fs hcase, hr, TreatedAlike, List.forall₂_cons, echoCgi,
    echoCgi, List.forall₂_cons] at h
  exact h.2.1.headers

theorem executes_of_output {env : CgiEnv} {path body : List Byte}
    (h : (cgiOutput (res.leaving [] []) path env body).length =
      (cgiOutput (res.leaving [0] [0]) path env body).length) : Executes res env := by
  simp only [cgiOutput, SysResults.leaving] at h
  constructor
  · by_contra hfits
    simp [hfits] at h
  · intro hhead hblank
    by_contra hexec
    by_cases hfits : env.Fits
    · simp [hfits, hhead, hblank, hexec] at h
    · simp [hfits] at h

theorem serveRequest_length {r : Request} {st : FileNode} (hr : route fs r = .cgi st)
    (s : List Byte) (hb : cgiBranch res r.method (cgiHeaders r.method s).1 = .forked) :
    (serveRequest fs res r s).length =
      (cgiOutput res (servedPath st (allPath r)) (cgiEnv r.method (cgiHeaders r.method s).1 r.query)
        (cgiBody r.method (cgiHeaders r.method s).1 (cgiHeaders r.method s).2)).length +
      (cgiBody r.method (cgiHeaders r.method s).1 (cgiHeaders r.method s).2).length + 13 := by
  simp only [serveRequest, hr, echoCgi, runCgi, hb, cgiParent, openedPipes, List.length_cons,
    List.length_append, List.length_mapIdx, List.length_nil]
  omega

/-- A response that does not depend on what was left behind comes from a child
that executes its program. -/
theorem executes_of_length {r : Request} {s : List Byte}
    (h : (serveRequest fs (res.leaving [] []) r s).length =
      (serveRequest fs (res.leaving [0] [0]) r s).length) : RequestExecutes fs res r s := by
  intro st hr hb
  rw [serveRequest_length fs (res.leaving [] []) hr s hb,
    serveRequest_length fs (res.leaving [0] [0]) hr s hb] at h
  exact executes_of_output res (Nat.add_right_cancel (Nat.add_right_cancel h))

end Handling

theorem wantsLength_cstr (s : List Byte) :
    wantsLength (cstr s) = !decide (cstr s = bytes "GET") := by
  have hget : cstr (bytes "GET") = bytes "GET" := by decide
  rw [wantsLength, strcmpEq, cstr_cstr, hget, beq_eq_decide]
  simp only [eq_comm]

/-- Requests that differ in the case of the method are treated alike exactly
when no program is run for them, or both of them or neither say `GET` in
capitals and the child that is forked executes the program. -/
theorem method_case_iff (fs : FileSystem) (res : SysResults)
    (hprog : ReadsThroughGetData res.program) (m : Locals) {t t' : List Byte} (ht : MethodToken t)
    (hcase : t.map tolower = t'.map tolower) (s : List Byte) :
    (∀ l o l' o', TreatedAlike (dealwithsock fs (res.leaving l o) m (t ++ s))
        (dealwithsock fs (res.leaving l' o') m (t' ++ s))) ↔
      ((∃ st, route fs (readRequest m (getLine bufSize (t ++ s)).1) = .cgi st) →
        ((readRequest m (getLine bufSize (t ++ s)).1).method = bytes "GET" ↔
          (readRequest m (getLine bufSize (t' ++ s)).1).method = bytes "GET")) ∧
      RequestExecutes fs res (readRequest m (getLine bufSize (t ++ s)).1)
        (getLine bufSize (t ++ s)).2 := by
  have hlen : t.length = t'.length := by simpa using congrArg List.length hcase
  obtain ⟨a, b, hab, hra, hrb⟩ :=
    readRequest_case m ht hcase (getLineLoop (bufSize - 1 - t.length) s).1
  simp only [dealwithsock, ht.getLine, (ht.congr hcase).getLine, ← hlen, hrb, hra]
  rw [← hra] at hab
  have hwants : wantsLength (cstr a) = wantsLength (cstr b) ↔
      (cstr a = bytes "GET" ↔ cstr b = bytes "GET") := by
    rw [wantsLength_cstr, wantsLength_cstr, Bool.not_inj_iff, decide_eq_decide]
  constructor
  · intro h
    refine ⟨fun ⟨st, hst⟩ => ?_, executes_of_length fs res ?_⟩
    · have halike := h [] [] [] []
      exact hwants.mp (hra ▸ serveRequest_not_alike fs (res.leaving [] []) st hab hst _ halike)
    · have hempty := (h [] [] [] []).length_eq
      have hone := (h [0] [0] [] []).length_eq
      exact hempty.trans hone.symm
  · rintro ⟨h, hexec⟩ l o l' o'
    have halike := serveRequest_alike fs (res.leaving l' o') hprog hab
      (fun hst => hra ▸ hwants.mpr (h hst)) (getLineLoop (bufSize - 1 - t.length) s).2
    rwa [serveRequest_leaving fs res hexec, ← serveRequest_leaving fs res hexec l o] at halike

def SysResults.extracting : SysResults :=
  { SysResults.succeeding 100 with program := fun _ e _ => e.extracted.getD [] }

theorem SysResults.extracting_reads : ReadsThroughGetData SysResults.extracting.program :=
  fun _ _ _ _ h => congrArg (Option.getD · []) h.2.2

def requestTail : List Byte := bytes " /program?a=1 HTTP/1.0\r\n\r\n"

theorem method_case_post :
    TreatedAlike
      (dealwithsock (oneFile 0o755) (SysResults.extracting.leaving (bytes "POST /program\n") [])
        (.const 120) (bytes "POST" ++ requestTail))
      (dealwithsock (oneFile 0o755) (SysResults.extracting.leaving (bytes "post /program\n") [])
        (.const 120) (bytes "post" ++ requestTail)) :=
  (method_case_iff _ _ SysResults.extracting_reads _ ⟨forall_mem_of_all (by decide), by decide⟩
    (by decide) _).mpr ⟨fun _ => by decide, fun _ _ _ => ⟨by decide, fun _ _ => rfl⟩⟩ _ _ _ _

theorem method_case_get :
    ReadsThroughGetData SysResults.extracting.program ∧ MethodToken (bytes "GET") ∧
      (bytes "GET").map tolower = (bytes "get").map tolower ∧
      ¬ TreatedAlike
        (dealwithsock (oneFile 0o755) .extracting (.const 120) (bytes "GET" ++ requestTail))
        (dealwithsock (oneFile 0o755) .extracting (.const 120) (bytes "get" ++ requestTail)) := by
  refine ⟨SysResults.extracting_reads, ⟨forall_mem_of_all (by decide), by decide⟩, by decide,
    fun h => ?_⟩
  have hread : readRequest (.const 120) (getLine bufSize (bytes "GET" ++ requestTail)).1 =
      ⟨bytes "GET", bytes "/program?a=1", some (bytes "/program"), some (bytes "a=1"), true⟩ := by
    decide
  have hread' : readRequest (.const 120) (getLine bufSize (bytes "get" ++ requestTail)).1 =
      ⟨bytes "get", bytes "/program?a=1", some (bytes "/program"), some (bytes "a=1"), true⟩ := by
    decide
  have hrest : (getLine bufSize (bytes "get" ++ requestTail)).2 =
      (getLine bufSize (bytes "GET" ++ requestTail)).2 := by decide
  rw [dealwithsock, dealwithsock, hread, hread', hrest] at h
  have hwants := serveRequest_not_alike (oneFile 0o755) .extracting ⟨0o755, 1, [120]⟩
    (by decide) rfl _ h
  exact absurd hwants (by decide)

end LinuxStudy

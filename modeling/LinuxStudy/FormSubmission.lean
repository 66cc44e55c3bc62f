import LinuxStudy.QueryTransfer
import LinuxStudy.SqlStatement

/-! A submitted form on its whole way, from the request line through the
server and the environment of the insert program to the statement that the
database reads. -/

namespace LinuxStudy

/-- One child is made, `execl` succeeds in it, and the program makes of its
environment an INSERT statement whose row is `vs`. -/
def Inserted (as : List Action) (vs : List (List Byte)) : Prop :=
  ∃ child path env text, children as = [child] ∧ .overflow ∉ child ∧
    .execl path env true ∈ child ∧ insertStatement (some env.method) env.query = some text ∧
    ReadsInsert text vs

theorem readsInsert_iff {vs : List (List Byte)} (hne : vs ≠ []) :
    ReadsInsert (insertHead ++ quoteAll comma closeParen quote vs) vs ↔
      ∀ v ∈ vs, SqlVerbatim v := by
  obtain ⟨v, ws, rfl⟩ := List.exists_cons_of_ne_nil hne
  constructor
  · rintro ⟨s, hs, hread⟩
    rw [← List.append_cancel_left hs] at hread
    exact hread.verbatim mysqlUnescape_length mysqlUnescape_pair rfl rfl
  · intro h
    exact ⟨_, rfl, .of_verbatim (.inl rfl) rfl rfl rfl (by decide) (by decide) h⟩

theorem inserted_child {res : SysResults} {as : List Action} {path : List Byte} {env : CgiEnv}
    (has : children as = [cgiChild res path env]) (hexec : res.execl = true)
    (vs : List (List Byte)) :
    Inserted as vs ↔ env.Fits ∧
      ∃ text, insertStatement (some env.method) env.query = some text ∧ ReadsInsert text vs := by
  constructor
  · rintro ⟨child, path', env', text, hchild, -, hexec, htext⟩
    obtain rfl : cgiChild res path env = child := List.singleton_inj.mp (has.symm.trans hchild)
    obtain ⟨hfits, -, rfl, -⟩ := execl_mem_cgiChild.mp hexec
    exact ⟨hfits, text, htext⟩
  · rintro ⟨hfits, text, htext⟩
    exact ⟨_, path, env, text, has, fun hover => overflow_mem_cgiChild.mp hover hfits,
      execl_mem_cgiChild.mpr ⟨hfits, rfl, rfl, hexec.symm⟩, htext⟩

section Printed

variable {fs : FileSystem} {res : SysResults} (m : Locals) (t : PrintedRequest)

theorem printed_query (hget : t.method = bytes "GET") (hmark : questionMark ∈ t.url)
    (rest : List Byte) {st : FileNode}
    (hroute : route fs (readRequest m (getLine bufSize (t.text ++ rest)).1) = .cgi st) :
    (readRequest m (getLine bufSize (t.text ++ rest)).1).method = bytes "GET" ∧
      (readRequest m (getLine bufSize (t.text ++ rest)).1).query = some (queryPart t.url) := by
  have hname : methodIs "GET" t.method = true := by
    rw [hget]
    decide
  have hread := (congrArg (readRequest m) (congrArg Prod.fst (t.getLine_text rest))).trans
    (t.readRequest_line m)
  rw [hread] at hroute ⊢
  have hp := mark_within_scan m hname hroute
  have hquery := splitUrl_query m t.url_le hname
  rw [t.cstr_url] at hp hquery
  exact ⟨hget, (hquery hmark hp).2.1⟩

/-- Where the child is made and executes the program, a form sent with GET ends
as one row of exactly the submitted values if and only if they are at most 241
bytes together and each denotes itself between the quotes of the statement. -/
theorem form_submission_iff (hres : ReachesExec res) (hexec : res.execl = true)
    (hget : t.method = bytes "GET") (hmark : questionMark ∈ t.url) (rest : List Byte)
    {st : FileNode}
    (hroute : route fs (readRequest m (getLine bufSize (t.text ++ rest)).1) = .cgi st)
    (hlast : equalsSign ∈ (querySegments (queryPart t.url)).getLast
      (List.splitOn_ne_nil ampersand (queryPart t.url))) :
    Inserted (dealwithsock fs res m (t.text ++ rest)) (submittedValues (queryPart t.url)) ↔
      (queryPart t.url).length ≤ 241 ∧
        ∀ v ∈ submittedValues (queryPart t.url), SqlVerbatim v := by
  obtain ⟨hmethod, hquery⟩ := printed_query m t hget hmark rest hroute
  have hname : methodIs "GET" (bytes "GET") = true := by decide
  have hwants : wantsLength (bytes "GET") = false := by decide
  have hplain : ∀ b ∈ queryPart t.url, b ≠ 0 := fun b hb =>
    (t.url_plain b (List.mem_of_mem_drop hb)).2
  have hne : submittedValues (queryPart t.url) ≠ [] :=
    (scannedSegments_quoteAll (querySegments (queryPart t.url)) _ hlast).2
  have hforked := (lengthGiven_iff hres (bytes "GET") (getLine bufSize (t.text ++ rest)).2).mpr
    fun hlen => absurd hlen (by simp [hwants])
  have hchild := children_cgi fs res (getLine bufSize (t.text ++ rest)).2 hroute
  rw [hmethod, hquery, if_pos hforked] at hchild
  rw [dealwithsock, inserted_child hchild hexec, fits_get_iff _ _ hname (by decide),
    cgiEnv_get _ _ hname, Option.getD_some]
  apply and_congr_right
  intro hlen
  change (∃ text, insertStatement (some (bytes "GET")) _ = some text ∧ _) ↔ _
  rw [insertStatement_get _ hplain hlast, ← readsInsert_iff hne]
  simp

end Printed

def formLine : PrintedRequest :=
  printedGet (bytes "/insert?name=ann&id=7") (by decide) (forall_mem_of_all (by decide)) (by decide)

theorem form_submission_row :
    Inserted (dealwithsock (oneFile 0o755) (.succeeding 1) (.const 0) (formLine.text ++ crlf))
      [bytes "ann", bytes "7"] := by
  have hroute : route (oneFile 0o755)
      (readRequest (.const 0) (getLine bufSize (formLine.text ++ crlf)).1) =
        .cgi ⟨0o755, 1, [120]⟩ := by
    rw [formLine.getLine_text, formLine.readRequest_line]
    rfl
  have hiff := form_submission_iff (.const 0) formLine (reachesExec_succeeding 1) rfl rfl
    (by decide) crlf hroute (by decide)
  have hvalues : submittedValues (queryPart formLine.url) = [bytes "ann", bytes "7"] := by decide
  rw [hvalues] at hiff
  apply hiff.mpr
  refine ⟨by decide, fun v hv => ?_⟩
  have hp : ∀ v ∈ [bytes "ann", bytes "7"],
      v.all (fun c => decide (c ≠ quote ∧ c ≠ backslash)) = true := by decide
  exact .of_plain (forall_mem_of_all (hp v hv))

end LinuxStudy

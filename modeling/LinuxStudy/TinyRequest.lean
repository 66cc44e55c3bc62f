import LinuxStudy.QueryTransfer
import Mathlib.Data.Nat.Digits.Defs

/-! The request line as `accept_request` of the tiny server takes it apart, the
path it makes of it, and the environment that its CGI child prints into arrays
of 255 bytes. -/

namespace LinuxStudy

structure TinyRequest where
  method : List Byte
  url : List Byte
  /-- `query_string`, with `none` for the null pointer. -/
  query : Option (List Byte)
  cgi : Bool
  deriving DecidableEq

namespace TinyRequest

def atMark (b : Byte) : Bool := b == questionMark || b == 0

/-- What `accept_request` makes of the method and the bytes stored in `url`. -/
def split (m : Locals) (method urlBytes : List Byte) : TinyRequest :=
  let url := store m.url urlBytes
  let k := (copyUntil atMark url 255 0).length
  let asked := methodIs "GET" method && url k == questionMark
  { method := method
    url := stringAt (if asked then Function.update url k 0 else url) 255 0
    query :=
      if methodIs "GET" method then
        some (if asked then stringAt url (255 - (k + 1)) (k + 1) else [])
      else none
    cgi := methodIs "POST" method || asked }

/-- What the scanning loops of `accept_request` store into `method` and `url`,
from the line that `get_line` stored. -/
def methodBytes (m : Locals) (line : List Byte) : List Byte :=
  copyUntil isspace (store m.buf line) 254 0

def urlBytes (m : Locals) (line : List Byte) : List Byte :=
  let buf := store m.buf line
  let n := (methodBytes m line).length
  let j := skipSpace buf (1024 - n) n
  copyUntil isspace buf (min 254 (1024 - j)) j

def read (m : Locals) (line : List Byte) : TinyRequest :=
  split m (stringAt (store m.method (methodBytes m line)) 255 0) (urlBytes m line)

def accepted (r : TinyRequest) : Bool := methodIs "GET" r.method || methodIs "POST" r.method

def htdocs : List Byte := bytes "htdocs"

def path (r : TinyRequest) : List Byte :=
  let p := htdocs ++ r.url
  if p.getLast? = some slash then p ++ indexName else p

end TinyRequest

/-- `(st.st_mode & S_IFMT) == S_IFDIR`. -/
def FileNode.isTinyDir (st : FileNode) : Bool := st.mode &&& 0o170000 == 0o040000

def tinyPath (st : FileNode) (p : List Byte) : List Byte :=
  if st.isTinyDir then p ++ slash :: indexName else p

structure TinyEnv where
  method : List Byte
  query : Option (List Byte)
  length : Option Int
  deriving DecidableEq

/-- The environment the child puts together; `sprintf` prints a null string so. -/
def tinyEnv (method : List Byte) (query : Option (List Byte)) (length : Int) : TinyEnv where
  method := method
  query := if methodIs "GET" method then some (query.getD nullText) else none
  length := if methodIs "GET" method then none else some length

/-- What `%d` prints. -/
def decimal (n : Int) : List Byte :=
  (if n < 0 then [45] else []) ++
    (Nat.toDigits 10 n.natAbs).map fun c => UInt8.ofNat c.toNat

/-- Do the `sprintf`s of the child stay inside their arrays of 255 bytes? -/
def TinyEnv.Fits (env : TinyEnv) : Prop :=
  (bytes "REQUEST_METHOD=" ++ env.method).length < 255 ∧
    (∀ q ∈ env.query, (bytes "QUERY_STRING=" ++ q).length < 255) ∧
    ∀ n ∈ env.length, (bytes "CONTENT_LENGTH=" ++ decimal n).length < 255

instance (env : TinyEnv) : Decidable env.Fits := inferInstanceAs (Decidable (_ ∧ _ ∧ _))

theorem decimal_length {n : Int} (hlo : -2 ^ 31 ≤ n) (hhi : n < 2 ^ 31) :
    (decimal n).length ≤ 11 := by
  have hdigits := Nat.toDigits_length 10 n.natAbs 10 (by decide) (by omega)
  rw [decimal, List.length_append, List.length_map]
  split
  · rw [List.length_singleton]
    omega
  · rw [List.length_nil]
    omega

namespace TinyRequest

section Lengths

variable (m : Locals) {method urlBytes : List Byte}

theorem split_url_length (h : urlBytes.length ≤ 254) :
    (split m method urlBytes).url.length ≤ 254 := by
  have hstop : atMark (store m.url urlBytes (0 + urlBytes.length)) = true := by
    rw [Nat.zero_add, store_length]
    rfl
  have hk := copyUntil_length_le_of_stop 255 hstop
  simp only [split, stringAt]
  split
  · refine (copyUntil_length_le_of_stop 255 ?_).trans (hk.trans h)
    rw [Nat.zero_add, Function.update_self]
    rfl
  · refine (copyUntil_length_le_of_stop 255 (n := urlBytes.length) ?_).trans h
    rw [Nat.zero_add, store_length]
    rfl

theorem split_query_length {q : List Byte} (hq : (split m method urlBytes).query = some q) :
    q.length ≤ 254 := by
  simp only [split] at hq
  split at hq
  · obtain rfl := Option.some.inj hq
    split
    · exact (copyUntil_length_le _ _ _ _).trans (by omega)
    · exact Nat.zero_le _
  · cases hq

theorem methodBytes_length (line : List Byte) : (methodBytes m line).length ≤ 254 :=
  copyUntil_length_le isspace (store m.buf line) 254 0

theorem urlBytes_length (line : List Byte) : (TinyRequest.urlBytes m line).length ≤ 254 :=
  (copyUntil_length_le _ _ _ _).trans (Nat.min_le_left 254 _)

theorem read_eq (line : List Byte) :
    read m line = split m (cstr (methodBytes m line)) (TinyRequest.urlBytes m line) := by
  rw [read, stringAt_whole m.method (Nat.lt_succ_of_le (methodBytes_length m line))]

theorem accepted_length {bs : List Byte} (h : (split m (cstr bs) urlBytes).accepted = true) :
    (cstr bs).length ≤ 4 := by
  have hname : ∀ name, methodIs name (cstr bs) = true →
      (cstr bs).length = (cstr (bytes name)).length := by
    intro name hname
    rw [methodIs, strcasecmpEq, cstr_cstr, beq_iff_eq] at hname
    simpa only [List.length_map] using congrArg List.length hname.symm
  rcases Bool.or_eq_true_iff.mp h with hget | hpost
  · exact (hname "GET" hget).trans_le (by decide)
  · exact (hname "POST" hpost).trans_le (by decide)

theorem served_length (r : TinyRequest) (st : FileNode) :
    (tinyPath st r.path).length ≤ r.url.length + 27 := by
  have hroot : htdocs.length = 6 := by decide
  have hindex : indexName.length = 10 := by decide
  have hpath : r.path.length ≤ r.url.length + 16 := by
    simp only [path]
    split
    · rw [List.length_append, List.length_append]
      omega
    · rw [List.length_append]
      omega
  rw [tinyPath]
  split
  · rw [List.length_append, List.length_cons]
    omega
  · omega

end Lengths

theorem fits_iff {method : List Byte} {query : Option (List Byte)} {n : Int}
    (hmethod : method.length ≤ 4) (hquery : methodIs "GET" method = query.isSome)
    (hlo : -2 ^ 31 ≤ n) (hhi : n < 2 ^ 31) :
    (tinyEnv method query n).Fits ↔ ∀ q ∈ query, q.length ≤ 241 := by
  have hm : (bytes "REQUEST_METHOD=").length = 15 := by decide
  have hq : (bytes "QUERY_STRING=").length = 13 := by decide
  have hl : (bytes "CONTENT_LENGTH=").length = 15 := by decide
  have hn := decimal_length hlo hhi
  rw [TinyEnv.Fits, tinyEnv]
  simp only [List.length_append, hm, hq, hl]
  cases query with
  | none =>
    rw [hquery]
    simp
    omega
  | some q =>
    rw [hquery]
    simp
    omega

/-- Whatever the request line is and the stack held before, nothing is written
past `method`, `url` and `path`, and the child writes past `query_env` exactly
when the query is longer than 241 bytes. -/
theorem tiny_arrays (m : Locals) (line : List Byte) :
    let r := read m line
    (methodBytes m line).length < 255 ∧ (urlBytes m line).length < 255 ∧
      r.method.length < 255 ∧ r.url.length < 255 ∧ (∀ st, (tinyPath st r.path).length < 512) ∧
      (∀ q ∈ r.query, q.length < 255) ∧
      (r.accepted = true → ∀ n : Int, -2 ^ 31 ≤ n → n < 2 ^ 31 →
        ((tinyEnv r.method r.query n).Fits ↔ ∀ q ∈ r.query, q.length ≤ 241)) := by
  intro r
  have hmethod := methodBytes_length m line
  have hurl := urlBytes_length m line
  have hr : r = split m (cstr (methodBytes m line)) (urlBytes m line) := read_eq m line
  have hurlLength : (split m (cstr (methodBytes m line)) (urlBytes m line)).url.length ≤ 254 :=
    split_url_length m hurl
  rw [hr]
  refine ⟨Nat.lt_succ_of_le hmethod, Nat.lt_succ_of_le hurl, ?_, Nat.lt_succ_of_le hurlLength,
    fun st => ?_, fun q hq => ?_, fun hacc n hlo hhi => ?_⟩
  · exact Nat.lt_succ_of_le ((List.takeWhile_sublist _).length_le.trans hmethod)
  · have hserved := served_length (split m (cstr (methodBytes m line)) (urlBytes m line)) st
    omega
  · exact Nat.lt_succ_of_le (split_query_length m hq)
  · refine fits_iff (accepted_length m hacc) ?_ hlo hhi
    simp only [split]
    cases methodIs "GET" (cstr (methodBytes m line)) <;> rfl

end TinyRequest

end LinuxStudy

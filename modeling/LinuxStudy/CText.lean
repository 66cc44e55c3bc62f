import Mathlib.Data.List.TakeWhile
import Mathlib.Algebra.Order.Ring.Int

/-! Byte strings as the C library reads them. A C string is what stands
before the first NUL; comparisons are kept as the test the callers make,
that the result is zero. -/

namespace LinuxStudy

abbrev Byte := UInt8

abbrev Sock := Nat

def bytes (s : String) : List Byte := s.toList.map (fun c => UInt8.ofNat c.toNat)

def lf : Byte := 10

def cr : Byte := 13

def isspace (b : Byte) : Bool := b == 32 || (9 ≤ b && b ≤ 13)

def isdigit (b : Byte) : Bool := 48 ≤ b && b ≤ 57

def tolower (b : Byte) : Byte := if 65 ≤ b && b ≤ 90 then b + 32 else b

/-- The C string at the head of a run of bytes. -/
def cstr (s : List Byte) : List Byte := s.takeWhile (· != 0)

def strcmpEq (a b : List Byte) : Bool := cstr a == cstr b

def strncmpEq (a b : List Byte) (n : Nat) : Bool := (cstr a).take n == (cstr b).take n

def strcasecmpEq (a b : List Byte) : Bool := (cstr a).map tolower == (cstr b).map tolower

def digitsValue (s : List Byte) : Nat :=
  (s.takeWhile isdigit).foldl (fun n b => 10 * n + (b.toNat - 48)) 0

/-- `strtol(s, NULL, 10)`, with the bounds of a 64-bit `long`. -/
def strtol (s : List Byte) : Int :=
  match (cstr s).dropWhile isspace with
  | [] => 0
  | b :: t =>
    if b = 45 then max (-2 ^ 63) (-(digitsValue t : Int))
    else if b = 43 then min (2 ^ 63 - 1) (digitsValue t)
    else min (2 ^ 63 - 1) (digitsValue (b :: t))

/-- A `long` stored in a 32-bit `int`. -/
def toInt32 (x : Int) : Int := x.bmod (2 ^ 32)

/-- glibc's `atoi`. -/
def atoi (s : List Byte) : Int := toInt32 (strtol s)

theorem toInt32_natCast_iff (n : Nat) : toInt32 n = n ↔ n < 2 ^ 31 := by
  rw [toInt32]
  constructor
  · intro h
    have hlt := Int.bmod_lt (x := (n : Int)) (m := 2 ^ 32) (by decide)
    omega
  · intro h
    exact Int.bmod_eq_of_le (by omega) (by omega)

theorem forall_mem_of_all {p : Byte → Prop} [DecidablePred p] {s : List Byte}
    (h : s.all (fun b => decide (p b)) = true) : ∀ b ∈ s, p b :=
  fun b hb => of_decide_eq_true (List.all_eq_true.mp h b hb)

@[simp] theorem cstr_nil : cstr [] = [] := rfl

theorem cstr_of_plain {s : List Byte} (h : ∀ b ∈ s, b ≠ 0) : cstr s = s :=
  List.takeWhile_eq_self_iff.mpr (fun b hb => by simpa using h b hb)

theorem cstr_append_nul (s t : List Byte) : cstr (s ++ 0 :: t) = cstr s := by
  induction s with
  | nil => simp [cstr]
  | cons b s ih =>
    by_cases hb : b = 0
    · simp [cstr, hb]
    · simpa [cstr, hb] using ih

theorem cstr_cstr (s : List Byte) : cstr (cstr s) = cstr s :=
  List.takeWhile_idem

theorem tolower_eq_zero (b : Byte) : tolower b = 0 ↔ b = 0 := by
  have h : ∀ n : Fin 256, tolower (.ofFin n) = 0 ↔ UInt8.ofFin n = 0 := by decide +kernel
  exact h b.toFin

theorem isspace_tolower (b : Byte) : isspace (tolower b) = isspace b := by
  have h : ∀ n : Fin 256, isspace (tolower (.ofFin n)) = isspace (.ofFin n) := by decide +kernel
  exact h b.toFin

theorem map_tolower_cstr (s : List Byte) : (cstr s).map tolower = cstr (s.map tolower) := by
  have h : (fun b => b != 0) ∘ tolower = fun b => b != 0 := by
    funext b
    simp [bne, beq_eq_decide, tolower_eq_zero]
  rw [cstr, cstr, List.takeWhile_map, h]

theorem digitsValue_append_lf (s : List Byte) : digitsValue (s ++ [lf]) = digitsValue s := by
  have h : (s ++ [lf]).takeWhile isdigit = s.takeWhile isdigit := by
    induction s with
    | nil => rfl
    | cons b s ih => by_cases hb : isdigit b = true <;> simp [hb, ih]
  simp only [digitsValue, h]

theorem atoi_append_lf (s : List Byte) (h : ∀ b ∈ s, b ≠ 0) : atoi (s ++ [lf]) = atoi s := by
  have hs : cstr (s ++ [lf]) = s ++ [lf] := by
    apply cstr_of_plain
    intro b hb
    rcases List.mem_append.mp hb with hb | hb
    · exact h b hb
    · rw [List.mem_singleton.mp hb]; decide
  have hd : (s ++ [lf]).dropWhile isspace =
      if s.dropWhile isspace = [] then [] else s.dropWhile isspace ++ [lf] := by
    induction s with
    | nil => rfl
    | cons b s ih =>
      by_cases hb : isspace b = true
      · simpa [hb] using ih (fun x hx => h x (by simp [hx]))
          (cstr_of_plain (by
            intro x hx
            rcases List.mem_append.mp hx with hx | hx
            · exact h x (by simp [hx])
            · rw [List.mem_singleton.mp hx]; decide))
      · simp [hb]
  simp only [atoi, strtol, hs, cstr_of_plain h, hd]
  cases hc : s.dropWhile isspace with
  | nil => simp
  | cons b t =>
    have hcons := digitsValue_append_lf (b :: t)
    simp only [List.cons_append] at hcons
    simp [digitsValue_append_lf, hcons]

end LinuxStudy

import Mathlib.Data.List.Basic

/-! A queue kept in the cells of a ring, one behind the other from `head` on. -/

namespace LinuxStudy

section RingBuffer

variable {α : Type*} {cap head : Nat} {cells items : List α}

def RingHolds (cap head : Nat) (cells items : List α) : Prop :=
  ∀ k, k < items.length → cells[(head + k) % cap]? = items[k]?

theorem ring_slot_ne {j k : Nat} (head : Nat) (hjk : j < k) (hk : k < cap) :
    (head + j) % cap ≠ (head + k) % cap := by
  intro he
  have hdvd : cap ∣ (head + k) - (head + j) :=
    Nat.dvd_of_mod_eq_zero (Nat.sub_mod_eq_zero_of_mod_eq he.symm)
  have hzero := Nat.eq_zero_of_dvd_of_lt hdvd (by omega)
  omega

theorem ring_slot_next (cap head k : Nat) :
    ((head + 1) % cap + k) % cap = (head + (k + 1)) % cap := by
  rw [Nat.mod_add_mod, Nat.add_assoc, Nat.add_comm 1 k]

theorem ringHolds_nil (cap head : Nat) (cells : List α) : RingHolds cap head cells [] := by
  intro k hk
  exact absurd hk (Nat.not_lt_zero k)

theorem RingHolds.push (h : RingHolds cap head cells items) (hroom : items.length < cap)
    (hslot : (head + items.length) % cap < cells.length) (x : α) :
    RingHolds cap head (cells.set ((head + items.length) % cap) x) (items ++ [x]) := by
  intro k hk
  rw [List.length_append, List.length_singleton] at hk
  by_cases hlast : k = items.length
  · rw [hlast, List.getElem?_set_self hslot, List.getElem?_concat_length]
  · have hold : k < items.length := by omega
    rw [List.getElem?_set_ne (ring_slot_ne head hold hroom).symm, h k hold,
      List.getElem?_append_left hold]

theorem RingHolds.head_eq {x : α} (h : RingHolds cap head cells (x :: items)) :
    cells[head % cap]? = some x := by
  have hx := h 0 (Nat.zero_lt_succ items.length)
  exact hx

theorem RingHolds.pop {x : α} (h : RingHolds cap head cells (x :: items)) :
    RingHolds cap ((head + 1) % cap) cells items := by
  intro k hk
  rw [ring_slot_next, h (k + 1) (Nat.succ_lt_succ hk), List.getElem?_cons_succ]

end RingBuffer

end LinuxStudy

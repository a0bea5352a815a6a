/-
BcosScheduler/Lib/Balance.lean

Balanced loads: any two differ by at most one.  Giving one more unit to a least
loaded place keeps them balanced (`BalancedLoad.raise`), and a balanced load is the
average, rounded down or up (`BalancedLoad.floor_or_ceil`).
-/
import Mathlib.Algebra.Order.BigOperators.Group.List
import Mathlib.Algebra.BigOperators.Group.List.Basic
import Mathlib.Algebra.Order.Ring.Nat
import Mathlib.Algebra.Group.Action.Defs

variable {α : Type*}

/-- The loads of any two places differ by at most one. -/
def BalancedLoad (load : α → Nat) (places : List α) : Prop :=
  ∀ p ∈ places, ∀ q ∈ places, load p ≤ load q + 1

namespace BalancedLoad

variable {load load' : α → Nat} {places : List α} {p : α}

theorem of_zero (h : ∀ p ∈ places, load p = 0) : BalancedLoad load places := by
  intro p hp q _
  rw [h p hp]
  exact Nat.zero_le _

/-- One more unit for a least loaded place. -/
theorem raise (h : BalancedLoad load places) (hleast : ∀ q ∈ places, load p ≤ load q)
    (hraised : load' p = load p + 1) (hothers : ∀ q ∈ places, q ≠ p → load' q = load q) :
    BalancedLoad load' places := by
  intro q hq r hr
  by_cases hqp : q = p
  · by_cases hrp : r = p
    · rw [hqp, hrp]
      exact Nat.le_succ _
    · rw [hqp, hraised, hothers r hr hrp]
      exact Nat.succ_le_succ (hleast r hr)
  · have hle := h q hq r hr
    rw [hothers q hq hqp]
    by_cases hrp : r = p
    · rw [hrp] at hle ⊢
      omega
    · rwa [hothers r hr hrp]

/-- Less than one unit below the average. -/
theorem sum_lt (h : BalancedLoad load places) (hp : p ∈ places) :
    (places.map load).sum < places.length * (load p + 1) := by
  have hlt : (places.map load).sum < (places.map fun _ => load p + 1).sum :=
    List.sum_lt_sum load _ (fun q hq => h q hq p hp) ⟨p, hp, Nat.lt_succ_self _⟩
  rwa [List.map_const', List.sum_replicate, smul_eq_mul] at hlt

/-- Less than one unit above the average. -/
theorem lt_sum (h : BalancedLoad load places) (hp : p ∈ places) :
    places.length * load p < (places.map load).sum + places.length := by
  have hlt : (places.map fun _ => load p).sum < (places.map fun q => load q + 1).sum :=
    List.sum_lt_sum _ _ (fun q hq => h p hp q hq) ⟨p, hp, Nat.lt_succ_self _⟩
  rwa [List.map_const', List.sum_replicate, smul_eq_mul, List.sum_map_add, List.map_const',
    List.sum_replicate, smul_eq_mul, Nat.mul_one] at hlt

/-- A balanced load is the average, rounded down or up. -/
theorem floor_or_ceil (h : BalancedLoad load places) (hp : p ∈ places) :
    load p = (places.map load).sum / places.length ∨
      load p = ((places.map load).sum + places.length - 1) / places.length := by
  have hpos : 0 < places.length := List.length_pos_of_mem hp
  have hfloor : (places.map load).sum / places.length < load p + 1 := by
    rw [Nat.div_lt_iff_lt_mul hpos, Nat.mul_comm]
    exact h.sum_lt hp
  have hceil : load p ≤ ((places.map load).sum + places.length - 1) / places.length := by
    rw [Nat.le_div_iff_mul_le hpos, Nat.mul_comm]
    have hlt := h.lt_sum hp
    omega
  have hnear : ((places.map load).sum + places.length - 1) / places.length
      ≤ (places.map load).sum / places.length + 1 := by
    rw [← Nat.add_div_right _ hpos]
    exact Nat.div_le_div_right (Nat.sub_le _ _)
  omega

end BalancedLoad

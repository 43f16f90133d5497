import Mathlib.Order.Interval.Finset.Nat
import Mathlib.Data.List.Nodup

set_option autoImplicit false

/-! # Going round finitely many things, and windows of one round -/
namespace LanChat.RoundRobin

variable {α : Type*}

/-- The first `n` things that are met in going round `f 0, …, f (period - 1)`. -/
def rounds (f : ℕ → α) (period n : ℕ) : List α := (List.range n).map fun k => f (k % period)

@[simp] theorem rounds_zero (f : ℕ → α) (period : ℕ) : rounds f period 0 = [] := rfl

theorem rounds_succ (f : ℕ → α) (period n : ℕ) :
    rounds f period (n + 1) = rounds f period n ++ [f (n % period)] := by
  rw [rounds, List.range_succ, List.map_append]
  rfl

theorem mem_rounds {f : ℕ → α} {period n : ℕ} {x : α} (hperiod : 0 < period)
    (h : x ∈ rounds f period n) : ∃ j, j < period ∧ f j = x := by
  obtain ⟨k, _, hk⟩ := List.mem_map.1 h
  exact ⟨k % period, Nat.mod_lt k hperiod, hk⟩

theorem range'_mod_perm (a period : ℕ) :
    ((List.range' a period).map (· % period)).Perm (List.range period) := by
  have h := Nat.multiset_Ico_map_mod a period
  have hico : Multiset.Ico a (a + period) = (List.range' a period : Multiset ℕ) := by
    change (List.range' a (a + period - a) : Multiset ℕ) = _
    rw [Nat.add_sub_cancel_left]
  rw [hico, Multiset.map_coe, ← Multiset.coe_range] at h
  exact Multiset.coe_eq_coe.1 h

/-- As many consecutive moves as there are things meet all of them. -/
theorem rounds_window_perm {f : ℕ → α} {period n : ℕ} {before window after : List α}
    (h : rounds f period n = before ++ window ++ after) (hlen : window.length = period) :
    window.Perm ((List.range period).map f) := by
  have hn : n = before.length + period + after.length := by
    have hl := congrArg List.length h
    simp only [rounds, List.length_map, List.length_range, List.length_append, hlen] at hl
    exact hl
  have hwindow : window = (List.range' before.length period).map fun k => f (k % period) := by
    have hcut : ((rounds f period n).drop before.length).take period = window := by
      rw [h, List.append_assoc, List.drop_left, ← hlen, List.take_left]
    rw [← hcut, rounds, ← List.map_drop, ← List.map_take, List.range_eq_range', List.drop_range',
      List.take_range'_of_length_ge (by omega)]
    simp
  rw [hwindow, show (fun k => f (k % period)) = f ∘ (· % period) from rfl, ← List.map_map]
  exact (range'_mod_perm before.length period).map f

theorem rounds_window_count [DecidableEq α] {f : ℕ → α} {period n j : ℕ}
    {before window after : List α}
    (h : rounds f period n = before ++ window ++ after) (hlen : window.length = period)
    (hf : ((List.range period).map f).Nodup) (hj : j < period) : window.count (f j) = 1 := by
  rw [(rounds_window_perm h hlen).count_eq]
  exact List.count_eq_one_of_mem hf (List.mem_map_of_mem (List.mem_range.2 hj))

end LanChat.RoundRobin

import LanChat.TransitionRuns
import Mathlib.Data.Sym.Sym2
import Mathlib.Data.Multiset.Count

set_option autoImplicit false

/-!
# Ledgers of meetings

A meeting has two parties, in no order. The books of a system, in which each
party counts its meetings with each other, agree wherever they can be traced
to one ledger of the meetings.
-/
namespace LanChat.PairLedger
open TransitionRuns

variable {ι σ α : Type*} [DecidableEq ι]

abbrev Ledger (ι : Type*) := Multiset (Sym2 ι)

/-- The books of distinct parties count the meetings of the ledger. -/
def Kept (ledger : Ledger ι) (books : ι → ι → ℕ) : Prop :=
  ∀ a b, a ≠ b → books a b = ledger.count s(a, b)

/-- The books have been brought forward by the meetings of `m`. -/
def Entered (m : Ledger ι) (books books' : ι → ι → ℕ) : Prop :=
  ∀ a b, a ≠ b → books' a b = books a b + m.count s(a, b)

theorem Kept.symm {ledger : Ledger ι} {books : ι → ι → ℕ} (h : Kept ledger books) {a b : ι}
    (hab : a ≠ b) : books a b = books b a := by
  rw [h a b hab, h b a hab.symm, Sym2.eq_swap]

theorem Kept.enter {ledger m : Ledger ι} {books books' : ι → ι → ℕ} (h : Kept ledger books)
    (hm : Entered m books books') : Kept (ledger + m) books' := by
  intro a b hab
  rw [hm a b hab, h a b hab, Multiset.count_add]

theorem entered_zero {books books' : ι → ι → ℕ} (h : ∀ a b, a ≠ b → books' a b = books a b) :
    Entered 0 books books' := by
  intro a b hab
  rw [h a b hab, Multiset.count_zero, add_zero]

theorem entered_singleton {books books' : ι → ι → ℕ} {i j : ι}
    (h : ∀ a b, a ≠ b → books' a b =
      books a b + ((if a = i ∧ b = j then 1 else 0) + if a = j ∧ b = i then 1 else 0)) :
    Entered {s(i, j)} books books' := by
  intro a b hab
  rw [h a b hab, Multiset.count_singleton]
  simp only [Sym2.eq_iff]
  by_cases h1 : a = i ∧ b = j
  · obtain ⟨rfl, rfl⟩ := h1
    simp [hab]
  · by_cases h2 : a = j ∧ b = i
    · obtain ⟨rfl, rfl⟩ := h2
      simp [hab]
    · simp [h1, h2]

theorem kept_run {step : σ → α → Option σ} {B : σ → ι → ι → ℕ} {I : σ → Prop} {A : α → Prop}
    (hinv : ∀ s a t, I s → A a → step s a = some t → I t)
    (hstep : ∀ s a t, I s → A a → step s a = some t → ∃ m, Entered m (B s) (B t))
    {s u : σ} {as : List α} {ledger : Ledger ι} (hs : I s) (hkept : Kept ledger (B s))
    (has : ∀ a ∈ as, A a) (hrun : run step s as = some u) : ∃ ledger, Kept ledger (B u) := by
  refine (run_invariant (I := fun t => I t ∧ ∃ ledger, Kept ledger (B t)) ?_ ⟨hs, ledger, hkept⟩
    has hrun).2
  rintro s a t ⟨hI, ledger, hk⟩ ha ht
  obtain ⟨m, hm⟩ := hstep s a t hI ha ht
  exact ⟨hinv s a t hI ha ht, ledger + m, hk.enter hm⟩

end LanChat.PairLedger

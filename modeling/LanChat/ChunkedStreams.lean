import Mathlib.Data.List.Infix
import Mathlib.Data.List.TakeDrop
import Mathlib.Tactic.Linarith

set_option autoImplicit false

/-!
# Streams that arrive in pieces

A byte stream is what its pieces make when they are put together; `read`
returns no more than it is asked for and no more than the first piece holds.
Every sequence of results that `read` can return is the one of some list of
pieces.
-/
namespace LanChat.ChunkedStreams

variable {α : Type*}

/-- The rest of a stream. No piece is empty: an empty result means its end. -/
structure Chunks (α : Type*) where
  pieces : List (List α)
  nonempty : ∀ p ∈ pieces, p ≠ []

namespace Chunks

def bytes (s : Chunks α) : List α := s.pieces.flatten

/-- A single call that asks for `n` elements, and the stream after it. -/
def read (s : Chunks α) (n : ℕ) : List α × Chunks α :=
  match s with
  | ⟨[], h⟩ => ([], ⟨[], h⟩)
  | ⟨c :: cs, h⟩ =>
    if hn : n < c.length then
      (c.take n, ⟨c.drop n :: cs, by
        intro p hp
        rcases List.mem_cons.1 hp with rfl | hp
        · simpa using hn
        · exact h p (List.mem_cons_of_mem c hp)⟩)
    else (c, ⟨cs, fun p hp => h p (List.mem_cons_of_mem c hp)⟩)

theorem read_bytes (s : Chunks α) (n : ℕ) : (s.read n).1 ++ (s.read n).2.bytes = s.bytes := by
  obtain ⟨_ | ⟨c, cs⟩, h⟩ := s
  · rfl
  · unfold read
    dsimp only
    split
    · change c.take n ++ (c.drop n ++ cs.flatten) = c ++ cs.flatten
      rw [← List.append_assoc, List.take_append_drop]
    · rfl

theorem read_length_le (s : Chunks α) (n : ℕ) : (s.read n).1.length ≤ n := by
  obtain ⟨_ | ⟨c, cs⟩, h⟩ := s
  · exact Nat.zero_le n
  · unfold read
    dsimp only
    split
    · exact List.length_take_le n c
    · rename_i hn
      exact not_lt.1 hn

theorem read_eq_nil_iff (s : Chunks α) {n : ℕ} (hn : 0 < n) :
    (s.read n).1 = [] ↔ s.bytes = [] := by
  obtain ⟨_ | ⟨c, cs⟩, h⟩ := s
  · exact iff_of_true rfl rfl
  · have hc := h c List.mem_cons_self
    have hb : (⟨c :: cs, h⟩ : Chunks α).bytes ≠ [] := by
      simp [bytes, hc]
    refine iff_of_false ?_ hb
    unfold read
    dsimp only
    split
    · simp only [List.take_eq_nil_iff, not_or]
      exact ⟨by omega, hc⟩
    · exact hc

/-- `p` elements from here, one piece ends and the next begins. -/
def IsCut (s : Chunks α) (p : ℕ) : Prop := ∃ k, (s.pieces.take k).flatten.length = p

theorem isCut_iff_mem (s : Chunks α) (p : ℕ) :
    s.IsCut p ↔ p ∈ s.pieces.inits.map (·.flatten.length) := by
  simp only [List.mem_map, List.mem_inits]
  constructor
  · rintro ⟨k, hk⟩
    exact ⟨_, List.take_prefix k s.pieces, hk⟩
  · rintro ⟨front, hfront, hk⟩
    exact ⟨front.length, by rwa [← List.prefix_iff_eq_take.1 hfront]⟩

theorem isCut_cons {c : List α} {cs : List (List α)} {h : ∀ p ∈ c :: cs, p ≠ []} {p : ℕ}
    (hp : 0 < p) :
    (⟨c :: cs, h⟩ : Chunks α).IsCut p ↔
      ∃ q, p = c.length + q ∧
        (⟨cs, fun p hp => h p (List.mem_cons_of_mem c hp)⟩ : Chunks α).IsCut q := by
  constructor
  · rintro ⟨_ | k, hk⟩
    · simp only [List.take_zero, List.flatten_nil, List.length_nil] at hk
      omega
    · refine ⟨(cs.take k).flatten.length, ?_, k, rfl⟩
      simpa using hk.symm
  · rintro ⟨q, rfl, k, hk⟩
    exact ⟨k + 1, by simpa using hk⟩

theorem isCut_read (s : Chunks α) (n : ℕ) {q : ℕ} (hq : 0 < q) :
    (s.read n).2.IsCut q ↔ s.IsCut ((s.read n).1.length + q) := by
  obtain ⟨_ | ⟨c, cs⟩, h⟩ := s
  · simp [read]
  · unfold read
    dsimp only
    split
    · rename_i hn
      rw [isCut_cons hq, isCut_cons (by omega), List.length_take, List.length_drop]
      constructor
      · rintro ⟨r, hr, hcut⟩
        exact ⟨r, by omega, hcut⟩
      · rintro ⟨r, hr, hcut⟩
        exact ⟨r, by omega, hcut⟩
    · rw [isCut_cons (by omega)]
      constructor
      · exact fun hcut => ⟨q, rfl, hcut⟩
      · rintro ⟨r, hr, hcut⟩
        rwa [Nat.add_left_cancel hr]

theorem read_full_iff (s : Chunks α) {n : ℕ} (hn : 0 < n) :
    (s.read n).1.length = n ↔
      n ≤ s.bytes.length ∧ ∀ p, 0 < p → p < n → ¬ s.IsCut p := by
  obtain ⟨_ | ⟨c, cs⟩, h⟩ := s
  · constructor
    · intro hl
      change 0 = n at hl
      omega
    · rintro ⟨hl, _⟩
      change n ≤ 0 at hl
      omega
  · have hc : 0 < c.length := List.length_pos_iff.2 (h c List.mem_cons_self)
    have hb : (⟨c :: cs, h⟩ : Chunks α).bytes.length = c.length + cs.flatten.length := by
      simp [bytes]
    unfold read
    dsimp only
    split
    · rename_i hlt
      refine iff_of_true (by simp only [List.length_take]; omega) ⟨by omega, ?_⟩
      intro p hp hpn hcut
      obtain ⟨q, hq, _⟩ := (isCut_cons hp).1 hcut
      omega
    · rename_i hge
      change c.length = n ↔ _
      constructor
      · intro hl
        refine ⟨by omega, ?_⟩
        intro p hp hpn hcut
        obtain ⟨q, hq, _⟩ := (isCut_cons hp).1 hcut
        omega
      · rintro ⟨_, hno⟩
        by_contra hne
        exact hno c.length hc (by omega) ⟨1, by simp⟩

end Chunks
end LanChat.ChunkedStreams

import LanChat.ReceiveBounds
import LanChat.StreamReceive

set_option autoImplicit false

/-!
# What `listener_task` of v1 and v2 writes to its block

Each turn of the loop allocates what it will read, and no byte for the
terminator.
-/
namespace LanChat.StreamBounds
open CStrings HexText FrameCodec DatagramReceive ReceiveBounds ChunkedStreams StreamReceive

/-- A turn of the loop: the text that `hex_to_int` reads, and the stream behind
    the header. -/
structure Turn where
  hex : Bytes
  rest : Chunks UInt8

namespace Turn

def declared (t : Turn) : UInt32 := hexToInt t.hex

/-- The argument of `malloc`. -/
def size (t : Turn) : ℕ := (t.declared - 5).toNat

/-- The indices of `message` that `Readn` and then the terminator are written to. -/
def written (t : Turn) : List ℕ := List.range (readn t.rest t.size).1.length ++ [t.size]

/-- The block before its terminator is written. -/
def message (t : Turn) (heap : ℕ → UInt8) : Bytes :=
  blit (readn t.rest t.size).1 (malloc t.size heap)

/-- What the turn prints if the byte behind the block can be written. -/
def printed (t : Turn) (heap : ℕ → UInt8) : Printed :=
  ⟨cstr ((blit (readn t.rest t.size).1 (malloc (t.size + 1) heap)).set t.size 0),
    (readn t.rest t.size).2⟩

/-- The subtraction does not wrap, and every write is inside the block. -/
structure InBounds (t : Turn) : Prop where
  noWrap : 5 ≤ t.declared.toNat
  inside : ∀ j ∈ t.written, j < t.size

theorem readn_length_le (t : Turn) : (readn t.rest t.size).1.length ≤ t.size := by
  rw [readn_fst, List.length_take]
  exact Nat.min_le_left _ _

theorem message_length (t : Turn) (heap : ℕ → UInt8) : (t.message heap).length = t.size := by
  have hle := t.readn_length_le
  rw [message, blit_length _ _ (by rwa [malloc_length]), malloc_length]

theorem terminator_outside (t : Turn) (heap : ℕ → UInt8) :
    store (t.message heap) t.size 0 = .error (.write t.size) := by
  rw [store, t.message_length, if_neg (Nat.lt_irrefl _)]

theorem not_inBounds (t : Turn) : ¬ t.InBounds := by
  intro h
  exact Nat.lt_irrefl _ (h.inside t.size (List.mem_append_right _ List.mem_cons_self))

/-- Only the terminator is outside, and by one byte. -/
theorem written_le (t : Turn) {j : ℕ} (h : j ∈ t.written) : j < t.size ∨ j = t.size := by
  rcases List.mem_append.1 h with hread | hlast
  · have hle := t.readn_length_le
    rw [List.mem_range] at hread
    omega
  · exact .inr (List.mem_singleton.1 hlast)

end Turn

/-- The turns of the loop over one connection, from the `i`-th on. -/
def turns (stack : ℕ → Bytes) (i : ℕ) (connfd : Chunks UInt8) : List Turn :=
  if h : (connfd.read 4).1 = [] then []
  else
    let t : Turn := ⟨blit (connfd.read 4).1 (stack i), (connfd.read 4).2⟩
    t :: turns stack (i + 1) (readn t.rest t.size).2
termination_by connfd.bytes.length
decreasing_by exact readn_length_lt connfd 4 _ h

theorem listenerTask_eq_turns (stack : ℕ → Bytes) (heap : ℕ → ℕ → UInt8) (i : ℕ)
    (connfd : Chunks UInt8) : listenerTask stack heap i connfd =
      (turns stack i connfd).mapIdx fun j t => t.printed (heap (i + j)) := by
  induction i, connfd using turns.induct stack with
  | case1 i connfd h => rw [listenerTask, turns, dif_pos h, dif_pos h, List.mapIdx_nil]
  | case2 i connfd h t ih =>
    have hfirst : readFrame (stack i) (heap i) (connfd.read 4) = t.printed (heap (i + 0)) := rfl
    have hnext : (t.printed (heap (i + 0))).rest = (readn t.rest t.size).2 := rfl
    rw [listenerTask, turns, dif_neg h, dif_neg h, List.mapIdx_cons]
    dsimp only
    rw [hfirst, hnext, ih]
    congr 2
    funext j u
    rw [Nat.add_assoc, Nat.add_comm 1 j]

theorem turns_eq_nil_iff (stack : ℕ → Bytes) (i : ℕ) (connfd : Chunks UInt8) :
    turns stack i connfd = [] ↔ connfd.bytes = [] := by
  rw [← connfd.read_eq_nil_iff (show 0 < 4 by decide), turns]
  by_cases h : (connfd.read 4).1 = []
  · rw [dif_pos h]
    exact iff_of_true rfl h
  · rw [dif_neg h]
    exact iff_of_false (List.cons_ne_nil _ _) h

/-- Every turn is inside its block only where there is none: each writes one byte
    too far and no further, and a header that declares less than five wraps. -/
theorem turns_inBounds_iff (stack : ℕ → Bytes) (connfd : Chunks UInt8) :
    ((∀ t ∈ turns stack 0 connfd, t.InBounds) ↔ connfd.bytes = []) ∧
    ∀ t ∈ turns stack 0 connfd, (∀ j ∈ t.written, j < t.size ∨ j = t.size) ∧
      t.size ∈ t.written ∧ (5 ≤ t.declared.toNat ↔ DeclaresFive t.hex) := by
  constructor
  · rw [← turns_eq_nil_iff stack 0]
    constructor
    · intro h
      apply List.eq_nil_iff_forall_not_mem.2
      intro t ht
      exact t.not_inBounds (h t ht)
    · intro h t ht
      rw [h] at ht
      cases ht
  · intro t _
    exact ⟨fun j hj => t.written_le hj, List.mem_append_right _ List.mem_cons_self,
      five_le_iff t.hex⟩

theorem turns_first {stack : ℕ → Bytes} {i : ℕ} {connfd : Chunks UInt8}
    (h : (connfd.read 4).1 ≠ []) :
    ⟨blit (connfd.read 4).1 (stack i), (connfd.read 4).2⟩ ∈ turns stack i connfd := by
  rw [turns, dif_neg h]
  exact List.mem_cons_self

/-- The frame of `"a: b"` is written to indices 0 to 4 of four bytes, and a
    header of four declares less than nothing. -/
theorem honest_overruns :
    (∃ t ∈ turns (fun _ => []) 0 (arriving ["0009a: b"] (by decide)),
      t.size = 4 ∧ t.written = [0, 1, 2, 3, 4] ∧ ¬ t.InBounds) ∧
    ∃ t ∈ turns (fun _ => []) 0 (arriving ["0004"] (by decide)),
      t.size = 4294967295 ∧ ¬ t.InBounds :=
  ⟨⟨_, turns_first (by decide), by decide, by decide, Turn.not_inBounds _⟩,
    _, turns_first (by decide), by decide, Turn.not_inBounds _⟩

end LanChat.StreamBounds

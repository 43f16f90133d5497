import LanChat.StreamReceive
import LanChat.TransitionRuns

set_option autoImplicit false

/-!
# The reads of `listener_task` in v1 and v2, one call at a time

A connection is served by a sequence of calls of `read`, each of which returns
what happens to be there. Read back as the pieces of a stream, these make the
loop print what it prints of that stream.
-/
namespace LanChat.ReadLoops
open CStrings HexText FrameCodec DatagramReceive ChunkedStreams StreamReceive TransitionRuns

/-- The call that is waited for: that of the loop condition, or one in `Readn`,
    with what it has put into `message` already. -/
inductive Wait where
  | header
  | body (msgLen : ℕ) (got : Bytes)
  deriving DecidableEq, Repr

def Wait.asked : Wait → ℕ
  | .header => 4
  | .body msgLen got => msgLen - got.length

structure Reader where
  wait : Wait
  turn : ℕ
  deriving DecidableEq, Repr

/-- What `printf` shows of a block that `got` has been read to. -/
def printedText (heap : ℕ → UInt8) (msgLen : ℕ) (got : Bytes) : Bytes :=
  cstr ((blit got (malloc (msgLen + 1) heap)).set msgLen 0)

variable (stack : ℕ → Bytes) (heap : ℕ → ℕ → UInt8)

/-- `Readn` returns, and the loop goes on to its condition. -/
def Reader.print (r : Reader) (msgLen : ℕ) (got : Bytes) : Reader × List Bytes :=
  (⟨.header, r.turn + 1⟩, [printedText (heap r.turn) msgLen got])

/-- The loop of `readn`, or what follows it. -/
def Reader.resume (r : Reader) (msgLen : ℕ) (got : Bytes) : Reader × List Bytes :=
  if got.length = msgLen then r.print heap msgLen got else (⟨.body msgLen got, r.turn⟩, [])

/-- A call returns some bytes. -/
def Reader.read (r : Reader) (piece : Bytes) : Reader × List Bytes :=
  match r.wait with
  | .header => r.resume heap (hexToInt (blit piece (stack r.turn)) - 5).toNat []
  | .body msgLen got => r.resume heap msgLen (got ++ piece)

/-- A call returns zero; the loop condition ends the loop. -/
def Reader.eof (r : Reader) : Option (Reader × List Bytes) :=
  match r.wait with
  | .header => none
  | .body msgLen got => some (r.print heap msgLen got)

/-- One call on a connection whose prints are collected. -/
def readStep (s : Reader × List Bytes) (piece : Bytes) : Option (Reader × List Bytes) :=
  if piece ≠ [] ∧ piece.length ≤ s.1.wait.asked then
    some ((s.1.read stack heap piece).1, s.2 ++ (s.1.read stack heap piece).2)
  else none

/-- What has been printed once the connection is closed. -/
def closing (s : Reader × List Bytes) : List Bytes :=
  s.2 ++ ((s.1.eof heap).map Prod.snd).getD []

/-- What is printed of a stream from a call on. -/
def printsOf (r : Reader) (connfd : Chunks UInt8) : List Bytes :=
  match r.wait with
  | .header => (listenerTask stack heap r.turn connfd).map Printed.text
  | .body msgLen got =>
    let more := readn connfd (msgLen - got.length)
    printedText (heap r.turn) msgLen (got ++ more.1) ::
      (listenerTask stack heap (r.turn + 1) more.2).map Printed.text

theorem readnLoop_fuel {fuel nleft : ℕ} (fd : Chunks UInt8) (h : nleft ≤ fuel) :
    readnLoop fuel nleft fd = readn fd nleft := by
  unfold readn
  induction fuel using Nat.strongRecOn generalizing nleft fd with
  | ind fuel ih =>
    cases fuel with
    | zero => rw [Nat.le_zero.1 h]
    | succ fuel =>
      cases nleft with
      | zero => rfl
      | succ nleft =>
        unfold readnLoop
        by_cases hnil : (fd.read (nleft + 1)).1 = []
        · simp [hnil]
        · have hpos := List.length_pos_iff.2 hnil
          have hleft : nleft + 1 - (fd.read (nleft + 1)).1.length ≤ nleft := by omega
          have hmore := ih fuel (by omega) (fd.read (nleft + 1)).2 (hleft.trans (by omega))
          have hless := ih nleft (by omega) (fd.read (nleft + 1)).2 hleft
          simp only [Nat.add_one_ne_zero, hnil, ↓reduceIte, hmore, hless]

section Piece

variable {piece : Bytes} {cs : List Bytes} (h : ∀ p ∈ piece :: cs, p ≠ [])

theorem read_piece {n : ℕ} (hle : piece.length ≤ n) :
    (⟨piece :: cs, h⟩ : Chunks UInt8).read n =
      (piece, ⟨cs, fun p hp => h p (List.mem_cons_of_mem piece hp)⟩) := by
  unfold Chunks.read
  dsimp only
  rw [dif_neg (not_lt.2 hle)]

theorem readn_piece {n : ℕ} (hle : piece.length ≤ n) :
    readn ⟨piece :: cs, h⟩ n =
      (piece ++ (readn ⟨cs, fun p hp => h p (List.mem_cons_of_mem piece hp)⟩
          (n - piece.length)).1,
        (readn ⟨cs, fun p hp => h p (List.mem_cons_of_mem piece hp)⟩ (n - piece.length)).2) := by
  have hne : piece ≠ [] := h piece List.mem_cons_self
  have hpos := List.length_pos_iff.2 hne
  obtain ⟨m, rfl⟩ : ∃ m, n = m + 1 := Nat.exists_eq_succ_of_ne_zero (by omega)
  rw [readn, readnLoop, if_neg (Nat.add_one_ne_zero m)]
  simp only [read_piece h hle, if_neg hne]
  rw [readnLoop_fuel _ (by omega)]

end Piece

theorem prints_resume (r : Reader) (n : ℕ) (got : Bytes) (connfd : Chunks UInt8) :
    (r.resume heap n got).2 ++ printsOf stack heap (r.resume heap n got).1 connfd =
      printedText (heap r.turn) n (got ++ (readn connfd (n - got.length)).1) ::
        (listenerTask stack heap (r.turn + 1) (readn connfd (n - got.length)).2).map
          Printed.text := by
  unfold Reader.resume
  split_ifs with hfull
  · have hnone : readn connfd 0 = ([], connfd) := rfl
    rw [hfull, Nat.sub_self, hnone, List.append_nil]
    rfl
  · rfl

theorem prints_read (r : Reader) {piece : Bytes} {cs : List Bytes}
    (h : ∀ p ∈ piece :: cs, p ≠ []) (hle : piece.length ≤ r.wait.asked) :
    printsOf stack heap r ⟨piece :: cs, h⟩ = (r.read stack heap piece).2 ++
      printsOf stack heap (r.read stack heap piece).1
        ⟨cs, fun p hp => h p (List.mem_cons_of_mem piece hp)⟩ := by
  obtain ⟨wait, turn⟩ := r
  cases wait with
  | header =>
    have hne : piece ≠ [] := h piece List.mem_cons_self
    have hread : (⟨piece :: cs, h⟩ : Chunks UInt8).read 4 = _ := read_piece h hle
    change (listenerTask stack heap turn ⟨piece :: cs, h⟩).map Printed.text = _
    rw [Reader.read, prints_resume, listenerTask, dif_neg (by rw [hread]; exact hne), hread]
    rfl
  | body msgLen got =>
    rw [Reader.read, prints_resume, List.append_assoc, List.length_append, ← Nat.sub_sub]
    have hread : readn ⟨piece :: cs, h⟩ (msgLen - got.length) = _ := readn_piece h hle
    dsimp only [printsOf]
    rw [hread]

theorem prints_closing (s : Reader × List Bytes) (h : ∀ p ∈ ([] : List Bytes), p ≠ []) :
    s.2 ++ printsOf stack heap s.1 ⟨[], h⟩ = closing heap s := by
  obtain ⟨⟨wait, turn⟩, texts⟩ := s
  have hnil : ((⟨[], h⟩ : Chunks UInt8).read 4).1 = [] := rfl
  have hend (i : ℕ) : listenerTask stack heap i ⟨[], h⟩ = [] := by
    rw [listenerTask, dif_pos hnil]
  cases wait with
  | header =>
    dsimp only [printsOf]
    rw [hend]
    rfl
  | body msgLen got =>
    have hread : readn ⟨[], h⟩ (msgLen - got.length) = ([], ⟨[], h⟩) := by
      rw [readn]
      cases msgLen - got.length <;> rfl
    dsimp only [printsOf]
    rw [hread, hend, List.append_nil]
    rfl

/-- However the calls of `read` cut a connection, what is printed of it is what
    the loop prints of the stream whose pieces they have returned. -/
theorem reads_refine (pieces : List Bytes) {s t : Reader × List Bytes}
    (h : ∀ p ∈ pieces, p ≠ []) (hrun : run (readStep stack heap) s pieces = some t) :
    s.2 ++ printsOf stack heap s.1 ⟨pieces, h⟩ = closing heap t := by
  induction pieces generalizing s with
  | nil =>
    cases hrun
    exact prints_closing stack heap t h
  | cons piece pieces ih =>
    obtain ⟨u, hstep, hrest⟩ := run_cons_iff.1 hrun
    unfold readStep at hstep
    split_ifs at hstep with hpiece
    cases hstep
    rw [prints_read stack heap s.1 h hpiece.2, ← List.append_assoc]
    exact ih _ hrest

theorem reads_refine_split :
    printsOf (fun _ => []) (fun _ _ => 0) ⟨.header, 0⟩
        (arriving ["0009", "a", ": b"] (by decide)) = [ascii "a: b"] := by
  have hrun : run (readStep (fun _ => []) fun _ _ => 0) (⟨.header, 0⟩, [])
      (["0009", "a", ": b"].map ascii) = some (⟨.header, 1⟩, [ascii "a: b"]) := by decide +kernel
  exact reads_refine (fun _ => []) (fun _ _ => 0) _ (by decide) hrun

end LanChat.ReadLoops

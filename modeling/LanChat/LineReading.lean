import LanChat.CStrings

set_option autoImplicit false

/-!
# Lines of a stream, and `fgets`

A line goes up to its line feed, and the last one may lack it. `fgets` returns
a line, or as much of it as its buffer holds.
-/
namespace LanChat.LineReading
open CStrings

/-- At most `n` bytes, and none behind a line feed; with the rest. -/
def readPiece : ℕ → Bytes → Bytes × Bytes
  | 0, s => ([], s)
  | _ + 1, [] => ([], [])
  | n + 1, b :: s => if b = 10 then ([b], s) else (b :: (readPiece n s).1, (readPiece n s).2)

/-- `fgets` into `n` bytes, of which the last is for the terminator. -/
def fgets (n : ℕ) (stdin : Bytes) : Option (Bytes × Bytes) :=
  if stdin = [] then none else some (readPiece (n - 1) stdin)

def rawLines : Bytes → List Bytes
  | [] => []
  | b :: s =>
    if b = 10 then [b] :: rawLines s
    else match rawLines s with
      | [] => [[b]]
      | line :: lines => (b :: line) :: lines

/-- A line of a stream, and what follows it there. -/
inductive Line : Bytes → Bytes → Prop where
  | ended (body rest : Bytes) (h : 10 ∉ body) : Line (body ++ [10]) rest
  | last (body : Bytes) (h : 10 ∉ body) (hne : body ≠ []) : Line body []

/-- A line without its LF or CR LF. -/
def lineText (line : Bytes) : Bytes :=
  if line.getLast? = some 10 then
    if line.dropLast.getLast? = some 13 then line.dropLast.dropLast else line.dropLast
  else line

theorem eq_lineText_append (line : Bytes) :
    line = lineText line ∨ line = lineText line ++ [10] ∨ line = lineText line ++ [13, 10] := by
  unfold lineText
  split_ifs with h10 h13
  · right; right
    have h1 := List.dropLast_append_getLast? 10 h10
    have h2 := List.dropLast_append_getLast? 13 h13
    rw [List.append_cons, h2, h1]
  · exact .inr (.inl (List.dropLast_append_getLast? 10 h10).symm)
  · exact .inl rfl

theorem readPiece_append (n : ℕ) (s : Bytes) : (readPiece n s).1 ++ (readPiece n s).2 = s := by
  induction n generalizing s with
  | zero => rfl
  | succ n ih =>
    cases s with
    | nil => rfl
    | cons b s =>
      by_cases hb : b = 10
      · simp [readPiece, hb]
      · simp [readPiece, hb, ih s]

theorem readPiece_pos {n : ℕ} {s : Bytes} (hn : 0 < n) (hs : s ≠ []) :
    0 < (readPiece n s).1.length := by
  obtain ⟨n, rfl⟩ := Nat.exists_eq_add_of_lt hn
  obtain ⟨b, s, rfl⟩ := List.exists_cons_of_ne_nil hs
  by_cases hb : b = 10 <;> simp [readPiece, hb]

theorem fgets_eq_some {n : ℕ} {s : Bytes} (hs : s ≠ []) :
    fgets n s = some (readPiece (n - 1) s) := if_neg hs

theorem fgets_shorter {n : ℕ} {s m rest : Bytes} (hn : 1 < n) (h : fgets n s = some (m, rest)) :
    rest.length < s.length := by
  have hs : s ≠ [] := by
    rintro rfl
    cases h
  have hpiece : readPiece (n - 1) s = (m, rest) := Option.some.inj ((fgets_eq_some hs).symm.trans h)
  have hsplit := congrArg List.length (readPiece_append (n - 1) s)
  have hpos := readPiece_pos (n := n - 1) (by omega) hs
  rw [hpiece] at hsplit hpos
  rw [List.length_append] at hsplit
  dsimp only at hsplit hpos
  omega

theorem readPiece_take {n : ℕ} {body : Bytes} (rest : Bytes) (hbody : 10 ∉ body)
    (hn : n ≤ body.length) :
    readPiece n (body ++ rest) = (body.take n, body.drop n ++ rest) := by
  induction n generalizing body with
  | zero => rfl
  | succ n ih =>
    obtain ⟨b, body, rfl⟩ := List.exists_cons_of_length_pos (by omega : 0 < body.length)
    simp only [List.mem_cons, not_or] at hbody
    have hb : b ≠ 10 := fun h => hbody.1 h.symm
    simp [readPiece, hb, ih hbody.2 (by simpa using hn)]

theorem readPiece_ended {n : ℕ} {body : Bytes} (rest : Bytes) (hbody : 10 ∉ body)
    (hn : body.length < n) : readPiece n (body ++ 10 :: rest) = (body ++ [10], rest) := by
  induction body generalizing n with
  | nil =>
    obtain ⟨n, rfl⟩ := Nat.exists_eq_add_of_lt hn
    simp [readPiece]
  | cons b body ih =>
    obtain ⟨n, rfl⟩ := Nat.exists_eq_succ_of_ne_zero (by omega : n ≠ 0)
    simp only [List.mem_cons, not_or] at hbody
    have hb : b ≠ 10 := fun h => hbody.1 h.symm
    simp [readPiece, hb, ih hbody.2 (by simpa using hn)]

theorem readPiece_last {n : ℕ} {body : Bytes} (hbody : 10 ∉ body) (hn : body.length ≤ n) :
    readPiece n body = (body, []) := by
  induction body generalizing n with
  | nil => cases n <;> rfl
  | cons b body ih =>
    obtain ⟨n, rfl⟩ := Nat.exists_eq_succ_of_ne_zero (by
      rw [List.length_cons] at hn
      omega : n ≠ 0)
    simp only [List.mem_cons, not_or] at hbody
    have hb : b ≠ 10 := fun h => hbody.1 h.symm
    simp [readPiece, hb, ih hbody.2 (by simpa using hn)]

theorem rawLines_ended {body : Bytes} (rest : Bytes) (hbody : 10 ∉ body) :
    rawLines (body ++ 10 :: rest) = (body ++ [10]) :: rawLines rest := by
  induction body with
  | nil => simp [rawLines]
  | cons b body ih =>
    simp only [List.mem_cons, not_or] at hbody
    have hb : b ≠ 10 := fun h => hbody.1 h.symm
    simp [rawLines, hb, ih hbody.2]

theorem rawLines_last {body : Bytes} (hbody : 10 ∉ body) (hne : body ≠ []) :
    rawLines body = [body] := by
  induction body with
  | nil => exact absurd rfl hne
  | cons b body ih =>
    simp only [List.mem_cons, not_or] at hbody
    have hb : b ≠ 10 := fun h => hbody.1 h.symm
    cases body with
    | nil => simp [rawLines, hb]
    | cons c body => rw [rawLines, if_neg hb, ih hbody.2 (by simp)]

theorem exists_line {s : Bytes} (hs : s ≠ []) :
    ∃ line rest, Line line rest ∧ s = line ++ rest ∧ rawLines s = line :: rawLines rest := by
  by_cases h : 10 ∈ s
  · obtain ⟨body, rest, rfl, hbody⟩ := List.eq_append_cons_of_mem h
    exact ⟨_, rest, .ended body rest hbody, by simp, rawLines_ended rest hbody⟩
  · exact ⟨s, [], .last s h hs, by simp, rawLines_last h hs⟩

namespace Line

variable {line rest : Bytes}

theorem ne_nil (h : Line line rest) : line ≠ [] := by
  cases h with
  | ended body rest hbody => simp
  | last body hbody hne => exact hne

theorem lf_notMem_text (h : Line line rest) : 10 ∉ lineText line := by
  cases h with
  | ended body rest hbody =>
    simp only [lineText, List.getLast?_concat, ↓reduceIte, List.dropLast_concat]
    split_ifs
    · exact fun hmem => hbody (List.mem_of_mem_dropLast hmem)
    · exact hbody
  | last body hbody hne =>
    unfold lineText
    split_ifs
    · exact fun hmem => hbody (List.mem_of_mem_dropLast (List.mem_of_mem_dropLast hmem))
    · exact fun hmem => hbody (List.mem_of_mem_dropLast hmem)
    · exact hbody

theorem readPiece_short (h : Line line rest) {n : ℕ} (hn : line.length ≤ n) :
    readPiece n (line ++ rest) = (line, rest) := by
  cases h with
  | ended body rest hbody =>
    rw [List.length_append, List.length_singleton] at hn
    rw [List.append_assoc, List.singleton_append]
    exact readPiece_ended rest hbody (by omega)
  | last body hbody hne =>
    rw [List.append_nil]
    exact readPiece_last hbody hn

theorem readPiece_long (h : Line line rest) {n : ℕ} (hn : n < line.length) :
    readPiece n (line ++ rest) = (line.take n, line.drop n ++ rest) := by
  cases h with
  | ended body rest hbody =>
    rw [List.length_append, List.length_singleton] at hn
    rw [List.append_assoc, readPiece_take _ hbody (by omega),
      List.take_append_of_le_length (by omega), List.drop_append_of_le_length (by omega),
      List.append_assoc]
  | last body hbody hne => exact readPiece_take [] hbody hn.le

end Line
end LanChat.LineReading

import LanChat.LineReading
import LanChat.TypedCommands

set_option autoImplicit false

/-!
# `message_loop` of v1, v2 and v3: lines from `fgets` to frames

The three versions differ in where a frame is written to, and not in which
frames there are.
-/
namespace LanChat.FgetsLoops
open CStrings HexText FrameCodec ChatProcess TypedCommands LineReading

def endSignal : Bytes := ascii "am-end"

/-- The frames that are sent, in order, for what is on `stdin`. -/
def messageLoop (userName stdin : Bytes) : List Bytes :=
  match _h : fgets 1024 stdin with
  | none => []
  | some (message, rest) =>
    if isCommand message endSignal then []
    else createSendMsg (cstr message) userName :: messageLoop userName rest
termination_by stdin.length
decreasing_by exact fgets_shorter (by decide) _h

/-- The lines before the first one that begins with the end signal. -/
def chatLines (stdin : Bytes) : List Bytes :=
  (rawLines stdin).takeWhile fun line => !decide (endSignal <+: line)

/-- What follows the header in a frame for this text. -/
def shown (userName text : Bytes) : Bytes := userName ++ ascii ": " ++ text

/-- A line with its end has room in `message`, and no CR but the one at its end. -/
def Whole (line : Bytes) : Prop := line.length ≤ 1023 ∧ 13 ∉ lineText line

instance (line : Bytes) : Decidable (Whole line) := inferInstanceAs (Decidable (_ ∧ _))

theorem endSignal_iff (message : Bytes) :
    isCommand message endSignal = true ↔ endSignal <+: message := isCommand_iff (by decide) message

theorem messageLoop_piece (u : Bytes) {s m rest : Bytes} (hs : s ≠ [])
    (hm : readPiece 1023 s = (m, rest)) : messageLoop u s =
      if endSignal <+: m then [] else createSendMsg (cstr m) u :: messageLoop u rest := by
  have hfgets : fgets 1024 s = some (m, rest) := (fgets_eq_some hs).trans (congrArg some hm)
  rw [messageLoop]
  split
  · rename_i hnone
    rw [hfgets] at hnone
    cases hnone
  · rename_i m' rest' hsome
    obtain ⟨rfl, rfl⟩ := Prod.mk.inj (Option.some.inj (hfgets.symm.trans hsome))
    simp only [endSignal_iff]

theorem chatLines_line {line rest s : Bytes} (h : rawLines s = line :: rawLines rest) :
    chatLines s = if endSignal <+: line then [] else line :: chatLines rest := by
  rw [chatLines, h, List.takeWhile_cons]
  by_cases hend : endSignal <+: line <;> simp [hend, chatLines]

theorem drop_frame_piece {u m : Bytes} (hu : u.length ≤ 10) (hm : m.length ≤ 1023) :
    (createSendMsg (cstr m) u).drop 4 = shown u (chomp (cstr m)) := by
  have hle : (chomp (cstr m)).length ≤ 1023 := by
    rw [chomp_cstr]
    exact (List.takeWhile_prefix _).length_le.trans hm
  rw [createSendMsg_drop (by unfold lengthField; omega)]
  rfl

theorem shown_injective {u t t' : Bytes} : shown u t = shown u t' ↔ t = t' :=
  List.append_right_inj (u ++ ascii ": ")

theorem chomp_text {t ending : Bytes} (ht : ∀ b ∈ t, isBreak b = false)
    (hend : ending = [] ∨ ending = [10] ∨ ending = [13, 10]) : chomp (cstr (t ++ ending)) = t := by
  rw [chomp_cstr, List.takeWhile_append_of_pos fun b hb => by simp [ht b hb]]
  rcases hend with rfl | rfl | rfl <;> simp [isBreak]

theorem isBreak_of_mem_chomp {b : UInt8} {m : Bytes} (h : b ∈ chomp (cstr m)) :
    isBreak b = false := by
  rw [chomp_cstr] at h
  simpa using List.mem_takeWhile_imp h

theorem exists_ending (line : Bytes) : ∃ ending, line = lineText line ++ ending ∧
    (ending = [] ∨ ending = [10] ∨ ending = [13, 10]) := by
  rcases eq_lineText_append line with h | h | h
  · exact ⟨[], by simpa using h, .inl rfl⟩
  · exact ⟨_, h, .inr (.inl rfl)⟩
  · exact ⟨_, h, .inr (.inr rfl)⟩

section Lines

variable {line rest : Bytes}

theorem chomp_line_iff (h : Line line rest) (hz : 0 ∉ line) :
    chomp (cstr line) = lineText line ↔ 13 ∉ lineText line := by
  obtain ⟨ending, hline, hend⟩ := exists_ending line
  have h10 := h.lf_notMem_text
  generalize lineText line = t at hline h10
  subst hline
  constructor
  · rintro heq hcr
    rw [← heq] at hcr
    exact absurd (isBreak_of_mem_chomp hcr) (by decide)
  · intro h13
    refine chomp_text (fun b hb => ?_) hend
    have hb0 : b ≠ 0 := fun e => hz (List.mem_append_left _ (e ▸ hb))
    have hb10 : b ≠ 10 := fun e => h10 (e ▸ hb)
    have hb13 : b ≠ 13 := fun e => h13 (e ▸ hb)
    simp [isBreak, hb0, hb10, hb13]

/-- Of a line that is too long for the buffer, only the end can be missing in
    the first piece, if the piece shows its text. -/
theorem drop_of_chomp_eq (hlong : 1023 < line.length)
    (heq : chomp (cstr (line.take 1023)) = lineText line) :
    line.drop 1023 = [10] ∨ line.drop 1023 = [13, 10] := by
  have hle : (lineText line).length ≤ 1023 := by
    rw [← heq, chomp_cstr]
    exact (List.takeWhile_prefix _).length_le.trans (List.length_take_le _ _)
  obtain ⟨ending, hline, hend⟩ := exists_ending line
  generalize lineText line = t at hline hle
  subst hline
  rw [List.length_append] at hlong
  rw [List.drop_append]
  rcases hend with rfl | rfl | rfl
  · simp only [List.length_nil] at hlong
    omega
  · simp only [List.length_singleton] at hlong
    have hlen : t.length = 1023 := by omega
    simp [hlen, List.drop_eq_nil_of_le hle]
  · simp only [List.length_cons, List.length_nil] at hlong
    have hlen : t.length = 1022 ∨ t.length = 1023 := by omega
    rcases hlen with hlen | hlen <;> simp [hlen, List.drop_eq_nil_of_le hle]

theorem messageLoop_end (u : Bytes) (h : Line line rest) (hend : endSignal <+: line) :
    messageLoop u (line ++ rest) = [] := by
  have hne : line ++ rest ≠ [] := by simp [h.ne_nil]
  rcases le_or_gt line.length 1023 with hle | hlong
  · rw [messageLoop_piece u hne (h.readPiece_short hle), if_pos hend]
  · have hsix : endSignal.length = 6 := rfl
    have hend' : endSignal <+: line.take 1023 := List.prefix_take_iff.2 ⟨hend, by omega⟩
    rw [messageLoop_piece u hne (h.readPiece_long hlong), if_pos hend']

end Lines

section Sent

variable {u : Bytes} (hu : u.length ≤ 10)
include hu

theorem sent_short {line rest : Bytes} (h : Line line rest) (hle : line.length ≤ 1023)
    (hend : ¬ endSignal <+: line) :
    (messageLoop u (line ++ rest)).map (List.drop 4) =
      shown u (chomp (cstr line)) :: (messageLoop u rest).map (List.drop 4) := by
  have hne : line ++ rest ≠ [] := by simp [h.ne_nil]
  rw [messageLoop_piece u hne (h.readPiece_short hle), if_neg hend, List.map_cons,
    drop_frame_piece hu hle]

theorem sent_long {line rest : Bytes} (h : Line line rest) (hlong : 1023 < line.length)
    (hend : ¬ endSignal <+: line) :
    (messageLoop u (line ++ rest)).map (List.drop 4) = shown u (chomp (cstr (line.take 1023))) ::
      (messageLoop u (line.drop 1023 ++ rest)).map (List.drop 4) := by
  have hne : line ++ rest ≠ [] := by simp [h.ne_nil]
  have hend' : ¬ endSignal <+: line.take 1023 := fun hp => hend (hp.trans (List.take_prefix _ _))
  rw [messageLoop_piece u hne (h.readPiece_long hlong), if_neg hend', List.map_cons,
    drop_frame_piece hu (List.length_take_le _ _)]

theorem sent_lineEnd {tail : Bytes} (rest : Bytes) (h : tail = [10] ∨ tail = [13, 10]) :
    (messageLoop u (tail ++ rest)).map (List.drop 4) =
      shown u [] :: (messageLoop u rest).map (List.drop 4) := by
  rcases h with rfl | rfl
  · have hline : Line [10] rest := .ended [] rest (by simp)
    rw [sent_short hu hline (by decide) (by decide)]
    rfl
  · have hline : Line [13, 10] rest := .ended [13] rest (by decide)
    rw [sent_short hu hline (by decide) (by decide)]
    rfl

/-- An empty message before all the others does not make them the lines. -/
theorem sent_not_shifted (s : Bytes) :
    shown u [] :: (messageLoop u s).map (List.drop 4) ≠
      (chatLines s).map (fun line => shown u (lineText line)) := by
  induction hn : s.length using Nat.strongRecOn generalizing s with
  | ind n ih =>
    by_cases hs : s = []
    · simp [hs, chatLines, rawLines]
    · obtain ⟨line, rest, hline, rfl, hraw⟩ := exists_line hs
      rw [chatLines_line hraw]
      split_ifs with hend
      · simp
      · rw [List.map_cons]
        intro heq
        obtain ⟨htext, htail⟩ := List.cons.inj heq
        have hnil : lineText line = [] := (shown_injective.1 htext).symm
        have hlone : line = [10] ∨ line = [13, 10] := by
          rcases eq_lineText_append line with h | h | h <;> rw [hnil] at h
          · exact absurd h hline.ne_nil
          · exact .inl h
          · exact .inr h
        rw [sent_lineEnd hu rest hlone] at htail
        have hpos := List.length_pos_iff.2 hline.ne_nil
        rw [List.length_append] at hn
        exact ih rest.length (by omega) rest rfl htail

theorem sent_lines_iff (s : Bytes) (hz : 0 ∉ s) :
    (messageLoop u s).map (List.drop 4) = (chatLines s).map (fun line => shown u (lineText line)) ↔
      ∀ line ∈ chatLines s, Whole line := by
  induction hn : s.length using Nat.strongRecOn generalizing s with
  | ind n ih =>
    by_cases hs : s = []
    · simp [hs, chatLines, rawLines, messageLoop, fgets]
    · obtain ⟨line, rest, hline, rfl, hraw⟩ := exists_line hs
      have hpos := List.length_pos_iff.2 hline.ne_nil
      rw [List.mem_append, not_or] at hz
      rw [List.length_append] at hn
      have hrest := ih rest.length (by omega) rest hz.2 rfl
      rw [chatLines_line hraw]
      split_ifs with hend
      · simp [messageLoop_end u hline hend]
      · rw [List.forall_mem_cons, List.map_cons, ← hrest]
        rcases le_or_gt line.length 1023 with hle | hlong
        · rw [sent_short hu hline hle hend, List.cons.injEq, shown_injective,
            chomp_line_iff hline hz.1]
          simp only [Whole, hle, true_and]
        · rw [sent_long hu hline hlong hend, List.cons.injEq, shown_injective]
          refine iff_of_false ?_ fun h => absurd h.1.1 (by omega)
          rintro ⟨htext, htail⟩
          rw [sent_lineEnd hu rest (drop_of_chomp_eq hlong htext)] at htail
          exact sent_not_shifted hu rest htail

end Sent

/-- v1, v2 and v3 send the lines that are typed before the end signal, one frame
    for each, exactly when each of them fits `message` with its end and has no
    other CR. -/
theorem lines_sent_iff (userName stdin : Bytes) (hname : userName.length ≤ 10)
    (hstdin : 0 ∉ stdin) :
    (messageLoop userName stdin).map (List.drop 4) =
        (chatLines stdin).map (fun line => shown userName (lineText line)) ↔
      ∀ line ∈ chatLines stdin, Whole line := sent_lines_iff hname stdin hstdin

theorem lines_sent_hello :
    (messageLoop (ascii "bob") (ascii "hello\r\n\nworld\nam-end\n")).map (List.drop 4) =
      (chatLines (ascii "hello\r\n\nworld\nam-end\n")).map
        (fun line => shown (ascii "bob") (lineText line)) :=
  (lines_sent_iff (ascii "bob") (ascii "hello\r\n\nworld\nam-end\n") (by decide) (by decide)).2
    (by decide)

def longLine : Bytes := List.replicate 1023 120 ++ ascii "am-end"

theorem longLine_cut (u rest : Bytes) : messageLoop u (longLine ++ 10 :: rest) =
    [createSendMsg (cstr (List.replicate 1023 120)) u] := by
  have hpiece : readPiece 1023 (longLine ++ 10 :: rest) =
      (List.replicate 1023 120, ascii "am-end" ++ 10 :: rest) := by
    have hbody : (10 : UInt8) ∉ List.replicate 1023 120 := fun h =>
      absurd (List.eq_of_mem_replicate h) (by decide)
    rw [longLine, List.append_assoc, readPiece_take _ hbody (by rw [List.length_replicate]),
      List.take_of_length_le (by rw [List.length_replicate]),
      List.drop_of_length_le (by rw [List.length_replicate]), List.nil_append]
  have hbegin : ¬ endSignal <+: List.replicate 1023 120 := fun h =>
    absurd (List.eq_of_mem_replicate (h.subset (show (97 : UInt8) ∈ endSignal by decide)))
      (by decide)
  have hline : Line (ascii "am-end\n") rest := .ended (ascii "am-end") rest (by decide)
  have hrest : ascii "am-end" ++ 10 :: rest = ascii "am-end\n" ++ rest := rfl
  rw [messageLoop_piece u (by simp) hpiece, if_neg hbegin, hrest,
    messageLoop_end u hline (by decide)]

/-- A line is cut at a CR inside it, and one that is longer than the buffer can
    end the chat by its own text. -/
theorem line_cut :
    (messageLoop (ascii "bob") (ascii "one\rtwo\n")).map (List.drop 4) = [ascii "bob: one"] ∧
    (chatLines (ascii "one\rtwo\n")).map lineText = [ascii "one\rtwo"] ∧
    (messageLoop (ascii "bob") (longLine ++ ascii "\nmore\n")).length = 1 ∧
    (chatLines (longLine ++ ascii "\nmore\n")).map lineText = [longLine, ascii "more"] := by
  refine ⟨?_, by decide, ?_, ?_⟩
  · have hline : Line (ascii "one\rtwo\n") [] := .ended (ascii "one\rtwo") [] (by decide)
    have hsent := sent_short (u := ascii "bob") (by decide) hline (by decide) (by decide)
    rw [List.append_nil] at hsent
    rw [hsent, messageLoop]
    rfl
  · rw [show longLine ++ ascii "\nmore\n" = longLine ++ 10 :: ascii "more\n" from rfl,
      longLine_cut]
    rfl
  · have hbody : (10 : UInt8) ∉ longLine := by
      rw [longLine, List.mem_append, not_or]
      exact ⟨fun h => absurd (List.eq_of_mem_replicate h) (by decide), by decide⟩
    have hbegin : ¬ endSignal <+: longLine ++ [10] := by
      rintro ⟨r, hr⟩
      rw [longLine, List.replicate_succ] at hr
      exact absurd (List.cons.inj hr).1 (by decide)
    have hrest : chatLines (ascii "more\n") = [ascii "more\n"] := by decide
    have hlast : longLine.getLast? = some 100 := by
      rw [longLine, show ascii "am-end" = ascii "am-en" ++ [100] from rfl, ← List.append_assoc,
        List.getLast?_concat]
    have htext : lineText (longLine ++ [10]) = longLine := by
      rw [lineText, List.getLast?_concat, List.dropLast_concat, hlast, if_pos rfl,
        if_neg (by decide)]
    rw [show longLine ++ ascii "\nmore\n" = longLine ++ 10 :: ascii "more\n" from rfl,
      chatLines_line (rawLines_ended _ hbody), if_neg hbegin, hrest, List.map_cons, htext]
    rfl

end LanChat.FgetsLoops

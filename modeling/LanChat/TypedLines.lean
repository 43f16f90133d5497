import LanChat.PeerTable
import LanChat.ReceiveBounds
import LanChat.TypedCommands

set_option autoImplicit false

/-!
# Lines that reach the loop of v4 and v5 in chunks

A terminal hands over one line at a time, a pipe or a paste several. The loop
does one thing for each `Read`, nothing for one that returns zero, and `am-find`
keeps it in a `Recvfrom` until something arrives on `sockfd`.
-/
namespace LanChat.TypedLines
open CStrings HexText FrameCodec SocketAddresses DatagramReceive ReceiveBounds TransitionRuns
  ChatProcess PeerTable TypedCommands

/-- One or more whole lines, without their ends, that one `Read` returns. -/
structure Chunk where
  first : Bytes
  more : List Bytes
  plain : ∀ line ∈ first :: more, 0 ∉ line ∧ 10 ∉ line
  fits : ((first :: more).flatMap (· ++ [10])).length < 1024

namespace Chunk

def lines (c : Chunk) : List Bytes := c.first :: c.more

def bytes (c : Chunk) : Bytes := c.lines.flatMap (· ++ [10])

end Chunk

/-- What comes to a process: `Read` returns a chunk in front of what the buffer
    held, or nothing, or a datagram is at one of the descriptors. `answer` is what
    the `Recvfrom` of `am-find` gets if the chunk makes it wait, and none where
    nothing ever arrives. -/
inductive Session where
  | read (c : Chunk) (old : Bytes) (answer : Option (Datagram × Residue))
  | eof
  | datagram (fd : Fd) (d : Datagram) (mem : Residue)

/-- A process, and what its `message_loop` has done for the input so far. -/
structure Loop where
  proc : Proc
  done : List Command

/-- What cannot come leaves a process where it is. -/
def advance (v : Version) (cfg : Config) (p : Proc) (e : Event) : Proc := (turn v cfg p e).getD p

/-- `am-find` takes what its `Recvfrom` gets. -/
def awaitAnswer (v : Version) (cfg : Config) (p : Proc) (answer : Option (Datagram × Residue)) :
    Proc :=
  match p.phase, answer with
  | .confirming, some (d, mem) => advance v cfg p (.recv .sockfd d mem)
  | _, _ => p

/-- A process that is not at `Select` leaves everything unread. -/
def serve (v : Version) (cfg : Config) (l : Loop) (s : Session) : Loop :=
  if l.proc.phase = .selecting then
    match s with
    | .read c old answer =>
      let message := blit c.bytes old
      ⟨awaitAnswer v cfg (advance v cfg l.proc (.input message)) answer,
        l.done ++ [command cfg.userName message]⟩
    | .eof => ⟨advance v cfg l.proc .eof, l.done⟩
    | .datagram fd d mem => ⟨advance v cfg l.proc (.recv fd d mem), l.done⟩
  else l

/-- `message_loop` from its start with this table. -/
def Loop.start (peers : List SockAddr) : Loop := ⟨⟨.selecting, peers⟩, []⟩

/-- The frame of a line: its text up to a carriage return, behind the user's name. -/
def lineFrame (userName line : Bytes) : Bytes :=
  let text := userName ++ ascii ": " ++ line.takeWhile (· ≠ 13)
  headerOf (text.length + 5) ++ text

def asked (userName line : Bytes) : Command :=
  if cmdEnd <+: line then .quit
  else if cmdFind <+: line then .find
  else .send (lineFrame userName line)

/-- What is to be done for lines in this order, where `none` is the end of the
    input: everything that is asked for until the loop is to be left. -/
def due (userName : Bytes) : List (Option Bytes) → List Command
  | [] => []
  | none :: _ => [.quit]
  | some line :: rest =>
    if asked userName line = .quit then [.quit] else asked userName line :: due userName rest

def typed (sessions : List Session) : List (Option Bytes) :=
  sessions.flatMap fun
    | .read c _ _ => c.lines.map some
    | .eof => [none]
    | .datagram _ _ _ => []

/-- Everything that has been typed has been served, and nothing else, and the
    loop is ready for more or has been left as it was to be. -/
structure Served (userName : Bytes) (sessions : List Session) (l : Loop) : Prop where
  done : l.done = due userName (typed sessions)
  left : l.proc.phase = .left ↔ .quit ∈ due userName (typed sessions)
  alive : l.proc.phase = .selecting ∨ l.proc.phase = .left

/-- The header of a datagram declares its length and the terminator, or, where
    the filter drops it, anything but zero. -/
def Declares (r : Receiver) (mem : Residue) (d : Datagram) : Prop :=
  if r.passes d.src then DeclaresFive (headerText mem d) else msgLen mem d ≠ 0

/-- `Read` returns one line, or lines of which the first ends the chat, and not
    zero; an `am-find` is answered by an offer; datagrams are handled inside their
    blocks; and the table has room for whom an offer or a request puts there. -/
def OneLine (v : Version) (cfg : Config) (l : Loop) : Session → Prop
  | .read c _ answer => (c.more = [] ∨ cmdEnd <+: c.first) ∧ (cmdFind <+: c.first →
      ∃ a ∈ answer, authTryConfirm a.2 a.1 = true ∧ l.proc.peers.length < maxPeers)
  | .eof => False
  | .datagram fd d mem => ∀ r, v.receiver cfg fd = some r → Declares r mem d ∧
      (handshake v cfg (.recv fd d mem) ≠ none → l.proc.peers.length < maxPeers)

theorem typed_append (before after : List Session) :
    typed (before ++ after) = typed before ++ typed after := List.flatMap_append

theorem takeWhile_append_stop {p : UInt8 → Bool} {b : UInt8} (s r : Bytes) (hb : p b = false) :
    (s ++ b :: r).takeWhile p = s.takeWhile p := by
  induction s with
  | nil => simp [hb]
  | cons a s ih =>
    by_cases ha : p a = true
    · simp [ha, ih]
    · simp [ha]

theorem chomp_cstr_line {line : Bytes} (rest : Bytes) (hline : 0 ∉ line) :
    chomp (cstr (line ++ 10 :: rest)) = chomp line := by
  rw [chomp_cstr, takeWhile_append_stop line rest rfl, ← chomp_cstr, cstr,
    List.takeWhile_eq_self_iff.2]
  intro b hb
  exact decide_eq_true fun h => hline (h ▸ hb)

theorem takeWhile_congr {p q : UInt8 → Bool} {s : Bytes} (h : ∀ b ∈ s, p b = q b) :
    s.takeWhile p = s.takeWhile q := by
  induction s with
  | nil => rfl
  | cons a s ih =>
    obtain ⟨ha, hs⟩ := List.forall_mem_cons.1 h
    rw [List.takeWhile_cons, List.takeWhile_cons, ha, ih hs]

theorem chomp_line {line : Bytes} (hline : 10 ∉ line) : chomp line = line.takeWhile (· ≠ 13) := by
  rw [chomp, take_strcspn]
  refine takeWhile_congr fun b hb => ?_
  have hcr : ascii "\r\n" = [13, 10] := rfl
  have hb10 : b ≠ 10 := fun h => hline (h ▸ hb)
  simp [hcr, hb10]

theorem createSendMsg_line {u line : Bytes} (rest : Bytes) (hu : u.length ≤ 10)
    (hline : 0 ∉ line ∧ 10 ∉ line) (hlen : line.length < 1024) :
    createSendMsg (cstr (line ++ 10 :: rest)) u = lineFrame u line := by
  have hchomp := (List.takeWhile_prefix (p := (· ≠ 13)) (l := line)).length_le
  rw [← chomp_line hline.2] at hchomp
  have hfield : lengthField u line < 2 ^ 31 := by
    unfold lengthField
    omega
  rw [createSendMsg_congr u (chomp_cstr_line rest hline.1), createSendMsg_eq hfield,
    intToHex4_eq_headerOf hfield, ← body_length, lineFrame, ← chomp_line hline.2]
  rfl

theorem command_line {u line : Bytes} (rest : Bytes) (hu : u.length ≤ 10)
    (hline : 0 ∉ line ∧ 10 ∉ line) (hlen : line.length < 1024) :
    command u (line ++ 10 :: rest) = asked u line := by
  have hend := prefix_append_stop_iff (t := cmdEnd) (b := 10) line rest (by decide)
  have hfind := prefix_append_stop_iff (t := cmdFind) (b := 10) line rest (by decide)
  have hsend := createSendMsg_line rest hu hline hlen
  unfold command asked
  simp only [isCommand_end_iff, isCommand_find_iff, hend, hfind, hsend]

theorem command_chunk {u : Bytes} (hu : u.length ≤ 10) (c : Chunk) (old : Bytes) :
    command u (blit c.bytes old) = asked u c.first := by
  have hbytes : blit c.bytes old =
      c.first ++ 10 :: (c.more.flatMap (· ++ [10]) ++ old.drop c.bytes.length) := by
    simp [blit, Chunk.bytes, Chunk.lines]
  have hlen : c.first.length < 1024 := by
    have hfits := c.fits
    rw [List.flatMap_cons, List.length_append, List.length_append] at hfits
    omega
  rw [hbytes]
  exact command_line _ hu (c.plain c.first List.mem_cons_self) hlen

theorem asked_quit_iff (u line : Bytes) : asked u line = .quit ↔ cmdEnd <+: line := by
  unfold asked
  split_ifs with h1 h2 <;> simp [h1]

theorem asked_find_iff (u line : Bytes) : asked u line = .find ↔ cmdFind <+: line := by
  unfold asked
  split_ifs with h1 h2
  · refine iff_of_false (by simp) fun h => ?_
    have hquit := command_end u h1
    rw [command_find u h] at hquit
    cases hquit
  · simp [h2]
  · simp [h2]

theorem due_append {u : Bytes} {xs : List (Option Bytes)} (ys : List (Option Bytes))
    (h : .quit ∉ due u xs) : due u (xs ++ ys) = due u xs ++ due u ys := by
  induction xs with
  | nil => rfl
  | cons x xs ih =>
    cases x with
    | none => simp [due] at h
    | some line =>
      by_cases hquit : asked u line = .quit
      · simp [due, hquit] at h
      · simp only [due, hquit, ↓reduceIte, List.mem_cons, not_or] at h
        simp [due, hquit, ih h.2]

theorem due_append_of_quit {u : Bytes} {xs : List (Option Bytes)} (ys : List (Option Bytes))
    (h : .quit ∈ due u xs) : due u (xs ++ ys) = due u xs := by
  induction xs with
  | nil => cases h
  | cons x xs ih =>
    cases x with
    | none => rfl
    | some line =>
      by_cases hquit : asked u line = .quit
      · simp [due, hquit]
      · simp only [due, hquit, ↓reduceIte, List.mem_cons] at h
        simp [due, hquit, ih (h.resolve_left fun e => hquit e.symm)]

theorem due_chunk_iff (u : Bytes) (c : Chunk) :
    due u (c.lines.map some) = [asked u c.first] ↔ c.more = [] ∨ cmdEnd <+: c.first := by
  rw [Chunk.lines, List.map_cons, due, ← asked_quit_iff u]
  by_cases hquit : asked u c.first = .quit
  · simp [hquit]
  · cases hmore : c.more with
    | nil => simp [hquit, due]
    | cons line more =>
      simp only [hquit, ↓reduceIte, List.map_cons, due]
      split_ifs <;> simp

section Selecting

variable {v : Version} {cfg : Config} {peers : List SockAddr}

theorem advance_input (message : Bytes) : advance v cfg ⟨.selecting, peers⟩ (.input message) =
    (perform cfg ⟨.selecting, peers⟩ (command cfg.userName message)).1 := by
  rw [← onInput_eq]
  rfl

theorem advance_answer (d : Datagram) (mem : Residue) :
    advance v cfg ⟨.confirming, peers⟩ (.recv .sockfd d mem) =
      if authTryConfirm mem d then addPeer ⟨.confirming, peers⟩ d.src .selecting
      else ⟨.failed .rcvfrom, peers⟩ := by
  by_cases hc : authTryConfirm mem d = true <;> simp [advance, turn, step, fail, hc]

/-- After `am-find` the loop goes on exactly if an offer has come and has found
    room, and is not left. -/
theorem awaitAnswer_phase (answer : Option (Datagram × Residue)) :
    ((awaitAnswer v cfg ⟨.confirming, peers⟩ answer).phase = .selecting ↔
      ∃ a ∈ answer, authTryConfirm a.2 a.1 = true ∧ peers.length < maxPeers) ∧
    (awaitAnswer v cfg ⟨.confirming, peers⟩ answer).phase ≠ .left := by
  cases answer with
  | none => simp [awaitAnswer]
  | some a =>
    obtain ⟨d, mem⟩ := a
    simp only [awaitAnswer, advance_answer]
    by_cases hc : authTryConfirm mem d = true
    · by_cases hroom : peers.length < maxPeers <;> simp [hc, addPeer, hroom]
    · simp [hc]

theorem declares_iff (r : Receiver) (mem : Residue) (d : Datagram) :
    Declares r mem d ↔ ∃ reaction, receive r mem d = .ok reaction := by
  rw [Declares]
  split_ifs with hpass
  · exact (inside_iff r mem d hpass).symm
  · have hdrop : r.passes d.src = false := Bool.eq_false_iff.2 hpass
    constructor
    · exact fun h => ⟨.ignore, (receive_dropped_iff hdrop).2 h⟩
    · rintro ⟨reaction, h⟩ hzero
      rw [receive_nothing r hzero] at h
      cases h

/-- A datagram leaves the loop where it is unless it is handled outside its block
    or its source is stored outside the table. -/
theorem advance_datagram (fd : Fd) (d : Datagram) (mem : Residue) :
    ((advance v cfg ⟨.selecting, peers⟩ (.recv fd d mem)).phase = .selecting ↔
      ∀ r, v.receiver cfg fd = some r → Declares r mem d ∧
        (handshake v cfg (.recv fd d mem) ≠ none → peers.length < maxPeers)) ∧
    (advance v cfg ⟨.selecting, peers⟩ (.recv fd d mem)).phase ≠ .left := by
  cases fd with
  | sockfd => simp [advance, turn, step, Version.receiver]
  | listenfd | joinfd =>
    cases hr : v.receiver cfg _ with
    | none => simp [advance, turn, step, hr]
    | some r =>
      simp only [advance, turn, step, hr, declares_iff, handshake, onMessage, Option.map_some,
        Option.getD_some, Option.some.injEq, forall_eq', Option.bind_some]
      rcases receive r mem d with f | _ | text | _
      · simp
      · by_cases hroom : peers.length < maxPeers <;> simp [addPeer, hroom]
      · simp
      · simp

end Selecting

section Step

variable {v : Version} {cfg : Config} {before : List Session} {l : Loop}

theorem served_read {c : Chunk} {p : Proc} {old : Bytes} {answer : Option (Datagram × Residue)}
    (hl : Served cfg.userName before l) (hgo : .quit ∉ due cfg.userName (typed before)) :
    Served cfg.userName (before ++ [.read c old answer])
        ⟨p, l.done ++ [command cfg.userName (blit c.bytes old)]⟩ ↔
      (c.more = [] ∨ cmdEnd <+: c.first) ∧
        (p.phase = .left ↔ asked cfg.userName c.first = .quit) ∧
        (p.phase = .selecting ∨ p.phase = .left) := by
  have htyped : typed (before ++ [.read c old answer]) = typed before ++ c.lines.map some := by
    rw [typed_append]
    simp [typed]
  have hquit : due cfg.userName (c.lines.map some) = [asked cfg.userName c.first] →
      (.quit ∈ due cfg.userName (typed before) ++ due cfg.userName (c.lines.map some) ↔
        asked cfg.userName c.first = .quit) := by
    intro h
    rw [h]
    simp [hgo, eq_comm]
  rw [← due_chunk_iff cfg.userName c]
  constructor
  · rintro ⟨hdone, hleft, halive⟩
    rw [htyped, due_append _ hgo, hl.done, command_chunk cfg.userName_length,
      List.append_cancel_left_eq] at hdone
    rw [htyped, due_append _ hgo, hquit hdone.symm] at hleft
    exact ⟨hdone.symm, hleft, halive⟩
  · rintro ⟨hdue, hleft, halive⟩
    refine ⟨?_, ?_, halive⟩
    · rw [htyped, due_append _ hgo, hl.done, command_chunk cfg.userName_length, hdue]
    · rw [htyped, due_append _ hgo, hquit hdue]
      exact hleft

theorem served_step {s : Session} (hl : Served cfg.userName before l)
    (hp : l.proc.phase = .selecting) :
    Served cfg.userName (before ++ [s]) (serve v cfg l s) ↔ OneLine v cfg l s := by
  have hgo : .quit ∉ due cfg.userName (typed before) := by
    rw [← hl.left, hp]
    simp
  obtain ⟨⟨phase, peers⟩, done⟩ := l
  change phase = .selecting at hp
  subst phase
  unfold serve
  rw [if_pos rfl]
  cases s with
  | read c old answer =>
    dsimp only
    rw [served_read hl hgo, advance_input, command_chunk cfg.userName_length, OneLine,
      ← asked_find_iff cfg.userName c.first]
    refine and_congr_right fun _ => ?_
    cases h : asked cfg.userName c.first with
    | quit => simp [perform, awaitAnswer]
    | find =>
      obtain ⟨hselecting, hleft⟩ := @awaitAnswer_phase v cfg peers answer
      simp only [perform, hleft, reduceCtorEq, or_false, true_and, true_implies]
      exact hselecting
    | send toSend => simp [perform, awaitAnswer]
  | eof =>
    refine iff_of_false (fun h => ?_) id
    have htyped : typed (before ++ [.eof]) = typed before ++ [none] := typed_append _ _
    have hdone := h.done
    rw [htyped, due_append _ hgo] at hdone
    have hlen := congrArg List.length (hl.done.symm.trans hdone)
    simp [due] at hlen
  | datagram fd d mem =>
    have htyped : typed (before ++ [.datagram fd d mem]) = typed before := by
      rw [typed_append]
      exact List.append_nil _
    obtain ⟨hselecting, hleft⟩ := @advance_datagram v cfg peers fd d mem
    rw [OneLine, ← hselecting]
    constructor
    · exact fun h => h.alive.resolve_right hleft
    · refine fun h => ⟨?_, ?_, .inl h⟩
      · rw [htyped]
        exact hl.done
      · rw [htyped]
        exact iff_of_false hleft hgo

/-- What comes after the loop has been left is not asked for any more. -/
theorem served_left {s : Session} (hl : Served cfg.userName before l)
    (hp : l.proc.phase = .left) : Served cfg.userName (before ++ [s]) (serve v cfg l s) := by
  have hsame : due cfg.userName (typed (before ++ [s])) = due cfg.userName (typed before) := by
    rw [typed_append]
    exact due_append_of_quit _ (hl.left.1 hp)
  unfold serve
  rw [if_neg (by simp [hp])]
  refine ⟨?_, ?_, hl.alive⟩
  · rw [hsame]
    exact hl.done
  · rw [hsame]
    exact hl.left

end Step

theorem step_performs {v : Version} {cfg : Config} {p : Proc} {message : Bytes}
    {q : Proc × List Act} (h : step v cfg p (.input message) = some q) :
    q = perform cfg p (command cfg.userName message) := by
  simp only [step] at h
  split at h
  · rw [← onInput_eq]
    exact (Option.some.inj h).symm
  · cases h

theorem packets_perform (cfg : Config) (p : Proc) (toSend : Bytes) :
    packets (perform cfg p (.send toSend)).2 = p.peers.map (chatPacket cfg toSend) :=
  packets_fanOut cfg p.peers toSend

/-- From any table on, everything that is typed is served, once, in its order, and
    the loop is left where it is to be and ready before, exactly when each `Read`
    at `Select` returns one line (or ends the chat) and none finds the end of the
    input, an offer comes for each `am-find`, and no datagram or store leaves its
    block or the table; what is sent goes once to each entry of that moment. -/
theorem lines_served_iff (v : Version) (cfg : Config) (peers : List SockAddr)
    (sessions : List Session) :
    (AlongHistory (fun l s => some (serve v cfg l s)) (Served cfg.userName) (.start peers) sessions ↔
      Guarded (fun l s => some (serve v cfg l s))
        (fun l s => l.proc.phase = .selecting → OneLine v cfg l s) (.start peers) sessions) ∧
    (∀ p message q, step v cfg p (.input message) = some q →
      q = perform cfg p (command cfg.userName message) ∧
        ∀ toSend, command cfg.userName message = .send toSend →
          packets q.2 = p.peers.map (chatPacket cfg toSend)) := by
  refine ⟨alongHistory_iff_guarded ?_ ?_, fun p message q h => ⟨step_performs h, ?_⟩⟩
  · exact ⟨rfl, by simp [Loop.start, typed, due], .inl rfl⟩
  · intro before s l l' _ _ hl hserve
    cases hserve
    rcases hl.alive with hp | hp
    · rw [served_step hl hp]
      exact ⟨fun h _ => h, fun h => h hp⟩
    · exact iff_of_true (served_left hl hp) fun hp' => absurd (hp.symm.trans hp') (by simp)
  · intro toSend hsend
    rw [step_performs h, hsend]
    exact packets_perform cfg p toSend

def findLine : Chunk := ⟨ascii "am-find", [], by decide, by decide⟩
def helloLine : Chunk := ⟨ascii "hello", [], by decide, by decide⟩

/-- `am-find` is answered by an offer, and then a line is typed. -/
theorem lines_served_answered :
    AlongHistory (fun l s => some (serve .v5 (host 1) l s)) (Served (ascii "user")) (.start [])
      [.read findLine [] (some (⟨(host 2).sock .listenfd, createSendMsgStatic authOfc⟩, clean)),
        .read helloLine (ascii "am-find\n") none] := by
  refine (lines_served_iff .v5 (host 1) [] _).1.2 ?_
  rw [guarded_cons]
  rintro l ⟨⟩
  refine ⟨fun _ => ⟨.inl rfl, fun _ => ⟨_, rfl, by decide, by decide⟩⟩, ?_⟩
  rw [guarded_cons]
  rintro l ⟨⟩
  exact ⟨fun _ => ⟨.inl rfl, fun h => absurd h (by decide)⟩, guarded_nil⟩

def pasted : Chunk := ⟨ascii "hello", [ascii "world"], by decide, by decide⟩

/-- A line behind an `am-find` that nobody answers. -/
def unanswered : List Session := [.read findLine [] none, .read helloLine [] none]

/-- Of two lines in one chunk the second is not sent, the end of the input does not
    end the loop, and a line behind an `am-find` without an answer is not read. -/
theorem pasted_line_lost :
    (run (fun l s => some (serve .v4 (host 1) l s)) (.start []) [.read pasted [] none]).map
        Loop.done = some [.send (ascii "0010user: hello")] ∧
    due (ascii "user") (typed [.read pasted [] none]) =
      [.send (ascii "0010user: hello"), .send (ascii "0010user: world")] ∧
    (run (fun l s => some (serve .v5 (host 1) l s)) (.start []) [.eof]).map
        (·.proc.phase) = some .selecting ∧
    due (ascii "user") (typed [.eof]) = [.quit] ∧
    (run (fun l s => some (serve .v5 (host 1) l s)) (.start []) unanswered).map
        Loop.done = some [.find] ∧
    due (ascii "user") (typed unanswered) = [.find, .send (ascii "0010user: hello")] ∧
    ¬ AlongHistory (fun l s => some (serve .v4 (host 1) l s)) (Served (ascii "user")) (.start [])
      [.read pasted [] none] ∧
    ¬ AlongHistory (fun l s => some (serve .v5 (host 1) l s)) (Served (ascii "user")) (.start [])
      [.eof] ∧
    ¬ AlongHistory (fun l s => some (serve .v5 (host 1) l s)) (Served (ascii "user")) (.start [])
      unanswered := by
  refine ⟨rfl, rfl, rfl, rfl, rfl, rfl, ?_, ?_, ?_⟩
  · intro h
    exact absurd (h _ _ List.prefix_rfl rfl).done (by decide)
  · intro h
    exact absurd (h _ _ List.prefix_rfl rfl).done (by decide)
  · intro h
    exact absurd (h _ _ List.prefix_rfl rfl).done (by decide)

end LanChat.TypedLines

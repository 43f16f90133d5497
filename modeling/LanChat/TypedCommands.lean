import LanChat.ChatProcess

set_option autoImplicit false

/-!
# What is typed, and what `message_loop` of v4 and v5 makes of it

`Read` fills a buffer from its start, leaves what was behind, and does not
mark where it has stopped. Everything after it takes the buffer for one line.
-/
namespace LanChat.TypedCommands
open CStrings HexText FrameCodec SocketAddresses DatagramReceive TransitionRuns ChatProcess

inductive Command where
  | quit
  | find
  | send (toSend : Bytes)
  deriving DecidableEq, Repr

/-- What `message_loop` does with a buffer that `Read` has filled. -/
def command (userName message : Bytes) : Command :=
  if isCommand message cmdEnd then .quit
  else if isCommand message cmdFind then .find
  else .send (createSendMsg (cstr message) userName)

def perform (cfg : Config) (p : Proc) : Command → Proc × List Act
  | .quit => ({ p with phase := .left }, [])
  | .find => ({ p with phase := .confirming }, [authRequest (cfg.sock .sockfd) cfg.groupAddr])
  | .send toSend => (p, fanOut cfg p.peers toSend)

theorem onInput_eq (cfg : Config) (p : Proc) (message : Bytes) :
    onInput cfg p message = perform cfg p (command cfg.userName message) := by
  unfold onInput command
  split_ifs <;> rfl

theorem isCommand_iff {cmd : Bytes} (hcmd : 0 ∉ cmd) (message : Bytes) :
    isCommand message cmd = true ↔ cmd <+: message := by
  rw [isCommand, beq_iff_eq]
  exact strncmp_eq_zero_iff message cmd hcmd

theorem isCommand_end_iff (message : Bytes) :
    isCommand message cmdEnd = true ↔ cmdEnd <+: message := isCommand_iff (by decide) message

theorem isCommand_find_iff (message : Bytes) :
    isCommand message cmdFind = true ↔ cmdFind <+: message := isCommand_iff (by decide) message

/-- A byte at which `chomp`, or the string itself, ends. -/
def isBreak (b : UInt8) : Bool := b = 0 ∨ b = 10 ∨ b = 13

theorem chomp_cstr (message : Bytes) : chomp (cstr message) = message.takeWhile (!isBreak ·) := by
  rw [chomp, take_strcspn, cstr, List.takeWhile_takeWhile]
  congr 1
  funext b
  have hcr : ascii "\r\n" = [13, 10] := rfl
  by_cases h0 : b = 0 <;> by_cases h10 : b = 10 <;> by_cases h13 : b = 13 <;>
    simp [isBreak, hcr, h0, h10, h13]

theorem createSendMsg_congr {m m' : Bytes} (u : Bytes) (h : chomp m = chomp m') :
    createSendMsg m u = createSendMsg m' u := by
  simp only [createSendMsg, h]

theorem createSendMsg_drop {u m : Bytes} (h : lengthField u m < 2 ^ 31) :
    (createSendMsg m u).drop 4 = body u m := by
  rw [createSendMsg_eq h]
  exact List.drop_left' (intToHex4_length _)

/-- What has been read says by itself what is to be done: it begins with a
    command, or a line or the string ends in it. -/
def SpeaksForItself (read : Bytes) : Prop :=
  cmdEnd <+: read ∨ cmdFind <+: read ∨ ∃ b ∈ read, isBreak b = true

theorem prefix_read_iff (cmd : Bytes) {read : Bytes} (rest : Bytes)
    (hcmd : cmd.all (fun b => !isBreak b) = true) (hbreak : ∃ b ∈ read, isBreak b = true) :
    cmd <+: read ++ rest ↔ cmd <+: read := by
  constructor
  · intro h
    rcases List.prefix_or_prefix_of_prefix h (List.prefix_append read rest) with hle | hge
    · exact hle
    · obtain ⟨b, hb, hbreak⟩ := hbreak
      have hno := List.all_eq_true.1 hcmd b (hge.subset hb)
      simp [hbreak] at hno
  · exact fun h => h.trans (List.prefix_append read rest)

theorem command_broken {read : Bytes} (u rest : Bytes)
    (hbreak : ∃ b ∈ read, isBreak b = true) : command u (read ++ rest) = command u read := by
  have hend := prefix_read_iff cmdEnd rest (by decide) hbreak
  have hfind := prefix_read_iff cmdFind rest (by decide) hbreak
  have hsend : createSendMsg (cstr (read ++ rest)) u = createSendMsg (cstr read) u := by
    apply createSendMsg_congr u
    obtain ⟨b, hb, hb'⟩ := hbreak
    rw [chomp_cstr, chomp_cstr]
    exact takeWhile_prefix_of_mem hb (by simp [hb']) (List.prefix_append read rest)
  simp only [command, isCommand_end_iff, isCommand_find_iff, hend, hfind, hsend]

theorem command_end {message : Bytes} (u : Bytes) (h : cmdEnd <+: message) :
    command u message = .quit := if_pos ((isCommand_end_iff message).2 h)

theorem command_find {message : Bytes} (u : Bytes) (h : cmdFind <+: message) :
    command u message = .find := by
  have hend : ¬ cmdEnd <+: message := fun hend => by
    have hfour : cmdEnd.take 4 = cmdFind.take 4 := by
      rw [List.prefix_iff_eq_take.1 hend, List.prefix_iff_eq_take.1 h, List.take_take,
        List.take_take]
      rfl
    exact absurd hfour (by decide)
  rw [command, if_neg (by rwa [isCommand_end_iff]), if_pos ((isCommand_find_iff message).2 h)]

theorem command_send {message : Bytes} (u : Bytes) (hend : ¬ cmdEnd <+: message)
    (hfind : ¬ cmdFind <+: message) :
    command u message = .send (createSendMsg (cstr message) u) := by
  rw [command, if_neg (by rwa [isCommand_end_iff]), if_neg (by rwa [isCommand_find_iff])]

theorem SpeaksForItself.command_eq {read : Bytes} (h : SpeaksForItself read) (u rest : Bytes) :
    command u (read ++ rest) = command u read := by
  rcases h with hend | hfind | hbreak
  · rw [command_end u hend, command_end u (hend.trans (List.prefix_append read rest))]
  · rw [command_find u hfind, command_find u (hfind.trans (List.prefix_append read rest))]
  · exact command_broken u rest hbreak

/-- Old bytes that no command goes on with are sent along. -/
theorem command_unbroken {read : Bytes} (u : Bytes) (n : ℕ) (b : UInt8)
    (h : ¬ SpeaksForItself read) (hb : b = 0 ∨ b = 1) :
    command u (read ++ List.replicate n b) =
      .send (createSendMsg (cstr (read ++ List.replicate n b)) u) := by
  have hno : ∀ cmd : Bytes, 0 ∉ cmd → 1 ∉ cmd → ¬ cmd <+: read →
      ¬ cmd <+: read ++ List.replicate n b := by
    intro cmd h0 h1 hread hall
    rcases List.prefix_or_prefix_of_prefix hall (List.prefix_append read _) with hle | hge
    · exact hread hle
    · obtain ⟨r, rfl⟩ := hge
      obtain ⟨k, hk⟩ : ∃ k, r = List.replicate k b := by
        rw [List.prefix_append_right_inj] at hall
        exact ⟨r.length, List.eq_replicate_iff.2 ⟨rfl, fun c hc =>
          List.eq_of_mem_replicate (hall.subset hc)⟩⟩
      subst hk
      cases k with
      | zero => exact hread (by simp)
      | succ k => rcases hb with rfl | rfl <;> simp [List.replicate_succ] at h0 h1
  simp only [SpeaksForItself, not_or] at h
  exact command_send u (hno _ (by decide) (by decide) h.1) (hno _ (by decide) (by decide) h.2.1)

/-- Neither the bytes that an earlier `Read` has left in the buffer of 1024
    bytes nor those behind it have an influence. -/
def TypedOnly (userName read : Bytes) : Prop :=
  ∀ old old' : Bytes, 1024 ≤ old.length → 1024 ≤ old'.length →
    command userName (blit read old) = command userName (blit read old')

theorem blit_replicate (read : Bytes) (n : ℕ) (b : UInt8) :
    blit read (List.replicate n b) = read ++ List.replicate (n - read.length) b := by
  rw [blit, List.drop_replicate]

theorem chomp_unbroken {message : Bytes} (h : ∀ b ∈ message, isBreak b = false) :
    chomp (cstr message) = message := by
  rw [chomp_cstr, List.takeWhile_eq_self_iff]
  intro b hb
  simp [h b hb]

theorem chomp_zeros {read : Bytes} (h : ∀ b ∈ read, isBreak b = false) {n : ℕ} (hn : 0 < n) :
    chomp (cstr (read ++ List.replicate n 0)) = read := by
  obtain ⟨k, rfl⟩ : ∃ k, n = k + 1 := Nat.exists_eq_succ_of_ne_zero hn.ne'
  rw [List.replicate_succ, chomp_cstr, List.takeWhile_append_of_pos fun b hb => by simp [h b hb]]
  simp [isBreak]

theorem chomp_ones {read : Bytes} (h : ∀ b ∈ read, isBreak b = false) (n : ℕ) :
    chomp (cstr (read ++ List.replicate n 1)) = read ++ List.replicate n 1 := by
  apply chomp_unbroken
  intro b hb
  rcases List.mem_append.1 hb with hb | hb
  · exact h b hb
  · rw [List.eq_of_mem_replicate hb]
    rfl

theorem command_differs {u read : Bytes} (hu : u.length ≤ 10) {n : ℕ} (hn : 0 < n)
    (hle : read.length + n ≤ 1025) (hno : ¬ SpeaksForItself read) :
    command u (read ++ List.replicate n 0) ≠ command u (read ++ List.replicate n 1) := by
  have hbreak : ∀ b ∈ read, isBreak b = false := by
    intro b hb
    by_contra hb'
    exact hno (.inr (.inr ⟨b, hb, by simpa using hb'⟩))
  have hzero := chomp_zeros hbreak hn
  have hone := chomp_ones hbreak n
  rw [command_unbroken u _ 0 hno (.inl rfl), command_unbroken u _ 1 hno (.inr rfl)]
  intro hsame
  have hbody := congrArg (List.drop 4) (Command.send.inj hsame)
  rw [createSendMsg_drop (by rw [lengthField, hzero]; omega),
    createSendMsg_drop (by rw [lengthField, hone]; simp; omega), body, body, hzero, hone] at hbody
  have hlen := congrArg List.length hbody
  simp only [List.length_append, List.length_replicate] at hlen
  omega

theorem typedOnly_iff {u read : Bytes} (hu : u.length ≤ 10) (hle : read.length ≤ 1024) :
    TypedOnly u read ↔ SpeaksForItself read := by
  constructor
  · intro h
    by_contra hno
    have hlong : ∀ b : UInt8, 1024 ≤ (List.replicate 1025 b).length := by
      intro b
      rw [List.length_replicate]
      omega
    have hsame := h (List.replicate 1025 0) (List.replicate 1025 1) (hlong 0) (hlong 1)
    rw [blit_replicate, blit_replicate] at hsame
    exact command_differs hu (by omega) (by omega) hno hsame
  · intro h old old' _ _
    rw [blit, blit, h.command_eq, h.command_eq]

/-- What v4 and v5 do with the bytes of one `Read`, and the frame they send, is
    settled by these bytes exactly when they hold a NUL or a line end, or begin
    with a command. -/
theorem command_typed_iff (cfg : Config) (read : Bytes) (hle : read.length ≤ 1024) :
    (TypedOnly cfg.userName read ↔ SpeaksForItself read) ∧
    (SpeaksForItself read → ∀ v p old old',
      step v cfg p (.input (blit read old)) = step v cfg p (.input (blit read old'))) := by
  refine ⟨typedOnly_iff cfg.userName_length hle, fun h v p old old' => ?_⟩
  simp only [step, onInput_eq, blit, h.command_eq]

theorem command_typed_hello : TypedOnly (host 1).userName (ascii "hello\n") :=
  (command_typed_iff (host 1) (ascii "hello\n") (by decide)).1.2 (.inr (.inr ⟨10, by decide, rfl⟩))

theorem not_speaksForItself {read : Bytes} (hend : ¬ cmdEnd <+: read)
    (hfind : ¬ cmdFind <+: read) (hbreak : ¬ read.any isBreak = true) :
    ¬ SpeaksForItself read := by
  rintro (h | h | h)
  · exact hend h
  · exact hfind h
  · exact hbreak (List.any_eq_true.2 h)

def bufferAfter (line : String) : Bytes := blit (ascii line) (List.replicate 1024 0)

/-- Two bytes without a line end are sent with what is left of an earlier line,
    and three can quit. -/
theorem earlier_line_sent :
    command (ascii "user") (blit (ascii "hi") (bufferAfter "old secret\n")) =
      .send (ascii "0015user: hid secret") ∧
    command (ascii "user") (blit (ascii "hi") (bufferAfter "")) = .send (ascii "000duser: hi") ∧
    command (ascii "user") (blit (ascii "am-") (bufferAfter "xxxend\n")) = .quit ∧
    ¬ TypedOnly (ascii "user") (ascii "hi") ∧ ¬ TypedOnly (ascii "user") (ascii "am-") := by
  have hhi : ¬ SpeaksForItself (ascii "hi") :=
    not_speaksForItself (by decide) (by decide) (by decide)
  have ham : ¬ SpeaksForItself (ascii "am-") :=
    not_speaksForItself (by decide) (by decide) (by decide)
  exact ⟨rfl, rfl, rfl, fun h => hhi ((typedOnly_iff (by decide) (by decide)).1 h),
    fun h => ham ((typedOnly_iff (by decide) (by decide)).1 h)⟩

end LanChat.TypedCommands

import LanChat.FgetsLoops
import LanChat.TransitionRuns

set_option autoImplicit false

/-!
# `message_loop` of v1 and v2, and the loop of `writen`

Each frame goes to the connection in as many calls of `write` as it takes. What
has been written is at any time a start of what there is to write.
-/
namespace LanChat.WriteLoops
open CStrings HexText FrameCodec ChatProcess TypedCommands LineReading FgetsLoops TransitionRuns

/-- `writing` is in `writen`, with the bytes from `ptr` on to go; `failed` is the
    `err_sys` of `Writen`, and `exited` is behind the `kill` of the listener. -/
inductive SendPhase where
  | unconnected
  | typing
  | writing (ptr : Bytes)
  | left
  | exited
  | failed (ptr : Bytes)
  deriving DecidableEq, Repr

structure Sender where
  stdin : Bytes
  phase : SendPhase
  deriving DecidableEq, Repr

/-- What the calls return: `connect` in `find_peer`, `fgets`, and `write` with
    its count, with `EINTR`, or with another error. -/
inductive SendEvent where
  | connected
  | fgets
  | wrote (nwritten : ℕ)
  | interrupted
  | error
  | exit
  deriving DecidableEq, Repr

/-- The loop of `writen`, or what follows it. -/
def resume (stdin ptr : Bytes) : Sender := ⟨stdin, if ptr = [] then .typing else .writing ptr⟩

def onFgets (userName stdin : Bytes) : Sender :=
  match fgets 1024 stdin with
  | none => ⟨stdin, .left⟩
  | some (message, rest) =>
    if isCommand message endSignal then ⟨rest, .left⟩
    else resume rest (createSendMsg (cstr message) userName)

/-- The next wait, and the bytes that have gone out. -/
def sendStep (userName : Bytes) (s : Sender) : SendEvent → Option (Sender × Bytes)
  | .connected => match s.phase with
    | .unconnected => some (⟨s.stdin, .typing⟩, [])
    | _ => none
  | .fgets => match s.phase with
    | .typing => some (onFgets userName s.stdin, [])
    | _ => none
  | .wrote n => match s.phase with
    | .writing ptr =>
      if ptr.length < n then none
      else if n = 0 then some (⟨s.stdin, .failed ptr⟩, [])
      else some (resume s.stdin (ptr.drop n), ptr.take n)
    | _ => none
  | .interrupted => match s.phase with
    | .writing _ => some (s, [])
    | _ => none
  | .error => match s.phase with
    | .writing ptr => some (⟨s.stdin, .failed ptr⟩, [])
    | _ => none
  | .exit => match s.phase with
    | .left => some (⟨s.stdin, .exited⟩, [])
    | _ => none

/-- What would still be written if nothing failed any more. -/
def Sender.pending (userName : Bytes) (s : Sender) : Bytes :=
  match s.phase with
  | .unconnected | .typing => (messageLoop userName s.stdin).flatten
  | .writing ptr | .failed ptr => ptr ++ (messageLoop userName s.stdin).flatten
  | .left | .exited => []

theorem messageLoop_none {u stdin : Bytes} (h : fgets 1024 stdin = none) :
    messageLoop u stdin = [] := by
  rw [messageLoop]
  split
  · rfl
  · rename_i hsome
    rw [h] at hsome
    cases hsome

theorem messageLoop_some {u stdin message rest : Bytes}
    (h : fgets 1024 stdin = some (message, rest)) : messageLoop u stdin =
      if isCommand message endSignal then []
      else createSendMsg (cstr message) u :: messageLoop u rest := by
  rw [messageLoop]
  split
  · rename_i hnone
    rw [h] at hnone
    cases hnone
  · rename_i hsome
    obtain ⟨rfl, rfl⟩ := Prod.mk.inj (Option.some.inj (h.symm.trans hsome))
    rfl

theorem pending_resume (u stdin ptr : Bytes) :
    (resume stdin ptr).pending u = ptr ++ (messageLoop u stdin).flatten := by
  by_cases h : ptr = [] <;> simp [resume, Sender.pending, h]

theorem pending_onFgets (u stdin : Bytes) :
    (onFgets u stdin).pending u = (messageLoop u stdin).flatten := by
  unfold onFgets
  split
  · rename_i hnone
    rw [messageLoop_none hnone]
    rfl
  · rename_i hsome
    rw [messageLoop_some hsome]
    split_ifs with hend
    · rfl
    · rw [pending_resume, List.flatten_cons]

/-- Everything that a return can do to a sender, and what has gone out. -/
inductive Sends (userName : Bytes) (s : Sender) : SendEvent → Sender → Bytes → Prop where
  | connected (hp : s.phase = .unconnected) :
      Sends userName s .connected ⟨s.stdin, .typing⟩ []
  | fgets (hp : s.phase = .typing) : Sends userName s .fgets (onFgets userName s.stdin) []
  | wrote {ptr : Bytes} {n : ℕ} (hp : s.phase = .writing ptr) (hpos : 0 < n)
      (hle : n ≤ ptr.length) :
      Sends userName s (.wrote n) (resume s.stdin (ptr.drop n)) (ptr.take n)
  | interrupted {ptr : Bytes} (hp : s.phase = .writing ptr) : Sends userName s .interrupted s []
  | broken {ptr : Bytes} {e : SendEvent} (hp : s.phase = .writing ptr)
      (he : e = .error ∨ e = .wrote 0) : Sends userName s e ⟨s.stdin, .failed ptr⟩ []
  | exit (hp : s.phase = .left) : Sends userName s .exit ⟨s.stdin, .exited⟩ []

theorem sends_of_step {u : Bytes} {s : Sender} {e : SendEvent} {q : Sender × Bytes}
    (h : sendStep u s e = some q) : Sends u s e q.1 q.2 := by
  cases e with
  | wrote n =>
    simp only [sendStep] at h
    split at h
    · rename_i ptr hp
      split_ifs at h with hlong hzero
      · cases h
        exact .broken hp (.inr (by rw [hzero]))
      · cases h
        exact .wrote hp (Nat.pos_of_ne_zero hzero) (not_lt.1 hlong)
    · cases h
  | connected | fgets | interrupted | exit =>
    simp only [sendStep] at h
    split at h
    · rename_i hp
      cases h
      constructor
      exact hp
    · cases h
  | error =>
    simp only [sendStep] at h
    split at h
    · rename_i hp
      cases h
      exact .broken hp (.inl rfl)
    · cases h

/-- The socket of a process that has ended is closed. -/
def SendPhase.ended : SendPhase → Bool
  | .exited | .failed _ => true
  | _ => false

theorem resume_phase_ne (stdin ptr : Bytes) : (resume stdin ptr).phase ≠ .unconnected := by
  unfold resume
  split_ifs <;> simp

theorem onFgets_phase_ne (u stdin : Bytes) : (onFgets u stdin).phase ≠ .unconnected := by
  unfold onFgets
  split
  · simp
  · split_ifs
    · simp
    · exact resume_phase_ne _ _

section Sends

variable {u : Bytes} {s t : Sender} {e : SendEvent} {out : Bytes}

theorem Sends.pending_eq (h : Sends u s e t out) : s.pending u = out ++ t.pending u := by
  cases h with
  | connected hp | interrupted hp | broken hp he | exit hp => simp [Sender.pending, hp]
  | fgets hp =>
    rw [pending_onFgets]
    simp [Sender.pending, hp]
  | @wrote ptr n hp hpos hle =>
    rw [pending_resume, ← List.append_assoc, List.take_append_drop]
    simp [Sender.pending, hp]

theorem Sends.goesOn (h : Sends u s e t out) : s.phase.ended = false := by
  cases h with
  | connected hp | fgets hp | wrote hp | interrupted hp | broken hp | exit hp =>
    rw [hp]
    rfl

theorem Sends.connected_iff (h : Sends u s e t out) :
    e = .connected ↔ s.phase = .unconnected := by
  cases h with
  | connected hp => exact iff_of_true rfl hp
  | broken hp he =>
    rw [hp]
    rcases he with rfl | rfl <;> simp
  | fgets hp | wrote hp | interrupted hp | exit hp =>
    rw [hp]
    simp

theorem Sends.phase_ne (h : Sends u s e t out) : t.phase ≠ .unconnected := by
  cases h with
  | connected | broken | exit => simp
  | fgets => exact onFgets_phase_ne _ _
  | wrote => exact resume_phase_ne _ _
  | interrupted hp =>
    rw [hp]
    simp

end Sends

theorem readPiece_length_le (n : ℕ) (s : Bytes) : (readPiece n s).1.length ≤ n := by
  induction n generalizing s with
  | zero => exact Nat.le_refl 0
  | succ n ih =>
    cases s with
    | nil => exact Nat.zero_le _
    | cons b s =>
      by_cases hb : b = 10
      · simp [readPiece, hb]
      · simpa [readPiece, hb] using ih s

theorem messageLoop_lines {u : Bytes} (hname : u.length ≤ 10) (hnul : 0 ∉ u) (stdin : Bytes) :
    ∃ cs : List ChatLine, messageLoop u stdin = cs.map ChatLine.frame ∧
      (messageLoop u stdin).map (List.drop 4) = cs.map ChatLine.text ∧ ∀ c ∈ cs, c.Fits := by
  induction stdin using messageLoop.induct with
  | case1 stdin h =>
    rw [messageLoop_none h]
    exact ⟨[], rfl, rfl, by simp⟩
  | case2 stdin message rest h hend =>
    rw [messageLoop_some h, if_pos hend]
    exact ⟨[], rfl, rfl, by simp⟩
  | case3 stdin message rest h hend ih =>
    obtain ⟨cs, hframes, htexts, hfits⟩ := ih
    have hlen : message.length ≤ 1023 := by
      have hpiece : stdin ≠ [] := by
        rintro rfl
        cases h
      rw [fgets_eq_some hpiece, Option.some.injEq] at h
      have hle := readPiece_length_le 1023 stdin
      rwa [h] at hle
    have hfit : ChatLine.Fits ⟨u, cstr message, hnul, zero_notMem_cstr message⟩ := by
      have hchomp : (chomp (cstr message)).length ≤ message.length := by
        rw [chomp_cstr]
        exact (List.takeWhile_prefix _).length_le
      change u.length + (chomp (cstr message)).length + 7 ≤ 65535
      omega
    have hdrop := createSendMsg_drop hfit.lt
    refine ⟨⟨u, cstr message, hnul, zero_notMem_cstr message⟩ :: cs, ?_, ?_, ?_⟩
    · rw [messageLoop_some h, if_neg hend, hframes]
      rfl
    · rw [messageLoop_some h, if_neg hend, List.map_cons, htexts, hdrop]
      rfl
    · exact List.forall_mem_cons.2 ⟨hfit, hfits⟩

end LanChat.WriteLoops

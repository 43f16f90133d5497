import LanChat.ChatDelivery

set_option autoImplicit false

/-!
# How a process of v4 or v5 can end

On an honest network no datagram takes a process outside a block. What remains
is `am-end`, a `pselect` that returns another number than 1, and a store behind
the table.
-/
namespace LanChat.ChatSafety
open CStrings HexText FrameCodec SocketAddresses DatagramReceive ReceiveBounds TransitionRuns
  ChatProcess ChatNetwork HonestNetwork ChatDelivery

/-- The table is within its bounds, or has just been left. -/
def InTable (p : Proc) : Prop :=
  match p.phase with
  | .undefined u => u = .peersStore maxPeers ∧ p.peers.length = maxPeers + 1
  | _ => p.peers.length ≤ maxPeers

theorem inTable_of_le {p : Proc} (hphase : ∀ u, p.phase ≠ .undefined u)
    (h : p.peers.length ≤ maxPeers) : InTable p := by
  unfold InTable
  split
  · rename_i u hu
    exact absurd hu (hphase u)
  · exact h

theorem InTable.le {p : Proc} (h : InTable p) (hphase : ∀ u, p.phase ≠ .undefined u) :
    p.peers.length ≤ maxPeers := by
  unfold InTable at h
  split at h
  · rename_i u hu
    exact absurd hu (hphase u)
  · exact h

theorem inTable_addPeer {p : Proc} (h : p.peers.length ≤ maxPeers) (a : SockAddr) {next : Phase}
    (hnext : ∀ u, next ≠ .undefined u) : InTable (addPeer p a next) := by
  unfold addPeer
  split_ifs with hlt
  · apply inTable_of_le hnext
    rw [List.length_append, List.length_singleton]
    exact hlt
  · have hfull : p.peers.length = maxPeers := by omega
    rw [hfull]
    exact ⟨rfl, by rw [List.length_append, List.length_singleton, hfull]⟩

/-- A datagram that can be read leaves a process as it is, or enters its source. -/
theorem onMessage_ok {sock : SockAddr} {p : Proc} {r : Receiver} {mem : Residue} {d : Datagram}
    {reaction : Reaction} (h : receive r mem d = .ok reaction) :
    (onMessage sock p r mem d).1 = p ∨
      (onMessage sock p r mem d).1 = addPeer p { d.src with sinPort := chatPort } .selecting := by
  rw [onMessage, h]
  cases reaction with
  | accept => exact .inr rfl
  | print text | ignore => exact .inl rfl

theorem inTable_step {v : Version} {cfg : Config} {p : Proc} {e : Event} {q : Proc × List Act}
    (h : InTable p) (hok : ∀ fd d mem r, e = .recv fd d mem → v.receiver cfg fd = some r →
      ∃ reaction, receive r mem d = .ok reaction)
    (hstep : ChatProcess.step v cfg p e = some q) : InTable q.1 := by
  have hturn := turn_of_step hstep
  generalize hq : q.1 = p' at hturn ⊢
  generalize packets q.2 = sent at hturn
  cases hturn with
  | confirm hp hc =>
    rcases hp with ⟨rset, hp, rfl⟩ | ⟨hp, rfl⟩ <;>
      exact inTable_addPeer (h.le (by simp [hp])) _ (by simp)
  | accept hp hr _ => exact inTable_addPeer (h.le (by simp [hp])) _ (by simp)
  | @dismiss fd d mem r next hp hr hno hnext =>
    -- What is read is within its block, so that nothing has been undefined.
    obtain ⟨reaction, hread⟩ := hok fd d mem r rfl hr
    have hmessage : q.1 = (onMessage (cfg.sock fd) p r mem d).1 := by
      cases fd with
      | sockfd => cases hr
      | listenfd | joinfd =>
        simp only [ChatProcess.step, hp, hr, Option.map_some, Option.some.injEq] at hstep
        rw [← hstep]
    rw [← hq, hmessage]
    rcases onMessage_ok hread with hsame | hadd
    · rw [hsame]
      exact h
    · rw [hadd]
      exact inTable_addPeer (h.le (by simp [hp])) _ (by simp)
  | refuse hp hc =>
    rcases hp with ⟨rset, hp, rfl⟩ | ⟨hp, rfl⟩ <;>
      exact inTable_of_le (by simp) (h.le (by simp [hp]))
  | start hp | offered hp | pselectError hp | alarm hp | leave hp | find hp =>
    exact inTable_of_le (by simp) (h.le (by simp [hp]))
  | chat | eof => exact h

variable {ι : Type*} [DecidableEq ι] {L : Lan ι} {labels : List (Label ι)}

omit [DecidableEq ι] in
/-- What an honest process has sent can be read. -/
theorem receive_honest {s : Net ι} (h : Sourced L labels s) (hfit : AllFit L labels) {i : ι}
    {fd : Fd} {d : Datagram} {mem : Residue} {r : Receiver} (hmem : mem.Bounded)
    (hready : ready (s.queue i) (.recv fd d mem) = true)
    (hr : L.version.receiver (L.cfg i) fd = some r) :
    ∃ reaction, receive r mem d = .ok reaction := by
  have hd := mem_of_ready hready
  obtain ⟨j, hsrc⟩ := h.honest.inbox i fd (receiver_ne_sockfd hr) d hd
  obtain ⟨c, hfrom, hframe⟩ := h.inbox i fd d hd j hsrc
  have hline : d = chatDatagram d.src c := by rw [chatDatagram, ← hframe]
  have hlen := msgLen_chat d.src hmem (hfrom.fits hfit)
  rw [← hline] at hlen
  have htext := c.text_length
  exact (inBounds_of_five_le r (by omega)).inside

theorem inTable_move {s t : Net ι} {l : Label ι} (h : Sourced L labels s) (hfit : AllFit L labels)
    (hbounded : AllBounded labels) (hl : l ∈ labels) (hs : ∀ i, InTable (s.proc i))
    (hstep : L.step s l = some t) (i : ι) : InTable (t.proc i) := by
  cases l with
  | act k e =>
    simp only [Lan.step] at hstep
    split_ifs at hstep with hready
    obtain ⟨q, hq, rfl⟩ := Option.map_eq_some_iff.1 hstep
    by_cases hi : i = k
    · subst k
      rw [Net.acted_proc_self]
      refine inTable_step (hs i) (fun fd d mem r he hr => ?_) hq
      subst he
      exact receive_honest h hfit (hbounded i fd d mem hl) hready hr
    · rw [Net.acted_proc_ne s e q.1 _ hi]
      exact hs i
  | deliver p k fd =>
    cases move_of_step hstep with
    | deliver => exact hs i
  | drop p =>
    cases move_of_step hstep with
    | drop => exact hs i
  | dup p =>
    cases move_of_step hstep with
    | dup => exact hs i

/-- On a network that forges nothing, a process of v4 or v5 is at work, or has
    left by `am-end`, with a table in its bounds, or a `pselect` has counted a
    stray descriptor of `rset`, or one entry has been stored behind a full table. -/
theorem ends_known {s : Net ι} (hrun : run L.step L.init labels = some s)
    (hfit : AllFit L labels) (hbounded : AllBounded labels) (i : ι) :
    match (s.proc i).phase with
    | .failed e => (∃ n, e = .pselectReturned n) ∧ (L.cfg i).rset ≠ []
    | .undefined u => u = .peersStore maxPeers ∧ (s.proc i).peers.length = maxPeers + 1
    | _ => (s.proc i).peers.length ≤ maxPeers := by
  have hall : Sourced L labels s ∧ ∀ i, InTable (s.proc i) := by
    refine run_invariant (I := fun s => Sourced L labels s ∧ ∀ i, InTable (s.proc i))
      (A := (· ∈ labels)) ?_ ⟨sourced_init, ?_⟩ (fun _ hl => hl) hrun
    · intro s l t hs hl hstep
      exact ⟨hs.1.move hl (move_of_step hstep), inTable_move hs.1 hfit hbounded hl hs.2 hstep⟩
    · intro j
      exact Nat.zero_le maxPeers
  have htable := hall.2 i
  have hconfirmed := hall.1.honest.confirmed i
  have hwaits := waits_run hrun i
  cases hphase : (s.proc i).phase with
  | failed e =>
    rw [hphase] at hconfirmed hwaits
    cases e with
    | pselectReturned n => exact ⟨⟨n, rfl⟩, hwaits⟩
    | authTryConfirm => exact absurd rfl hconfirmed.1
    | rcvfrom => exact absurd rfl hconfirmed.2
  | undefined u =>
    rw [InTable, hphase] at htable
    exact htable
  | idle | finding | offered | selecting | confirming | left =>
    rw [InTable, hphase] at htable
    exact htable

theorem ends_known_greeting : ∃ s, run (pair .v4).step (pair .v4).init greeting = some s ∧
    ((s.proc .left).phase = .selecting → (s.proc .left).peers.length ≤ maxPeers) := by
  obtain ⟨s, hs⟩ := Option.isSome_iff_exists.1 greeting_runs
  have h := ends_known (L := pair .v4) hs greeting_fits greeting_bounded .left
  refine ⟨s, hs, fun hphase => ?_⟩
  rw [hphase] at h
  exact h

end LanChat.ChatSafety

import LanChat.HonestNetwork

set_option autoImplicit false

/-!
# Whom a line of chat is sent to

A table remembers every handshake of its process. Nothing looks for an entry
that is there already, so a peer is sent each line once for each handshake.
-/
namespace LanChat.FanOut
open CStrings HexText FrameCodec SocketAddresses DatagramReceive TransitionRuns ChatProcess
  ChatNetwork HonestNetwork

variable {ι : Type*} [DecidableEq ι] (L : Lan ι)

/-- The handshake that a step completes for `i`: a request that it answers, or
    an offer that it reads. -/
def handshakeOf (i : ι) : Label ι → Option SockAddr
  | .act j e => if j = i then handshake L.version (L.cfg i) e else none
  | _ => none

variable {L}

theorem peers_move {s t : Net ι} {l : Label ι} (h : Move L s l t) (i : ι) :
    (t.proc i).peers = (s.proc i).peers ++ (handshakeOf L i l).toList := by
  cases h with
  | @act j e p sent hready hturn =>
    by_cases hij : i = j
    · subst j
      rw [Net.acted_proc_self, hturn.peers_eq, handshakeOf, if_pos rfl]
    · rw [Net.acted_proc_ne s e p sent hij, handshakeOf, if_neg (Ne.symm hij)]
      simp
  | deliver | drop | dup => simp [handshakeOf]

theorem peers_eq_handshakes {labels : List (Label ι)} {s : Net ι}
    (hrun : run L.step L.init labels = some s) (i : ι) :
    (s.proc i).peers = labels.filterMap (handshakeOf L i) := by
  have h := run_collects (f := fun s : Net ι => (s.proc i).peers)
    (g := fun l => (handshakeOf L i l).toList)
    (fun _ _ _ hstep => peers_move (move_of_step hstep) i) hrun
  rw [List.filterMap_eq_flatMap_toList]
  exact h

theorem flight_chat {s t : Net ι} {i : ι} {message : Bytes}
    (hend : isCommand message cmdEnd = false) (hfind : isCommand message cmdFind = false)
    (hstep : L.step s (.act i (.input message)) = some t) :
    t.flight = s.flight ++ (s.proc i).peers.map
      (chatPacket (L.cfg i) (createSendMsg (cstr message) (L.cfg i).userName)) := by
  cases move_of_step hstep with
  | act hready hturn =>
    cases hturn with
    | leave hp hend' => simp [hend] at hend'
    | find hp hend' hfind' => simp [hfind] at hfind'
    | chat hp => rfl

theorem count_peers {labels : List (Label ι)} {s : Net ι}
    (hrun : run L.step L.init labels = some s) (i : ι) (a : SockAddr) :
    (s.proc i).peers.count a = labels.countP fun l => handshakeOf L i l = some a := by
  rw [peers_eq_handshakes hrun i, List.count_filterMap]
  simp only [beq_eq_decide]

/-- Of honest peers, a table has one entry for each handshake, and a line of
    chat goes to a peer as often as there have been handshakes with it: to each
    known peer once exactly where no two of them were with the same peer. -/
theorem chat_sent_per_handshake {labels : List (Label ι)} {s : Net ι}
    (hrun : run L.step L.init labels = some s) (i : ι) :
    (s.proc i).peers = labels.filterMap (handshakeOf L i) ∧
    ((s.proc i).peers.Nodup ↔
      ∀ j, labels.countP (fun l => handshakeOf L i l = some (L.sock j .listenfd)) ≤ 1) ∧
    (∀ message t, isCommand message cmdEnd = false → isCommand message cmdFind = false →
      L.step s (.act i (.input message)) = some t →
      ∃ sent, t.flight = s.flight ++ sent ∧
        (sent.map Packet.dst = (s.proc i).peers) ∧
        ∀ p ∈ sent, p.toDatagram = ⟨L.sock i .sockfd,
          createSendMsg (cstr message) (L.cfg i).userName⟩) := by
  have hpeers := peers_eq_handshakes hrun i
  refine ⟨hpeers, ?_, ?_⟩
  · rw [List.nodup_iff_count_le_one]
    constructor
    · intro h j
      rw [← count_peers hrun i]
      exact h _
    · intro h a
      by_cases ha : a ∈ (s.proc i).peers
      · obtain ⟨j, _, rfl⟩ := (honest_run admits_all hrun).table i a ha
        rw [count_peers hrun i]
        exact h j
      · rw [List.count_eq_zero.2 ha]
        exact Nat.zero_le 1
  · intro message t hend hfind hstep
    refine ⟨_, flight_chat hend hfind hstep, ?_, ?_⟩
    · rw [List.map_map]
      exact List.map_id _
    · intro p hp
      obtain ⟨a, _, rfl⟩ := List.mem_map.1 hp
      rfl

theorem meeting_sent : ∃ s, run (pair .v4).step (pair .v4).init meeting = some s ∧
    (s.proc .left).peers = meeting.filterMap (handshakeOf (pair .v4) .left) := by
  obtain ⟨s, hs⟩ := Option.isSome_iff_exists.1 meeting_runs
  exact ⟨s, hs, (chat_sent_per_handshake (L := pair .v4) hs .left).1⟩

theorem again_run : (run (pair .v4).step (pair .v4).init again).map
    (fun s => ((s.proc .left).peers,
      ((pair .v4).step s (.act .left (.input (ascii "hello\n")))).map
        fun t => t.flight.map Packet.dst)) =
    some (List.replicate 2 ((pair .v4).sock .right .listenfd),
      some (List.replicate 2 ((pair .v4).sock .right .listenfd))) := rfl

theorem again_doubles : ∃ s t, run (pair .v4).step (pair .v4).init again = some s ∧
    ¬ (s.proc .left).peers.Nodup ∧
    (pair .v4).step s (.act .left (.input (ascii "hello\n"))) = some t ∧
    t.flight.map Packet.dst = List.replicate 2 ((pair .v4).sock .right .listenfd) := by
  obtain ⟨s, hs, hview⟩ := Option.map_eq_some_iff.1 again_run
  obtain ⟨hpeers, hsent⟩ := Prod.mk.inj hview
  obtain ⟨t, ht, hflight⟩ := Option.map_eq_some_iff.1 hsent
  exact ⟨s, t, hs, by rw [hpeers]; decide, ht, hflight⟩

end LanChat.FanOut

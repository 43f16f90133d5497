import LanChat.ChatProcess

set_option autoImplicit false

/-!
# The table of peers over a whole run of one process

Three places of the source append to the table, and none compares `peer_count`
with `MAX_PEERS`. A remote host decides how often each of them is reached.
-/
namespace LanChat.PeerTable
open CStrings FrameCodec SocketAddresses DatagramReceive TransitionRuns ChatProcess

/-- One event, without what is printed and sent. -/
def turn (v : Version) (cfg : Config) (p : Proc) (e : Event) : Option Proc :=
  (step v cfg p e).map Prod.fst

def handshakes (v : Version) (cfg : Config) (events : List Event) : List SockAddr :=
  events.flatMap fun e => (handshake v cfg e).toList

theorem turn_eq_some {v : Version} {cfg : Config} {p q : Proc} {e : Event}
    (h : turn v cfg p e = some q) : ∃ sent, Turn v cfg p e q sent := by
  obtain ⟨r, hr, rfl⟩ := Option.map_eq_some_iff.1 h
  exact ⟨_, turn_of_step hr⟩

theorem peers_run {v : Version} {cfg : Config} {p q : Proc} {events : List Event}
    (h : run (turn v cfg) p events = some q) : q.peers = p.peers ++ handshakes v cfg events :=
  run_collects (f := Proc.peers) (g := fun e => (handshake v cfg e).toList)
    (fun _ _ _ ht => (turn_eq_some ht).choose_spec.peers_eq) h

/-- `peer_count`, the stores of `peers[peer_count++]` and the reads of the
    fan-out loop are inside the table. -/
structure InTable (p : Proc) : Prop where
  count : p.peers.length ≤ maxPeers
  stores : ∀ i, p.phase ≠ .undefined (.peersStore i)
  reads : ∀ i < p.peers.length, i < maxPeers

theorem InTable.of_count {p : Proc} (hcount : p.peers.length ≤ maxPeers)
    (hphase : ∀ i, p.phase ≠ .undefined (.peersStore i)) : InTable p :=
  ⟨hcount, hphase, fun _ hi => hi.trans_le hcount⟩

/-- The one way out of the table: a store one behind its last entry. -/
def Overrun (p : Proc) : Prop :=
  p.phase = .undefined (.peersStore maxPeers) ∧ p.peers.length = maxPeers + 1

theorem addPeer_inTable {p : Proc} (a : SockAddr) {next : Phase} (hp : InTable p)
    (hnext : ∀ u, next ≠ .undefined u) :
    InTable (addPeer p a next) ∨ Overrun (addPeer p a next) := by
  have hlen : (addPeer p a next).peers.length = p.peers.length + 1 := by simp [addPeer]
  by_cases hlt : p.peers.length < maxPeers
  · have hphase : (addPeer p a next).phase = next := if_pos hlt
    refine .inl (.of_count (by omega) fun i hi => hnext _ (hphase ▸ hi))
  · have hfull : p.peers.length = maxPeers := le_antisymm hp.count (not_lt.1 hlt)
    refine .inr ⟨?_, by omega⟩
    rw [← hfull]
    exact if_neg hlt

theorem InTable.turn {v : Version} {cfg : Config} {p q : Proc} {e : Event} {sent : List Packet}
    (hp : InTable p) (h : Turn v cfg p e q sent) : InTable q ∨ Overrun q := by
  cases h with
  | confirm hphase hc =>
    apply addPeer_inTable _ hp
    rcases hphase with ⟨rset, _, rfl⟩ | ⟨_, rfl⟩ <;> simp
  | accept hphase hr hok => exact addPeer_inTable _ hp (by simp)
  | dismiss hphase hr hno hnext =>
    refine .inl (.of_count hp.count ?_)
    rcases hnext with rfl | ⟨f, rfl⟩ <;> simp
  | chat | eof => exact .inl hp
  | start | offered | pselectError | alarm | refuse | leave | find =>
    exact .inl (.of_count hp.count (by simp))

theorem inTable_or_overrun {v : Version} {cfg : Config} {q : Proc} {events : List Event}
    (h : run (turn v cfg) Proc.init events = some q) : InTable q ∨ Overrun q := by
  refine run_preserves (I := fun p => InTable p ∨ Overrun p) ?_
    (.inl (.of_count (by decide) (by simp [Proc.init]))) h
  intro p e t hp ht
  obtain ⟨sent, hturn⟩ := turn_eq_some ht
  rcases hp with hp | hp
  · exact hp.turn hturn
  · exact absurd hp.1 (hturn.defined _)

theorem inTable_iff_length {v : Version} {cfg : Config} {q : Proc} {events : List Event}
    (h : run (turn v cfg) Proc.init events = some q) :
    InTable q ↔ (handshakes v cfg events).length ≤ maxPeers := by
  have hpeers : q.peers = handshakes v cfg events := peers_run h
  rw [← hpeers]
  refine ⟨InTable.count, fun hl => ?_⟩
  rcases inTable_or_overrun h with hq | hq
  · exact hq
  · have hlen := hq.2
    omega

theorem handshakes_length_mono {v : Version} {cfg : Config} {before events : List Event}
    (h : before <+: events) :
    (handshakes v cfg before).length ≤ (handshakes v cfg events).length := by
  obtain ⟨after, rfl⟩ := h
  rw [handshakes, handshakes, List.flatMap_append, List.length_append]
  omega

def request (v : Version) : Event :=
  .recv (match v with | .v4 => .listenfd | .v5 => .joinfd)
    ⟨(host 2).sock .sockfd, createSendMsgStatic authCan⟩ clean

/-- A run stays inside the table exactly when its events complete at most
    `MAX_PEERS` handshakes. -/
theorem peerTable_bounded_iff (v : Version) (cfg : Config) (events : List Event) (q : Proc)
    (h : run (turn v cfg) Proc.init events = some q) :
    Along (turn v cfg) InTable Proc.init events ↔ (handshakes v cfg events).length ≤ maxPeers := by
  constructor
  · exact fun hall => (inTable_iff_length h).1 (hall events q List.prefix_rfl h)
  · intro hle before t hbefore ht
    exact (inTable_iff_length ht).2 ((handshakes_length_mono hbefore).trans hle)

theorem peerTable_bounded_request :
    Along (turn .v4 (host 1)) InTable Proc.init [.start, .alarm, request .v4] := by
  have hrun : run (turn .v4 (host 1)) Proc.init [.start, .alarm, request .v4] =
      some ⟨.selecting, [(host 2).sock .listenfd]⟩ := rfl
  exact (peerTable_bounded_iff .v4 (host 1) _ _ hrun).2 (by decide)

theorem turn_request (v : Version) (peers : List SockAddr) :
    turn v (host 1) ⟨.selecting, peers⟩ (request v) =
      some (addPeer ⟨.selecting, peers⟩ ((host 2).sock .listenfd) .selecting) := by
  cases v <;> rfl

theorem run_requests (v : Version) (n : ℕ) (peers : List SockAddr)
    (h : peers.length + n ≤ maxPeers + 1) :
    ∃ q, run (turn v (host 1)) ⟨.selecting, peers⟩ (List.replicate n (request v)) = some q := by
  induction n generalizing peers with
  | zero => exact ⟨_, rfl⟩
  | succ n ih =>
    by_cases hn : peers.length < maxPeers
    · have hadd : addPeer ⟨.selecting, peers⟩ ((host 2).sock .listenfd) .selecting =
          ⟨.selecting, peers ++ [(host 2).sock .listenfd]⟩ := by simp [addPeer, hn]
      obtain ⟨q, hq⟩ := ih (peers ++ [(host 2).sock .listenfd]) (by simp; omega)
      exact ⟨q, run_cons_iff.2 ⟨_, (turn_request v peers).trans (congrArg some hadd), hq⟩⟩
    · have hzero : n = 0 := by omega
      subst n
      exact ⟨_, run_cons_iff.2 ⟨_, turn_request v peers, rfl⟩⟩

def flood (v : Version) : List Event :=
  [.start, .alarm] ++ List.replicate (maxPeers + 1) (request v)

def LeavesTable (v : Version) (events : List Event) : Prop :=
  ∃ q, run (turn v (host 1)) Proc.init events = some q ∧
    q.phase = .undefined (.peersStore 255) ∧ q.peers.length = 256 ∧
    ¬ Along (turn v (host 1)) InTable Proc.init events

theorem leavesTable_flood (v : Version) : LeavesTable v (flood v) := by
  obtain ⟨q, hq⟩ := run_requests v (maxPeers + 1) [] (by decide)
  have hrun : run (turn v (host 1)) Proc.init (flood v) = some q := by
    have hstart : run (turn v (host 1)) Proc.init [.start, .alarm] = some ⟨.selecting, []⟩ := rfl
    rw [flood, run_append, hstart, Option.bind_some, hq]
  have hcount : q.peers.length = maxPeers + 1 := by
    have hpeers := peers_run hq
    have hone : (handshake v (host 1) (request v)).toList = [(host 2).sock .listenfd] := by
      cases v <;> rfl
    rw [hpeers, handshakes, List.flatMap_replicate, hone]
    simp
  have hout : ¬ InTable q := fun hin => by
    have hle := hin.count
    omega
  refine ⟨q, hrun, ?_, hcount, fun hall => hout (hall _ q List.prefix_rfl hrun)⟩
  rcases inTable_or_overrun hrun with hin | hover
  · exact absurd hin hout
  · exact hover.1

theorem flood_overruns : LeavesTable .v4 (flood .v4) ∧ LeavesTable .v5 (flood .v5) :=
  ⟨leavesTable_flood .v4, leavesTable_flood .v5⟩

end LanChat.PeerTable

import LanChat.PeerTable
import LanChat.OfferReading

set_option autoImplicit false

/-!
# What `find_peer` of v4 and v5 collects

The loop is to gather what is offered until the alarm. It takes a datagram that
offers nothing for a failed system call.
-/
namespace LanChat.StartupDiscovery
open CStrings HexText FrameCodec SocketAddresses DatagramReceive TransitionRuns ChatProcess
  PeerTable OfferReading

/-- What can happen from the start of `find_peer` to its end. -/
def isDiscovery : Event → Bool
  | .start | .pselect _ _ | .alarm | .recv .sockfd _ _ => true
  | _ => false

def received (events : List Event) : List Datagram :=
  events.filterMap fun
    | .recv .sockfd d _ => some d
    | _ => none

/-- The sources of the offers among the datagrams, as they have arrived. -/
def offers (events : List Event) : List SockAddr :=
  ((received events).filter fun d => CarriesOfc d.payload).map Datagram.src

def isDiscovering : Phase → Bool
  | .idle | .finding _ | .offered _ | .selecting => true
  | _ => false

/-- The table holds the offers so far, the process goes on until the alarm, and
    it does not wait in `Recvfrom`, where the alarm is blocked, for a datagram
    that `pselect` has not reported. -/
structure Collecting (events : List Event) (p : Proc) : Prop where
  peers : p.peers = offers events
  alive : isDiscovering p.phase = true
  ended : p.phase = .selecting ↔ .alarm ∈ events
  reported : ∀ ready sock, events.getLast? = some (.pselect ready sock) → sock = true

/-- `pselect` reports no other descriptor, and every datagram is an offer. -/
def OffersOnly : Event → Prop
  | .pselect ready _ => ready = []
  | .recv .sockfd d _ => CarriesOfc d.payload
  | _ => True

theorem offers_append (before after : List Event) :
    offers (before ++ after) = offers before ++ offers after := by
  simp [offers, received]

theorem offers_recv (d : Datagram) (mem : Residue) :
    offers [.recv .sockfd d mem] = if CarriesOfc d.payload then [d.src] else [] := by
  by_cases h : CarriesOfc d.payload <;> simp [offers, received, h]

section Step

variable {v : Version} {cfg : Config} {before : List Event} {p q : Proc}

theorem not_alarm (hp : Collecting before p) (h : p.phase ≠ .selecting) : .alarm ∉ before :=
  fun ha => h (hp.ended.2 ha)

theorem peers_quiet {e : Event} (hp : Collecting before p) (he : received [e] = []) :
    p.peers = offers (before ++ [e]) := by
  rw [offers_append, hp.peers, offers, offers, he]
  exact (List.append_nil _).symm

theorem collecting_start (hp : Collecting before p) (h : turn v cfg p .start = some q) :
    Collecting (before ++ [.start]) q := by
  obtain ⟨sent, hturn⟩ := turn_eq_some h
  cases hturn with
  | start hidle =>
    have hno := not_alarm hp (by simp [hidle])
    exact ⟨peers_quiet (p := p) hp rfl, rfl, by simp [hno], by simp⟩

theorem collecting_alarm (hp : Collecting before p) (h : turn v cfg p .alarm = some q) :
    Collecting (before ++ [.alarm]) q := by
  obtain ⟨sent, hturn⟩ := turn_eq_some h
  cases hturn with
  | alarm hfinding =>
    exact ⟨peers_quiet (p := p) hp rfl, rfl, by simp, by simp⟩

theorem turn_pselect {ready : List ℕ} {sock : Bool}
    (h : turn v cfg p (.pselect ready sock) = some q) :
    (∃ rset, p.phase = .finding rset) ∧ 0 < ready.length + sock.toNat ∧
      q = { p with phase := if ready.length + sock.toNat = 1 then .offered ready
        else .failed (.pselectReturned (ready.length + sock.toNat)) } := by
  obtain ⟨r, hr, rfl⟩ := Option.map_eq_some_iff.1 h
  simp only [step] at hr
  split at hr
  · rename_i rset hp
    split_ifs at hr with hc
    cases hr
    refine ⟨⟨rset, hp⟩, hc.2, ?_⟩
    by_cases hone : ready.length + sock.toNat = 1 <;> simp [onPselect, hone, fail]
  · cases hr

theorem collecting_pselect {ready : List ℕ} {sock : Bool} (hp : Collecting before p)
    (h : turn v cfg p (.pselect ready sock) = some q) :
    Collecting (before ++ [.pselect ready sock]) q ↔ ready = [] := by
  obtain ⟨⟨rset, hfinding⟩, hpos, rfl⟩ := turn_pselect h
  have hno := not_alarm hp (by simp [hfinding])
  constructor
  · intro hq
    have hsock : sock = true := hq.reported ready sock (by simp)
    have halive := hq.alive
    subst hsock
    by_cases hone : ready.length + Bool.toNat true = 1
    · exact List.length_eq_zero_iff.1 (by simpa using hone)
    · rw [if_neg hone] at halive
      cases halive
  · rintro rfl
    have hsock : sock = true := by
      cases sock
      · simp at hpos
      · rfl
    subst hsock
    exact ⟨peers_quiet (p := p) hp rfl, rfl, by simp [hno], by simp⟩

theorem collecting_offer {d : Datagram} {mem : Residue} (hp : Collecting before p)
    (h : turn v cfg p (.recv .sockfd d mem) = some q)
    (hmax : (offers (before ++ [.recv .sockfd d mem])).length ≤ maxPeers)
    (hofc : CarriesOfc d.payload) : Collecting (before ++ [.recv .sockfd d mem]) q := by
  obtain ⟨sent, hturn⟩ := turn_eq_some h
  have halive := hp.alive
  have hconfirm : authTryConfirm mem d = true :=
    (confirm_whole ((carriesOfc_iff _).1 hofc).1).2 hofc
  have hoffers : offers (before ++ [.recv .sockfd d mem]) = p.peers ++ [d.src] := by
    rw [offers_append, offers_recv, if_pos hofc, hp.peers]
  rw [hoffers, List.length_append, List.length_singleton] at hmax
  cases hturn with
  | confirm hphase hc =>
    rcases hphase with ⟨rset, hphase, rfl⟩ | ⟨hphase, _⟩
    · have hnext : (addPeer p d.src (.finding rset)).phase = .finding rset := if_pos (by omega)
      have hno := not_alarm hp (by simp [hphase])
      exact ⟨hoffers.symm, by rw [hnext]; rfl, by simp [hnext, hno], by simp⟩
    · simp [hphase, isDiscovering] at halive
  | refuse hphase hc => simp [hconfirm] at hc
  | accept hphase hr | dismiss hphase hr => cases hr

theorem offer_of_collecting {d : Datagram} {mem : Residue} (hp : Collecting before p)
    (h : turn v cfg p (.recv .sockfd d mem) = some q)
    (hq : Collecting (before ++ [.recv .sockfd d mem]) q) : CarriesOfc d.payload := by
  obtain ⟨sent, hturn⟩ := turn_eq_some h
  by_contra hno
  have hpeers := hq.peers
  rw [offers_append, offers_recv, if_neg hno, List.append_nil, ← hp.peers] at hpeers
  cases hturn with
  | confirm hphase hc =>
    have hlen := congrArg List.length hpeers
    simp [addPeer] at hlen
  | refuse hphase hc =>
    have hdead := hq.alive
    simp [isDiscovering] at hdead
  | accept hphase hr | dismiss hphase hr => cases hr

theorem collecting_recv {d : Datagram} {mem : Residue} (hp : Collecting before p)
    (h : turn v cfg p (.recv .sockfd d mem) = some q)
    (hmax : (offers (before ++ [.recv .sockfd d mem])).length ≤ maxPeers) :
    Collecting (before ++ [.recv .sockfd d mem]) q ↔ CarriesOfc d.payload :=
  ⟨offer_of_collecting hp h, collecting_offer hp h hmax⟩

end Step

/-- Up to the alarm the table is the list of those who offered, in the order of
    their offers, and nothing ends or stalls the collection, exactly when every
    datagram that arrives is an offer and `pselect` reports nothing else. -/
theorem discovery_collects_iff (v : Version) (cfg : Config) (events : List Event)
    (hdiscovery : ∀ e ∈ events, isDiscovery e = true) (hmax : (offers events).length ≤ maxPeers) :
    AlongHistory (turn v cfg) Collecting Proc.init events ↔
      GuardedHistory (turn v cfg) (fun _ _ e => OffersOnly e) Proc.init events := by
  refine alongHistory_iff_guarded ⟨rfl, rfl, by simp [Proc.init], by simp⟩ ?_
  intro before e p q hbefore hrun hp hstep
  have he := hdiscovery e (hbefore.subset (by simp))
  cases e with
  | start => exact iff_of_true (collecting_start hp hstep) trivial
  | alarm => exact iff_of_true (collecting_alarm hp hstep) trivial
  | pselect ready sock => exact collecting_pselect hp hstep
  | recv fd d mem =>
    cases fd with
    | sockfd =>
      refine collecting_recv hp hstep (le_trans ?_ hmax)
      obtain ⟨after, rfl⟩ := hbefore
      rw [offers_append (before ++ _), List.length_append]
      exact Nat.le_add_right _ _
    | listenfd | joinfd => simp [isDiscovery] at he
  | input | eof => simp [isDiscovery] at he

def offerOf (n : UInt8) : Datagram := ⟨(host n).sock .listenfd, createSendMsgStatic authOfc⟩

def discovering (arrived : List Datagram) : List Event :=
  .start :: arrived.flatMap (fun d => [.pselect [] true, .recv .sockfd d clean]) ++ [.alarm]

theorem discovery_collects_offers : AlongHistory (turn .v4 (host 1)) Collecting Proc.init
    (discovering [offerOf 2, offerOf 3]) := by
  refine (discovery_collects_iff .v4 (host 1) (discovering [offerOf 2, offerOf 3]) (by decide)
    (by decide)).2 ?_
  intro before e p q hbefore _ _
  have he : e ∈ discovering [offerOf 2, offerOf 3] := hbefore.subset (by simp)
  simp only [discovering, List.flatMap_cons, List.flatMap_nil, List.cons_append, List.nil_append,
    List.append_nil, List.mem_cons, List.not_mem_nil, or_false] at he
  rcases he with rfl | rfl | rfl | rfl | rfl | rfl
  · trivial
  · rfl
  · show CarriesOfc _
    decide
  · rfl
  · show CarriesOfc _
    decide
  · trivial

/-- Any other datagram ends the process in place of the alarm, in both versions. -/
theorem stray_ends_discovery :
    (∃ p, run (turn .v4 (host 1)) Proc.init
        [.start, .pselect [] true, .recv .sockfd (stray "hello") clean] = some p ∧
      p.phase = .failed .authTryConfirm ∧ turn .v4 (host 1) p .alarm = none) ∧
    (∃ p, run (turn .v5 (host 1)) Proc.init
        [.start, .pselect [] true, .recv .sockfd (stray "hello") clean] = some p ∧
      p.phase = .failed .authTryConfirm ∧ turn .v5 (host 1) p .alarm = none) ∧
    ¬ AlongHistory (turn .v4 (host 1)) Collecting Proc.init (discovering [stray "hello"]) ∧
    ¬ AlongHistory (turn .v5 (host 1)) Collecting Proc.init (discovering [stray "hello"]) := by
  have hbegins : [.start, .pselect [] true, .recv .sockfd (stray "hello") clean] <+:
      discovering [stray "hello"] := ⟨[.alarm], rfl⟩
  refine ⟨⟨_, rfl, rfl, rfl⟩, ⟨_, rfl, rfl, rfl⟩, ?_, ?_⟩
  · intro h
    exact absurd (h _ _ hbegins rfl).alive (by decide)
  · intro h
    exact absurd (h _ _ hbegins rfl).alive (by decide)

end LanChat.StartupDiscovery

import LanChat.ControlCollision
import LanChat.Membership

set_option autoImplicit false

/-!
# A process of v5 that meets itself

`message_loop` takes whatever request reaches `joinfd` for one of another
process. A request of its own reaches it too, since the group loops back.
-/
namespace LanChat.SelfReception
open CStrings HexText FrameCodec SocketAddresses DatagramReceive ReceiveBounds TransitionRuns
  ChatProcess ControlCollision ChatNetwork HonestNetwork LanChat.Membership

variable {ι : Type*} (L : Lan ι)

/-- Nobody has entered its own address, and nobody has answered itself. -/
def SelfFree (s : Net ι) : Prop :=
  ∀ i, (∀ a ∈ (s.proc i).peers, a.sinAddr ≠ (L.cfg i).addr) ∧ offerTo L i i ∉ s.flight

/-- A process reads from `joinfd` what its own `sockfd` has sent, and it reads
    as a request. -/
def HearsItself : Label ι → Prop
  | .act i (.recv .joinfd d mem) => d.src = L.sock i .sockfd ∧
      DeclaresFive (headerText mem d) ∧ authCan <+: visible mem d
  | _ => False

variable {L}

theorem receive_join_iff (mem : Residue) (d : Datagram) : receive .v5Join mem d = .ok .accept ↔
    DeclaresFive (headerText mem d) ∧ authCan <+: visible mem d := by
  rw [receive_ok_iff rfl, reactionTo]
  by_cases hcan : authCan <+: visible mem d <;> simp [hcan]

theorem receive_listen_ne (mem : Residue) (d : Datagram) :
    receive .v5Listen mem d ≠ .ok .accept := by
  rw [ne_eq, receive_ok_iff rfl, reactionTo]
  simp

theorem msgLen_request {mem : Residue} (hmem : mem.Bounded) (src : SockAddr) :
    msgLen mem ⟨src, createSendMsgStatic authCan⟩ = 14 := by
  have hheader : (createSendMsgStatic authCan).take 4 = intToHex4 (Int32.ofNat 14) := by decide
  rw [msgLen, headerText, hheader, blit, intToHex4_length]
  exact hexToInt_intToHex4 (by decide) hmem

theorem hearsItself_request {mem : Residue} (hmem : mem.Bounded) (i : ι) :
    HearsItself L (.act i (.recv .joinfd
      (canPacket (L.sock i .sockfd) (L.cfg i).groupAddr).toDatagram mem)) := by
  have hlen := msgLen_request hmem (L.sock i .sockfd)
  have hcovered : (msgLen mem ⟨L.sock i .sockfd, createSendMsgStatic authCan⟩).toNat ≤
      max (createSendMsgStatic authCan).length 4 + 1 := by
    rw [hlen]
    decide
  refine ⟨rfl, (five_le_iff _).1 ?_, ?_⟩
  · change 5 ≤ (msgLen mem ⟨L.sock i .sockfd, createSendMsgStatic authCan⟩).toNat
    rw [hlen]
    decide
  · change authCan <+: visible mem ⟨L.sock i .sockfd, createSendMsgStatic authCan⟩
    rw [visible_covered mem hcovered, hlen]
    exact (by decide : authCan <+: cstr (((createSendMsgStatic authCan).drop 4).take (14 - 5)))

theorem admits_not_hearing (hversion : L.version = .v5) {i : ι} {e : Event}
    (h : ¬ HearsItself L (.act i e)) : AdmitsAt L (fun i j => j ≠ i) i e := by
  rintro j fd d mem r rfl hr hsrc hok
  have hne : j ≠ i := by
    rintro rfl
    rw [hversion] at hr
    cases fd with
    | sockfd => cases hr
    | listenfd =>
      cases hr
      exact receive_listen_ne mem d hok
    | joinfd =>
      cases hr
      exact h ⟨hsrc, (receive_join_iff mem d).1 hok⟩
  exact ⟨hne, hne.symm⟩

theorem legitimate_offerTo {R : ι → ι → Prop} {p : Packet} {a b : ι} (h : Legitimate L R p)
    (hp : p = offerTo L b a) : R a b := by
  cases h with
  | toChat i hsrc hport =>
    have hofc := isOfc_offerTo (L := L) b a
    rw [← hp, isOfc_sockfd hsrc] at hofc
    cases hofc
  | toAsker i j hR =>
    obtain ⟨rfl, rfl⟩ := offerTo_injective hp
    exact hR

theorem selfFree_of_honest {s : Net ι} (h : Honest L (fun i j => j ≠ i) s) : SelfFree L s := by
  intro i
  constructor
  · intro a ha
    obtain ⟨j, hj, rfl⟩ := h.table i a ha
    rw [ne_eq, sinAddr_sock_iff]
    exact fun e => hj e.symm
  · intro hflight
    exact legitimate_offerTo (h.flight _ hflight) rfl rfl

variable [DecidableEq ι]

theorem entered_of_hearing (hversion : L.version = .v5) {s t : Net ι} {l : Label ι}
    (hhears : HearsItself L l) (hstep : L.step s l = some t) : ¬ SelfFree L t := by
  cases move_of_step hstep with
  | deliver | drop | dup => cases hhears
  | @act i e p sent hready hturn =>
    unfold HearsItself at hhears
    split at hhears
    · rename_i j d mem hlabel
      cases hlabel
      obtain ⟨hsrc, hcan⟩ := hhears
      have hentered : handshake L.version (L.cfg i) (.recv .joinfd d mem) =
          some { d.src with sinPort := chatPort } := by
        simp [handshake, hversion, Version.receiver, (receive_join_iff mem d).2 hcan]
      have hpeers := hturn.peers_eq
      rw [hentered] at hpeers
      intro hfree
      refine (hfree i).1 { d.src with sinPort := chatPort } ?_ ?_
      · simp [hpeers]
      · rw [hsrc]
        rfl
    · exact hhears.elim

/-- A process never becomes its own peer, and never answers itself, exactly when
    no process reads a request of its own from `joinfd`. -/
theorem selfFree_iff (hversion : L.version = .v5) (labels : List (Label ι)) :
    (Along L.step (SelfFree L) L.init labels ↔
      Guarded L.step (fun _ l => ¬ HearsItself L l) L.init labels) ∧
    ∀ (mem : Residue) (i : ι), mem.Bounded → HearsItself L (.act i (.recv .joinfd
      (canPacket (L.sock i .sockfd) (L.cfg i).groupAddr).toDatagram mem)) := by
  refine ⟨⟨fun h => ?_, fun h => ?_⟩, fun mem i hmem => hearsItself_request hmem i⟩
  · refine guarded_of_along (fun s l t hstep hfree hhears => ?_) h
    exact entered_of_hearing hversion hhears hstep hfree
  · have halong : Along L.step (Honest L fun i j => j ≠ i) L.init labels := by
      refine along_of_guarded ?_ honest_init h
      intro s l t hhonest hguard hstep
      refine hhonest.move_at ?_ (move_of_step hstep)
      rintro i e rfl
      exact admits_not_hearing hversion hguard
    exact halong.imp fun _ => selfFree_of_honest

def startUp : List (Label Side) :=
  [.act .left .start, .drop (pairCan .left), .act .left .alarm, .act .right .start,
    .deliver (pairCan .right) .left .joinfd,
    .act .left (.recv .joinfd (pairCan .right).toDatagram clean),
    .deliver (pairOfc .left .right) .right .sockfd, .act .right (.pselect [] true),
    .act .right (.recv .sockfd (pairOfc .left .right).toDatagram clean), .act .right .alarm]

theorem selfFree_startUp : Along (pair .v5).step (SelfFree (pair .v5)) (pair .v5).init startUp := by
  apply (selfFree_iff (L := pair .v5) rfl startUp).1.2
  intro bs l s t hbs _ _ hhears
  have hl : l ∈ startUp := hbs.subset (by simp)
  simp only [startUp, List.mem_cons, List.not_mem_nil, or_false] at hl
  rcases hl with rfl | rfl | rfl | rfl | rfl | rfl | rfl | rfl | rfl | rfl <;>
    first | exact hhears | exact absurd hhears.1 (by decide)

/-- Later the left side looks for others: its request goes to the whole group,
    and the right side answers first. -/
def findsItself : List (Label Side) :=
  startUp ++ [.act .left (.input (ascii "am-find\n")), .dup (pairCan .left),
    .deliver (pairCan .left) .left .joinfd, .deliver (pairCan .left) .right .joinfd,
    .act .right (.recv .joinfd (pairCan .left).toDatagram clean),
    .deliver (pairOfc .right .left) .left .sockfd,
    .act .left (.recv .sockfd (pairOfc .right .left).toDatagram clean),
    .act .left (.recv .joinfd (pairCan .left).toDatagram clean)]

theorem findsItself_run : (run (pair .v5).step (pair .v5).init findsItself).map
    (fun s => ((s.proc .left).peers, s.flight)) =
    some ([(pair .v5).sock .right .listenfd, (pair .v5).sock .right .listenfd,
      (pair .v5).sock .left .listenfd], [offerTo (pair .v5) .left .left]) := rfl

/-- The left side ends as its own peer, and its offer to itself is on its way. -/
theorem findsItself_own : ∃ s, run (pair .v5).step (pair .v5).init findsItself = some s ∧
    (pair .v5).sock .left .listenfd ∈ (s.proc .left).peers ∧
    offerTo (pair .v5) .left .left ∈ s.flight ∧
    ¬ Along (pair .v5).step (SelfFree (pair .v5)) (pair .v5).init findsItself := by
  obtain ⟨s, hs, hview⟩ := Option.map_eq_some_iff.1 findsItself_run
  obtain ⟨hpeers, hflight⟩ := Prod.mk.inj hview
  have hoffer : offerTo (pair .v5) .left .left ∈ s.flight := by simp [hflight]
  refine ⟨s, hs, by simp [hpeers], hoffer, fun h => ?_⟩
  exact (h findsItself s List.prefix_rfl hs .left).2 hoffer

end LanChat.SelfReception

import LanChat.HonestNetwork
import LanChat.PairLedger

set_option autoImplicit false

/-!
# Membership is symmetric, up to the offers on their way

Each answered request is a meeting of two processes. The one who answers enters
it at once, and the one who asked when it reads the offer.
-/
namespace LanChat.Membership
open CStrings HexText FrameCodec SocketAddresses DatagramReceive TransitionRuns ChatProcess
  ChatNetwork HonestNetwork PairLedger

variable {ι : Type*} (L : Lan ι)

def entries (s : Net ι) (a b : ι) : ℕ :=
  (s.proc a).peers.countP fun peer => peer.sinAddr = (L.cfg b).addr

def unread (s : Net ι) (a b : ι) : ℕ := (s.queue a .sockfd).count (offer L b)

def inFlight (s : Net ι) (a b : ι) : ℕ := s.flight.count (offerTo L b a)

/-- What `a` has entered of `b`, and what is still on its way to be entered. -/
def credit (s : Net ι) (a b : ι) : ℕ := entries L s a b + (unread L s a b + inFlight L s a b)

/-- The network neither loses nor doubles an offer. -/
def keepsOffers : Label ι → Bool
  | .drop p | .dup p => !isOfc p
  | _ => true

variable {L}

theorem count_offerTo_eq_zero {sent : List Packet} (h : ∀ q ∈ sent, isOfc q = false) (b a : ι) :
    sent.count (offerTo L b a) = 0 := by
  apply List.count_eq_zero.2
  intro hmem
  have hofc := h _ hmem
  rw [isOfc_offerTo] at hofc
  cases hofc

theorem offer_injective {b j : ι} (h : offer L b = offer L j) : b = j := by
  have hsrc : L.sock b .listenfd = L.sock j .listenfd := congrArg Datagram.src h
  exact sock_injective hsrc

theorem offerTo_injective {b a i j : ι} (h : offerTo L b a = offerTo L i j) : b = i ∧ a = j := by
  have hdst : L.sock a .sockfd = L.sock j .sockfd := congrArg Packet.dst h
  exact ⟨offer_injective (congrArg Packet.toDatagram h), sock_injective hdst⟩

theorem sinAddr_sock_iff {j b : ι} (fd : Fd) :
    (L.sock j fd).sinAddr = (L.cfg b).addr ↔ b = j := by
  have haddr : (L.sock j fd).sinAddr = (L.cfg j).addr := by cases fd <;> rfl
  rw [haddr]
  exact ⟨fun h => (L.addr_injective h).symm, fun h => by rw [h]⟩

variable [DecidableEq ι]

theorem credit_acted {s : Net ι} {i : ι} {e : Event} {p : Proc} (sent : List Packet)
    {new : List SockAddr} (hready : ready (s.queue i) e = true)
    (hnew : p.peers = (s.proc i).peers ++ new) (a b : ι) :
    credit L (s.acted i e p sent) a b + (if a = i then (taken e .sockfd).count (offer L b) else 0) =
      credit L s a b +
        (if a = i then new.countP (fun peer => peer.sinAddr = (L.cfg b).addr) else 0) +
        sent.count (offerTo L b a) := by
  have hflight : inFlight L (s.acted i e p sent) a b =
      inFlight L s a b + sent.count (offerTo L b a) := List.count_append
  by_cases ha : a = i
  · subst a
    have hqueue : unread L s i b = (taken e .sockfd).count (offer L b) +
        unread L (s.acted i e p sent) i b := by
      rw [unread, unread, taken_append_consume hready .sockfd, List.count_append,
        Net.acted_queue_self]
    have hpeers : entries L (s.acted i e p sent) i b = entries L s i b +
        new.countP (fun peer => peer.sinAddr = (L.cfg b).addr) := by
      rw [entries, entries, Net.acted_proc_self, hnew, List.countP_append]
    simp only [credit, ↓reduceIte]
    omega
  · have hqueue : unread L (s.acted i e p sent) a b = unread L s a b := by
      rw [unread, unread, Net.acted_queue_ne s e p sent ha]
    have hpeers : entries L (s.acted i e p sent) a b = entries L s a b := by
      rw [entries, entries, Net.acted_proc_ne s e p sent ha]
    simp only [credit, if_neg ha]
    omega

theorem entered_quiet {s : Net ι} {i : ι} {e : Event} {p : Proc} {sent : List Packet}
    (hready : ready (s.queue i) e = true) (hpeers : p.peers = (s.proc i).peers)
    (htaken : taken e .sockfd = []) (hsent : ∀ q ∈ sent, isOfc q = false) :
    Entered 0 (credit L s) (credit L (s.acted i e p sent)) := by
  apply entered_zero
  intro a b _
  have h := credit_acted (L := L) sent hready
    (hpeers.trans (List.append_nil _).symm) a b
  rw [htaken, count_offerTo_eq_zero hsent] at h
  simpa using h

theorem entered_confirm {s : Net ι} {i j : ι} {mem : Residue} {p : Proc}
    (hready : ready (s.queue i) (.recv .sockfd (offer L j) mem) = true)
    (hpeers : p.peers = (s.proc i).peers ++ [(offer L j).src]) :
    Entered 0 (credit L s) (credit L (s.acted i (.recv .sockfd (offer L j) mem) p [])) := by
  apply entered_zero
  intro a b _
  have h := credit_acted (L := L) [] hready hpeers a b
  have hread : (taken (.recv .sockfd (offer L j) mem) .sockfd).count (offer L b) =
      if b = j then 1 else 0 := by
    rw [taken, if_pos rfl, List.count_singleton]
    by_cases hb : b = j
    · simp [hb]
    · have hne : offer L j ≠ offer L b := fun e => hb (offer_injective e).symm
      simp [hb, hne]
  have hentry : [(offer L j).src].countP (fun peer => peer.sinAddr = (L.cfg b).addr) =
      if b = j then 1 else 0 := by
    rw [offer, List.countP_singleton]
    simp only [sinAddr_sock_iff, decide_eq_true_eq]
  rw [hread, hentry, List.count_nil, add_zero] at h
  omega

theorem entered_accept {s : Net ι} {i j : ι} {fd : Fd} {d : Datagram} {mem : Residue} {p : Proc}
    (hready : ready (s.queue i) (.recv fd d mem) = true) (hfd : fd ≠ .sockfd)
    (hpeers : p.peers = (s.proc i).peers ++ [L.sock j .listenfd]) :
    Entered {s(i, j)} (credit L s) (credit L (s.acted i (.recv fd d mem) p [offerTo L i j])) := by
  apply entered_singleton
  intro a b _
  have h := credit_acted (L := L) [offerTo L i j] hready hpeers a b
  have hread : taken (.recv fd d mem) .sockfd = [] := if_neg hfd.symm
  have hentry : [L.sock j .listenfd].countP (fun peer => peer.sinAddr = (L.cfg b).addr) =
      if b = j then 1 else 0 := by
    rw [List.countP_singleton]
    simp only [sinAddr_sock_iff, decide_eq_true_eq]
  have hsent : [offerTo L i j].count (offerTo L b a) = if a = j ∧ b = i then 1 else 0 := by
    rw [List.count_singleton]
    by_cases hab : a = j ∧ b = i
    · simp [hab]
    · have hne : offerTo L i j ≠ offerTo L b a :=
        fun e => hab ⟨(offerTo_injective e).2.symm, (offerTo_injective e).1.symm⟩
      simp [hab, hne]
  rw [hread, hentry, hsent] at h
  by_cases ha : a = i <;> simp [ha] at h ⊢ <;> omega

theorem entered_turn {s : Net ι} (h : Honest L (fun _ _ => True) s) {i : ι} {e : Event} {p : Proc}
    {sent : List Packet} (hready : ready (s.queue i) e = true)
    (hturn : Turn L.version (L.cfg i) (s.proc i) e p sent) :
    ∃ m, Entered m (credit L s) (credit L (s.acted i e p sent)) := by
  cases hturn with
  | start | find =>
    refine ⟨0, entered_quiet hready rfl rfl fun q hq => ?_⟩
    rw [List.mem_singleton.1 hq]
    exact isOfc_sockfd (i := i) rfl
  | offered | pselectError | alarm | leave | eof =>
    exact ⟨0, entered_quiet hready rfl rfl (by simp)⟩
  | confirm hp hc =>
    obtain ⟨j, _, rfl⟩ := h.offers i _ (mem_of_ready hready)
    exact ⟨0, entered_confirm hready rfl⟩
  | refuse hp hc =>
    obtain ⟨j, _, rfl⟩ := h.offers i _ (mem_of_ready hready)
    rw [offer, authTryConfirm_ofc] at hc
    cases hc
  | @accept fd d mem r hp hr hok =>
    have hfd := receiver_ne_sockfd hr
    obtain ⟨j, hsrc⟩ := h.inbox i fd hfd d (mem_of_ready hready)
    have hsent : ofcPacket ((L.cfg i).sock fd) d.src = offerTo L i j := by
      rw [hsrc]
      cases fd with
      | sockfd => exact absurd rfl hfd
      | listenfd | joinfd => rfl
    rw [hsent]
    refine ⟨_, entered_accept hready hfd ?_⟩
    rw [addPeer, hsrc]
    rfl
  | @dismiss fd d mem r next hp hr hno hnext =>
    have hfd := receiver_ne_sockfd hr
    exact ⟨0, entered_quiet hready rfl (if_neg hfd.symm) (by simp)⟩
  | chat hp =>
    refine ⟨0, entered_quiet hready rfl rfl fun q hq => ?_⟩
    obtain ⟨a, _, rfl⟩ := List.mem_map.1 hq
    exact isOfc_sockfd (i := i) rfl

theorem credit_delivered {s : Net ι} {p : Packet} {i : ι} {fd : Fd} (hp : p ∈ s.flight)
    (hdst : L.accepts i fd p.dst = true) (a b : ι) :
    credit L (s.delivered p i fd) a b = credit L s a b := by
  have hentries : entries L (s.delivered p i fd) a b = entries L s a b := rfl
  by_cases hoffer : p = offerTo L b a
  · subst p
    obtain ⟨rfl, rfl⟩ := accepts_offerTo hdst
    have hread : unread L (s.delivered (offerTo L b i) i .sockfd) i b = unread L s i b + 1 := by
      rw [unread, unread, Net.delivered_queue_self, List.count_append]
      simp [offerTo]
    have hleft : inFlight L (s.delivered (offerTo L b i) i .sockfd) i b = inFlight L s i b - 1 :=
      List.count_erase_self
    have hpos : 0 < inFlight L s i b := List.count_pos_iff.2 hp
    simp only [credit]
    omega
  · have hleft : inFlight L (s.delivered p i fd) a b = inFlight L s a b :=
      List.count_erase_of_ne fun e => hoffer e.symm
    have hread : unread L (s.delivered p i fd) a b = unread L s a b := by
      by_cases ha : a = i ∧ Fd.sockfd = fd
      · obtain ⟨rfl, rfl⟩ := ha
        have hne : p.toDatagram ≠ offer L b := by
          intro hd
          have hsock : p.dst = L.sock a .sockfd := of_decide_eq_true hdst
          exact hoffer (by rw [offerTo, ← hd, ← hsock])
        rw [unread, unread, Net.delivered_queue_self, List.count_append, List.count_singleton]
        simp [hne]
      · rw [unread, unread, Net.delivered_queue_ne s p ha]
    simp only [credit]
    omega

theorem entered_move {s t : Net ι} (h : Honest L (fun _ _ => True) s) {l : Label ι}
    (hkeep : keepsOffers l = true) (hmove : Move L s l t) :
    ∃ m, Entered m (credit L s) (credit L t) := by
  cases hmove with
  | act hready hturn => exact entered_turn h hready hturn
  | deliver hp hopen hdst => exact ⟨0, entered_zero fun a b _ => credit_delivered hp hdst a b⟩
  | @drop p hp =>
    refine ⟨0, entered_zero fun a b _ => ?_⟩
    have hne : offerTo L b a ≠ p := by
      rintro rfl
      simp [keepsOffers, isOfc_offerTo] at hkeep
    simp only [credit, inFlight, entries, unread, List.count_erase_of_ne hne]
  | @dup p hp =>
    refine ⟨0, entered_zero fun a b _ => ?_⟩
    have hne : p ≠ offerTo L b a := by
      rintro rfl
      simp [keepsOffers, isOfc_offerTo] at hkeep
    simp only [credit, inFlight, entries, unread, List.count_cons_of_ne hne]

/-- As long as no offer is lost or doubled, what two processes have entered of
    each other differs by the offers that are still to be read. -/
theorem handshakes_conserved {labels : List (Label ι)} {s : Net ι}
    (hkeep : ∀ l ∈ labels, keepsOffers l = true) (hrun : run L.step L.init labels = some s) :
    (∀ a b, a ≠ b → entries L s a b + (unread L s a b + inFlight L s a b) =
      entries L s b a + (unread L s b a + inFlight L s b a)) ∧
    (∀ a b, unread L s a b + inFlight L s a b = 0 → unread L s b a + inFlight L s b a = 0 →
      entries L s a b = entries L s b a) := by
  have hinit : Kept 0 (credit L L.init) := fun _ _ _ => rfl
  obtain ⟨ledger, hledger⟩ := kept_run (B := credit L) (I := Honest L fun _ _ => True)
    (A := fun l => keepsOffers l = true)
    (fun _ _ _ h _ hstep => h.move admits_all (move_of_step hstep))
    (fun _ _ _ h hl hstep => entered_move h hl (move_of_step hstep)) honest_init hinit hkeep hrun
  have hbooks : ∀ a b, a ≠ b → entries L s a b + (unread L s a b + inFlight L s a b) =
      entries L s b a + (unread L s b a + inFlight L s b a) := fun a b hab => hledger.symm hab
  refine ⟨hbooks, fun a b hab hba => ?_⟩
  by_cases heq : a = b
  · rw [heq]
  · have h := hbooks a b heq
    omega

theorem meeting_conserved : ∃ s, run (pair .v4).step (pair .v4).init meeting = some s ∧
    entries (pair .v4) s .left .right +
        (unread (pair .v4) s .left .right + inFlight (pair .v4) s .left .right) =
      entries (pair .v4) s .right .left +
        (unread (pair .v4) s .right .left + inFlight (pair .v4) s .right .left) := by
  obtain ⟨s, hs⟩ := Option.isSome_iff_exists.1 meeting_runs
  have h := handshakes_conserved (L := pair .v4) (by decide) hs
  exact ⟨s, hs, h.1 .left .right (by decide)⟩

end LanChat.Membership

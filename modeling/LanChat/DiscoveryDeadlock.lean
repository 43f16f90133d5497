import LanChat.HonestNetwork

set_option autoImplicit false

/-!
# When discovery blocks everyone

`am-find` waits for an offer inside the loop that would have to make the
offers of the others.
-/
namespace LanChat.DiscoveryDeadlock
open CStrings HexText FrameCodec SocketAddresses DatagramReceive TransitionRuns ChatProcess
  ChatNetwork HonestNetwork

variable {ι : Type*}

/-- In the `Recvfrom` of `am-find`, with nothing to receive. -/
def Blocked (s : Net ι) (i : ι) : Prop :=
  (s.proc i).phase = .confirming ∧ s.queue i .sockfd = []

def NoOffers (s : Net ι) : Prop := ∀ p ∈ s.flight, isOfc p = false

def Stuck (s : Net ι) : Prop := (∀ i, Blocked s i) ∧ NoOffers s

/-- No process but `i` can go on, and there is nothing for `i` to wait for. -/
def LastFree (s : Net ι) (i : ι) : Prop :=
  (∀ j, j ≠ i → Blocked s j) ∧ s.queue i .sockfd = [] ∧ NoOffers s

/-- `am-find` is not typed where all the others are already waiting for offers
    and none is on its way. -/
def FindsInTime (s : Net ι) (l : Label ι) : Prop :=
  ∀ i message, l = .act i (.input message) → isCommand message cmdEnd = false →
    isCommand message cmdFind = true → ¬ LastFree s i

def losesNoOffer : Label ι → Bool
  | .drop p => !isOfc p
  | _ => true

variable {L : Lan ι}

theorem find_of_confirming {v : Version} {cfg : Config} {p q : Proc} {e : Event}
    {sent : List Packet} (h : Turn v cfg p e q sent) (hq : q.phase = .confirming) :
    ∃ message, e = .input message ∧ isCommand message cmdEnd = false ∧
      isCommand message cmdFind = true ∧ sent = [canPacket (cfg.sock .sockfd) cfg.groupAddr] := by
  cases h with
  | find hp hend hfind => exact ⟨_, rfl, hend, hfind, rfl⟩
  | @confirm d mem next hp hc =>
    rcases addPeer_phase_eq p d.src next with hphase | ⟨n, hphase⟩ <;> rw [hphase] at hq
    · rcases hp with ⟨rset, _, rfl⟩ | ⟨_, rfl⟩ <;> cases hq
    · cases hq
  | @accept fd d mem r hp hr hok =>
    rcases addPeer_phase_eq p { d.src with sinPort := chatPort } .selecting with
      hphase | ⟨n, hphase⟩ <;> rw [hphase] at hq <;> cases hq
  | dismiss hp hr hno hnext => rcases hnext with rfl | ⟨f, rfl⟩ <;> cases hq
  | chat hp | eof hp => rw [hp] at hq; cases hq
  | start | offered | pselectError | alarm | refuse | leave => cases hq

variable [DecidableEq ι]

theorem stuck_acted_iff {s : Net ι} {i : ι} {message : Bytes} {p : Proc} {q : Packet}
    (hp : p.phase = .confirming) (hq : isOfc q = false) :
    Stuck (s.acted i (.input message) p [q]) ↔ LastFree s i := by
  have hself : (s.acted i (.input message) p [q]).queue i .sockfd = s.queue i .sockfd := by
    rw [Net.acted_queue_self]
    rfl
  have hother : ∀ j, j ≠ i → (Blocked (s.acted i (.input message) p [q]) j ↔ Blocked s j) := by
    intro j hj
    rw [Blocked, Blocked, Net.acted_proc_ne s _ p [q] hj, Net.acted_queue_ne s _ p [q] hj]
  constructor
  · rintro ⟨hall, hnone⟩
    refine ⟨fun j hj => (hother j hj).1 (hall j), hself ▸ (hall i).2, fun r hr => ?_⟩
    exact hnone r (List.mem_append_left [q] hr)
  · rintro ⟨hothers, hempty, hnone⟩
    refine ⟨fun j => ?_, fun r hr => ?_⟩
    · by_cases hj : j = i
      · subst j
        exact ⟨by rw [Net.acted_proc_self, hp], hself.trans hempty⟩
      · exact (hother j hj).2 (hothers j hj)
    · rcases List.mem_append.1 hr with hr | hr
      · exact hnone r hr
      · rwa [List.mem_singleton.1 hr]

theorem isOfc_of_delivered {s : Net ι} (h : Honest L (fun _ _ => True) s) {p : Packet} {i : ι}
    {fd : Fd} (hp : p ∈ s.flight) (hdst : L.accepts i fd p.dst = true)
    (hempty : (s.delivered p i fd).queue i .sockfd = []) : isOfc p = false := by
  cases h.flight p hp with
  | toChat j hsrc hport => exact isOfc_sockfd hsrc
  | toAsker k j _ =>
    obtain ⟨rfl, rfl⟩ := accepts_offerTo hdst
    rw [Net.delivered_queue_self] at hempty
    simp at hempty

theorem stuck_of_move {s t : Net ι} (h : Honest L (fun _ _ => True) s) {l : Label ι}
    (hkeep : losesNoOffer l = true) (hmove : Move L s l t) (ht : Stuck t) :
    Stuck s ∨ ∃ i message, l = .act i (.input message) ∧ isCommand message cmdEnd = false ∧
      isCommand message cmdFind = true ∧ LastFree s i := by
  cases hmove with
  | @act i e p sent hready hturn =>
    have hphase : p.phase = .confirming := by simpa using (ht.1 i).1
    obtain ⟨message, rfl, hend, hfind, rfl⟩ := find_of_confirming hturn hphase
    have hcan : isOfc (canPacket ((L.cfg i).sock .sockfd) (L.cfg i).groupAddr) = false :=
      isOfc_sockfd (L := L) (i := i) rfl
    exact .inr ⟨i, message, rfl, hend, hfind, (stuck_acted_iff hphase hcan).1 ht⟩
  | @deliver p i fd hp hopen hdst =>
    have hofc := isOfc_of_delivered h hp hdst (ht.1 i).2
    refine .inl ⟨fun j => ⟨(ht.1 j).1, ?_⟩, fun q hq => ?_⟩
    · have hj := (ht.1 j).2
      by_cases hji : j = i ∧ Fd.sockfd = fd
      · obtain ⟨rfl, rfl⟩ := hji
        simp at hj
      · rwa [Net.delivered_queue_ne s p hji] at hj
    · by_cases hqp : q = p
      · rwa [hqp]
      · exact ht.2 q ((List.mem_erase_of_ne hqp).2 hq)
  | @drop p hp =>
    refine .inl ⟨ht.1, fun q hq => ?_⟩
    by_cases hqp : q = p
    · rw [hqp]
      simpa [losesNoOffer] using hkeep
    · exact ht.2 q ((List.mem_erase_of_ne hqp).2 hq)
  | dup hp => exact .inl ⟨ht.1, fun q hq => ht.2 q (List.mem_cons_of_mem _ hq)⟩

theorem stuck_of_find {s t : Net ι} {i : ι} {message : Bytes}
    (hmove : Move L s (.act i (.input message)) t) (hend : isCommand message cmdEnd = false)
    (hfind : isCommand message cmdFind = true) (hlast : LastFree s i) : Stuck t := by
  have hcan : isOfc (canPacket ((L.cfg i).sock .sockfd) (L.cfg i).groupAddr) = false :=
    isOfc_sockfd (L := L) (i := i) rfl
  cases hmove with
  | act hready hturn =>
    obtain ⟨rfl, rfl⟩ := hturn.find_eq hend hfind
    exact (stuck_acted_iff rfl hcan).2 hlast

/-- Nothing that is still possible helps a process out of a stuck network. -/
theorem Stuck.stays {s t : Net ι} (hs : Stuck s) (h : Honest L (fun _ _ => True) s) {l : Label ι}
    (hstep : L.step s l = some t) : Stuck t := by
  cases move_of_step hstep with
  | @act i e p sent hready hturn =>
    have hphase := (hs.1 i).1
    cases hturn with
    | confirm hp hc | refuse hp hc =>
      have hmem := mem_of_ready hready
      rw [(hs.1 i).2] at hmem
      cases hmem
    | start hp | offered hp | pselectError hp | alarm hp | accept hp | dismiss hp | leave hp
    | find hp | chat hp | eof hp => simp [hphase] at hp
  | @deliver p i fd hp hopen hdst =>
    refine ⟨fun j => ⟨(hs.1 j).1, ?_⟩, fun q hq => hs.2 q (List.mem_of_mem_erase hq)⟩
    by_cases hji : j = i ∧ Fd.sockfd = fd
    · obtain ⟨rfl, rfl⟩ := hji
      obtain ⟨k, _, hk⟩ := (h.flight p hp).at_sockfd hdst
      have hofc := hs.2 p hp
      rw [isOfc, hk] at hofc
      simp [offer, Lan.sock, Config.sock] at hofc
    · rw [Net.delivered_queue_ne s p hji]
      exact (hs.1 j).2
  | drop hp => exact ⟨hs.1, fun q hq => hs.2 q (List.mem_of_mem_erase hq)⟩
  | dup hp => exact ⟨hs.1, List.forall_mem_cons.2 ⟨hs.2 _ hp, hs.2⟩⟩

/-- Discovery never blocks everyone, as long as no offer is lost, exactly when
    `am-find` is always typed in time. -/
theorem discovery_live_iff [Nonempty ι] {labels : List (Label ι)}
    (hkeep : ∀ l ∈ labels, losesNoOffer l = true) :
    Along L.step (fun s => ¬ Stuck s) L.init labels ↔ Guarded L.step FindsInTime L.init labels := by
  have hinit : ¬ Stuck L.init := fun hs => by
    have hidle := (hs.1 (Classical.arbitrary ι)).1
    cases hidle
  refine along_iff_guarded (I := Honest L fun _ _ => True) (A := fun l => losesNoOffer l = true)
    (fun _ _ _ h _ hstep => h.move admits_all (move_of_step hstep)) ?_ honest_init hinit hkeep
  intro s l t h hs hl hstep
  have hmove := move_of_step hstep
  constructor
  · rintro ht i message rfl hend hfind hlast
    exact ht (stuck_of_find hmove hend hfind hlast)
  · intro hguard ht
    rcases stuck_of_move h hl hmove ht with hs' | ⟨i, message, rfl, hend, hfind, hlast⟩
    · exact hs hs'
    · exact hguard i message rfl hend hfind hlast

theorem finds_of_untyped {s : Net ι} {labels : List (Label ι)}
    (h : ∀ i message, .act i (.input message) ∉ labels) :
    Guarded L.step FindsInTime s labels := by
  rintro bs l t u hbs _ _ i message rfl
  exact absurd (hbs.subset (by simp)) (h i message)

theorem again_live : Along (pair .v4).step (fun s => ¬ Stuck s) (pair .v4).init again := by
  have : Nonempty Side := ⟨.left⟩
  apply (discovery_live_iff (L := pair .v4) (by decide)).2
  refine guarded_append (finds_of_untyped (by simp [meeting])) fun s hs => ?_
  refine guarded_cons.2 fun t _ => ⟨?_, finds_of_untyped (by simp)⟩
  rintro i message hl _ _ hlast
  obtain ⟨rfl, _⟩ := Label.act.inj hl
  have hleft : (run (pair .v4).step (pair .v4).init meeting).map (fun s => (s.proc .left).phase) =
      some .selecting := rfl
  rw [hs, Option.map_some, (hlast.1 .left (by simp)).1] at hleft
  cases hleft

/-- Both sides look for others at the same time after their meeting, and hear
    each other's requests behind their blocked loops. -/
def bothFind : List (Label Side) :=
  meeting ++ [.act .left (.input (ascii "am-find\n")), .act .right (.input (ascii "am-find\n")),
    .deliver (pairCan .left) .right .listenfd, .deliver (pairCan .right) .left .listenfd]

theorem bothFind_run : (run (pair .v4).step (pair .v4).init bothFind).map
    (fun s => ((s.proc .left).phase, (s.proc .right).phase, s.queue .left .sockfd,
      s.queue .right .sockfd, s.flight)) =
    some (.confirming, .confirming, [], [], []) := rfl

theorem bothFind_stuck : (∀ p, .drop p ∉ bothFind) ∧
    ∃ s, run (pair .v4).step (pair .v4).init bothFind = some s ∧ Stuck s ∧
      ∀ labels t, run (pair .v4).step s labels = some t → Stuck t := by
  refine ⟨fun p hp => by simp [bothFind, meeting] at hp, ?_⟩
  obtain ⟨s, hs, hview⟩ := Option.map_eq_some_iff.1 bothFind_run
  simp only [Prod.mk.injEq] at hview
  obtain ⟨hleft, hright, hleftQueue, hrightQueue, hflight⟩ := hview
  have hstuck : Stuck s := by
    refine ⟨fun i => ?_, fun p hp => ?_⟩
    · cases i with
      | left => exact ⟨hleft, hleftQueue⟩
      | right => exact ⟨hright, hrightQueue⟩
    · rw [hflight] at hp
      cases hp
  refine ⟨s, hs, hstuck, fun labels t ht => ?_⟩
  exact (run_preserves (I := fun s => Honest (pair .v4) (fun _ _ => True) s ∧ Stuck s)
    (fun _ _ _ h hstep => ⟨h.1.move admits_all (move_of_step hstep), h.2.stays h.1 hstep⟩)
    ⟨honest_run admits_all hs, hstuck⟩ ht).2

end LanChat.DiscoveryDeadlock

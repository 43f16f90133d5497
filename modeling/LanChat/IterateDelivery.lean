import LanChat.IterateProvenance

set_option autoImplicit false

/-!
# What becomes of a line of chat in v3

A line goes to the one peer that has been found. Every copy of it is printed
there once, lost, in flight or unread.
-/
namespace LanChat.IterateDelivery
open CStrings HexText FrameCodec SocketAddresses DatagramReceive TransitionRuns ControlCollision
  HostScan TypedCommands FgetsLoops DatagramNetworks IterateNetwork IterateProvenance
open ChatProcess (Act Fd Packet clean acceptActs isCommand ofcPacket canPacket packets)
open ChatDelivery (printLine printLine_injective shown_notMem_status mem_acceptActs payload_drop
  canPacket_drop)

variable {ι : Type*} [DecidableEq ι]

/-- The memory in which a child reads headers is as it has to be. -/
def AllBounded (labels : List (Label ι Fd Event Packet)) : Prop :=
  ∀ i d mem, Label.act i (.listen d mem) ∈ labels → mem.Bounded

variable (L : Lan ι) (i j : ι) (said : Bytes)

def carries (d : Datagram) : Bool :=
  d.src = L.sock j .sockfd ∧ d.payload.drop 4 = shown (L.cfg j).userName said

def isBound (p : Packet) : Bool :=
  carries L j said p.toDatagram ∧ p.dst = L.sock i .listenfd

/-- The copies for `i` of what `j` has said that may still arrive. -/
def pendingLine (s : Net ι Fd Proc Datagram Packet) : ℕ :=
  Network.pending (isBound L i j said) (carries L j said) i .listenfd s

/-- A line that `j` says once it has found `i`. -/
def sentLine (s : Net ι Fd Proc Datagram Packet) : Label ι Fd Event Packet → ℕ
  | .act k (.input message) =>
    if (k = j ∧ isCommand message endSignal = false ∧ chomp (cstr message) = said) ∧
        (s.proc j).foundPeer = some (L.sock i .listenfd) then 1
    else 0
  | _ => 0

/-- What the child of `i` prints of a datagram from `j`. -/
def printedLine (s : Net ι Fd Proc Datagram Packet) : Label ι Fd Event Packet → ℕ
  | .act k (.listen d mem) =>
    if k = i ∧ d.src = L.sock j .sockfd then
      ((step (L.cfg i) (s.proc i) (.listen d mem)).map fun q =>
        q.2.count (printLine (shown (L.cfg j).userName said))).getD 0
    else 0
  | _ => 0

def doubledLine : Net ι Fd Proc Datagram Packet → Label ι Fd Event Packet → ℕ :=
  Network.doubled (isBound L i j said)

def lostLine : Net ι Fd Proc Datagram Packet → Label ι Fd Event Packet → ℕ :=
  Network.lost (isBound L i j said)

variable {L i j said}

omit [DecidableEq ι] in
theorem isBound_enters {p : Packet} {k : ι} {fd : Fd} {q : Proc}
    (henters : L.network.enters k q fd p = true) :
    isBound L i j said p = true ↔
      (k = i ∧ fd = .listenfd) ∧ carries L j said (L.network.arrival p) = true := by
  obtain ⟨hopen, hdst⟩ := of_decide_eq_true henters
  rw [isBound, decide_eq_true_eq, and_comm]
  refine and_congr_left fun _ => ?_
  rw [hdst]
  constructor
  · intro hsock
    refine ⟨sock_injective hsock, ?_⟩
    cases fd with
    | listenfd => rfl
    | sockfd => exact absurd (congrArg SockAddr.sinPort hsock) (L.cfg k).sockport_ne
    | joinfd => cases hopen
  · rintro ⟨rfl, rfl⟩
    rfl

omit [DecidableEq ι] in
theorem carries_iff {d : Datagram} {c : ChatLine} (hsrc : d.src = L.sock j .sockfd)
    (hfits : c.Fits) (hframe : d.payload = c.frame) :
    carries L j said d = true ↔ c.text = shown (L.cfg j).userName said := by
  rw [carries, decide_eq_true_eq, payload_drop hfits hframe]
  exact and_iff_right hsrc

omit [DecidableEq ι] in
theorem isBound_canPacket (hplain : ¬ authCan <+: shown (L.cfg j).userName said)
    (sock dst : SockAddr) : isBound L i j said (canPacket sock dst) = false := by
  refine decide_eq_false fun hbound => hplain ?_
  have htext := (of_decide_eq_true hbound.1).2
  exact (canPacket_drop sock dst).trans (htext ▸ List.prefix_rfl)

omit [DecidableEq ι] in
theorem isBound_chatPacket {k : ι} {message : Bytes} (peer : SockAddr)
    (hfit : lengthField (L.cfg k).userName (cstr message) ≤ 65535) :
    isBound L i j said (chatPacket (L.cfg k) message peer) = true ↔
      (k = j ∧ chomp (cstr message) = said) ∧ peer = L.sock i .listenfd := by
  have hsock : L.sock k .sockfd = L.sock j .sockfd ↔ k = j :=
    ⟨sock_injective, fun h => h ▸ rfl⟩
  have hdrop := createSendMsg_drop (u := (L.cfg k).userName) (m := cstr message) (by omega)
  simp only [isBound, carries, decide_eq_true_eq]
  change ((L.sock k .sockfd = L.sock j .sockfd ∧ _) ∧ peer = _) ↔ _
  rw [hsock, chatPacket, hdrop]
  refine and_congr_left fun _ => and_congr_right fun hk => ?_
  subst k
  exact shown_injective

section Step

variable {subnet : ι → InAddr} {start : ι → ℕ} {labels : List (Label ι Fd Event Packet)}
  {s : Net ι Fd Proc Datagram Packet} {k : ι} {e : Event}

/-- Of what goes out of a scan nothing is a line. -/
theorem countP_requests {p' : Proc} {scan : Scan} {sent : List Packet}
    (hplain : ¬ authCan <+: shown (L.cfg j).userName said)
    (hscans : Scans L subnet start (Function.update s.proc k p')) (hscan : p'.scan = some scan)
    (hsent : ∀ q ∈ sent, q ∈ packets scan.acts) : sent.countP (isBound L i j said) = 0 := by
  have hscanned := hscans k scan (by rw [Function.update_self, hscan])
  obtain ⟨probes, hlen, hintact⟩ := hscanned.intact
  obtain ⟨n, _, hacts⟩ := intact_requests hlen hintact
  rw [List.countP_eq_zero]
  intro q hq
  have hmem := hsent q hq
  rw [hacts] at hmem
  obtain ⟨m, _, rfl⟩ := mem_requests hmem
  rw [isBound_canPacket hplain]
  decide

theorem countP_sent {p' : Proc} {sent : List Packet} (hfit : AllFit L labels)
    (hmem : .act k e ∈ labels) (hplain : ¬ authCan <+: shown (L.cfg j).userName said)
    (hscans : Scans L subnet start (Function.update s.proc k p'))
    (h : Turn (L.cfg k) (s.proc k) e p' sent) :
    sent.countP (isBound L i j said) = sentLine L i j said s (.act k e) := by
  cases h with
  | start hp hs => exact countP_requests hplain hscans rfl fun _ hq => hq
  | probe hp hprobe =>
    exact countP_requests hplain hscans rfl
      fun q hq => ((List.drop_suffix _ _).filterMap _).subset hq
  | @accept d mem hp hok =>
    have hport : (L.cfg k).listenfd ≠ L.sock j .sockfd := fun hsock =>
      (L.cfg j).sockport_ne (congrArg SockAddr.sinPort hsock).symm
    have hno : isBound L i j said (ofcPacket (L.cfg k).listenfd d.src) = false :=
      decide_eq_false fun hbound => hport (of_decide_eq_true hbound.1).1
    simp [sentLine, hno]
  | dismiss => rfl
  | leave hp hpeer he =>
    rcases he with rfl | ⟨message, rfl, hend⟩
    · rfl
    · simp [sentLine, hend]
  | @chat message peer hp hpeer hend =>
    rw [List.countP_singleton, sentLine]
    refine if_congr ((isBound_chatPacket peer (hfit k message hmem)).trans ?_) rfl rfl
    constructor
    · rintro ⟨⟨rfl, hline⟩, rfl⟩
      exact ⟨⟨rfl, hend, hline⟩, hpeer⟩
    · rintro ⟨⟨rfl, _, hline⟩, hfound⟩
      exact ⟨⟨rfl, hline⟩, Option.some.inj (hpeer.symm.trans hfound)⟩

omit [DecidableEq ι] in
theorem count_onListen (p : Proc) {mem : Residue} {d : Datagram} {c : ChatLine}
    (hplain : ¬ authCan <+: shown (L.cfg j).userName said) (hmem : mem.Bounded)
    (hfits : c.Fits) (hframe : d.payload = c.frame) :
    (onListen (L.cfg i) p mem d).2.count (printLine (shown (L.cfg j).userName said)) =
      if c.text = shown (L.cfg j).userName said then 1 else 0 := by
  rw [onListen_frame _ _ hmem hfits hframe]
  dsimp only
  split_ifs with hcan htext htext
  · exact absurd (htext ▸ hcan) hplain
  · exact List.count_eq_zero.2 fun h => shown_notMem_status _ _ (mem_acceptActs h)
  · rw [htext, List.count_singleton_self]
  · exact List.count_eq_zero.2 fun h =>
      htext (printLine_injective.1 (List.mem_singleton.1 h)).symm

theorem count_taken {q : Proc × List Act}
    (h : Network.Known (Scans L subnet start) (Legitimate L fun i e => .act i e ∈ labels)
      (Arrived L fun i e => .act i e ∈ labels) s)
    (hfit : AllFit L labels) (hbounded : AllBounded labels) (hmem : .act k e ∈ labels)
    (hplain : ¬ authCan <+: shown (L.cfg j).userName said)
    (hready : ready (s.queue k) e = true) (hstep : step (L.cfg k) (s.proc k) e = some q) :
    L.network.taken (carries L j said) i .listenfd s (.act k e) =
      printedLine L i j said s (.act k e) := by
  cases e with
  | start | probe | input | eof => simp [Network.taken, Lan.network, takes, printedLine]
  | listen d mem =>
    by_cases hk : k = i
    swap
    · simp [Network.taken, printedLine, hk]
    subst k
    obtain ⟨rest, hqueue⟩ := List.head?_eq_some_iff.1 (of_decide_eq_true hready)
    have hcount : L.network.taken (carries L j said) i .listenfd s (.act i (.listen d mem)) =
        if carries L j said d = true then 1 else 0 := by
      simp [Network.taken, Lan.network, takes, hqueue]
    rw [hcount]
    by_cases hsrc : d.src = L.sock j .sockfd
    swap
    · have hno : carries L j said d = false := decide_eq_false fun hc => hsrc hc.1
      simp [printedLine, hsrc, hno]
    obtain ⟨j', c, hsrc', _, hfrom, hframe⟩ :=
      h.queue i .listenfd d (by rw [hqueue]; exact List.mem_cons_self)
    simp only [printedLine, true_and, if_pos hsrc, hstep, Option.map_some, Option.getD_some]
    simp only [step] at hstep
    split_ifs at hstep
    obtain rfl := Option.some.inj hstep
    rw [count_onListen _ hplain (hbounded i d mem hmem) (hfrom.fits hfit) hframe]
    exact if_congr (carries_iff hsrc (hfrom.fits hfit) hframe) rfl rfl

theorem ledger_step (hscan : ∀ i, Scannable (L.cfg i) (subnet i) (start i))
    (hfit : AllFit L labels) (hbounded : AllBounded labels)
    (hplain : ¬ authCan <+: shown (L.cfg j).userName said)
    {t : Net ι Fd Proc Datagram Packet} {l : Label ι Fd Event Packet}
    (h : Network.Known (Scans L subnet start) (Legitimate L fun i e => .act i e ∈ labels)
      (Arrived L fun i e => .act i e ∈ labels) s)
    (hl : l ∈ labels) (hstep : L.network.step s l = some t) :
    pendingLine L i j said s + (sentLine L i j said s l + doubledLine L i j said s l) =
      pendingLine L i j said t + (printedLine L i j said s l + lostLine L i j said s l) := by
  have hbalance : pendingLine L i j said s +
      (L.network.sent (isBound L i j said) s l + doubledLine L i j said s l) =
      pendingLine L i j said t +
        (L.network.taken (carries L j said) i .listenfd s l + lostLine L i j said s l) :=
    Network.pending_step (fun _ _ _ _ henters => isBound_enters henters) hstep
  have hmove := Network.move_of_step hstep
  have hnext := h.move (provenance hscan) (fun i e he => he ▸ hl) hmove
  cases hmove with
  | @act k e q hready hact =>
    obtain ⟨q', hq', rfl⟩ := Option.map_eq_some_iff.1 hact
    have hsent : L.network.sent (isBound L i j said) s (.act k e) =
        sentLine L i j said s (.act k e) := by
      rw [← countP_sent hfit hl hplain hnext.procs (turn_of_step hq')]
      simp [Network.sent, hact]
    rw [hsent, count_taken h hfit hbounded hl hplain hready hq'] at hbalance
    exact hbalance
  | deliver | drop | dup => exact hbalance

end Step

/-- Of what `j` has said to `i`, and of the copies that the network has made of
    it, each is printed at `i` once, or has been lost, or is in flight or unread. -/
theorem said_conserved (L : Lan ι) {subnet : ι → InAddr} {start : ι → ℕ}
    (hscan : ∀ i, Scannable (L.cfg i) (subnet i) (start i))
    {labels : List (Label ι Fd Event Packet)} (hfit : AllFit L labels)
    (hbounded : AllBounded labels) (i j : ι) (said : Bytes)
    (hplain : ¬ authCan <+: shown (L.cfg j).userName said)
    {s : Net ι Fd Proc Datagram Packet}
    (hrun : run L.network.step L.network.initial labels = some s) :
    tally L.network.step (sentLine L i j said) L.network.initial labels +
        tally L.network.step (doubledLine L i j said) L.network.initial labels =
      pendingLine L i j said s +
        (tally L.network.step (printedLine L i j said) L.network.initial labels +
          tally L.network.step (lostLine L i j said) L.network.initial labels) := by
  have h := tally_balance (B := pendingLine L i j said) (A := (· ∈ labels))
    (fun _ _ _ h hl hstep => h.move (provenance hscan) (fun _ _ he => he ▸ hl)
      (Network.move_of_step hstep))
    (fun _ _ _ h hl hstep => ledger_step hscan hfit hbounded hplain h hl hstep)
    (Network.known_initial (provenance hscan)) (fun _ hl => hl) hrun
  have hnone : pendingLine L i j said L.network.initial = 0 := rfl
  rwa [hnone, zero_add, tally_add, tally_add] at h

/-- The other side reads the greeting. -/
def greeted : List (Label Bool Fd Event Packet) :=
  greeting ++ [.act true (.listen hello.toDatagram clean)]

theorem greeted_fits : AllFit pair greeted := by
  intro j message h
  rcases List.mem_append.1 h with h | h
  · exact greeting_fits j message h
  · cases List.mem_singleton.1 h

theorem greeted_bounded : AllBounded greeted := by
  intro i d mem h
  simp only [greeted, greeting, List.cons_append, List.nil_append, List.mem_cons, Label.act.injEq,
    reduceCtorEq, and_false, List.not_mem_nil, or_false, false_or,
    IterateNetwork.Event.listen.injEq] at h
  rcases h with ⟨_, _, rfl⟩ | ⟨_, _, rfl⟩ <;> exact isolated_nil

theorem greeted_runs :
    (run pair.network.step pair.network.initial greeted).isSome = true := by
  decide +kernel

theorem said_conserved_greeted : ∃ s,
    run pair.network.step pair.network.initial greeted = some s ∧
    1 + 0 = pendingLine pair true false (ascii "hello") s + (1 + 0) := by
  obtain ⟨s, hs⟩ := Option.isSome_iff_exists.1 greeted_runs
  exact ⟨s, hs, said_conserved pair (fun i => pair_scannable i) greeted_fits greeted_bounded
    true false (ascii "hello") (by decide +kernel) hs⟩

end LanChat.IterateDelivery

import LanChat.IterateProvenance

set_option autoImplicit false

/-!
# Whom a process of v3 can find

Where nobody else answers, a scan comes to the host of any participant behind
its start.
-/
namespace LanChat.IterateFinding
open CStrings HexText FrameCodec SocketAddresses DatagramReceive TransitionRuns DottedQuads
  ControlCollision OfferReading HostScan FgetsLoops DatagramNetworks IterateNetwork
  IterateProvenance
open ChatProcess (Act Fd Packet clean acceptActs packets packets_append packets_acceptActs)

variable {ι : Type*} {L : Lan ι} {subnet : ι → InAddr} {start : ι → ℕ} [DecidableEq ι]

/-- A scan that has not been answered and has hosts left goes on. -/
theorem phase_unanswered {sock : SockAddr} {text : Bytes} {addr : InAddr} {first : ℕ}
    {probes : List Probe} {s : Scan} (hs : Intact sock text addr first probes s)
    (hnone : ∀ got ∈ probes, got.2 = none) (hleft : first + probes.length ≤ 255) :
    s.phase = .probing := by
  cases hphase : s.phase with
  | probing => rfl
  | bound =>
    rw [Intact, hphase] at hs
    obtain ⟨_, mem, d, hlast, _⟩ := hs
    have hno := hnone _ (List.mem_of_getLast? hlast)
    cases hno
  | quit text =>
    rw [Intact, hphase] at hs
    omega
  | sendError | noDot | overflow =>
    rw [Intact, hphase] at hs
    exact hs.elim

theorem exists_probe (sock : SockAddr) {s : Scan} (hphase : s.phase = .probing)
    (got : Probe) : ∃ t, HostScan.probe sock s got = some t := by
  unfold HostScan.probe probeOn
  rw [hphase]
  dsimp only
  split_ifs <;> exact ⟨_, rfl⟩

theorem packets_drop {acts acts' : List Act} (h : acts <+: acts') :
    packets acts ++ packets (acts'.drop acts.length) = packets acts' := by
  obtain ⟨rest, rfl⟩ := h
  rw [List.drop_left, packets_append]

omit [DecidableEq ι] in
theorem act_probe {i : ι} {s t : Scan} {got : Probe} {p : Proc} (hp : p.scan = some s)
    (h : HostScan.probe (L.sock i .sockfd) s got = some t) :
    L.network.act i p (.probe got) =
      some ({ p with scan := some t }, packets (t.acts.drop s.acts.length)) := by
  have h' : HostScan.probe (L.cfg i).sockfd s got = some t := h
  simp [Lan.network, step, hp, h']

section Finding

open Network (quiet step_quiet run_exchange)

variable {i : ι}

/-- Only `i` has begun. -/
def lone (i : ι) (s : Scan) : ι → Proc :=
  Function.update (fun _ => Proc.init) i ⟨some s, .waiting⟩

theorem lone_self (s : Scan) : lone i s i = ⟨some s, .waiting⟩ := by
  rw [lone, Function.update_self]

theorem lone_update (s t : Scan) :
    Function.update (lone i s) i ⟨some t, .waiting⟩ = lone i t := by
  rw [lone, Function.update_idem, lone]

theorem lone_listener (s : Scan) (j : ι) : (lone i s j).listener = .waiting := by
  by_cases hj : j = i
  · subst j
    rw [lone_self]
  · rw [lone, Function.update_of_ne hj]
    rfl

/-- The scan of `i` alone, when nobody has answered so far. -/
theorem run_timeouts (hscan : Scannable (L.cfg i) (subnet i) (start i)) (n : ℕ)
    (hn : start i + n ≤ 255) : ∃ s,
    run L.network.step L.network.initial
        (.act i .start :: List.replicate n (.act i (.probe (clean, none)))) =
      some (quiet (lone i s) (packets s.acts)) ∧
    s.phase = .probing ∧
    Intact (L.sock i .sockfd) (L.cfg i).subnetAddress (subnet i) (start i)
      (List.replicate n (clean, none)) s := by
  induction n with
  | zero =>
    have hintact : Intact (L.sock i .sockfd) (L.cfg i).subnetAddress (subnet i) (start i) []
        (findPeer (L.sock i .sockfd) (L.cfg i).subnetAddress (start i)) :=
      intact_findPeer hscan.quad hscan.start_le
    have hact : L.network.act i Proc.init .start =
        some (⟨some (findPeer (L.sock i .sockfd) (L.cfg i).subnetAddress (start i)), .waiting⟩,
          packets (findPeer (L.sock i .sockfd) (L.cfg i).subnetAddress (start i)).acts) := by
      rw [← hscan.startIdx]
      rfl
    refine ⟨_, ?_, phase_unanswered hintact (by simp) (by simpa using hn), hintact⟩
    exact run_cons_iff.2 ⟨_, step_quiet rfl hact, rfl⟩
  | succ n ih =>
    obtain ⟨s, hrun, hphase, hintact⟩ := ih (by omega)
    obtain ⟨t, ht⟩ := exists_probe (L.sock i .sockfd) hphase (clean, none)
    have hnext := (intact_probe hscan.quad hintact ht).2 trivial
    have hrep : List.replicate n ((clean, none) : Probe) ++ [(clean, none)] =
        List.replicate (n + 1) (clean, none) := List.replicate_succ'.symm
    rw [hrep] at hnext
    refine ⟨t, ?_, phase_unanswered hnext ?_ (by simpa using hn), hnext⟩
    · rw [List.replicate_succ', ← List.cons_append, run_append, hrun, Option.bind_some]
      have hact := act_probe (p := ⟨some s, .waiting⟩) rfl ht
      rw [← lone_self (i := i) s] at hact
      refine run_cons_iff.2 ⟨_, step_quiet rfl hact, ?_⟩
      rw [packets_drop (probe_acts ht).2, lone_self, lone_update]
      rfl
    · intro got hgot
      rw [List.eq_of_mem_replicate hgot]

omit [DecidableEq ι] in
theorem act_answer (j : ι) {p : Proc} (hp : p.listener = .waiting) :
    L.network.act j p (.listen (L.request i j).toDatagram clean) = some (p, [L.answer i j]) := by
  have hframe : (L.request i j).payload = ChatDelivery.canLine.frame :=
    ChatDelivery.canLine_frame.symm
  have hcan : authCan <+: ChatDelivery.canLine.text := by decide
  have honce : step (L.cfg j) p (.listen (L.request i j).toDatagram clean) =
      some (p, acceptActs (L.sock j .listenfd) (L.sock i .sockfd)) := by
    rw [step, if_pos hp, onListen_frame _ _ (show clean.Bounded from isolated_nil)
      (by decide) hframe, if_pos hcan]
    rfl
  simp only [Lan.network, honce, Option.map_some, Prod.map, id, packets_acceptActs]
  rfl

/-- A scan that is answered while it probes is over. -/
theorem probe_answer {sock : SockAddr} {s : Scan} {text : Bytes} {addr : InAddr} {first : ℕ}
    {before : List Probe} (hs : Intact sock text addr first before s)
    (hphase : s.phase = .probing) (src : SockAddr) :
    ∃ t, HostScan.probe sock s (clean, some ⟨src, createSendMsgStatic authOfc⟩) = some t ∧
      t.phase = .bound ∧ t.servaddr = src := by
  obtain ⟨t, ht⟩ := exists_probe sock hphase
    (clean, some ⟨src, createSendMsgStatic authOfc⟩)
  have hconfirm : authTryConfirmIterate clean (some ⟨src, createSendMsgStatic authOfc⟩) = true := by
    have hofc : CarriesOfc (createSendMsgStatic authOfc) := by decide
    exact (iterate_cases _ _).2 (.inl hofc)
  have hnew := (probe_intact hs ht).2
  rw [if_pos hconfirm] at hnew
  subst hnew
  exact ⟨_, ht, rfl, rfl⟩

theorem ready_listen (d : Datagram) (mem : Residue) :
    ready (Function.update (fun _ => []) .listenfd [d]) (.listen d mem) = true :=
  decide_eq_true (by rw [Function.update_self]; rfl)

theorem ready_probe (d : Datagram) (mem : Residue) :
    ready (Function.update (fun _ => []) .sockfd [d]) (.probe (mem, some d)) = true :=
  decide_eq_true (by rw [Function.update_self]; rfl)

theorem run_found (hscan : Scannable (L.cfg i) (subnet i) (start i)) {j : ι} {n : ℕ}
    (hn : start i + n ≤ 255) (haddr : (L.cfg j).addr = hostOf (subnet i) (start i + n)) :
    ∃ labels t, run L.network.step L.network.initial labels = some t ∧
      (t.proc i).foundPeer = some (L.sock j .listenfd) := by
  obtain ⟨s, hrun, hphase, hintact⟩ := run_timeouts hscan n hn
  have hrequest : L.request i j ∈ packets s.acts := by
    have hacts := ((intact_probing hphase).1 hintact).2.2.2.2
    rw [List.length_replicate, requests_succ, ← haddr] at hacts
    rw [hacts]
    exact List.mem_append_right _ List.mem_cons_self
  have hlisten : (lone i s j).isOpen .listenfd = true := decide_eq_true (lone_listener s j)
  have hasked := run_exchange hrequest (decide_eq_true ⟨hlisten, rfl⟩) (ready_listen _ clean) rfl
    (act_answer j (lone_listener s j))
  rw [Function.update_eq_self] at hasked
  obtain ⟨t, ht, hbound, hserv⟩ := probe_answer hintact hphase (L.sock j .listenfd)
  have hopen : (lone i s i).isOpen .sockfd = true := by
    rw [lone_self]
    exact decide_eq_true ⟨by simp, by simp [hphase]⟩
  have hact := act_probe (p := lone i s i) (by rw [lone_self]) ht
  have hanswer : L.answer i j ∈ (packets s.acts).erase (L.request i j) ++ [L.answer i j] :=
    List.mem_append_right _ List.mem_cons_self
  have hheard := run_exchange hanswer (decide_eq_true ⟨hopen, rfl⟩) (ready_probe _ clean) rfl hact
  refine ⟨_, _, run_trans hrun (run_trans hasked hheard), ?_⟩
  refine foundPeer_eq_some.2 ⟨t, ?_, hbound, hserv⟩
  simp only [Network.quiet, Function.update_self]

/-- A process of v3 can come to chat with exactly those whose host is not before
    its `start-idx` in its subnet; it may be one of them itself. -/
theorem found_iff (hscan : ∀ i, Scannable (L.cfg i) (subnet i) (start i)) (i : ι)
    (peer : SockAddr) :
    (∃ labels t, run L.network.step L.network.initial labels = some t ∧
      (t.proc i).foundPeer = some peer) ↔
    ∃ j n, start i ≤ n ∧ n ≤ 255 ∧ (L.cfg j).addr = hostOf (subnet i) n ∧
      peer = L.sock j .listenfd := by
  constructor
  · rintro ⟨labels, t, hrun, hpeer⟩
    obtain ⟨s, hs, hbound, rfl⟩ := foundPeer_eq_some.1 hpeer
    obtain ⟨n, hn, _, hphase⟩ := scans_in_order hscan hrun hs
    rw [hbound] at hphase
    obtain ⟨j, k, hk, haddr, hserv⟩ := hphase
    exact ⟨j, start i + k, by omega, by omega, haddr, hserv⟩
  · rintro ⟨j, n, hstart, hn, haddr, rfl⟩
    obtain ⟨k, rfl⟩ := Nat.exists_eq_add_of_le hstart
    exact run_found (hscan i) hn haddr

end Finding

theorem found_iff_pair : ∃ labels t,
    run pair.network.step pair.network.initial labels = some t ∧
    (t.proc false).foundPeer = some (pair.sock true .listenfd) :=
  (found_iff (fun i => pair_scannable i) false _).2
    ⟨true, 2, by decide, by decide, by decide, rfl⟩

end LanChat.IterateFinding

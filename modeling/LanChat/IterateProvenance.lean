import LanChat.IterateNetwork
import LanChat.ChatDelivery

set_option autoImplicit false

/-!
# Who has been asked and heard in v3

What is in flight is a request, something that was said to a peer that had been
found, or an offer of someone that had been asked.
-/
namespace LanChat.IterateProvenance
open CStrings HexText FrameCodec SocketAddresses DatagramReceive TransitionRuns DottedQuads
  ControlCollision OfferReading HostScan FgetsLoops DatagramNetworks IterateNetwork
open ChatProcess hiding Config Proc Event step Turn chatPacket onInput

/-- The arguments with which hosts can be tried. `main` has only asked
    `inet_aton`, and has not looked at the number. -/
structure Scannable (cfg : Config) (subnet : InAddr) (start : ℕ) : Prop where
  quad : inetPton cfg.subnetAddress = some subnet
  startIdx : cfg.startIdx = start
  start_le : start ≤ 255

theorem mem_requests {sock : SockAddr} {addr : InAddr} {start n : ℕ} {p : Packet}
    (h : p ∈ requests sock addr start n) :
    ∃ k < n, p = canPacket sock ⟨hostOf addr (start + k), chatPort⟩ := by
  obtain ⟨k, hk, rfl⟩ := List.mem_map.1 h
  exact ⟨k, List.mem_range.1 hk, rfl⟩

variable {ι : Type*} (L : Lan ι)

/-- `i` has sent a request to `j`. -/
def Asked (proc : ι → Proc) (i j : ι) : Prop :=
  ∃ s, (proc i).scan = some s ∧
    canPacket (L.sock i .sockfd) (L.sock j .listenfd) ∈ packets s.acts

def lineOf (j : ι) (message : Bytes) : ChatLine :=
  ⟨(L.cfg j).userName, cstr message, (L.cfg j).userName_nul, zero_notMem_cstr message⟩

/-- A frame that `j` has sent to `dst`: a request, or something that it has said
    to the peer it has found. -/
inductive From (said : ι → Event → Prop) (proc : ι → Proc) (j : ι) (dst : SockAddr) :
    ChatLine → Prop where
  | request : From said proc j dst ChatDelivery.canLine
  | said {message : Bytes} (h : said j (.input message))
      (hend : isCommand message endSignal = false) (hpeer : (proc j).foundPeer = some dst) :
      From said proc j dst (lineOf L j message)

inductive Legitimate (said : ι → Event → Prop) (proc : ι → Proc) : Packet → Prop where
  | toListener {p : Packet} (j : ι) {c : ChatLine} (hsrc : p.src = L.sock j .sockfd)
      (hport : p.dst.sinPort = chatPort)
      (hasked : ∀ k, p.dst = L.sock k .listenfd → Asked L proc j k)
      (hfrom : From L said proc j p.dst c) (hframe : p.payload = c.frame) :
      Legitimate said proc p
  | offer (i j : ι) (hasked : Asked L proc i j) :
      Legitimate said proc (ofcPacket (L.sock j .listenfd) (L.sock i .sockfd))

def Arrived (said : ι → Event → Prop) (proc : ι → Proc) (i : ι) : Fd → Datagram → Prop
  | .sockfd, d => ∃ j, Asked L proc i j ∧
      d = ⟨L.sock j .listenfd, createSendMsgStatic authOfc⟩
  | .listenfd, d => ∃ j c, d.src = L.sock j .sockfd ∧ Asked L proc j i ∧
      From L said proc j (L.sock i .listenfd) c ∧ d.payload = c.frame
  | .joinfd, _ => False

/-- The scan is intact, and has been ended by someone that was asked. -/
structure Scanned (subnet : ι → InAddr) (start : ι → ℕ) (proc : ι → Proc) (i : ι) (s : Scan) :
    Prop where
  intact : ∃ probes, start i + probes.length ≤ 256 ∧
    Intact (L.sock i .sockfd) (L.cfg i).subnetAddress (subnet i) (start i) probes s
  found : s.phase = .bound → ∃ j, Asked L proc i j ∧ s.servaddr = L.sock j .listenfd

def Scans (subnet : ι → InAddr) (start : ι → ℕ) (proc : ι → Proc) : Prop :=
  ∀ i s, (proc i).scan = some s → Scanned L subnet start proc i s

variable {L} {said : ι → Event → Prop} {subnet : ι → InAddr} {start : ι → ℕ}

theorem sock_injective {i j : ι} {fd fd' : Fd} (h : L.sock i fd = L.sock j fd') : i = j := by
  apply L.addr_injective
  have haddr := congrArg SockAddr.sinAddr h
  cases fd <;> cases fd' <;> exact haddr

/-- The requests of a scan, one for each host from `start` on. -/
theorem intact_requests {sock : SockAddr} {text : Bytes} {addr : InAddr} {first : ℕ}
    {probes : List Probe} {s : Scan} (hlen : first + probes.length ≤ 256)
    (h : Intact sock text addr first probes s) :
    ∃ n, first + n ≤ 256 ∧ packets s.acts = requests sock addr first n := by
  unfold Intact at h
  split at h
  · exact ⟨_, by omega, h.2.2.2.2⟩
  · exact ⟨_, hlen, h.1⟩
  · exact ⟨_, hlen, h.1⟩
  · exact h.elim
  · exact h.elim
  · exact h.elim

theorem Legitimate.arrives {proc : ι → Proc} {i : ι} {p : Packet} {fd : Fd}
    (hp : Legitimate L said proc p)
    (henters : L.network.enters i (proc i) fd p = true) :
    Arrived L said proc i fd p.toDatagram := by
  obtain ⟨hopen, hdst⟩ := of_decide_eq_true henters
  cases fd with
  | sockfd =>
    cases hp with
    | toListener j hsrc hport hasked hfrom hframe =>
      rw [hdst] at hport
      exact absurd hport (L.cfg i).sockport_ne
    | offer k j hasked =>
      have hsock : L.sock k .sockfd = L.sock i .sockfd := hdst
      obtain rfl := sock_injective hsock
      exact ⟨j, hasked, rfl⟩
  | listenfd =>
    cases hp with
    | toListener j hsrc hport hasked hfrom hframe =>
      rw [hdst] at hfrom
      exact ⟨j, _, hsrc, hasked i hdst, hfrom, hframe⟩
    | offer k j hasked =>
      have hport : (L.cfg k).sockport = chatPort := congrArg SockAddr.sinPort hdst
      exact absurd hport (L.cfg k).sockport_ne
  | joinfd => cases hopen

theorem scanned_start {proc : ι → Proc} {i : ι}
    (hscan : Scannable (L.cfg i) (subnet i) (start i)) :
    Scanned L subnet start proc i
      (findPeer (L.cfg i).sockfd (L.cfg i).subnetAddress (L.cfg i).startIdx) := by
  have hle := hscan.start_le
  have hintact : Intact (L.sock i .sockfd) (L.cfg i).subnetAddress (subnet i) (start i) []
      (findPeer (L.cfg i).sockfd (L.cfg i).subnetAddress (L.cfg i).startIdx) := by
    rw [hscan.startIdx]
    exact intact_findPeer hscan.quad hle
  refine ⟨⟨[], by simp only [List.length_nil]; omega, hintact⟩, fun hbound => ?_⟩
  rw [Intact, hbound] at hintact
  obtain ⟨_, mem, d, hlast, _⟩ := hintact
  cases hlast

/-- What stands in the queue of a `sockfd` harms no scan. -/
theorem scanned_probe {proc : ι → Proc} {i : ι}
    (hscan : Scannable (L.cfg i) (subnet i) (start i)) {s t : Scan} {got : Probe}
    (hs : Scanned L subnet start proc i s)
    (hgot : ∀ d, got.2 = some d → Arrived L said proc i .sockfd d)
    (h : HostScan.probe (L.sock i .sockfd) s got = some t) : Scanned L subnet start proc i t := by
  obtain ⟨probes, hlen, hintact⟩ := hs.intact
  have hphase := (probe_acts h).1
  have hharmless : Harmless (start i) probes got := by
    obtain ⟨mem, _ | d⟩ := got
    · trivial
    · obtain ⟨j, _, rfl⟩ := hgot d rfl
      have hofc : CarriesOfc (createSendMsgStatic authOfc) := by decide
      exact ⟨fun hcompleted => not_carriesOfc hcompleted.2.1 hofc, .inl hofc⟩
  have hnext := (intact_probe hscan.quad hintact h).2 hharmless
  rw [intact_probing hphase] at hintact
  have hle := hintact.2.2.1
  refine ⟨⟨probes ++ [got], ?_, hnext⟩, fun hbound => ?_⟩
  · rw [List.length_append, List.length_singleton]
    omega
  · rw [Intact, hbound] at hnext
    obtain ⟨_, mem, d, hlast, _, hserv⟩ := hnext
    rw [List.getLast?_concat, Option.some.injEq] at hlast
    subst hlast
    obtain ⟨j, hasked, hd⟩ := hgot d rfl
    exact ⟨j, hasked, by rw [hserv, hd]⟩

variable [DecidableEq ι]

section Mono

variable {proc : ι → Proc} {i : ι} {e : Event} {p' : Proc} {sent : List Packet}

theorem keeps_update (h : Turn (L.cfg i) (proc i) e p' sent) {j : ι} {s : Scan}
    (hs : (proc j).scan = some s) : ∃ t, (Function.update proc i p' j).scan = some t ∧
      s.acts <+: t.acts ∧ (s.phase = .bound → t = s) := by
  by_cases hj : j = i
  · subst j
    rw [Function.update_self]
    exact h.keeps hs
  · rw [Function.update_of_ne hj]
    exact ⟨s, hs, List.prefix_rfl, fun _ => rfl⟩

theorem Asked.mono (h : Turn (L.cfg i) (proc i) e p' sent) {j k : ι} (hasked : Asked L proc j k) :
    Asked L (Function.update proc i p') j k := by
  obtain ⟨s, hs, hmem⟩ := hasked
  obtain ⟨t, ht, hacts, _⟩ := keeps_update h hs
  exact ⟨t, ht, (hacts.filterMap _).subset hmem⟩

theorem foundPeer_mono (h : Turn (L.cfg i) (proc i) e p' sent) {j : ι} {peer : SockAddr}
    (hpeer : (proc j).foundPeer = some peer) :
    (Function.update proc i p' j).foundPeer = some peer := by
  obtain ⟨s, hs, hbound, hserv⟩ := foundPeer_eq_some.1 hpeer
  obtain ⟨t, ht, _, hsame⟩ := keeps_update h hs
  obtain rfl := hsame hbound
  exact foundPeer_eq_some.2 ⟨t, ht, hbound, hserv⟩

theorem From.mono (h : Turn (L.cfg i) (proc i) e p' sent) {j : ι} {dst : SockAddr} {c : ChatLine}
    (hfrom : From L said proc j dst c) : From L said (Function.update proc i p') j dst c := by
  cases hfrom with
  | request => exact .request
  | said hsaid hend hpeer => exact .said hsaid hend (foundPeer_mono h hpeer)

theorem Legitimate.mono (h : Turn (L.cfg i) (proc i) e p' sent) {p : Packet}
    (hp : Legitimate L said proc p) : Legitimate L said (Function.update proc i p') p := by
  cases hp with
  | toListener j hsrc hport hasked hfrom hframe =>
    exact .toListener j hsrc hport (fun k hk => (hasked k hk).mono h) (hfrom.mono h) hframe
  | offer i j hasked => exact .offer i j (hasked.mono h)

theorem Arrived.mono (h : Turn (L.cfg i) (proc i) e p' sent) {k : ι} {fd : Fd} {d : Datagram}
    (hd : Arrived L said proc k fd d) : Arrived L said (Function.update proc i p') k fd d := by
  cases fd with
  | sockfd =>
    obtain ⟨j, hasked, rfl⟩ := hd
    exact ⟨j, hasked.mono h, rfl⟩
  | listenfd =>
    obtain ⟨j, c, hsrc, hasked, hfrom, hframe⟩ := hd
    exact ⟨j, c, hsrc, hasked.mono h, hfrom.mono h, hframe⟩
  | joinfd => exact hd

end Mono

section Scanning

variable {proc : ι → Proc} {i : ι} {e : Event} {p' : Proc} {sent : List Packet}

theorem Scanned.mono (h : Turn (L.cfg i) (proc i) e p' sent) {j : ι} {s : Scan}
    (hs : Scanned L subnet start proc j s) :
    Scanned L subnet start (Function.update proc i p') j s := by
  refine ⟨hs.intact, fun hbound => ?_⟩
  obtain ⟨k, hasked, hserv⟩ := hs.found hbound
  exact ⟨k, hasked.mono h, hserv⟩

theorem Scans.update (hscans : Scans L subnet start proc) (h : Turn (L.cfg i) (proc i) e p' sent)
    (hnew : ∀ s, p'.scan = some s → Scanned L subnet start (Function.update proc i p') i s) :
    Scans L subnet start (Function.update proc i p') := by
  intro j s hs
  by_cases hj : j = i
  · subst j
    rw [Function.update_self] at hs
    exact hnew s hs
  · rw [Function.update_of_ne hj] at hs
    exact (hscans j s hs).mono h

theorem Scans.same (hscans : Scans L subnet start proc) (h : Turn (L.cfg i) (proc i) e p' sent)
    (hsame : p'.scan = (proc i).scan) : Scans L subnet start (Function.update proc i p') :=
  hscans.update h fun s hs => (hscans i s (hsame.symm.trans hs)).mono h

/-- What goes out of a scan are its own requests. -/
theorem Scanned.legitimate {s : Scan} (hs : Scanned L subnet start (Function.update proc i p') i s)
    (hnew : p'.scan = some s) (hsent : ∀ q ∈ sent, q ∈ packets s.acts) :
    ∀ q ∈ sent, Legitimate L said (Function.update proc i p') q := by
  intro q hq
  obtain ⟨probes, hlen, hintact⟩ := hs.intact
  obtain ⟨n, _, hacts⟩ := intact_requests hlen hintact
  have hmem := hsent q hq
  rw [hacts] at hmem
  obtain ⟨k, _, rfl⟩ := mem_requests hmem
  refine .toListener i rfl rfl (fun j hj => ?_) .request ChatDelivery.canLine_frame.symm
  refine ⟨s, by rw [Function.update_self, hnew], ?_⟩
  rw [← hj]
  exact hsent _ hq

theorem turn_kept (hscan : Scannable (L.cfg i) (subnet i) (start i))
    (hscans : Scans L subnet start proc) {queue : Fd → List Datagram} (hsaid : said i e)
    (hqueue : ∀ fd, ∀ d ∈ queue fd, Arrived L said proc i fd d)
    (hready : ready queue e = true) (h : Turn (L.cfg i) (proc i) e p' sent) :
    Scans L subnet start (Function.update proc i p') ∧
      ∀ q ∈ sent, Legitimate L said (Function.update proc i p') q := by
  have hturn := h
  cases h with
  | start hp hs =>
    subst hs
    refine ⟨hscans.update hturn ?_, (scanned_start hscan).legitimate rfl fun _ hq => hq⟩
    intro s hs
    cases hs
    exact scanned_start hscan
  | @probe got s t hp hprobe =>
    have hnew := (scanned_probe hscan (hscans i s hp) (fun d hd => hqueue .sockfd d ?_)
      hprobe).mono hturn
    · refine ⟨hscans.update hturn ?_, hnew.legitimate rfl fun q hq => ?_⟩
      · intro s hs
        cases hs
        exact hnew
      · exact ((List.drop_suffix _ _).filterMap _).subset hq
    · have hhead : (queue .sockfd).head? = got.2 := of_decide_eq_true hready
      rw [hd] at hhead
      exact List.mem_of_mem_head? hhead
  | @accept d mem hp hok =>
    refine ⟨hscans.same hturn rfl, fun q hq => ?_⟩
    obtain rfl := List.mem_singleton.1 hq
    have hhead : (queue .listenfd).head? = some d := of_decide_eq_true hready
    obtain ⟨j, c, hsrc, hasked, _⟩ := hqueue .listenfd d (List.mem_of_mem_head? hhead)
    rw [hsrc]
    exact .offer j i (hasked.mono hturn)
  | dismiss | leave =>
    exact ⟨hscans.same hturn rfl, fun q hq => absurd hq List.not_mem_nil⟩
  | chat hp hpeer hend =>
    refine ⟨hscans.same hturn rfl, fun q hq => ?_⟩
    obtain rfl := List.mem_singleton.1 hq
    obtain ⟨s, hs, hbound, rfl⟩ := foundPeer_eq_some.1 hpeer
    obtain ⟨j, hasked, hserv⟩ := (hscans i s hs).found hbound
    refine .toListener i rfl (by rw [chatPacket, hserv]; rfl) ?_
      (.said hsaid hend (foundPeer_mono hturn hpeer)) rfl
    intro k hk
    have hsock : L.sock j .listenfd = L.sock k .listenfd := hserv.symm.trans hk
    obtain rfl := sock_injective hsock
    exact hasked.mono hturn

theorem provenance (hscan : ∀ i, Scannable (L.cfg i) (subnet i) (start i)) :
    L.network.Provenance said (Scans L subnet start) (Legitimate L said) (Arrived L said) where
  init i s hs := by cases hs
  act hsaid hscans hqueue hready hact :=
    turn_kept (hscan _) hscans hsaid hqueue hready (turn_of_act hact)
  flight hact hp := hp.mono (turn_of_act hact)
  queue hact hd := hd.mono (turn_of_act hact)
  arrives hp henters := hp.arrives henters

end Scanning

theorem known {labels : List (Label ι Fd Event Packet)} {s : Net ι Fd Proc Datagram Packet}
    (hscan : ∀ i, Scannable (L.cfg i) (subnet i) (start i))
    (hrun : run L.network.step L.network.initial labels = some s) :
    Network.Known (Scans L subnet start) (Legitimate L fun i e => .act i e ∈ labels)
      (Arrived L fun i e => .act i e ∈ labels) s :=
  Network.known_run (provenance hscan) (fun _ _ h => h) hrun

/-- Whatever the network loses, doubles or delays, a scan asks one host after
    the other, each of them once. It ends behind the last one, or with a
    participant at one of the hosts that it has asked. -/
theorem scans_in_order {labels : List (Label ι Fd Event Packet)}
    {t : Net ι Fd Proc Datagram Packet}
    (hscan : ∀ i, Scannable (L.cfg i) (subnet i) (start i))
    (hrun : run L.network.step L.network.initial labels = some t) {i : ι} {s : Scan}
    (hs : (t.proc i).scan = some s) :
    ∃ n, start i + n ≤ 256 ∧
      packets s.acts = requests (L.sock i .sockfd) (subnet i) (start i) n ∧
      match s.phase with
      | .probing => 0 < n
      | .bound => ∃ j, ∃ k < n, (L.cfg j).addr = hostOf (subnet i) (start i + k) ∧
          s.servaddr = L.sock j .listenfd
      | .quit _ => start i + n = 256
      | .sendError | .noDot | .overflow => False := by
  have hscanned := (known hscan hrun).procs i s hs
  obtain ⟨probes, hlen, hintact⟩ := hscanned.intact
  cases hphase : s.phase with
  | probing =>
    rw [intact_probing hphase] at hintact
    exact ⟨probes.length + 1, by have := hintact.2.2.1; omega, hintact.2.2.2.2, Nat.succ_pos _⟩
  | bound =>
    obtain ⟨j, ⟨s', hs', hmem⟩, hserv⟩ := hscanned.found hphase
    rw [Intact, hphase] at hintact
    obtain rfl := Option.some.inj (hs.symm.trans hs')
    rw [hintact.1] at hmem
    obtain ⟨k, hk, heq⟩ := mem_requests hmem
    exact ⟨probes.length, hlen, hintact.1, j, k, hk,
      congrArg (fun p : Packet => p.dst.sinAddr) heq, hserv⟩
  | quit text =>
    rw [Intact, hphase] at hintact
    exact ⟨probes.length, hlen, hintact.1, hintact.2⟩
  | sendError | noDot | overflow =>
    rw [Intact, hphase] at hintact
    exact hintact.elim

theorem pair_scannable (i : Bool) : Scannable (pair.cfg i) ⟨10, 0, 0, 0⟩ 1 := by
  cases i <;> exact ⟨by decide, rfl, by decide⟩

theorem greeting_scans : (run pair.network.step pair.network.initial greeting).any (fun t =>
    (t.proc false).scan.isSome) = true := by
  decide +kernel

theorem scans_in_order_greeting : ∃ t s n,
    run pair.network.step pair.network.initial greeting = some t ∧
    (t.proc false).scan = some s ∧ 1 + n ≤ 256 ∧
    packets s.acts = requests (pair.sock false .sockfd) ⟨10, 0, 0, 0⟩ 1 n := by
  obtain ⟨t, ht, hscan⟩ := (Option.any_eq_true _ _).1 greeting_scans
  obtain ⟨s, hs⟩ := Option.isSome_iff_exists.1 hscan
  obtain ⟨n, hn, hacts, _⟩ := scans_in_order (fun i => pair_scannable i) ht hs
  exact ⟨t, s, n, ht, hs, hn, hacts⟩

def AllFit (L : Lan ι) (labels : List (Label ι Fd Event Packet)) : Prop :=
  ∀ j message, .act j (.input message) ∈ labels →
    lengthField (L.cfg j).userName (cstr message) ≤ 65535

omit [DecidableEq ι] in
theorem From.fits {labels : List (Label ι Fd Event Packet)} (hfit : AllFit L labels)
    {proc : ι → Proc} {j : ι} {dst : SockAddr} {c : ChatLine}
    (h : From L (fun i e => .act i e ∈ labels) proc j dst c) : c.Fits := by
  cases h with
  | request => decide
  | said h hend hpeer => exact hfit j _ h

/-- What a child does with a frame. -/
theorem onListen_frame (cfg : Config) (p : Proc) {mem : Residue} {d : Datagram} {c : ChatLine}
    (hmem : mem.Bounded) (hfits : c.Fits) (hframe : d.payload = c.frame) :
    onListen cfg p mem d = (p, if authCan <+: c.text then acceptActs cfg.listenfd d.src
      else [ChatDelivery.printLine c.text]) := by
  have hreceive := ChatDelivery.receive_line (r := .v3) hmem hfits hframe rfl
  rw [onListen, listenerTurn, hreceive, reactionTo]
  split_ifs <;> rfl

/-- A child goes on listening, and prints a text of the code's own or, on a line
    of its own, what someone has typed that has found it. -/
theorem heard_from_finder {labels : List (Label ι Fd Event Packet)}
    {t : Net ι Fd Proc Datagram Packet}
    (hscan : ∀ i, Scannable (L.cfg i) (subnet i) (start i))
    (hrun : run L.network.step L.network.initial labels = some t) (hfit : AllFit L labels)
    {i : ι} {d : Datagram} {mem : Residue} (hmem : mem.Bounded)
    (hready : ready (t.queue i) (.listen d mem) = true) {q : Proc × List Act}
    (hstep : step (L.cfg i) (t.proc i) (.listen d mem) = some q) :
    q.1 = t.proc i ∧ ∀ text, ChatDelivery.printLine text ∈ q.2 →
      text ∈ ChatDelivery.statusTexts ∨
      ∃ j message, .act j (.input message) ∈ labels ∧
        isCommand message endSignal = false ∧
        (t.proc j).foundPeer = some (L.sock i .listenfd) ∧
        text = shown (L.cfg j).userName (chomp (cstr message)) := by
  have hd : d ∈ t.queue i .listenfd := List.mem_of_mem_head? (of_decide_eq_true hready)
  obtain ⟨j, c, hsrc, _, hfrom, hframe⟩ := (known hscan hrun).queue i .listenfd d hd
  simp only [step] at hstep
  split_ifs at hstep
  obtain rfl := Option.some.inj hstep
  rw [onListen_frame _ _ hmem (hfrom.fits hfit) hframe]
  refine ⟨rfl, fun text hprint => ?_⟩
  dsimp only at hprint
  split_ifs at hprint with hcan
  · exact .inl (ChatDelivery.mem_acceptActs hprint)
  · obtain rfl := ChatDelivery.printLine_injective.1 (List.mem_singleton.1 hprint)
    cases hfrom with
    | request => exact absurd (by decide) hcan
    | said h hend hpeer => exact .inr ⟨j, _, h, hend, hpeer, rfl⟩

theorem greeting_fits : AllFit pair greeting := by
  intro j message h
  simp only [greeting, List.mem_cons, Label.act.injEq, reduceCtorEq, and_false, List.not_mem_nil,
    or_false, false_or, IterateNetwork.Event.input.injEq] at h
  obtain ⟨rfl, rfl⟩ := h
  decide

theorem greeting_arrives : (run pair.network.step pair.network.initial greeting).any (fun t =>
    ready (t.queue true) (.listen hello.toDatagram clean) ∧
    (step (pair.cfg true) (t.proc true) (.listen hello.toDatagram clean)).any (fun q =>
      ChatDelivery.printLine (ascii "eve: hello") ∈ q.2)) = true := by
  decide +kernel

theorem heard_from_finder_greeting : ∃ j message, .act j (.input message) ∈ greeting ∧
    ascii "eve: hello" = shown (pair.cfg j).userName (chomp (cstr message)) := by
  obtain ⟨t, ht, hview⟩ := (Option.any_eq_true _ _).1 greeting_arrives
  obtain ⟨hready, hprints⟩ := of_decide_eq_true hview
  obtain ⟨q, hq, hprint⟩ := (Option.any_eq_true _ _).1 hprints
  obtain ⟨_, htexts⟩ := heard_from_finder (fun i => pair_scannable i) ht greeting_fits
    (show clean.Bounded from isolated_nil) hready hq
  rcases htexts _ (of_decide_eq_true hprint) with h | ⟨j, message, hmem, _, _, htext⟩
  · exact absurd h (by decide)
  · exact ⟨j, message, hmem, htext⟩

end LanChat.IterateProvenance

import LanChat.DottedQuads
import LanChat.OfferReading

set_option autoImplicit false

/-!
# The host scan of `find_peer` in v3

One `sockaddr_in` is where every probe is sent and takes the source of every
datagram that is received. Only its address is written afresh.
-/
namespace LanChat.HostScan
open CStrings HexText FrameCodec SocketAddresses DatagramReceive TransitionRuns ChatProcess
  DottedQuads OfferReading

/-- What `%d` prints of an `int`. -/
def intText (i : ℤ) : Bytes := (if i < 0 then ascii "-" else []) ++ numeral 10 i.natAbs

/-- `quit` is a call of `err_quit` and `sendError` the `err_sys` of `Sendto`;
    `noDot` and `overflow` are the undefined writes through a null pointer and past
    the greatest `int`. -/
inductive ScanPhase where
  | probing
  | bound
  | quit (text : Bytes)
  | sendError
  | noDot
  | overflow
  deriving DecidableEq, Repr

structure Scan where
  subnetAddress : Bytes
  i : ℤ
  servaddr : SockAddr
  phase : ScanPhase
  acts : List Act
  deriving DecidableEq, Repr

/-- What one call of `auth_try_confirm` finds; `none` is the timeout. -/
abbrev Probe := Residue × Option Datagram

/-- What the scan gets from outside: the addresses that `inet_pton` reads, and
    those to which `sendto` sends. The socket has no `SO_BROADCAST`, so that a
    broadcast address is none of these. -/
structure Platform where
  inetPton : Bytes → Option InAddr
  sends : InAddr → Bool

/-- The text that is tried, and the socket address if `Inet_pton` takes it. -/
def updateTryAddress (sys : Platform) (subnetAddress : Bytes) (host : ℤ) (servaddr : SockAddr) :
    Bytes × Option SockAddr :=
  let tryAddress := snprintf (subnetAddress.length + 4) (subnetAddress ++ intText host)
  (tryAddress, (sys.inetPton tryAddress).map fun addr => { servaddr with sinAddr := addr })

/-- The loop body as far as the wait for an answer. -/
def tryHostOn (sys : Platform) (sock : SockAddr) (s : Scan) : Scan :=
  match updateTryAddress sys s.subnetAddress s.i s.servaddr with
  | (tryAddress, none) => { s with phase := .quit (ascii "inet_pton error for " ++ tryAddress) }
  | (tryAddress, some servaddr) =>
    let trying := s.acts ++ [.printf (ascii "Trying " ++ tryAddress ++ ascii "\n")]
    if sys.sends servaddr.sinAddr then
      { s with
        servaddr := servaddr
        acts := trying ++ [authRequest sock servaddr, .printf (ascii "Sent auth request\n")] }
    else
      { s with
        servaddr := servaddr
        phase := .sendError
        acts := trying ++ [.errSys (ascii "sendto error")] }

/-- The rest of the loop body, and the next one up to its wait. -/
def probeOn (sys : Platform) (sock : SockAddr) (s : Scan) (got : Probe) : Option Scan :=
  match s.phase with
  | .probing =>
    let servaddr := (got.2.map Datagram.src).getD s.servaddr
    if s.i = 2 ^ 31 - 1 then some { s with servaddr := servaddr, phase := .overflow }
    else if authTryConfirmIterate got.1 got.2 then
      some { s with
        i := s.i + 1
        servaddr := servaddr
        phase := .bound
        acts := s.acts ++ [.printf (ascii "Bound!\n")] }
    else some (tryHostOn sys sock { s with i := s.i + 1, servaddr := servaddr })
  | _ => none

def findPeerOn (sys : Platform) (sock : SockAddr) (subnetAddress : Bytes) (startIdx : ℤ) : Scan :=
  match throughLastDot subnetAddress with
  | none => ⟨subnetAddress, startIdx, ⟨⟨0, 0, 0, 0⟩, chatPort⟩, .noDot, []⟩
  | some net => tryHostOn sys sock ⟨net, startIdx, ⟨⟨0, 0, 0, 0⟩, chatPort⟩, .probing, []⟩

/-- Every `sendto` sends, and `inet_pton` is that of `libfree`. -/
def plain : Platform := ⟨inetPton, fun _ => true⟩

def tryHost (sock : SockAddr) (s : Scan) : Scan := tryHostOn plain sock s
def probe (sock : SockAddr) (s : Scan) (got : Probe) : Option Scan := probeOn plain sock s got

def findPeer (sock : SockAddr) (subnetAddress : Bytes) (startIdx : ℤ) : Scan :=
  findPeerOn plain sock subnetAddress startIdx

/-- The host of the subnet with this number. -/
def hostOf (addr : InAddr) (n : ℕ) : InAddr := { addr with d := UInt8.ofNat n }

/-- The requests to this many hosts from `start` on. -/
def requests (sock : SockAddr) (addr : InAddr) (start n : ℕ) : List Packet :=
  (List.range n).map fun j => canPacket sock ⟨hostOf addr (start + j), chatPort⟩

/-- Every probe has gone to its host, and only an offer or the end of the subnet
    has ended the scan. -/
def Intact (sock : SockAddr) (subnetAddress : Bytes) (addr : InAddr) (start : ℕ)
    (probes : List Probe) (s : Scan) : Prop :=
  match s.phase with
  | .probing => throughLastDot subnetAddress = some s.subnetAddress ∧
      s.i = start + probes.length ∧ start + probes.length ≤ 255 ∧
      s.servaddr = ⟨hostOf addr (start + probes.length), chatPort⟩ ∧
      packets s.acts = requests sock addr start (probes.length + 1)
  | .bound => packets s.acts = requests sock addr start probes.length ∧
      ∃ mem d, probes.getLast? = some (mem, some d) ∧ CarriesOfc d.payload ∧ s.servaddr = d.src
  | .quit _ => packets s.acts = requests sock addr start probes.length ∧
      start + probes.length = 256
  | .sendError | .noDot | .overflow => False

/-- A datagram that offers nothing comes from `CHAT_PORT` or in answer to the
    last probe, and nothing in the array makes it an offer. -/
def Harmless (start : ℕ) (before : List Probe) : Probe → Prop
  | (_, none) => True
  | (mem, some d) => ¬ (d.payload ≠ [] ∧ CompletedBy mem.msg d.payload) ∧
      (CarriesOfc d.payload ∨ d.src.sinPort = chatPort ∨ start + before.length = 255)

theorem tryHost_eq (sock : SockAddr) (s : Scan) : tryHost sock s =
    match updateTryAddress plain s.subnetAddress s.i s.servaddr with
    | (tryAddress, none) => { s with phase := .quit (ascii "inet_pton error for " ++ tryAddress) }
    | (tryAddress, some servaddr) =>
      { s with
        servaddr := servaddr
        acts := s.acts ++ [.printf (ascii "Trying " ++ tryAddress ++ ascii "\n"),
          authRequest sock servaddr, .printf (ascii "Sent auth request\n")] } := by
  rw [tryHost, tryHostOn]
  split
  · rfl
  · simp [plain]

theorem numeral_length_three {n : ℕ} (h : n < 1000) : (numeral 10 n).length ≤ 3 := by
  rw [numeral_eq (by decide)]
  split_ifs
  · simp
  · rw [numeral_eq (by decide)]
    split_ifs
    · simp
    · rw [numeral_eq (by decide), if_pos (by omega)]
      simp

theorem snprintf_host (net : Bytes) {n : ℕ} (h : n < 1000) :
    snprintf (net.length + 4) (net ++ intText n) = net ++ numeral 10 n := by
  have hthree := numeral_length_three h
  have htext : intText n = numeral 10 n := by simp [intText]
  rw [htext]
  apply snprintf_fits
  rw [List.length_append]
  omega

section Hosts

variable {sock : SockAddr} {subnetAddress : Bytes} {addr : InAddr}

theorem tryHost_of_le (sock : SockAddr) (s : Scan) {n : ℕ}
    (hquad : inetPton subnetAddress = some addr)
    (hnet : throughLastDot subnetAddress = some s.subnetAddress) (hi : s.i = n) (hn : n ≤ 255) :
    let t := tryHost sock s
    t.subnetAddress = s.subnetAddress ∧ t.i = n ∧ t.phase = s.phase ∧
      t.servaddr = ⟨hostOf addr n, s.servaddr.sinPort⟩ ∧
      packets t.acts = packets s.acts ++ [canPacket sock ⟨hostOf addr n, s.servaddr.sinPort⟩] := by
  obtain ⟨net, hcut, hhost⟩ := inetPton_host hquad
  rw [hnet] at hcut
  cases hcut
  simp only [tryHost_eq, updateTryAddress, plain, hi, snprintf_host s.subnetAddress (by omega : n < 1000),
    hhost, if_pos hn, Option.map_some, true_and]
  exact ⟨rfl, packets_append _ _⟩

theorem tryHost_end (sock : SockAddr) (s : Scan) (hquad : inetPton subnetAddress = some addr)
    (hnet : throughLastDot subnetAddress = some s.subnetAddress) (hi : s.i = (256 : ℕ)) :
    ∃ text, tryHost sock s = { s with phase := .quit text } := by
  obtain ⟨net, hcut, hhost⟩ := inetPton_host hquad
  rw [hnet] at hcut
  cases hcut
  simp only [tryHost_eq, updateTryAddress, plain, hi, snprintf_host s.subnetAddress (by omega : 256 < 1000),
    hhost]
  exact ⟨_, rfl⟩

theorem requests_succ (start n : ℕ) : requests sock addr start (n + 1) =
    requests sock addr start n ++ [canPacket sock ⟨hostOf addr (start + n), chatPort⟩] := by
  rw [requests, List.range_succ, List.map_append]
  rfl

theorem intact_findPeer {start : ℕ} (hquad : inetPton subnetAddress = some addr)
    (hstart : start ≤ 255) :
    Intact sock subnetAddress addr start [] (findPeer sock subnetAddress start) := by
  obtain ⟨net, hcut, _⟩ := inetPton_host hquad
  obtain ⟨hsame, hi, hphase, hserv, hacts⟩ :=
    tryHost_of_le sock ⟨net, start, ⟨⟨0, 0, 0, 0⟩, chatPort⟩, .probing, []⟩ hquad hcut rfl hstart
  rw [findPeer, findPeerOn, hcut]
  change Intact _ _ _ _ _ (tryHost sock _)
  rw [Intact, hphase]
  exact ⟨hcut.trans (congrArg some hsame.symm), hi, hstart, hserv, hacts⟩

variable {start : ℕ} {before : List Probe} {s t : Scan}

theorem intact_probing (hphase : s.phase = .probing) :
    Intact sock subnetAddress addr start before s ↔
      throughLastDot subnetAddress = some s.subnetAddress ∧
      s.i = start + before.length ∧ start + before.length ≤ 255 ∧
      s.servaddr = ⟨hostOf addr (start + before.length), chatPort⟩ ∧
      packets s.acts = requests sock addr start (before.length + 1) := by
  rw [Intact, hphase]

theorem probe_intact {got : Probe} (hs : Intact sock subnetAddress addr start before s)
    (h : probe sock s got = some t) :
    s.phase = .probing ∧ t = if authTryConfirmIterate got.1 got.2 then
      { s with
        i := s.i + 1
        servaddr := (got.2.map Datagram.src).getD s.servaddr
        phase := .bound
        acts := s.acts ++ [.printf (ascii "Bound!\n")] }
    else tryHost sock { s with
      i := s.i + 1
      servaddr := (got.2.map Datagram.src).getD s.servaddr } := by
  unfold probe probeOn at h
  split at h
  · rename_i hphase
    rw [intact_probing hphase] at hs
    have hsmall : s.i ≠ 2 ^ 31 - 1 := by
      rw [hs.2.1]
      have hle := hs.2.2.1
      omega
    rw [if_neg hsmall] at h
    refine ⟨hphase, ?_⟩
    split_ifs at h with hc <;> cases h
    · rw [if_pos hc]
    · rw [if_neg hc]
      rfl
  · cases h

theorem intact_tryHost {got : Probe} {servaddr : SockAddr}
    (hquad : inetPton subnetAddress = some addr)
    (hs : Intact sock subnetAddress addr start before s) (hphase : s.phase = .probing) :
    Intact sock subnetAddress addr start (before ++ [got])
        (tryHost sock { s with i := s.i + 1, servaddr := servaddr }) ↔
      servaddr.sinPort = chatPort ∨ start + before.length = 255 := by
  rw [intact_probing hphase] at hs
  obtain ⟨hnet, hi, hle, _, hacts⟩ := hs
  by_cases hlast : start + before.length = 255
  · obtain ⟨text, hend⟩ := tryHost_end sock { s with i := s.i + 1, servaddr := servaddr } hquad
      hnet (by dsimp only; omega)
    rw [hend]
    refine iff_of_true ⟨?_, ?_⟩ (.inr hlast)
    · rw [List.length_append, List.length_singleton]
      exact hacts
    · rw [List.length_append, List.length_singleton]
      omega
  · have hnext : s.i + 1 = ((start + (before.length + 1) : ℕ) : ℤ) := by
      push_cast
      omega
    obtain ⟨hsame, hi', hphase', hserv, hacts'⟩ := tryHost_of_le sock
      { s with i := s.i + 1, servaddr := servaddr } hquad hnet hnext (by omega)
    have hlen : (before ++ [got]).length = before.length + 1 := by simp
    rw [intact_probing (hphase'.trans hphase), hsame, hi', hserv, hacts', hlen]
    constructor
    · rintro ⟨_, _, _, heq, _⟩
      exact .inl (congrArg SockAddr.sinPort heq)
    · rintro (hport | hno)
      · refine ⟨hnet, by push_cast; rfl, by omega, by rw [hport], ?_⟩
        rw [requests_succ _ (before.length + 1), hport]
        exact congrArg (· ++ _) hacts
      · exact absurd hno hlast

/-- Where the scan is intact, it stays so exactly through a harmless outcome. -/
theorem intact_probe {got : Probe} (hquad : inetPton subnetAddress = some addr)
    (hs : Intact sock subnetAddress addr start before s) (h : probe sock s got = some t) :
    Intact sock subnetAddress addr start (before ++ [got]) t ↔ Harmless start before got := by
  obtain ⟨hphase, rfl⟩ := probe_intact hs h
  obtain ⟨mem, answer⟩ := got
  cases answer with
  | none =>
    have hport : s.servaddr.sinPort = chatPort := by
      rw [intact_probing hphase] at hs
      rw [hs.2.2.2.1]
    rw [authTryConfirmIterate, if_neg (by decide)]
    exact iff_of_true ((intact_tryHost hquad hs hphase).2 (.inl hport)) trivial
  | some d =>
    have hcases := iterate_cases mem d
    by_cases hc : authTryConfirmIterate mem (some d) = true
    · rw [intact_probing hphase] at hs
      have hlen : (before ++ [(mem, some d)]).length = before.length + 1 := by simp
      rw [if_pos hc, Harmless, Intact, hlen]
      constructor
      · rintro ⟨_, mem', d', hlast, hofc, _⟩
        rw [List.getLast?_concat] at hlast
        cases hlast
        exact ⟨fun hcompleted => not_carriesOfc hcompleted.2.1 hofc, .inl hofc⟩
      · rintro ⟨hfree, _⟩
        have hofc := (hcases.1 hc).resolve_right hfree
        refine ⟨?_, mem, d, List.getLast?_concat, hofc, rfl⟩
        rw [packets_append, packets_printf, List.append_nil]
        exact hs.2.2.2.2
    · have hneither := not_or.1 fun h => hc (hcases.2 h)
      rw [if_neg hc, intact_tryHost hquad hs hphase, Harmless, and_iff_right hneither.2,
        or_iff_right hneither.1]
      rfl

end Hosts

/-- In the scan of a subnet every request goes to its host on `CHAT_PORT`, and
    what is found is the source of an offer, exactly when every outcome up to
    there is harmless. -/
theorem scan_intact_iff (sock : SockAddr) (subnetAddress : Bytes) (addr : InAddr) (start : ℕ)
    (probes : List Probe) (hquad : inetPton subnetAddress = some addr) (hstart : start ≤ 255) :
    AlongHistory (probe sock) (Intact sock subnetAddress addr start)
        (findPeer sock subnetAddress start) probes ↔
      GuardedHistory (probe sock) (fun before _ got => Harmless start before got)
        (findPeer sock subnetAddress start) probes :=
  alongHistory_iff_guarded (intact_findPeer hquad hstart)
    fun _ _ _ _ _ _ hs h => intact_probe hquad hs h

/-- Nobody answers for a second, and then the next host does. -/
def quiet : List Probe :=
  [(clean, none), (clean, some ⟨(host 2).sock .listenfd, createSendMsgStatic authOfc⟩)]

theorem scan_intact_quiet : AlongHistory (probe ((host 1).sock .sockfd))
    (Intact ((host 1).sock .sockfd) (ascii "10.0.0.0") ⟨10, 0, 0, 0⟩ 1)
    (findPeer ((host 1).sock .sockfd) (ascii "10.0.0.0") (1 : ℕ)) quiet := by
  apply (scan_intact_iff _ (ascii "10.0.0.0") _ 1 quiet (by decide) (by decide)).2
  intro before got s t hbefore _ _
  have hgot : got ∈ quiet := hbefore.subset (by simp)
  simp only [quiet, List.mem_cons, List.not_mem_nil, or_false] at hgot
  rcases hgot with rfl | rfl
  · trivial
  · exact ⟨by decide, .inl (by decide)⟩

/-- After a datagram that offers nothing the next request goes to its port. -/
theorem stray_moves_probe :
    (run (probe ((host 1).sock .sockfd))
        (findPeer ((host 1).sock .sockfd) (ascii "10.0.0.0") (1 : ℕ))
        [(clean, some (stray "hello"))]).map (fun s => packets s.acts) =
      some [canPacket ((host 1).sock .sockfd) ⟨⟨10, 0, 0, 1⟩, chatPort⟩,
        canPacket ((host 1).sock .sockfd) ⟨⟨10, 0, 0, 2⟩, 5353⟩] ∧
    ¬ AlongHistory (probe ((host 1).sock .sockfd))
      (Intact ((host 1).sock .sockfd) (ascii "10.0.0.0") ⟨10, 0, 0, 0⟩ 1)
      (findPeer ((host 1).sock .sockfd) (ascii "10.0.0.0") (1 : ℕ))
      [(clean, some (stray "hello"))] := by
  refine ⟨by decide, fun h => ?_⟩
  have hs := h [(clean, some (stray "hello"))] _ List.prefix_rfl rfl
  exact absurd hs.2.2.2.1 (by decide)

end LanChat.HostScan

import LanChat.DatagramReceive
import LanChat.TransitionRuns

set_option autoImplicit false

/-!
# One process of `lan_chat-v4` or `lan_chat-v5`

A process discovers its peers, and then serves its sockets and its standard
input in one loop. Each event is one return from a call that waits.
-/
namespace LanChat.ChatProcess
open CStrings HexText FrameCodec SocketAddresses DatagramReceive TransitionRuns

inductive Version where
  | v4
  | v5
  deriving DecidableEq, Repr

inductive Fd where
  | sockfd
  | listenfd
  | joinfd
  deriving DecidableEq, Repr

structure Packet extends Datagram where
  dst : SockAddr
  deriving DecidableEq, Repr

inductive Act where
  | sendto (p : Packet)
  | printf (text : Bytes)
  | errSys (text : Bytes)
  deriving DecidableEq, Repr

def Act.packet? : Act → Option Packet
  | .sendto p => some p
  | _ => none

def packets (acts : List Act) : List Packet := acts.filterMap Act.packet?

def ofcPacket (sock peeraddr : SockAddr) : Packet :=
  ⟨⟨sock, createSendMsgStatic authOfc⟩, peeraddr⟩

def canPacket (sock servaddr : SockAddr) : Packet :=
  ⟨⟨sock, createSendMsgStatic authCan⟩, servaddr⟩

def authAccept (sock peeraddr : SockAddr) : Act := .sendto (ofcPacket sock peeraddr)

def authRequest (sock servaddr : SockAddr) : Act := .sendto (canPacket sock servaddr)

/-- The body is compared where it would stand, however short the datagram. -/
def authTryConfirm (mem : Residue) (d : Datagram) : Bool :=
  let msg := blit (d.payload.take (4 + authOfc.length + 1)) mem.msg
  strncmp (msg.drop 4) authOfc authOfc.length == 0

/-- What `main` has admitted, and what the host provides. `group` is the
    broadcast or multicast address, `rset` the members below `sockfd` that
    `find_peer` finds in its `fd_set`. A process that shared `CHAT_PORT` with its
    own `sockfd` could not bind its listener. -/
structure Config where
  addr : InAddr
  sockport : UInt16
  group : InAddr
  userName : Bytes
  bindAddr : Bytes
  rset : List ℕ
  sockport_ne : sockport ≠ chatPort
  userName_length : userName.length ≤ 10
  userName_nul : 0 ∉ userName
  bindAddr_nul : 0 ∉ bindAddr

def Config.sock (cfg : Config) : Fd → SockAddr
  | .sockfd => ⟨cfg.addr, cfg.sockport⟩
  | .listenfd | .joinfd => ⟨cfg.addr, chatPort⟩

def Config.groupAddr (cfg : Config) : SockAddr := ⟨cfg.group, chatPort⟩

def maxPeers : ℕ := 255

def cmdEnd : Bytes := ascii "am-end"
def cmdFind : Bytes := ascii "am-find"

inductive ErrSys where
  | pselectReturned (n : ℕ)
  | authTryConfirm
  | rcvfrom
  deriving DecidableEq, Repr

def ErrSys.text : ErrSys → Bytes
  | .pselectReturned n => ascii "pselect error: returned " ++ numeral 10 n ++ ascii "\n"
  | .authTryConfirm => ascii "auth_try_confirm error"
  | .rcvfrom => ascii "rcvfrom error"

inductive Undefined where
  | block (f : Fault)
  | peersStore (i : ℕ)
  deriving DecidableEq, Repr

/-- Where a process waits, or how it has ended. `finding` and `offered` are in
    `find_peer`, before `pselect` and before `Recvfrom`; `selecting` and
    `confirming` are in `message_loop`, the latter in the `Recvfrom` of `am-find`. -/
inductive Phase where
  | idle
  | finding (rset : List ℕ)
  | offered (rset : List ℕ)
  | selecting
  | confirming
  | left
  | failed (e : ErrSys)
  | undefined (u : Undefined)
  deriving DecidableEq, Repr

structure Proc where
  phase : Phase
  peers : List SockAddr
  deriving DecidableEq, Repr

def Proc.init : Proc := ⟨.idle, []⟩

inductive Event where
  | start
  | pselect (ready : List ℕ) (sock : Bool)
  | alarm
  | recv (fd : Fd) (d : Datagram) (mem : Residue)
  | input (buffer : Bytes)
  | eof

/-- `peers[peer_count++] = addr`. -/
def addPeer (p : Proc) (addr : SockAddr) (next : Phase) : Proc where
  phase := if p.peers.length < maxPeers then next else .undefined (.peersStore p.peers.length)
  peers := p.peers ++ [addr]

def fail (p : Proc) (e : ErrSys) : Proc × List Act :=
  ({ p with phase := .failed e }, [.errSys e.text])

/-- Who calls `recv_message` on a descriptor. -/
def Version.receiver (v : Version) (cfg : Config) : Fd → Option Receiver
  | .sockfd => none
  | .listenfd => match v with
    | .v4 => some (.v4 cfg.bindAddr)
    | .v5 => some .v5Listen
  | .joinfd => match v with
    | .v4 => none
    | .v5 => some .v5Join

/-- What is printed of a datagram on `listenfd` before its body is looked at. -/
def announce (r : Receiver) (peeraddr : SockAddr) : List Act :=
  match r with
  | .v3 | .v5Join => []
  | .v4 _ | .v5Listen =>
    .printf (ascii "Has data\n") ::
      if r.passes peeraddr then [.printf (ascii "Received data\n")] else []

def acceptActs (sock peeraddr : SockAddr) : List Act :=
  [.printf (ascii "Received AUTH_CAN\n"), authAccept sock peeraddr,
    .printf (ascii "Sent auth accept\n")]

/-- One turn of the loop in `listener_task` of v3. -/
def listenerTurn (sock : SockAddr) (mem : Residue) (d : Datagram) : Except Fault (List Act) :=
  (receive .v3 mem d).map fun
    | .accept => acceptActs sock d.src
    | .print text => [.printf (text ++ ascii "\n")]
    | .ignore => []

def onMessage (sock : SockAddr) (p : Proc) (r : Receiver) (mem : Residue) (d : Datagram) :
    Proc × List Act :=
  match receive r mem d with
  | .error f => ({ p with phase := .undefined (.block f) }, [])
  | .ok .accept =>
    (addPeer p { d.src with sinPort := chatPort } .selecting,
      announce r d.src ++ acceptActs sock d.src)
  | .ok (.print text) => (p, announce r d.src ++ [.printf (text ++ ascii "\n")])
  | .ok .ignore => (p, announce r d.src)

def isCommand (message cmd : Bytes) : Bool := strncmp message cmd cmd.length == 0

def chatPacket (cfg : Config) (toSend : Bytes) (peer : SockAddr) : Packet :=
  ⟨⟨cfg.sock .sockfd, toSend⟩, peer⟩

def fanOut (cfg : Config) (peers : List SockAddr) (toSend : Bytes) : List Act :=
  peers.flatMap fun peer =>
    [.printf (ascii "Sending to " ++ sockNtop peer ++ ascii "\n"),
      .sendto (chatPacket cfg toSend peer)]

def onInput (cfg : Config) (p : Proc) (message : Bytes) : Proc × List Act :=
  if isCommand message cmdEnd then ({ p with phase := .left }, [])
  else if isCommand message cmdFind then
    ({ p with phase := .confirming }, [authRequest (cfg.sock .sockfd) cfg.groupAddr])
  else (p, fanOut cfg p.peers (createSendMsg (cstr message) cfg.userName))

def onAlarm (p : Proc) : Proc × List Act :=
  ({ p with phase := .selecting },
    if 0 < p.peers.length then
      [.printf (ascii "Found " ++ numeral 10 p.peers.length ++ ascii " peers\n")]
    else [.printf (ascii "No one found\n")])

/-- `pselect` leaves what is ready in the set that it was given. -/
def onPselect (p : Proc) (ready : List ℕ) (sock : Bool) : Proc × List Act :=
  let n := ready.length + sock.toNat
  if n ≠ 1 then fail p (.pselectReturned n) else ({ p with phase := .offered ready }, [])

/-- The next wait of the process; `none` where the event cannot come. -/
def step (v : Version) (cfg : Config) (p : Proc) : Event → Option (Proc × List Act)
  | .start => match p.phase with
    | .idle => some ({ p with phase := .finding cfg.rset },
        [authRequest (cfg.sock .sockfd) cfg.groupAddr])
    | _ => none
  | .pselect ready sock => match p.phase with
    | .finding rset =>
      if ready.Sublist rset ∧ 0 < ready.length + sock.toNat then some (onPselect p ready sock)
      else none
    | _ => none
  | .alarm => match p.phase with
    | .finding _ => some (onAlarm p)
    | _ => none
  | .recv .sockfd d mem => match p.phase with
    | .offered rset =>
      some (if authTryConfirm mem d then (addPeer p d.src (.finding rset), [])
        else fail p .authTryConfirm)
    | .confirming =>
      some (if authTryConfirm mem d then (addPeer p d.src .selecting, []) else fail p .rcvfrom)
    | _ => none
  | .recv fd d mem => match p.phase with
    | .selecting => (v.receiver cfg fd).map fun r => onMessage (cfg.sock fd) p r mem d
    | _ => none
  | .input message => match p.phase with
    | .selecting => some (onInput cfg p message)
    | _ => none
  | .eof => match p.phase with
    | .selecting => some (p, [])
    | _ => none

/-- The address that an event puts into the table. -/
def handshake (v : Version) (cfg : Config) : Event → Option SockAddr
  | .recv .sockfd d mem => if authTryConfirm mem d then some d.src else none
  | .recv fd d mem => (v.receiver cfg fd).bind fun r =>
    if receive r mem d = .ok .accept then some { d.src with sinPort := chatPort } else none
  | _ => none

theorem authTryConfirm_iff (mem : Residue) (d : Datagram) : authTryConfirm mem d = true ↔
    authOfc <+: (blit (d.payload.take (4 + authOfc.length + 1)) mem.msg).drop 4 := by
  have hnul : 0 ∉ authOfc := by decide
  rw [authTryConfirm, beq_iff_eq]
  exact strncmp_eq_zero_iff _ authOfc hnul

theorem authTryConfirm_ofc (mem : Residue) (sock : SockAddr) :
    authTryConfirm mem ⟨sock, createSendMsgStatic authOfc⟩ = true := by
  rw [authTryConfirm_iff, createSendMsgStatic_authOfc]
  exact ⟨mem.msg.drop 13, rfl⟩

@[simp] theorem packets_nil : packets [] = [] := rfl

theorem packets_append (acts acts' : List Act) :
    packets (acts ++ acts') = packets acts ++ packets acts' := List.filterMap_append

@[simp] theorem packets_errSys (text : Bytes) : packets [.errSys text] = [] := rfl

@[simp] theorem packets_printf (text : Bytes) : packets [.printf text] = [] := rfl

@[simp] theorem packets_authRequest (sock servaddr : SockAddr) :
    packets [authRequest sock servaddr] = [canPacket sock servaddr] := rfl

@[simp] theorem packets_acceptActs (sock peeraddr : SockAddr) :
    packets (acceptActs sock peeraddr) = [ofcPacket sock peeraddr] := rfl

@[simp] theorem packets_announce (r : Receiver) (peeraddr : SockAddr) :
    packets (announce r peeraddr) = [] := by
  cases r with
  | v3 | v5Join => rfl
  | v4 | v5Listen =>
    simp only [announce]
    split_ifs <;> rfl

theorem packets_fanOut (cfg : Config) (peers : List SockAddr) (toSend : Bytes) :
    packets (fanOut cfg peers toSend) = peers.map (chatPacket cfg toSend) := by
  induction peers with
  | nil => rfl
  | cons peer peers ih =>
    rw [fanOut, List.flatMap_cons, packets_append, ← fanOut, ih]
    rfl

theorem packets_onAlarm (p : Proc) : packets (onAlarm p).2 = [] := by
  simp only [onAlarm]
  split_ifs <;> rfl

/-- Everything that an event can do to a process, and what is sent by it. -/
inductive Turn (v : Version) (cfg : Config) (p : Proc) : Event → Proc → List Packet → Prop where
  | start (hp : p.phase = .idle) :
      Turn v cfg p .start { p with phase := .finding cfg.rset }
        [canPacket (cfg.sock .sockfd) cfg.groupAddr]
  | offered {rset ready : List ℕ} {sock : Bool} (hp : p.phase = .finding rset)
      (hr : ready.Sublist rset) :
      Turn v cfg p (.pselect ready sock) { p with phase := .offered ready } []
  | pselectError {rset ready : List ℕ} {sock : Bool} (hp : p.phase = .finding rset)
      (hr : ready.Sublist rset) (hpos : 0 < ready.length + sock.toNat)
      (hn : ready.length + sock.toNat ≠ 1) :
      Turn v cfg p (.pselect ready sock)
        { p with phase := .failed (.pselectReturned (ready.length + sock.toNat)) } []
  | alarm {rset : List ℕ} (hp : p.phase = .finding rset) :
      Turn v cfg p .alarm { p with phase := .selecting } []
  | confirm {d : Datagram} {mem : Residue} {next : Phase}
      (hp : (∃ rset, p.phase = .offered rset ∧ next = .finding rset) ∨
        p.phase = .confirming ∧ next = .selecting) (hc : authTryConfirm mem d = true) :
      Turn v cfg p (.recv .sockfd d mem) (addPeer p d.src next) []
  | refuse {d : Datagram} {mem : Residue} {e : ErrSys}
      (hp : (∃ rset, p.phase = .offered rset ∧ e = .authTryConfirm) ∨
        p.phase = .confirming ∧ e = .rcvfrom) (hc : authTryConfirm mem d = false) :
      Turn v cfg p (.recv .sockfd d mem) { p with phase := .failed e } []
  | accept {fd : Fd} {d : Datagram} {mem : Residue} {r : Receiver} (hp : p.phase = .selecting)
      (hr : v.receiver cfg fd = some r) (hok : receive r mem d = .ok .accept) :
      Turn v cfg p (.recv fd d mem) (addPeer p { d.src with sinPort := chatPort } .selecting)
        [ofcPacket (cfg.sock fd) d.src]
  | dismiss {fd : Fd} {d : Datagram} {mem : Residue} {r : Receiver} {next : Phase}
      (hp : p.phase = .selecting) (hr : v.receiver cfg fd = some r)
      (hno : receive r mem d ≠ .ok .accept)
      (hnext : next = .selecting ∨ ∃ f, next = .undefined (.block f)) :
      Turn v cfg p (.recv fd d mem) { p with phase := next } []
  | leave {message : Bytes} (hp : p.phase = .selecting) (hend : isCommand message cmdEnd = true) :
      Turn v cfg p (.input message) { p with phase := .left } []
  | find {message : Bytes} (hp : p.phase = .selecting) (hend : isCommand message cmdEnd = false)
      (hfind : isCommand message cmdFind = true) :
      Turn v cfg p (.input message) { p with phase := .confirming }
        [canPacket (cfg.sock .sockfd) cfg.groupAddr]
  | chat {message : Bytes} (hp : p.phase = .selecting) (hend : isCommand message cmdEnd = false)
      (hfind : isCommand message cmdFind = false) :
      Turn v cfg p (.input message) p
        (p.peers.map (chatPacket cfg (createSendMsg (cstr message) cfg.userName)))
  | eof (hp : p.phase = .selecting) : Turn v cfg p .eof p []

theorem turn_onPselect {v : Version} {cfg : Config} {p : Proc} {rset ready : List ℕ} {sock : Bool}
    (hp : p.phase = .finding rset) (hr : ready.Sublist rset)
    (hpos : 0 < ready.length + sock.toNat) :
    Turn v cfg p (.pselect ready sock) (onPselect p ready sock).1
      (packets (onPselect p ready sock).2) := by
  by_cases hn : ready.length + sock.toNat = 1
  · simpa [onPselect, hn] using Turn.offered hp hr
  · simpa [onPselect, hn, fail] using Turn.pselectError hp hr hpos hn

theorem turn_onMessage {v : Version} {cfg : Config} {p : Proc} {fd : Fd} {r : Receiver}
    (mem : Residue) (d : Datagram) (hp : p.phase = .selecting)
    (hr : v.receiver cfg fd = some r) :
    Turn v cfg p (.recv fd d mem) (onMessage (cfg.sock fd) p r mem d).1
      (packets (onMessage (cfg.sock fd) p r mem d).2) := by
  have hself : { p with phase := .selecting } = p := by rw [← hp]
  unfold onMessage
  split
  · rename_i f hf
    exact .dismiss hp hr (by simp [hf]) (.inr ⟨f, rfl⟩)
  · rename_i hok
    simpa [packets_append] using Turn.accept hp hr hok
  · rename_i text hok
    simpa [packets_append, hself] using Turn.dismiss hp hr (by simp [hok]) (.inl rfl)
  · rename_i hok
    simpa [hself] using Turn.dismiss hp hr (by simp [hok]) (.inl rfl)

theorem turn_onInput {v : Version} {cfg : Config} {p : Proc} (message : Bytes)
    (hp : p.phase = .selecting) :
    Turn v cfg p (.input message) (onInput cfg p message).1
      (packets (onInput cfg p message).2) := by
  unfold onInput
  split_ifs with hend hfind
  · exact .leave hp hend
  · exact .find hp (by simpa using hend) hfind
  · rw [packets_fanOut]
    exact .chat hp (by simpa using hend) (by simpa using hfind)

theorem turn_recv_sockfd {v : Version} {cfg : Config} {p : Proc} {mem : Residue} {d : Datagram}
    {q : Proc × List Act} (h : step v cfg p (.recv .sockfd d mem) = some q) :
    Turn v cfg p (.recv .sockfd d mem) q.1 (packets q.2) := by
  simp only [step] at h
  split at h
  · rename_i rset hp
    cases h
    split_ifs with hc
    · exact .confirm (.inl ⟨rset, hp, rfl⟩) hc
    · exact .refuse (.inl ⟨rset, hp, rfl⟩) (by simpa using hc)
  · rename_i hp
    cases h
    split_ifs with hc
    · exact .confirm (.inr ⟨hp, rfl⟩) hc
    · exact .refuse (.inr ⟨hp, rfl⟩) (by simpa using hc)
  · cases h

/-- The one account of `step` that later proofs use. -/
theorem turn_of_step {v : Version} {cfg : Config} {p : Proc} {e : Event} {q : Proc × List Act}
    (h : step v cfg p e = some q) : Turn v cfg p e q.1 (packets q.2) := by
  cases e with
  | start =>
    simp only [step] at h
    split at h
    · rename_i hp
      cases h
      exact .start hp
    · cases h
  | pselect ready sock =>
    simp only [step] at h
    split at h
    · rename_i rset hp
      split_ifs at h with hc
      cases h
      exact turn_onPselect hp hc.1 hc.2
    · cases h
  | alarm =>
    simp only [step] at h
    split at h
    · rename_i rset hp
      cases h
      rw [packets_onAlarm]
      exact .alarm hp
    · cases h
  | recv fd d mem =>
    cases fd with
    | sockfd => exact turn_recv_sockfd h
    | listenfd | joinfd =>
      simp only [step] at h
      split at h
      · rename_i hp
        obtain ⟨r, hr, hq⟩ := Option.map_eq_some_iff.1 h
        subst q
        exact turn_onMessage mem d hp hr
      · cases h
  | input message =>
    simp only [step] at h
    split at h
    · rename_i hp
      cases h
      exact turn_onInput message hp
    · cases h
  | eof =>
    simp only [step] at h
    split at h
    · rename_i hp
      cases h
      exact .eof hp
    · cases h

def Phase.goesOn : Phase → Bool
  | .idle | .finding _ | .offered _ | .selecting | .confirming => true
  | _ => false

theorem Turn.goesOn {v : Version} {cfg : Config} {p p' : Proc} {e : Event} {sent : List Packet}
    (h : Turn v cfg p e p' sent) : p.phase.goesOn = true := by
  cases h with
  | confirm hp hc | refuse hp hc => rcases hp with ⟨rset, hp, _⟩ | ⟨hp, _⟩ <;> rw [hp] <;> rfl
  | start hp | offered hp | pselectError hp | alarm hp | accept hp | dismiss hp | leave hp
  | find hp | chat hp | eof hp =>
    rw [hp]
    rfl

theorem Turn.defined {v : Version} {cfg : Config} {p p' : Proc} {e : Event} {sent : List Packet}
    (h : Turn v cfg p e p' sent) (u : Undefined) : p.phase ≠ .undefined u := by
  intro hu
  have hgoes := h.goesOn
  rw [hu] at hgoes
  cases hgoes

theorem Turn.find_eq {v : Version} {cfg : Config} {p p' : Proc} {message : Bytes}
    {sent : List Packet} (h : Turn v cfg p (.input message) p' sent)
    (hend : isCommand message cmdEnd = false) (hfind : isCommand message cmdFind = true) :
    p' = { p with phase := .confirming } ∧ sent = [canPacket (cfg.sock .sockfd) cfg.groupAddr] := by
  cases h with
  | leave hp hend' => simp [hend] at hend'
  | find hp => exact ⟨rfl, rfl⟩
  | chat hp hend' hfind' => simp [hfind] at hfind'

theorem addPeer_phase_eq (p : Proc) (a : SockAddr) (next : Phase) :
    (addPeer p a next).phase = next ∨
      ∃ n, (addPeer p a next).phase = .undefined (.peersStore n) := by
  by_cases hlt : p.peers.length < maxPeers
  · exact .inl (if_pos hlt)
  · exact .inr ⟨_, if_neg hlt⟩

theorem Turn.peers_eq {v : Version} {cfg : Config} {p p' : Proc} {e : Event} {sent : List Packet}
    (h : Turn v cfg p e p' sent) : p'.peers = p.peers ++ (handshake v cfg e).toList := by
  cases h with
  | confirm hp hc => simp [addPeer, handshake, hc]
  | refuse hp hc => simp [handshake, hc]
  | accept hp hr hok =>
    rename_i fd d mem r
    cases fd with
    | sockfd => cases hr
    | listenfd | joinfd => simp [addPeer, handshake, hr, hok]
  | dismiss hp hr hno hnext =>
    rename_i fd d mem r next
    cases fd with
    | sockfd => cases hr
    | listenfd | joinfd => simp [handshake, hr, hno]
  | start | offered | pselectError | alarm | leave | find | chat | eof => simp [handshake]

theorem passes_v4_iff (cfg : Config) (src : SockAddr) :
    (Receiver.v4 cfg.bindAddr).passes src = true ↔ ¬ cfg.bindAddr <+: sockNtop src := by
  rw [Receiver.passes, decide_eq_true_eq, ne_eq,
    strncmp_eq_zero_iff_left (sockNtop src) cfg.bindAddr cfg.bindAddr_nul]

def clean : Residue := ⟨[], fun _ => 0, []⟩

def host (n : UInt8) : Config where
  addr := ⟨10, 0, 0, n⟩
  sockport := 40000
  group := ⟨10, 0, 0, 255⟩
  userName := ascii "user"
  bindAddr := inetNtop ⟨10, 0, 0, n⟩
  rset := []
  sockport_ne := by decide
  userName_length := by decide
  userName_nul := by decide
  bindAddr_nul := zero_notMem_inetNtop _

end LanChat.ChatProcess

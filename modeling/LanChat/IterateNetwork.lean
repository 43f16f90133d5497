import LanChat.HostScan
import LanChat.FgetsLoops
import LanChat.DatagramNetworks

set_option autoImplicit false

/-!
# Processes of v3 on one network

Each process has a child that listens on `CHAT_PORT`, and scans its subnet with
a socket of its own. The child stays behind when the scan ends in `err_quit`.
-/
namespace LanChat.IterateNetwork
open CStrings HexText FrameCodec SocketAddresses DatagramReceive TransitionRuns DottedQuads
  OfferReading HostScan FgetsLoops DatagramNetworks
open ChatProcess hiding Config Proc Event step Turn

/-- What `main` has admitted, and what the host provides. A process that shared
    `CHAT_PORT` with its own `sockfd` could not bind its listener. -/
structure Config where
  addr : InAddr
  sockport : UInt16
  subnetAddress : Bytes
  startIdx : ℤ
  userName : Bytes
  sockport_ne : sockport ≠ chatPort
  userName_length : userName.length ≤ 10
  userName_nul : 0 ∉ userName

def Config.sockfd (cfg : Config) : SockAddr := ⟨cfg.addr, cfg.sockport⟩

def Config.listenfd (cfg : Config) : SockAddr := ⟨cfg.addr, chatPort⟩

/-- The child process. It is killed when the parent leaves `message_loop`. -/
inductive Listener where
  | waiting
  | undefined (f : Fault)
  | killed
  deriving DecidableEq, Repr

/-- `scan` is `find_peer` once it has been called. -/
structure Proc where
  scan : Option Scan
  listener : Listener
  deriving DecidableEq, Repr

def Proc.init : Proc := ⟨none, .waiting⟩

/-- Where `message_loop` sends to, once `find_peer` has returned. -/
def Proc.foundPeer (p : Proc) : Option SockAddr :=
  p.scan.bind fun s => if s.phase = .bound then some s.servaddr else none

inductive Event where
  | start
  | probe (got : Probe)
  | listen (d : Datagram) (mem : Residue)
  | input (message : Bytes)
  | eof

def chatPacket (cfg : Config) (message : Bytes) (peer : SockAddr) : Packet :=
  ⟨⟨cfg.sockfd, createSendMsg (cstr message) cfg.userName⟩, peer⟩

/-- One turn of the loop in `message_loop`; `none` is the end of the input. -/
def onInput (cfg : Config) (p : Proc) (peer : SockAddr) : Option Bytes → Proc × List Act
  | none => ({ p with listener := .killed }, [])
  | some message =>
    if isCommand message endSignal then ({ p with listener := .killed }, [])
    else (p, [.sendto (chatPacket cfg message peer)])

def onListen (cfg : Config) (p : Proc) (mem : Residue) (d : Datagram) : Proc × List Act :=
  match listenerTurn cfg.listenfd mem d with
  | .error f => ({ p with listener := .undefined f }, [])
  | .ok acts => (p, acts)

def step (cfg : Config) (p : Proc) : Event → Option (Proc × List Act)
  | .start =>
    if p.scan = none then
      let s := findPeer cfg.sockfd cfg.subnetAddress cfg.startIdx
      some ({ p with scan := some s }, s.acts)
    else none
  | .probe got => do
    let s ← p.scan
    let t ← probe cfg.sockfd s got
    some ({ p with scan := some t }, t.acts.drop s.acts.length)
  | .listen d mem => if p.listener = .waiting then some (onListen cfg p mem d) else none
  | .input message =>
    if p.listener = .killed then none
    else p.foundPeer.map fun peer => onInput cfg p peer (some message)
  | .eof =>
    if p.listener = .killed then none else p.foundPeer.map fun peer => onInput cfg p peer none

/-- Everything that an event can do to a process, and what is sent by it. -/
inductive Turn (cfg : Config) (p : Proc) : Event → Proc → List Packet → Prop where
  | start {s : Scan} (hp : p.scan = none)
      (hs : s = findPeer cfg.sockfd cfg.subnetAddress cfg.startIdx) :
      Turn cfg p .start { p with scan := some s } (packets s.acts)
  | probe {got : Probe} {s t : Scan} (hp : p.scan = some s)
      (h : HostScan.probe cfg.sockfd s got = some t) :
      Turn cfg p (.probe got) { p with scan := some t } (packets (t.acts.drop s.acts.length))
  | accept {d : Datagram} {mem : Residue} (hp : p.listener = .waiting)
      (hok : receive .v3 mem d = .ok .accept) :
      Turn cfg p (.listen d mem) p [ofcPacket cfg.listenfd d.src]
  | dismiss {d : Datagram} {mem : Residue} {l : Listener} (hp : p.listener = .waiting)
      (hno : receive .v3 mem d ≠ .ok .accept) :
      Turn cfg p (.listen d mem) { p with listener := l } []
  | chat {message : Bytes} {peer : SockAddr} (hp : p.listener ≠ .killed)
      (hpeer : p.foundPeer = some peer) (hend : isCommand message endSignal = false) :
      Turn cfg p (.input message) p [chatPacket cfg message peer]
  | leave {e : Event} {peer : SockAddr} (hp : p.listener ≠ .killed)
      (hpeer : p.foundPeer = some peer)
      (he : e = .eof ∨ ∃ message, e = .input message ∧ isCommand message endSignal = true) :
      Turn cfg p e { p with listener := .killed } []

theorem turn_onListen {cfg : Config} {p : Proc} (mem : Residue) (d : Datagram)
    (hp : p.listener = .waiting) :
    Turn cfg p (.listen d mem) (onListen cfg p mem d).1 (packets (onListen cfg p mem d).2) := by
  have hself : { p with listener := .waiting } = p := by rw [← hp]
  unfold onListen listenerTurn
  cases h : receive .v3 mem d with
  | error f => exact .dismiss hp (by simp [h])
  | ok reaction =>
    cases reaction with
    | accept => exact .accept hp h
    | print text | ignore =>
      have hturn : Turn cfg p (.listen d mem) { p with listener := .waiting } [] :=
        .dismiss hp (by simp [h])
      simpa [Except.map, hself] using hturn

theorem turn_onInput {cfg : Config} {p : Proc} {peer : SockAddr} (input : Option Bytes)
    (hp : p.listener ≠ .killed) (hpeer : p.foundPeer = some peer) :
    Turn cfg p (input.elim .eof .input) (onInput cfg p peer input).1
      (packets (onInput cfg p peer input).2) := by
  cases input with
  | none => exact .leave hp hpeer (.inl rfl)
  | some message =>
    simp only [onInput]
    split_ifs with hend
    · exact .leave hp hpeer (.inr ⟨message, rfl, hend⟩)
    · exact .chat hp hpeer (by simpa using hend)

theorem turn_of_step {cfg : Config} {p : Proc} {e : Event} {q : Proc × List Act}
    (h : step cfg p e = some q) : Turn cfg p e q.1 (packets q.2) := by
  cases e with
  | start =>
    simp only [step] at h
    split_ifs at h with hp
    cases h
    exact .start hp rfl
  | probe got =>
    obtain ⟨s, hs, h⟩ := Option.bind_eq_some_iff.1 h
    obtain ⟨t, ht, h⟩ := Option.bind_eq_some_iff.1 h
    cases h
    exact .probe hs ht
  | listen d mem =>
    simp only [step] at h
    split_ifs at h with hp
    cases h
    exact turn_onListen mem d hp
  | input message =>
    simp only [step] at h
    split_ifs at h with hp
    obtain ⟨peer, hpeer, rfl⟩ := Option.map_eq_some_iff.1 h
    exact turn_onInput (some message) hp hpeer
  | eof =>
    simp only [step] at h
    split_ifs at h with hp
    obtain ⟨peer, hpeer, rfl⟩ := Option.map_eq_some_iff.1 h
    exact turn_onInput none hp hpeer

theorem tryHost_acts (sock : SockAddr) (s : Scan) : s.acts <+: (tryHost sock s).acts := by
  rw [tryHost_eq]
  split
  · exact List.prefix_rfl
  · exact List.prefix_append _ _

theorem probe_acts {sock : SockAddr} {s t : Scan} {got : Probe}
    (h : HostScan.probe sock s got = some t) : s.phase = .probing ∧ s.acts <+: t.acts := by
  unfold HostScan.probe probeOn at h
  split at h
  · rename_i hphase
    refine ⟨hphase, ?_⟩
    split_ifs at h <;> cases h
    · exact List.prefix_rfl
    · exact List.prefix_append _ _
    · exact tryHost_acts sock { s with
        i := s.i + 1
        servaddr := (got.2.map Datagram.src).getD s.servaddr }
  · cases h

/-- What `find_peer` has done stays done, and what it has found stays found. -/
theorem Turn.keeps {cfg : Config} {p p' : Proc} {e : Event} {sent : List Packet}
    (h : Turn cfg p e p' sent) {s : Scan} (hs : p.scan = some s) :
    ∃ t, p'.scan = some t ∧ s.acts <+: t.acts ∧ (s.phase = .bound → t = s) := by
  cases h with
  | start hp =>
    rw [hs] at hp
    cases hp
  | probe hp hprobe =>
    obtain rfl := Option.some.inj (hs.symm.trans hp)
    obtain ⟨hphase, hacts⟩ := probe_acts hprobe
    refine ⟨_, rfl, hacts, fun hbound => ?_⟩
    rw [hphase] at hbound
    cases hbound
  | accept | dismiss | chat | leave => exact ⟨s, hs, List.prefix_rfl, fun _ => rfl⟩

theorem foundPeer_eq_some {p : Proc} {peer : SockAddr} :
    p.foundPeer = some peer ↔ ∃ s, p.scan = some s ∧ s.phase = .bound ∧ s.servaddr = peer := by
  simp [Proc.foundPeer, Option.bind_eq_some_iff]

/-- The participants. A host has one address. -/
structure Lan (ι : Type*) where
  cfg : ι → Config
  addr_injective : Function.Injective fun i => (cfg i).addr

def Proc.isOpen (p : Proc) : Fd → Bool
  | .sockfd => p.listener ≠ .killed ∧
      p.scan.any (fun s => s.phase = .probing ∨ s.phase = .bound) = true
  | .listenfd => p.listener = .waiting
  | .joinfd => false

/-- Whether the queues are as a return from the call says. -/
def ready (queue : Fd → List Datagram) : Event → Bool
  | .probe got => (queue .sockfd).head? = got.2
  | .listen d _ => (queue .listenfd).head? = some d
  | _ => true

def takes : Event → Fd → ℕ
  | .probe (_, some _), .sockfd | .listen _ _, .listenfd => 1
  | _, _ => 0

namespace Lan

variable {ι : Type*} (L : Lan ι)

def sock (i : ι) : Fd → SockAddr
  | .sockfd => (L.cfg i).sockfd
  | .listenfd | .joinfd => (L.cfg i).listenfd

def network : Network ι Fd Proc Event Datagram Packet where
  init _ := Proc.init
  act i p e := (step (L.cfg i) p e).map (Prod.map id packets)
  ready := ready
  takes := takes
  enters i p fd packet := p.isOpen fd ∧ packet.dst = L.sock i fd
  arrival := Packet.toDatagram

/-- The request of `i` to `j`, and the answer to it. -/
def request (i j : ι) : Packet := canPacket (L.sock i .sockfd) (L.sock j .listenfd)

def answer (i j : ι) : Packet := ofcPacket (L.sock j .listenfd) (L.sock i .sockfd)

end Lan

theorem turn_of_act {ι : Type*} {L : Lan ι} {i : ι} {p : Proc} {e : Event}
    {q : Proc × List Packet} (h : L.network.act i p e = some q) :
    Turn (L.cfg i) p e q.1 q.2 := by
  obtain ⟨q', hq, rfl⟩ := Option.map_eq_some_iff.1 h
  exact turn_of_step hq

def scanner (n : UInt8) : Config where
  addr := ⟨10, 0, 0, n⟩
  sockport := 50000
  subnetAddress := ascii "10.0.0.0"
  startIdx := 1
  userName := ascii "eve"
  sockport_ne := by decide
  userName_length := by decide
  userName_nul := by decide

def pair : Lan Bool where
  cfg i := scanner (if i then 2 else 1)
  addr_injective i j h := by
    cases i <;> cases j
    · rfl
    · exact absurd h (by decide)
    · exact absurd h (by decide)
    · rfl

def hello : Packet :=
  chatPacket (pair.cfg false) (ascii "hello\n" ++ [0]) (pair.sock true .listenfd)

/-- One side asks itself in vain, finds the other and greets it. -/
def greeting : List (Label Bool Fd Event Packet) :=
  [.act false .start, .act false (.probe (clean, none)),
    .deliver (pair.request false true) true .listenfd,
    .act true (.listen (pair.request false true).toDatagram clean),
    .deliver (pair.answer false true) false .sockfd,
    .act false (.probe (clean, some (pair.answer false true).toDatagram)),
    .act false (.input (ascii "hello\n" ++ [0])), .deliver hello true .listenfd]

end LanChat.IterateNetwork

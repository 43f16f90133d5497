import LanChat.ChatProcess
import Mathlib.Logic.Function.Basic
import Mathlib.Data.List.Basic

set_option autoImplicit false

/-!
# Processes on one network

Any number of processes run the same version. A datagram is in flight from
`Sendto` until it enters the queue of a socket. Its order among the others is
lost on the way, and it may be lost itself, or arrive more than once.
-/
namespace LanChat.ChatNetwork
open CStrings HexText FrameCodec SocketAddresses DatagramReceive TransitionRuns ChatProcess

/-- The participants. `hears i` are the addresses, besides its own, at which the
    host of `i` takes datagrams in: those of its networks and groups. -/
structure Lan (ι : Type*) where
  version : Version
  cfg : ι → Config
  hears : ι → InAddr → Bool
  addr_injective : Function.Injective fun i => (cfg i).addr

structure Net (ι : Type*) where
  proc : ι → Proc
  queue : ι → Fd → List Datagram
  flight : List Packet

inductive Label (ι : Type*) where
  | act (i : ι) (e : Event)
  | deliver (p : Packet) (i : ι) (fd : Fd)
  | drop (p : Packet)
  | dup (p : Packet)

def isOpen : Phase → Fd → Bool
  | .finding _, fd | .offered _, fd => fd = .sockfd
  | .selecting, _ | .confirming, _ => true
  | _, _ => false

/-- Whether the queues are as a return from the call says. -/
def ready (queue : Fd → List Datagram) : Event → Bool
  | .recv fd d _ => (queue fd).head? = some d
  | .pselect _ sock => sock = !(queue .sockfd).isEmpty
  | _ => true

def taken : Event → Fd → List Datagram
  | .recv fd d _, fd' => if fd' = fd then [d] else []
  | _, _ => []

def consume (queue : Fd → List Datagram) (e : Event) (fd : Fd) : List Datagram :=
  (queue fd).drop (taken e fd).length

variable {ι : Type*} [DecidableEq ι]

def Lan.sock (L : Lan ι) (i : ι) (fd : Fd) : SockAddr := (L.cfg i).sock fd

def Lan.accepts (L : Lan ι) (i : ι) (fd : Fd) (dst : SockAddr) : Bool :=
  match fd with
  | .sockfd => dst = L.sock i .sockfd
  | .listenfd => dst.sinPort = chatPort ∧
      (dst.sinAddr = (L.cfg i).addr ∨ L.hears i dst.sinAddr = true)
  | .joinfd => L.version = .v5 ∧ dst = (L.cfg i).groupAddr

def Lan.init (_ : Lan ι) : Net ι := ⟨fun _ => Proc.init, fun _ _ => [], []⟩

/-- The state after process `i` has become `p`, and has sent `sent`. -/
def Net.acted (s : Net ι) (i : ι) (e : Event) (p : Proc) (sent : List Packet) : Net ι where
  proc := Function.update s.proc i p
  queue := Function.update s.queue i (consume (s.queue i) e)
  flight := s.flight ++ sent

def Net.delivered (s : Net ι) (p : Packet) (i : ι) (fd : Fd) : Net ι where
  proc := s.proc
  queue := Function.update s.queue i
    (Function.update (s.queue i) fd (s.queue i fd ++ [p.toDatagram]))
  flight := s.flight.erase p

def Lan.step (L : Lan ι) (s : Net ι) : Label ι → Option (Net ι)
  | .act i e =>
    if ready (s.queue i) e then
      (ChatProcess.step L.version (L.cfg i) (s.proc i) e).map fun q =>
        s.acted i e q.1 (packets q.2)
    else none
  | .deliver p i fd =>
    if p ∈ s.flight ∧ isOpen (s.proc i).phase fd = true ∧ L.accepts i fd p.dst = true then
      some (s.delivered p i fd)
    else none
  | .drop p => if p ∈ s.flight then some { s with flight := s.flight.erase p } else none
  | .dup p => if p ∈ s.flight then some { s with flight := p :: s.flight } else none

/-- Everything that a step of the network can do. -/
inductive Move (L : Lan ι) (s : Net ι) : Label ι → Net ι → Prop where
  | act {i : ι} {e : Event} {p : Proc} {sent : List Packet}
      (hready : ready (s.queue i) e = true) (h : Turn L.version (L.cfg i) (s.proc i) e p sent) :
      Move L s (.act i e) (s.acted i e p sent)
  | deliver {p : Packet} {i : ι} {fd : Fd} (hp : p ∈ s.flight)
      (hopen : isOpen (s.proc i).phase fd = true) (hdst : L.accepts i fd p.dst = true) :
      Move L s (.deliver p i fd) (s.delivered p i fd)
  | drop {p : Packet} (hp : p ∈ s.flight) :
      Move L s (.drop p) { s with flight := s.flight.erase p }
  | dup {p : Packet} (hp : p ∈ s.flight) : Move L s (.dup p) { s with flight := p :: s.flight }

theorem move_of_step {L : Lan ι} {s t : Net ι} {l : Label ι} (h : L.step s l = some t) :
    Move L s l t := by
  cases l with
  | act i e =>
    simp only [Lan.step] at h
    split_ifs at h with hready
    obtain ⟨q, hq, rfl⟩ := Option.map_eq_some_iff.1 h
    exact .act hready (turn_of_step hq)
  | deliver p i fd =>
    simp only [Lan.step] at h
    split_ifs at h with hc
    cases h
    exact .deliver hc.1 hc.2.1 hc.2.2
  | drop p =>
    simp only [Lan.step] at h
    split_ifs at h with hp
    cases h
    exact .drop hp
  | dup p =>
    simp only [Lan.step] at h
    split_ifs at h with hp
    cases h
    exact .dup hp

theorem taken_append_consume {queue : Fd → List Datagram} {e : Event}
    (h : ready queue e = true) (fd : Fd) : queue fd = taken e fd ++ consume queue e fd := by
  cases e with
  | recv fd' d mem =>
    by_cases hfd : fd = fd'
    · subst fd'
      obtain ⟨rest, hrest⟩ := List.head?_eq_some_iff.1 (of_decide_eq_true h)
      simp [taken, consume, hrest]
    · simp [taken, consume, hfd]
  | start | pselect | alarm | input | eof => simp [taken, consume]

theorem mem_of_mem_consume {queue : Fd → List Datagram} {e : Event} {fd : Fd} {d : Datagram}
    (h : d ∈ consume queue e fd) : d ∈ queue fd := List.mem_of_mem_drop h

theorem mem_of_ready {queue : Fd → List Datagram} {fd : Fd} {d : Datagram} {mem : Residue}
    (h : ready queue (.recv fd d mem) = true) : d ∈ queue fd :=
  List.mem_of_mem_head? (of_decide_eq_true h)

@[simp] theorem Net.acted_proc_self (s : Net ι) (i : ι) (e : Event) (p : Proc)
    (sent : List Packet) : (s.acted i e p sent).proc i = p := by simp [Net.acted]

theorem Net.acted_proc_ne (s : Net ι) {i j : ι} (e : Event) (p : Proc) (sent : List Packet)
    (h : j ≠ i) : (s.acted i e p sent).proc j = s.proc j := by
  simp [Net.acted, h]

@[simp] theorem Net.acted_queue_self (s : Net ι) (i : ι) (e : Event) (p : Proc)
    (sent : List Packet) : (s.acted i e p sent).queue i = consume (s.queue i) e := by
  simp [Net.acted]

theorem Net.acted_queue_ne (s : Net ι) {i j : ι} (e : Event) (p : Proc) (sent : List Packet)
    (h : j ≠ i) : (s.acted i e p sent).queue j = s.queue j := by
  simp [Net.acted, h]

@[simp] theorem Net.acted_flight (s : Net ι) (i : ι) (e : Event) (p : Proc)
    (sent : List Packet) : (s.acted i e p sent).flight = s.flight ++ sent := rfl

@[simp] theorem Net.delivered_proc (s : Net ι) (p : Packet) (i : ι) (fd : Fd) :
    (s.delivered p i fd).proc = s.proc := rfl

@[simp] theorem Net.delivered_flight (s : Net ι) (p : Packet) (i : ι) (fd : Fd) :
    (s.delivered p i fd).flight = s.flight.erase p := rfl

@[simp] theorem Net.delivered_queue_self (s : Net ι) (p : Packet) (i : ι) (fd : Fd) :
    (s.delivered p i fd).queue i fd = s.queue i fd ++ [p.toDatagram] := by
  simp [Net.delivered]

theorem Net.delivered_queue_ne (s : Net ι) (p : Packet) {i j : ι} {fd fd' : Fd}
    (h : ¬ (j = i ∧ fd' = fd)) : (s.delivered p i fd).queue j fd' = s.queue j fd' := by
  by_cases hj : j = i
  · subst j
    have hfd : fd' ≠ fd := fun e => h ⟨rfl, e⟩
    simp [Net.delivered, hfd]
  · simp [Net.delivered, hj]

theorem Net.mem_acted_queue {s : Net ι} {i k : ι} {e : Event} {p : Proc} {sent : List Packet}
    {fd : Fd} {d : Datagram} (h : d ∈ (s.acted i e p sent).queue k fd) : d ∈ s.queue k fd := by
  by_cases hk : k = i
  · subst k
    rw [Net.acted_queue_self] at h
    exact mem_of_mem_consume h
  · rwa [Net.acted_queue_ne s e p sent hk] at h

theorem Net.mem_delivered_queue {s : Net ι} {p : Packet} {i k : ι} {fd fd' : Fd} {d : Datagram}
    (h : d ∈ (s.delivered p i fd).queue k fd') :
    d ∈ s.queue k fd' ∨ k = i ∧ fd' = fd ∧ d = p.toDatagram := by
  by_cases hk : k = i ∧ fd' = fd
  · obtain ⟨rfl, rfl⟩ := hk
    rw [Net.delivered_queue_self, List.mem_append, List.mem_singleton] at h
    exact h.imp_right fun hd => ⟨rfl, rfl, hd⟩
  · rw [Net.delivered_queue_ne s p hk] at h
    exact .inl h

inductive Side where
  | left
  | right
  deriving DecidableEq, Repr

def pair (v : Version) : Lan Side where
  version := v
  cfg
    | .left => host 1
    | .right => host 2
  hears _ addr := addr = (host 1).group
  addr_injective i j h := by
    cases i <;> cases j
    · rfl
    · exact absurd h (by decide)
    · exact absurd h (by decide)
    · rfl

/-- The request of one side of the pair, and the offer of one to the other. -/
def pairCan (i : Side) : Packet :=
  canPacket ((pair .v4).sock i .sockfd) ((pair .v4).cfg i).groupAddr
def pairOfc (i j : Side) : Packet :=
  ofcPacket ((pair .v4).sock i .listenfd) ((pair .v4).sock j .sockfd)

/-- The left side hears its own request, and then that of the right one, which
    starts while the left one is listening. -/
def meeting : List (Label Side) :=
  [.act .left .start, .act .left .alarm, .deliver (pairCan .left) .left .listenfd,
    .act .left (.recv .listenfd (pairCan .left).toDatagram clean), .act .right .start,
    .deliver (pairCan .right) .left .listenfd,
    .act .left (.recv .listenfd (pairCan .right).toDatagram clean),
    .deliver (pairOfc .left .right) .right .sockfd, .act .right (.pselect [] true),
    .act .right (.recv .sockfd (pairOfc .left .right).toDatagram clean), .act .right .alarm]

theorem meeting_runs : (run (pair .v4).step (pair .v4).init meeting).isSome = true := rfl

example : (run (pair .v4).step (pair .v4).init meeting).map
    (fun s => ((s.proc .left).peers, (s.proc .right).peers, s.flight)) =
    some ([(pair .v4).sock .right .listenfd], [(pair .v4).sock .left .listenfd], []) := rfl

/-- After their meeting the right side looks for others, and finds the left one
    again. -/
def again : List (Label Side) :=
  meeting ++ [.act .right (.input (ascii "am-find\n")),
    .deliver (pairCan .right) .left .listenfd,
    .act .left (.recv .listenfd (pairCan .right).toDatagram clean),
    .deliver (pairOfc .left .right) .right .sockfd,
    .act .right (.recv .sockfd (pairOfc .left .right).toDatagram clean)]

end LanChat.ChatNetwork

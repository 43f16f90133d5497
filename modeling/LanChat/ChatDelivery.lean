import LanChat.HonestNetwork
import LanChat.ControlCollision
import LanChat.FgetsLoops
import LanChat.DatagramNetworks

set_option autoImplicit false

/-!
# What becomes of a line of chat in v4 and v5

Nothing is printed that has not been typed by the participant that it comes
from. Of a line that goes to one participant, every copy that was sent or
doubled is printed once, lost, in flight or unread.
-/
namespace LanChat.ChatDelivery
open CStrings HexText FrameCodec SocketAddresses DatagramReceive TransitionRuns ChatProcess
  ControlCollision TypedCommands FgetsLoops ChatNetwork HonestNetwork

variable {ι : Type*} (L : Lan ι)

/-- A line that is sent to the table, not a command. -/
def isChat (message : Bytes) : Bool :=
  isCommand message cmdEnd = false ∧ isCommand message cmdFind = false

/-- Every buffer that is sent makes a frame that its header can declare. -/
def AllFit (labels : List (Label ι)) : Prop :=
  ∀ j message, .act j (.input message) ∈ labels →
    lengthField (L.cfg j).userName (cstr message) ≤ 65535

def AllBounded (labels : List (Label ι)) : Prop :=
  ∀ i fd d mem, Label.act i (.recv fd d mem) ∈ labels → mem.Bounded

/-- Nobody takes in what goes to the address of another, and that of a group is
    nobody's. -/
structure Unicast : Prop where
  hears : ∀ i k, L.hears i (L.cfg k).addr = false
  group : ∀ i k, (L.cfg i).group ≠ (L.cfg k).addr

def lineOf (j : ι) (message : Bytes) : ChatLine :=
  ⟨(L.cfg j).userName, cstr message, (L.cfg j).userName_nul, zero_notMem_cstr message⟩

theorem zero_notMem_auth : 0 ∉ ascii "auth" := by
  decide

theorem zero_notMem_can : 0 ∉ ascii "CAN" := by
  decide

/-- The request reads as a line of chat. -/
def canLine : ChatLine := ⟨ascii "auth", ascii "CAN", zero_notMem_auth, zero_notMem_can⟩

theorem canLine_frame : canLine.frame = createSendMsgStatic authCan := by
  rw [createSendMsgStatic_authCan]
  decide +kernel

/-- A frame that comes from `j`: a request, or something that it has said. -/
inductive From (labels : List (Label ι)) (j : ι) : ChatLine → Prop where
  | request : From labels j canLine
  | said {message : Bytes} (h : .act j (.input message) ∈ labels) (hchat : isChat message = true) :
      From labels j (lineOf L j message)

structure Sourced (labels : List (Label ι)) (s : Net ι) : Prop where
  honest : Honest L (fun _ _ => True) s
  flight : ∀ p ∈ s.flight, ∀ j, p.src = L.sock j .sockfd → ∃ c, From L labels j c ∧
    p.payload = c.frame ∧ (c = canLine ∨ ∃ k, p.dst = L.sock k .listenfd)
  inbox : ∀ i fd, ∀ d ∈ s.queue i fd, ∀ j, d.src = L.sock j .sockfd →
    ∃ c, From L labels j c ∧ d.payload = c.frame

variable {L} {labels : List (Label ι)}

theorem From.fits (hfit : AllFit L labels) {j : ι} {c : ChatLine} (h : From L labels j c) :
    c.Fits := by
  cases h with
  | request => decide
  | said h hchat => exact hfit j _ h

theorem sourced_init : Sourced L labels L.init where
  honest := honest_init
  flight := by simp [Lan.init]
  inbox := by simp [Lan.init]

theorem sock_sockfd_ne {i j : ι} {fd : Fd} (hfd : fd ≠ .sockfd) :
    L.sock i fd ≠ L.sock j .sockfd := by
  intro h
  apply (L.cfg j).sockport_ne
  have hport := congrArg SockAddr.sinPort h
  cases fd with
  | sockfd => exact absurd rfl hfd
  | listenfd | joinfd => exact hport.symm

/-- What an event sends from `sockfd` is a request, or what has been typed, to
    those in the table. -/
theorem turn_sent {i j : ι} {e : Event} {p p' : Proc} {sent : List Packet}
    (hmem : .act i e ∈ labels) (htable : ∀ a ∈ p.peers, ∃ k, True ∧ a = L.sock k .listenfd)
    (h : Turn L.version (L.cfg i) p e p' sent) :
    ∀ q ∈ sent, q.src = L.sock j .sockfd → ∃ c, From L labels j c ∧
      q.payload = c.frame ∧ (c = canLine ∨ ∃ k, q.dst = L.sock k .listenfd) := by
  intro q hq hsrc
  cases h with
  | start | find =>
    obtain rfl := List.mem_singleton.1 hq
    exact ⟨canLine, .request, canLine_frame.symm, .inl rfl⟩
  | accept hp hr hok =>
    obtain rfl := List.mem_singleton.1 hq
    exact absurd hsrc (sock_sockfd_ne (receiver_ne_sockfd hr))
  | chat hp hend hfind =>
    obtain ⟨a, ha, rfl⟩ := List.mem_map.1 hq
    obtain ⟨k, _, rfl⟩ := htable a ha
    have hsock : L.sock i .sockfd = L.sock j .sockfd := hsrc
    obtain rfl := sock_injective hsock
    exact ⟨lineOf L i _, .said hmem (decide_eq_true ⟨hend, hfind⟩), rfl, .inr ⟨k, rfl⟩⟩
  | offered | pselectError | alarm | confirm | refuse | dismiss | leave | eof =>
    exact absurd hq List.not_mem_nil

variable [DecidableEq ι]

theorem Sourced.move {s t : Net ι} (h : Sourced L labels s) {l : Label ι} (hl : l ∈ labels)
    (hmove : Move L s l t) : Sourced L labels t := by
  refine ⟨h.honest.move admits_all hmove, ?_, ?_⟩
  · cases hmove with
    | act hready hturn =>
      intro q hq
      rcases List.mem_append.1 hq with hq | hq
      · exact h.flight q hq
      · exact fun j => turn_sent hl (h.honest.table _) hturn q hq
    | deliver hp hopen hdst => exact fun q hq => h.flight q (List.mem_of_mem_erase hq)
    | drop hp => exact fun q hq => h.flight q (List.mem_of_mem_erase hq)
    | dup hp => exact List.forall_mem_cons.2 ⟨h.flight _ hp, h.flight⟩
  · cases hmove with
    | act hready hturn => exact fun k fd d hd => h.inbox k fd d (Net.mem_acted_queue hd)
    | @deliver p i fd hp hopen hdst =>
      intro k fd' d hd j hsrc
      rcases Net.mem_delivered_queue hd with hd | ⟨rfl, rfl, rfl⟩
      · exact h.inbox k fd' d hd j hsrc
      · obtain ⟨c, hc, hframe, _⟩ := h.flight p hp j hsrc
        exact ⟨c, hc, hframe⟩
    | drop | dup => exact h.inbox

theorem sourced_run {s : Net ι} (hrun : run L.step L.init labels = some s) :
    Sourced L labels s :=
  run_invariant (A := (· ∈ labels)) (fun _ _ _ h hl hstep => h.move hl (move_of_step hstep))
    sourced_init (fun _ hl => hl) hrun

theorem receive_line {r : Receiver} {mem : Residue} {d : Datagram} {c : ChatLine}
    (hmem : mem.Bounded) (hfits : c.Fits) (hframe : d.payload = c.frame)
    (hpass : r.passes d.src = true) : receive r mem d = .ok (reactionTo r c.text) := by
  have hd : d = chatDatagram d.src c := by rw [chatDatagram, ← hframe]
  have htext := c.text_length
  have hlen := msgLen_chat d.src hmem hfits
  have hvisible := shownAs_visible mem d.src c hmem hfits
  rw [← hd] at hlen hvisible
  rw [receive_five mem hpass (by omega), hvisible]

theorem payload_drop {d : Datagram} {c : ChatLine} (hfits : c.Fits) (hframe : d.payload = c.frame) :
    d.payload.drop 4 = c.text := by
  rw [hframe]
  exact createSendMsg_drop hfits.lt

theorem canPacket_drop (sock dst : SockAddr) : authCan <+: (canPacket sock dst).payload.drop 4 := by
  change authCan <+: (createSendMsgStatic authCan).drop 4
  decide

/-- What is printed besides what others have said. -/
def statusTexts : List Bytes :=
  ["Has data", "Received data", "Received AUTH_CAN", "Sent auth accept"].map ascii

theorem colon_notMem_status : ∀ text ∈ statusTexts, 58 ∉ text := by decide

theorem shown_notMem_status (userName said : Bytes) : shown userName said ∉ statusTexts := fun h =>
  colon_notMem_status _ h (List.mem_append_left _ (List.mem_append_right _ (by decide)))

def printLine (text : Bytes) : Act := .printf (text ++ ascii "\n")

theorem printLine_injective {text text' : Bytes} :
    printLine text = printLine text' ↔ text = text' := by
  rw [printLine, printLine, Act.printf.injEq, List.append_left_inj]

theorem mem_statusTexts {text : Bytes} (h : printLine text ∈ statusTexts.map printLine) :
    text ∈ statusTexts := by
  obtain ⟨status, hstatus, heq⟩ := List.mem_map.1 h
  rwa [← printLine_injective.1 heq]

theorem mem_announce {r : Receiver} {src : SockAddr} {text : Bytes}
    (h : printLine text ∈ announce r src) : text ∈ statusTexts := by
  apply mem_statusTexts
  cases r with
  | v3 | v5Join => cases h
  | v4 | v5Listen =>
    rcases List.mem_cons.1 h with h | h
    · rw [h]
      exact List.mem_cons_self
    · split_ifs at h
      · rw [List.mem_singleton.1 h]
        exact List.mem_cons_of_mem _ List.mem_cons_self
      · cases h

theorem mem_acceptActs {sock src : SockAddr} {text : Bytes}
    (h : printLine text ∈ acceptActs sock src) : text ∈ statusTexts := by
  apply mem_statusTexts
  rcases List.mem_cons.1 h with h | h
  · rw [h]
    exact List.mem_of_getElem? (i := 2) rfl
  · rcases List.mem_cons.1 h with h | h
    · cases h
    · rw [List.mem_singleton.1 h]
      exact List.mem_of_getElem? (i := 3) rfl

theorem count_onMessage {text : Bytes} (htext : text ∉ statusTexts) (sock : SockAddr) (p : Proc)
    (r : Receiver) (mem : Residue) (d : Datagram) :
    (onMessage sock p r mem d).2.count (printLine text) =
      if receive r mem d = .ok (.print text) then 1 else 0 := by
  have hannounce : (announce r d.src).count (printLine text) = 0 :=
    List.count_eq_zero.2 fun h => htext (mem_announce h)
  have haccept : (acceptActs sock d.src).count (printLine text) = 0 :=
    List.count_eq_zero.2 fun h => htext (mem_acceptActs h)
  unfold onMessage
  split
  · rename_i f hf
    simp [hf]
  · rename_i hok
    rw [List.count_append, hannounce, haccept, hok]
    simp
  · rename_i shown hok
    have hone : [Act.printf (shown ++ ascii "\n")].count (printLine text) =
        if shown = text then 1 else 0 := by
      rw [List.count_singleton]
      simp only [beq_iff_eq]
      exact if_congr printLine_injective rfl rfl
    rw [List.count_append, hannounce, zero_add, hone, hok]
    simp only [Except.ok.injEq, Reaction.print.injEq]
  · rename_i hok
    rw [hannounce, hok]
    simp

/-- Whether a receiver prints a text of a datagram; there is none for `sockfd`. -/
def printsAt (v : Version) (cfg : Config) (fd : Fd) (mem : Residue) (d : Datagram)
    (text : Bytes) : Prop :=
  ∃ r, v.receiver cfg fd = some r ∧ receive r mem d = .ok (.print text)

theorem count_recv {v : Version} {cfg : Config} {p : Proc} {fd : Fd} {d : Datagram}
    {mem : Residue} {q : Proc × List Act} {text : Bytes} (htext : text ∉ statusTexts)
    (hstep : ChatProcess.step v cfg p (.recv fd d mem) = some q)
    [Decidable (printsAt v cfg fd mem d text)] :
    q.2.count (printLine text) = if printsAt v cfg fd mem d text then 1 else 0 := by
  have hquiet (hnone : v.receiver cfg fd = none) (hcount : q.2.count (printLine text) = 0) :
      q.2.count (printLine text) = if printsAt v cfg fd mem d text then 1 else 0 := by
    rw [hcount, if_neg]
    rintro ⟨r, hr, _⟩
    rw [hnone] at hr
    cases hr
  cases fd with
  | sockfd =>
    apply hquiet rfl
    simp only [ChatProcess.step] at hstep
    split at hstep
    · cases hstep
      split_ifs <;> simp [fail, printLine]
    · cases hstep
      split_ifs <;> simp [fail, printLine]
    · cases hstep
  | listenfd | joinfd =>
    simp only [ChatProcess.step] at hstep
    split at hstep
    · obtain ⟨r, hr, rfl⟩ := Option.map_eq_some_iff.1 hstep
      rw [count_onMessage htext]
      refine if_congr ⟨fun h => ⟨r, hr, h⟩, ?_⟩ rfl rfl
      rintro ⟨r', hr', h⟩
      rwa [← Option.some.inj (hr.symm.trans hr')] at h
    · cases hstep

theorem reactionTo_print {r : Receiver} {body text : Bytes} (h : reactionTo r body = .print text) :
    text = body ∧ (authCan <+: body → r = .v5Listen) := by
  cases r with
  | v3 | v4 =>
    rw [reactionTo] at h
    split_ifs at h with hcan
    cases h
    exact ⟨rfl, fun h => absurd h hcan⟩
  | v5Listen =>
    cases h
    exact ⟨rfl, fun _ => rfl⟩
  | v5Join =>
    rw [reactionTo] at h
    split_ifs at h

theorem printsAt_frame {v : Version} {cfg : Config} {fd : Fd} {mem : Residue} {d : Datagram}
    {c : ChatLine} {text : Bytes} (hmem : mem.Bounded) (hfits : c.Fits)
    (hframe : d.payload = c.frame) (h : printsAt v cfg fd mem d text) :
    fd = .listenfd ∧ text = c.text ∧ (authCan <+: c.text → v = .v5) := by
  obtain ⟨r, hr, hok⟩ := h
  have hpass := passes_of_receive hok (by simp)
  rw [receive_line hmem hfits hframe hpass, Except.ok.injEq] at hok
  obtain ⟨htext, hlisten⟩ := reactionTo_print hok
  cases v <;> cases fd <;> cases hr
  · exact ⟨rfl, htext, fun hcan => absurd (hlisten hcan) (by simp)⟩
  · exact ⟨rfl, htext, fun _ => rfl⟩
  · rw [reactionTo] at hok
    split_ifs at hok

theorem printsAt_listenfd {v : Version} {cfg : Config} {mem : Residue} {d : Datagram}
    {c : ChatLine} (hmem : mem.Bounded) (hfits : c.Fits) (hframe : d.payload = c.frame)
    (hplain : ¬ authCan <+: c.text)
    (hpass : ∀ r, v.receiver cfg .listenfd = some r → r.passes d.src = true) :
    printsAt v cfg .listenfd mem d c.text := by
  cases v with
  | v4 =>
    refine ⟨_, rfl, ?_⟩
    rw [receive_line hmem hfits hframe (hpass _ rfl), reactionTo, if_neg hplain]
  | v5 =>
    refine ⟨_, rfl, ?_⟩
    rw [receive_line hmem hfits hframe (hpass _ rfl), reactionTo]

omit [DecidableEq ι] in
theorem Sourced.prints {s : Net ι} (h : Sourced L labels s) (hfit : AllFit L labels) {i : ι}
    {fd : Fd} {d : Datagram} {mem : Residue} (hmem : mem.Bounded)
    (hready : ready (s.queue i) (.recv fd d mem) = true) {text : Bytes}
    (hprint : printsAt L.version (L.cfg i) fd mem d text) :
    ∃ j c, d.src = L.sock j .sockfd ∧ From L labels j c ∧ text = c.text ∧
      (c = canLine → L.version = .v5) := by
  have hd := mem_of_ready hready
  obtain ⟨j, hsrc⟩ : ∃ j, d.src = L.sock j .sockfd := by
    obtain ⟨r, hr, _⟩ := hprint
    exact h.honest.inbox i fd (receiver_ne_sockfd hr) d hd
  obtain ⟨c, hfrom, hframe⟩ := h.inbox i fd d hd j hsrc
  obtain ⟨_, htext, hcan⟩ := printsAt_frame hmem (hfrom.fits hfit) hframe hprint
  refine ⟨j, c, hsrc, hfrom, htext, ?_⟩
  rintro rfl
  exact hcan (by decide)

/-- Whatever the network does, a process of v4 or v5 prints a text of the code's
    own, or, on a line of its own, what a participant has typed before, behind
    the name of that participant; only v5 may also print a request. -/
theorem printed_was_typed {s : Net ι} (hrun : run L.step L.init labels = some s)
    (hfit : AllFit L labels) {i : ι} {fd : Fd} {d : Datagram} {mem : Residue}
    (hmem : mem.Bounded) (hready : ready (s.queue i) (.recv fd d mem) = true)
    {q : Proc × List Act}
    (hstep : ChatProcess.step L.version (L.cfg i) (s.proc i) (.recv fd d mem) = some q)
    {text : Bytes} (hprint : printLine text ∈ q.2) :
    text ∈ statusTexts ∨ (L.version = .v5 ∧ text = authCan) ∨
      ∃ j message, d.src = L.sock j .sockfd ∧ .act j (.input message) ∈ labels ∧
        isChat message = true ∧ text = shown (L.cfg j).userName (chomp (cstr message)) := by
  classical
  by_cases htext : text ∈ statusTexts
  · exact .inl htext
  have hcount := count_recv htext hstep
  have hpos := List.count_pos_iff.2 hprint
  have hprints : printsAt L.version (L.cfg i) fd mem d text := by
    by_contra hno
    rw [if_neg hno] at hcount
    omega
  obtain ⟨j, c, hsrc, hfrom, rfl, hcan⟩ := (sourced_run hrun).prints hfit hmem hready hprints
  cases hfrom with
  | request => exact .inr (.inl ⟨hcan rfl, by decide⟩)
  | said h hchat => exact .inr (.inr ⟨j, _, hsrc, h, hchat, rfl⟩)

def helloPacket : Packet :=
  chatPacket ((pair .v4).cfg .right) (createSendMsg (ascii "hello\n") (ascii "user"))
    ((pair .v4).sock .left .listenfd)

/-- After their meeting the right side says hello; one copy of two is lost. -/
def hello : List (Label Side) :=
  meeting ++ [.act .right (.input (ascii "hello\n")), .dup helloPacket, .drop helloPacket,
    .deliver helloPacket .left .listenfd]

def greeting : List (Label Side) :=
  hello ++ [.act .left (.recv .listenfd helloPacket.toDatagram clean)]

theorem greeting_runs : (run (pair .v4).step (pair .v4).init greeting).isSome = true := rfl

theorem greeting_fits : AllFit (pair .v4) greeting := by
  intro j message h
  simp only [greeting, hello, meeting, List.cons_append, List.nil_append, List.mem_cons, Label.act.injEq,
    Event.input.injEq, reduceCtorEq, and_false, List.not_mem_nil, or_false, false_or] at h
  obtain ⟨rfl, rfl⟩ := h
  decide

theorem greeting_bounded : AllBounded greeting := by
  intro i fd d mem h
  simp only [greeting, hello, meeting, List.cons_append, List.nil_append, List.mem_cons, Label.act.injEq,
    Event.recv.injEq, reduceCtorEq, and_false, List.not_mem_nil, or_false, false_or] at h
  rcases h with h | h | h | h <;> obtain ⟨_, _, _, rfl⟩ := h <;> exact isolated_nil

theorem pair_unicast : Unicast (pair .v4) where
  hears i k := by cases i <;> cases k <;> rfl
  group i k := by cases i <;> cases k <;> decide

theorem hello_arrives : (run (pair .v4).step (pair .v4).init hello).any (fun s =>
    ready (s.queue .left) (.recv .listenfd helloPacket.toDatagram clean) ∧
    (ChatProcess.step .v4 ((pair .v4).cfg .left) (s.proc .left)
      (.recv .listenfd helloPacket.toDatagram clean)).any fun q =>
        printLine (ascii "user: hello") ∈ q.2) = true := by decide +kernel

theorem printed_was_typed_hello : ∃ j message, .act j (.input message) ∈ hello ∧
    ascii "user: hello" = shown ((pair .v4).cfg j).userName (chomp (cstr message)) := by
  obtain ⟨s, hs, hview⟩ := (Option.any_eq_true _ _).1 hello_arrives
  obtain ⟨hready, hprints⟩ := of_decide_eq_true hview
  obtain ⟨q, hq, hprint⟩ := (Option.any_eq_true _ _).1 hprints
  rcases printed_was_typed (L := pair .v4) hs
    (fun j message h => greeting_fits j message (List.mem_append_left _ h))
    (show clean.Bounded from isolated_nil) hready hq (of_decide_eq_true hprint) with h | ⟨h, _⟩ |
      ⟨j, message, _, hmem, _, htext⟩
  · exact absurd h (by decide)
  · cases h
  · exact ⟨j, message, hmem, htext⟩

variable (L) in
/-- The same network as one whose processes are of any kind. -/
def network : DatagramNetworks.Network ι Fd Proc Event Datagram Packet where
  init _ := Proc.init
  act i p e := (ChatProcess.step L.version (L.cfg i) p e).map (Prod.map id packets)
  ready := ready
  takes e fd := (taken e fd).length
  enters i p fd packet := isOpen p.phase fd ∧ L.accepts i fd packet.dst = true
  arrival := Packet.toDatagram

def net (s : Net ι) : DatagramNetworks.Net ι Fd Proc Datagram Packet := ⟨s.proc, s.queue, s.flight⟩

def label : Label ι → DatagramNetworks.Label ι Fd Event Packet
  | .act i e => .act i e
  | .deliver p i fd => .deliver p i fd
  | .drop p => .drop p
  | .dup p => .dup p

omit [DecidableEq ι] in
theorem net_injective : Function.Injective (net : Net ι → _) := by
  rintro ⟨proc, queue, flight⟩ ⟨proc', queue', flight'⟩ h
  cases h
  rfl

theorem network_step (s : Net ι) (l : Label ι) :
    (network L).step (net s) (label l) = (L.step s l).map net := by
  cases l with
  | act i e =>
    have hact : (network L).act i ((net s).proc i) e =
        (ChatProcess.step L.version (L.cfg i) (s.proc i) e).map (Prod.map id packets) := rfl
    by_cases hready : ready (s.queue i) e = true
    · have hready' : (network L).ready ((net s).queue i) e = true := hready
      rw [label, DatagramNetworks.Network.step, if_pos hready', hact, Lan.step, if_pos hready,
        Option.map_map, Option.map_map]
      rfl
    · have hready' : ¬ (network L).ready ((net s).queue i) e = true := hready
      rw [label, DatagramNetworks.Network.step, if_neg hready', Lan.step, if_neg hready]
      rfl
  | deliver p i fd =>
    rw [label, DatagramNetworks.Network.step, Lan.step, apply_ite (Option.map net)]
    exact if_congr (and_congr_right fun _ => decide_eq_true_iff) rfl rfl
  | drop p | dup p =>
    rw [label, DatagramNetworks.Network.step, Lan.step, apply_ite (Option.map net)]
    rfl

theorem step_network {s t : Net ι} {l : Label ι} :
    (network L).step (net s) (label l) = some (net t) ↔ L.step s l = some t := by
  rw [network_step, ← Option.map_some, (Option.map_injective net_injective).eq_iff]

section Ledger

variable (L) (i j : ι) (said : Bytes)

def carries (d : Datagram) : Bool :=
  d.src = L.sock j .sockfd ∧ d.payload.drop 4 = shown (L.cfg j).userName said

def isBound (p : Packet) : Bool :=
  carries L j said p.toDatagram ∧ p.dst = L.sock i .listenfd

/-- The copies for `i` of what `j` has said that may still arrive. -/
def pendingLine (s : Net ι) : ℕ :=
  s.flight.countP (isBound L i j said) + (s.queue i .listenfd).countP (carries L j said)

/-- A line goes to `i` once for each of its entries in the table of `j`. -/
def sentLine (s : Net ι) : Label ι → ℕ
  | .act k (.input message) =>
    if k = j ∧ isChat message = true ∧ chomp (cstr message) = said then
      (s.proc j).peers.count (L.sock i .listenfd)
    else 0
  | _ => 0

/-- What `i` prints of a datagram from `j`. -/
def printedLine (s : Net ι) : Label ι → ℕ
  | .act k (.recv fd d mem) =>
    if k = i ∧ d.src = L.sock j .sockfd then
      ((ChatProcess.step L.version (L.cfg i) (s.proc i) (.recv fd d mem)).map fun q =>
        q.2.count (printLine (shown (L.cfg j).userName said))).getD 0
    else 0
  | _ => 0

def doubledLine (_ : Net ι) : Label ι → ℕ
  | .dup p => if isBound L i j said p then 1 else 0
  | _ => 0

def lostLine (_ : Net ι) : Label ι → ℕ
  | .drop p => if isBound L i j said p then 1 else 0
  | _ => 0

variable {L i j said}

omit [DecidableEq ι] in
theorem carries_iff {d : Datagram} {c : ChatLine} (hsrc : d.src = L.sock j .sockfd)
    (hfits : c.Fits) (hframe : d.payload = c.frame) :
    carries L j said d = true ↔ c.text = shown (L.cfg j).userName said := by
  rw [carries, decide_eq_true_eq, payload_drop hfits hframe]
  exact and_iff_right hsrc

theorem isBound_chatPacket {k : ι} {message : Bytes} (a : SockAddr)
    (hlt : lengthField (L.cfg k).userName (cstr message) < 2 ^ 31) :
    isBound L i j said
        (chatPacket (L.cfg k) (createSendMsg (cstr message) (L.cfg k).userName) a) =
      decide ((k = j ∧ chomp (cstr message) = said) ∧ a = L.sock i .listenfd) := by
  have hsock : L.sock k .sockfd = L.sock j .sockfd ↔ k = j :=
    ⟨sock_injective, fun h => h ▸ rfl⟩
  have hdrop := createSendMsg_drop hlt
  simp only [isBound, carries, decide_eq_true_eq]
  apply decide_eq_decide.2
  change ((L.sock k .sockfd = L.sock j .sockfd ∧ _) ∧ a = _) ↔ _
  rw [hsock, chatPacket, hdrop]
  refine and_congr_left fun _ => and_congr_right fun hk => ?_
  subst k
  exact shown_injective

theorem countP_sent {s : Net ι} {k : ι} {e : Event} {p : Proc} {sent : List Packet}
    (hfit : AllFit L labels) (hmem : .act k e ∈ labels)
    (hplain : ¬ authCan <+: shown (L.cfg j).userName said)
    (h : Turn L.version (L.cfg k) (s.proc k) e p sent) :
    sent.countP (isBound L i j said) = sentLine L i j said s (.act k e) := by
  have hcan (sock dst : SockAddr) : isBound L i j said (canPacket sock dst) = false := by
    refine decide_eq_false fun hbound => hplain ?_
    have htext := (of_decide_eq_true hbound.1).2
    exact (canPacket_drop sock dst).trans (htext ▸ List.prefix_rfl)
  cases h with
  | start => simp [sentLine, hcan]
  | find hp hend hfind => simp [sentLine, hcan, isChat, hfind]
  | leave hp hend => simp [sentLine, isChat, hend]
  | offered | pselectError | alarm | confirm | refuse | dismiss | eof => simp [sentLine]
  | @accept fd d mem r hp hr hok =>
    have hno : isBound L i j said (ofcPacket ((L.cfg k).sock fd) d.src) = false :=
      decide_eq_false fun hbound =>
        sock_sockfd_ne (receiver_ne_sockfd hr) (of_decide_eq_true hbound.1).1
    simp [sentLine, hno]
  | @chat message hp hend hfind =>
    have hle := hfit k message hmem
    have hlt : lengthField (L.cfg k).userName (cstr message) < 2 ^ 31 := by omega
    have hchat : isChat message = true := decide_eq_true ⟨hend, hfind⟩
    rw [List.countP_map]
    simp only [Function.comp_def, isBound_chatPacket _ hlt, sentLine, hchat]
    by_cases hline : k = j ∧ chomp (cstr message) = said
    · obtain ⟨rfl, rfl⟩ := hline
      simp [List.count, beq_eq_decide]
    · simp [hline]

theorem count_printed {s : Net ι} (h : Sourced L labels s) (hfit : AllFit L labels)
    (hbounded : AllBounded labels) (hplain : ¬ authCan <+: shown (L.cfg j).userName said)
    (hpass : ∀ r, L.version.receiver (L.cfg i) .listenfd = some r →
      r.passes (L.sock j .sockfd) = true)
    {k : ι} {e : Event} {q : Proc × List Act} (hmem : .act k e ∈ labels)
    (hready : ready (s.queue k) e = true)
    (hstep : ChatProcess.step L.version (L.cfg k) (s.proc k) e = some q) :
    printedLine L i j said s (.act k e) =
      if k = i then (taken e .listenfd).countP (carries L j said) else 0 := by
  classical
  cases e with
  | start | pselect | alarm | input | eof => simp [printedLine, taken]
  | recv fd d mem =>
    by_cases hk : k = i
    swap
    · simp [printedLine, hk]
    subst k
    simp only [printedLine, true_and, hstep, Option.map_some, Option.getD_some,
      count_recv (shown_notMem_status _ _) hstep, if_true]
    by_cases hsrc : d.src = L.sock j .sockfd
    swap
    · have hno : carries L j said d = false := decide_eq_false fun hc => hsrc hc.1
      cases fd <;> simp [taken, hsrc, hno]
    obtain ⟨c, hfrom, hframe⟩ := h.inbox i fd d (mem_of_ready hready) j hsrc
    have hfits := hfrom.fits hfit
    have hbound := hbounded i fd d mem hmem
    have hcarries : carries L j said d = true ↔ _ := carries_iff hsrc hfits hframe
    rw [if_pos hsrc]
    by_cases hlisten : fd = .listenfd
    · subst fd
      have htaken : taken (.recv .listenfd d mem) .listenfd = [d] := rfl
      rw [htaken, List.countP_singleton]
      refine if_congr ⟨fun hprint => hcarries.2 ?_, fun hc => ?_⟩ rfl rfl
      · exact (printsAt_frame hbound hfits hframe hprint).2.1.symm
      · rw [← hcarries.1 hc] at hplain ⊢
        exact printsAt_listenfd hbound hfits hframe hplain fun r hr => hsrc ▸ hpass r hr
    · have htaken : taken (.recv fd d mem) .listenfd = [] := if_neg (Ne.symm hlisten)
      rw [htaken, List.countP_nil, if_neg]
      exact fun hprint => hlisten (printsAt_frame hbound hfits hframe hprint).1

omit [DecidableEq ι] in
/-- A copy for `i` is taken in at the listener of `i`, and nothing else that it
    takes in is one. -/
theorem delivered_isBound (hunicast : Unicast L) {s : Net ι} (h : Sourced L labels s)
    (hplain : ¬ authCan <+: shown (L.cfg j).userName said) {p : Packet} (hp : p ∈ s.flight)
    {k : ι} {fd : Fd} (hdst : L.accepts k fd p.dst = true) :
    isBound L i j said p = true ↔
      (k = i ∧ fd = .listenfd) ∧ carries L j said p.toDatagram = true := by
  rw [isBound, decide_eq_true_eq, and_comm]
  refine and_congr_left fun hcarries => ?_
  constructor
  · intro hto
    rw [hto] at hdst
    cases fd with
    | sockfd => exact absurd (of_decide_eq_true hdst) (sock_sockfd_ne (by simp))
    | listenfd =>
      rcases (of_decide_eq_true hdst).2 with haddr | hhears
      · exact ⟨L.addr_injective haddr.symm, rfl⟩
      · rw [show (L.sock i .listenfd).sinAddr = (L.cfg i).addr from rfl, hunicast.hears] at hhears
        cases hhears
    | joinfd =>
      have haddr := congrArg SockAddr.sinAddr (of_decide_eq_true hdst).2
      exact absurd haddr.symm (hunicast.group k i)
  · rintro ⟨rfl, rfl⟩
    have hsrc := (of_decide_eq_true hcarries).1
    obtain ⟨c, hc, hframe, hcan | ⟨m, hm⟩⟩ := h.flight p hp j hsrc
    · have htext := (carries_iff hsrc (c := c) (by rw [hcan]; decide) hframe).1 hcarries
      rw [← htext, hcan] at hplain
      exact absurd (by decide) hplain
    · rw [hm] at hdst ⊢
      rcases (of_decide_eq_true hdst).2 with haddr | hhears
      · rw [L.addr_injective haddr]
      · rw [show (L.sock m .listenfd).sinAddr = (L.cfg m).addr from rfl, hunicast.hears] at hhears
        cases hhears

theorem ledger_step (hunicast : Unicast L) (hfit : AllFit L labels)
    (hbounded : AllBounded labels) (hplain : ¬ authCan <+: shown (L.cfg j).userName said)
    (hpass : ∀ r, L.version.receiver (L.cfg i) .listenfd = some r →
      r.passes (L.sock j .sockfd) = true)
    {s t : Net ι} {l : Label ι} (h : Sourced L labels s) (hl : l ∈ labels)
    (hstep : L.step s l = some t) :
    pendingLine L i j said s + (sentLine L i j said s l + doubledLine L i j said s l) =
      pendingLine L i j said t + (printedLine L i j said s l + lostLine L i j said s l) := by
  have hbalance : pendingLine L i j said s +
      ((network L).sent (isBound L i j said) (net s) (label l) + doubledLine L i j said s l) =
      pendingLine L i j said t +
        ((network L).taken (carries L j said) i .listenfd (net s) (label l) +
          lostLine L i j said s l) := by
    have hall := DatagramNetworks.Network.pending_step (fun p hp k fd henters =>
      delivered_isBound (i := i) hunicast h hplain hp (of_decide_eq_true henters).2)
      (step_network.2 hstep)
    cases l <;> exact hall
  cases l with
  | act k e =>
    simp only [Lan.step] at hstep
    split_ifs at hstep with hready
    obtain ⟨q, hq, rfl⟩ := Option.map_eq_some_iff.1 hstep
    have hsent : (network L).sent (isBound L i j said) (net s) (label (.act k e)) =
        sentLine L i j said s (.act k e) := by
      rw [← countP_sent hfit hl hplain (turn_of_step hq)]
      simp [DatagramNetworks.Network.sent, label, network, net, hq]
    have htaken : (network L).taken (carries L j said) i .listenfd (net s) (label (.act k e)) =
        printedLine L i j said s (.act k e) := by
      rw [count_printed h hfit hbounded hplain hpass hl hready hq]
      by_cases hk : k = i
      · subst k
        have hfront := taken_append_consume hready .listenfd
        have htake := List.prefix_iff_eq_take.1 ⟨_, hfront.symm⟩
        rw [htake]
        rfl
      · simp [DatagramNetworks.Network.taken, label, hk]
    rwa [hsent, htaken] at hbalance
  | deliver | drop | dup => exact hbalance

end Ledger

/-- Of what `j` has said to `i`, and of the copies that the network has made of
    it, each is printed at `i` once, or has been lost, or is in flight or unread. -/
theorem lines_conserved (L : Lan ι) (hunicast : Unicast L) {labels : List (Label ι)}
    (hfit : AllFit L labels) (hbounded : AllBounded labels) (i j : ι) (said : Bytes)
    (hplain : ¬ authCan <+: shown (L.cfg j).userName said)
    (hpass : ∀ r, L.version.receiver (L.cfg i) .listenfd = some r →
      r.passes (L.sock j .sockfd) = true)
    {s : Net ι} (hrun : run L.step L.init labels = some s) :
    tally L.step (sentLine L i j said) L.init labels +
        tally L.step (doubledLine L i j said) L.init labels =
      pendingLine L i j said s + (tally L.step (printedLine L i j said) L.init labels +
        tally L.step (lostLine L i j said) L.init labels) := by
  have h := tally_balance (B := pendingLine L i j said) (A := (· ∈ labels))
    (fun _ _ _ h hl hstep => Sourced.move h hl (move_of_step hstep))
    (fun _ _ _ h hl hstep => ledger_step hunicast hfit hbounded hplain hpass h hl hstep)
    sourced_init (fun _ hl => hl) hrun
  have hnone : pendingLine L i j said L.init = 0 := rfl
  rwa [hnone, zero_add, tally_add, tally_add] at h

theorem lines_conserved_greeting : ∃ s,
    run (pair .v4).step (pair .v4).init greeting = some s ∧
    1 + 1 = pendingLine (pair .v4) .left .right (ascii "hello") s + (1 + 1) := by
  obtain ⟨s, hs⟩ := Option.isSome_iff_exists.1 greeting_runs
  exact ⟨s, hs, lines_conserved (pair .v4) pair_unicast greeting_fits greeting_bounded .left .right
    (ascii "hello") (by decide +kernel) (fun r hr => by cases hr; decide +kernel) hs⟩

end LanChat.ChatDelivery

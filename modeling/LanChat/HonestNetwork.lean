import LanChat.ChatNetwork

set_option autoImplicit false

/-!
# What an honest network carries

No datagram is forged, but any of them may be lost, delayed, reordered or
doubled. Requests and chat come from a `sockfd` and go to `CHAT_PORT`; offers
come from `CHAT_PORT` and go to the `sockfd` of the one who asked.
-/
namespace LanChat.HonestNetwork
open CStrings HexText FrameCodec SocketAddresses DatagramReceive TransitionRuns ChatProcess
  ChatNetwork

variable {ι : Type*} (L : Lan ι)

def offer (j : ι) : Datagram := ⟨L.sock j .listenfd, createSendMsgStatic authOfc⟩

def offerTo (b a : ι) : Packet := ⟨offer L b, L.sock a .sockfd⟩

def isOfc (p : Packet) : Bool :=
  p.src.sinPort = chatPort ∧ p.payload = createSendMsgStatic authOfc

/-- What may be in flight, when `R i j` says that `i` may come to know `j`. -/
inductive Legitimate (R : ι → ι → Prop) : Packet → Prop where
  | toChat {p : Packet} (i : ι) (hsrc : p.src = L.sock i .sockfd)
      (hport : p.dst.sinPort = chatPort) : Legitimate R p
  | toAsker (i j : ι) (hR : R i j) : Legitimate R (offerTo L j i)

structure Honest (R : ι → ι → Prop) (s : Net ι) : Prop where
  flight : ∀ p ∈ s.flight, Legitimate L R p
  offers : ∀ i, ∀ d ∈ s.queue i .sockfd, ∃ j, R i j ∧ d = offer L j
  inbox : ∀ i fd, fd ≠ .sockfd → ∀ d ∈ s.queue i fd, ∃ j, d.src = L.sock j .sockfd
  table : ∀ i, ∀ a ∈ (s.proc i).peers, ∃ j, R i j ∧ a = L.sock j .listenfd
  confirmed : ∀ i, (s.proc i).phase ≠ .failed .authTryConfirm ∧
    (s.proc i).phase ≠ .failed .rcvfrom

/-- A process that lets a datagram of another one through knows it afterwards,
    and is known by it. -/
def Admits (R : ι → ι → Prop) : Prop :=
  ∀ i j fd r, L.version.receiver (L.cfg i) fd = some r →
    r.passes (L.sock j .sockfd) = true → R i j ∧ R j i

/-- The same, as far as one event is concerned. -/
def AdmitsAt (R : ι → ι → Prop) (i : ι) (e : Event) : Prop :=
  ∀ j fd d mem r, e = .recv fd d mem → L.version.receiver (L.cfg i) fd = some r →
    d.src = L.sock j .sockfd → receive r mem d = .ok .accept → R i j ∧ R j i

variable {L} {R : ι → ι → Prop}

theorem Admits.at (h : Admits L R) (i : ι) (e : Event) : AdmitsAt L R i e := by
  intro j fd d mem r _ hr hsrc hok
  apply h i j fd r hr
  rw [← hsrc]
  exact passes_of_receive hok (by simp)

theorem honest_init : Honest L R L.init where
  flight := by simp [Lan.init]
  offers := by simp [Lan.init]
  inbox := by simp [Lan.init]
  table := by simp [Lan.init, Proc.init]
  confirmed := by simp [Lan.init, Proc.init]

theorem sock_injective {i j : ι} {fd fd' : Fd} (h : L.sock i fd = L.sock j fd') : i = j := by
  apply L.addr_injective
  have haddr := congrArg SockAddr.sinAddr h
  cases fd <;> cases fd' <;> exact haddr

theorem legitimate_canPacket (i : ι) :
    Legitimate L R (canPacket ((L.cfg i).sock .sockfd) (L.cfg i).groupAddr) := .toChat i rfl rfl

theorem legitimate_chatPacket (i j : ι) (toSend : Bytes) :
    Legitimate L R (chatPacket (L.cfg i) toSend (L.sock j .listenfd)) := .toChat i rfl rfl

theorem legitimate_ofcPacket {i j : ι} {fd : Fd} (hfd : fd ≠ .sockfd) (hR : R j i) :
    Legitimate L R (ofcPacket ((L.cfg i).sock fd) (L.sock j .sockfd)) := by
  cases fd with
  | sockfd => exact absurd rfl hfd
  | listenfd | joinfd => exact .toAsker j i hR

theorem isOfc_offerTo (b a : ι) : isOfc (offerTo L b a) = true :=
  decide_eq_true ⟨rfl, rfl⟩

theorem isOfc_sockfd {p : Packet} {i : ι} (h : p.src = L.sock i .sockfd) : isOfc p = false := by
  refine decide_eq_false fun hofc => (L.cfg i).sockport_ne ?_
  rw [← hofc.1, h]
  rfl

theorem receiver_ne_sockfd {cfg : Config} {v : Version} {fd : Fd} {r : Receiver}
    (h : v.receiver cfg fd = some r) : fd ≠ .sockfd := by
  rintro rfl
  cases h

theorem admits_all : Admits L fun _ _ => True := fun _ _ _ _ _ _ => ⟨trivial, trivial⟩

theorem accepts_offerTo {b a i : ι} {fd : Fd} (h : L.accepts i fd (offerTo L b a).dst = true) :
    fd = .sockfd ∧ i = a := by
  have hport : (offerTo L b a).dst.sinPort ≠ chatPort := (L.cfg a).sockport_ne
  cases fd with
  | sockfd =>
    have hsock : L.sock a .sockfd = L.sock i .sockfd := of_decide_eq_true h
    exact ⟨rfl, (sock_injective hsock).symm⟩
  | listenfd => exact absurd (of_decide_eq_true h).1 hport
  | joinfd => exact absurd (congrArg SockAddr.sinPort (of_decide_eq_true h).2) hport

theorem Legitimate.at_sockfd {p : Packet} {i : ι} (h : Legitimate L R p)
    (hdst : L.accepts i .sockfd p.dst = true) : ∃ j, R i j ∧ p.toDatagram = offer L j := by
  have hsock : p.dst = L.sock i .sockfd := of_decide_eq_true hdst
  cases h with
  | toChat k hsrc hport =>
    rw [hsock] at hport
    exact absurd hport (L.cfg i).sockport_ne
  | toAsker k j hR =>
    have hk : L.sock k .sockfd = L.sock i .sockfd := hsock
    obtain rfl := sock_injective hk
    exact ⟨j, hR, rfl⟩

theorem Legitimate.at_listener {p : Packet} {i : ι} {fd : Fd} (h : Legitimate L R p)
    (hfd : fd ≠ .sockfd) (hdst : L.accepts i fd p.dst = true) :
    ∃ j, p.src = L.sock j .sockfd := by
  have hport : p.dst.sinPort = chatPort := by
    cases fd with
    | sockfd => exact absurd rfl hfd
    | listenfd => exact (of_decide_eq_true hdst).1
    | joinfd =>
      rw [(of_decide_eq_true hdst).2]
      rfl
  cases h with
  | toChat k hsrc _ => exact ⟨k, hsrc⟩
  | toAsker k j hR => exact absurd hport (L.cfg k).sockport_ne

theorem addPeer_phase (p : Proc) (a : SockAddr) {next : Phase} (e : ErrSys)
    (hnext : next ≠ .failed e) : (addPeer p a next).phase ≠ .failed e := by
  rcases addPeer_phase_eq p a next with hphase | ⟨n, hphase⟩
  · rwa [hphase]
  · rw [hphase]
    simp

theorem admits_others (hversion : L.version = .v4)
    (hbind : ∀ i, (L.cfg i).bindAddr = inetNtop (L.cfg i).addr) : Admits L fun i j => j ≠ i := by
  rintro i j fd r hr hpass
  have hne : j ≠ i := by
    rintro rfl
    have hr4 : r = .v4 (L.cfg j).bindAddr := by
      rw [hversion] at hr
      cases fd <;> simp [Version.receiver] at hr
      exact hr.symm
    rw [hr4, passes_v4_iff, hbind] at hpass
    exact hpass (sockNtop_begins (L.sock j .sockfd))
  exact ⟨hne, hne.symm⟩

variable [DecidableEq ι]

theorem Honest.acted {s : Net ι} (h : Honest L R s) {i : ι} {e : Event} {p : Proc}
    {sent : List Packet} (hsent : ∀ q ∈ sent, Legitimate L R q)
    (htable : ∀ a ∈ p.peers, ∃ j, R i j ∧ a = L.sock j .listenfd)
    (hphase : p.phase ≠ .failed .authTryConfirm ∧ p.phase ≠ .failed .rcvfrom) :
    Honest L R (s.acted i e p sent) where
  flight q hq := by
    rcases List.mem_append.1 hq with hq | hq
    · exact h.flight q hq
    · exact hsent q hq
  offers j d hd := h.offers j d (Net.mem_acted_queue hd)
  inbox j fd hfd d hd := h.inbox j fd hfd d (Net.mem_acted_queue hd)
  table j a ha := by
    by_cases hj : j = i
    · subst j
      rw [Net.acted_proc_self] at ha
      exact htable a ha
    · rw [Net.acted_proc_ne s e p sent hj] at ha
      exact h.table j a ha
  confirmed j := by
    by_cases hj : j = i
    · subst j
      rwa [Net.acted_proc_self]
    · rw [Net.acted_proc_ne s e p sent hj]
      exact h.confirmed j

theorem Honest.delivered {s : Net ι} (h : Honest L R s) {p : Packet} {i : ι} {fd : Fd}
    (hp : p ∈ s.flight) (hdst : L.accepts i fd p.dst = true) :
    Honest L R (s.delivered p i fd) where
  flight q hq := h.flight q (List.mem_of_mem_erase hq)
  offers j d hd := by
    rcases Net.mem_delivered_queue hd with hd | ⟨rfl, rfl, rfl⟩
    · exact h.offers j d hd
    · exact (h.flight p hp).at_sockfd hdst
  inbox j fd' hfd d hd := by
    rcases Net.mem_delivered_queue hd with hd | ⟨rfl, rfl, rfl⟩
    · exact h.inbox j fd' hfd d hd
    · exact (h.flight p hp).at_listener hfd hdst
  table := h.table
  confirmed := h.confirmed

theorem Honest.addPeer {s : Net ι} (h : Honest L R s) {i j : ι} {a : SockAddr} {e : Event}
    {next : Phase} {sent : List Packet} (hR : R i j) (ha : a = L.sock j .listenfd)
    (hsent : ∀ q ∈ sent, Legitimate L R q) (hnext : ∀ err, next ≠ .failed err) :
    Honest L R (s.acted i e (addPeer (s.proc i) a next) sent) := by
  refine h.acted hsent ?_ ⟨addPeer_phase _ a _ (hnext _), addPeer_phase _ a _ (hnext _)⟩
  intro b hb
  rcases List.mem_append.1 hb with hb | hb
  · exact h.table i b hb
  · exact ⟨j, hR, (List.mem_singleton.1 hb).trans ha⟩

theorem Honest.turn {s : Net ι} (h : Honest L R s) {i : ι} {e : Event} {p : Proc}
    {sent : List Packet} (hadmits : AdmitsAt L R i e) (hready : ready (s.queue i) e = true)
    (hturn : Turn L.version (L.cfg i) (s.proc i) e p sent) : Honest L R (s.acted i e p sent) := by
  cases hturn with
  | start hp => exact h.acted (by simpa using legitimate_canPacket i) (h.table i) (by simp)
  | offered | pselectError | alarm | leave => exact h.acted (by simp) (h.table i) (by simp)
  | confirm hp hc =>
    obtain ⟨j, hR, hd⟩ := h.offers i _ (mem_of_ready hready)
    apply h.addPeer hR (congrArg Datagram.src hd) (by simp)
    rcases hp with ⟨rset, _, rfl⟩ | ⟨_, rfl⟩ <;> simp
  | refuse hp hc =>
    obtain ⟨j, hR, hd⟩ := h.offers i _ (mem_of_ready hready)
    rw [hd, offer, authTryConfirm_ofc] at hc
    cases hc
  | @accept fd d mem r hp hr hok =>
    have hfd := receiver_ne_sockfd hr
    obtain ⟨j, hsrc⟩ := h.inbox i fd hfd d (mem_of_ready hready)
    obtain ⟨hij, hji⟩ := hadmits j fd d mem r rfl hr hsrc hok
    rw [hsrc]
    exact h.addPeer hij rfl (by simpa using legitimate_ofcPacket hfd hji) (by simp)
  | dismiss hp hr hno hnext =>
    refine h.acted (by simp) (h.table i) ?_
    rcases hnext with rfl | ⟨f, rfl⟩ <;> simp
  | find hp => exact h.acted (by simpa using legitimate_canPacket i) (h.table i) (by simp)
  | chat hp =>
    refine h.acted ?_ (h.table i) (h.confirmed i)
    intro q hq
    obtain ⟨a, ha, rfl⟩ := List.mem_map.1 hq
    obtain ⟨j, _, rfl⟩ := h.table i a ha
    exact legitimate_chatPacket i j _
  | eof => exact h.acted (by simp) (h.table i) (h.confirmed i)

theorem Honest.move_at {s t : Net ι} (h : Honest L R s) {l : Label ι}
    (hadmits : ∀ i e, l = .act i e → AdmitsAt L R i e) (hmove : Move L s l t) : Honest L R t := by
  cases hmove with
  | act hready hturn => exact h.turn (hadmits _ _ rfl) hready hturn
  | deliver hp hopen hdst => exact h.delivered hp hdst
  | drop hp => exact { h with flight := fun q hq => h.flight q (List.mem_of_mem_erase hq) }
  | dup hp => exact { h with flight := List.forall_mem_cons.2 ⟨h.flight _ hp, h.flight⟩ }

theorem Honest.move {s t : Net ι} (h : Honest L R s) (hadmits : Admits L R) {l : Label ι}
    (hmove : Move L s l t) : Honest L R t :=
  h.move_at (fun i e _ => hadmits.at i e) hmove

/-- The rules are kept along every run, whatever the network does. -/
theorem honest_run (hadmits : Admits L R) {labels : List (Label ι)} {s : Net ι}
    (hrun : run L.step L.init labels = some s) : Honest L R s :=
  run_preserves (fun _ _ _ h hstep => h.move hadmits (move_of_step hstep)) honest_init hrun

/-- What `pselect` waits on besides `sockfd` was in the set from the beginning,
    and no more than one descriptor is ready at once where nothing was. -/
def Waits (cfg : Config) : Phase → Prop
  | .finding rset | .offered rset => rset.Sublist cfg.rset
  | .failed (.pselectReturned _) => cfg.rset ≠ []
  | _ => True

theorem addPeer_waits {cfg : Config} {p : Proc} (a : SockAddr) {next : Phase}
    (h : Waits cfg next) : Waits cfg (addPeer p a next).phase := by
  rcases addPeer_phase_eq p a next with hphase | ⟨n, hphase⟩
  · rwa [hphase]
  · rw [hphase]
    trivial

theorem waits_turn {v : Version} {cfg : Config} {p q : Proc} {e : Event} {sent : List Packet}
    (h : Waits cfg p.phase) (hturn : Turn v cfg p e q sent) : Waits cfg q.phase := by
  cases hturn with
  | start => exact List.Sublist.refl _
  | offered hp hr =>
    rw [hp] at h
    exact hr.trans h
  | @pselectError rset ready sock hp hr hpos hn =>
    rw [hp] at h
    intro hnil
    have hready : ready = [] := List.sublist_nil.1 (hnil ▸ hr.trans h)
    subst ready
    cases sock <;> simp at hpos hn
  | confirm hp hc =>
    apply addPeer_waits
    rcases hp with ⟨rset, hp, rfl⟩ | ⟨hp, rfl⟩
    · rwa [hp] at h
    · trivial
  | refuse hp hc => rcases hp with ⟨rset, hp, rfl⟩ | ⟨hp, rfl⟩ <;> trivial
  | accept hp hr hok => exact addPeer_waits _ trivial
  | dismiss hp hr hno hnext => rcases hnext with rfl | ⟨f, rfl⟩ <;> trivial
  | alarm | leave | find => trivial
  | chat | eof => exact h

theorem waits_run {labels : List (Label ι)} {s : Net ι}
    (hrun : run L.step L.init labels = some s) (i : ι) : Waits (L.cfg i) (s.proc i).phase := by
  refine run_preserves (I := fun s => ∀ i, Waits (L.cfg i) (s.proc i).phase) ?_ ?_ hrun i
  swap
  · intro j
    trivial
  intro s l t h hstep j
  cases move_of_step hstep with
  | @act i e p sent hready hturn =>
    by_cases hj : j = i
    · subst j
      rw [Net.acted_proc_self]
      exact waits_turn (h i) hturn
    · rw [Net.acted_proc_ne s e p sent hj]
      exact h j
  | deliver | drop | dup => exact h j

/-- Whatever an honest network loses, doubles or reorders: a `sockfd` only ever
    holds offers of others, so that no process fails for one that is not, and a
    table only holds the chat addresses of others, so that chat goes to these. -/
theorem sockets_and_tables_honest (hversion : L.version = .v4)
    (hbind : ∀ i, (L.cfg i).bindAddr = inetNtop (L.cfg i).addr) {labels : List (Label ι)}
    {s : Net ι} (hrun : run L.step L.init labels = some s) :
    (∀ i, ∀ d ∈ s.queue i .sockfd,
      ∃ j, j ≠ i ∧ d = ⟨⟨(L.cfg j).addr, chatPort⟩, createSendMsgStatic authOfc⟩ ∧
        ∀ mem, authTryConfirm mem d = true) ∧
    (∀ i e, (s.proc i).phase = .failed e → ∃ n, e = .pselectReturned n ∧ (L.cfg i).rset ≠ []) ∧
    (∀ i, ∀ a ∈ (s.proc i).peers, ∃ j, j ≠ i ∧ a = ⟨(L.cfg j).addr, chatPort⟩) ∧
    (∀ i toSend, ∀ q ∈ packets (fanOut (L.cfg i) (s.proc i).peers toSend),
      ∃ j, j ≠ i ∧ q.dst = ⟨(L.cfg j).addr, chatPort⟩) := by
  have h := honest_run (admits_others hversion hbind) hrun
  refine ⟨?_, ?_, h.table, ?_⟩
  · intro i d hd
    obtain ⟨j, hj, rfl⟩ := h.offers i d hd
    exact ⟨j, hj, rfl, fun mem => authTryConfirm_ofc mem _⟩
  · intro i e he
    have hwaits := waits_run hrun i
    cases e with
    | pselectReturned n =>
      rw [he] at hwaits
      exact ⟨n, rfl, hwaits⟩
    | authTryConfirm => exact absurd he (h.confirmed i).1
    | rcvfrom => exact absurd he (h.confirmed i).2
  · intro i toSend q hq
    rw [packets_fanOut] at hq
    obtain ⟨a, ha, rfl⟩ := List.mem_map.1 hq
    exact h.table i a ha

theorem meeting_honest : ∃ s, run (pair .v4).step (pair .v4).init meeting = some s ∧
    ∀ i, ∀ a ∈ (s.proc i).peers, ∃ j, j ≠ i ∧ a = ⟨((pair .v4).cfg j).addr, chatPort⟩ := by
  obtain ⟨s, hs⟩ := Option.isSome_iff_exists.1 meeting_runs
  have h := sockets_and_tables_honest (L := pair .v4) rfl (fun i => by cases i <;> rfl) hs
  exact ⟨s, hs, h.2.2.1⟩

end LanChat.HonestNetwork

import LanChat.HonestNetwork

set_option autoImplicit false

/-!
# The network with its requests numbered

The code tells no request from another, nor an answer from another of the same
host. Here each process counts its requests, and everything in flight or unread
has the number of the request that it is or answers. Nothing depends on the
numbers: this network does what the other one does.
-/
namespace LanChat.RequestNumbers
open CStrings HexText FrameCodec SocketAddresses DatagramReceive TransitionRuns ChatProcess
  ChatNetwork HonestNetwork

/-- With the number that the one who asked has given to the request; zero where
    there is none. -/
abbrev Numbered (α : Type*) := α × ℕ

structure NumberedNet (ι : Type*) where
  proc : ι → Proc
  queue : ι → Fd → List (Numbered Datagram)
  flight : List (Numbered Packet)
  asked : ι → ℕ

inductive NumberedLabel (ι : Type*) where
  | act (i : ι) (e : Event)
  | deliver (p : Numbered Packet) (i : ι) (fd : Fd)
  | drop (p : Numbered Packet)
  | dup (p : Numbered Packet)

def asks : Event → Bool
  | .start => true
  | .input message => !isCommand message cmdEnd && isCommand message cmdFind
  | _ => false

variable {ι : Type*}

def unnumber : NumberedLabel ι → Label ι
  | .act i e => .act i e
  | .deliver p i fd => .deliver p.1 i fd
  | .drop p => .drop p.1
  | .dup p => .dup p.1

namespace NumberedNet

def init : NumberedNet ι := ⟨fun _ => Proc.init, fun _ _ => [], [], fun _ => 0⟩

def bare (s : NumberedNet ι) (i : ι) (fd : Fd) : List Datagram := (s.queue i fd).map Prod.fst

/-- The number of what an event sends: that of the datagram which it answers, or
    the next one. -/
def number (s : NumberedNet ι) (i : ι) : Event → ℕ
  | .recv fd _ _ => ((s.queue i fd).head?.map Prod.snd).getD 0
  | e => if asks e then s.asked i + 1 else 0

variable [DecidableEq ι]

def acted (s : NumberedNet ι) (i : ι) (e : Event) (p : Proc) (sent : List Packet) :
    NumberedNet ι where
  proc := Function.update s.proc i p
  queue := Function.update s.queue i fun fd => (s.queue i fd).drop (taken e fd).length
  flight := s.flight ++ sent.map fun q => (q, s.number i e)
  asked := Function.update s.asked i (s.asked i + (asks e).toNat)

def delivered (s : NumberedNet ι) (p : Numbered Packet) (i : ι) (fd : Fd) : NumberedNet ι where
  proc := s.proc
  queue := Function.update s.queue i
    (Function.update (s.queue i) fd (s.queue i fd ++ [(p.1.toDatagram, p.2)]))
  flight := s.flight.erase p
  asked := s.asked

@[simp] theorem acted_proc_self (s : NumberedNet ι) (i : ι) (e : Event) (p : Proc)
    (sent : List Packet) : (s.acted i e p sent).proc i = p := by simp [acted]

theorem acted_proc_ne (s : NumberedNet ι) {i j : ι} (e : Event) (p : Proc) (sent : List Packet)
    (h : j ≠ i) : (s.acted i e p sent).proc j = s.proc j := by simp [acted, h]

@[simp] theorem acted_queue_self (s : NumberedNet ι) (i : ι) (e : Event) (p : Proc)
    (sent : List Packet) (fd : Fd) :
    (s.acted i e p sent).queue i fd = (s.queue i fd).drop (taken e fd).length := by simp [acted]

theorem acted_queue_ne (s : NumberedNet ι) {i j : ι} (e : Event) (p : Proc) (sent : List Packet)
    (h : j ≠ i) : (s.acted i e p sent).queue j = s.queue j := by simp [acted, h]

@[simp] theorem delivered_queue_self (s : NumberedNet ι) (p : Numbered Packet) (i : ι) (fd : Fd) :
    (s.delivered p i fd).queue i fd = s.queue i fd ++ [(p.1.toDatagram, p.2)] := by
  simp [delivered]

theorem delivered_queue_ne (s : NumberedNet ι) (p : Numbered Packet) {i j : ι} {fd fd' : Fd}
    (h : ¬ (j = i ∧ fd' = fd)) : (s.delivered p i fd).queue j fd' = s.queue j fd' := by
  by_cases hj : j = i
  · subst j
    have hfd : fd' ≠ fd := fun e => h ⟨rfl, e⟩
    simp [delivered, hfd]
  · simp [delivered, hj]

theorem mem_acted_queue {s : NumberedNet ι} {i k : ι} {e : Event} {p : Proc} {sent : List Packet}
    {fd : Fd} {d : Numbered Datagram} (h : d ∈ (s.acted i e p sent).queue k fd) :
    d ∈ s.queue k fd := by
  by_cases hk : k = i
  · subst k
    rw [acted_queue_self] at h
    exact List.mem_of_mem_drop h
  · rwa [acted_queue_ne s e p sent hk] at h

theorem mem_delivered_queue {s : NumberedNet ι} {p : Numbered Packet} {i k : ι} {fd fd' : Fd}
    {d : Numbered Datagram} (h : d ∈ (s.delivered p i fd).queue k fd') :
    d ∈ s.queue k fd' ∨ k = i ∧ fd' = fd ∧ d = (p.1.toDatagram, p.2) := by
  by_cases hk : k = i ∧ fd' = fd
  · obtain ⟨rfl, rfl⟩ := hk
    rw [delivered_queue_self, List.mem_append, List.mem_singleton] at h
    exact h.imp_right fun hd => ⟨rfl, rfl, hd⟩
  · rw [delivered_queue_ne s p hk] at h
    exact .inl h

theorem asked_le_acted (s : NumberedNet ι) (i : ι) (e : Event) (p : Proc) (sent : List Packet)
    (j : ι) : s.asked j ≤ (s.acted i e p sent).asked j := by
  by_cases hj : j = i
  · subst j
    simp [acted]
  · simp [acted, hj]

end NumberedNet

variable [DecidableEq ι] (L : Lan ι)

def numberedStep (s : NumberedNet ι) : NumberedLabel ι → Option (NumberedNet ι)
  | .act i e =>
    if ready (s.bare i) e then
      (ChatProcess.step L.version (L.cfg i) (s.proc i) e).map fun q =>
        s.acted i e q.1 (packets q.2)
    else none
  | .deliver p i fd =>
    if p ∈ s.flight ∧ isOpen (s.proc i).phase fd = true ∧ L.accepts i fd p.1.dst = true then
      some (s.delivered p i fd)
    else none
  | .drop p => if p ∈ s.flight then some { s with flight := s.flight.erase p } else none
  | .dup p => if p ∈ s.flight then some { s with flight := p :: s.flight } else none

/-- Everything that a step of the numbered network can do. -/
inductive NumberedMove (s : NumberedNet ι) : NumberedLabel ι → NumberedNet ι → Prop where
  | act {i : ι} {e : Event} {p : Proc} {sent : List Packet} (hready : ready (s.bare i) e = true)
      (h : Turn L.version (L.cfg i) (s.proc i) e p sent) :
      NumberedMove s (.act i e) (s.acted i e p sent)
  | deliver {p : Numbered Packet} {i : ι} {fd : Fd} (hp : p ∈ s.flight)
      (hdst : L.accepts i fd p.1.dst = true) : NumberedMove s (.deliver p i fd) (s.delivered p i fd)
  | drop {p : Numbered Packet} (hp : p ∈ s.flight) :
      NumberedMove s (.drop p) { s with flight := s.flight.erase p }
  | dup {p : Numbered Packet} (hp : p ∈ s.flight) :
      NumberedMove s (.dup p) { s with flight := p :: s.flight }

/-- The two networks are in the same state, up to the order of what is in flight. -/
structure Unnumbers (s : NumberedNet ι) (t : Net ι) : Prop where
  proc : s.proc = t.proc
  queue : s.bare = t.queue
  flight : (s.flight.map Prod.fst).Perm t.flight

variable {L}

theorem numberedMove_of_step {s t : NumberedNet ι} {l : NumberedLabel ι}
    (h : numberedStep L s l = some t) : NumberedMove L s l t := by
  cases l with
  | act i e =>
    simp only [numberedStep] at h
    split_ifs at h with hready
    obtain ⟨q, hq, rfl⟩ := Option.map_eq_some_iff.1 h
    exact .act hready (turn_of_step hq)
  | deliver p i fd =>
    simp only [numberedStep] at h
    split_ifs at h with hc
    cases h
    exact .deliver hc.1 hc.2.2
  | drop p =>
    simp only [numberedStep] at h
    split_ifs at h with hp
    cases h
    exact .drop hp
  | dup p =>
    simp only [numberedStep] at h
    split_ifs at h with hp
    cases h
    exact .dup hp

omit [DecidableEq ι] in
theorem unnumbers_init : Unnumbers NumberedNet.init L.init := ⟨rfl, rfl, .refl _⟩

omit [DecidableEq ι] in
theorem mem_flight_iff {s : NumberedNet ι} {t : Net ι} (h : Unnumbers s t) (p : Packet) :
    p ∈ t.flight ↔ ∃ n, (p, n) ∈ s.flight := by
  rw [← h.flight.mem_iff, List.mem_map]
  constructor
  · rintro ⟨⟨q, n⟩, hq, rfl⟩
    exact ⟨n, hq⟩
  · rintro ⟨n, hn⟩
    exact ⟨(p, n), hn, rfl⟩

theorem erase_perm {flight : List (Numbered Packet)} {bare : List Packet}
    (h : (flight.map Prod.fst).Perm bare) {p : Numbered Packet} (hp : p ∈ flight) :
    ((flight.erase p).map Prod.fst).Perm (bare.erase p.1) := by
  have hnumbered := (List.perm_cons_erase hp).map Prod.fst
  have hmem : p.1 ∈ bare := h.mem_iff.1 (List.mem_map_of_mem hp)
  have hbare := List.perm_cons_erase hmem
  exact ((hnumbered.symm.trans h).trans hbare).cons_inv

theorem unnumbers_acted {s : NumberedNet ι} {t : Net ι} (h : Unnumbers s t) (i : ι) (e : Event)
    (p : Proc) (sent : List Packet) : Unnumbers (s.acted i e p sent) (t.acted i e p sent) where
  proc := by rw [NumberedNet.acted, Net.acted, h.proc]
  queue := by
    funext j fd
    rw [NumberedNet.bare]
    by_cases hj : j = i
    · subst j
      rw [NumberedNet.acted_queue_self, Net.acted_queue_self, List.map_drop, consume, ← h.queue]
      rfl
    · rw [NumberedNet.acted_queue_ne _ _ _ _ hj, Net.acted_queue_ne _ _ _ _ hj, ← h.queue]
      rfl
  flight := by
    have hsent : sent.map (Prod.fst ∘ fun q => (q, s.number i e)) = sent := List.map_id' _
    rw [NumberedNet.acted, Net.acted_flight, List.map_append, List.map_map, hsent]
    exact h.flight.append_right _

theorem unnumbers_delivered {s : NumberedNet ι} {t : Net ι} (h : Unnumbers s t)
    {p : Numbered Packet} (hp : p ∈ s.flight) (i : ι) (fd : Fd) :
    Unnumbers (s.delivered p i fd) (t.delivered p.1 i fd) where
  proc := h.proc
  queue := by
    funext j fd'
    rw [NumberedNet.bare]
    by_cases hj : j = i ∧ fd' = fd
    · obtain ⟨rfl, rfl⟩ := hj
      rw [NumberedNet.delivered_queue_self, Net.delivered_queue_self, List.map_append, ← h.queue]
      rfl
    · rw [NumberedNet.delivered_queue_ne _ _ hj, Net.delivered_queue_ne _ _ hj, ← h.queue]
      rfl
  flight := erase_perm h.flight hp

theorem unnumbers_step {s s' : NumberedNet ι} {t : Net ι} (h : Unnumbers s t)
    {l : NumberedLabel ι} (hstep : numberedStep L s l = some s') :
    ∃ t', L.step t (unnumber l) = some t' ∧ Unnumbers s' t' := by
  cases l with
  | act i e =>
    simp only [numberedStep, h.queue, h.proc] at hstep
    split_ifs at hstep with hready
    obtain ⟨q, hq, rfl⟩ := Option.map_eq_some_iff.1 hstep
    refine ⟨t.acted i e q.1 (packets q.2), ?_, unnumbers_acted h i e _ _⟩
    simp only [unnumber, Lan.step, hready, ↓reduceIte, hq, Option.map_some]
  | deliver p i fd =>
    simp only [numberedStep, h.proc] at hstep
    split_ifs at hstep with hc
    cases hstep
    refine ⟨t.delivered p.1 i fd, ?_, unnumbers_delivered h hc.1 i fd⟩
    exact if_pos ⟨(mem_flight_iff h p.1).2 ⟨p.2, hc.1⟩, hc.2⟩
  | drop p =>
    simp only [numberedStep] at hstep
    split_ifs at hstep with hp
    cases hstep
    exact ⟨_, if_pos ((mem_flight_iff h p.1).2 ⟨p.2, hp⟩), h.proc, h.queue, erase_perm h.flight hp⟩
  | dup p =>
    simp only [numberedStep] at hstep
    split_ifs at hstep with hp
    cases hstep
    exact ⟨_, if_pos ((mem_flight_iff h p.1).2 ⟨p.2, hp⟩), h.proc, h.queue, h.flight.cons p.1⟩

theorem unnumbers_lift {s : NumberedNet ι} {t t' : Net ι} (h : Unnumbers s t) {l : Label ι}
    (hstep : L.step t l = some t') :
    ∃ l' s', unnumber l' = l ∧ numberedStep L s l' = some s' ∧ Unnumbers s' t' := by
  cases l with
  | act i e =>
    simp only [Lan.step] at hstep
    split_ifs at hstep with hready
    obtain ⟨q, hq, rfl⟩ := Option.map_eq_some_iff.1 hstep
    refine ⟨.act i e, s.acted i e q.1 (packets q.2), rfl, ?_, unnumbers_acted h i e _ _⟩
    simp only [numberedStep, h.queue, h.proc, hready, ↓reduceIte, hq, Option.map_some]
  | deliver p i fd =>
    simp only [Lan.step] at hstep
    split_ifs at hstep with hc
    cases hstep
    obtain ⟨n, hn⟩ := (mem_flight_iff h p).1 hc.1
    refine ⟨.deliver (p, n) i fd, s.delivered (p, n) i fd, rfl, ?_, unnumbers_delivered h hn i fd⟩
    simp only [numberedStep, h.proc]
    exact if_pos ⟨hn, hc.2⟩
  | drop p =>
    simp only [Lan.step] at hstep
    split_ifs at hstep with hp
    cases hstep
    obtain ⟨n, hn⟩ := (mem_flight_iff h p).1 hp
    exact ⟨.drop (p, n), _, rfl, if_pos hn, h.proc, h.queue, erase_perm h.flight hn⟩
  | dup p =>
    simp only [Lan.step] at hstep
    split_ifs at hstep with hp
    cases hstep
    obtain ⟨n, hn⟩ := (mem_flight_iff h p).1 hp
    exact ⟨.dup (p, n), _, rfl, if_pos hn, h.proc, h.queue, h.flight.cons p⟩

theorem unnumbers_run {labels : List (NumberedLabel ι)} {s : NumberedNet ι}
    (hrun : run (numberedStep L) NumberedNet.init labels = some s) :
    ∃ t, run L.step L.init (labels.map unnumber) = some t ∧ Unnumbers s t :=
  run_simulated (fun _ _ _ _ h hstep => unnumbers_step h hstep) unnumbers_init hrun

/-- Every run of the network can be numbered. -/
theorem numbered_of_run {labels : List (Label ι)} {t : Net ι}
    (hrun : run L.step L.init labels = some t) :
    ∃ labels' s, labels'.map unnumber = labels ∧
      run (numberedStep L) NumberedNet.init labels' = some s ∧ Unnumbers s t :=
  run_lifted (fun _ _ _ _ h hstep => unnumbers_lift h hstep) unnumbers_init hrun

omit [DecidableEq ι] in
theorem queue_of_ready {s : NumberedNet ι} {i : ι} {fd : Fd} {d : Datagram} {mem : Residue}
    (h : ready (s.bare i) (.recv fd d mem) = true) :
    (d, s.number i (.recv fd d mem)) ∈ (s.queue i fd).head? := by
  have hhead : ((s.queue i fd).map Prod.fst).head? = some d := of_decide_eq_true h
  cases hqueue : s.queue i fd with
  | nil => simp [hqueue] at hhead
  | cons x rest =>
    rw [hqueue, List.map_cons, List.head?_cons, Option.some.injEq] at hhead
    simp [NumberedNet.number, hqueue, ← hhead]

/-- Nothing has a number that the one who asked has not given yet. -/
structure Numbers (L : Lan ι) (s : NumberedNet ι) : Prop where
  flight : ∀ q ∈ s.flight, ∀ i, q.1.src = L.sock i .sockfd ∨ q.1.dst = L.sock i .sockfd →
    q.2 ≤ s.asked i
  requests : ∀ i fd, fd ≠ .sockfd → ∀ d ∈ s.queue i fd, ∀ j, d.1.src = L.sock j .sockfd →
    d.2 ≤ s.asked j
  answers : ∀ i, ∀ d ∈ s.queue i .sockfd, d.2 ≤ s.asked i

omit [DecidableEq ι] in
theorem numbers_init : Numbers L NumberedNet.init where
  flight := by simp [NumberedNet.init]
  requests := by simp [NumberedNet.init]
  answers := by simp [NumberedNet.init]

omit [DecidableEq ι] in
theorem sock_ne_chatPort {i : ι} {a : SockAddr} (hport : a.sinPort = chatPort) :
    a ≠ L.sock i .sockfd := by
  rintro rfl
  exact (L.cfg i).sockport_ne hport

theorem Numbers.sent {s : NumberedNet ι} (h : Numbers L s) {i : ι} {e : Event} {p : Proc}
    {sent : List Packet} (hready : ready (s.bare i) e = true)
    (hturn : Turn L.version (L.cfg i) (s.proc i) e p sent) : ∀ q ∈ sent, ∀ j,
      q.src = L.sock j .sockfd ∨ q.dst = L.sock j .sockfd →
        s.number i e ≤ (s.acted i e p sent).asked j := by
  intro q hq j hj
  cases hturn with
  | offered | pselectError | alarm | confirm | refuse | dismiss | leave | eof => simp at hq
  | start hp =>
    rw [List.mem_singleton.1 hq] at hj
    have hsrc : L.sock i .sockfd = L.sock j .sockfd := hj.resolve_right (sock_ne_chatPort rfl)
    obtain rfl : i = j := sock_injective hsrc
    simp [NumberedNet.number, NumberedNet.acted, asks]
  | @find message hp hend hfind =>
    rw [List.mem_singleton.1 hq] at hj
    have hsrc : L.sock i .sockfd = L.sock j .sockfd := hj.resolve_right (sock_ne_chatPort rfl)
    obtain rfl : i = j := sock_injective hsrc
    simp [NumberedNet.number, NumberedNet.acted, asks, hend, hfind]
  | @accept fd d mem r hp hr hok =>
    have hfd := receiver_ne_sockfd hr
    rw [List.mem_singleton.1 hq] at hj
    have hdst := hj.resolve_left (sock_ne_chatPort (by cases fd with
      | sockfd => exact absurd rfl hfd
      | listenfd | joinfd => rfl))
    have hnumber := h.requests i fd hfd _ (List.mem_of_mem_head? (queue_of_ready hready)) j hdst
    exact hnumber.trans (s.asked_le_acted i _ _ _ j)
  | @chat message hp hend hfind =>
    have hzero : s.number i (.input message) = 0 := by simp [NumberedNet.number, asks, hfind]
    rw [hzero]
    exact Nat.zero_le _

theorem Numbers.acted {s : NumberedNet ι} (h : Numbers L s) {i : ι} {e : Event} {p : Proc}
    {sent : List Packet} (hready : ready (s.bare i) e = true)
    (hturn : Turn L.version (L.cfg i) (s.proc i) e p sent) : Numbers L (s.acted i e p sent) where
  flight q hq j hj := by
    rcases List.mem_append.1 hq with hq | hq
    · exact (h.flight q hq j hj).trans (s.asked_le_acted i e p sent j)
    · obtain ⟨b, hb, rfl⟩ := List.mem_map.1 hq
      exact h.sent hready hturn b hb j hj
  requests k fd hfd d hd j hj :=
    (h.requests k fd hfd d (NumberedNet.mem_acted_queue hd) j hj).trans
      (s.asked_le_acted i e p sent j)
  answers k d hd :=
    (h.answers k d (NumberedNet.mem_acted_queue hd)).trans (s.asked_le_acted i e p sent k)

theorem Numbers.delivered {s : NumberedNet ι} (h : Numbers L s) {p : Numbered Packet} {i : ι}
    {fd : Fd} (hp : p ∈ s.flight) (hdst : L.accepts i fd p.1.dst = true) :
    Numbers L (s.delivered p i fd) where
  flight q hq := h.flight q (List.mem_of_mem_erase hq)
  requests k fd' hfd d hd j hj := by
    rcases NumberedNet.mem_delivered_queue hd with hd | ⟨rfl, rfl, rfl⟩
    · exact h.requests k fd' hfd d hd j hj
    · exact h.flight p hp j (.inl hj)
  answers k d hd := by
    rcases NumberedNet.mem_delivered_queue hd with hd | ⟨rfl, rfl, rfl⟩
    · exact h.answers k d hd
    · exact h.flight p hp k (.inr (of_decide_eq_true hdst))

theorem Numbers.move {s t : NumberedNet ι} (h : Numbers L s) {l : NumberedLabel ι}
    (hmove : NumberedMove L s l t) : Numbers L t := by
  cases hmove with
  | act hready hturn => exact h.acted hready hturn
  | deliver hp hdst => exact h.delivered hp hdst
  | drop hp => exact { h with flight := fun q hq => h.flight q (List.mem_of_mem_erase hq) }
  | dup hp => exact { h with flight := List.forall_mem_cons.2 ⟨h.flight _ hp, h.flight⟩ }

theorem numbers_run {labels : List (NumberedLabel ι)} {s : NumberedNet ι}
    (hrun : run (numberedStep L) NumberedNet.init labels = some s) : Numbers L s :=
  run_preserves (fun _ _ _ h hstep => h.move (numberedMove_of_step hstep)) numbers_init hrun

end LanChat.RequestNumbers

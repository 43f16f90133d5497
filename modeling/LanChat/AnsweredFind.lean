import LanChat.Membership
import LanChat.RequestNumbers

set_option autoImplicit false

/-!
# What `am-find` finds

Start-up discovery reads offers until its alarm. The command reads one datagram,
whichever is first on `sockfd`, and leaves the others there.
-/
namespace LanChat.AnsweredFind
open CStrings HexText FrameCodec SocketAddresses DatagramReceive TransitionRuns ChatProcess
  ChatNetwork HonestNetwork LanChat.Membership RequestNumbers

variable {ι : Type*} [DecidableEq ι] (L : Lan ι)

def actsAs (i : ι) : NumberedLabel ι → Bool
  | .act j _ => j = i
  | _ => false

/-- What reaches the `sockfd` of a process. -/
def arrivals (i : ι) (labels : List (NumberedLabel ι)) : List (Numbered Datagram) :=
  labels.flatMap fun
    | .deliver p j .sockfd => if j = i then [(p.1.toDatagram, p.2)] else []
    | _ => []

/-- One `am-find` in a run: `i` types it in state `s`, reads in state `t` and is
    back in `Select` in state `u`. -/
structure Finding (i : ι) (before during after : List (NumberedLabel ι)) (message : Bytes)
    (d : Datagram) (mem : Residue) (s t u : NumberedNet ι) : Prop where
  reached : run (numberedStep L) NumberedNet.init before = some s
  typed : isCommand message cmdEnd = false ∧ isCommand message cmdFind = true
  asked : run (numberedStep L) s (.act i (.input message) :: during) = some t
  waiting : ∀ l ∈ during, actsAs i l = false
  read : numberedStep L t (.act i (.recv .sockfd d mem)) = some u
  back : (u.proc i).phase = .selecting
  goesOn : (run (numberedStep L) u after).isSome

/-- Another process whose answer to request `n` of `i` is delivered. -/
def Answers (i : ι) (n : ℕ) (labels : List (NumberedLabel ι)) (j : ι) : Prop :=
  j ≠ i ∧ (offer L j, n) ∈ arrivals i labels

/-- The entries of the command are those who have answered it, and what it has
    read answers it. -/
def Agrees (i : ι) (d : Datagram) (during after : List (NumberedLabel ι)) (s t u : NumberedNet ι) :
    Prop :=
  (∀ a, a ∈ (u.proc i).peers.drop (s.proc i).peers.length ↔
    ∃ j, Answers L i (s.asked i + 1) (during ++ after) j ∧ a = L.sock j .listenfd) ∧
  (t.queue i .sockfd).head? = some (d, s.asked i + 1)

/-- Nothing is unread when the command is typed, the first datagram that arrives
    answers it, and so does no other process than one. -/
def OneAnswer (i : ι) (during after : List (NumberedLabel ι)) (s : NumberedNet ι) : Prop :=
  s.queue i .sockfd = [] ∧ (arrivals i during).head?.map Prod.snd = some (s.asked i + 1) ∧
    ∀ j k, Answers L i (s.asked i + 1) (during ++ after) j →
      Answers L i (s.asked i + 1) (during ++ after) k → j = k

variable {L}

/-- While a process waits, its socket only fills, and its own offers do not
    come into it. -/
structure Filled (L : Lan ι) (i : ι) (n : ℕ) (s : NumberedNet ι) : Prop where
  flight : ∀ q ∈ s.flight, q.2 = n → q.1.dst = L.sock i .sockfd →
    q.1.src.sinAddr ≠ (L.cfg i).addr
  queue : ∀ d ∈ s.queue i .sockfd, d.2 = n → d.1.src.sinAddr ≠ (L.cfg i).addr

omit [DecidableEq ι] in
theorem src_of_turn {i : ι} {p q : Proc} {e : Event} {sent : List Packet}
    (h : Turn L.version (L.cfg i) p e q sent) : ∀ b ∈ sent, b.src.sinAddr = (L.cfg i).addr := by
  intro b hb
  cases h with
  | offered | pselectError | alarm | confirm | refuse | dismiss | leave | eof => simp at hb
  | start | find =>
    rw [List.mem_singleton.1 hb]
    rfl
  | @accept fd =>
    rw [List.mem_singleton.1 hb]
    cases fd <;> rfl
  | chat hp =>
    obtain ⟨a, _, rfl⟩ := List.mem_map.1 hb
    rfl

theorem Filled.step {i : ι} {n : ℕ} {s t : NumberedNet ι} (h : Filled L i n s)
    {l : NumberedLabel ι} (hl : actsAs i l = false) (hstep : numberedStep L s l = some t) :
    Filled L i n t := by
  cases numberedMove_of_step hstep with
  | @act j e p sent hready hturn =>
    have hj : j ≠ i := of_decide_eq_false hl
    refine ⟨fun q hq hn hdst => ?_, ?_⟩
    · rcases List.mem_append.1 hq with hq | hq
      · exact h.flight q hq hn hdst
      · obtain ⟨b, hb, rfl⟩ := List.mem_map.1 hq
        rw [src_of_turn hturn b hb]
        exact fun haddr => hj (L.addr_injective haddr)
    · rw [NumberedNet.acted_queue_ne _ _ _ _ hj.symm]
      exact h.queue
  | @deliver p j fd hp hdst =>
    refine ⟨fun q hq => h.flight q (List.mem_of_mem_erase hq), fun d hd hn => ?_⟩
    rcases NumberedNet.mem_delivered_queue hd with hd | ⟨rfl, rfl, rfl⟩
    · exact h.queue d hd hn
    · exact h.flight p hp hn (of_decide_eq_true hdst)
  | drop hp => exact ⟨fun q hq => h.flight q (List.mem_of_mem_erase hq), h.queue⟩
  | dup hp => exact ⟨List.forall_mem_cons.2 ⟨h.flight _ hp, h.flight⟩, h.queue⟩

theorem queue_step {i : ι} {s t : NumberedNet ι} {l : NumberedLabel ι} (hl : actsAs i l = false)
    (hstep : numberedStep L s l = some t) :
    t.queue i .sockfd = s.queue i .sockfd ++ arrivals i [l] := by
  cases numberedMove_of_step hstep with
  | @act j e p sent hready hturn =>
    have hj : j ≠ i := of_decide_eq_false hl
    rw [NumberedNet.acted_queue_ne _ _ _ _ hj.symm]
    simp [arrivals]
  | @deliver p j fd hp hdst =>
    by_cases hj : i = j ∧ Fd.sockfd = fd
    · obtain ⟨rfl, rfl⟩ := hj
      rw [NumberedNet.delivered_queue_self]
      simp [arrivals]
    · rw [NumberedNet.delivered_queue_ne _ _ hj]
      cases fd with
      | sockfd =>
        have hne : j ≠ i := fun e => hj ⟨e.symm, rfl⟩
        simp [arrivals, hne]
      | listenfd | joinfd => simp [arrivals]
  | drop | dup => simp [arrivals]

theorem proc_step {i : ι} {s t : NumberedNet ι} {l : NumberedLabel ι} (hl : actsAs i l = false)
    (hstep : numberedStep L s l = some t) : t.proc i = s.proc i := by
  cases numberedMove_of_step hstep with
  | @act j e p sent hready hturn =>
    have hj : j ≠ i := of_decide_eq_false hl
    rw [NumberedNet.acted_proc_ne _ _ _ _ hj.symm]
  | deliver | drop | dup => rfl

section Command

variable {i : ι} {before during after : List (NumberedLabel ι)} {message : Bytes} {d : Datagram}
  {mem : Residue} {s t u : NumberedNet ι}

theorem honest_numbered {labels : List (NumberedLabel ι)}
    (hrun : run (numberedStep L) NumberedNet.init labels = some s) :
    ∀ e ∈ s.queue i .sockfd, ∃ j, e.1 = offer L j := by
  obtain ⟨bare, hbare, hsame⟩ := unnumbers_run hrun
  have hhonest := honest_run (L := L) admits_all hbare
  intro e he
  have hmem : e.1 ∈ bare.queue i .sockfd := by
    rw [← hsame.queue]
    exact List.mem_map_of_mem he
  obtain ⟨j, _, hj⟩ := hhonest.offers i e.1 hmem
  exact ⟨j, hj⟩

/-- After the request a process waits with what was unread, and nothing has the
    new number but the request. -/
theorem asked_spec {asking : NumberedNet ι} (hnumbers : Numbers L s)
    (htyped : isCommand message cmdEnd = false ∧ isCommand message cmdFind = true)
    (hstep : numberedStep L s (.act i (.input message)) = some asking) :
    asking.proc i = { s.proc i with phase := .confirming } ∧
      asking.queue i .sockfd = s.queue i .sockfd ∧ Filled L i (s.asked i + 1) asking := by
  cases numberedMove_of_step hstep with
  | @act i e p sent hready hturn =>
    obtain ⟨rfl, rfl⟩ := hturn.find_eq htyped.1 htyped.2
    refine ⟨NumberedNet.acted_proc_self _ _ _ _ _, by simp [taken], ?_, ?_⟩
    · intro q hq hn hdst
      rcases List.mem_append.1 hq with hq | hq
      · have hle := hnumbers.flight q hq i (.inr hdst)
        omega
      · obtain ⟨b, hb, rfl⟩ := List.mem_map.1 hq
        rw [List.mem_singleton.1 hb] at hdst
        exact absurd hdst (sock_ne_chatPort rfl)
    · intro e he hn
      have hle := hnumbers.answers i e (NumberedNet.mem_acted_queue he)
      omega

theorem arrivals_eq (i : ι) (labels : List (NumberedLabel ι)) :
    labels.flatMap (fun l => arrivals i [l]) = arrivals i labels := by
  simp [arrivals]

/-- What the command does: it enters the source of what is first on the socket. -/
theorem Finding.spec (h : Finding L i before during after message d mem s t u) :
    (u.proc i).peers = (s.proc i).peers ++ [d.src] ∧
      t.queue i .sockfd = s.queue i .sockfd ++ arrivals i during ∧
      Filled L i (s.asked i + 1) t ∧ ∃ n, (t.queue i .sockfd).head? = some (d, n) := by
  obtain ⟨asking, hask, hduring⟩ := run_cons_iff.1 h.asked
  obtain ⟨hproc, hqueue, hfilled⟩ := asked_spec (numbers_run h.reached) h.typed hask
  have hwaits : t.proc i = asking.proc i :=
    run_invariant (I := fun v => v.proc i = asking.proc i) (A := fun l => actsAs i l = false)
      (fun _ _ _ hv hl hstep => (proc_step hl hstep).trans hv) rfl h.waiting hduring
  have hfills := run_collects_of (f := fun v => v.queue i .sockfd)
    (A := fun l => actsAs i l = false) (fun _ _ _ hl hstep => queue_step hl hstep) h.waiting hduring
  rw [arrivals_eq, hqueue] at hfills
  have hfilled' : Filled L i (s.asked i + 1) t :=
    run_invariant (I := Filled L i (s.asked i + 1)) (A := fun l => actsAs i l = false)
      (fun _ _ _ hv hl hstep => hv.step hl hstep) hfilled h.waiting hduring
  have hback := h.back
  cases numberedMove_of_step h.read with
  | @act i e p sent hready hturn =>
    refine ⟨?_, hfills, hfilled', _, queue_of_ready hready⟩
    rw [NumberedNet.acted_proc_self] at hback ⊢
    cases hturn with
    | confirm hp hc =>
      rw [addPeer, hwaits, hproc]
    | refuse hp hc => cases hback
    | accept hp hr | dismiss hp hr => cases hr

theorem arrivals_append (i : ι) (labels labels' : List (NumberedLabel ι)) :
    arrivals i (labels ++ labels') = arrivals i labels ++ arrivals i labels' :=
  List.flatMap_append

theorem Finding.offered (h : Finding L i before during after message d mem s t u) :
    ∃ j, d = offer L j := by
  obtain ⟨_, _, _, n, hhead⟩ := h.spec
  have hreached : run (numberedStep L) NumberedNet.init
      (before ++ .act i (.input message) :: during) = some t := by
    rw [run_append, h.reached]
    exact h.asked
  exact honest_numbered hreached (d, n) (List.mem_of_mem_head? hhead)

/-- If it answers the command, nothing was unread before: that would have an
    earlier number. -/
theorem Finding.unread_nil (h : Finding L i before during after message d mem s t u)
    (hfirst : (t.queue i .sockfd).head? = some (d, s.asked i + 1)) : s.queue i .sockfd = [] := by
  obtain ⟨_, hqueue, _, _⟩ := h.spec
  cases hold : s.queue i .sockfd with
  | nil => rfl
  | cons e rest =>
    rw [hqueue, hold, List.cons_append, List.head?_cons, Option.some.injEq] at hfirst
    have hle := (numbers_run h.reached).answers i e (by rw [hold]; exact List.mem_cons_self)
    rw [hfirst] at hle
    omega

theorem Finding.answered (h : Finding L i before during after message d mem s t u)
    (hempty : s.queue i .sockfd = [])
    (hfirst : (arrivals i during).head?.map Prod.snd = some (s.asked i + 1)) :
    (t.queue i .sockfd).head? = some (d, s.asked i + 1) ∧
      ∃ j, d = offer L j ∧ Answers L i (s.asked i + 1) (during ++ after) j := by
  obtain ⟨_, hqueue, hfilled, n, hhead⟩ := h.spec
  obtain ⟨j, hj⟩ := h.offered
  have harrived : (arrivals i during).head? = some (d, n) := by
    rw [hqueue, hempty, List.nil_append] at hhead
    exact hhead
  rw [harrived] at hfirst
  obtain rfl : n = s.asked i + 1 := Option.some.inj hfirst
  refine ⟨hhead, j, hj, ?_, ?_⟩
  · rintro rfl
    apply hfilled.queue _ (List.mem_of_mem_head? hhead) rfl
    rw [hj]
    rfl
  · rw [arrivals_append, ← hj]
    exact List.mem_append_left _ (List.mem_of_mem_head? harrived)

/-- The entries of an `am-find` are those who have answered it, and what it reads
    is an answer to it, exactly when there was nothing else to be read and one
    process alone has answered. -/
theorem find_agrees_iff (h : Finding L i before during after message d mem s t u) :
    Agrees L i d during after s t u ↔ OneAnswer L i during after s := by
  obtain ⟨hpeers, hqueue, _, _⟩ := h.spec
  have hadded : (u.proc i).peers.drop (s.proc i).peers.length = [d.src] := by
    rw [hpeers, List.drop_left]
  rw [Agrees, OneAnswer, hadded]
  constructor
  · rintro ⟨hsame, hfirst⟩
    have hempty := h.unread_nil hfirst
    refine ⟨hempty, ?_, fun j k hj hk => ?_⟩
    · rw [hqueue, hempty, List.nil_append] at hfirst
      rw [hfirst]
      rfl
    · have hentry := (hsame _).2 ⟨j, hj, rfl⟩
      have hentry' := (hsame _).2 ⟨k, hk, rfl⟩
      rw [List.mem_singleton] at hentry hentry'
      exact sock_injective (hentry.trans hentry'.symm)
  · rintro ⟨hempty, hfirst, hone⟩
    obtain ⟨hread, j, hj, hanswers⟩ := h.answered hempty hfirst
    refine ⟨fun a => ?_, hread⟩
    rw [List.mem_singleton, hj]
    constructor
    · rintro rfl
      exact ⟨j, hanswers, rfl⟩
    · rintro ⟨k, hk, rfl⟩
      rw [hone k j hk hanswers]
      rfl

end Command

def find : Bytes := ascii "am-find\n"

/-- After their meeting the right side of the pair asks again, and the left one
    answers. -/
def numberedMeeting : List (NumberedLabel Side) :=
  [.act .left .start, .act .left .alarm, .act .right .start,
    .deliver (pairCan .right, 1) .left .listenfd,
    .act .left (.recv .listenfd (pairCan .right).toDatagram clean),
    .deliver (pairOfc .left .right, 1) .right .sockfd, .act .right (.pselect [] true),
    .act .right (.recv .sockfd (pairOfc .left .right).toDatagram clean), .act .right .alarm]

def leftAnswers : List (NumberedLabel Side) :=
  [.deliver (pairCan .right, 2) .left .listenfd,
    .act .left (.recv .listenfd (pairCan .right).toDatagram clean),
    .deliver (pairOfc .left .right, 2) .right .sockfd]

theorem find_agrees_left : ∃ s t u,
    Agrees (pair .v4) .right (offer (pair .v4) .left) leftAnswers [] s t u := by
  have hfinding : ∃ s t u, s.queue .right .sockfd = [] ∧ s.asked .right = 1 ∧
      Finding (pair .v4) .right numberedMeeting leftAnswers [] find (offer (pair .v4) .left) clean
        s t u :=
    ⟨_, _, _, rfl, rfl, ⟨rfl, by decide, rfl, by decide, rfl, rfl, rfl⟩⟩
  obtain ⟨s, t, u, hqueue, hasked, h⟩ := hfinding
  refine ⟨s, t, u, (find_agrees_iff h).2 ⟨hqueue, ?_, fun j k hj hk => ?_⟩⟩
  · rw [hasked]
    rfl
  · cases j with
    | left =>
      cases k with
      | left => rfl
      | right => exact absurd rfl hk.1
    | right => exact absurd rfl hj.1

def trio : Lan (Fin 3) where
  version := .v4
  cfg i := host (UInt8.ofNat (i.val + 1))
  hears _ addr := addr = (host 1).group
  addr_injective := by
    intro i j
    revert i j
    decide

def trioCan (i : Fin 3) : Packet := canPacket (trio.sock i .sockfd) (trio.cfg i).groupAddr

/-- They start at once, while nobody listens. -/
def startAtOnce : List (NumberedLabel (Fin 3)) :=
  [.act 0 .start, .act 1 .start, .act 2 .start, .drop (trioCan 0, 1), .drop (trioCan 1, 1),
    .drop (trioCan 2, 1), .act 0 .alarm, .act 1 .alarm, .act 2 .alarm]

def bothAnswer : List (NumberedLabel (Fin 3)) :=
  [.dup (trioCan 0, 2), .deliver (trioCan 0, 2) 1 .listenfd, .deliver (trioCan 0, 2) 2 .listenfd,
    .act 1 (.recv .listenfd (trioCan 0).toDatagram clean),
    .act 2 (.recv .listenfd (trioCan 0).toDatagram clean),
    .deliver (offerTo trio 1 0, 2) 0 .sockfd, .deliver (offerTo trio 2 0, 2) 0 .sockfd]

/-- All that leads to the entry of the one whose answer is first. -/
def firstFind : List (NumberedLabel (Fin 3)) :=
  startAtOnce ++ .act 0 (.input find) :: bothAnswer ++
    [.act 0 (.recv .sockfd (offer trio 1) clean)]

theorem trio_finds : ∃ s t u v w, (s.proc 0).peers = [] ∧ s.asked 0 = 1 ∧
    Finding trio 0 startAtOnce bothAnswer [] find (offer trio 1) clean s t u ∧
    (u.proc 0).peers = [trio.sock 1 .listenfd] ∧ u.asked 0 = 2 ∧
    Finding trio 0 firstFind [] [] find (offer trio 2) clean u v w ∧
    (v.queue 0 .sockfd).head? = some (offer trio 2, 2) :=
  ⟨_, _, _, _, _, rfl, rfl, ⟨rfl, by decide, rfl, by decide, rfl, rfl, rfl⟩, rfl, rfl,
    ⟨rfl, by decide, rfl, by decide, rfl, rfl, rfl⟩, rfl⟩

/-- Of two who answer one is entered. The next command reads the answer of the
    other, to the request before. -/
theorem second_answer_left : ∃ s t u v w,
    Finding trio 0 startAtOnce bothAnswer [] find (offer trio 1) clean s t u ∧
    (∀ j, j ≠ 0 → Answers trio 0 2 bothAnswer j) ∧ (u.proc 0).peers = [trio.sock 1 .listenfd] ∧
    ¬ Agrees trio 0 (offer trio 1) bothAnswer [] s t u ∧
    Finding trio 0 firstFind [] [] find (offer trio 2) clean u v w ∧
    ¬ Agrees trio 0 (offer trio 2) [] [] u v w := by
  obtain ⟨s, t, u, v, w, hnone, hasked, h, hpeers, hasked', h', hhead⟩ := trio_finds
  have hanswers : ∀ j, j ≠ 0 → Answers trio 0 2 bothAnswer j := by
    intro j hj
    refine ⟨hj, ?_⟩
    revert j
    decide
  refine ⟨s, t, u, v, w, h, hanswers, hpeers, fun hagrees => ?_, h', fun hagrees => ?_⟩
  · have hanswer : Answers trio 0 (s.asked 0 + 1) (bothAnswer ++ []) 2 := by
      rw [hasked, List.append_nil]
      exact hanswers 2 (by decide)
    have hentry := (hagrees.1 (trio.sock 2 .listenfd)).2 ⟨2, hanswer, rfl⟩
    rw [hpeers, hnone] at hentry
    exact absurd hentry (by decide)
  · have hnumber := hagrees.2
    rw [hhead, hasked', Option.some.injEq, Prod.mk.injEq] at hnumber
    exact absurd hnumber.2 (by decide)

end LanChat.AnsweredFind

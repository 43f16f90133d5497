import LanChat.TcpChat
import LanChat.PortScan
import LanChat.SubnetScan

set_option autoImplicit false

/-!
# The whole of v1 and v2: how processes meet, and their chat

`find_peer` calls `connect` until a listener answers. Who that is depends on
which listeners are there at that time; from then on it is the chat of `TcpChat`.
-/
namespace LanChat.TcpMeeting
open CStrings HexText FrameCodec SocketAddresses StreamReceive TransitionRuns HostScan PortScan
  SubnetScan WriteLoops TcpChat

/-- A search by calls of `connect`: the address of the next one, if there is one,
    and what follows its outcome. -/
structure Finder (σ : Type*) where
  start : σ
  next : σ → Option SockAddr
  outcome : σ → Bool → Option σ

/-- `find_peer` of v1. -/
def portFinder (r : PortRange) : Finder Search where
  start := PortScan.findPeer r
  next s :=
    if s.returned = none then some ⟨s.servaddr.sinAddr, PortScan.htons (portToTry r s.currentPort)⟩
    else none
  outcome := tryPort r

/-- `find_peer` of v2, with the `inet_pton` of its host. -/
def hostFinder (pton : Bytes → Option InAddr) (subnetAddress : Bytes) (startIdx : ℤ) :
    Finder ConnectScan where
  start := findPeerConnect pton subnetAddress startIdx
  next s := if s.phase = .probing then some s.servaddr else none
  outcome := afterConnect pton

/-- `owner` is whose listener an address leads to. The peers that are given with
    the chats are not used, they are found. -/
structure Programs (ι σ : Type*) where
  finder : ι → Finder σ
  owner : SockAddr → Option ι
  chats : Chats ι

/-- `up` is whether the child has come as far as `Listen`, and `met` whose
    listener has answered. -/
structure Meeting (ι σ : Type*) where
  search : ι → σ
  up : ι → Bool
  met : ι → Option ι
  tcp : Tcp ι

inductive MeetingLabel (ι : Type*) where
  | listen (i : ι)
  | connect (i : ι) (connected : Bool)
  | chat (l : TcpLabel ι)

variable {ι σ : Type*} [DecidableEq ι]

/-- The return of `find_peer`, which is not left to the chat. -/
def isConnected : TcpLabel ι → Bool
  | .send _ .connected => true
  | _ => false

def Programs.chatsWith (P : Programs ι σ) (peer : ι → ι) : Chats ι := { P.chats with peer := peer }

def Programs.init (P : Programs ι σ) : Meeting ι σ where
  search i := (P.finder i).start
  up _ := false
  met _ := none
  tcp := P.chats.init

/-- Who answers a `connect` to an address. -/
def Programs.answers (P : Programs ι σ) (s : Meeting ι σ) (a : SockAddr) : Option ι :=
  (P.owner a).filter fun j => s.up j && s.tcp.listens j

/-- A search that has met `j`, of which the process has become `t`. -/
def Meeting.found (s : Meeting ι σ) (i j : ι) (next : σ) (q : Sender × Bytes) : Meeting ι σ where
  search := Function.update s.search i next
  up := s.up
  met := Function.update s.met i (some j)
  tcp := (s.tcp.sent i q.1 q.2).joined i j

def Meeting.missed (s : Meeting ι σ) (i : ι) (next : σ) : Meeting ι σ :=
  { s with search := Function.update s.search i next }

def Programs.step (P : Programs ι σ) (s : Meeting ι σ) : MeetingLabel ι → Option (Meeting ι σ)
  | .listen i => if s.up i then none else some { s with up := Function.update s.up i true }
  | .connect i connected =>
    match (P.finder i).next (s.search i), (P.finder i).outcome (s.search i) connected with
    | some a, some next => match P.answers s a, connected with
      | some j, true =>
        (sendStep (P.chats.userName i) (s.tcp.sender i) .connected).map (s.found i j next)
      | none, false => some (s.missed i next)
      | _, _ => none
    | _, _ => none
  | .chat l =>
    if isConnected l then none else (P.chats.step s.tcp l).map fun tcp => { s with tcp := tcp }

/-- Everything that a step can do. -/
inductive Meets (P : Programs ι σ) (s : Meeting ι σ) : MeetingLabel ι → Meeting ι σ → Prop where
  | listen {i : ι} : Meets P s (.listen i) { s with up := Function.update s.up i true }
  | found {i j : ι} {a : SockAddr} {next : σ} {q : Sender × Bytes}
      (hnext : (P.finder i).next (s.search i) = some a)
      (hstep : (P.finder i).outcome (s.search i) true = some next)
      (howner : P.owner a = some j) (hup : s.up j = true) (hlistens : s.tcp.listens j = true)
      (hsend : sendStep (P.chats.userName i) (s.tcp.sender i) .connected = some q) :
      Meets P s (.connect i true) (s.found i j next q)
  | missed {i : ι} {a : SockAddr} {next : σ}
      (hnext : (P.finder i).next (s.search i) = some a)
      (hstep : (P.finder i).outcome (s.search i) false = some next)
      (hnone : ∀ j, P.owner a = some j → s.up j = true → s.tcp.listens j = false) :
      Meets P s (.connect i false) (s.missed i next)
  | chat {l : TcpLabel ι} {tcp : Tcp ι} (hl : isConnected l = false)
      (hstep : P.chats.step s.tcp l = some tcp) : Meets P s (.chat l) { s with tcp := tcp }

variable {P : Programs ι σ}

omit [DecidableEq ι] in
theorem answers_eq_some {s : Meeting ι σ} {a : SockAddr} {j : ι} :
    P.answers s a = some j ↔ P.owner a = some j ∧ s.up j = true ∧ s.tcp.listens j = true := by
  simp [Programs.answers, Option.filter_eq_some_iff]

theorem meets_of_step {s t : Meeting ι σ} {l : MeetingLabel ι} (h : P.step s l = some t) :
    Meets P s l t := by
  cases l with
  | listen i =>
    simp only [Programs.step] at h
    split_ifs at h
    cases h
    exact .listen
  | connect i connected =>
    simp only [Programs.step] at h
    split at h
    · rename_i a next hnext hstep
      split at h
      · rename_i j hanswers
        obtain ⟨howner, hup, hlistens⟩ := answers_eq_some.1 hanswers
        obtain ⟨q, hq, rfl⟩ := Option.map_eq_some_iff.1 h
        exact .found hnext hstep howner hup hlistens hq
      · rename_i hanswers
        cases h
        refine .missed hnext hstep fun j howner hup => ?_
        by_contra hlistens
        rw [Bool.not_eq_false] at hlistens
        rw [answers_eq_some.2 ⟨howner, hup, hlistens⟩] at hanswers
        cases hanswers
      · cases h
    · cases h
  | chat l =>
    simp only [Programs.step] at h
    split_ifs at h with hl
    obtain ⟨tcp, htcp, rfl⟩ := Option.map_eq_some_iff.1 h
    exact .chat (Bool.not_eq_true _ ▸ hl) htcp

/-- The peers matter to a `connect` only. -/
theorem step_chatsWith (peer : ι → ι) (s : Tcp ι) {l : TcpLabel ι} (hl : isConnected l = false) :
    (P.chatsWith peer).step s l = P.chats.step s l := by
  cases l with
  | send i e =>
    have he : e ≠ .connected := by
      rintro rfl
      cases hl
    simp only [Chats.step, if_neg he]
    rfl
  | accept | read | eof => rfl

theorem chat_unconnected {C : Chats ι} {s t : Tcp ι} {l : TcpLabel ι} (hl : isConnected l = false)
    (h : C.step s l = some t) (k : ι) :
    (t.sender k).phase = .unconnected ↔ (s.sender k).phase = .unconnected := by
  cases moves_of_step h with
  | connect => cases hl
  | @send i e u out he hsends =>
    by_cases hk : k = i
    · subst k
      have hnow : (s.sender i).phase ≠ .unconnected := fun hp => he (hsends.connected_iff.2 hp)
      simp [Tcp.sent, hsends.phase_ne, hnow]
    · simp [Tcp.sent, hk]
  | accept | read | cut | close => rfl

/-- What the search of `i` learns from a step. -/
def outcomeOf (i : ι) : MeetingLabel ι → Option Bool
  | .connect k connected => if k = i then some connected else none
  | _ => none

theorem Meets.search_step {s t : Meeting ι σ} {l : MeetingLabel ι} (h : Meets P s l t) (i : ι) :
    run (P.finder i).outcome (s.search i) (outcomeOf i l).toList = some (t.search i) := by
  have hone {k : ι} {connected : Bool} {next : σ}
      (hstep : (P.finder k).outcome (s.search k) connected = some next) :
      run (P.finder i).outcome (s.search i) (outcomeOf i (.connect k connected)).toList =
        some (Function.update s.search k next i) := by
    by_cases hk : k = i
    · subst k
      rw [outcomeOf, if_pos rfl, Function.update_self]
      exact run_cons_iff.2 ⟨_, hstep, rfl⟩
    · rw [outcomeOf, if_neg hk, Function.update_of_ne (Ne.symm hk)]
      rfl
  cases h with
  | listen | chat => rfl
  | found _ hstep | missed _ hstep => exact hone hstep

theorem search_run {labels : List (MeetingLabel ι)} {s : Meeting ι σ}
    (hrun : run P.step P.init labels = some s) (i : ι) :
    run (P.finder i).outcome (P.finder i).start (labels.filterMap (outcomeOf i)) =
      some (s.search i) :=
  run_shown (I := fun _ => True) (fun _ _ _ _ hstep =>
    ⟨trivial, (meets_of_step hstep).search_step i⟩) trivial hrun

/-- A call of `connect` by `i`. -/
def isSearch (i : ι) : MeetingLabel ι → Bool
  | .connect k _ => k = i
  | _ => false

theorem outcomes_length (labels : List (MeetingLabel ι)) (i : ι) :
    (labels.filterMap (outcomeOf i)).length = labels.countP (isSearch i) := by
  rw [List.length_filterMap_eq_countP]
  apply List.countP_congr
  intro l _
  cases l with
  | connect k connected => simp [outcomeOf, isSearch]
  | listen | chat => rfl

theorem Meets.up_mono {s t : Meeting ι σ} {l : MeetingLabel ι} (h : Meets P s l t) {j : ι}
    (hup : s.up j = true) : t.up j = true := by
  cases h with
  | @listen k =>
    by_cases hj : j = k
    · simp [hj]
    · simpa [hj] using hup
  | found | missed | chat => exact hup

theorem Meets.listens_before {s t : Meeting ι σ} {l : MeetingLabel ι} (h : Meets P s l t) {j : ι}
    (hlistens : t.tcp.listens j = true) : s.tcp.listens j = true := by
  have hsent {u : Tcp ι} {i : ι} {e : SendEvent} {v : Sender} {out : Bytes}
      (hsends : Sends (P.chats.userName i) (u.sender i) e v out)
      (hv : (u.sent i v out).listens j = true) : u.listens j = true := by
    by_cases hj : j = i
    · subst j
      have hphase := hsends.goesOn
      refine decide_eq_true fun hexited => ?_
      rw [hexited] at hphase
      cases hphase
    · simpa [Tcp.listens, Tcp.sent, hj] using hv
  cases h with
  | listen | missed => exact hlistens
  | found hnext hstep howner hup hlistens' hsend => exact hsent (sends_of_step hsend) hlistens
  | chat hl hstep =>
    cases moves_of_step hstep with
    | connect => cases hl
    | send he hsends => exact hsent hsends hlistens
    | accept | read | cut | close => exact hlistens

/-- A process is connected to whom it has met. -/
def Linked (s : Meeting ι σ) : Prop :=
  ∀ i, s.met i = none ↔ (s.tcp.sender i).phase = .unconnected

theorem Linked.step {s t : Meeting ι σ} {l : MeetingLabel ι} (h : Linked s)
    (hmeets : Meets P s l t) : Linked t := by
  cases hmeets with
  | listen | missed => exact h
  | @found i j a next q hnext hstep howner hup hlistens hsend =>
    intro k
    by_cases hk : k = i
    · subst k
      have hphase := (sends_of_step hsend).phase_ne
      simp [Meeting.found, Tcp.joined, Tcp.sent, hphase]
    · simpa [Meeting.found, Tcp.joined, Tcp.sent, hk] using h k
  | chat hl hstep => exact fun k => (h k).trans (chat_unconnected hl hstep k).symm

omit [DecidableEq ι] in
theorem linked_init : Linked P.init := fun _ => iff_of_true rfl rfl

theorem linked_run {labels : List (MeetingLabel ι)} {s : Meeting ι σ}
    (hrun : run P.step P.init labels = some s) : Linked s :=
  run_preserves (fun _ _ _ h hstep => h.step (meets_of_step hstep)) linked_init hrun

/-- Who has met nobody can call `connect`, and is answered or not. -/
theorem Linked.connects {s : Meeting ι σ} (h : Linked s) {i : ι} (hmet : s.met i = none)
    {a : SockAddr} (hnext : (P.finder i).next (s.search i) = some a)
    (hout : ∀ connected, ((P.finder i).outcome (s.search i) connected).isSome) :
    ∃ connected t, P.step s (.connect i connected) = some t := by
  have hphase := (h i).1 hmet
  cases hanswers : P.answers s a with
  | none =>
    obtain ⟨next, hstep⟩ := Option.isSome_iff_exists.1 (hout false)
    exact ⟨false, s.missed i next, by simp [Programs.step, hnext, hstep, hanswers]⟩
  | some j =>
    obtain ⟨next, hstep⟩ := Option.isSome_iff_exists.1 (hout true)
    have hsend : sendStep (P.chats.userName i) (s.tcp.sender i) .connected =
        some (⟨(s.tcp.sender i).stdin, .typing⟩, []) := by
      simp [sendStep, hphase]
    exact ⟨true, s.found i j next (⟨(s.tcp.sender i).stdin, .typing⟩, []),
      by simp [Programs.step, hnext, hstep, hanswers, hsend]⟩

/-- Nobody is met twice, or lost. -/
theorem Linked.met_mono {s t : Meeting ι σ} {l : MeetingLabel ι} (h : Linked s)
    (hmeets : Meets P s l t) {i j : ι} (hmet : s.met i = some j) : t.met i = some j := by
  cases hmeets with
  | listen | missed | chat => exact hmet
  | @found k j' a next q hnext hstep howner hup hlistens hsend =>
    have hphase : (s.tcp.sender k).phase = .unconnected :=
      (sends_of_step hsend).connected_iff.1 rfl
    have hne : i ≠ k := by
      rintro rfl
      rw [(h i).2 hphase] at hmet
      cases hmet
    simpa [Meeting.found, hne] using hmet

/-- What the chat sees of a step. -/
def chatLabel : MeetingLabel ι → Option (TcpLabel ι)
  | .listen _ | .connect _ false => none
  | .connect i true => some (.send i .connected)
  | .chat l => some l

theorem Meets.chat_step {s t : Meeting ι σ} {l : MeetingLabel ι} (h : Meets P s l t)
    {peer : ι → ι} (hpeer : ∀ i j, t.met i = some j → peer i = j) :
    run (P.chatsWith peer).step s.tcp (chatLabel l).toList = some t.tcp := by
  cases h with
  | listen | missed => rfl
  | @found i j a next q hnext hstep howner hup hlistens hsend =>
    have hj : peer i = j := hpeer i j (by simp [Meeting.found])
    have hsent : (P.chatsWith peer).step s.tcp (.send i .connected) =
        some ((s.tcp.sent i q.1 q.2).joined i (peer i)) := by
      have hsend' : sendStep ((P.chatsWith peer).userName i) (s.tcp.sender i) .connected =
          some q := hsend
      rw [Chats.step, hsend']
      rfl
    rw [hj] at hsent
    exact run_cons_iff.2 ⟨_, hsent, rfl⟩
  | chat hl hstep => exact run_cons_iff.2 ⟨_, (step_chatsWith peer _ hl).trans hstep, rfl⟩

theorem met_run {before after : List (MeetingLabel ι)} {s t : Meeting ι σ}
    (hbefore : run P.step P.init before = some s) (hafter : run P.step s after = some t) {i j : ι}
    (hmet : s.met i = some j) : t.met i = some j := by
  have hboth : Linked t ∧ t.met i = some j :=
    run_preserves (I := fun s => Linked s ∧ s.met i = some j)
      (fun s l t h hstep => ⟨h.1.step (meets_of_step hstep),
        h.1.met_mono (meets_of_step hstep) h.2⟩) ⟨linked_run hbefore, hmet⟩ hafter
  exact hboth.2

/-- In the chat that is shown, the peers are those that will have been met. -/
theorem programs_shown {labels : List (MeetingLabel ι)} {s : Meeting ι σ}
    (hrun : run P.step P.init labels = some s) {peer : ι → ι}
    (hpeer : ∀ i j, s.met i = some j → peer i = j) :
    Guarded P.step (ShownStep P.step (P.chatsWith peer).step Meeting.tcp chatLabel) P.init
      labels := by
  rintro before l t u ⟨after, rfl⟩ ht hu u' hu'
  obtain rfl : u = u' := Option.some.inj (hu.symm.trans hu')
  have hbefore := run_concat_iff.2 ⟨t, ht, hu⟩
  rw [run_append, hbefore, Option.bind_some] at hrun
  exact (meets_of_step hu).chat_step fun i j hmet => hpeer i j (met_run hbefore hrun hmet)

/-- Every read at the loop condition of a listener returns a whole header. -/
def WholeHeaders (s : Meeting ι σ) : MeetingLabel ι → Prop
  | .chat l => HeaderReads s.tcp l
  | _ => True

/-- A run of the whole programs shows a run of the chat, in which the peers are
    those that have been met in it. -/
theorem programs_refine (P : Programs ι σ) {labels : List (MeetingLabel ι)} {s : Meeting ι σ}
    (hrun : run P.step P.init labels = some s) {peer : ι → ι}
    (hpeer : ∀ i j, s.met i = some j → peer i = j) :
    run (P.chatsWith peer).step (P.chatsWith peer).init (labels.filterMap chatLabel) =
        some s.tcp ∧
      (Guarded P.step WholeHeaders P.init labels → Guarded (P.chatsWith peer).step HeaderReads
        (P.chatsWith peer).init (labels.filterMap chatLabel)) := by
  have hshown := programs_shown hrun hpeer
  have hreads (t : Meeting ι σ) (l : MeetingLabel ι) (l' : TcpLabel ι) (hl : WholeHeaders t l)
      (hshows : chatLabel l = some l') : HeaderReads t.tcp l' := by
    cases l with
    | chat l =>
      cases hshows
      exact hl
    | listen => cases hshows
    | connect i connected =>
      cases connected <;> cases hshows
      trivial
  exact ⟨run_shown_of hshown hrun, fun hwhole => guarded_shown hreads hshown hwhole hrun⟩

/-- Whoever has found whom, each listener prints one after the other the
    connections of processes that have met it, and of each a start of the lines
    that are typed at its process. -/
theorem programs_print (P : Programs ι σ) (hstack : ∀ i k, Isolated ((P.chats.stack i k).drop 4))
    {labels : List (MeetingLabel ι)} (hwhole : Guarded P.step WholeHeaders P.init labels)
    {s : Meeting ι σ} (hrun : run P.step P.init labels = some s) :
    (∀ i, s.tcp.ShownOf P.chats i) ∧ ∀ j, (s.tcp.accepted j).Nodup ∧
      (∀ i ∈ s.tcp.accepted j, s.met i = some j) ∧
      s.tcp.printed j = (s.tcp.accepted j).flatMap s.tcp.shown := by
  have hpeer : ∀ i j, s.met i = some j → (s.met i).getD i = j := by
    intro i j hmet
    rw [hmet]
    rfl
  obtain ⟨hchat, hguard⟩ := programs_refine P hrun hpeer
  obtain ⟨lines, htexts, _, halong⟩ :=
    served_along (C := P.chatsWith fun i => (s.met i).getD i) hstack (hguard hwhole)
  have hserved := halong _ _ List.prefix_rfl hchat
  refine ⟨fun i => hserved.shownOf (htexts i), fun j => ?_⟩
  refine ⟨(List.nodup_append.1 (hserved.nodup j)).1, fun i hi => ?_, hserved.printed j⟩
  obtain ⟨hown, hphase⟩ := hserved.owner j i (List.mem_append_left _ hi)
  obtain ⟨k, hmet⟩ := Option.ne_none_iff_exists'.1 (mt (linked_run hrun i).1 hphase)
  rw [hmet, ← hpeer i k hmet]
  exact congrArg some hown

theorem whole_of_reads {s : Meeting ι σ} {labels : List (MeetingLabel ι)}
    (h : ∀ j n, .chat (.read j n) ∈ labels → n = 4) : Guarded P.step WholeHeaders s labels := by
  intro bs l t u hbs _ _
  cases l with
  | chat l =>
    cases l with
    | read j n => exact fun _ _ _ => h j n (hbs.subset (by simp))
    | send | accept | eof => exact trivial
  | listen | connect => exact trivial

/-- Two listeners, and nothing else at their addresses. -/
def twoOwners (listener : Bool → SockAddr) (a : SockAddr) : Option Bool :=
  if a = listener true then some true else if a = listener false then some false else none

theorem twoOwners_eq_some (listener : Bool → SockAddr) (h : listener true ≠ listener false)
    (a : SockAddr) (j : Bool) : twoOwners listener a = some j ↔ a = listener j := by
  rw [twoOwners]
  cases j with
  | true => simp
  | false =>
    split_ifs with htrue hfalse
    · simp [htrue, h]
    · simpa using hfalse
    · simpa using hfalse

def ownPorts : Bool → PortRange
  | true => chatPorts 11001 (by decide) (by decide)
  | false => chatPorts 11002 (by decide) (by decide)

/-- Two processes of v1. -/
def twoPorts : Programs Bool Search where
  finder i := portFinder (ownPorts i)
  owner := twoOwners fun i => ⟨⟨127, 0, 0, 1⟩, PortScan.htons (ownPorts i).listenPort⟩
  chats := oneLine

def twoPortsCalls : List (MeetingLabel Bool) :=
  [.connect true false, .connect true false, .listen false, .listen true] ++
    List.replicate 9 (.connect true false) ++ [.connect true true, .chat (.accept false),
    .chat (.send true .fgets), .chat (.send true (.wrote 8)), .chat (.read false 4)]

theorem programs_print_twoPorts : ∃ s, run twoPorts.step twoPorts.init twoPortsCalls = some s ∧
    s.met true = some false ∧ s.tcp.ShownOf oneLine true := by
  have hview : (run twoPorts.step twoPorts.init twoPortsCalls).any
      (fun s => s.met true = some false) = true := by decide +kernel
  obtain ⟨s, hs, hmet⟩ := (Option.any_eq_true _ _).1 hview
  exact ⟨s, hs, of_decide_eq_true hmet, (programs_print twoPorts oneLine_isolated
    (whole_of_reads (by simp [twoPortsCalls])) hs).1 true⟩

end LanChat.TcpMeeting

import LanChat.DiscoverySet

set_option autoImplicit false

/-!
# `message_loop` of v4 and v5, from `Select` to `Select`

One `fd_set` is what `Select` is given and what it leaves behind. The loop
serves what is in it in a fixed order, and sets all its descriptors again.
-/
namespace LanChat.SelectLoops
open CStrings SocketAddresses DatagramReceive TransitionRuns ChatProcess DiscoverySet

/-- What `message_loop` waits on. -/
inductive Source where
  | listenfd
  | joinfd
  | stdin
  deriving DecidableEq, Repr

/-- The numbers of the descriptors; that of `stdin` is zero. -/
structure Fds where
  listenfd : ℕ
  joinfd : ℕ
  listenfd_pos : 0 < listenfd
  joinfd_pos : 0 < joinfd
  joinfd_ne : joinfd ≠ listenfd

def Fds.fd (f : Fds) : Source → ℕ
  | .listenfd => f.listenfd
  | .joinfd => f.joinfd
  | .stdin => 0

/-- In the order in which they are set, and looked at. -/
def sources : Version → List Source
  | .v4 => [.listenfd, .stdin]
  | .v5 => [.listenfd, .joinfd, .stdin]

/-- `maxfd + 1`. -/
def nfds (f : Fds) : Version → ℕ
  | .v4 => f.listenfd + 1
  | .v5 => max f.listenfd f.joinfd + 1

/-- `given` holds the sets that have been given to `Select`; of what it has
    returned last, `todo` has not been looked at. -/
structure Loop where
  proc : Proc
  acts : List Act
  rset : FdSet
  given : List FdSet
  todo : List Source

inductive LoopLabel where
  | select (ready : FdSet)
  | event (e : Event)

def LoopLabel.event? : LoopLabel → Option Event
  | .select _ => none
  | .event e => some e

/-- What has to be ready for an event of the loop; `none` is the `Recvfrom` of
    `am-find`, which waits by itself. -/
def sourceOf : Event → Option Source
  | .recv .listenfd _ _ => some .listenfd
  | .recv .joinfd _ _ => some .joinfd
  | .input _ | .eof => some .stdin
  | _ => none

variable (v : Version) (cfg : Config) (f : Fds)

def fdSets (rset : FdSet) : FdSet :=
  ((sources v).map f.fd).foldl (fun set fd => fdSet fd set) rset

/-- The calls of `FD_SET`, and that of `Select`. -/
def Loop.wait (s : Loop) : Loop :=
  { s with rset := fdSets v f s.rset, given := s.given ++ [fdSets v f s.rset] }

/-- Behind `FD_ZERO`. -/
def Loop.begin (p : Proc) : Loop := Loop.wait v f ⟨p, [], fdZero, [], []⟩

/-- The rest of the body, or the next `Select`. -/
def Loop.goesOn (s : Loop) (q : Proc × List Act) (todo : List Source) : Loop :=
  let t := { s with proc := q.1, acts := s.acts ++ q.2, todo := todo }
  if q.1.phase = .selecting ∧ todo = [] then t.wait v f else t

def loopStep (s : Loop) : LoopLabel → Option Loop
  | .select ready =>
    if s.proc.phase = .selecting ∧ s.todo = [] ∧ members (nfds f v) ready ≠ [] ∧
        ∀ fd ∈ members (nfds f v) ready, s.rset fd = true then
      some { s with
        rset := ready
        todo := (sources v).filter fun src => ready (f.fd src) }
    else none
  | .event e => match sourceOf e with
    | some src =>
      if s.proc.phase = .selecting ∧ s.todo.head? = some src then
        (step v cfg s.proc e).map fun q => s.goesOn v f q s.todo.tail
      else none
    | none =>
      if s.proc.phase = .confirming then
        (step v cfg s.proc e).map fun q => s.goesOn v f q s.todo
      else none

/-- The process of these events, with what it does. -/
def actStep (s : Proc × List Act) (e : Event) : Option (Proc × List Act) :=
  (step v cfg s.1 e).map fun q => (q.1, s.2 ++ q.2)

variable {v cfg f}

theorem fdSets_eq (rset : FdSet) (fd : ℕ) :
    fdSets v f rset fd = true ↔ rset fd = true ∨ fd ∈ (sources v).map f.fd := by
  unfold fdSets
  generalize (sources v).map f.fd = fds
  induction fds generalizing rset with
  | nil => simp
  | cons n fds ih =>
    rw [List.foldl_cons, ih, List.mem_cons, ← or_assoc]
    refine or_congr_left ?_
    by_cases hfd : fd = n
    · simp [fdSet, hfd]
    · simp [fdSet, hfd]

theorem fd_lt_nfds {src : Source} (h : src ∈ sources v) : f.fd src < nfds f v := by
  have hpos := f.listenfd_pos
  cases v <;> cases src <;> simp [sources] at h <;> simp only [Fds.fd, nfds] <;> omega

/-- `Select` is given the descriptors of the loop and no others. -/
structure Serves (v : Version) (f : Fds) (s : Loop) : Prop where
  given : ∀ set ∈ s.given, ∀ fd, fd ∈ members (nfds f v) set ↔ fd ∈ (sources v).map f.fd
  rset : ∀ fd ∈ members (nfds f v) s.rset, fd ∈ (sources v).map f.fd
  waiting : s.proc.phase = .selecting → s.todo = [] → ∀ src ∈ sources v, s.rset (f.fd src) = true

theorem serves_wait {s : Loop} (hgiven : ∀ set ∈ s.given, ∀ fd,
      fd ∈ members (nfds f v) set ↔ fd ∈ (sources v).map f.fd)
    (hrset : ∀ fd ∈ members (nfds f v) s.rset, fd ∈ (sources v).map f.fd) :
    Serves v f (s.wait v f) := by
  have hset (fd : ℕ) : fd ∈ members (nfds f v) (fdSets v f s.rset) ↔
      fd ∈ (sources v).map f.fd := by
    rw [mem_members, fdSets_eq]
    constructor
    · rintro ⟨hlt, hfd | hfd⟩
      · exact hrset fd (mem_members.2 ⟨hlt, hfd⟩)
      · exact hfd
    · intro hfd
      obtain ⟨src, hsrc, rfl⟩ := List.mem_map.1 hfd
      exact ⟨fd_lt_nfds hsrc, .inr hfd⟩
  refine ⟨?_, fun fd hfd => (hset fd).1 hfd, fun _ _ src hsrc => ?_⟩
  · intro set hmem
    rcases List.mem_append.1 hmem with hmem | hmem
    · exact hgiven set hmem
    · rw [List.mem_singleton.1 hmem]
      exact hset
  · exact (fdSets_eq _ _).2 (.inr (List.mem_map_of_mem hsrc))

theorem serves_begin (p : Proc) : Serves v f (Loop.begin v f p) := by
  apply serves_wait
  · intro set hmem
    cases hmem
  · intro fd hfd
    exact absurd (mem_members.1 hfd).2 (by simp [fdZero])

theorem Serves.goesOn {s : Loop} (h : Serves v f s) (q : Proc × List Act) (todo : List Source) :
    Serves v f (s.goesOn v f q todo) := by
  unfold Loop.goesOn
  dsimp only
  split_ifs with hwait
  · exact serves_wait h.given h.rset
  · exact ⟨h.given, h.rset, fun hp htodo => absurd ⟨hp, htodo⟩ hwait⟩

theorem serves_step {s t : Loop} {l : LoopLabel} (h : Serves v f s)
    (hstep : loopStep v cfg f s l = some t) : Serves v f t := by
  cases l with
  | select ready =>
    simp only [loopStep] at hstep
    split_ifs at hstep with hc
    obtain ⟨hp, htodo, hne, hready⟩ := hc
    cases hstep
    have hrset : ∀ fd ∈ members (nfds f v) ready, fd ∈ (sources v).map f.fd := fun fd hfd =>
      h.rset fd (mem_members.2 ⟨(mem_members.1 hfd).1, hready fd hfd⟩)
    refine ⟨h.given, hrset, fun _ hnone => ?_⟩
    obtain ⟨fd, hfd⟩ := List.exists_mem_of_ne_nil _ hne
    obtain ⟨src, hsrc, rfl⟩ := List.mem_map.1 (hrset fd hfd)
    have hmem : src ∈ (sources v).filter fun src => ready (f.fd src) :=
      List.mem_filter.2 ⟨hsrc, (mem_members.1 hfd).2⟩
    exact absurd hnone (List.ne_nil_of_mem hmem)
  | event e =>
    simp only [loopStep] at hstep
    split at hstep
    · split_ifs at hstep
      obtain ⟨q, _, rfl⟩ := Option.map_eq_some_iff.1 hstep
      exact h.goesOn q _
    · split_ifs at hstep
      obtain ⟨q, _, rfl⟩ := Option.map_eq_some_iff.1 hstep
      exact h.goesOn q _

/-- Every `Select` waits on all descriptors of the loop and on no others. -/
theorem selects_all (p : Proc) {labels : List LoopLabel} {s : Loop}
    (hrun : run (loopStep v cfg f) (Loop.begin v f p) labels = some s) :
    ∀ set ∈ s.given, ∀ fd, fd ∈ members (nfds f v) set ↔ fd ∈ (sources v).map f.fd := by
  have h : Serves v f s :=
    run_preserves (fun _ _ _ h hstep => serves_step h hstep) (serves_begin p) hrun
  exact h.given

/-- Descriptors as a process has them that has opened its sockets in order. -/
def firstFds : Fds := ⟨4, 5, by decide, by decide, by decide⟩

theorem selects_all_first :
    4 ∈ members (nfds firstFds .v5) (fdSets .v5 firstFds (fdSet 0 fdZero)) :=
  (selects_all (v := .v5) (f := firstFds) ⟨.selecting, []⟩
    (show run (loopStep .v5 (host 1) firstFds) _ [.select (fdSet 0 fdZero), .event .eof] =
      some _ from rfl) _ (List.mem_cons_of_mem _ List.mem_cons_self) 4).2 (by decide)

/-- In `message_loop`, or behind it. -/
def inLoop : Phase → Bool
  | .idle | .finding _ | .offered _ => false
  | _ => true

theorem step_source {p : Proc} {e : Event} {q : Proc × List Act} (hp : inLoop p.phase = true)
    (h : step v cfg p e = some q) : inLoop q.1.phase = true ∧
      (p.phase = .selecting ∧ (∃ src ∈ sources v, sourceOf e = some src) ∨
        p.phase = .confirming ∧ sourceOf e = none) := by
  have hturn := turn_of_step h
  generalize q.1 = p' at hturn ⊢
  generalize packets q.2 = sent at hturn
  have hadd (a : SockAddr) : inLoop (addPeer p a .selecting).phase = true := by
    rcases addPeer_phase_eq p a .selecting with hphase | ⟨n, hphase⟩ <;> rw [hphase] <;> rfl
  cases hturn with
  | start hphase | offered hphase | pselectError hphase | alarm hphase =>
    rw [hphase] at hp
    cases hp
  | confirm hnext hc =>
    rcases hnext with ⟨rset, hphase, _⟩ | ⟨hphase, rfl⟩
    · rw [hphase] at hp
      cases hp
    · exact ⟨hadd _, .inr ⟨hphase, rfl⟩⟩
  | refuse hnext hc =>
    rcases hnext with ⟨rset, hphase, _⟩ | ⟨hphase, rfl⟩
    · rw [hphase] at hp
      cases hp
    · exact ⟨rfl, .inr ⟨hphase, rfl⟩⟩
  | @accept fd d mem r hphase hr hok =>
    refine ⟨hadd _, .inl ⟨hphase, ?_⟩⟩
    cases v <;> cases fd <;> cases hr <;> exact ⟨_, by decide, rfl⟩
  | @dismiss fd d mem r next hphase hr hno hnext =>
    refine ⟨?_, .inl ⟨hphase, ?_⟩⟩
    · rcases hnext with rfl | ⟨fault, rfl⟩ <;> rfl
    · cases v <;> cases fd <;> cases hr <;> exact ⟨_, by decide, rfl⟩
  | leave hphase | find hphase =>
    exact ⟨rfl, .inl ⟨hphase, .stdin, by cases v <;> decide, rfl⟩⟩
  | chat hphase | eof hphase =>
    exact ⟨hp, .inl ⟨hphase, .stdin, by cases v <;> decide, rfl⟩⟩

theorem goesOn_shows (s : Loop) (q : Proc × List Act) (todo : List Source) :
    (s.goesOn v f q todo).proc = q.1 ∧ (s.goesOn v f q todo).acts = s.acts ++ q.2 ∧
      (s.goesOn v f q todo).todo = todo := by
  unfold Loop.goesOn
  dsimp only
  split_ifs <;> exact ⟨rfl, rfl, rfl⟩

theorem loop_shows {s t : Loop} {l : LoopLabel} (hstep : loopStep v cfg f s l = some t) :
    run (actStep v cfg) (s.proc, s.acts) l.event?.toList = some (t.proc, t.acts) := by
  cases l with
  | select ready =>
    simp only [loopStep] at hstep
    split_ifs at hstep
    cases hstep
    rfl
  | event e =>
    have hact {todo : List Source}
        (h : (step v cfg s.proc e).map (fun q => s.goesOn v f q todo) = some t) :
        run (actStep v cfg) (s.proc, s.acts) [e] = some (t.proc, t.acts) := by
      obtain ⟨q, hq, rfl⟩ := Option.map_eq_some_iff.1 h
      obtain ⟨hproc, hacts, _⟩ := goesOn_shows (v := v) (f := f) s q todo
      refine run_cons_iff.2 ⟨_, ?_, rfl⟩
      rw [hproc, hacts, actStep, hq]
      rfl
    simp only [loopStep] at hstep
    split at hstep
    · split_ifs at hstep
      exact hact hstep
    · split_ifs at hstep
      exact hact hstep

theorem fd_injective (f : Fds) {src src' : Source} (h : f.fd src = f.fd src') : src = src' := by
  have hlisten := f.listenfd_pos
  have hjoin := f.joinfd_pos
  have hne := f.joinfd_ne
  cases src <;> cases src' <;> first | rfl | (simp only [Fds.fd] at h; omega)

theorem fdSet_single (n fd : ℕ) : fdSet n fdZero fd = true ↔ fd = n := by
  by_cases h : fd = n
  · simp [fdSet, h]
  · simp [fdSet, fdZero, h]

theorem todo_single {src : Source} (h : src ∈ sources v) :
    (sources v).filter (fun src' => fdSet (f.fd src) fdZero (f.fd src')) = [src] := by
  have hiff (src' : Source) : fdSet (f.fd src) fdZero (f.fd src') = decide (src' = src) := by
    rw [Bool.eq_iff_iff, fdSet_single, decide_eq_true_iff]
    exact ⟨fd_injective f, fun e => e ▸ rfl⟩
  simp only [hiff]
  cases v <;> cases src <;> first | rfl | simp [sources] at h

/-- The loop stands where it has looked at everything, with a process that has
    done the same. -/
structure Abreast (v : Version) (f : Fds) (s : Loop) (s' : Proc × List Act) : Prop where
  proc : s.proc = s'.1
  acts : s.acts = s'.2
  todo : s.todo = []
  serves : Serves v f s
  inLoop : inLoop s.proc.phase = true

theorem loop_follows {s : Loop} {s' t' : Proc × List Act} {e : Event} (h : Abreast v f s s')
    (hstep : actStep v cfg s' e = some t') :
    ∃ labels t, labels.filterMap LoopLabel.event? = [e] ∧
      run (loopStep v cfg f) s labels = some t ∧ Abreast v f t t' := by
  obtain ⟨q, hq, rfl⟩ := Option.map_eq_some_iff.1 hstep
  rw [← h.proc] at hq
  obtain ⟨hin, ⟨hp, src, hsrc, he⟩ | ⟨hp, he⟩⟩ := step_source h.inLoop hq
  · let t : Loop := { s with rset := fdSet (f.fd src) fdZero, todo := [src] }
    have hselect : loopStep v cfg f s (.select (fdSet (f.fd src) fdZero)) = some t := by
      have hmem (fd : ℕ) : fd ∈ members (nfds f v) (fdSet (f.fd src) fdZero) ↔ fd = f.fd src := by
        rw [mem_members, fdSet_single, and_iff_right_of_imp]
        rintro rfl
        exact fd_lt_nfds hsrc
      rw [loopStep, if_pos, todo_single hsrc]
      refine ⟨hp, h.todo, List.ne_nil_of_mem ((hmem _).2 rfl), fun fd hfd => ?_⟩
      rw [(hmem fd).1 hfd]
      exact h.serves.waiting hp h.todo src hsrc
    have hserve : loopStep v cfg f t (.event e) = some (t.goesOn v f q []) := by
      simp [loopStep, he, t, hp, hq]
    obtain ⟨hproc, hacts, htodo⟩ := goesOn_shows (v := v) (f := f) t q []
    refine ⟨[.select _, .event e], _, rfl,
      run_cons_iff.2 ⟨t, hselect, run_cons_iff.2 ⟨_, hserve, rfl⟩⟩, hproc, ?_, htodo, ?_, ?_⟩
    · rw [hacts, ← h.acts]
    · exact serves_step (serves_step h.serves hselect) hserve
    · rwa [hproc]
  · have hserve : loopStep v cfg f s (.event e) = some (s.goesOn v f q s.todo) := by
      simp [loopStep, he, hp, hq]
    obtain ⟨hproc, hacts, htodo⟩ := goesOn_shows (v := v) (f := f) s q s.todo
    refine ⟨[.event e], _, rfl, run_cons_iff.2 ⟨_, hserve, rfl⟩, hproc, ?_, ?_, ?_, ?_⟩
    · rw [hacts, h.acts]
    · rw [htodo, h.todo]
    · exact serves_step h.serves hserve
    · rwa [hproc]

/-- The events that the loop can go through, and what it does at them, are those
    of the process that takes one event at a time. -/
theorem loop_iff (f : Fds) {p : Proc} (hp : p.phase = .selecting) (es : List Event) (q : Proc)
    (acts : List Act) : run (actStep v cfg) (p, []) es = some (q, acts) ↔
      ∃ labels s, labels.filterMap LoopLabel.event? = es ∧
        run (loopStep v cfg f) (Loop.begin v f p) labels = some s ∧ s.proc = q ∧
        s.acts = acts := by
  constructor
  · intro hrun
    have hbegin : Abreast v f (Loop.begin v f p) (p, []) :=
      ⟨rfl, rfl, rfl, serves_begin p, by
        rw [show (Loop.begin v f p).proc = p from rfl, hp]
        rfl⟩
    obtain ⟨labels, s, hlabels, hs, hR⟩ :=
      run_covered (fun _ _ _ _ h hstep => loop_follows h hstep) hbegin hrun
    exact ⟨labels, s, hlabels, hs, hR.proc, hR.acts⟩
  · rintro ⟨labels, s, rfl, hrun, rfl, rfl⟩
    exact run_shown (I := fun _ => True) (fun _ _ _ _ hstep => ⟨trivial, loop_shows hstep⟩) trivial
      hrun

theorem loop_serves : ∃ labels s, labels.filterMap LoopLabel.event? = [.input (ascii "am-end\n")] ∧
    run (loopStep .v4 (host 1) firstFds) (Loop.begin .v4 firstFds ⟨.selecting, []⟩) labels = some s ∧
    s.proc = ⟨.left, []⟩ ∧ s.acts = [] :=
  (loop_iff firstFds rfl _ _ _).1 rfl

end LanChat.SelectLoops

import LanChat.ChatProcess

set_option autoImplicit false

/-!
# `SIGALRM` in `find_peer` of v4 and v5

Outside `pselect` the signal is blocked. The `pselect` of the kernel takes it
while it waits and at no other time. That of the library, which is compiled
where there is no other, also takes it before and after its `select`.
-/
namespace LanChat.PselectRaces
open SocketAddresses DatagramReceive TransitionRuns ChatProcess

/-- What has become of the signal of `alarm(5)`. -/
inductive Timer where
  | armed
  | pending
  | taken
  deriving DecidableEq, Repr

/-- `blocked` is outside `pselect`. Of the `pselect` of the library, `unmasked`
    is before `select`, `woken` and `interrupted` are behind it. -/
inductive Place where
  | blocked
  | unmasked
  | waiting
  | woken (ready : List ℕ) (sock : Bool)
  | interrupted
  deriving DecidableEq, Repr

structure Waiter where
  proc : Proc
  place : Place
  timer : Timer
  deriving DecidableEq, Repr

inductive WaitLabel where
  | expire
  | call
  | select
  | ready (set : List ℕ) (sock : Bool)
  | interrupt
  | restore
  | recv (d : Datagram) (mem : Residue)

/-- Behind `alarm(5)`. -/
def Waiter.begin (cfg : Config) : Waiter := ⟨⟨.finding cfg.rset, []⟩, .blocked, .armed⟩

variable (v : Version) (cfg : Config)

/-- `pselect` or `Recvfrom` has returned. -/
def Waiter.goesOn (s : Waiter) (e : Event) (timer : Timer) : Option Waiter :=
  (step v cfg s.proc e).map fun q => ⟨q.1, .blocked, timer⟩

def Waiter.recv (s : Waiter) (d : Datagram) (mem : Residue) : Option Waiter :=
  if s.place = .blocked then s.goesOn v cfg (.recv .sockfd d mem) s.timer else none

def kernelStep (s : Waiter) : WaitLabel → Option Waiter
  | .expire => if s.timer = .armed then some { s with timer := .pending } else none
  | .call => match s.place, s.proc.phase with
    | .blocked, .finding _ => some { s with place := .waiting }
    | _, _ => none
  | .ready set sock =>
    if s.place = .waiting then s.goesOn v cfg (.pselect set sock) s.timer else none
  | .interrupt =>
    if s.place = .waiting ∧ s.timer = .pending then s.goesOn v cfg .alarm .taken else none
  | .recv d mem => s.recv v cfg d mem
  | .select | .restore => none

/-- A signal that is pending is taken by the `sigprocmask` that unblocks it. -/
def libraryStep (s : Waiter) : WaitLabel → Option Waiter
  | .expire =>
    if s.timer = .armed then
      some (match s.place with
        | .blocked => { s with timer := .pending }
        | .waiting => { s with place := .interrupted, timer := .taken }
        | .unmasked | .woken _ _ | .interrupted => { s with timer := .taken })
    else none
  | .call => match s.place, s.proc.phase with
    | .blocked, .finding _ =>
      some { s with
        place := .unmasked
        timer := if s.timer = .pending then .taken else s.timer }
    | _, _ => none
  | .select => if s.place = .unmasked then some { s with place := .waiting } else none
  | .ready set sock =>
    if s.place = .waiting ∧ (step v cfg s.proc (.pselect set sock)).isSome then
      some { s with place := .woken set sock }
    else none
  | .restore => match s.place with
    | .woken set sock => s.goesOn v cfg (.pselect set sock) s.timer
    | .interrupted => s.goesOn v cfg .alarm s.timer
    | _ => none
  | .recv d mem => s.recv v cfg d mem
  | .interrupt => none

/-- `find_peer` has returned. -/
def Waiter.Ended (s : Waiter) : Prop := s.proc.phase = .selecting

def CanEnd (find : Waiter → WaitLabel → Option Waiter) (s : Waiter) : Prop :=
  ∃ labels t, run find s labels = some t ∧ t.Ended

variable {v cfg}

section Process

variable {p : Proc} {q : Proc × List Act}

theorem pselect_phase {set : List ℕ} {sock : Bool}
    (h : step v cfg p (.pselect set sock) = some q) :
    (∃ rset, p.phase = .finding rset) ∧ q.1.phase ≠ .selecting ∧ q.1.phase ≠ .confirming := by
  have hturn := turn_of_step h
  generalize q.1 = p' at hturn ⊢
  generalize packets q.2 = sent at hturn
  cases hturn with
  | offered hp | pselectError hp => exact ⟨⟨_, hp⟩, by simp, by simp⟩

theorem alarm_phase (h : step v cfg p .alarm = some q) : q.1.phase = .selecting := by
  have hturn := turn_of_step h
  generalize q.1 = p' at hturn ⊢
  generalize packets q.2 = sent at hturn
  cases hturn with
  | alarm hp => rfl

theorem recv_phase {d : Datagram} {mem : Residue} (hp : p.phase ≠ .confirming)
    (h : step v cfg p (.recv .sockfd d mem) = some q) :
    p.phase ≠ .selecting ∧ q.1.phase ≠ .selecting ∧ q.1.phase ≠ .confirming := by
  have hturn := turn_of_step h
  generalize q.1 = p' at hturn ⊢
  generalize packets q.2 = sent at hturn
  cases hturn with
  | confirm hnext hc =>
    obtain ⟨rset, hoffered, rfl⟩ := hnext.resolve_right fun h => hp h.1
    refine ⟨by simp [hoffered], ?_⟩
    rcases addPeer_phase_eq p d.src (.finding rset) with hphase | ⟨n, hphase⟩ <;> simp [hphase]
  | refuse hnext hc =>
    obtain ⟨rset, hoffered, rfl⟩ := hnext.resolve_right fun h => hp h.1
    simp [hoffered]
  | accept _ hr | dismiss _ hr => cases hr

end Process

/-- In the loop of `find_peer`, and not on the way out of it. -/
def Waiter.InLoop (s : Waiter) : Prop :=
  match s.place with
  | .blocked => s.proc.phase ≠ .selecting ∧ s.proc.phase ≠ .confirming
  | .unmasked | .waiting | .woken _ _ => ∃ rset, s.proc.phase = .finding rset
  | .interrupted => False

theorem Waiter.InLoop.not_ended {s : Waiter} (h : s.InLoop) : ¬ s.Ended := by
  cases hplace : s.place with
  | blocked =>
    simp only [Waiter.InLoop, hplace] at h
    exact h.1
  | unmasked | waiting | woken =>
    simp only [Waiter.InLoop, hplace] at h
    obtain ⟨rset, hp⟩ := h
    simp [Waiter.Ended, hp]
  | interrupted => simp only [Waiter.InLoop, hplace] at h

theorem inLoop_begin (cfg : Config) : (Waiter.begin cfg).InLoop := by
  simp [Waiter.InLoop, Waiter.begin]

theorem inLoop_returned {s t : Waiter} {set : List ℕ} {sock : Bool} {timer : Timer}
    (h : s.goesOn v cfg (.pselect set sock) timer = some t) :
    t.InLoop ∧ t.place = .blocked ∧ t.timer = timer := by
  obtain ⟨q, hq, rfl⟩ := Option.map_eq_some_iff.1 h
  exact ⟨(pselect_phase hq).2, rfl, rfl⟩

theorem inLoop_recv {s t : Waiter} {d : Datagram} {mem : Residue} (hin : s.InLoop)
    (h : s.recv v cfg d mem = some t) :
    t.InLoop ∧ t.place = .blocked ∧ t.timer = s.timer := by
  unfold Waiter.recv at h
  split_ifs at h with hplace
  obtain ⟨q, hq, rfl⟩ := Option.map_eq_some_iff.1 h
  simp only [Waiter.InLoop, hplace] at hin
  exact ⟨(recv_phase hin.2 hq).2, rfl, rfl⟩

/-- Before the timer expires, and after a signal has been lost, the loop goes
    on; a signal that is pending waits for the end of what is being done. -/
theorem library_inLoop {s t : Waiter} {l : WaitLabel} (hin : s.InLoop) (hl : l ≠ .expire)
    (hpending : s.timer = .pending → s.place = .blocked)
    (hstep : libraryStep v cfg s l = some t) :
    t.InLoop ∧ (t.timer = .armed ↔ s.timer = .armed) ∧
      (t.timer = .pending → t.place = .blocked) := by
  cases l with
  | expire => exact absurd rfl hl
  | interrupt => cases hstep
  | call =>
    simp only [libraryStep] at hstep
    split at hstep
    · rename_i rset hplace hp
      cases hstep
      refine ⟨⟨rset, hp⟩, ?_, ?_⟩
      · dsimp only
        split_ifs with htimer <;> simp [htimer]
      · dsimp only
        split_ifs with htimer
        · simp
        · exact fun h => absurd h htimer
    · cases hstep
  | select =>
    simp only [libraryStep] at hstep
    split_ifs at hstep with hplace
    cases hstep
    simp only [Waiter.InLoop, hplace] at hin
    exact ⟨hin, Iff.rfl, fun h => absurd (hplace.symm.trans (hpending h)) (by simp)⟩
  | ready set sock =>
    simp only [libraryStep] at hstep
    split_ifs at hstep with hplace
    cases hstep
    simp only [Waiter.InLoop, hplace.1] at hin
    exact ⟨hin, Iff.rfl, fun h => absurd (hplace.1.symm.trans (hpending h)) (by simp)⟩
  | restore =>
    simp only [libraryStep] at hstep
    split at hstep
    · obtain ⟨hin', hplace, htimer⟩ := inLoop_returned hstep
      exact ⟨hin', by rw [htimer], fun _ => hplace⟩
    · rename_i hplace
      simp only [Waiter.InLoop, hplace] at hin
    · cases hstep
  | recv d mem =>
    obtain ⟨hin', hplace, htimer⟩ := inLoop_recv hin hstep
    exact ⟨hin', by rw [htimer], fun _ => hplace⟩

/-- The signal has been taken, or will be, where it does not end the loop. -/
structure Lost (s : Waiter) : Prop where
  inLoop : s.InLoop
  timer : s.timer ≠ .armed
  pending : s.timer = .pending → s.place = .blocked

theorem lost_step {s t : Waiter} {l : WaitLabel} (h : Lost s)
    (hstep : libraryStep v cfg s l = some t) : Lost t := by
  have hl : l ≠ .expire := by
    rintro rfl
    rw [libraryStep, if_neg h.timer] at hstep
    cases hstep
  obtain ⟨hin, htimer, hpending⟩ := library_inLoop h.inLoop hl h.pending hstep
  exact ⟨hin, fun ht => h.timer (htimer.1 ht), hpending⟩

theorem Lost.not_canEnd {s : Waiter} (h : Lost s) : ¬ CanEnd (libraryStep v cfg) s := by
  rintro ⟨more, u, hmore, hended⟩
  have hlost : Lost u := run_preserves (fun _ _ _ h hstep => lost_step h hstep) h hmore
  exact hlost.inLoop.not_ended hended

/-- The signal has ended the wait. -/
structure Kept (s : Waiter) : Prop where
  timer : s.timer = .taken
  place : s.place = .interrupted ∧ (∃ rset, s.proc.phase = .finding rset) ∨
    s.place = .blocked ∧ s.Ended

theorem Kept.canEnd {s : Waiter} (h : Kept s) : CanEnd (libraryStep v cfg) s := by
  rcases h.place with ⟨hplace, rset, hp⟩ | ⟨_, hended⟩
  · have halarm : step v cfg s.proc .alarm = some (onAlarm s.proc) := by simp [step, hp]
    refine ⟨[.restore], ⟨(onAlarm s.proc).1, .blocked, s.timer⟩, ?_, rfl⟩
    refine run_cons_iff.2 ⟨_, ?_, rfl⟩
    simp [libraryStep, hplace, Waiter.goesOn, halarm]
  · exact ⟨[], s, rfl, hended⟩

/-- Nothing comes behind the loop. -/
theorem ended_stays {s : Waiter} (htimer : s.timer = .taken) (hplace : s.place = .blocked)
    (hended : s.Ended) (l : WaitLabel) : libraryStep v cfg s l = none := by
  rw [Waiter.Ended] at hended
  cases l with
  | expire | call | select | ready | interrupt | restore =>
    simp [libraryStep, htimer, hplace, hended]
  | recv d mem =>
    simp [libraryStep, Waiter.recv, hplace, Waiter.goesOn, step, hended]

theorem kept_step {s t : Waiter} {l : WaitLabel} (h : Kept s)
    (hstep : libraryStep v cfg s l = some t) : Kept t := by
  obtain ⟨htimer, ⟨hplace, rset, hp⟩ | ⟨hplace, hended⟩⟩ := h
  · cases l with
    | restore =>
      simp only [libraryStep, hplace] at hstep
      obtain ⟨q, hq, rfl⟩ := Option.map_eq_some_iff.1 hstep
      exact ⟨htimer, .inr ⟨rfl, alarm_phase hq⟩⟩
    | expire | call | select | ready | interrupt | recv =>
      simp [libraryStep, Waiter.recv, htimer, hplace] at hstep
  · rw [ended_stays htimer hplace hended] at hstep
    cases hstep

/-- Where the signal finds the process decides. -/
theorem library_expire {s t : Waiter} (hin : s.InLoop) (harmed : s.timer = .armed)
    (hstep : libraryStep v cfg s .expire = some t) :
    if s.place = .waiting then Kept t else Lost t := by
  simp only [libraryStep, if_pos harmed] at hstep
  cases hplace : s.place with
  | interrupted => simp only [Waiter.InLoop, hplace] at hin
  | waiting =>
    simp only [Waiter.InLoop, hplace] at hin
    simp only [hplace] at hstep
    cases hstep
    exact ⟨rfl, .inl ⟨rfl, hin⟩⟩
  | blocked | unmasked | woken =>
    simp only [Waiter.InLoop, hplace] at hin
    simp only [hplace] at hstep
    cases hstep
    rw [if_neg (by simp)]
    exact ⟨by simpa [Waiter.InLoop, hplace] using hin, by simp, by simp⟩

/-- Before the timer expires. -/
def Searching (s : Waiter) : Prop := s.InLoop ∧ s.timer = .armed

theorem searching_begin (cfg : Config) : Searching (Waiter.begin cfg) := ⟨inLoop_begin cfg, rfl⟩

theorem searching_step {s t : Waiter} {l : WaitLabel} (h : Searching s)
    (hstep : libraryStep v cfg s l = some t) :
    (l ≠ .expire ∧ Searching t) ∨ (l = .expire ∧ if s.place = .waiting then Kept t else Lost t) := by
  by_cases hl : l = .expire
  · subst l
    exact .inr ⟨rfl, library_expire h.1 h.2 hstep⟩
  · obtain ⟨hin, htimer, _⟩ := library_inLoop h.1 hl
      (fun hpending => absurd (h.2.symm.trans hpending) (by simp)) hstep
    exact .inl ⟨hl, hin, htimer.2 h.2⟩

theorem Kept.not_lost {s : Waiter} (h : Kept s) : ¬ Lost s := by
  intro hlost
  rcases h.place with ⟨hplace, _⟩ | ⟨_, hended⟩
  · have hin := hlost.inLoop
    simp only [Waiter.InLoop, hplace] at hin
  · exact hlost.inLoop.not_ended hended

theorem library_cases {labels : List WaitLabel} {s : Waiter}
    (hrun : run (libraryStep v cfg) (.begin cfg) labels = some s) :
    Searching s ∨ Kept s ∨ Lost s := by
  refine run_preserves (I := fun s => Searching s ∨ Kept s ∨ Lost s) ?_
    (.inl (searching_begin cfg)) hrun
  rintro s l t (h | h | h) hstep
  · rcases searching_step h hstep with ⟨_, h⟩ | ⟨_, h⟩
    · exact .inl h
    · split_ifs at h
      · exact .inr (.inl h)
      · exact .inr (.inr h)
  · exact .inr (.inl (kept_step h hstep))
  · exact .inr (.inr (lost_step h hstep))

/-- With the `pselect` of the library, a signal that has come can still end the
    discovery exactly if it has come while `select` was waiting. -/
theorem alarm_ends_iff {labels : List WaitLabel} {s : Waiter}
    (hrun : run (libraryStep v cfg) (.begin cfg) labels = some s) (hcome : s.timer ≠ .armed) :
    CanEnd (libraryStep v cfg) s ↔ ∃ before after t, labels = before ++ .expire :: after ∧
      run (libraryStep v cfg) (.begin cfg) before = some t ∧ t.place = .waiting := by
  constructor
  · intro hcan
    have hkept : Kept s := by
      rcases library_cases hrun with h | h | h
      · exact absurd h.2 hcome
      · exact h
      · exact absurd hcan h.not_canEnd
    have hbegin : ¬ Kept (Waiter.begin cfg) := fun h => absurd h.timer (by simp [Waiter.begin])
    obtain ⟨before, l, after, t, t', rfl, hbefore, ht, hstep, ht', _⟩ :=
      run_leaves (P := fun s => ¬ Kept s) hbegin (not_not.2 hkept) hrun
    rw [not_not] at ht'
    rcases library_cases hbefore with h | h | h
    · rcases searching_step h hstep with ⟨_, h'⟩ | ⟨rfl, h'⟩
      · exact absurd ht'.timer (by rw [h'.2]; simp)
      · split_ifs at h' with hplace
        · exact ⟨before, after, t, rfl, hbefore, hplace⟩
        · exact absurd h' ht'.not_lost
    · exact absurd h ht
    · exact absurd (lost_step h hstep) ht'.not_lost
  · rintro ⟨before, after, t, rfl, hbefore, hplace⟩
    rw [run_append, hbefore] at hrun
    obtain ⟨t', hstep, hafter⟩ := run_cons_iff.1 hrun
    have harmed : t.timer = .armed := by
      by_contra hno
      rw [libraryStep, if_neg hno] at hstep
      cases hstep
    have hsearching : Searching t := by
      rcases library_cases hbefore with h | h | h
      · exact h
      · exact absurd harmed (by rw [h.timer]; simp)
      · exact absurd harmed h.timer
    have hkept := library_expire hsearching.1 harmed hstep
    rw [if_pos hplace] at hkept
    exact (run_preserves (fun _ _ _ h hstep => kept_step h hstep) hkept hafter).canEnd

theorem alarm_ends_waiting : CanEnd (libraryStep .v4 (host 1))
    ⟨⟨.finding [], []⟩, .interrupted, .taken⟩ :=
  (alarm_ends_iff (show run (libraryStep .v4 (host 1)) (.begin (host 1))
    [.call, .select, .expire] = some _ from rfl) (by decide)).2
      ⟨[.call, .select], [], _, rfl, rfl, rfl⟩

/-- How a state with the `pselect` of the library looks with that of the kernel,
    to which the signal is pending until the wait has ended. -/
def Waiter.atKernel (s : Waiter) : Waiter :=
  match s.place with
  | .blocked => s
  | .unmasked | .waiting | .woken _ _ => { s with place := .waiting }
  | .interrupted => { s with place := .waiting, timer := .pending }

theorem atKernel_searching {s t : Waiter} {l : WaitLabel} (hs : Searching s) (ht : ¬ Lost t)
    (hstep : libraryStep v cfg s l = some t) :
    t.atKernel = s.atKernel ∨ ∃ l, kernelStep v cfg s.atKernel l = some t.atKernel := by
  obtain ⟨hin, harmed⟩ := hs
  cases l with
  | expire =>
    have h := library_expire hin harmed hstep
    split_ifs at h with hplace
    · right
      refine ⟨.expire, ?_⟩
      simp only [libraryStep, if_pos harmed, hplace] at hstep
      cases hstep
      simp [kernelStep, Waiter.atKernel, hplace, harmed]
    · exact absurd h ht
  | call =>
    right
    refine ⟨.call, ?_⟩
    simp only [libraryStep] at hstep
    split at hstep
    · rename_i rset hplace hp
      cases hstep
      simp [kernelStep, Waiter.atKernel, hplace, hp, harmed]
    · cases hstep
  | select =>
    left
    simp only [libraryStep] at hstep
    split_ifs at hstep with hplace
    cases hstep
    simp [Waiter.atKernel, hplace]
  | ready set sock =>
    left
    simp only [libraryStep] at hstep
    split_ifs at hstep with hplace
    cases hstep
    simp [Waiter.atKernel, hplace.1]
  | restore =>
    right
    simp only [libraryStep] at hstep
    split at hstep
    · rename_i set sock hplace
      refine ⟨.ready set sock, ?_⟩
      obtain ⟨q, hq, rfl⟩ := Option.map_eq_some_iff.1 hstep
      simp [kernelStep, Waiter.atKernel, hplace, Waiter.goesOn, hq]
    · rename_i hplace
      simp only [Waiter.InLoop, hplace] at hin
    · cases hstep
  | recv d mem =>
    right
    refine ⟨.recv d mem, ?_⟩
    have hplace : s.place = .blocked := by
      by_contra hno
      simp [libraryStep, Waiter.recv, hno] at hstep
    have hplace' := (inLoop_recv hin hstep).2.1
    simp only [Waiter.atKernel, hplace, hplace']
    exact hstep
  | interrupt => cases hstep

theorem atKernel_kept {s t : Waiter} {l : WaitLabel} (hs : Kept s)
    (hstep : libraryStep v cfg s l = some t) :
    ∃ l, kernelStep v cfg s.atKernel l = some t.atKernel := by
  rcases hs.place with ⟨hplace, rset, hp⟩ | ⟨hplace, hended⟩
  · refine ⟨.interrupt, ?_⟩
    cases l with
    | restore =>
      simp only [libraryStep, hplace] at hstep
      obtain ⟨q, hq, rfl⟩ := Option.map_eq_some_iff.1 hstep
      simp [kernelStep, Waiter.atKernel, hplace, Waiter.goesOn, hq, hs.timer]
    | expire | call | select | ready | interrupt | recv =>
      simp [libraryStep, Waiter.recv, hs.timer, hplace] at hstep
  · exact absurd hstep (by simp [ended_stays hs.timer hplace hended])

/-- A step of the library that loses no signal is one of the kernel, or lies
    within its `pselect`. -/
theorem atKernel_step {s t : Waiter} {l : WaitLabel} (hs : Searching s ∨ Kept s) (ht : ¬ Lost t)
    (hstep : libraryStep v cfg s l = some t) :
    ∃ move : Option WaitLabel,
      run (kernelStep v cfg) s.atKernel move.toList = some t.atKernel := by
  have h : t.atKernel = s.atKernel ∨ ∃ l, kernelStep v cfg s.atKernel l = some t.atKernel := by
    rcases hs with hsearching | hkept
    · exact atKernel_searching hsearching ht hstep
    · exact .inr (atKernel_kept hkept hstep)
  rcases h with heq | ⟨l, hl⟩
  · exact ⟨none, congrArg some heq.symm⟩
  · exact ⟨some l, run_cons_iff.2 ⟨_, hl, rfl⟩⟩

/-- Where the discovery can still end, the `pselect` of the library has done what
    that of the kernel does, in each of its steps. -/
theorem library_refines {labels : List WaitLabel} {s : Waiter}
    (hrun : run (libraryStep v cfg) (.begin cfg) labels = some s)
    (hcan : s.timer = .armed ∨ CanEnd (libraryStep v cfg) s) :
    ∃ moves : List (Option WaitLabel), moves.length = labels.length ∧
      ∀ n u, run (libraryStep v cfg) (.begin cfg) (labels.take n) = some u →
        run (kernelStep v cfg) (.begin cfg) ((moves.take n).filterMap id) = some u.atKernel := by
  have hs : ¬ Lost s := fun hlost =>
    hcan.elim (fun harmed => hlost.timer harmed) fun hcan => hlost.not_canEnd hcan
  have halong : Along (libraryStep v cfg) (fun u => (Searching u ∨ Kept u) ∧ ¬ Lost u)
      (.begin cfg) labels := by
    rintro before u ⟨after, rfl⟩ hu
    rw [run_append, hu] at hrun
    have hkeeps : ¬ Lost u := fun hlost =>
      hs (run_preserves (fun _ _ _ h hstep => lost_step h hstep) hlost hrun)
    rcases library_cases hu with hsearching | hkept | hlost
    · exact ⟨.inl hsearching, hkeeps⟩
    · exact ⟨.inr hkept, hkeeps⟩
    · exact absurd hlost hkeeps
  exact run_stuttered Waiter.atKernel
    (fun _ _ _ hs ht hstep => atKernel_step hs.1 ht.2 hstep) halong

theorem library_refines_waiting : ∃ moves : List (Option WaitLabel), moves.length = 3 ∧
    ∀ n u, run (libraryStep .v4 (host 1)) (.begin (host 1)) ([.call, .select, .expire].take n) =
        some u →
      run (kernelStep .v4 (host 1)) (.begin (host 1)) ((moves.take n).filterMap id) =
        some u.atKernel :=
  library_refines (show run (libraryStep .v4 (host 1)) (.begin (host 1))
    [.call, .select, .expire] = some ⟨⟨.finding [], []⟩, .interrupted, .taken⟩ from rfl)
    (.inr ⟨[.restore], _, rfl, rfl⟩)

/-- With the `pselect` of the kernel, the signal is taken when the loop ends. -/
structure Awaited (s : Waiter) : Prop where
  place : s.place = .blocked ∧ s.proc.phase ≠ .confirming ∨
    s.place = .waiting ∧ ∃ rset, s.proc.phase = .finding rset
  timer : s.timer = .taken ↔ s.Ended

theorem awaited_step {s t : Waiter} {l : WaitLabel} (h : Awaited s)
    (hstep : kernelStep v cfg s l = some t) : Awaited t := by
  have htimer := h.timer
  cases l with
  | expire =>
    simp only [kernelStep] at hstep
    split_ifs at hstep with harmed
    cases hstep
    refine ⟨h.place, iff_of_false (by simp) fun hended => ?_⟩
    exact absurd (harmed.symm.trans (htimer.2 hended)) (by simp)
  | call =>
    simp only [kernelStep] at hstep
    split at hstep
    · rename_i rset hplace hp
      cases hstep
      exact ⟨.inr ⟨rfl, rset, hp⟩, htimer⟩
    · cases hstep
  | ready set sock =>
    simp only [kernelStep] at hstep
    split_ifs at hstep with hplace
    obtain ⟨q, hq, rfl⟩ := Option.map_eq_some_iff.1 hstep
    obtain ⟨⟨rset, hp⟩, hnot, hconf⟩ := pselect_phase hq
    refine ⟨.inl ⟨rfl, hconf⟩, iff_of_false (fun ht => ?_) hnot⟩
    have hended := htimer.1 ht
    rw [Waiter.Ended, hp] at hended
    cases hended
  | interrupt =>
    simp only [kernelStep] at hstep
    split_ifs at hstep with hplace
    obtain ⟨q, hq, rfl⟩ := Option.map_eq_some_iff.1 hstep
    have hphase := alarm_phase hq
    exact ⟨.inl ⟨rfl, by simp [hphase]⟩, iff_of_true rfl hphase⟩
  | recv d mem =>
    simp only [kernelStep, Waiter.recv] at hstep
    split_ifs at hstep with hplace
    obtain ⟨q, hq, rfl⟩ := Option.map_eq_some_iff.1 hstep
    have hconf : s.proc.phase ≠ .confirming := by
      rcases h.place with ⟨_, hp⟩ | ⟨hwaiting, _⟩
      · exact hp
      · exact absurd (hplace.symm.trans hwaiting) (by simp)
    obtain ⟨hnot, hnot', hconf'⟩ := recv_phase hconf hq
    exact ⟨.inl ⟨rfl, hconf'⟩, iff_of_false (fun ht => hnot (htimer.1 ht)) hnot'⟩
  | select | restore => cases hstep

/-- With the `pselect` of the kernel, the signal is taken exactly when it ends the
    loop; as long as it is pending, the next wait can end without a datagram. -/
theorem alarm_ends {labels : List WaitLabel} {s : Waiter}
    (hrun : run (kernelStep v cfg) (.begin cfg) labels = some s) :
    (s.timer = .taken ↔ s.Ended) ∧
    ∀ rset, s.proc.phase = .finding rset → s.timer = .pending →
      ∃ more t, (∀ l ∈ more, l = .call ∨ l = .interrupt) ∧
        run (kernelStep v cfg) s more = some t ∧ t.Ended := by
  have h : Awaited s := run_preserves (fun _ _ _ h hstep => awaited_step h hstep)
    ⟨.inl ⟨rfl, by simp [Waiter.begin]⟩, by simp [Waiter.begin, Waiter.Ended]⟩ hrun
  refine ⟨h.timer, fun rset hp hpending => ?_⟩
  have halarm : step v cfg s.proc .alarm = some (onAlarm s.proc) := by simp [step, hp]
  rcases h.place with ⟨hplace, _⟩ | ⟨hplace, _⟩
  · refine ⟨[.call, .interrupt], ⟨(onAlarm s.proc).1, .blocked, .taken⟩, by simp, ?_, rfl⟩
    refine run_cons_iff.2 ⟨{ s with place := .waiting }, ?_, run_cons_iff.2 ⟨_, ?_, rfl⟩⟩
    · simp [kernelStep, hplace, hp]
    · simp [kernelStep, hpending, Waiter.goesOn, halarm]
  · refine ⟨[.interrupt], ⟨(onAlarm s.proc).1, .blocked, .taken⟩, by simp, ?_, rfl⟩
    refine run_cons_iff.2 ⟨_, ?_, rfl⟩
    simp [kernelStep, hplace, hpending, Waiter.goesOn, halarm]

theorem alarm_ends_pending : ∃ more t, (∀ l ∈ more, l = .call ∨ l = .interrupt) ∧
    run (kernelStep .v4 (host 1)) ⟨⟨.finding [], []⟩, .waiting, .pending⟩ more = some t ∧
    t.Ended :=
  (alarm_ends (show run (kernelStep .v4 (host 1)) (.begin (host 1)) [.call, .expire] =
    some _ from rfl)).2 [] rfl rfl

end LanChat.PselectRaces

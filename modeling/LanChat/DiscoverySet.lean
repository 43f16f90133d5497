import LanChat.PeerTable

set_option autoImplicit false

/-!
# The descriptor set of `find_peer` in v4 and v5

The set is a local variable that is never cleared. `pselect` takes what it is
to wait for from it and leaves in it what is ready.
-/
namespace LanChat.DiscoverySet
open CStrings SocketAddresses DatagramReceive TransitionRuns ChatProcess PeerTable

/-- The bits of an `fd_set`. -/
abbrev FdSet := ℕ → Bool

def fdZero : FdSet := fun _ => false

def fdSet (fd : ℕ) (set : FdSet) : FdSet := Function.update set fd true

/-- The members that a call with this `nfds` looks at. -/
def members (nfds : ℕ) (set : FdSet) : List ℕ := (List.range nfds).filter set

theorem mem_members {nfds fd : ℕ} {set : FdSet} :
    fd ∈ members nfds set ↔ fd < nfds ∧ set fd = true := by
  rw [members, List.mem_filter, List.mem_range]

theorem members_succ (nfds : ℕ) (set : FdSet) :
    members (nfds + 1) set = members nfds set ++ if set nfds then [nfds] else [] := by
  rw [members, List.range_succ, List.filter_append, List.filter_singleton]
  cases set nfds <;> rfl

theorem members_fdSet (fd : ℕ) (set : FdSet) : members fd (fdSet fd set) = members fd set := by
  apply List.filter_congr
  intro i hi
  exact Function.update_of_ne (Nat.ne_of_lt (List.mem_range.1 hi)) true set

theorem members_succ_fdSet (fd : ℕ) (set : FdSet) :
    members (fd + 1) (fdSet fd set) = members fd set ++ [fd] := by
  have hset : fdSet fd set fd = true := by rw [fdSet, Function.update_self]
  rw [members_succ, members_fdSet, hset, if_pos rfl]

theorem members_subset {nfds : ℕ} {set : FdSet} : members nfds set ⊆ members (nfds + 1) set := by
  rw [members_succ]
  exact List.subset_append_left _ _

theorem members_sublist {nfds : ℕ} {set set' : FdSet}
    (h : ∀ fd ∈ members nfds set', set fd = true) :
    (members nfds set').Sublist (members nfds set) := by
  have hboth : members nfds set' = (List.range nfds).filter fun fd => set' fd && set fd := by
    apply List.filter_congr
    intro fd hfd
    cases hset : set' fd with
    | false => rfl
    | true => rw [Bool.true_and, h fd (mem_members.2 ⟨List.mem_range.1 hfd, hset⟩)]
  rw [hboth]
  apply List.monotone_filter_right
  intro fd hfd
  exact (Bool.and_eq_true_iff.1 hfd).2

/-- Before `pselect`, in the `Recvfrom` of `auth_try_confirm`, behind the loop,
    at an `err_sys`, and where the table overflows. -/
inductive FindPhase where
  | waiting
  | receiving
  | finished
  | failed (text : Bytes)
  | overflow (i : ℕ)
  deriving DecidableEq, Repr

/-- `given` holds the sets that have been given to `pselect`. -/
structure Find where
  phase : FindPhase
  rset : FdSet
  given : List FdSet
  peers : List SockAddr

/-- The results of `pselect` (what is ready, an error for a descriptor that is
    not open, or the alarm), and that of `Recvfrom`. -/
inductive FindEvent where
  | ready (rset : FdSet)
  | closed (fd : ℕ)
  | alarm
  | recv (d : Datagram) (mem : Residue)

/-- `FD_SET`, and the call of `pselect`. -/
def waitOn (sockfd : ℕ) (s : Find) : Find where
  phase := .waiting
  rset := fdSet sockfd s.rset
  given := s.given ++ [fdSet sockfd s.rset]
  peers := s.peers

def findPeer (sockfd : ℕ) (rset : FdSet) : Find := waitOn sockfd ⟨.waiting, rset, [], []⟩

def findStep (sockfd : ℕ) (s : Find) : FindEvent → Option Find
  | .ready rset => match s.phase with
    | .waiting =>
      let ready := members (sockfd + 1) rset
      if (∀ fd ∈ ready, s.rset fd = true) ∧ 0 < ready.length then
        some { s with
          rset := rset
          phase := if ready.length ≠ 1 then .failed (ErrSys.pselectReturned ready.length).text
            else .receiving }
      else none
    | _ => none
  | .closed fd => match s.phase with
    | .waiting =>
      if fd ∈ members (sockfd + 1) s.rset ∧ fd ≠ sockfd then
        some { s with phase := .failed (ascii "pselect error") }
      else none
    | _ => none
  | .alarm => match s.phase with
    | .waiting => some { s with phase := .finished }
    | _ => none
  | .recv d mem => match s.phase with
    | .receiving =>
      some (if authTryConfirm mem d then
        if s.peers.length < maxPeers then waitOn sockfd { s with peers := s.peers ++ [d.src] }
        else { s with phase := .overflow s.peers.length, peers := s.peers ++ [d.src] }
      else { s with phase := .failed ErrSys.authTryConfirm.text })
    | _ => none

/-- Every set that `pselect` is given has `sockfd` and no other member, so that
    `Recvfrom` is called where `sockfd` has been reported, and only a datagram
    ends the discovery before its alarm. -/
structure WaitsOnSockfd (sockfd : ℕ) (s : Find) : Prop where
  given : ∀ set ∈ s.given, members (sockfd + 1) set = [sockfd]
  reported : s.phase = .receiving → s.rset sockfd = true
  unfailed : ∀ text, s.phase = .failed text → text = ErrSys.authTryConfirm.text

section Clean

variable {sockfd : ℕ} {s t : Find}

/-- What the loop keeps of a set without strays. -/
structure Clean (sockfd : ℕ) (s : Find) : Prop where
  waits : WaitsOnSockfd sockfd s
  strays : members sockfd s.rset = []

theorem clean_waitOn (hgiven : ∀ set ∈ s.given, members (sockfd + 1) set = [sockfd])
    (hstrays : members sockfd s.rset = []) : Clean sockfd (waitOn sockfd s) := by
  refine ⟨⟨?_, nofun, nofun⟩, ?_⟩
  · intro set hset
    rcases List.mem_append.1 hset with hold | hnew
    · exact hgiven set hold
    · rw [List.mem_singleton.1 hnew, members_succ_fdSet, hstrays, List.nil_append]
  · rw [waitOn, members_fdSet, hstrays]

theorem ready_eq {set rset : FdSet} (hstrays : members sockfd set = [])
    (hready : ∀ fd ∈ members (sockfd + 1) rset, set fd = true)
    (hpos : 0 < (members (sockfd + 1) rset).length) :
    members sockfd rset = [] ∧ rset sockfd = true := by
  have hnone : members sockfd rset = [] := by
    have hsub := members_sublist fun fd hfd => hready fd (members_subset hfd)
    rw [hstrays] at hsub
    exact List.sublist_nil.1 hsub
  refine ⟨hnone, ?_⟩
  by_contra hno
  rw [members_succ, hnone, if_neg hno] at hpos
  exact Nat.lt_irrefl 0 hpos

theorem clean_ready {rset : FdSet} (hs : Clean sockfd s)
    (h : findStep sockfd s (.ready rset) = some t) : Clean sockfd t := by
  simp only [findStep] at h
  split at h
  · split_ifs at h with hready hone
    · obtain ⟨hnone, hsock⟩ := ready_eq hs.strays hready.1 hready.2
      rw [members_succ, hnone, if_pos hsock] at hone
      exact absurd rfl hone
    · obtain ⟨hnone, hsock⟩ := ready_eq hs.strays hready.1 hready.2
      cases h
      exact ⟨⟨hs.waits.given, fun _ => hsock, nofun⟩, hnone⟩
  · cases h

theorem clean_closed {fd : ℕ} (hs : Clean sockfd s) :
    findStep sockfd s (.closed fd) = none := by
  simp only [findStep]
  split
  · rw [if_neg]
    rintro ⟨hmem, hne⟩
    rw [members_succ, hs.strays, List.nil_append] at hmem
    split_ifs at hmem
    · exact hne (List.mem_singleton.1 hmem)
    · cases hmem
  · rfl

theorem clean_recv {d : Datagram} {mem : Residue} (hs : Clean sockfd s)
    (h : findStep sockfd s (.recv d mem) = some t) : Clean sockfd t := by
  simp only [findStep] at h
  split at h
  · cases h
    split_ifs
    · exact clean_waitOn hs.waits.given hs.strays
    · exact ⟨⟨hs.waits.given, nofun, nofun⟩, hs.strays⟩
    · refine ⟨⟨hs.waits.given, nofun, ?_⟩, hs.strays⟩
      intro text htext
      cases htext
      rfl
  · cases h

theorem clean_step {e : FindEvent} (hs : Clean sockfd s) (h : findStep sockfd s e = some t) :
    Clean sockfd t := by
  cases e with
  | ready rset => exact clean_ready hs h
  | closed fd =>
    rw [clean_closed hs] at h
    cases h
  | alarm =>
    simp only [findStep] at h
    split at h
    · cases h
      exact ⟨⟨hs.waits.given, nofun, nofun⟩, hs.strays⟩
    · cases h
  | recv d mem => exact clean_recv hs h

end Clean

/-- `find_peer` waits on `sockfd` and nothing else, along every run, exactly if
    its uninitialised set has no member below `sockfd`. -/
theorem discovery_waits_iff (sockfd : ℕ) (rset : FdSet) :
    (∀ events s, run (findStep sockfd) (findPeer sockfd rset) events = some s →
      WaitsOnSockfd sockfd s) ↔ members sockfd rset = [] := by
  constructor
  · intro h
    have hfirst := (h [] _ rfl).given _ List.mem_cons_self
    rw [members_succ_fdSet] at hfirst
    exact List.append_cancel_right (hfirst.trans (List.nil_append _).symm)
  · intro hstrays events s hrun
    have hstart : Clean sockfd (findPeer sockfd rset) := clean_waitOn nofun hstrays
    exact (run_preserves (fun _ _ _ hs h => clean_step hs h) hstart hrun).waits

theorem members_only {nfds fd : ℕ} (h : fd < nfds) : members nfds (fdSet fd fdZero) = [fd] := by
  have hbit : ∀ i, fdSet fd fdZero i = (i == fd) := by
    intro i
    by_cases hi : i = fd
    · rw [hi, fdSet, Function.update_self, beq_self_eq_true]
    · rw [fdSet, Function.update_of_ne hi, beq_eq_false_iff_ne.2 hi]
      rfl
  have hcount : (List.range nfds).count fd = 1 :=
    List.count_eq_one_of_mem List.nodup_range (List.mem_range.2 h)
  rw [members, List.filter_congr fun i _ => hbit i, List.filter_beq, hcount]
  rfl

/-- Any stray can stand for an answer, or end the program. -/
theorem stray_stalls {sockfd fd : ℕ} {rset : FdSet} (h : fd ∈ members sockfd rset) :
    (∃ s, run (findStep sockfd) (findPeer sockfd rset) [.ready (fdSet fd fdZero)] = some s ∧
      s.phase = .receiving ∧ s.rset sockfd = false) ∧
    ∃ s, run (findStep sockfd) (findPeer sockfd rset) [.closed fd] = some s ∧
      s.phase = .failed (ascii "pselect error") := by
  have hlt := (mem_members.1 h).1
  have hgiven : fdSet sockfd rset fd = true := by
    rw [fdSet, Function.update_of_ne (Nat.ne_of_lt hlt)]
    exact (mem_members.1 h).2
  constructor
  · have honly := members_only (Nat.lt_succ_of_lt hlt)
    have hone : (∀ i ∈ [fd], fdSet sockfd rset i = true) ∧ 0 < [fd].length :=
      ⟨fun i hi => List.mem_singleton.1 hi ▸ hgiven, Nat.one_pos⟩
    simp only [run, findStep, findPeer, waitOn, honly]
    rw [if_pos hone]
    refine ⟨_, rfl, rfl, ?_⟩
    exact Function.update_of_ne (Nat.ne_of_gt hlt) true fdZero
  · have hmem : fd ∈ members (sockfd + 1) (fdSet sockfd rset) ∧ fd ≠ sockfd :=
      ⟨mem_members.2 ⟨Nat.lt_succ_of_lt hlt, hgiven⟩, Nat.ne_of_lt hlt⟩
    have hstep : findStep sockfd (findPeer sockfd rset) (.closed fd) =
        some { findPeer sockfd rset with phase := .failed (ascii "pselect error") } := if_pos hmem
    exact ⟨_, run_cons_iff.2 ⟨_, hstep, rfl⟩, rfl⟩

section Simulation

variable {v : Version} {cfg : Config} {sockfd : ℕ} {s t : Find} {p : Proc}

/-- The same in the process that keeps the members below `sockfd` only. -/
structure Follows (sockfd : ℕ) (s : Find) (p : Proc) : Prop where
  phase : match s.phase with
    | .waiting => p.phase = .finding (members sockfd s.rset)
    | .receiving => p.phase = .offered (members sockfd s.rset)
    | .finished => p.phase = .selecting
    | .failed text => ∃ e, p.phase = .failed e ∧ e.text = text
    | .overflow i => p.phase = .undefined (.peersStore i)
  peers : p.peers = s.peers

def isOpen : FindEvent → Prop
  | .closed _ => False
  | _ => True

def eventOf (sockfd : ℕ) : FindEvent → Event
  | .ready rset => .pselect (members sockfd rset) (rset sockfd)
  | .closed _ | .alarm => .alarm
  | .recv d mem => .recv .sockfd d mem

theorem length_members_succ (nfds : ℕ) (set : FdSet) :
    (members (nfds + 1) set).length = (members nfds set).length + (set nfds).toNat := by
  rw [members_succ, List.length_append]
  cases set nfds <;> rfl

theorem follows_ready {rset : FdSet} (hs : Follows sockfd s p)
    (h : findStep sockfd s (.ready rset) = some t) :
    ∃ q, turn v cfg p (eventOf sockfd (.ready rset)) = some q ∧ Follows sockfd t q := by
  obtain ⟨hphase, hpeers⟩ := hs
  simp only [findStep] at h
  split at h
  · rename_i hwaiting
    rw [hwaiting] at hphase
    rw [length_members_succ] at h
    split_ifs at h with hready hone
    all_goals
      cases h
      have hsub := members_sublist fun fd hfd => hready.1 fd (members_subset hfd)
      simp only [turn, eventOf, step, hphase]
      rw [if_pos ⟨hsub, hready.2⟩, onPselect]
    · rw [if_pos hone]
      exact ⟨_, rfl, ⟨_, rfl, rfl⟩, hpeers⟩
    · rw [if_neg hone]
      exact ⟨_, rfl, rfl, hpeers⟩
  · cases h

theorem follows_recv {d : Datagram} {mem : Residue} (hs : Follows sockfd s p)
    (h : findStep sockfd s (.recv d mem) = some t) :
    ∃ q, turn v cfg p (eventOf sockfd (.recv d mem)) = some q ∧ Follows sockfd t q := by
  obtain ⟨hphase, hpeers⟩ := hs
  simp only [findStep] at h
  split at h
  · rename_i hreceiving
    rw [hreceiving] at hphase
    cases h
    simp only [turn, eventOf, step, hphase]
    refine ⟨_, rfl, ?_⟩
    split_ifs with hconfirm hroom
    · refine ⟨?_, congrArg (· ++ [d.src]) hpeers⟩
      change (addPeer p d.src _).phase = .finding (members sockfd (fdSet sockfd s.rset))
      rw [addPeer, hpeers, if_pos hroom, members_fdSet]
    · refine ⟨?_, congrArg (· ++ [d.src]) hpeers⟩
      change (addPeer p d.src _).phase = .undefined (.peersStore s.peers.length)
      rw [addPeer, hpeers, if_neg hroom]
    · exact ⟨⟨_, rfl, rfl⟩, hpeers⟩
  · cases h

theorem follows_step {e : FindEvent} (he : isOpen e) (hs : Follows sockfd s p)
    (h : findStep sockfd s e = some t) :
    ∃ q, turn v cfg p (eventOf sockfd e) = some q ∧ Follows sockfd t q := by
  cases e with
  | ready rset => exact follows_ready hs h
  | closed fd => exact he.elim
  | alarm =>
    obtain ⟨hphase, hpeers⟩ := hs
    simp only [findStep] at h
    split at h
    · rename_i hwaiting
      rw [hwaiting] at hphase
      cases h
      simp only [turn, eventOf, step, hphase]
      exact ⟨_, rfl, rfl, hpeers⟩
    · cases h
  | recv d mem => exact follows_recv hs h

/-- The process that is given the strays of the set goes through the same. -/
theorem discovery_followed (v : Version) (cfg : Config) {sockfd : ℕ} {rset : FdSet} {s : Find}
    {events : List FindEvent} (hrset : cfg.rset = members sockfd rset)
    (hopen : ∀ e ∈ events, isOpen e)
    (h : run (findStep sockfd) (findPeer sockfd rset) events = some s) :
    ∃ p, run (turn v cfg) Proc.init (.start :: events.map (eventOf sockfd)) = some p ∧
      Follows sockfd s p := by
  have hstart : Follows sockfd (findPeer sockfd rset)
      { Proc.init with phase := .finding cfg.rset } := by
    refine ⟨?_, rfl⟩
    change Phase.finding cfg.rset = .finding (members sockfd (fdSet sockfd rset))
    rw [members_fdSet, hrset]
  obtain ⟨p, hp, hfollows⟩ := run_simulated_of (f := eventOf sockfd)
    (fun _ _ _ _ he hs h => follows_step he hs h) hstart hopen h
  exact ⟨p, run_cons_iff.2 ⟨_, rfl, hp⟩, hfollows⟩

end Simulation

/-- Standard input, if the memory of the set says so, stands for the answer of a
    peer. -/
theorem stdin_stalls :
    (findPeer 4 (fdSet 0 fdZero)).given.map (members 5) = [[0, 4]] ∧
    (∃ s, run (findStep 4) (findPeer 4 (fdSet 0 fdZero)) [.ready (fdSet 0 fdZero)] = some s ∧
      s.phase = .receiving ∧ s.rset 4 = false) ∧
    ¬ ∀ events s, run (findStep 4) (findPeer 4 (fdSet 0 fdZero)) events = some s →
      WaitsOnSockfd 4 s := by
  refine ⟨by decide, ⟨_, rfl, by decide, by decide⟩, fun h => ?_⟩
  exact absurd ((h [] _ rfl).given _ List.mem_cons_self) (by decide)

end LanChat.DiscoverySet

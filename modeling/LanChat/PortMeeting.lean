import LanChat.TcpMeeting

set_option autoImplicit false

/-!
# How long a process of v1 searches

The processes are on one host, and nothing else listens on the ports that they
try. How they come and go is open, and how their calls interleave.
-/
namespace LanChat.PortMeeting
open CStrings SocketAddresses TransitionRuns PortScan WriteLoops TcpChat TcpMeeting

variable {ι : Type*} [DecidableEq ι]

/-- `PORT_MIN` and `PORT_MAX` are the same for all, and a port is bound by one. -/
structure OneHost (P : Programs ι Search) (ports : ι → PortRange) : Prop where
  finder : ∀ i, P.finder i = portFinder (ports i)
  range : ∀ i, (ports i).portMin = 11000 ∧ (ports i).portMax = 11010
  owner : ∀ a j, P.owner a = some j ↔ a = ⟨⟨127, 0, 0, 1⟩, htons (ports j).listenPort⟩

/-- What comes to be tried: the other ports, and the one behind the range where
    the own port is the last in it. -/
structure Tryable (r : PortRange) (port : ℤ) : Prop where
  low : r.portMin ≤ port
  other : port ≠ r.listenPort
  high : port ≤ r.portMax ∨ port = r.portMax + 1 ∧ r.listenPort = r.portMax

/-- How many attempts make a round. -/
def round (r : PortRange) : ℤ :=
  r.portMax - r.portMin + if r.listenPort = r.portMax then 1 else 0

/-- The place of a port in its round, which leaves out the own one. -/
def rank (r : PortRange) (port : ℤ) : ℤ :=
  port - r.portMin - if r.listenPort < port then 1 else 0

/-- How many attempts there are before the port `p`, where `q` is the next. -/
def due (r : PortRange) (p q : ℤ) : ℤ :=
  if rank r q ≤ rank r p then rank r p - rank r q else rank r p - rank r q + round r

section Rounds

variable {r : PortRange} {p q currentPort : ℤ}

theorem tryable_portToTry (h : r.portMin ≤ currentPort) : Tryable r (portToTry r currentPort) := by
  have hlow := r.min_le_listen
  have hlt := r.min_lt_max
  constructor
  · exact (portToTry_le h).1
  · unfold portToTry
    dsimp only
    split_ifs <;> omega
  · unfold portToTry
    dsimp only
    split_ifs <;> omega

theorem rank_bounds (h : Tryable r q) : 0 ≤ rank r q ∧ rank r q < round r := by
  obtain ⟨hlow, hother, hhigh⟩ := h
  have hlisten := r.min_le_listen
  have hle := r.listen_le_max
  unfold rank round
  split_ifs <;> omega

theorem rank_injective (hp : Tryable r p) (hq : Tryable r q) (h : rank r q = rank r p) : q = p := by
  have hp := hp.other
  have hq := hq.other
  unfold rank at h
  split_ifs at h <;> omega

theorem rank_next (h : Tryable r q) :
    rank r (portToTry r (q + 1)) = if rank r q + 1 = round r then 0 else rank r q + 1 := by
  obtain ⟨hlow, hother, hhigh⟩ := h
  have hlisten := r.min_le_listen
  have hle := r.listen_le_max
  have hlt := r.min_lt_max
  by_cases hpast : q + 1 > r.portMax
  · have hnext : portToTry r (q + 1) = if r.portMin = r.listenPort then r.portMin + 1
        else r.portMin := by
      rw [portToTry, if_pos hpast]
    rw [hnext]
    unfold rank round
    split_ifs <;> omega
  · have hnext : portToTry r (q + 1) = if q + 1 = r.listenPort then q + 1 + 1 else q + 1 := by
      rw [portToTry, if_neg hpast]
    rw [hnext]
    unfold rank round
    split_ifs <;> omega

theorem due_bounds (hp : Tryable r p) (hq : Tryable r q) : 0 ≤ due r p q ∧ due r p q < round r := by
  have hrank := rank_bounds hp
  have hrank' := rank_bounds hq
  unfold due
  split_ifs <;> omega

/-- An attempt elsewhere brings the port nearer by one. -/
theorem due_next (hp : Tryable r p) (hq : Tryable r q) (hne : q ≠ p) :
    due r p q = due r p (portToTry r (q + 1)) + 1 := by
  have hrank := rank_bounds hp
  have hrank' := rank_bounds hq
  have hother : rank r q ≠ rank r p := fun h => hne (rank_injective hp hq h)
  unfold due
  rw [rank_next hq]
  split_ifs <;> omega

end Rounds

variable {P : Programs ι Search} {ports : ι → PortRange} {labels : List (MeetingLabel ι)}
  {s t : Meeting ι Search}

theorem portSearch_run (hP : OneHost P ports) (hrun : run P.step P.init labels = some s) (i : ι) :
    run (tryPort (ports i)) (findPeer (ports i)) (labels.filterMap (outcomeOf i)) =
      some (s.search i) := by
  have hsearch := search_run hrun i
  rw [hP.finder] at hsearch
  exact hsearch

omit [DecidableEq ι] in
theorem sinAddr_run {r : PortRange} {outcomes : List Bool} {u : Search}
    (h : run (tryPort r) (findPeer r) outcomes = some u) :
    u.servaddr.sinAddr = ⟨127, 0, 0, 1⟩ :=
  run_preserves (I := fun u : Search => u.servaddr.sinAddr = ⟨127, 0, 0, 1⟩)
    (fun _ _ _ hu hstep => (tryPort_some hstep).2.2.2.1.trans hu) rfl h

/-- The port that is tried next. -/
def nextTry (ports : ι → PortRange) (s : Meeting ι Search) (i : ι) : ℤ :=
  portToTry (ports i) (s.search i).currentPort

theorem next_search (hP : OneHost P ports) (hrun : run P.step P.init labels = some s) {i : ι}
    {a : SockAddr} (hnext : (P.finder i).next (s.search i) = some a) :
    a = ⟨⟨127, 0, 0, 1⟩, htons (nextTry ports s i)⟩ ∧ Tryable (ports i) (nextTry ports s i) := by
  have hout := portSearch_run hP hrun i
  rw [hP.finder, portFinder] at hnext
  dsimp only at hnext
  split_ifs at hnext with hreturned
  rw [sinAddr_run hout] at hnext
  exact ⟨(Option.some.inj hnext).symm, tryable_portToTry (run_currentPort hout hreturned).1⟩

omit [DecidableEq ι] in
theorem owner_iff (hP : OneHost P ports) {i j : ι} {port : ℤ} (h : Tryable (ports i) port) :
    P.owner ⟨⟨127, 0, 0, 1⟩, htons port⟩ = some j ↔ port = (ports j).listenPort := by
  obtain ⟨hlow, _, hhigh⟩ := h
  obtain ⟨hmin, hmax⟩ := hP.range i
  obtain ⟨hmin', hmax'⟩ := hP.range j
  have hlisten := (ports j).min_le_listen
  have hlisten' := (ports j).listen_le_max
  rw [hP.owner, SockAddr.mk.injEq, and_iff_right rfl]
  constructor
  · intro heq
    have hport : ((htons port).toNat : ℤ) = port := htons_toNat (by omega) (by omega)
    rw [← hport, heq]
    exact htons_toNat (by omega) (by omega)
  · rintro rfl
    rfl

omit [DecidableEq ι] in
theorem tryable_listenPort (hP : OneHost P ports) {i j : ι} (hij : j ≠ i) :
    Tryable (ports i) (ports j).listenPort := by
  obtain ⟨hmin, hmax⟩ := hP.range i
  obtain ⟨hmin', hmax'⟩ := hP.range j
  have hlisten := (ports j).min_le_listen
  have hlisten' := (ports j).listen_le_max
  refine ⟨by omega, fun heq => hij ?_, .inl (by omega)⟩
  have hown := (hP.owner ⟨⟨127, 0, 0, 1⟩, htons (ports j).listenPort⟩ j).2 rfl
  rw [heq, (hP.owner _ i).2 rfl] at hown
  exact (Option.some.inj hown).symm

/-- Nobody of v1 chats with itself. -/
theorem met_other (hP : OneHost P ports) (hrun : run P.step P.init labels = some s) {i j : ι}
    (hmet : s.met i = some j) : j ≠ i ∧ s.up j = true := by
  induction labels using List.reverseRecOn generalizing s with
  | nil =>
    cases hrun
    cases hmet
  | append_singleton labels l ih =>
    obtain ⟨t, ht, hstep⟩ := run_concat_iff.1 hrun
    cases meets_of_step hstep with
    | @listen k =>
      obtain ⟨hne, hup⟩ := ih ht hmet
      refine ⟨hne, ?_⟩
      by_cases hj : j = k
      · simp [hj]
      · simpa [hj] using hup
    | missed | chat =>
      have hbefore := ih ht hmet
      exact hbefore
    | @found k j' a next q hnext hout howner hup hlistens hsend =>
      by_cases hi : i = k
      · subst k
        simp only [Meeting.found, Function.update_self, Option.some.injEq] at hmet
        subst j'
        obtain ⟨ha, htry⟩ := next_search hP ht hnext
        rw [ha, owner_iff hP htry] at howner
        refine ⟨?_, hup⟩
        rintro rfl
        exact htry.other howner
      · simp only [Meeting.found, Function.update_of_ne hi] at hmet
        have hbefore := ih ht hmet
        exact hbefore

omit [DecidableEq ι] in
theorem tryPort_failed {r : PortRange} {u v : Search} (h : tryPort r u false = some v) :
    v.returned = none ∧ v.currentPort = portToTry r u.currentPort + 1 := by
  obtain ⟨hnone, _, _, _, hcurrent, _⟩ := tryPort_some h
  have hreturned : v.returned = none := by
    rw [tryPort, hnone] at h
    simp only [Bool.false_eq_true, ↓reduceIte, Option.some.injEq] at h
    rw [← h]
  exact ⟨hreturned, hcurrent hreturned⟩

/-- Who has met nobody is still searching. -/
theorem returned_of_met (hP : OneHost P ports) (hrun : run P.step P.init labels = some s) {i : ι}
    (hmet : s.met i = none) : (s.search i).returned = none := by
  induction labels using List.reverseRecOn generalizing s with
  | nil =>
    cases hrun
    change ((P.finder i).start).returned = none
    rw [hP.finder, portFinder]
    rfl
  | append_singleton labels l ih =>
    obtain ⟨t, ht, hstep⟩ := run_concat_iff.1 hrun
    cases meets_of_step hstep with
    | listen | chat =>
      have hbefore := ih ht hmet
      exact hbefore
    | @missed k a next hnext hout hnone =>
      have hbefore := ih ht hmet
      by_cases hi : i = k
      · subst k
        rw [hP.finder] at hout
        simp [Meeting.missed, (tryPort_failed hout).1]
      · simpa [Meeting.missed, hi] using hbefore
    | @found k j a next q hnext hout howner hup hlistens hsend =>
      by_cases hi : i = k
      · subst k
        simp [Meeting.found] at hmet
      · simp only [Meeting.found, Function.update_of_ne hi] at hmet
        simpa [Meeting.found, hi] using ih ht hmet

/-- An attempt that is not answered, while a listener is there, was made at
    another port and brings that of the listener nearer. -/
theorem due_missed (hP : OneHost P ports) (hrun : run P.step P.init labels = some s) {i j : ι}
    (hij : j ≠ i) (hup : s.up j = true) (hlistens : s.tcp.listens j = true) {a : SockAddr}
    {next : Search} (hnext : (P.finder i).next (s.search i) = some a)
    (hout : (P.finder i).outcome (s.search i) false = some next)
    (hnone : ∀ j, P.owner a = some j → s.up j = true → s.tcp.listens j = false) :
    due (ports i) (ports j).listenPort (nextTry ports s i) =
      due (ports i) (ports j).listenPort (nextTry ports (s.missed i next) i) + 1 := by
  obtain ⟨ha, htry⟩ := next_search hP hrun hnext
  have hport := tryable_listenPort hP hij
  have hne : nextTry ports s i ≠ (ports j).listenPort := by
    intro heq
    rw [ha] at hnone
    have hno := hnone j ((owner_iff hP htry).2 heq) hup
    rw [hlistens] at hno
    cases hno
  rw [hP.finder] at hout
  have hcurrent := (tryPort_failed hout).2
  rw [due_next hport htry hne]
  simp [nextTry, Meeting.missed, hcurrent]

theorem searches_lt (hP : OneHost P ports) {before during : List (MeetingLabel ι)}
    (hbefore : run P.step P.init before = some s) (hduring : run P.step s during = some t) {i j : ι}
    (hij : j ≠ i) (hup : s.up j = true) (hlistens : t.tcp.listens j = true)
    (hmet : t.met i = none) : (during.countP (isSearch i) : ℤ) < round (ports i) := by
  have hport := tryable_listenPort hP hij
  have hbound {s : Meeting ι Search} {labels : List (MeetingLabel ι)}
      (hrun : run P.step P.init labels = some s) (hmet : s.met i = none) :
      0 ≤ due (ports i) (ports j).listenPort (nextTry ports s i) ∧
        due (ports i) (ports j).listenPort (nextTry ports s i) < round (ports i) := by
    have hout := portSearch_run hP hrun i
    exact due_bounds hport
      (tryable_portToTry (run_currentPort hout (returned_of_met hP hrun hmet)).1)
  suffices hcount : s.met i = none ∧ s.tcp.listens j = true ∧ (during.countP (isSearch i) : ℤ) ≤
      due (ports i) (ports j).listenPort (nextTry ports s i) by
    have hlt := (hbound hbefore hcount.1).2
    omega
  induction during generalizing before s with
  | nil =>
    cases hduring
    exact ⟨hmet, hlistens, by simpa using (hbound hbefore hmet).1⟩
  | cons l during ih =>
    obtain ⟨u, hstep, hrest⟩ := run_cons_iff.1 hduring
    have hmeets := meets_of_step hstep
    obtain ⟨hmet', hlistens', hcount⟩ :=
      ih (run_concat_iff.2 ⟨_, hbefore, hstep⟩) hrest (hmeets.up_mono hup)
    have hmets : s.met i = none := by
      by_contra hsome
      obtain ⟨k, hk⟩ := Option.ne_none_iff_exists'.1 hsome
      rw [(linked_run hbefore).met_mono hmeets hk] at hmet'
      cases hmet'
    refine ⟨hmets, hmeets.listens_before hlistens', ?_⟩
    cases hmeets with
    | listen | chat =>
      rw [List.countP_cons_of_neg (by simp [isSearch])]
      exact hcount
    | @found k j' a next q hnext hout howner hup hlistens hsend =>
      have hk : k ≠ i := by
        rintro rfl
        simp [Meeting.found] at hmet'
      have hsame : nextTry ports (s.found k j' next q) i = nextTry ports s i := by
        simp [nextTry, Meeting.found, Ne.symm hk]
      rw [hsame] at hcount
      simpa [List.countP_cons, isSearch, hk] using hcount
    | @missed k a next hnext hout hnone =>
      by_cases hk : k = i
      · subst k
        have hdue := due_missed hP hbefore hij hup hlistens' hnext hout hnone
        rw [List.countP_cons, isSearch, decide_eq_true rfl, if_pos rfl]
        push_cast
        omega
      · have hsame : nextTry ports (s.missed k next) i = nextTry ports s i := by
          simp [nextTry, Meeting.missed, Ne.symm hk]
        rw [hsame] at hcount
        simpa [List.countP_cons, isSearch, hk] using hcount

theorem search_goesOn (hP : OneHost P ports) (hrun : run P.step P.init labels = some s) {i : ι}
    (hmet : s.met i = none) : ∃ connected t, P.step s (.connect i connected) = some t := by
  have hreturned := returned_of_met hP hrun hmet
  obtain ⟨a, hnext⟩ : ∃ a, (P.finder i).next (s.search i) = some a := by
    rw [hP.finder, portFinder]
    simp [hreturned]
  refine (linked_run hrun).connects hmet hnext fun connected => ?_
  rw [hP.finder, portFinder]
  cases connected <;> simp [tryPort, hreturned]

/-- A process of v1 meets nobody but another one that listens. As long as it has
    met nobody it goes on, and while the listener of another is there, it makes
    less than one round of attempts, whatever else happens in between. -/
theorem search_ends (hP : OneHost P ports) {before during : List (MeetingLabel ι)}
    (hbefore : run P.step P.init before = some s) (hduring : run P.step s during = some t)
    (i : ι) : (∀ k, t.met i = some k → k ≠ i ∧ t.up k = true) ∧
      (t.met i = none → (∃ connected u, P.step t (.connect i connected) = some u) ∧
        ∀ j, j ≠ i → s.up j = true → t.tcp.listens j = true →
          (during.countP (isSearch i) : ℤ) < round (ports i)) := by
  have hrun := run_trans hbefore hduring
  refine ⟨fun k hmet => met_other hP hrun hmet, fun hmet => ⟨search_goesOn hP hrun hmet, ?_⟩⟩
  exact fun j hij hup hlistens => searches_lt hP hbefore hduring hij hup hlistens hmet

theorem oneHost_twoPorts : OneHost twoPorts ownPorts where
  finder i := rfl
  range i := by cases i <;> exact ⟨rfl, rfl⟩
  owner := twoOwners_eq_some (fun i => ⟨⟨127, 0, 0, 1⟩, htons (ownPorts i).listenPort⟩) (by decide)

/-- Nine attempts have failed, as the port had been tried before. -/
theorem search_ends_twoPorts : ∃ t, run twoPorts.step twoPorts.init
    ([.connect true false, .connect true false, .listen false] ++
      List.replicate 9 (.connect true false)) = some t ∧
      ((List.replicate 9 (MeetingLabel.connect true false)).countP (isSearch true) : ℤ) <
        round (ownPorts true) := by
  have hview : (run twoPorts.step twoPorts.init
      [.connect true false, .connect true false, .listen false]).any
      (fun s => s.up false = true ∧ (run twoPorts.step s
        (List.replicate 9 (.connect true false))).any
          (fun t => t.tcp.listens false = true ∧ t.met true = none) = true) = true := by
    decide +kernel
  obtain ⟨s, hs, hmore⟩ := (Option.any_eq_true _ _).1 hview
  obtain ⟨hup, hmore⟩ := of_decide_eq_true hmore
  obtain ⟨t, ht, hlast⟩ := (Option.any_eq_true _ _).1 hmore
  obtain ⟨hlistens, hmet⟩ := of_decide_eq_true hlast
  exact ⟨t, run_trans hs ht,
    ((search_ends oneHost_twoPorts hs ht true).2 hmet).2 false (by decide) hup hlistens⟩

end LanChat.PortMeeting

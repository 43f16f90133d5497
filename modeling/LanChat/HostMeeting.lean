import LanChat.TcpMeeting

set_option autoImplicit false

/-!
# Whom a process of v2 meets

All listen on `CHAT_PORT` of their hosts. A scan leaves no host out, not even
the own one, and it ends with the first that answers.
-/
namespace LanChat.HostMeeting
open CStrings SocketAddresses TransitionRuns DottedQuads HostScan SubnetScan WriteLoops TcpChat
  TcpMeeting

variable {ι : Type*} [DecidableEq ι]

/-- Where a process runs, its arguments, and the address that `main` has read. -/
structure Host where
  addr : InAddr
  subnetAddress : Bytes
  startIdx : ℤ
  subnet : InAddr

/-- Each runs v2 on its own host and has been given a subnet that its scan completes
    to the address that `main` has read. -/
structure OnHosts (pton : Bytes → Option InAddr) (P : Programs ι ConnectScan)
    (hosts : ι → Host) : Prop where
  reads : ReadsParts pton
  finder : ∀ i, P.finder i = hostFinder pton (hosts i).subnetAddress (hosts i).startIdx
  completes : ∀ i, Completes pton (hosts i).subnetAddress (hosts i).subnet (hosts i).startIdx
  startIdx_ne : ∀ i, (hosts i).startIdx ≠ 2 ^ 31 - 1
  owner : ∀ a j, P.owner a = some j ↔ a = ⟨(hosts j).addr, connectPort⟩

/-- A host of the subnet that is not before the start. -/
structure Ahead (h : Host) (n : ℕ) (addr : InAddr) : Prop where
  low : 0 ≤ h.startIdx ∧ h.startIdx ≤ n
  high : n ≤ 255
  host : addr = hostOf h.subnet n

/-- The host that `i` has come to after these labels. -/
def current (hosts : ι → Host) (labels : List (MeetingLabel ι)) (i : ι) : ℤ :=
  (hosts i).startIdx + labels.countP (isSearch i)

theorem current_append (hosts : ι → Host) (before after : List (MeetingLabel ι)) (i : ι) :
    current hosts (before ++ after) i =
      current hosts before i + after.countP (isSearch i) := by
  rw [current, current, List.countP_append]
  push_cast
  omega

variable {pton : Bytes → Option InAddr}

/-- While a scan waits for a `connect`, `servaddr` is what it was given. -/
def Waiting (s : ConnectScan) : Prop :=
  s.servaddr.sinPort = connectPort ∧
    (s.phase = .probing → s.connects.getLast? = some s.servaddr)

theorem waiting_tryConnect {s : ConnectScan} (hport : s.servaddr.sinPort = connectPort) :
    Waiting (tryConnect pton s) ∨ (tryConnect pton s).phase = .overflow := by
  unfold tryConnect
  dsimp only
  split_ifs
  · exact .inr rfl
  · left
    split
    · exact ⟨hport, nofun⟩
    · exact ⟨hport, fun _ => by simp⟩

theorem waiting_run {text : Bytes} {start : ℤ} {outcomes : List Bool} {u : ConnectScan}
    (hrun : run (afterConnect pton) (findPeerConnect pton text start) outcomes = some u) :
    Waiting u ∨ u.phase = .overflow := by
  refine run_preserves (I := fun u : ConnectScan => Waiting u ∨ u.phase = .overflow) ?_ ?_ hrun
  · intro s connected t hs hstep
    have hphase := afterConnect_stops hstep
    have hport := (hs.resolve_right (by rw [hphase]; decide)).1
    rw [afterConnect, hphase] at hstep
    dsimp only at hstep
    split_ifs at hstep
    · cases hstep
      exact .inl ⟨hport, fun h => by cases h⟩
    · cases hstep
      exact waiting_tryConnect hport
  · unfold findPeerConnect
    split
    · exact .inl ⟨rfl, fun h => by cases h⟩
    · exact waiting_tryConnect rfl

theorem findPeerConnect_ne_bound (text : Bytes) (start : ℤ) :
    (findPeerConnect pton text start).phase ≠ .bound := by
  unfold findPeerConnect
  split
  · nofun
  · exact tryConnect_ne_bound rfl

theorem phase_bound {s t : ConnectScan} {connected : Bool}
    (h : afterConnect pton s connected = some t) : t.phase = .bound ↔ connected = true := by
  have hphase := afterConnect_stops h
  rw [afterConnect, hphase] at h
  dsimp only at h
  split_ifs at h with hconnected
  · cases h
    exact iff_of_true rfl hconnected
  · cases h
    exact iff_of_false (tryConnect_ne_bound hphase) hconnected

variable {P : Programs ι ConnectScan} {hosts : ι → Host} {labels : List (MeetingLabel ι)}
  {s t : Meeting ι ConnectScan}

theorem hostSearch_run (hP : OnHosts pton P hosts) (hrun : run P.step P.init labels = some s) (i : ι) :
    run (afterConnect pton) (findPeerConnect pton (hosts i).subnetAddress (hosts i).startIdx)
      (labels.filterMap (outcomeOf i)) = some (s.search i) := by
  have hsearch := search_run hrun i
  rw [hP.finder] at hsearch
  exact hsearch

/-- The attempts of `i` have been at the hosts from its start on. -/
theorem probes_run (hP : OnHosts pton P hosts) (hrun : run P.step P.init labels = some s) (i : ι) :
    ProbesSubnet (hosts i).subnet (hosts i).startIdx (labels.countP (isSearch i))
      (s.search i).phase (s.search i).hosts := by
  have hscan := (connectScan_iff _ _ _ hP.reads).2 ⟨hP.completes i, hP.startIdx_ne i⟩ _ _
    (hostSearch_run hP hrun i)
  rw [outcomes_length] at hscan
  exact hscan

omit [DecidableEq ι] in
theorem next_probing (hP : OnHosts pton P hosts) {i : ι} {a : SockAddr}
    (hnext : (P.finder i).next (s.search i) = some a) :
    (s.search i).phase = .probing ∧ a = (s.search i).servaddr := by
  rw [hP.finder, hostFinder] at hnext
  dsimp only at hnext
  split_ifs at hnext with hphase
  exact ⟨hphase, (Option.some.inj hnext).symm⟩

/-- The next attempt is at the host that has been come to. -/
theorem next_host (hP : OnHosts pton P hosts) (hrun : run P.step P.init labels = some s) {i : ι}
    {a : SockAddr} (hnext : (P.finder i).next (s.search i) = some a) :
    ∃ n : ℕ, current hosts labels i = n ∧ Ahead (hosts i) n a.sinAddr ∧ a.sinPort = connectPort := by
  obtain ⟨hphase, rfl⟩ := next_probing hP hnext
  have hprobes := probes_run hP hrun i
  have hcount := hprobes.count
  rw [if_pos hphase] at hcount
  obtain ⟨hport, hconnects⟩ := (waiting_run (hostSearch_run hP hrun i)).resolve_right
    (by rw [hphase]; nofun)
  have hlast : (s.search i).hosts[labels.countP (isSearch i)]? =
      some (s.search i).servaddr.sinAddr := by
    have hlast := hconnects hphase
    rw [ConnectScan.hosts, List.length_map] at hcount
    rw [List.getLast?_eq_getElem?, hcount, Nat.add_sub_cancel] at hlast
    rw [ConnectScan.hosts, List.getElem?_map, hlast]
    rfl
  obtain ⟨hlow, hhigh, hhost⟩ := hprobes.inSubnet _ _ hlast
  obtain ⟨first, hfirst⟩ : ∃ first, (s.search i).hosts[0]? = some first :=
    ⟨_, List.getElem?_eq_getElem (by omega)⟩
  have hstart := (hprobes.inSubnet _ _ hfirst).1
  refine ⟨(current hosts labels i).toNat, ?_, ⟨⟨?_, ?_⟩, ?_, hhost⟩, hport⟩
  · rw [current]
    omega
  · simpa using hstart
  · rw [current]
    omega
  · rw [current]
    omega

omit [DecidableEq ι] in
theorem owner_iff (hP : OnHosts pton P hosts) {a : SockAddr} {j : ι} :
    P.owner a = some j ↔ (hosts j).addr = a.sinAddr ∧ a.sinPort = connectPort := by
  rw [hP.owner]
  cases a
  rw [SockAddr.mk.injEq, eq_comm (a := (hosts j).addr)]

/-- A scan has ended by an answer if a peer has been met. -/
theorem bound_iff (hP : OnHosts pton P hosts) (hrun : run P.step P.init labels = some s) (i : ι) :
    (s.search i).phase = .bound ↔ s.met i ≠ none := by
  refine run_preserves (I := fun s : Meeting ι ConnectScan =>
    ∀ i, (s.search i).phase = .bound ↔ s.met i ≠ none) ?_ ?_ hrun i
  · intro s l t h hstep i
    cases meets_of_step hstep with
    | listen | chat => exact h i
    | @found k j a next q hnext hout howner hup hlistens hsend =>
      by_cases hi : i = k
      · subst k
        rw [hP.finder] at hout
        simp [Meeting.found, (phase_bound hout).2 rfl]
      · simpa [Meeting.found, hi] using h i
    | @missed k a next hnext hout hnone =>
      by_cases hi : i = k
      · subst k
        have hphase := (next_probing hP hnext).1
        have hmet : s.met i = none := by
          by_contra hsome
          rw [(h i).2 hsome] at hphase
          cases hphase
        rw [hP.finder] at hout
        have hnot : next.phase ≠ .bound := by
          intro hbound
          have htrue := (phase_bound hout).1 hbound
          cases htrue
        simp [Meeting.missed, hnot, hmet]
      · simpa [Meeting.missed, hi] using h i
  · intro i
    have hstart : (P.init.search i).phase ≠ .bound := by
      change (P.finder i).start.phase ≠ .bound
      rw [hP.finder]
      exact findPeerConnect_ne_bound _ _
    exact iff_of_false hstart fun hmet => hmet rfl

theorem met_none (hP : OnHosts pton P hosts) (hrun : run P.step P.init labels = some s) {i : ι}
    (hphase : (s.search i).phase = .probing) : s.met i = none := by
  by_contra hsome
  rw [(bound_iff hP hrun i).2 hsome] at hphase
  cases hphase

/-- Whom a process has met is at the host of its last attempt. -/
theorem met_host (hP : OnHosts pton P hosts) (hrun : run P.step P.init labels = some s) {i j : ι}
    (hmet : s.met i = some j) : s.up j = true ∧
      ∃ n : ℕ, current hosts labels i = n + 1 ∧ Ahead (hosts i) n (hosts j).addr := by
  induction labels using List.reverseRecOn generalizing s with
  | nil =>
    cases hrun
    cases hmet
  | append_singleton labels l ih =>
    obtain ⟨t, ht, hstep⟩ := run_concat_iff.1 hrun
    have hmeets := meets_of_step hstep
    have hbefore (hmet : t.met i = some j) (hother : isSearch i l = false) : s.up j = true ∧
        ∃ n : ℕ, current hosts (labels ++ [l]) i = n + 1 ∧ Ahead (hosts i) n (hosts j).addr := by
      obtain ⟨hup, n, hcurrent, hahead⟩ := ih ht hmet
      refine ⟨hmeets.up_mono hup, n, ?_, hahead⟩
      rw [current_append, List.countP_singleton, hother, hcurrent]
      rfl
    cases hmeets with
    | listen | chat => exact hbefore hmet rfl
    | @missed k a next hnext hout hnone =>
      refine hbefore hmet (decide_eq_false ?_)
      rintro rfl
      have hsearching := met_none hP ht (next_probing hP hnext).1
      have hsome := hsearching.symm.trans hmet
      cases hsome
    | @found k j' a next q hnext hout howner hup hlistens hsend =>
      by_cases hi : i = k
      · subst k
        simp only [Meeting.found, Function.update_self, Option.some.injEq] at hmet
        subst j'
        obtain ⟨n, hcurrent, hahead, _⟩ := next_host hP ht hnext
        refine ⟨hup, n, ?_, ((owner_iff hP).1 howner).1 ▸ hahead⟩
        rw [current_append, hcurrent]
        simp [isSearch]
      · simp only [Meeting.found, Function.update_of_ne hi] at hmet
        exact hbefore hmet (decide_eq_false (Ne.symm hi))

/-- An attempt at a host fails if nobody listens there. -/
theorem missed_ne (hP : OnHosts pton P hosts) (hrun : run P.step P.init labels = some s) {i j : ι}
    {n : ℕ} (hahead : Ahead (hosts i) n (hosts j).addr) (hup : s.up j = true)
    (hlistens : s.tcp.listens j = true) {a : SockAddr}
    (hnext : (P.finder i).next (s.search i) = some a)
    (hnone : ∀ j, P.owner a = some j → s.up j = true → s.tcp.listens j = false) :
    current hosts labels i ≠ n := by
  intro heq
  obtain ⟨m, hcurrent, hhost, hport⟩ := next_host hP hrun hnext
  obtain rfl : m = n := by omega
  have haddr : (hosts j).addr = a.sinAddr := hahead.host.trans hhost.host.symm
  have hno := hnone j ((owner_iff hP).2 ⟨haddr, hport⟩) hup
  rw [hlistens] at hno
  cases hno

/-- A listener that is there is not passed. -/
theorem current_le (hP : OnHosts pton P hosts) {before during : List (MeetingLabel ι)}
    (hbefore : run P.step P.init before = some s) (hduring : run P.step s during = some t) {i j : ι}
    {n : ℕ} (hahead : Ahead (hosts i) n (hosts j).addr) (hup : s.up j = true)
    (hlistens : t.tcp.listens j = true) (hnot : current hosts before i ≤ n) :
    current hosts (before ++ during) i ≤ n + 1 ∧
      (t.met i = none → current hosts (before ++ during) i ≤ n) := by
  induction during using List.reverseRecOn generalizing t with
  | nil =>
    rw [List.append_nil]
    exact ⟨by omega, fun _ => hnot⟩
  | append_singleton during l ih =>
    obtain ⟨u, hu, hstep⟩ := run_concat_iff.1 hduring
    have hmeets := meets_of_step hstep
    have hlistens' := hmeets.listens_before hlistens
    have hle := ih hu hlistens'
    have hrun := run_trans hbefore hu
    have hup' : u.up j = true :=
      run_preserves (I := fun s : Meeting ι ConnectScan => s.up j = true)
        (fun _ _ _ h hstep => (meets_of_step hstep).up_mono h) hup hu
    rw [← List.append_assoc, current_append, List.countP_singleton]
    cases hmeets with
    | listen | chat => simpa [isSearch] using hle
    | @missed k a next hnext hout hnone =>
      by_cases hk : k = i
      · subst k
        have hlast := hle.2 (met_none hP hrun (next_probing hP hnext).1)
        have hne := missed_ne hP hrun hahead hup' hlistens' hnext hnone
        rw [isSearch, decide_eq_true rfl, if_pos rfl]
        push_cast
        omega
      · simpa [isSearch, hk, Meeting.missed] using hle
    | @found k j' a next q hnext hout howner hup hlistens hsend =>
      by_cases hk : k = i
      · subst k
        have hlast := hle.2 (met_none hP hrun (next_probing hP hnext).1)
        simpa [Meeting.found, isSearch] using hlast
      · simpa [isSearch, hk, Meeting.found, Ne.symm hk] using hle

/-- Who has met nobody, and has not come to the end of the subnet, goes on. -/
theorem scan_goesOn (hP : OnHosts pton P hosts) (hrun : run P.step P.init labels = some s) {i : ι}
    (hmet : s.met i = none) (hlow : 0 ≤ (hosts i).startIdx)
    (hhigh : current hosts labels i ≤ 255) :
    ∃ connected t, P.step s (.connect i connected) = some t := by
  have hprobes := probes_run hP hrun i
  have hphase : (s.search i).phase = .probing := by
    cases hphase : (s.search i).phase with
    | probing => rfl
    | bound => exact absurd hmet ((bound_iff hP hrun i).1 hphase)
    | quit text =>
      have hout := hprobes.rejected text hphase
      rw [current] at hhigh
      omega
    | sendError => exact absurd hphase hprobes.sent
    | noDot => exact absurd hphase hprobes.defined.1
    | overflow => exact absurd hphase hprobes.defined.2
  obtain ⟨a, hnext⟩ : ∃ a, (P.finder i).next (s.search i) = some a := by
    rw [hP.finder, hostFinder]
    simp [hphase]
  refine (linked_run hrun).connects hmet hnext fun connected => ?_
  rw [hP.finder, hostFinder]
  cases connected <;> simp [afterConnect, hphase]

/-- While a listener is there whose host a scan of v2 has not passed, the scan
    goes on until it meets somebody, on this host or on one before it. So who
    listens on a host that it is still to try meets nobody behind itself. -/
theorem scan_stops (hP : OnHosts pton P hosts) {before during : List (MeetingLabel ι)}
    (hbefore : run P.step P.init before = some s) (hduring : run P.step s during = some t) {i j : ι}
    {n : ℕ} (hahead : Ahead (hosts i) n (hosts j).addr) (hup : s.up j = true)
    (hlistens : t.tcp.listens j = true) (hnot : current hosts before i ≤ n) :
    (t.met i = none → current hosts (before ++ during) i ≤ n ∧
      ∃ connected u, P.step t (.connect i connected) = some u) ∧
    ∀ k, t.met i = some k → t.up k = true ∧ ∃ m ≤ n,
      current hosts (before ++ during) i = m + 1 ∧ Ahead (hosts i) m (hosts k).addr := by
  have hrun := run_trans hbefore hduring
  obtain ⟨hle, hnone⟩ := current_le hP hbefore hduring hahead hup hlistens hnot
  constructor
  · intro hmet
    have hcurrent := hnone hmet
    have hhigh := hahead.high
    exact ⟨hcurrent, scan_goesOn hP hrun hmet hahead.low.1 (by omega)⟩
  · intro k hmet
    obtain ⟨hup', m, hcurrent, hhost⟩ := met_host hP hrun hmet
    exact ⟨hup', m, by omega, hcurrent, hhost⟩

/-- Where one listener is there only, an attempt meets it or fails before it. -/
theorem connect_only (hP : OnHosts pton P hosts) (hrun : run P.step P.init labels = some s) {i j : ι}
    {n : ℕ} (hahead : Ahead (hosts i) n (hosts j).addr) (hmet : s.met i = none)
    (hup : ∀ k, s.up k = true ↔ k = j) (hlistens : s.tcp.listens j = true)
    (hle : current hosts labels i ≤ n) :
    (∃ t, P.step s (.connect i true) = some t ∧ t.met i = some j) ∨
      current hosts labels i ≠ n ∧ ∃ next, P.step s (.connect i false) = some (s.missed i next) := by
  have hhigh := hahead.high
  obtain ⟨connected, t, hstep⟩ := scan_goesOn hP hrun hmet hahead.low.1 (by omega)
  cases meets_of_step hstep with
  | @found k j' a next q hnext hout howner hup' hlistens' hsend =>
    obtain rfl := (hup j').1 hup'
    exact .inl ⟨_, hstep, by simp [Meeting.found]⟩
  | @missed k a next hnext hout hnone =>
    exact .inr ⟨missed_ne hP hrun hahead ((hup j).2 rfl) hlistens hnext hnone, next, hstep⟩

theorem meets_only (hP : OnHosts pton P hosts) (hrun : run P.step P.init labels = some s) {i j : ι}
    {n left : ℕ} (hahead : Ahead (hosts i) n (hosts j).addr) (hmet : s.met i = none)
    (hup : ∀ k, s.up k = true ↔ k = j) (hlistens : s.tcp.listens j = true)
    (hleft : current hosts labels i + left = n) :
    ∃ more t, run P.step s more = some t ∧ t.met i = some j := by
  induction left generalizing labels s with
  | zero =>
    rcases connect_only hP hrun hahead hmet hup hlistens (by omega) with
      ⟨t, hstep, hmet'⟩ | ⟨hne, _⟩
    · exact ⟨[.connect i true], t, run_cons_iff.2 ⟨t, hstep, rfl⟩, hmet'⟩
    · exact absurd (by simpa using hleft) hne
  | succ left ih =>
    rcases connect_only hP hrun hahead hmet hup hlistens (by omega) with
      ⟨t, hstep, hmet'⟩ | ⟨_, next, hstep⟩
    · exact ⟨[.connect i true], t, run_cons_iff.2 ⟨t, hstep, rfl⟩, hmet'⟩
    · have hnext := run_concat_iff.2 ⟨s, hrun, hstep⟩
      have hleft' : current hosts (labels ++ [.connect i false]) i + left = n := by
        rw [current_append]
        simp only [List.countP_singleton, isSearch, decide_true, if_true]
        push_cast at hleft ⊢
        omega
      obtain ⟨more, t, hmore, hmet'⟩ := ih hnext hmet hup hlistens hleft'
      exact ⟨_, t, run_cons_iff.2 ⟨_, hstep, hmore⟩, hmet'⟩

/-- The processes that a process of v2 can meet, itself among them, are those on
    the hosts of its subnet from its start on. -/
theorem meets_iff (hP : OnHosts pton P hosts) (i j : ι) :
    (∃ labels t, run P.step P.init labels = some t ∧ t.met i = some j) ↔
      ∃ n : ℕ, Ahead (hosts i) n (hosts j).addr := by
  constructor
  · rintro ⟨labels, t, hrun, hmet⟩
    obtain ⟨_, n, _, hahead⟩ := met_host hP hrun hmet
    exact ⟨n, hahead⟩
  · rintro ⟨n, hahead⟩
    have hfirst : run P.step P.init [.listen j] =
        some { P.init with up := Function.update P.init.up j true } := rfl
    have hup (k : ι) : Function.update P.init.up j true k = true ↔ k = j := by
      by_cases hk : k = j
      · simp [hk]
      · simp [hk, Programs.init]
    have hstart : current hosts [.listen j] i = (hosts i).startIdx := by
      rw [current]
      simp [isSearch]
    obtain ⟨left, hleft⟩ := Int.le.dest hahead.low.2
    obtain ⟨more, t, hmore, hmet⟩ := meets_only hP hfirst hahead rfl hup rfl (hstart ▸ hleft)
    exact ⟨_, t, run_trans hfirst hmore, hmet⟩

/-- Two hosts of one subnet. -/
def twoHosts (i : Bool) : Host where
  addr := ⟨10, 0, 0, if i then 1 else 2⟩
  subnetAddress := ascii "10.0.0.0"
  startIdx := 1
  subnet := ⟨10, 0, 0, 0⟩

/-- Two processes of v2. -/
def twoScans : Programs Bool ConnectScan where
  finder i := hostFinder inetPton (twoHosts i).subnetAddress (twoHosts i).startIdx
  owner := twoOwners fun i => ⟨(twoHosts i).addr, connectPort⟩
  chats := oneLine

theorem onHosts_twoScans : OnHosts inetPton twoScans twoHosts where
  reads := readsParts_inetPton
  finder i := rfl
  completes i := completes_quad (show (1 : ℤ) < 1000 by decide)
  startIdx_ne i := by
    change (1 : ℤ) ≠ 2 ^ 31 - 1
    decide
  owner := twoOwners_eq_some (fun i => ⟨(twoHosts i).addr, connectPort⟩) (by decide)

theorem ahead_twoHosts (i : Bool) : Ahead (twoHosts true) (if i then 1 else 2) (twoHosts i).addr := by
  cases i <;> exact ⟨⟨by decide, by decide⟩, by decide, by decide⟩

/-- A process that has found itself. -/
theorem scan_stops_twoScans : ∃ t, run twoScans.step twoScans.init
    [.listen true, .listen false, .connect true true] = some t ∧ t.met true = some true ∧
      current twoHosts [.listen true, .listen false, .connect true true] true = 2 := by
  have hview : (run twoScans.step twoScans.init [.listen true]).any
      (fun s => s.up true = true ∧
        (run twoScans.step s [.listen false, .connect true true]).any
          (fun t => t.tcp.listens true = true ∧ t.met true = some true) = true) = true := by
    decide +kernel
  obtain ⟨s, hs, hmore⟩ := (Option.any_eq_true _ _).1 hview
  obtain ⟨hup, hmore⟩ := of_decide_eq_true hmore
  obtain ⟨t, ht, hlast⟩ := (Option.any_eq_true _ _).1 hmore
  obtain ⟨hlistens, hmet⟩ := of_decide_eq_true hlast
  obtain ⟨_, m, hm, hcurrent, hhost⟩ := (scan_stops onHosts_twoScans hs ht (ahead_twoHosts true)
    hup hlistens (by decide)).2 true hmet
  refine ⟨t, run_trans hs ht, hmet, ?_⟩
  have hlow := hhost.low.2
  have hone : m = 1 := by
    change (1 : ℤ) ≤ m at hlow
    change m ≤ 1 at hm
    omega
  exact hcurrent.trans (by rw [hone]; rfl)

theorem meets_iff_twoScans : ∃ labels t, run twoScans.step twoScans.init labels = some t ∧
    t.met true = some false :=
  (meets_iff onHosts_twoScans true false).2 ⟨2, ahead_twoHosts false⟩

end LanChat.HostMeeting

import LanChat.Membership
import LanChat.ChatDelivery

set_option autoImplicit false

/-!
# How a group comes together in v4 and v5

Processes start one after the other. Each asks those that are there, which
enter it and answer, and it enters whose answers it reads before its alarm.
-/
namespace LanChat.GroupFormation
open CStrings HexText FrameCodec SocketAddresses DatagramReceive TransitionRuns ChatProcess
  ControlCollision ChatNetwork HonestNetwork LanChat.Membership ChatDelivery
open DatagramNetworks (Network)

variable {ι : Type*} (L : Lan ι)

/-- Where requests are answered. -/
def askFd : Version → Fd
  | .v4 => .listenfd
  | .v5 => .joinfd

def request (i : ι) : Packet := canPacket (L.sock i .sockfd) (L.cfg i).groupAddr

/-- The requests of one reach the other, whose filter lets them through. -/
structure Reaches (i j : ι) : Prop where
  hears : L.accepts j (askFd L.version) (L.cfg i).groupAddr = true
  passes : ∀ r, L.version.receiver (L.cfg j) (askFd L.version) = some r →
    r.passes (L.sock i .sockfd) = true

variable {L}

theorem step_request {i j : ι} (h : Reaches L i j) {peers : List SockAddr}
    (hlen : peers.length < maxPeers) : ∃ acts,
    step L.version (L.cfg j) ⟨.selecting, peers⟩
        (.recv (askFd L.version) (request L i).toDatagram clean) =
      some (⟨.selecting, peers ++ [L.sock i .listenfd]⟩, acts) ∧
    packets acts = [offerTo L j i] := by
  have hreceive {r : Receiver} (hr : L.version.receiver (L.cfg j) (askFd L.version) = some r)
      (htext : reactionTo r canLine.text = .accept) :
      receive r clean (request L i).toDatagram = .ok .accept := by
    rw [receive_line (show clean.Bounded from isolated_nil) (show canLine.Fits by decide)
      canLine_frame.symm (h.passes r hr), htext]
  have hadd : addPeer ⟨.selecting, peers⟩ { L.sock i .sockfd with sinPort := chatPort } .selecting =
      ⟨.selecting, peers ++ [L.sock i .listenfd]⟩ := by
    simp only [addPeer, if_pos hlen]
    rfl
  have hcan : authCan <+: canLine.text := by decide
  obtain ⟨r, hr, htext⟩ : ∃ r, L.version.receiver (L.cfg j) (askFd L.version) = some r ∧
      reactionTo r canLine.text = .accept := by
    cases L.version with
    | v4 | v5 => exact ⟨_, rfl, by rw [reactionTo, if_pos hcan]⟩
  have hok := hreceive hr htext
  have hstep : step L.version (L.cfg j) ⟨.selecting, peers⟩
      (.recv (askFd L.version) (request L i).toDatagram clean) =
        some (onMessage ((L.cfg j).sock (askFd L.version)) ⟨.selecting, peers⟩ r clean
          (request L i).toDatagram) := by
    cases hv : L.version <;> rw [hv] at hr <;> simp only [askFd] at hr ⊢ <;> simp [step, hr]
  refine ⟨announce r (request L i).src ++
    acceptActs ((L.cfg j).sock (askFd L.version)) (request L i).src, ?_, ?_⟩
  · rw [hstep, onMessage, hok]
    exact congrArg (fun p => some (p, _)) hadd
  · rw [packets_append, packets_announce, packets_acceptActs, List.nil_append]
    cases L.version <;> rfl

/-- Nothing is unread. -/
def quiet (proc : ι → Proc) (flight : List Packet) : Net ι := ⟨proc, fun _ _ => [], flight⟩

variable [DecidableEq ι]

/-- One datagram is unread. -/
def holding (proc : ι → Proc) (flight : List Packet) (k : ι) (fd : Fd) (d : Datagram) : Net ι :=
  ⟨proc, Function.update (fun _ _ => []) k (Function.update (fun _ => []) fd [d]), flight⟩

theorem step_deliver {proc : ι → Proc} {flight : List Packet} {p : Packet} {k : ι} {fd : Fd}
    (hp : p ∈ flight) (hopen : isOpen (proc k).phase fd = true)
    (hdst : L.accepts k fd p.dst = true) : L.step (quiet proc flight) (.deliver p k fd) =
      some (holding proc (flight.erase p) k fd p.toDatagram) :=
  step_network.1 (Network.step_arrive hp (decide_eq_true ⟨hopen, hdst⟩))

omit [DecidableEq ι] in
theorem act_network {k : ι} {q p : Proc} {e : Event} {acts : List Act}
    (hstep : step L.version (L.cfg k) q e = some (p, acts)) :
    (network L).act k q e = some (p, packets acts) :=
  (congrArg (Option.map (Prod.map id packets)) hstep).trans rfl

theorem ready_one (fd : Fd) (d : Datagram) :
    ready (Function.update (fun _ => []) fd [d]) (.recv fd d clean) = true := by
  simp [ready]

theorem step_recv {proc : ι → Proc} {flight : List Packet} {k : ι} {fd : Fd} {d : Datagram}
    {p : Proc} {acts : List Act}
    (hstep : step L.version (L.cfg k) (proc k) (.recv fd d clean) = some (p, acts)) :
    L.step (holding proc flight k fd d) (.act k (.recv fd d clean)) =
      some (quiet (Function.update proc k p) (flight ++ packets acts)) := by
  have htakes : (network L).takes (.recv fd d clean) fd = 1 := by simp [network, taken]
  exact step_network.1 (Network.step_read (ready_one fd d) htakes (act_network hstep))

theorem step_pselect {proc : ι → Proc} {flight : List Packet} {k : ι} {d : Datagram}
    {rset : List ℕ} {peers : List SockAddr} (hproc : proc k = ⟨.finding rset, peers⟩) :
    L.step (holding proc flight k .sockfd d) (.act k (.pselect [] true)) =
      some (holding (Function.update proc k ⟨.offered [], peers⟩) flight k .sockfd d) := by
  have hready : (network L).ready (Function.update (fun _ => []) .sockfd [d])
      (.pselect [] true) = true := by simp [network, ready]
  have hstep : step L.version (L.cfg k) (proc k) (.pselect [] true) =
      some (⟨.offered [], peers⟩, []) := by
    rw [hproc]
    simp [step, onPselect]
  have hheld : (network L).step (net (holding proc flight k .sockfd d)) _ = _ :=
    Network.step_held hready (fun _ => rfl) (act_network hstep)
  rw [packets_nil, List.append_nil] at hheld
  exact step_network.1 hheld

theorem step_alone {proc : ι → Proc} {flight : List Packet} {k : ι} {e : Event} {p : Proc}
    {acts : List Act} (hready : ready (fun _ => []) e = true)
    (hstep : step L.version (L.cfg k) (proc k) e = some (p, acts)) :
    L.step (quiet proc flight) (.act k e) =
      some (quiet (Function.update proc k p) (flight ++ packets acts)) :=
  step_network.1 (Network.step_quiet hready (act_network hstep))

variable (L) in
/-- `j` answers a copy of the request of `i`, which reads the answer. -/
def exchange (i j : ι) : List (Label ι) :=
  [.dup (request L i), .deliver (request L i) j (askFd L.version),
    .act j (.recv (askFd L.version) (request L i).toDatagram clean),
    .deliver (offerTo L j i) i .sockfd, .act i (.pselect [] true),
    .act i (.recv .sockfd (offer L j) clean)]

omit [DecidableEq ι] in
theorem request_ne_offerTo (i j k : ι) : request L i ≠ offerTo L j k := by
  intro h
  have hofc := isOfc_offerTo (L := L) j k
  rw [← h, isOfc_sockfd (i := i) rfl] at hofc
  cases hofc

theorem exchange_run {proc : ι → Proc} {i j : ι} {rset : List ℕ} {mine theirs : List SockAddr}
    (hij : i ≠ j) (hreach : Reaches L i j) (hi : proc i = ⟨.finding rset, mine⟩)
    (hj : proc j = ⟨.selecting, theirs⟩) (hmine : mine.length < maxPeers)
    (htheirs : theirs.length < maxPeers) :
    run L.step (quiet proc [request L i]) (exchange L i j) = some (quiet
      (Function.update (Function.update proc j ⟨.selecting, theirs ++ [L.sock i .listenfd]⟩) i
        ⟨.finding [], mine ++ [L.sock j .listenfd]⟩) [request L i]) := by
  obtain ⟨acts, hanswer, hacts⟩ := step_request hreach htheirs
  rw [← hj] at hanswer
  have hdup : L.step (quiet proc [request L i]) (.dup (request L i)) =
      some (quiet proc [request L i, request L i]) := by
    have hmem : request L i ∈ (quiet proc [request L i]).flight := List.mem_cons_self
    rw [Lan.step, if_pos hmem]
    rfl
  have hask : L.step (quiet proc [request L i, request L i])
      (.deliver (request L i) j (askFd L.version)) = _ :=
    step_deliver List.mem_cons_self (by rw [hj]; rfl) hreach.hears
  rw [List.erase_cons_head] at hask
  have hrecv : L.step (holding proc [request L i] j _ _) _ = _ := step_recv hanswer
  rw [hacts] at hrecv
  have hi' : Function.update proc j ⟨.selecting, theirs ++ [L.sock i .listenfd]⟩ i =
      ⟨.finding rset, mine⟩ := by rw [Function.update_of_ne hij, hi]
  generalize Function.update proc j ⟨.selecting, theirs ++ [L.sock i .listenfd]⟩ = proc'
    at hrecv hi' ⊢
  have hoffer : L.step (quiet proc' ([request L i] ++ [offerTo L j i]))
      (.deliver (offerTo L j i) i .sockfd) = _ :=
    step_deliver (by simp) (by rw [hi']; rfl) (decide_eq_true rfl)
  have herase : ([request L i] ++ [offerTo L j i]).erase (offerTo L j i) = [request L i] := by
    rw [List.singleton_append, List.erase_cons_tail (by simpa using request_ne_offerTo i j i),
      List.erase_cons_head]
  rw [herase] at hoffer
  have hconfirm : step L.version (L.cfg i) (Function.update proc' i ⟨.offered [], mine⟩ i)
      (.recv .sockfd (offer L j) clean) =
        some (⟨.finding [], mine ++ [L.sock j .listenfd]⟩, []) := by
    rw [Function.update_self]
    simp only [step, offer, authTryConfirm_ofc, if_true, addPeer, if_pos hmine]
  have hread : L.step (holding _ [request L i] i _ _) _ = _ := step_recv hconfirm
  rw [Function.update_idem] at hread
  exact run_cons_iff.2 ⟨_, hdup, run_cons_iff.2 ⟨_, hask, run_cons_iff.2 ⟨_, hrecv,
    run_cons_iff.2 ⟨_, hoffer, run_cons_iff.2 ⟨_, step_pselect hi', run_cons_iff.2
      ⟨_, hread, rfl⟩⟩⟩⟩⟩⟩

/-- The listeners `js` answer in this order. -/
theorem exchanges_run {i : ι} (js : List ι) {proc : ι → Proc} {rset : List ℕ}
    {mine : List SockAddr} (hi : proc i = ⟨.finding rset, mine⟩) (hnotin : i ∉ js)
    (hnodup : js.Nodup) (hlen : mine.length + js.length ≤ maxPeers)
    (hreach : ∀ j ∈ js, Reaches L i j) (htable : ∀ j ∈ js, ∃ theirs,
      proc j = ⟨.selecting, theirs⟩ ∧ theirs.length < maxPeers) :
    ∃ proc' rset', run L.step (quiet proc [request L i]) (js.flatMap (exchange L i)) =
        some (quiet proc' [request L i]) ∧
      proc' i = ⟨.finding rset', mine ++ js.map (L.sock · .listenfd)⟩ ∧
      (∀ j ∈ js, proc' j = ⟨.selecting, (proc j).peers ++ [L.sock i .listenfd]⟩) ∧
      ∀ k, k ≠ i → k ∉ js → proc' k = proc k := by
  induction js generalizing proc rset mine with
  | nil => exact ⟨proc, rset, rfl, by simpa using hi, by simp, fun _ _ _ => rfl⟩
  | cons j js ih =>
    rw [List.mem_cons, not_or] at hnotin
    obtain ⟨hij, hnotin⟩ := hnotin
    obtain ⟨hj, hnodup⟩ := List.nodup_cons.1 hnodup
    rw [List.length_cons] at hlen
    obtain ⟨theirs, hproc, htheirs⟩ := htable j List.mem_cons_self
    have hfirst := exchange_run hij (hreach j List.mem_cons_self) hi hproc (by omega) htheirs
    have hother (k : ι) (hki : k ≠ i) (hkj : k ≠ j) (p q : Proc) :
        Function.update (Function.update proc j p) i q k = proc k := by
      rw [Function.update_of_ne hki, Function.update_of_ne hkj]
    have hne {k : ι} (hk : k ∈ js) : k ≠ i ∧ k ≠ j :=
      ⟨fun e => hnotin (e ▸ hk), fun e => hj (e ▸ hk)⟩
    have hnext : Function.update
        (Function.update proc j ⟨.selecting, theirs ++ [L.sock i .listenfd]⟩) i
        ⟨.finding [], mine ++ [L.sock j .listenfd]⟩ i =
          ⟨.finding [], mine ++ [L.sock j .listenfd]⟩ := Function.update_self i _ _
    obtain ⟨proc', rset', hrun, hi', hjs, hrest⟩ := ih hnext hnotin hnodup
      (by rw [List.length_append, List.length_singleton]; omega)
      (fun k hk => hreach k (List.mem_cons_of_mem j hk)) (fun k hk => by
        rw [hother k (hne hk).1 (hne hk).2]
        exact htable k (List.mem_cons_of_mem j hk))
    refine ⟨proc', rset', ?_, ?_, List.forall_mem_cons.2 ⟨?_, fun k hk => ?_⟩, fun k hki hk => ?_⟩
    · rw [List.flatMap_cons, run_append, hfirst]
      exact hrun
    · rw [hi', List.append_assoc]
      rfl
    · rw [hrest j (Ne.symm hij) hj, Function.update_of_ne (Ne.symm hij), Function.update_self,
        hproc]
    · rw [hjs k hk, hother k (hne hk).1 (hne hk).2]
    · rw [List.mem_cons, not_or] at hk
      rw [hrest k hki hk.2, hother k hki hk.1]

variable (L) in
/-- A process starts, and the listeners `js` answer before its alarm. -/
def joins (i : ι) (js : List ι) : List (Label ι) :=
  .act i .start :: js.flatMap (exchange L i) ++ [.act i .alarm, .drop (request L i)]

theorem joins_run {i : ι} (js : List ι) {proc : ι → Proc} (hi : proc i = Proc.init)
    (hnotin : i ∉ js) (hnodup : js.Nodup) (hlen : js.length ≤ maxPeers)
    (hreach : ∀ j ∈ js, Reaches L i j) (htable : ∀ j ∈ js, ∃ theirs,
      proc j = ⟨.selecting, theirs⟩ ∧ theirs.length < maxPeers) :
    ∃ proc', run L.step (quiet proc []) (joins L i js) = some (quiet proc' []) ∧
      proc' i = ⟨.selecting, js.map (L.sock · .listenfd)⟩ ∧
      (∀ j ∈ js, proc' j = ⟨.selecting, (proc j).peers ++ [L.sock i .listenfd]⟩) ∧
      ∀ k, k ≠ i → k ∉ js → proc' k = proc k := by
  have hne {k : ι} (hk : k ∈ js) : k ≠ i := fun e => hnotin (e ▸ hk)
  have hstart : L.step (quiet proc []) (.act i .start) =
      some (quiet (Function.update proc i ⟨.finding (L.cfg i).rset, []⟩) [request L i]) := by
    have hstep : step L.version (L.cfg i) (proc i) .start =
        some (⟨.finding (L.cfg i).rset, []⟩,
          [authRequest ((L.cfg i).sock .sockfd) (L.cfg i).groupAddr]) := by
      rw [hi]
      rfl
    exact step_alone rfl hstep
  have hasking : Function.update proc i ⟨.finding (L.cfg i).rset, []⟩ i =
      ⟨.finding (L.cfg i).rset, []⟩ := Function.update_self i _ _
  obtain ⟨proc', rset', hrun, hi', hjs, hrest⟩ := exchanges_run js hasking hnotin hnodup
    (by simpa using hlen) hreach fun j hj => by
      rw [Function.update_of_ne (hne hj)]
      exact htable j hj
  rw [List.nil_append] at hi'
  have halarm : L.step (quiet proc' [request L i]) (.act i .alarm) =
      some (quiet (Function.update proc' i ⟨.selecting, js.map (L.sock · .listenfd)⟩)
        [request L i]) := by
    have hstep : step L.version (L.cfg i) (proc' i) .alarm =
        some (⟨.selecting, js.map (L.sock · .listenfd)⟩, (onAlarm (proc' i)).2) := by
      simp [step, hi', onAlarm]
    have hlone : L.step (quiet proc' [request L i]) (.act i .alarm) = _ :=
      step_alone rfl hstep
    rwa [packets_onAlarm, List.append_nil] at hlone
  refine ⟨Function.update proc' i ⟨.selecting, js.map (L.sock · .listenfd)⟩, ?_,
    Function.update_self i _ _, fun j hj => ?_, fun k hki hk => ?_⟩
  · rw [joins, List.cons_append]
    refine run_cons_iff.2 ⟨_, hstart, ?_⟩
    rw [run_append, hrun]
    refine run_cons_iff.2 ⟨_, halarm, run_cons_iff.2 ⟨_, ?_, rfl⟩⟩
    have hmem : request L i ∈ (quiet (Function.update proc' i
      ⟨.selecting, js.map (L.sock · .listenfd)⟩) [request L i]).flight := List.mem_cons_self
    rw [Lan.step, if_pos hmem]
    simp [quiet]
  · rw [Function.update_of_ne (hne hj), hjs j hj, Function.update_of_ne (hne hj)]
  · rw [Function.update_of_ne hki, hrest k hki hk, Function.update_of_ne hki]

omit [DecidableEq ι] in
theorem joins_keepsOffers (i : ι) (js : List ι) : ∀ l ∈ joins L i js, keepsOffers l = true := by
  have hrequest : isOfc (request L i) = false := isOfc_sockfd (i := i) rfl
  intro l hl
  simp only [joins, exchange, List.cons_append, List.mem_cons, List.mem_append, List.mem_flatMap,
    List.not_mem_nil, or_false] at hl
  rcases hl with rfl | ⟨j, _, rfl | rfl | rfl | rfl | rfl | rfl⟩ | rfl | rfl <;>
    simp [keepsOffers, hrequest]

/-- However many processes start one after the other, up to what a table holds,
    if each request reaches those that are there, the group can come together
    without the loss of an answer: each has entered all others, once each. -/
theorem group_forms (is : List ι) (hnodup : is.Nodup) (hlen : is.length ≤ maxPeers + 1)
    (hreach : is.Pairwise fun j i => Reaches L i j) :
    ∃ labels proc, (∀ l ∈ labels, keepsOffers l = true) ∧
      run L.step L.init labels = some (quiet proc []) ∧
      (∀ i ∈ is, proc i = ⟨.selecting, (is.erase i).map (L.sock · .listenfd)⟩) ∧
      ∀ k ∉ is, proc k = Proc.init := by
  induction is using List.reverseRecOn with
  | nil => exact ⟨[], fun _ => Proc.init, by simp, rfl, by simp, fun _ _ => rfl⟩
  | append_singleton is i ih =>
    rw [List.length_append, List.length_singleton] at hlen
    have hnew : i ∉ is := fun hi =>
      (List.nodup_append.1 hnodup).2.2 i hi i List.mem_cons_self rfl
    obtain ⟨hbefore, _, hreach'⟩ := List.pairwise_append.1 hreach
    obtain ⟨labels, proc, hkeep, hrun, htables, hothers⟩ :=
      ih (List.nodup_append.1 hnodup).1 (by omega) hbefore
    obtain ⟨proc', hjoin, hi, his, hrest⟩ := joins_run is (hothers i hnew) hnew
      (List.nodup_append.1 hnodup).1 (by omega) (fun j hj => hreach' j hj i List.mem_cons_self)
      (fun j hj => ⟨_, htables j hj, by
        have hpos := List.length_pos_of_mem hj
        rw [List.length_map, List.length_erase_of_mem hj]
        omega⟩)
    refine ⟨labels ++ joins L i is, proc', ?_, ?_, ?_, ?_⟩
    · intro l hl
      exact (List.mem_append.1 hl).elim (hkeep l) (joins_keepsOffers i is l)
    · rw [run_append, hrun]
      exact hjoin
    · intro k hk
      by_cases hki : k = i
      · subst k
        rw [hi, List.erase_append_right _ hnew, List.erase_cons_head, List.append_nil]
      · have hmem : k ∈ is := (List.mem_append.1 hk).resolve_right fun h =>
          hki (List.mem_singleton.1 h)
        rw [his k hmem, htables k hmem, List.erase_append_left _ hmem, List.map_append]
        rfl
    · intro k hk
      rw [List.mem_append, not_or, List.mem_singleton] at hk
      rw [hrest k hk.2 hk.1, hothers k hk.1]

theorem group_forms_pair : ∃ labels proc,
    run (pair .v4).step (pair .v4).init labels = some (quiet proc []) ∧
    proc .left = ⟨.selecting, [(pair .v4).sock .right .listenfd]⟩ ∧
    proc .right = ⟨.selecting, [(pair .v4).sock .left .listenfd]⟩ := by
  have hreach : [Side.left, .right].Pairwise fun j i => Reaches (pair .v4) i j := by
    simp only [List.pairwise_cons, List.mem_singleton, forall_eq, List.not_mem_nil, false_implies,
      implies_true, List.Pairwise.nil, and_true]
    exact ⟨by decide +kernel, fun r hr => by cases hr; decide +kernel⟩
  obtain ⟨labels, proc, _, hrun, htables, _⟩ :=
    group_forms (L := pair .v4) [.left, .right] (by decide) (by decide) hreach
  exact ⟨labels, proc, hrun, htables .left (by decide), htables .right (by decide)⟩

end LanChat.GroupFormation

import LanChat.GroupFormation
import LanChat.ResidualMemory

set_option autoImplicit false

/-!
# How a group talks in v4 and v5

What one of a group types goes to each other one, which shows it. In the runs
here each copy is read before anything else is said.
-/
namespace LanChat.GroupTalk
open CStrings HexText FrameCodec SocketAddresses DatagramReceive TransitionRuns ChatProcess
  ControlCollision TypedCommands FgetsLoops ResidualMemory ChatNetwork HonestNetwork ChatDelivery
  GroupFormation

variable {ι : Type*} [DecidableEq ι] (L : Lan ι)

/-- What `k` prints at a step of the network. -/
def screen (k : ι) (s : Net ι) : Label ι → Bytes
  | .act i e =>
    if i = k then
      ((step L.version (L.cfg k) (s.proc k) e).map fun q => printed q.2).getD []
    else []
  | _ => []

/-- A run from one state to another, with what each process prints in it. -/
abbrev Plays (s : Net ι) (labels : List (Label ι)) (t : Net ι) (shows : ι → Bytes) : Prop :=
  Emits L.step (screen L) s labels t shows

/-- The buffer goes to the table, fits a frame, and does not read as a request. -/
structure Sayable (i : ι) (message : Bytes) : Prop where
  chat : isChat message = true
  fits : lengthField (L.cfg i).userName (cstr message) ≤ 65535
  plain : ¬ authCan <+: shown (L.cfg i).userName (chomp (cstr message))

/-- The copy for `j` of what `i` says. -/
def copy (i : ι) (message : Bytes) (j : ι) : Packet :=
  chatPacket (L.cfg i) (createSendMsg (cstr message) (L.cfg i).userName) (L.sock j .listenfd)

def hearing (p : Packet) (j : ι) : List (Label ι) :=
  [.deliver p j .listenfd, .act j (.recv .listenfd p.toDatagram clean)]

/-- `i` types a line, and then one after the other hears it. -/
def utter (i : ι) (message : Bytes) (js : List ι) : List (Label ι) :=
  .act i (.input message) :: js.flatMap fun j => hearing (copy L i message j) j

def heard (i : ι) (message : Bytes) : Bytes :=
  ascii "Has data\nReceived data\n" ++ shown (L.cfg i).userName (chomp (cstr message)) ++ ascii "\n"

def sending (js : List ι) : Bytes :=
  js.flatMap fun j => ascii "Sending to " ++ sockNtop (L.sock j .listenfd) ++ ascii "\n"

/-- What `k` shows of a line that `said.1` has typed. -/
def shows (is : List ι) (k : ι) (said : ι × Bytes) : Bytes :=
  if k = said.1 then sending L (is.erase k) else if k ∈ is then heard L said.1 said.2 else []

def typed : Label ι → Option (ι × Bytes)
  | .act i (.input message) => some (i, message)
  | _ => none

variable {L}

theorem printed_append (acts acts' : List Act) :
    printed (acts ++ acts') = printed acts ++ printed acts' := List.flatMap_append

theorem printed_fanOut (cfg : Config) (toSend : Bytes) (peers : List SockAddr) :
    printed (fanOut cfg peers toSend) =
      peers.flatMap fun peer => ascii "Sending to " ++ sockNtop peer ++ ascii "\n" := by
  induction peers with
  | nil => rfl
  | cons peer peers ih =>
    rw [fanOut, List.flatMap_cons, printed_append, ← fanOut, ih, List.flatMap_cons]
    simp [printed]

omit [DecidableEq ι] in
/-- Reading a copy leaves the table as it is. -/
theorem step_hear {i j : ι} {message : Bytes} (hsay : Sayable L i message)
    (hpass : ∀ r, L.version.receiver (L.cfg j) .listenfd = some r →
      r.passes (L.sock i .sockfd) = true) (peers : List SockAddr) :
    ∃ acts, step L.version (L.cfg j) ⟨.selecting, peers⟩
        (.recv .listenfd (copy L i message j).toDatagram clean) =
      some (⟨.selecting, peers⟩, acts) ∧ packets acts = [] ∧ printed acts = heard L i message := by
  have hsrc : (copy L i message j).src = L.sock i .sockfd := rfl
  obtain ⟨r, hr, hok⟩ : printsAt L.version (L.cfg j) .listenfd clean
      (copy L i message j).toDatagram (lineOf L i message).text :=
    printsAt_listenfd (show clean.Bounded from isolated_nil) hsay.fits rfl hsay.plain hpass
  have hstep : step L.version (L.cfg j) ⟨.selecting, peers⟩
      (.recv .listenfd (copy L i message j).toDatagram clean) =
        some (onMessage ((L.cfg j).sock .listenfd) ⟨.selecting, peers⟩ r clean
          (copy L i message j).toDatagram) := by
    simp [step, hr]
  have hannounce : printed (announce r (L.sock i .sockfd)) = ascii "Has data\nReceived data\n" := by
    have hpasses := hpass r hr
    cases hv : L.version <;> rw [hv] at hr <;> cases hr <;> simp only [announce, if_pos hpasses] <;>
      rfl
  rw [hstep, onMessage, hok]
  refine ⟨_, rfl, by rw [packets_append, packets_announce]; rfl, ?_⟩
  rw [printed_append, hsrc, hannounce]
  simp [heard, printed, lineOf, ChatLine.text, shown, body]

theorem hear {i j : ι} {message : Bytes} (hsay : Sayable L i message)
    (hpass : ∀ r, L.version.receiver (L.cfg j) .listenfd = some r →
      r.passes (L.sock i .sockfd) = true)
    {proc : ι → Proc} {peers : List SockAddr} (hj : proc j = ⟨.selecting, peers⟩)
    (flight : List Packet) :
    Plays L (quiet proc (copy L i message j :: flight)) (hearing (copy L i message j) j)
      (quiet proc flight) fun k => if j = k then heard L i message else [] := by
  obtain ⟨acts, hstep, hsent, hprints⟩ := step_hear hsay hpass peers
  rw [← hj] at hstep
  have hdst : L.accepts j .listenfd (copy L i message j).dst = true :=
    decide_eq_true ⟨rfl, .inl rfl⟩
  have hdeliver : L.step (quiet proc (copy L i message j :: flight))
      (.deliver (copy L i message j) j .listenfd) = _ :=
    step_deliver List.mem_cons_self (by rw [hj]; rfl) hdst
  rw [List.erase_cons_head] at hdeliver
  have hread : L.step (holding proc flight j _ _) _ = _ := step_recv hstep
  rw [hsent, List.append_nil, Function.update_eq_self] at hread
  have hplays := emits_cons (f := screen L) hdeliver (emits_cons hread (emits_nil _))
  refine ⟨hplays.run, fun k => (hplays.collect k).trans ?_⟩
  have hproc : (holding proc flight j .listenfd (copy L i message j).toDatagram).proc = proc := rfl
  by_cases hk : j = k
  · subst k
    simp [screen, hproc, hstep, hprints]
  · simp [screen, hk]

/-- Everyone hears who is to hear. -/
theorem hears {i : ι} {message : Bytes} (hsay : Sayable L i message) (js : List ι)
    (hnodup : js.Nodup) (hpass : ∀ j ∈ js, ∀ r, L.version.receiver (L.cfg j) .listenfd = some r →
      r.passes (L.sock i .sockfd) = true)
    {proc : ι → Proc} (htable : ∀ j ∈ js, ∃ peers, proc j = ⟨.selecting, peers⟩) :
    Plays L (quiet proc (js.map (copy L i message)))
      (js.flatMap fun j => hearing (copy L i message j) j) (quiet proc [])
      fun k => if k ∈ js then heard L i message else [] := by
  induction js with
  | nil => simpa using emits_nil (f := screen L) (quiet proc [])
  | cons j js ih =>
    obtain ⟨hnotin, hnodup⟩ := List.nodup_cons.1 hnodup
    obtain ⟨peers, hj⟩ := htable j List.mem_cons_self
    have hfirst := hear hsay (hpass j List.mem_cons_self) hj (js.map (copy L i message))
    have hrest := ih hnodup (fun k hk => hpass k (List.mem_cons_of_mem j hk))
      fun k hk => htable k (List.mem_cons_of_mem j hk)
    have hplays := hfirst.append hrest
    refine ⟨hplays.run, fun k => (hplays.collect k).trans ?_⟩
    by_cases hk : j = k
    · subst k
      simp [hnotin]
    · simp [hk, Ne.symm hk]

theorem utters {is : List ι} {i : ι} {message : Bytes} (hsay : Sayable L i message)
    (hnodup : is.Nodup) (hpass : ∀ j ∈ is, j ≠ i → ∀ r,
      L.version.receiver (L.cfg j) .listenfd = some r → r.passes (L.sock i .sockfd) = true)
    {proc : ι → Proc} (hi : i ∈ is)
    (htable : ∀ j ∈ is, proc j = ⟨.selecting, (is.erase j).map (L.sock · .listenfd)⟩) :
    Plays L (quiet proc []) (utter L i message (is.erase i)) (quiet proc [])
      fun k => shows L is k (i, message) := by
  have hmem {j : ι} : j ∈ is.erase i ↔ j ≠ i ∧ j ∈ is := hnodup.mem_erase_iff
  obtain ⟨hend, hfind⟩ := of_decide_eq_true hsay.chat
  have hstep : step L.version (L.cfg i) (proc i) (.input message) = some (proc i,
      fanOut (L.cfg i) ((is.erase i).map (L.sock · .listenfd))
        (createSendMsg (cstr message) (L.cfg i).userName)) := by
    rw [htable i hi]
    simp [step, onInput, hend, hfind]
  have hsaid : L.step (quiet proc []) (.act i (.input message)) = _ := step_alone rfl hstep
  rw [Function.update_eq_self, List.nil_append, packets_fanOut, List.map_map] at hsaid
  have hheard := hears hsay (is.erase i) (hnodup.erase i)
    (fun j hj => hpass j (hmem.1 hj).2 (hmem.1 hj).1)
    fun j hj => ⟨_, htable j (hmem.1 hj).2⟩
  have hplays := emits_cons (f := screen L) hsaid hheard
  refine ⟨hplays.run, fun k => (hplays.collect k).trans ?_⟩
  have hproc : (quiet proc [] : Net ι).proc = proc := rfl
  by_cases hk : i = k
  · subst k
    simp [screen, hproc, hstep, printed_fanOut, shows, sending, hmem, List.flatMap_map]
  · simp [screen, hk, Ne.symm hk, shows, hmem]

/-- The lines are said one after the other, and each is heard. -/
theorem talks {is : List ι} (hnodup : is.Nodup) (hpass : ∀ i ∈ is, ∀ j ∈ is, j ≠ i → ∀ r,
      L.version.receiver (L.cfg j) .listenfd = some r → r.passes (L.sock i .sockfd) = true)
    {proc : ι → Proc}
    (htable : ∀ j ∈ is, proc j = ⟨.selecting, (is.erase j).map (L.sock · .listenfd)⟩)
    (talk : List (ι × Bytes)) (htalk : ∀ said ∈ talk, said.1 ∈ is ∧ Sayable L said.1 said.2) :
    Plays L (quiet proc []) (talk.flatMap fun said => utter L said.1 said.2 (is.erase said.1))
      (quiet proc []) fun k => talk.flatMap (shows L is k) := by
  induction talk with
  | nil => exact emits_nil _
  | cons said talk ih =>
    obtain ⟨hi, hsay⟩ := htalk said List.mem_cons_self
    have hfirst := utters hsay hnodup (hpass said.1 hi) hi htable
    exact hfirst.append (ih fun said hsaid => htalk said (List.mem_cons_of_mem _ hsaid))

omit [DecidableEq ι] in
theorem typed_utter (i : ι) (message : Bytes) (js : List ι) :
    (utter L i message js).filterMap typed = [(i, message)] := by
  have hnone : (js.flatMap fun j => hearing (copy L i message j) j).filterMap typed = [] := by
    rw [List.filterMap_eq_nil_iff]
    intro l hl
    obtain ⟨j, _, hl⟩ := List.mem_flatMap.1 hl
    rcases List.mem_cons.1 hl with rfl | hl
    · rfl
    · rw [List.mem_singleton.1 hl]
      rfl
  rw [utter, List.filterMap_cons, hnone]
  rfl

/-- A group can come together and then talk: there is a run in which whatever is
    typed, by whomever of the group, is shown by all others, in this order and
    once each, and shows its author to whom it goes. -/
theorem group_talks (is : List ι) (hnodup : is.Nodup) (hlen : is.length ≤ maxPeers + 1)
    (hreach : is.Pairwise fun j i => Reaches L i j)
    (hpass : ∀ i ∈ is, ∀ j ∈ is, j ≠ i → ∀ r,
      L.version.receiver (L.cfg j) .listenfd = some r → r.passes (L.sock i .sockfd) = true)
    (talk : List (ι × Bytes)) (htalk : ∀ said ∈ talk, said.1 ∈ is ∧ Sayable L said.1 said.2) :
    ∃ joining talking s, run L.step L.init joining = some s ∧ run L.step s talking = some s ∧
      talking.filterMap typed = talk ∧
      ∀ k, collect L.step (screen L k) s talking = talk.flatMap (shows L is k) := by
  obtain ⟨joining, proc, _, hrun, htable, _⟩ := group_forms is hnodup hlen hreach
  have hplays := talks hnodup hpass htable talk htalk
  refine ⟨joining, _, _, hrun, hplays.run, ?_, hplays.collect⟩
  rw [List.filterMap_flatMap]
  simp only [typed_utter]
  exact List.flatMap_singleton' talk

theorem group_talks_pair : ∃ joining talking s,
    run (pair .v4).step (pair .v4).init joining = some s ∧
    collect (pair .v4).step (screen (pair .v4) .right) s talking =
      ascii "Has data\nReceived data\nuser: hello\n" ++
        ascii "Sending to 10.0.0.1:11001\n" := by
  have hreach : [Side.left, .right].Pairwise fun j i => Reaches (pair .v4) i j := by
    simp only [List.pairwise_cons, List.mem_singleton, forall_eq, List.not_mem_nil, false_implies,
      implies_true, List.Pairwise.nil, and_true]
    exact ⟨by decide +kernel, fun r hr => by cases hr; decide +kernel⟩
  obtain ⟨joining, talking, s, hjoining, _, _, hscreen⟩ :=
    group_talks (L := pair .v4) [.left, .right] (by decide) (by decide) hreach
      (by
        intro i _ j _ hne r hr
        cases hr
        revert hne
        cases i <;> cases j <;> decide +kernel)
      [(.left, ascii "hello\n"), (.right, ascii "hi\n")]
      (by
        intro said hsaid
        simp only [List.mem_cons, List.not_mem_nil, or_false] at hsaid
        rcases hsaid with rfl | rfl <;>
          exact ⟨by decide, by decide +kernel, by decide +kernel, by decide +kernel⟩)
  exact ⟨joining, talking, s, hjoining, (hscreen .right).trans (by decide +kernel)⟩

end LanChat.GroupTalk

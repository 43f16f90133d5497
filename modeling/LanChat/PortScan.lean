import LanChat.RoundRobin
import LanChat.SocketAddresses
import LanChat.TransitionRuns

set_option autoImplicit false

/-!
# The port scan of `find_peer` in v1

Attempt after attempt is made at `127.0.0.1` until a `connect` succeeds. The
counter wraps round at the end of the range and leaves out the own port.
-/
namespace LanChat.PortScan
open CStrings SocketAddresses TransitionRuns RoundRobin

/-- `PORT_MIN`, `PORT_MAX` and a `listen_port` that `main` lets pass. -/
structure PortRange where
  portMin : ℤ
  portMax : ℤ
  listenPort : ℤ
  min_lt_max : portMin < portMax
  min_le_listen : portMin ≤ listenPort
  listen_le_max : listenPort ≤ portMax

/-- `tried` holds the numbers that were given to `htons`, `connects` the
    addresses that were given to `connect`. -/
structure Search where
  currentPort : ℤ
  servaddr : SockAddr
  tried : List ℤ
  connects : List SockAddr
  printed : Bytes
  returned : Option ℤ
  deriving DecidableEq, Repr

def htons (port : ℤ) : UInt16 := UInt16.ofInt port

/-- What the two tests make of `current_port`. -/
def portToTry (r : PortRange) (currentPort : ℤ) : ℤ :=
  let port := if currentPort > r.portMax then r.portMin else currentPort
  if port = r.listenPort then port + 1 else port

/-- One turn of the loop, and what follows it if `connect` succeeds. -/
def tryPort (r : PortRange) (s : Search) (connected : Bool) : Option Search :=
  match s.returned with
  | some _ => none
  | none =>
    let port := portToTry r s.currentPort
    let servaddr := { s.servaddr with sinPort := htons port }
    let turned := { s with
      currentPort := port + 1
      servaddr := servaddr
      tried := s.tried ++ [port]
      connects := s.connects ++ [servaddr] }
    if connected then
      some { turned with
        currentPort := turned.currentPort - 1
        printed := turned.printed ++ ascii "Bound!\n"
        returned := some (turned.currentPort - 1) }
    else some turned

def findPeer (r : PortRange) : Search := ⟨r.portMin, ⟨⟨127, 0, 0, 1⟩, 0⟩, [], [], [], none⟩

/-- The ports that are tried are other ports of the range, and as many attempts
    in a row as there are other ports try each of them once. -/
structure CoversRange (r : PortRange) (tried : List ℤ) : Prop where
  inRange : ∀ port ∈ tried, r.portMin ≤ port ∧ port ≤ r.portMax ∧ port ≠ r.listenPort
  once : ∀ before window after, tried = before ++ window ++ after →
    (window.length : ℤ) = r.portMax - r.portMin →
    ∀ port, r.portMin ≤ port → port ≤ r.portMax → port ≠ r.listenPort → window.count port = 1

/-- The number of the other ports. -/
def PortRange.others (r : PortRange) : ℕ := (r.portMax - r.portMin).toNat

/-- The other ports in their order. -/
def PortRange.otherPort (r : PortRange) (j : ℕ) : ℤ :=
  if r.portMin + j < r.listenPort then r.portMin + j else r.portMin + j + 1

namespace PortRange

variable (r : PortRange)

theorem coe_others : (r.others : ℤ) = r.portMax - r.portMin :=
  Int.toNat_of_nonneg (by have h := r.min_lt_max; omega)

theorem others_pos : 0 < r.others := by
  have h := r.min_lt_max
  have hothers := r.coe_others
  omega

theorem otherPort_inRange {j : ℕ} (hj : j < r.others) :
    r.portMin ≤ r.otherPort j ∧ r.otherPort j ≤ r.portMax ∧ r.otherPort j ≠ r.listenPort := by
  have hothers := r.coe_others
  unfold otherPort
  split_ifs <;> omega

theorem otherPort_surj {port : ℤ} (hmin : r.portMin ≤ port) (hmax : port ≤ r.portMax)
    (hother : port ≠ r.listenPort) : ∃ j, j < r.others ∧ r.otherPort j = port := by
  have hothers := r.coe_others
  have hlisten := r.min_le_listen
  by_cases hlt : port < r.listenPort
  · refine ⟨(port - r.portMin).toNat, by have h := r.listen_le_max; omega, ?_⟩
    rw [otherPort, if_pos (by omega)]
    omega
  · refine ⟨(port - r.portMin - 1).toNat, by omega, ?_⟩
    rw [otherPort, if_neg (by omega)]
    omega

theorem otherPort_nodup (n : ℕ) : ((List.range n).map r.otherPort).Nodup := by
  apply List.Nodup.map _ List.nodup_range
  intro i j h
  unfold otherPort at h
  split_ifs at h <;> omega

theorem rounds_coversRange (n : ℕ) : CoversRange r (rounds r.otherPort r.others n) := by
  constructor
  · intro port hport
    obtain ⟨j, hj, rfl⟩ := mem_rounds r.others_pos hport
    exact r.otherPort_inRange hj
  · intro before window after hcut hlen port hmin hmax hother
    obtain ⟨j, hj, rfl⟩ := r.otherPort_surj hmin hmax hother
    have hothers := r.coe_others
    exact rounds_window_count hcut (by omega) (r.otherPort_nodup _) hj

theorem portToTry_min : portToTry r r.portMin = r.otherPort 0 := by
  have hlt := r.min_lt_max
  have hle := r.min_le_listen
  unfold portToTry otherPort
  dsimp only
  split_ifs <;> omega

/-- The attempt after `n` others: where the own port is the last, its test comes
    too late for the one that ends a round. -/
def nextPort (n : ℕ) : ℤ :=
  if r.listenPort = r.portMax ∧ n = r.others then r.portMax + 1 else r.otherPort (n % r.others)

variable {r}

theorem nextPort_of_round {n : ℕ} (h : r.listenPort ≠ r.portMax ∨ n < r.others) :
    r.nextPort n = r.otherPort (n % r.others) := by
  rw [nextPort, if_neg]
  omega

theorem portToTry_next {n : ℕ} (h : r.listenPort ≠ r.portMax ∨ n < r.others) :
    portToTry r (r.otherPort (n % r.others) + 1) = r.nextPort (n + 1) := by
  have hpos := r.others_pos
  have hothers := r.coe_others
  have hmin := r.min_le_listen
  have hmax := r.listen_le_max
  have hj := Nat.mod_lt n hpos
  have hnext : (n + 1) % r.others =
      if n % r.others + 1 = r.others then 0 else n % r.others + 1 := by
    rw [← Nat.mod_add_mod]
    split_ifs with hend
    · rw [hend, Nat.mod_self]
    · exact Nat.mod_eq_of_lt (by omega)
  have hlast : r.listenPort = r.portMax → n % r.others = n :=
    fun heq => Nat.mod_eq_of_lt (h.resolve_left (not_not_intro heq))
  rw [nextPort, hnext]
  generalize n % r.others = j at hj hlast ⊢
  unfold portToTry otherPort
  dsimp only
  split_ifs <;> omega

end PortRange

section Runs

variable {r : PortRange} {s t : Search} {outcomes : List Bool}

theorem tryPort_some {connected : Bool} (h : tryPort r s connected = some t) :
    s.returned = none ∧ t.tried = s.tried ++ [portToTry r s.currentPort] ∧
      t.connects = s.connects ++
        [⟨s.servaddr.sinAddr, htons (portToTry r s.currentPort)⟩] ∧
      t.servaddr.sinAddr = s.servaddr.sinAddr ∧
      (t.returned = none → t.currentPort = portToTry r s.currentPort + 1) ∧
      (∀ port, t.returned = some port → port = portToTry r s.currentPort) := by
  unfold tryPort at h
  split at h
  · cases h
  · rename_i hreturned
    dsimp only at h
    split_ifs at h with hconnected
    · cases h
      refine ⟨hreturned, rfl, rfl, rfl, ?_, ?_⟩
      · intro hnone
        cases hnone
      · intro port hport
        cases hport
        omega
    · cases h
      refine ⟨hreturned, rfl, rfl, rfl, fun _ => rfl, ?_⟩
      intro port hport
      cases hreturned.symm.trans hport

theorem tried_begins (h : run (tryPort r) s outcomes = some t) : s.tried <+: t.tried := by
  apply run_preserves (I := fun u => s.tried <+: u.tried) _ List.prefix_rfl h
  intro u c v hu hstep
  rw [(tryPort_some hstep).2.1]
  exact hu.trans (List.prefix_append _ _)

/-- As long as the own port is not the last of the range, or the end has not
    been reached, the scan goes round the other ports. -/
theorem run_rounds (h : run (tryPort r) (findPeer r) outcomes = some s)
    (hround : r.listenPort ≠ r.portMax ∨ outcomes.length ≤ r.others) :
    s.tried = rounds r.otherPort r.others outcomes.length ∧
      (s.returned = none → portToTry r s.currentPort = r.nextPort outcomes.length) := by
  induction outcomes using List.reverseRecOn generalizing s with
  | nil =>
    cases h
    refine ⟨rfl, fun _ => ?_⟩
    rw [List.length_nil, PortRange.nextPort_of_round (.inr r.others_pos), Nat.zero_mod]
    exact r.portToTry_min
  | append_singleton outcomes connected ih =>
    obtain ⟨t, ht, hstep⟩ := run_concat_iff.1 h
    rw [List.length_append, List.length_singleton] at hround ⊢
    have hlt : r.listenPort ≠ r.portMax ∨ outcomes.length < r.others := hround
    obtain ⟨htried, hport⟩ := ih ht (hlt.imp_right Nat.le_of_lt)
    obtain ⟨hnone, hnext, _, _, hcurrent, _⟩ := tryPort_some hstep
    rw [hport hnone, PortRange.nextPort_of_round hlt] at hnext hcurrent
    refine ⟨?_, ?_⟩
    · rw [hnext, htried, rounds_succ]
    · intro hreturned
      rw [hcurrent hreturned]
      exact PortRange.portToTry_next hlt

/-- Where the own port is the last, the attempt after one round is made past it. -/
theorem run_past (h : run (tryPort r) (findPeer r) outcomes = some s)
    (hlisten : r.listenPort = r.portMax) (hlong : r.others < outcomes.length) :
    r.portMax + 1 ∈ s.tried := by
  have hsplit : outcomes = outcomes.take r.others ++
      outcomes[r.others] :: outcomes.drop (r.others + 1) := by
    rw [List.getElem_cons_drop, List.take_append_drop]
  rw [hsplit, run_append, Option.bind_eq_some_iff] at h
  obtain ⟨t, ht, hrest⟩ := h
  obtain ⟨u, hu, hafter⟩ := run_cons_iff.1 hrest
  have hlen : (outcomes.take r.others).length = r.others :=
    List.length_take_of_le (Nat.le_of_lt hlong)
  obtain ⟨_, hport⟩ := run_rounds ht (.inr hlen.le)
  obtain ⟨hnone, htried, _⟩ := tryPort_some hu
  rw [hport hnone, hlen, PortRange.nextPort, if_pos ⟨hlisten, rfl⟩] at htried
  apply (tried_begins hafter).subset
  rw [htried]
  exact List.mem_append_right _ List.mem_cons_self

theorem run_connects (h : run (tryPort r) (findPeer r) outcomes = some s) :
    s.connects = s.tried.map fun port => ⟨⟨127, 0, 0, 1⟩, htons port⟩ := by
  have hinv := run_preserves
    (I := fun u : Search => u.servaddr.sinAddr = ⟨127, 0, 0, 1⟩ ∧
      u.connects = u.tried.map fun port => ⟨⟨127, 0, 0, 1⟩, htons port⟩) ?_ ⟨rfl, rfl⟩ h
  · exact hinv.2
  · intro u c v hu hstep
    obtain ⟨_, htried, hconnects, haddr, _⟩ := tryPort_some hstep
    refine ⟨haddr.trans hu.1, ?_⟩
    rw [htried, hconnects, hu.1, hu.2, List.map_append]
    rfl

theorem htons_toNat {port : ℤ} (hmin : 0 ≤ port) (hmax : port ≤ 65535) :
    ((htons port).toNat : ℤ) = port := by
  obtain ⟨n, rfl⟩ := Int.eq_ofNat_of_zero_le hmin
  have hn : n < 2 ^ 16 := by omega
  have hmod : htons n = UInt16.ofNat n := by
    change UInt16.ofNat ((n : ℤ) % (2 ^ 16 : ℕ)).toNat = _
    rw [← Int.natCast_mod, Int.toNat_natCast, Nat.mod_eq_of_lt hn]
  rw [hmod, UInt16.toNat_ofNat_of_lt' hn]

theorem connects_tried (h : run (tryPort r) (findPeer r) outcomes = some s)
    (hcovers : CoversRange r s.tried) (hmin : 0 ≤ r.portMin) (hmax : r.portMax ≤ 65535) :
    s.connects.map (fun sa => (sa.sinPort.toNat : ℤ)) = s.tried := by
  rw [run_connects h, List.map_map]
  conv_rhs => rw [← List.map_id s.tried]
  apply List.map_congr_left
  intro port hport
  have hrange := hcovers.inRange port hport
  exact htons_toNat (by omega) (by omega)

theorem portToTry_le {currentPort : ℤ} (h : r.portMin ≤ currentPort) :
    r.portMin ≤ portToTry r currentPort ∧ portToTry r currentPort ≤ r.portMax + 1 := by
  have hlt := r.min_lt_max
  unfold portToTry
  dsimp only
  split_ifs <;> omega

theorem run_currentPort (h : run (tryPort r) (findPeer r) outcomes = some s)
    (hnone : s.returned = none) :
    r.portMin ≤ s.currentPort ∧ s.currentPort ≤ r.portMax + 2 := by
  have hinv := run_preserves
    (I := fun u : Search => u.returned = none →
      r.portMin ≤ u.currentPort ∧ u.currentPort ≤ r.portMax + 2) ?_ ?_ h
  · exact hinv hnone
  · intro u c v hu hstep hv
    obtain ⟨hreturned, _, _, _, hcurrent, _⟩ := tryPort_some hstep
    have hport := portToTry_le (hu hreturned).1
    rw [hcurrent hv]
    omega
  · intro _
    have hlt := r.min_lt_max
    exact ⟨le_refl r.portMin, by change r.portMin ≤ r.portMax + 2; omega⟩

theorem run_returned {port : ℤ} (h : run (tryPort r) (findPeer r) outcomes = some s)
    (hport : s.returned = some port) : s.tried.getLast? = some port := by
  cases outcomes using List.reverseRecOn with
  | nil =>
    cases h
    cases hport
  | append_singleton outcomes connected =>
    obtain ⟨t, _, hstep⟩ := run_concat_iff.1 h
    obtain ⟨_, htried, _, _, _, hreturned⟩ := tryPort_some hstep
    rw [htried, hreturned port hport, List.getLast?_concat]

end Runs

/-- The scan keeps to the other ports of the range and tries each of them once a
    round exactly if the own port is not the last one or no round is completed. -/
theorem scan_coversRange_iff (r : PortRange) (outcomes : List Bool) (s : Search)
    (h : run (tryPort r) (findPeer r) outcomes = some s) :
    CoversRange r s.tried ↔
      r.listenPort ≠ r.portMax ∨ (outcomes.length : ℤ) ≤ r.portMax - r.portMin := by
  have hothers := r.coe_others
  constructor
  · intro hcovers
    by_contra hno
    obtain ⟨hlisten, hlong⟩ := not_or.1 hno
    have hpast := run_past h (not_not.1 hlisten) (by omega)
    have hle := (hcovers.inRange _ hpast).2.1
    omega
  · intro hround
    rw [(run_rounds h (hround.imp_right (by omega))).1]
    exact r.rounds_coversRange _

/-- `PORT_MIN` and `PORT_MAX` as they are defined. -/
def chatPorts (listenPort : ℤ) (hmin : 11000 ≤ listenPort) (hmax : listenPort ≤ 11010) :
    PortRange :=
  ⟨11000, 11010, listenPort, by decide, hmin, hmax⟩

def middlePort : PortRange := chatPorts 11003 (by decide) (by decide)

def lastPort : PortRange := chatPorts 11010 (by decide) (by decide)

theorem scan_covers_twice : ∃ s, run (tryPort middlePort) (findPeer middlePort)
    (List.replicate 20 false) = some s ∧ CoversRange middlePort s.tried :=
  ⟨_, rfl, (scan_coversRange_iff middlePort (List.replicate 20 false) _ rfl).2
    (.inl (by decide))⟩

/-- With the last port as its own, the eleventh attempt is at no port of the range. -/
theorem lastPort_overruns : ∃ s, run (tryPort lastPort) (findPeer lastPort)
    (List.replicate 11 false) = some s ∧ s.tried.getLast? = some 11011 ∧
      ¬ CoversRange lastPort s.tried := by
  refine ⟨_, rfl, by decide, fun h => ?_⟩
  exact absurd (h.inRange 11011 (by decide)).2.1 (by decide)

end LanChat.PortScan

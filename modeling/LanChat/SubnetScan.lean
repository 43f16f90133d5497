import LanChat.HostScan

set_option autoImplicit false

/-!
# The host scans of v2 and v3 on every address and start

Both write the number of a host behind the last dot and ask `Inet_pton` for the
address. The buffer holds three characters of the number. `inet_aton`, by which
`main` has read the address, is that of the C library and may read any. Of
`inet_pton` only what is documented is used.
-/
namespace LanChat.SubnetScan
open CStrings HexText SocketAddresses TransitionRuns ChatProcess DottedQuads HostScan

/-- `CHAT_PORT` of v2, which is not that of the later versions. -/
def connectPort : UInt16 := 11000

/-- The variables of `find_peer` in v2, and the addresses given to `connect`. -/
structure ConnectScan where
  subnetAddress : Bytes
  i : ℤ
  servaddr : SockAddr
  phase : ScanPhase
  printed : Bytes
  connects : List SockAddr
  deriving DecidableEq, Repr

section Connects

variable (pton : Bytes → Option InAddr)

/-- The loop body up to `connect`. The number is raised before it is known
    whether the address is one. -/
def tryConnect (s : ConnectScan) : ConnectScan :=
  let tryAddress := snprintf (s.subnetAddress.length + 4) (s.subnetAddress ++ intText s.i)
  let trying := { s with printed := s.printed ++ ascii "Trying " ++ tryAddress ++ ascii "\n" }
  if s.i = 2 ^ 31 - 1 then { trying with phase := .overflow }
  else match pton tryAddress with
    | none => { trying with
        i := s.i + 1
        phase := .quit (ascii "inet_pton error for " ++ tryAddress) }
    | some addr => { trying with
        i := s.i + 1
        servaddr := { s.servaddr with sinAddr := addr }
        connects := s.connects ++ [{ s.servaddr with sinAddr := addr }] }

/-- What follows a `connect`, up to the next one. -/
def afterConnect (s : ConnectScan) (connected : Bool) : Option ConnectScan :=
  match s.phase with
  | .probing =>
    if connected then some { s with phase := .bound, printed := s.printed ++ ascii "Bound!\n" }
    else some (tryConnect pton s)
  | _ => none

def findPeerConnect (subnetAddress : Bytes) (startIdx : ℤ) : ConnectScan :=
  match throughLastDot subnetAddress with
  | none => ⟨subnetAddress, startIdx, ⟨⟨0, 0, 0, 0⟩, connectPort⟩, .noDot, [], []⟩
  | some net => tryConnect pton ⟨net, startIdx, ⟨⟨0, 0, 0, 0⟩, connectPort⟩, .probing, [], []⟩

end Connects

/-- The hosts that have been probed. -/
def probedHosts (s : Scan) : List InAddr := (packets s.acts).map fun p => p.dst.sinAddr

def ConnectScan.hosts (s : ConnectScan) : List InAddr := s.connects.map SockAddr.sinAddr

/-- After this many probes have failed, every probe has been at its host, the
    last one is still waited for, or the subnet has been left. -/
structure ProbesSubnet (addr : InAddr) (start : ℤ) (k : ℕ) (phase : ScanPhase)
    (hosts : List InAddr) : Prop where
  defined : phase ≠ .noDot ∧ phase ≠ .overflow
  sent : phase ≠ .sendError
  count : hosts.length = if phase = .probing then k + 1 else k
  inSubnet : ∀ (j : ℕ) host, hosts[j]? = some host →
    0 ≤ start + j ∧ start + j ≤ 255 ∧ host = hostOf addr (start + j).toNat
  distinct : hosts.Nodup
  rejected : ∀ text, phase = .quit text → start + k < 0 ∨ 255 < start + k
  ends : k ≤ 256

/-- What the first three digits of a number make. -/
def leadingThree (n : ℕ) : ℕ := if n < 1000 then n else leadingThree (n / 10)

/-- What is documented of `inet_pton` and used of it: the last of the decimal parts
    is put into the last octet if it is at most 255, and a sign is no part. -/
structure ReadsParts (pton : Bytes → Option InAddr) : Prop where
  part : ∀ (front : Bytes) (n : ℕ), n < 1000 → pton (front ++ [46] ++ numeral 10 n) =
    if n ≤ 255 then (pton (front ++ [46] ++ ascii "0")).map (hostOf · n) else none
  sign : ∀ front rest : Bytes, pton (front ++ [46] ++ 45 :: rest) = none

/-- A start in the subnet is completed to its address, and one beyond it is not
    cut to the number of a host. -/
def Completable (pton : Bytes → Option InAddr) (net : Bytes) (addr : InAddr) (start : ℤ) : Prop :=
  (0 ≤ start → start ≤ 255 → pton (net ++ ascii "0") = some (hostOf addr 0)) ∧
  (1000 ≤ start → leadingThree start.toNat ≤ 255 → pton (net ++ ascii "0") = none)

/-- The text has a dot, and what is before its last part can be completed. -/
def Completes (pton : Bytes → Option InAddr) (subnetAddress : Bytes) (addr : InAddr)
    (start : ℤ) : Prop :=
  ∃ net, throughLastDot subnetAddress = some net ∧ Completable pton net addr start

/-- A request can be sent to every host of the subnet from the start on. -/
def Sendable (sends : InAddr → Bool) (addr : InAddr) (start : ℤ) : Prop :=
  0 ≤ start → ∀ n : ℕ, start ≤ n → n ≤ 255 → sends (hostOf addr n) = true

/-- The address that the number of a host makes. -/
def tried (pton : Bytes → Option InAddr) (net : Bytes) (i : ℤ) : Option InAddr :=
  pton (snprintf (net.length + 4) (net ++ intText i))

theorem leadingThree_small {n : ℕ} (h : n < 1000) : leadingThree n = n := by
  rw [leadingThree, if_pos h]

theorem three_le_numeral {n : ℕ} (h : 100 ≤ n) : 3 ≤ (numeral 10 n).length := by
  rw [numeral_eq (by decide), if_neg (by omega), numeral_eq (by decide), if_neg (by omega),
    List.length_append, List.length_append]
  have hpos : 0 < (numeral 10 (n / 10 / 10)).length := by
    rw [numeral_eq (by decide)]
    split_ifs <;> simp
  simp only [List.length_singleton]
  omega

theorem numeral_take_three (n : ℕ) : (numeral 10 n).take 3 = numeral 10 (leadingThree n) := by
  induction n using leadingThree.induct with
  | case1 n h =>
    rw [leadingThree_small h]
    exact List.take_of_length_le (numeral_length_three h)
  | case2 n h ih =>
    rw [leadingThree, if_neg h, ← ih, numeral_eq (by decide), if_neg (by omega)]
    exact List.take_append_of_le_length (three_le_numeral (by omega))

theorem run_ptonStep_minus (s : Pton) (text : Bytes) : run ptonStep s (45 :: text) = none := by
  have hdigit : isdigit 45 = false := by decide
  simp [run, ptonStep, hdigit]

/-- The `inet_pton` of `libfree` is as it is documented. -/
theorem readsParts_inetPton : ReadsParts inetPton where
  part front n _ := by
    have hzero : ascii "0" = numeral 10 0 := rfl
    rw [hzero, inetPton_numeral]
    rfl
  sign front rest := by
    rw [inetPton, run_append]
    cases run ptonStep ⟨false, 0, [], 0⟩ (front ++ [46]) with
    | none => rfl
    | some s =>
      rw [Option.bind_some, run_ptonStep_minus]
      rfl

theorem leadingThree_lt (n : ℕ) : leadingThree n < 1000 := by
  induction n using leadingThree.induct with
  | case1 n h => rwa [leadingThree_small h]
  | case2 n h ih => rwa [leadingThree, if_neg h]

/-- The number is cut to three characters, and a sign is none of an address. -/
theorem tried_eq {pton : Bytes → Option InAddr} (hpton : ReadsParts pton) (front : Bytes) (i : ℤ) :
    tried pton (front ++ [46]) i =
      if 0 ≤ i ∧ leadingThree i.toNat ≤ 255 then
        (pton (front ++ [46] ++ ascii "0")).map fun addr => hostOf addr (leadingThree i.toNat)
      else none := by
  have hcut : snprintf ((front ++ [46]).length + 4) (front ++ [46] ++ intText i) =
      front ++ [46] ++ (intText i).take 3 := List.take_length_add_append 3
  rw [tried, hcut]
  by_cases hneg : i < 0
  · have hminus : (intText i).take 3 = 45 :: (numeral 10 i.natAbs).take 2 := by
      rw [intText, if_pos hneg]
      rfl
    rw [if_neg (by omega), hminus, hpton.sign]
  · have htext : intText i = numeral 10 i.toNat := by
      rw [intText, if_neg hneg, List.nil_append]
      congr 1
      omega
    rw [htext, numeral_take_three, hpton.part _ _ (leadingThree_lt _)]
    have hnonneg : 0 ≤ i := Int.not_lt.1 hneg
    simp only [hnonneg, true_and]

/-- The next number has been tried: the request is out, or the scan has ended. -/
def Tries (sys : Platform) (net : Bytes) (i : ℤ) (hosts hosts' : List InAddr)
    (phase' : ScanPhase) : Prop :=
  match tried sys.inetPton net i with
  | none => (∃ text, phase' = .quit text) ∧ hosts' = hosts
  | some addr =>
    if sys.sends addr then phase' = .probing ∧ hosts' = hosts ++ [addr]
    else phase' = .sendError ∧ hosts' = hosts

/-- What the scans of both versions have in common: `i` is the number of the last
    host that was tried. -/
structure Scanner (σ α : Type*) where
  sys : Platform
  step : σ → α → Option σ
  phase : σ → ScanPhase
  subnet : σ → Bytes
  i : σ → ℤ
  hosts : σ → List InAddr
  stops : ∀ s a t, step s a = some t → phase s = .probing
  turn : ∀ s a t, step s a = some t → i s ≤ 255 →
    phase t = .bound ∧ hosts t = hosts s ∨
    Tries sys (subnet s) (i s + 1) (hosts s) (hosts t) (phase t) ∧
      subnet t = subnet s ∧ i t = i s + 1
  goesOn : ∀ s, phase s = .probing → i s ≤ 255 → ∃ a t, step s a = some t ∧ phase t ≠ .bound

/-- The hosts of so many numbers from `start` on. -/
def subnetHosts (addr : InAddr) (start n : ℕ) : List InAddr :=
  (List.range n).map fun j => hostOf addr (start + j)

/-- The hosts from `start` on have been probed in turn, as far as the last one. -/
structure Walked (addr : InAddr) (start k : ℕ) (phase : ScanPhase) (hosts : List InAddr) :
    Prop where
  defined : phase ≠ .noDot ∧ phase ≠ .overflow
  sent : phase ≠ .sendError
  hosts_eq : hosts = subnetHosts addr start (if phase = .probing then k + 1 else k)
  le : start + (if phase = .probing then k + 1 else k) ≤ 256
  rejected : ∀ text, phase = .quit text → start + k = 256

theorem subnetHosts_succ (addr : InAddr) (start n : ℕ) :
    subnetHosts addr start (n + 1) = subnetHosts addr start n ++ [hostOf addr (start + n)] := by
  rw [subnetHosts, List.range_succ, List.map_append]
  rfl

theorem subnetHosts_nodup {addr : InAddr} {start n : ℕ} (h : start + n ≤ 256) :
    (subnetHosts addr start n).Nodup := by
  apply List.Nodup.map_on _ List.nodup_range
  intro j hj j' hj' heq
  have hd := congrArg (fun a => a.d.toNat) heq
  simp only [hostOf, UInt8.toNat_ofNat'] at hd
  rw [List.mem_range] at hj hj'
  omega

theorem Walked.probesSubnet {addr : InAddr} {start k : ℕ} {phase : ScanPhase}
    {hosts : List InAddr} (h : Walked addr start k phase hosts) :
    ProbesSubnet addr start k phase hosts := by
  obtain ⟨hdefined, hsent, rfl, hle, hrejected⟩ := h
  refine ⟨hdefined, hsent, ?_, ?_, subnetHosts_nodup hle, ?_, ?_⟩
  · rw [subnetHosts, List.length_map, List.length_range]
  · intro j host hj
    rw [subnetHosts, List.getElem?_map, Option.map_eq_some_iff] at hj
    obtain ⟨j', hj', rfl⟩ := hj
    obtain ⟨hlt, rfl⟩ := List.getElem?_eq_some_iff.1 hj'
    rw [List.length_range] at hlt
    rw [List.getElem_range]
    refine ⟨by omega, by omega, ?_⟩
    congr 1
  · intro text hquit
    have hlast := hrejected text hquit
    omega
  · split_ifs at hle <;> omega

section Walks

variable {front : Bytes} {addr : InAddr} {start : ℕ} {phase : ScanPhase} {hosts : List InAddr}
  {sys : Platform} (hpton : ReadsParts sys.inetPton)
  (hbase : sys.inetPton (front ++ [46] ++ ascii "0") = some (hostOf addr 0))

include hpton hbase

theorem tried_host {n : ℕ} (hn : n ≤ 256) :
    tried sys.inetPton (front ++ [46]) n = if n ≤ 255 then some (hostOf addr n) else none := by
  rw [tried_eq hpton, Int.toNat_natCast, leadingThree_small (by omega), hbase]
  by_cases hle : n ≤ 255
  · rw [if_pos ⟨Int.natCast_nonneg n, hle⟩, if_pos hle]
    rfl
  · rw [if_neg (fun h => hle h.2), if_neg hle]

/-- Behind the hosts that have been probed the next one is, or the end. -/
theorem tries_walked {m : ℕ} (hsends : Sendable sys.sends addr start) (hm : start + m ≤ 256)
    (h : Tries sys (front ++ [46]) ((start + m : ℕ) : ℤ) (subnetHosts addr start m) hosts phase) :
    Walked addr start m phase hosts := by
  rw [Tries, tried_host hpton hbase hm] at h
  by_cases hle : start + m ≤ 255
  · have hsend := hsends (Int.natCast_nonneg start) (start + m) (by omega) hle
    rw [if_pos hle] at h
    dsimp only at h
    rw [if_pos hsend] at h
    obtain ⟨rfl, rfl⟩ := h
    refine ⟨⟨nofun, nofun⟩, nofun, ?_, ?_, nofun⟩
    · rw [if_pos rfl, subnetHosts_succ]
    · rw [if_pos rfl]
      omega
  · rw [if_neg hle] at h
    obtain ⟨⟨text, rfl⟩, rfl⟩ := h
    refine ⟨⟨nofun, nofun⟩, nofun, ?_, ?_, ?_⟩
    · rw [if_neg nofun]
    · rw [if_neg nofun]
      exact hm
    · intro _ _
      omega

/-- A host that is tried without an `err_sys` has been sent a request. -/
theorem tries_sent {m : ℕ} (hm : start + m ≤ 255) {before : List InAddr}
    (h : Tries sys (front ++ [46]) ((start + m : ℕ) : ℤ) before hosts phase)
    (hsent : phase ≠ .sendError) :
    sys.sends (hostOf addr (start + m)) = true ∧ phase = .probing := by
  rw [Tries, tried_host hpton hbase (by omega), if_pos hm] at h
  dsimp only at h
  split_ifs at h with hsend
  · exact ⟨hsend, h.1⟩
  · exact absurd h.1 hsent

end Walks

section Runs

variable {σ α : Type*} (M : Scanner σ α) {s₀ s : σ} {as : List α} {front : Bytes} {addr : InAddr}
  {start : ℕ} (hpton : ReadsParts M.sys.inetPton)
  (hbase : M.sys.inetPton (front ++ [46] ++ ascii "0") = some (hostOf addr 0))
  (htries : Tries M.sys (front ++ [46]) (start : ℤ) [] (M.hosts s₀) (M.phase s₀))
  (hsubnet : M.subnet s₀ = front ++ [46]) (hi : M.i s₀ = start)

include hpton hbase htries hsubnet hi

theorem run_walked (hsends : Sendable M.sys.sends addr start) (hstart : start ≤ 255)
    (h : run M.step s₀ as = some s) :
    Walked addr start as.length (M.phase s) (M.hosts s) ∧
      (M.phase s = .probing → M.subnet s = front ++ [46] ∧ M.i s = (start + as.length : ℕ)) := by
  induction as using List.reverseRecOn generalizing s with
  | nil =>
    cases h
    exact ⟨tries_walked (m := 0) hpton hbase hsends (by omega) htries, fun _ => ⟨hsubnet, hi⟩⟩
  | append_singleton as a ih =>
    obtain ⟨t, ht, hstep⟩ := run_concat_iff.1 h
    obtain ⟨hwalked, hprobing⟩ := ih ht
    have hphase := M.stops t a s hstep
    obtain ⟨hnet, hnum⟩ := hprobing hphase
    have hhosts := hwalked.hosts_eq
    have hle := hwalked.le
    rw [hphase, if_pos rfl] at hhosts hle
    rw [List.length_append, List.length_singleton]
    rcases M.turn t a s hstep (by omega) with ⟨hbound, hsame⟩ | ⟨hnext, hsubnet', hi'⟩
    · rw [hbound, hsame]
      refine ⟨⟨⟨nofun, nofun⟩, nofun, ?_, ?_, nofun⟩, nofun⟩
      · rw [if_neg nofun, hhosts]
      · rw [if_neg nofun]
        omega
    · have hnumber : M.i t + 1 = (start + (as.length + 1) : ℕ) := by
        rw [hnum]
        rfl
      rw [hnet, hnumber, hhosts] at hnext
      refine ⟨tries_walked hpton hbase hsends (by omega) hnext, fun _ => ⟨hsubnet'.trans hnet, ?_⟩⟩
      rw [hi', hnumber]

/-- A scan that never ends by `Sendto` gets as far as any host by timeouts. -/
theorem run_sent (hsent : ∀ as s, run M.step s₀ as = some s → M.phase s ≠ .sendError) {m : ℕ}
    (hm : start + m ≤ 255) : M.sys.sends (hostOf addr (start + m)) = true ∧
      ∃ as s, run M.step s₀ as = some s ∧ M.phase s = .probing ∧ M.subnet s = front ++ [46] ∧
        M.i s = (start + m : ℕ) := by
  induction m with
  | zero =>
    obtain ⟨hsend, hphase⟩ := tries_sent (m := 0) hpton hbase hm htries (hsent [] s₀ rfl)
    exact ⟨hsend, [], s₀, rfl, hphase, hsubnet, hi⟩
  | succ m ih =>
    obtain ⟨_, as, s, hrun, hphase, hnet, hnum⟩ := ih (by omega)
    obtain ⟨a, t, hstep, hbound⟩ := M.goesOn s hphase (by omega)
    have hrun' := run_concat_iff.2 ⟨s, hrun, hstep⟩
    obtain ⟨hnext, hsubnet', hi'⟩ := (M.turn s a t hstep (by omega)).resolve_left
      fun h => hbound h.1
    have hnumber : M.i s + 1 = (start + (m + 1) : ℕ) := by
      rw [hnum]
      rfl
    rw [hnet, hnumber] at hnext
    obtain ⟨hsend, hphase'⟩ := tries_sent hpton hbase hm hnext (hsent _ t hrun')
    exact ⟨hsend, _, t, hrun', hphase', hsubnet'.trans hnet, hi'.trans hnumber⟩

end Runs

theorem run_stopped {σ α : Type*} (M : Scanner σ α) {s₀ s : σ} {as : List α}
    (hphase : M.phase s₀ ≠ .probing) (h : run M.step s₀ as = some s) : as = [] ∧ s = s₀ := by
  cases as with
  | nil =>
    cases h
    exact ⟨rfl, rfl⟩
  | cons a as =>
    obtain ⟨t, ht, _⟩ := run_cons_iff.1 h
    exact absurd (M.stops s₀ a t ht) hphase

section Scanners

variable {front : Bytes} {addr : InAddr} {start : ℤ} {sys : Platform}
  (hpton : ReadsParts sys.inetPton)

theorem hostOf_eq_iff (a b : InAddr) (n : ℕ) :
    hostOf a n = hostOf b n ↔ hostOf a 0 = hostOf b 0 := by
  simp [hostOf]

include hpton

theorem tried_none_of_outside (hout : start < 0 ∨ 255 < start)
    (h : 1000 ≤ start → leadingThree start.toNat ≤ 255 →
      sys.inetPton (front ++ [46] ++ ascii "0") = none) :
    tried sys.inetPton (front ++ [46]) start = none := by
  rw [tried_eq hpton]
  split_ifs with hcut
  · have hlong : 1000 ≤ start := by
      by_contra hshort
      rw [leadingThree_small (by omega)] at hcut
      omega
    rw [h hlong hcut.2, Option.map_none]
  · rfl

theorem inetPton_zero_fixed {host : InAddr}
    (h : sys.inetPton (front ++ [46] ++ ascii "0") = some host) : hostOf host 0 = host := by
  have hzero : ascii "0" = numeral 10 0 := rfl
  have hself := hpton.part front 0 (by decide)
  rw [if_pos (Nat.zero_le 255), ← hzero, h, Option.map_some, Option.some.injEq] at hself
  exact hself.symm

theorem completable_of_tries {hosts : List InAddr} {phase : ScanPhase}
    (htries : Tries sys (front ++ [46]) start [] hosts phase)
    (h : ProbesSubnet addr start 0 phase hosts) :
    Completable sys.inetPton (front ++ [46]) addr start := by
  rw [Tries] at htries
  constructor
  · intro hmin hmax
    cases ht : tried sys.inetPton (front ++ [46]) start with
    | none =>
      rw [ht] at htries
      obtain ⟨⟨text, rfl⟩, _⟩ := htries
      have hleft := h.rejected text rfl
      omega
    | some host =>
      rw [ht] at htries
      dsimp only at htries
      split_ifs at htries
      · obtain ⟨_, rfl⟩ := htries
        have hhost := (h.inSubnet 0 host rfl).2.2
        rw [tried_eq hpton, leadingThree_small (by omega), if_pos ⟨hmin, by omega⟩,
          Option.map_eq_some_iff] at ht
        obtain ⟨base, hbase, rfl⟩ := ht
        have hnum : (start + (0 : ℕ)).toNat = start.toNat := by rw [Int.natCast_zero, Int.add_zero]
        rw [hnum, hostOf_eq_iff] at hhost
        rw [hbase, ← inetPton_zero_fixed hpton hbase, hhost]
      · exact absurd htries.1 h.sent
  · intro hlong hcut
    by_contra hsome
    obtain ⟨base, hbase⟩ := Option.ne_none_iff_exists'.1 hsome
    have ht : tried sys.inetPton (front ++ [46]) start =
        some (hostOf base (leadingThree start.toNat)) := by
      rw [tried_eq hpton, if_pos ⟨by omega, hcut⟩, hbase, Option.map_some]
    rw [ht] at htries
    dsimp only at htries
    split_ifs at htries
    · obtain ⟨_, rfl⟩ := htries
      have hle := (h.inSubnet 0 _ rfl).2.1
      omega
    · exact absurd htries.1 h.sent

end Scanners

/-- A scan that has begun so probes its subnet in every run exactly if the text can
    be completed and every host can be sent a request. -/
theorem scanner_probesSubnet_iff {σ α : Type*} (M : Scanner σ α) {s₀ : σ} {front : Bytes}
    {addr : InAddr} {start : ℤ} (hpton : ReadsParts M.sys.inetPton)
    (htries : Tries M.sys (front ++ [46]) start [] (M.hosts s₀) (M.phase s₀))
    (hsubnet : M.subnet s₀ = front ++ [46]) (hi : M.i s₀ = start) :
    (∀ as s, run M.step s₀ as = some s →
      ProbesSubnet addr start as.length (M.phase s) (M.hosts s)) ↔
    Completable M.sys.inetPton (front ++ [46]) addr start ∧ Sendable M.sys.sends addr start := by
  constructor
  · intro h
    have hcompletable := completable_of_tries hpton htries (h [] s₀ rfl)
    refine ⟨hcompletable, fun hmin n hn hmax => ?_⟩
    obtain ⟨k, rfl⟩ := Int.eq_ofNat_of_zero_le hmin
    obtain ⟨m, rfl⟩ := Nat.exists_eq_add_of_le (Int.ofNat_le.1 hn)
    exact (run_sent M hpton (hcompletable.1 hmin (by omega)) htries hsubnet hi
      (fun as s hrun => (h as s hrun).sent) hmax).1
  · rintro ⟨⟨hin, hout⟩, hsends⟩ as s hrun
    by_cases hstart : 0 ≤ start ∧ start ≤ 255
    · obtain ⟨n, rfl⟩ := Int.eq_ofNat_of_zero_le hstart.1
      exact (run_walked M hpton (hin hstart.1 hstart.2) htries hsubnet hi hsends (by omega)
        hrun).1.probesSubnet
    · rw [Tries, tried_none_of_outside hpton (by omega) hout] at htries
      obtain ⟨⟨text, hquit⟩, hhosts⟩ := htries
      obtain ⟨rfl, rfl⟩ := run_stopped M (by rw [hquit]; nofun) hrun
      rw [hquit, hhosts]
      refine ⟨⟨nofun, nofun⟩, nofun, ?_, nofun, List.nodup_nil, ?_, Nat.zero_le _⟩
      · rw [if_neg nofun]
        rfl
      · intro _ _
        rw [List.length_nil]
        omega

theorem tryHost_tries (sys : Platform) (sock : SockAddr) (s : Scan) (hphase : s.phase = .probing) :
    let t := tryHostOn sys sock s
    Tries sys s.subnetAddress s.i (probedHosts s) (probedHosts t) t.phase ∧
      t.subnetAddress = s.subnetAddress ∧ t.i = s.i := by
  have htext : tried sys.inetPton s.subnetAddress s.i = sys.inetPton
      (snprintf (s.subnetAddress.length + 4) (s.subnetAddress ++ intText s.i)) := rfl
  dsimp only
  rw [Tries, htext, tryHostOn, updateTryAddress]
  cases sys.inetPton (snprintf (s.subnetAddress.length + 4) (s.subnetAddress ++ intText s.i)) with
  | none => exact ⟨⟨⟨_, rfl⟩, rfl⟩, rfl, rfl⟩
  | some addr =>
    dsimp only [Option.map_some]
    split_ifs
    · refine ⟨⟨hphase, ?_⟩, rfl, rfl⟩
      dsimp only [probedHosts]
      rw [packets_append, packets_append, packets_printf, List.append_nil, List.map_append]
      rfl
    · refine ⟨⟨rfl, ?_⟩, rfl, rfl⟩
      dsimp only [probedHosts]
      rw [packets_append, packets_append, packets_printf, List.append_nil, packets_errSys,
        List.append_nil]

theorem tryConnect_tries (pton : Bytes → Option InAddr) (s : ConnectScan)
    (hphase : s.phase = .probing) (hi : s.i ≠ 2 ^ 31 - 1) :
    let t := tryConnect pton s
    Tries ⟨pton, fun _ => true⟩ s.subnetAddress s.i s.hosts t.hosts t.phase ∧
      t.subnetAddress = s.subnetAddress ∧ t.i = s.i + 1 := by
  have htext : tried pton s.subnetAddress s.i = pton
      (snprintf (s.subnetAddress.length + 4) (s.subnetAddress ++ intText s.i)) := rfl
  dsimp only
  rw [Tries, tryConnect, if_neg hi]
  dsimp only
  rw [htext]
  cases pton (snprintf (s.subnetAddress.length + 4) (s.subnetAddress ++ intText s.i)) with
  | none => exact ⟨⟨⟨_, rfl⟩, rfl⟩, rfl, rfl⟩
  | some addr =>
    refine ⟨⟨hphase, ?_⟩, rfl, rfl⟩
    dsimp only [ConnectScan.hosts]
    rw [List.map_append]
    rfl

section Datagrams

variable {sys : Platform} {sock : SockAddr} {s t : Scan}

theorem probe_stops {got : Probe} (h : probeOn sys sock s got = some t) : s.phase = .probing := by
  unfold probeOn at h
  split at h
  · assumption
  · cases h

theorem probe_turn {got : Probe} (h : probeOn sys sock s got = some t) (hi : s.i ≤ 255) :
    t.phase = .bound ∧ probedHosts t = probedHosts s ∨
      Tries sys s.subnetAddress (s.i + 1) (probedHosts s) (probedHosts t) t.phase ∧
        t.subnetAddress = s.subnetAddress ∧ t.i = s.i + 1 := by
  have hphase := probe_stops h
  rw [probeOn, hphase] at h
  dsimp only at h
  rw [if_neg (by omega)] at h
  split_ifs at h with hconfirmed
  · cases h
    refine .inl ⟨rfl, ?_⟩
    dsimp only [probedHosts]
    rw [packets_append, packets_printf, List.append_nil]
  · cases h
    exact .inr (tryHost_tries sys sock ⟨s.subnetAddress, s.i + 1,
      (got.2.map Datagram.src).getD s.servaddr, .probing, s.acts⟩ rfl)

theorem tryHost_ne_bound (h : s.phase = .probing) : (tryHostOn sys sock s).phase ≠ .bound := by
  unfold tryHostOn
  split
  · nofun
  · dsimp only
    split_ifs
    · rw [h]
      nofun
    · nofun

/-- The next host is tried after a timeout. -/
theorem probe_goesOn (hphase : s.phase = .probing) (hi : s.i ≤ 255) :
    ∃ got t, probeOn sys sock s got = some t ∧ t.phase ≠ .bound := by
  refine ⟨(clean, none), tryHostOn sys sock { s with i := s.i + 1 }, ?_, tryHost_ne_bound hphase⟩
  rw [probeOn, hphase]
  dsimp only
  rw [if_neg (by omega), OfferReading.authTryConfirmIterate, if_neg (by decide)]
  rw [← hphase]
  rfl

end Datagrams

section Connects

variable {pton : Bytes → Option InAddr} {s t : ConnectScan} {connected : Bool}

theorem afterConnect_stops (h : afterConnect pton s connected = some t) : s.phase = .probing := by
  unfold afterConnect at h
  split at h
  · assumption
  · cases h

theorem afterConnect_turn (h : afterConnect pton s connected = some t) (hi : s.i - 1 ≤ 255) :
    t.phase = .bound ∧ t.hosts = s.hosts ∨
      Tries ⟨pton, fun _ => true⟩ s.subnetAddress (s.i - 1 + 1) s.hosts t.hosts t.phase ∧
        t.subnetAddress = s.subnetAddress ∧ t.i - 1 = s.i - 1 + 1 := by
  have hphase := afterConnect_stops h
  rw [afterConnect, hphase] at h
  dsimp only at h
  split_ifs at h
  · cases h
    exact .inl ⟨rfl, rfl⟩
  · cases h
    obtain ⟨htries, hsubnet, hnext⟩ := tryConnect_tries pton s hphase (by omega)
    rw [Int.sub_add_cancel]
    refine .inr ⟨htries, hsubnet, ?_⟩
    rw [hnext, Int.add_sub_cancel]

theorem tryConnect_ne_bound (h : s.phase = .probing) : (tryConnect pton s).phase ≠ .bound := by
  unfold tryConnect
  dsimp only
  split_ifs
  · nofun
  · split
    · nofun
    · rw [h]
      nofun

theorem afterConnect_goesOn (hphase : s.phase = .probing) :
    ∃ connected t, afterConnect pton s connected = some t ∧ t.phase ≠ .bound := by
  refine ⟨false, tryConnect pton s, ?_, tryConnect_ne_bound hphase⟩
  rw [afterConnect, hphase]
  rfl

end Connects

/-- v3, where a probe is a request and the wait for an answer. -/
def datagramScanner (sys : Platform) (sock : SockAddr) : Scanner Scan Probe where
  sys := sys
  step := probeOn sys sock
  phase := Scan.phase
  subnet := Scan.subnetAddress
  i := Scan.i
  hosts := probedHosts
  stops := fun _ _ _ h => probe_stops h
  turn := fun _ _ _ h hi => probe_turn h hi
  goesOn := fun _ h hi => probe_goesOn h hi

/-- v2, where a probe is a `connect` and `i` has been raised before it. A `connect`
    that fails is an outcome like any other. -/
def connectScanner (pton : Bytes → Option InAddr) : Scanner ConnectScan Bool where
  sys := ⟨pton, fun _ => true⟩
  step := afterConnect pton
  phase := ConnectScan.phase
  subnet := ConnectScan.subnetAddress
  i := fun s => s.i - 1
  hosts := ConnectScan.hosts
  stops := fun _ _ _ h => afterConnect_stops h
  turn := fun _ _ _ h hi => afterConnect_turn h hi
  goesOn := fun _ h _ => afterConnect_goesOn h

section Versions

variable (subnetAddress : Bytes) (addr : InAddr) (start : ℤ)

theorem completes_iff {pton : Bytes → Option InAddr} {net : Bytes}
    (hdot : throughLastDot subnetAddress = some net) :
    Completes pton subnetAddress addr start ↔ Completable pton net addr start := by
  constructor
  · rintro ⟨net', hnet, h⟩
    rw [hdot] at hnet
    cases hnet
    exact h
  · exact fun h => ⟨net, hdot, h⟩

theorem not_completes {pton : Bytes → Option InAddr} (hdot : throughLastDot subnetAddress = none) :
    ¬ Completes pton subnetAddress addr start := by
  rintro ⟨net, hnet, _⟩
  rw [hdot] at hnet
  cases hnet

theorem datagramScan_iff {sys : Platform} (hpton : ReadsParts sys.inetPton) (sock : SockAddr) :
    (∀ probes s, run (probeOn sys sock) (findPeerOn sys sock subnetAddress start) probes = some s →
      ProbesSubnet addr start probes.length s.phase (probedHosts s)) ↔
    Completes sys.inetPton subnetAddress addr start ∧ Sendable sys.sends addr start := by
  cases hdot : throughLastDot subnetAddress with
  | none =>
    refine iff_of_false (fun h => ?_) fun h => not_completes _ _ _ hdot h.1
    have hnone := (h [] _ rfl).defined.1
    rw [findPeerOn, hdot] at hnone
    exact hnone rfl
  | some net =>
    obtain ⟨front, _, rfl, _, _⟩ := throughLastDot_eq_some hdot
    obtain ⟨htries, hsubnet, hi⟩ := tryHost_tries sys sock
      ⟨front ++ [46], start, ⟨⟨0, 0, 0, 0⟩, chatPort⟩, .probing, []⟩ rfl
    rw [findPeerOn, hdot, completes_iff _ _ _ hdot]
    exact @scanner_probesSubnet_iff _ _ (datagramScanner sys sock) _ front addr start hpton
      htries hsubnet hi

theorem connectScan_iff {pton : Bytes → Option InAddr} (hpton : ReadsParts pton) :
    (∀ outcomes s, run (afterConnect pton) (findPeerConnect pton subnetAddress start) outcomes =
        some s →
      ProbesSubnet addr start outcomes.length s.phase s.hosts) ↔
    Completes pton subnetAddress addr start ∧ start ≠ 2 ^ 31 - 1 := by
  cases hdot : throughLastDot subnetAddress with
  | none =>
    refine iff_of_false (fun h => ?_) fun h => not_completes _ _ _ hdot h.1
    have hnone := (h [] _ rfl).defined.1
    rw [findPeerConnect, hdot] at hnone
    exact hnone rfl
  | some net =>
    obtain ⟨front, _, rfl, _, _⟩ := throughLastDot_eq_some hdot
    rw [findPeerConnect, hdot, completes_iff _ _ _ hdot]
    by_cases hlast : start = 2 ^ 31 - 1
    · refine iff_of_false (fun h => ?_) (fun h => h.2 hlast)
      have hover := (h [] _ rfl).defined.2
      dsimp only at hover
      rw [tryConnect, if_pos hlast] at hover
      exact hover rfl
    · obtain ⟨htries, hsubnet, hi⟩ := tryConnect_tries pton
        ⟨front ++ [46], start, ⟨⟨0, 0, 0, 0⟩, connectPort⟩, .probing, [], []⟩ rfl hlast
      have hfirst : (connectScanner pton).i (tryConnect pton ⟨front ++ [46], start,
          ⟨⟨0, 0, 0, 0⟩, connectPort⟩, .probing, [], []⟩) = start := by
        change (tryConnect _ _).i - 1 = start
        rw [hi, Int.add_sub_cancel]
      have hscan := @scanner_probesSubnet_iff _ _ (connectScanner pton) _ front addr start hpton
        htries hsubnet hfirst
      exact hscan.trans ⟨fun h => ⟨h.1, hlast⟩, fun h => ⟨h.1, fun _ _ _ _ => rfl⟩⟩

end Versions

/-- Of an address that `main` has let pass, both scans probe the hosts of its
    subnet, and end, exactly if `inet_pton` completes the text to the address that
    `inet_aton` has read; v3 must be able to send to each host, and v2 to raise the
    start. -/
theorem scans_iff_completes (inetAton : Bytes → Option InAddr) (sys : Platform)
    (hpton : ReadsParts sys.inetPton) (sock : SockAddr) (subnetAddress : Bytes) (start : ℤ) :
    ∀ addr, inetAton subnetAddress = some addr →
      ((∀ probes s, run (probeOn sys sock) (findPeerOn sys sock subnetAddress start) probes =
          some s → ProbesSubnet addr start probes.length s.phase (probedHosts s)) ↔
        Completes sys.inetPton subnetAddress addr start ∧ Sendable sys.sends addr start) ∧
      ((∀ outcomes s, run (afterConnect sys.inetPton)
          (findPeerConnect sys.inetPton subnetAddress start) outcomes = some s →
          ProbesSubnet addr start outcomes.length s.phase s.hosts) ↔
        Completes sys.inetPton subnetAddress addr start ∧ start ≠ 2 ^ 31 - 1) := by
  intro addr _
  exact ⟨datagramScan_iff subnetAddress addr start hpton sock,
    connectScan_iff subnetAddress addr start hpton⟩

theorem completes_quad {start : ℤ} (hstart : start < 1000) :
    Completes inetPton (ascii "10.0.0.0") ⟨10, 0, 0, 0⟩ start :=
  ⟨ascii "10.0.0.", by decide, fun _ _ => by decide, fun hlong => absurd hlong (by omega)⟩

/-- Two hosts do not answer in v3, and the second does in v2. A dotted quad is read
    alike by `inet_aton` and `inet_pton`. -/
theorem scans_quad :
    (∃ s, run (probeOn plain ((host 1).sock .sockfd))
        (findPeerOn plain ((host 1).sock .sockfd) (ascii "10.0.0.0") 80)
        [(clean, none), (clean, none)] = some s ∧
      ProbesSubnet ⟨10, 0, 0, 0⟩ 80 2 s.phase (probedHosts s)) ∧
    ∃ s, run (afterConnect inetPton) (findPeerConnect inetPton (ascii "10.0.0.0") 80)
        [false, true] = some s ∧ ProbesSubnet ⟨10, 0, 0, 0⟩ 80 2 s.phase s.hosts := by
  obtain ⟨hdatagram, hconnect⟩ := scans_iff_completes inetPton plain readsParts_inetPton
    ((host 1).sock .sockfd) (ascii "10.0.0.0") 80 ⟨10, 0, 0, 0⟩ (by decide)
  refine ⟨⟨_, rfl, hdatagram.2 ⟨?_, fun _ _ _ _ => rfl⟩ [(clean, none), (clean, none)] _ rfl⟩,
    _, rfl, hconnect.2 ⟨?_, by decide⟩ [false, true] _ rfl⟩
  · exact completes_quad (by decide)
  · exact completes_quad (by decide)

/-- A network that has `.255` for its broadcast address. -/
def broadcasting : Platform := ⟨inetPton, fun addr => addr.d ≠ 255⟩

/-- An address without a dot, one of two parts, a number of four digits, the
    broadcast address, and the greatest number. -/
theorem scans_miss :
    (findPeerOn plain ((host 1).sock .sockfd) (ascii "10") 80).phase = .noDot ∧
    (findPeerOn plain ((host 1).sock .sockfd) (ascii "10.0") 80).phase =
      .quit (ascii "inet_pton error for 10.80") ∧
    probedHosts (findPeerOn plain ((host 1).sock .sockfd) (ascii "10.0.0.0") 1000) =
      [⟨10, 0, 0, 100⟩] ∧
    (run (probeOn broadcasting ((host 1).sock .sockfd))
      (findPeerOn broadcasting ((host 1).sock .sockfd) (ascii "10.0.0.0") 254)
      [(clean, none)]).map Scan.phase = some .sendError ∧
    (findPeerConnect inetPton (ascii "10.0.0.0") (2 ^ 31 - 1)).phase = .overflow ∧
    ¬ (∀ probes s, run (probeOn plain ((host 1).sock .sockfd))
        (findPeerOn plain ((host 1).sock .sockfd) (ascii "10") 80) probes = some s →
      ProbesSubnet ⟨0, 0, 0, 10⟩ 80 probes.length s.phase (probedHosts s)) ∧
    ¬ ∀ probes s, run (probeOn broadcasting ((host 1).sock .sockfd))
        (findPeerOn broadcasting ((host 1).sock .sockfd) (ascii "10.0.0.0") 254) probes = some s →
      ProbesSubnet ⟨10, 0, 0, 0⟩ 254 probes.length s.phase (probedHosts s) := by
  refine ⟨by decide, by decide, by decide, by decide, by decide, fun h => ?_, fun h => ?_⟩
  · exact (h [] _ rfl).defined.1 (by decide)
  · exact (h [(clean, none)] _ rfl).sent (by decide)

end LanChat.SubnetScan

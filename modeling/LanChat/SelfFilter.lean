import LanChat.ControlCollision

set_option autoImplicit false

/-!
# The self-reception filter of v4

`message_loop` is to ignore what its own host has sent. It compares the texts of
addresses, and no further than the text of its own goes.
-/
namespace LanChat.SelfFilter
open CStrings HexText FrameCodec SocketAddresses DatagramReceive ReceiveBounds ChatProcess
  ControlCollision

/-- Two addresses of one network, such that the last number of the first is what
    the last number of the second begins with: `10.0.0.1` and `10.0.0.17`. -/
def Shadows (addr other : InAddr) : Prop :=
  addr.a = other.a ∧ addr.b = other.b ∧ addr.c = other.c ∧
    (10 ≤ other.d.toNat ∧ addr.d.toNat = other.d.toNat / 10 ∨
      100 ≤ other.d.toNat ∧ addr.d.toNat = other.d.toNat / 100)

instance (addr other : InAddr) : Decidable (Shadows addr other) :=
  inferInstanceAs (Decidable (_ ∧ _))

theorem stop_notMem_numeral {b : UInt8} (hb : isxdigit b = false) (n : ℕ) : b ∉ numeral 10 n := by
  intro h
  have hdigit := numeral_isxdigit (by decide) (by decide) b h
  rw [hb] at hdigit
  cases hdigit

theorem numeral_byte_prefix_iff (m n : UInt8) : numeral 10 m.toNat <+: numeral 10 n.toNat ↔
    m = n ∨ 10 ≤ n.toNat ∧ m.toNat = n.toNat / 10 ∨ 100 ≤ n.toNat ∧ m.toNat = n.toNat / 100 := by
  have hn := n.toNat_lt
  rw [numeral_prefix_iff, numeral_prefix_iff, numeral_prefix_iff, UInt8.toNat_inj]
  have hdiv : n.toNat / 10 / 10 = n.toNat / 100 := Nat.div_div_eq_div_mul _ 10 10
  rw [hdiv]
  constructor
  · rintro (h | ⟨h10, h | ⟨h100, h | ⟨h1000, _⟩⟩⟩)
    · exact .inl h
    · exact .inr (.inl ⟨h10, h⟩)
    · exact .inr (.inr ⟨by omega, h⟩)
    · omega
  · rintro (h | ⟨h10, h⟩ | ⟨h100, h⟩)
    · exact .inl h
    · exact .inr ⟨h10, .inl h⟩
    · exact .inr ⟨by omega, .inr ⟨by omega, .inl h⟩⟩

/-- The port does not matter: a colon is in front of it. -/
theorem inetNtop_prefix_sockNtop (addr : InAddr) (sa : SockAddr) :
    inetNtop addr <+: sockNtop sa ↔ inetNtop addr <+: inetNtop sa.sinAddr := by
  have hcolon : 58 ∉ inetNtop addr := by
    have hdot : 58 ∉ ascii "." := by decide
    have hnumeral := fun n => stop_notMem_numeral (b := 58) (by decide) n
    simp only [inetNtop, List.mem_append, hdot, hnumeral, or_self, not_false_eq_true]
  rw [sockNtop]
  split_ifs with hport
  · exact prefix_append_stop_iff _ _ hcolon
  · rw [List.append_nil]

theorem inetNtop_prefix_iff (addr other : InAddr) :
    inetNtop addr <+: inetNtop other ↔ addr = other ∨ Shadows addr other := by
  have hdot := stop_notMem_numeral (b := 46) (by decide)
  have hnat : ∀ m n : UInt8, numeral 10 m.toNat = numeral 10 n.toNat ↔ m = n := by
    intro m n
    rw [numeral_injective.eq_iff, UInt8.toNat_inj]
  rw [inetNtop_dots, inetNtop_dots, append_stop_prefix_iff _ _ (hdot _) (hdot _),
    append_stop_prefix_iff _ _ (hdot _) (hdot _), append_stop_prefix_iff _ _ (hdot _) (hdot _),
    hnat, hnat, hnat, numeral_byte_prefix_iff, Shadows]
  obtain ⟨a, b, c, d⟩ := addr
  obtain ⟨a', b', c', d'⟩ := other
  simp only [InAddr.mk.injEq]
  rw [← and_or_left, ← and_or_left, ← and_or_left]

theorem not_shadows_self (addr : InAddr) : ¬ Shadows addr addr := by
  rintro ⟨_, _, _, h⟩
  omega

/-- What `message_loop` does with a datagram that it takes for its own. -/
def Ignored (sock : SockAddr) (p : Proc) (bindAddr : Bytes) (mem : Residue) (d : Datagram) : Prop :=
  onMessage sock p (.v4 bindAddr) mem d = (p, [.printf (ascii "Has data\n")])

/-- It goes on, and answers the datagram or prints it. -/
def Processed (sock : SockAddr) (p : Proc) (bindAddr : Bytes) (mem : Residue) (d : Datagram) :
    Prop :=
  ∃ acts, acts ≠ [] ∧ (onMessage sock p (.v4 bindAddr) mem d).2 =
    [.printf (ascii "Has data\n"), .printf (ascii "Received data\n")] ++ acts

section Message

variable {sock : SockAddr} {p : Proc} {bindAddr : Bytes} {mem : Residue} {d : Datagram}

theorem ignored_iff (hp : p.phase = .selecting) : Ignored sock p bindAddr mem d ↔
    (Receiver.v4 bindAddr).passes d.src = false ∧ msgLen mem d ≠ 0 := by
  unfold Ignored onMessage
  cases hpass : (Receiver.v4 bindAddr).passes d.src with
  | false =>
    by_cases hlen : msgLen mem d = 0
    · rw [receive_nothing _ hlen]
      refine iff_of_false (fun h => ?_) fun h => h.2 hlen
      have hphase := congrArg Proc.phase (Prod.mk.inj h).1
      simp [hp] at hphase
    · rw [(receive_dropped_iff hpass).2 hlen]
      simp [announce, hpass, hlen]
  | true =>
    simp only [Bool.true_eq_false, false_and, iff_false]
    cases hr : receive (.v4 bindAddr) mem d with
    | error f =>
      intro h
      have hphase := congrArg Proc.phase (Prod.mk.inj h).1
      simp [hp] at hphase
    | ok reaction => cases reaction <;> simp [announce, hpass, acceptActs]

theorem processed_iff : Processed sock p bindAddr mem d ↔
    (Receiver.v4 bindAddr).passes d.src = true ∧ DeclaresFive (headerText mem d) := by
  unfold Processed onMessage
  cases hpass : (Receiver.v4 bindAddr).passes d.src with
  | false =>
    refine iff_of_false ?_ (by simp)
    rintro ⟨acts, _, hacts⟩
    by_cases hlen : msgLen mem d = 0
    · rw [receive_nothing _ hlen] at hacts
      cases hacts
    · rw [(receive_dropped_iff hpass).2 hlen] at hacts
      simp [announce, hpass] at hacts
  | true =>
    rw [← inside_iff _ mem d hpass, and_iff_right rfl]
    constructor
    · rintro ⟨acts, _, hacts⟩
      cases hr : receive (.v4 bindAddr) mem d with
      | error f =>
        rw [hr] at hacts
        cases hacts
      | ok reaction => exact ⟨reaction, rfl⟩
    · rintro ⟨reaction, hr⟩
      have hreaction := ((receive_ok_iff hpass reaction).1 hr).2
      rw [hr]
      rw [reactionTo] at hreaction
      split_ifs at hreaction <;> subst hreaction
      · exact ⟨acceptActs sock d.src, by simp [acceptActs], by simp [announce, hpass]⟩
      · exact ⟨[.printf (visible mem d ++ ascii "\n")], by simp, by simp [announce, hpass]⟩

end Message

theorem passes_inetNtop_iff (addr : InAddr) (src : SockAddr) :
    (Receiver.v4 (inetNtop addr)).passes src = false ↔
      addr = src.sinAddr ∨ Shadows addr src.sinAddr := by
  rw [← inetNtop_prefix_iff, ← inetNtop_prefix_sockNtop, Receiver.passes, decide_eq_false_iff_not,
    not_not, strncmp_eq_zero_iff_left _ _ (zero_notMem_inetNtop addr)]

/-- With the text of `addr` as `bind_addr`, what `message_loop` ignores is what
    comes from `addr`, and it processes all the rest, except for what comes from
    an address that `addr` shadows, and for headers that lead out of the block. -/
theorem filter_exact_iff (addr : InAddr) (sock : SockAddr) (p : Proc) (mem : Residue)
    (d : Datagram) (hp : p.phase = .selecting) :
    ((Ignored sock p (inetNtop addr) mem d ↔ d.src.sinAddr = addr) ∧
      (d.src.sinAddr ≠ addr → Processed sock p (inetNtop addr) mem d)) ↔
      if d.src.sinAddr = addr then msgLen mem d ≠ 0
      else ¬ Shadows addr d.src.sinAddr ∧ DeclaresFive (headerText mem d) := by
  have hpass := passes_inetNtop_iff addr d.src
  rw [ignored_iff hp, processed_iff, ← Bool.not_eq_false, hpass]
  split_ifs with hown
  · simp [hown]
  · have hother : ¬ addr = d.src.sinAddr := fun e => hown e.symm
    simp only [hother, false_or, hown, iff_false, ne_eq, not_false_eq_true, true_implies]
    constructor
    · exact fun h => h.2
    · exact fun h => ⟨fun hignored => h.1 hignored.1, h⟩

def hello (src : InAddr) : Datagram := ⟨⟨src, 40000⟩, ascii "0010user: hello"⟩

theorem filter_exact_hello :
    Ignored ((host 1).sock .listenfd) ⟨.selecting, []⟩ (inetNtop ⟨10, 0, 0, 1⟩) clean
      (hello ⟨10, 0, 0, 1⟩) ∧
    Processed ((host 1).sock .listenfd) ⟨.selecting, []⟩ (inetNtop ⟨10, 0, 0, 1⟩) clean
      (hello ⟨10, 0, 0, 2⟩) := by
  have hself := (filter_exact_iff ⟨10, 0, 0, 1⟩ ((host 1).sock .listenfd) ⟨.selecting, []⟩ clean
    (hello ⟨10, 0, 0, 1⟩) rfl).2 (show msgLen clean (hello ⟨10, 0, 0, 1⟩) ≠ 0 by decide)
  have hother := (filter_exact_iff ⟨10, 0, 0, 1⟩ ((host 1).sock .listenfd) ⟨.selecting, []⟩ clean
    (hello ⟨10, 0, 0, 2⟩) rfl).2 ⟨by decide, (five_le_iff _).1 (by decide)⟩
  exact ⟨hself.1.2 rfl, hother.2 (by decide)⟩

/-- A process at `10.0.0.1` ignores one at `10.0.0.17`. -/
theorem neighbour_ignored :
    Ignored ((host 1).sock .listenfd) ⟨.selecting, []⟩ (inetNtop ⟨10, 0, 0, 1⟩) clean
      (hello ⟨10, 0, 0, 17⟩) ∧ (hello ⟨10, 0, 0, 17⟩).src.sinAddr ≠ ⟨10, 0, 0, 1⟩ :=
  ⟨rfl, by decide⟩

end LanChat.SelfFilter

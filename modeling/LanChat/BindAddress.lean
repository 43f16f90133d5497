import LanChat.AddressTexts

set_option autoImplicit false

/-!
# Which bind addresses v4 filters by exactly

`main` admits as `bind_addr` whatever `inet_aton` reads, also texts with leading
zeros, fewer than four parts or something behind a blank. `message_loop` uses the
text alone.
-/
namespace LanChat.BindAddress
open CStrings HexText SocketAddresses DatagramReceive ChatProcess SelfFilter AddressTexts

/-- What `message_loop` ignores of what is not empty is what comes from `addr`,
    and that from every port. -/
def Exact (bindAddr : Bytes) (addr : InAddr) : Prop :=
  ∀ (sock : SockAddr) (p : Proc) (mem : Residue) (d : Datagram), p.phase = .selecting →
    msgLen mem d ≠ 0 → (Ignored sock p bindAddr mem d ↔ d.src.sinAddr = addr)

/-- The filter compares no further than the text goes. -/
theorem passes_text_iff {text : Bytes} (h : 0 ∉ text) (src : SockAddr) :
    (Receiver.v4 text).passes src = false ↔ text <+: sockNtop src := by
  rw [Receiver.passes, decide_eq_false_iff_not, not_not, strncmp_eq_zero_iff_left _ _ h]

/-- So it is the texts of sources alone that decide. -/
theorem exact_iff {text : Bytes} (h : 0 ∉ text) (addr : InAddr) :
    Exact text addr ↔ ∀ src : SockAddr, text <+: sockNtop src ↔ src.sinAddr = addr := by
  constructor
  · intro hexact src
    have hlen : msgLen clean ⟨src, ascii "0010user: hello"⟩ ≠ 0 := by
      change msgLen clean (hello ⟨0, 0, 0, 0⟩) ≠ 0
      decide
    have hignored := hexact src ⟨.selecting, []⟩ clean ⟨src, ascii "0010user: hello"⟩ rfl hlen
    rwa [ignored_iff rfl, passes_text_iff h, and_iff_left hlen] at hignored
  · intro htexts sock p mem d hp hlen
    rw [ignored_iff hp, passes_text_iff h, and_iff_left hlen, htexts]

/-- The last number without its last digit is what another last number begins with. -/
def neighbour (addr : InAddr) : InAddr :=
  { addr with d := if addr.d.toNat < 10 then addr.d + 1 else UInt8.ofNat (addr.d.toNat / 10) }

theorem neighbour_ne (addr : InAddr) : neighbour addr ≠ addr := by
  intro heq
  have hd : (neighbour addr).d.toNat = addr.d.toNat := congrArg (fun x => x.d.toNat) heq
  have hlt := addr.d.toNat_lt
  rw [neighbour] at hd
  dsimp only at hd
  split_ifs at hd with hten
  · rw [UInt8.toNat_add] at hd
    change (addr.d.toNat + 1) % 256 = _ at hd
    omega
  · rw [UInt8.toNat_ofNat'] at hd
    omega

theorem dropLast_prefix_neighbour (addr : InAddr) :
    (inetNtop addr).dropLast <+: inetNtop (neighbour addr) := by
  have hlt := addr.d.toNat_lt
  have hnumeral : numeral 10 addr.d.toNat ≠ [] := by
    rw [numeral_eq (by decide)]
    split_ifs <;> simp
  rw [inetNtop, List.dropLast_append_of_ne_nil hnumeral, inetNtop, neighbour]
  dsimp only
  rw [List.prefix_append_right_inj, numeral_eq (by decide)]
  split_ifs with hten
  · exact List.nil_prefix
  · rw [List.dropLast_concat, UInt8.toNat_ofNat', Nat.mod_eq_of_lt (by omega)]

/-- A shorter text would take the neighbour for the own host. -/
theorem text_eq {text : Bytes} {addr : InAddr}
    (h : ∀ other : InAddr, text <+: inetNtop other ↔ other = addr) : text = inetNtop addr := by
  have hown := (h addr).2 rfl
  have hne : inetNtop addr ≠ [] := by simp [inetNtop, ascii]
  rw [← List.dropLast_append_getLast hne, List.prefix_concat_iff,
    List.dropLast_append_getLast hne] at hown
  rcases hown with heq | hshort
  · exact heq
  · have hneighbour := (h (neighbour addr)).1 (hshort.trans (dropLast_prefix_neighbour addr))
    exact absurd hneighbour (neighbour_ne addr)

theorem exists_shadows_iff (addr : InAddr) :
    (∃ other, Shadows addr other) ↔ 1 ≤ addr.d.toNat ∧ addr.d.toNat ≤ 25 := by
  constructor
  · rintro ⟨other, _, _, _, hd⟩
    have hlt := other.d.toNat_lt
    omega
  · intro hd
    refine ⟨{ addr with d := UInt8.ofNat (addr.d.toNat * 10) }, rfl, rfl, rfl, .inl ?_⟩
    dsimp only
    rw [UInt8.toNat_ofNat', Nat.mod_eq_of_lt (by omega)]
    omega

theorem plain_exact_iff (addr : InAddr) :
    Exact (inetNtop addr) addr ↔ ¬ ∃ other, Shadows addr other := by
  have hbegins (src : SockAddr) : inetNtop addr <+: sockNtop src ↔
      addr = src.sinAddr ∨ Shadows addr src.sinAddr := by
    rw [inetNtop_prefix_sockNtop, inetNtop_prefix_iff]
  rw [exact_iff (zero_notMem_inetNtop addr)]
  simp only [hbegins]
  constructor
  · rintro hexact ⟨other, hshadows⟩
    have hother : other = addr := (hexact ⟨other, 0⟩).1 (.inr hshadows)
    exact not_shadows_self addr (hother ▸ hshadows)
  · intro hnone src
    rw [or_iff_left fun hshadows => hnone ⟨_, hshadows⟩, eq_comm]

/-- Whatever the text of `bind_addr` and the address that `main` has read from it,
    only the plain spelling of that address makes the filter exact, and that only
    where the last number is 0 or at least 26. -/
theorem bindAddr_exact_iff {bindAddr : Bytes} (h : 0 ∉ bindAddr) (addr : InAddr) :
    Exact bindAddr addr ↔
      bindAddr = inetNtop addr ∧ (addr.d.toNat = 0 ∨ 26 ≤ addr.d.toNat) := by
  have hrange : (¬ ∃ other, Shadows addr other) ↔ addr.d.toNat = 0 ∨ 26 ≤ addr.d.toNat := by
    rw [exists_shadows_iff]
    omega
  rw [← hrange]
  constructor
  · intro hexact
    -- from port 0 the text of an address is all there is to compare with
    have htext : bindAddr = inetNtop addr := text_eq fun other => by
      have hother := (exact_iff h addr).1 hexact ⟨other, 0⟩
      rwa [sockNtop, if_neg (by simp), List.append_nil] at hother
    subst htext
    exact ⟨rfl, (plain_exact_iff addr).1 hexact⟩
  · rintro ⟨rfl, hnone⟩
    exact (plain_exact_iff addr).2 hnone

/-- `10.0.0.101` is filtered by exactly; `10.0.0.17`, `10.0.0.0145` (which C reads as
    the first) and `10.0.0.101 x` are not. -/
theorem bindAddr_exact_texts :
    Exact (ascii "10.0.0.101") ⟨10, 0, 0, 101⟩ ∧ ¬ Exact (ascii "10.0.0.17") ⟨10, 0, 0, 17⟩ ∧
      ¬ Exact (ascii "10.0.0.0145") ⟨10, 0, 0, 101⟩ ∧
      ¬ Exact (ascii "10.0.0.101 x") ⟨10, 0, 0, 101⟩ := by
  refine ⟨(bindAddr_exact_iff (by decide) _).2 ⟨rfl, by decide⟩, fun h => ?_, fun h => ?_,
    fun h => ?_⟩
  · exact absurd ((bindAddr_exact_iff (by decide) _).1 h).2 (by decide)
  · exact absurd ((bindAddr_exact_iff (by decide) _).1 h).1 (by decide)
  · exact absurd ((bindAddr_exact_iff (by decide) _).1 h).1 (by decide)

end LanChat.BindAddress

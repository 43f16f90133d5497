import LanChat.DottedQuads
import LanChat.SelfFilter

set_option autoImplicit false

/-!
# What `sock_ntop` prints of an IPv4 address

The text is short enough for both arrays, `inet_pton` reads the address from it
as far as the colon, and the port stands behind that.
-/
namespace LanChat.AddressTexts
open CStrings HexText SocketAddresses DottedQuads SelfFilter

theorem length_numeral_le {k n : ℕ} (hk : 0 < k) (h : n < 10 ^ k) :
    (numeral 10 n).length ≤ k := by
  induction k generalizing n with
  | zero => omega
  | succ k ih =>
    rw [numeral_eq (by decide)]
    split_ifs with hlt
    · simp
    · have hpos : 0 < k := by
        by_contra hzero
        obtain rfl : k = 0 := by omega
        omega
      have hdiv : n / 10 < 10 ^ k := Nat.div_lt_of_lt_mul (by rw [Nat.pow_succ] at h; omega)
      have hle := ih hpos hdiv
      rw [List.length_append, List.length_singleton]
      omega

theorem byte_length_le (b : UInt8) : (numeral 10 b.toNat).length ≤ 3 :=
  length_numeral_le (by decide) (b.toNat_lt.trans (by decide))

theorem inetNtop_length_le (addr : InAddr) : (inetNtop addr).length ≤ 15 := by
  have ha := byte_length_le addr.a
  have hb := byte_length_le addr.b
  have hc := byte_length_le addr.c
  have hd := byte_length_le addr.d
  simp only [inetNtop_dots, List.length_append, List.length_cons]
  omega

theorem colon_notMem_inetNtop (addr : InAddr) : 58 ∉ inetNtop addr := by
  have hdot : 58 ∉ ascii "." := by decide
  have hnumeral := fun n => stop_notMem_numeral (b := 58) (by decide) n
  simp only [inetNtop, List.mem_append, hdot, hnumeral, or_self, not_false_eq_true]

/-- The port fits `portstr` whole. -/
theorem portText (port : UInt16) : snprintf 8 (ascii ":" ++ numeral 10 port.toNat) =
    58 :: numeral 10 port.toNat := by
  have hlen : (numeral 10 port.toNat).length ≤ 5 :=
    length_numeral_le (by decide) (port.toNat_lt.trans (by decide))
  have hcolon : ascii ":" ++ numeral 10 port.toNat = 58 :: numeral 10 port.toNat := rfl
  rw [hcolon]
  apply snprintf_fits
  rw [List.length_cons]
  omega

theorem sockNtop_eq (sa : SockAddr) : sockNtop sa = inetNtop sa.sinAddr ++
    if sa.sinPort ≠ 0 then 58 :: numeral 10 sa.sinPort.toNat else [] := by
  rw [sockNtop, portText]

theorem sockNtop_address (sa : SockAddr) :
    (sockNtop sa).takeWhile (· ≠ 58) = inetNtop sa.sinAddr := by
  have hall : ∀ c ∈ inetNtop sa.sinAddr, decide (c ≠ 58) = true := fun c hc =>
    decide_eq_true fun e => colon_notMem_inetNtop _ (e ▸ hc)
  rw [sockNtop_eq, List.takeWhile_append_of_pos hall]
  split_ifs <;> simp

/-- Different addresses have different texts, none too long for `str` and no port
    for `portstr`, and `inet_pton` reads the address from what is in front of the
    colon. -/
theorem sockNtop_spells (sa : SockAddr) :
    inetPton ((sockNtop sa).takeWhile (· ≠ 58)) = some sa.sinAddr ∧
    (sockNtop sa).length < 128 ∧
    snprintf 8 (ascii ":" ++ numeral 10 sa.sinPort.toNat) =
      ascii ":" ++ numeral 10 sa.sinPort.toNat ∧
    ∀ sb, sockNtop sb = sockNtop sa → sb = sa := by
  refine ⟨by rw [sockNtop_address, inetPton_inetNtop], ?_, portText _, fun sb h => ?_⟩
  · have haddr := inetNtop_length_le sa.sinAddr
    have hport : (numeral 10 sa.sinPort.toNat).length ≤ 5 :=
      length_numeral_le (by decide) (sa.sinPort.toNat_lt.trans (by decide))
    rw [sockNtop_eq, List.length_append]
    split_ifs
    · rw [List.length_cons]
      omega
    · rw [List.length_nil]
      omega
  · have haddr : sb.sinAddr = sa.sinAddr := by
      have hread := congrArg (fun text => inetPton (text.takeWhile (· ≠ 58))) h
      simpa only [sockNtop_address, inetPton_inetNtop, Option.some.injEq] using hread
    rw [sockNtop_eq, sockNtop_eq, haddr, List.append_right_inj] at h
    have hport : sb.sinPort = sa.sinPort := by
      split_ifs at h with hb ha ha
      · exact UInt16.toNat_inj.1 (numeral_injective (List.cons.inj h).2)
      · rw [not_not.1 hb, not_not.1 ha]
    cases sb
    cases sa
    cases haddr
    cases hport
    rfl

end LanChat.AddressTexts

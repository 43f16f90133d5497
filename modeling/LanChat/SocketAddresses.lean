import LanChat.HexText

set_option autoImplicit false

/-! # Socket addresses, their texts, and datagrams -/
namespace LanChat.SocketAddresses
open CStrings HexText

/-- `struct in_addr`, in network byte order. -/
structure InAddr where
  a : UInt8
  b : UInt8
  c : UInt8
  d : UInt8
  deriving DecidableEq, Repr

/-- `struct sockaddr_in` of family `AF_INET`; the port is in host order. -/
structure SockAddr where
  sinAddr : InAddr
  sinPort : UInt16
  deriving DecidableEq, Repr

def chatPort : UInt16 := 11001

/-- What `Recvfrom` can learn of a datagram that has arrived. -/
structure Datagram where
  src : SockAddr
  payload : Bytes
  deriving DecidableEq, Repr

def inetNtop (addr : InAddr) : Bytes :=
  numeral 10 addr.a.toNat ++ ascii "." ++ numeral 10 addr.b.toNat ++ ascii "." ++
    numeral 10 addr.c.toNat ++ ascii "." ++ numeral 10 addr.d.toNat

def sockNtop (sa : SockAddr) : Bytes :=
  inetNtop sa.sinAddr ++
    if sa.sinPort ≠ 0 then snprintf 8 (ascii ":" ++ numeral 10 sa.sinPort.toNat) else []

theorem sockNtop_begins (sa : SockAddr) : inetNtop sa.sinAddr <+: sockNtop sa :=
  List.prefix_append _ _

theorem inetNtop_dots (addr : InAddr) : inetNtop addr =
    numeral 10 addr.a.toNat ++ 46 :: (numeral 10 addr.b.toNat ++ 46 ::
      (numeral 10 addr.c.toNat ++ 46 :: numeral 10 addr.d.toNat)) := by
  have hdot : ascii "." = [46] := rfl
  simp [inetNtop, hdot]

theorem zero_notMem_numeral (n : ℕ) : 0 ∉ numeral 10 n :=
  fun h => absurd (numeral_isxdigit (by decide) (by decide) 0 h) (by decide)

theorem zero_notMem_inetNtop (addr : InAddr) : 0 ∉ inetNtop addr := by
  have hdot : 0 ∉ ascii "." := by decide
  simp only [inetNtop, List.mem_append, zero_notMem_numeral, hdot, or_self, not_false_eq_true]

end LanChat.SocketAddresses

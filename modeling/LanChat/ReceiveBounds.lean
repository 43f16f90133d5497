import LanChat.DatagramReceive

set_option autoImplicit false

/-!
# Which datagrams are handled inside the block that is allocated for them

The length in the header is whatever `sscanf` makes of the first bytes. Nothing
in `recv_message` compares it with the length of what has arrived, or with the
four bytes that the callers skip.
-/
namespace LanChat.ReceiveBounds
open CStrings HexText FrameCodec SocketAddresses DatagramReceive

/-- Everything from `malloc` to the end of the handling is inside the block. -/
structure InBounds (r : Receiver) (mem : Residue) (d : Datagram) : Prop where
  atLeast : 5 ≤ (msgLen mem d).toNat
  noWrap : (msgLen mem d - 1).toNat + 1 = (msgLen mem d).toNat
  inside : ∃ reaction, receive r mem d = .ok reaction

/-- The number written at the start of a text (after blanks, a sign and `0x`;
    zero where there are no digits) is at least five as an `unsigned int`: a
    minus sign negates it modulo `2 ^ 32`, and a run of more than 64 bits
    counts as the largest one. -/
def DeclaresFive (text : Bytes) : Prop :=
  let item := scanItem text
  let v := value item.2
  2 ^ 64 ≤ v ∨
    if item.1 then 0 < v % 2 ^ 32 ∧ v % 2 ^ 32 ≤ 2 ^ 32 - 5 else 5 ≤ v % 2 ^ 32

theorem strtoul_toNat (neg : Bool) (v : ℕ) : (strtoul neg v).toNat =
    if 2 ^ 64 ≤ v then 2 ^ 32 - 1 else if neg then (2 ^ 64 - v) % 2 ^ 32 else v % 2 ^ 32 := by
  rw [strtoul, UInt32.toNat_ofNat']
  split_ifs <;> rfl

theorem hexToInt_eq (text : Bytes) :
    hexToInt text = strtoul (scanItem text).1 (value (scanItem text).2) := by
  simp only [hexToInt, sscanfX]
  by_cases h : (scanItem text).2 = []
  · have hv : value ([] : Bytes) = 0 := rfl
    rw [if_pos h, h, hv]
    cases (scanItem text).1 <;> rfl
  · rw [if_neg h, Option.getD_some]

theorem five_le_iff (text : Bytes) : 5 ≤ (hexToInt text).toNat ↔ DeclaresFive text := by
  rw [hexToInt_eq, strtoul_toNat]
  simp only [DeclaresFive]
  generalize (scanItem text).1 = neg
  generalize value (scanItem text).2 = v
  cases neg <;> simp only [Bool.false_eq_true, ↓reduceIte] <;> split_ifs <;> omega

theorem receive_eq (r : Receiver) {mem : Residue} {d : Datagram}
    (h : 5 ≤ (msgLen mem d).toNat) :
    receive r mem d = if r.passes d.src
      then r.handle ((filled mem d).set ((msgLen mem d).toNat - 1) 0) else .ok .ignore := by
  rw [receive, recvMessage_cons, store_filled (by omega)]

theorem handle_ok (r : Receiver) {message : Bytes} (h : 0 ∈ message.drop 4) :
    ∃ reaction, r.handle message = .ok reaction := by
  cases r with
  | v3 | v4 => exact ⟨_, handleBody_eq h⟩
  | v5Listen => exact ⟨_, printBody_eq h⟩
  | v5Join => exact ⟨_, joinBody_eq h⟩

theorem inBounds_of_five_le (r : Receiver) {mem : Residue} {d : Datagram}
    (h : 5 ≤ (msgLen mem d).toNat) : InBounds r mem d := by
  refine ⟨h, ?_, ?_⟩
  · have hone : (msgLen mem d - 1).toNat = (msgLen mem d).toNat - 1 := by
      apply UInt32.toNat_sub_of_le
      rw [UInt32.le_iff_toNat_le]
      exact le_trans (by decide) h
    omega
  · rw [receive_eq r h]
    split_ifs
    · exact handle_ok r (zero_mem_drop h)
    · exact ⟨_, rfl⟩

/-- A datagram is handled inside its block exactly when its header declares at
    least the length and the terminator. -/
theorem inBounds_iff (r : Receiver) (mem : Residue) (d : Datagram) :
    InBounds r mem d ↔ DeclaresFive (headerText mem d) := by
  rw [← five_le_iff]
  exact ⟨fun h => h.atLeast, inBounds_of_five_le r⟩

def bareHeader (digits : String) : Datagram := ⟨⟨⟨10, 0, 0, 2⟩, 40000⟩, ascii digits⟩

def Outside (r : Receiver) (d : Datagram) (f : Fault) : Prop :=
  receive r ⟨[], fun _ => 0, []⟩ d = .error f ∧ ¬ InBounds r ⟨[], fun _ => 0, []⟩ d

theorem outside_of_lt {r : Receiver} {d : Datagram} {f : Fault}
    (h : receive r ⟨[], fun _ => 0, []⟩ d = .error f)
    (hlt : ¬ 5 ≤ (msgLen ⟨[], fun _ => 0, []⟩ d).toNat) : Outside r d f :=
  ⟨h, fun hin => hlt hin.atLeast⟩

/-- `"0000"` makes the store of the terminator go to index `2 ^ 32 - 1` of an
    empty block, and `"0004"` makes the reader start behind its block. -/
theorem short_header_outside :
    (Outside .v3 (bareHeader "0000") (.write 4294967295) ∧
      Outside (.v4 (ascii "10.0.0.1")) (bareHeader "0000") (.write 4294967295) ∧
      Outside .v5Listen (bareHeader "0000") (.write 4294967295) ∧
      Outside .v5Join (bareHeader "0000") (.write 4294967295)) ∧
    (Outside .v3 (bareHeader "0004") (.read 4) ∧
      Outside (.v4 (ascii "10.0.0.1")) (bareHeader "0004") (.read 4) ∧
      Outside .v5Listen (bareHeader "0004") (.read 4) ∧
      Outside .v5Join (bareHeader "0004") (.read 4)) := by
  have hz : ¬ 5 ≤ (msgLen ⟨[], fun _ => 0, []⟩ (bareHeader "0000")).toNat := by decide
  have hf : ¬ 5 ≤ (msgLen ⟨[], fun _ => 0, []⟩ (bareHeader "0004")).toNat := by decide
  exact ⟨⟨outside_of_lt rfl hz, outside_of_lt rfl hz, outside_of_lt rfl hz, outside_of_lt rfl hz⟩,
    outside_of_lt rfl hf, outside_of_lt rfl hf, outside_of_lt rfl hf, outside_of_lt rfl hf⟩

theorem msgLen_pos {mem : Residue} {d : Datagram} (h : msgLen mem d ≠ 0) :
    0 < (msgLen mem d).toNat := by
  rw [Nat.pos_iff_ne_zero, ne_eq, ← UInt32.toNat_zero, UInt32.toNat_inj]
  exact h

theorem receive_nothing (r : Receiver) {mem : Residue} {d : Datagram} (h : msgLen mem d = 0) :
    receive r mem d = .error (.write 4294967295) := by
  have hlen := filled_length mem d
  rw [h] at hlen
  have hwrap : ((0 : UInt32) - 1).toNat = 4294967295 := rfl
  rw [receive, recvMessage_cons, h, hwrap, store, hlen, if_neg (by decide)]

theorem receive_dropped_iff {r : Receiver} {mem : Residue} {d : Datagram}
    (hdrop : r.passes d.src = false) : receive r mem d = .ok .ignore ↔ msgLen mem d ≠ 0 := by
  constructor
  · intro hok hzero
    rw [receive_nothing r hzero] at hok
    cases hok
  · intro hne
    rw [receive, recvMessage_cons, store_filled (msgLen_pos hne)]
    simp only [hdrop, Bool.false_eq_true, ↓reduceIte]

/-- Of a datagram that reaches the skip of the length, a shorter header takes
    the store or the first read out of the block. -/
theorem inside_iff (r : Receiver) (mem : Residue) (d : Datagram) (hp : r.passes d.src = true) :
    (∃ reaction, receive r mem d = .ok reaction) ↔ DeclaresFive (headerText mem d) := by
  rw [← five_le_iff]
  refine ⟨?_, fun h => (inBounds_of_five_le r h).inside⟩
  rintro ⟨reaction, hok⟩
  change 5 ≤ (msgLen mem d).toNat
  by_contra hlt
  by_cases hz : msgLen mem d = 0
  · rw [receive_nothing r hz] at hok
    cases hok
  · rw [receive, recvMessage_cons, store_filled (msgLen_pos hz)] at hok
    have hnil : ((filled mem d).set ((msgLen mem d).toNat - 1) 0).drop 4 = [] := by
      rw [List.drop_eq_nil_iff, List.length_set, filled_length]
      omega
    have hcan : authCan.length = 8 + 1 := rfl
    simp only [hp, ↓reduceIte] at hok
    cases r <;>
      simp [Receiver.handle, handleBody, printBody, joinBody, isAuthCan, hnil, stringAt, hcan,
        strncmpAt, bind, Except.bind, Except.map] at hok

end LanChat.ReceiveBounds

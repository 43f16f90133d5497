import LanChat.FrameCodec
import LanChat.SocketAddresses

set_option autoImplicit false

/-!
# `recv_message` and what its callers do with the body

The function is the same in `udp-iterate.c`, `udp-broadcast.c` and
`udp-multicast.c`. It peeks at the header, allocates what the header says and
reads the datagram into it.
-/
namespace LanChat.DatagramReceive
open CStrings HexText FrameCodec SocketAddresses

/-- What the memory that a call is given holds beforehand. -/
structure Residue where
  /-- The stack from `msg_len_hex` on, as far as its first NUL matters. -/
  hex : Bytes
  /-- The block that `malloc` returns. -/
  heap : ℕ → UInt8
  /-- The local `msg` of `auth_try_confirm`. -/
  msg : Bytes

/-- No hexadecimal digit stands behind the four bytes of `msg_len_hex`, so
    that `hex_to_int` sees these four only. -/
def Residue.Bounded (mem : Residue) : Prop := Isolated (mem.hex.drop 4)

/-- `Recvfrom` on a socket with this queue; `none` is a call that blocks. -/
def recvfrom (n : ℕ) (peek : Bool) : List Datagram → Option (Bytes × SockAddr × List Datagram)
  | [] => none
  | d :: queue => some (d.payload.take n, d.src, if peek then d :: queue else queue)

def recvMessage (mem : Residue) (queue : List Datagram) :
    Option (Except Fault Bytes × SockAddr × List Datagram) := do
  let (msgLenHex, _, queue) ← recvfrom 4 true queue
  let msgLen := hexToInt (blit msgLenHex mem.hex)
  let (bytes, peeraddr, queue) ← recvfrom msgLen.toNat false queue
  let message := blit bytes (malloc msgLen.toNat mem.heap)
  some (store message (msgLen - 1).toNat 0, peeraddr, queue)

/-- What a caller does with a message once it has skipped the length. -/
inductive Reaction where
  | accept
  | print (text : Bytes)
  | ignore
  deriving DecidableEq, Repr

/-- `strncmp(message, AUTH_CAN, strlen(AUTH_CAN)) == 0`, behind the length. -/
def isAuthCan (message : Bytes) : Except Fault Bool :=
  (strncmpAt (message.drop 4) 4 authCan authCan.length).map (· == 0)

/-- `listener_task` of v3, and `message_loop` of v4 for a datagram that its
    filter lets through. -/
def handleBody (message : Bytes) : Except Fault Reaction := do
  if ← isAuthCan message then .ok .accept
  else (stringAt (message.drop 4) 4).map .print

/-- `message_loop` of v5 on `listenfd`. -/
def printBody (message : Bytes) : Except Fault Reaction :=
  (stringAt (message.drop 4) 4).map .print

/-- `message_loop` of v5 on `joinfd`. -/
def joinBody (message : Bytes) : Except Fault Reaction := do
  if ← isAuthCan message then .ok .accept else .ok .ignore

/-- The places that call `recv_message`. -/
inductive Receiver where
  | v3
  | v4 (bindAddr : Bytes)
  | v5Listen
  | v5Join

/-- The self-reception filter of v4; the others have none. -/
def Receiver.passes : Receiver → SockAddr → Bool
  | .v4 bindAddr, peeraddr => strncmp bindAddr (sockNtop peeraddr) bindAddr.length ≠ 0
  | _, _ => true

def Receiver.handle (r : Receiver) (message : Bytes) : Except Fault Reaction :=
  match r with
  | .v3 | .v4 _ => handleBody message
  | .v5Listen => printBody message
  | .v5Join => joinBody message

def receive (r : Receiver) (mem : Residue) (d : Datagram) : Except Fault Reaction :=
  match recvMessage mem [d] with
  | none => .ok .ignore
  | some (.error f, _, _) => .error f
  | some (.ok message, peeraddr, _) =>
    if r.passes peeraddr then r.handle message else .ok .ignore

/-- The text that `sscanf` is given for a datagram. -/
def headerText (mem : Residue) (d : Datagram) : Bytes := blit (d.payload.take 4) mem.hex

def msgLen (mem : Residue) (d : Datagram) : UInt32 := hexToInt (headerText mem d)

def filled (mem : Residue) (d : Datagram) : Bytes :=
  blit (d.payload.take (msgLen mem d).toNat) (malloc (msgLen mem d).toNat mem.heap)

theorem recvMessage_cons (mem : Residue) (d : Datagram) (queue : List Datagram) :
    recvMessage mem (d :: queue) =
      some (store (filled mem d) (msgLen mem d - 1).toNat 0, d.src, queue) := rfl

theorem filled_length (mem : Residue) (d : Datagram) :
    (filled mem d).length = (msgLen mem d).toNat := by
  rw [filled, blit_length, malloc_length]
  simp

theorem store_filled {mem : Residue} {d : Datagram} (h : 0 < (msgLen mem d).toNat) :
    store (filled mem d) (msgLen mem d - 1).toNat 0 =
      .ok ((filled mem d).set ((msgLen mem d).toNat - 1) 0) := by
  have hone : (msgLen mem d - 1).toNat = (msgLen mem d).toNat - 1 := by
    apply UInt32.toNat_sub_of_le
    rw [UInt32.le_iff_toNat_le]
    exact h
  rw [store, hone, filled_length, if_pos (by omega)]

theorem zero_mem_drop {mem : Residue} {d : Datagram} (h : 5 ≤ (msgLen mem d).toNat) :
    0 ∈ ((filled mem d).set ((msgLen mem d).toNat - 1) 0).drop 4 := by
  have hl := filled_length mem d
  refine List.mem_iff_getElem.2 ⟨(msgLen mem d).toNat - 1 - 4, ?_, ?_⟩
  · simp only [List.length_drop, List.length_set]
    omega
  · rw [List.getElem_drop, List.getElem_set]
    simp only [ite_eq_left_iff]
    omega

theorem passes_of_receive {r : Receiver} {mem : Residue} {d : Datagram} {reaction : Reaction}
    (h : receive r mem d = .ok reaction) (hne : reaction ≠ .ignore) : r.passes d.src = true := by
  by_contra hno
  rw [receive, recvMessage_cons] at h
  cases hs : store (filled mem d) (msgLen mem d - 1).toNat 0 with
  | error f => simp [hs] at h
  | ok message =>
    simp only [hs, hno, Bool.false_eq_true, ↓reduceIte, Except.ok.injEq] at h
    exact hne h.symm

theorem authCan_zero_notMem : 0 ∉ authCan := by decide

theorem isAuthCan_eq {message : Bytes} (h : 0 ∈ message.drop 4) :
    isAuthCan message = .ok (decide (authCan <+: cstr (message.drop 4))) := by
  have hiff := strncmp_eq_zero_iff (message.drop 4) authCan authCan_zero_notMem
  rw [← prefix_cstr_iff _ _ authCan_zero_notMem] at hiff
  rw [isAuthCan, strncmpAt_eq _ 4 authCan authCan.length h]
  simp only [Except.map, beq_eq_decide, hiff]

theorem handleBody_eq {message : Bytes} (h : 0 ∈ message.drop 4) :
    handleBody message = .ok (if authCan <+: cstr (message.drop 4) then .accept
      else .print (cstr (message.drop 4))) := by
  rw [handleBody, isAuthCan_eq h, stringAt_eq _ 4 h]
  by_cases hp : authCan <+: cstr (message.drop 4) <;> simp [hp, bind, Except.bind, Except.map]

theorem joinBody_eq {message : Bytes} (h : 0 ∈ message.drop 4) :
    joinBody message = .ok (if authCan <+: cstr (message.drop 4) then .accept else .ignore) := by
  rw [joinBody, isAuthCan_eq h]
  by_cases hp : authCan <+: cstr (message.drop 4) <;> simp [hp, bind, Except.bind]

theorem printBody_eq {message : Bytes} (h : 0 ∈ message.drop 4) :
    printBody message = .ok (.print (cstr (message.drop 4))) := by
  rw [printBody, stringAt_eq _ 4 h]
  rfl

theorem filled_terminated {mem : Residue} {d : Datagram} (hpos : 0 < (msgLen mem d).toNat) :
    (filled mem d).set ((msgLen mem d).toNat - 1) 0 =
      (filled mem d).take ((msgLen mem d).toNat - 1) ++ [0] := by
  have hl := filled_length mem d
  have hrest : (filled mem d).drop ((msgLen mem d).toNat - 1 + 1) = [] := by
    rw [List.drop_eq_nil_iff]
    omega
  rw [List.set_eq_take_append_cons_drop, if_pos (by omega), hrest]

theorem filled_set {mem : Residue} {d : Datagram} (hpos : 0 < (msgLen mem d).toNat)
    (h : (msgLen mem d).toNat ≤ d.payload.length + 1) :
    (filled mem d).set ((msgLen mem d).toNat - 1) 0 =
      d.payload.take ((msgLen mem d).toNat - 1) ++ [0] := by
  have hcut : (filled mem d).take ((msgLen mem d).toNat - 1) =
      d.payload.take ((msgLen mem d).toNat - 1) := by
    rw [filled, blit, List.take_append_of_le_length (by rw [List.length_take]; omega),
      List.take_take, min_eq_left (Nat.sub_le _ 1)]
  rw [filled_terminated hpos, hcut]

def chatDatagram (src : SockAddr) (c : ChatLine) : Datagram := ⟨src, c.frame⟩

theorem headerText_chat {mem : Residue} {src : SockAddr} {c : ChatLine} (hlt : c.len < 2 ^ 31) :
    headerText mem (chatDatagram src c) = intToHex4 (Int32.ofNat c.len) ++ mem.hex.drop 4 := by
  have htake : c.frame.take 4 = intToHex4 (Int32.ofNat c.len) := createSendMsg_header hlt
  simp only [headerText, chatDatagram, blit, htake, intToHex4_length]

theorem msgLen_chat {mem : Residue} (src : SockAddr) {c : ChatLine} (hmem : mem.Bounded)
    (hc : c.Fits) : (msgLen mem (chatDatagram src c)).toNat = c.len := by
  have hlt : c.len < 65536 := by
    unfold ChatLine.Fits at hc
    omega
  rw [msgLen, headerText_chat hc.lt, hexToInt_intToHex4 hlt hmem]
  exact UInt32.toNat_ofNat_of_lt' (by
    show c.len < 4294967296
    omega)

theorem recvMessage_frame {mem : Residue} (src : SockAddr) {c : ChatLine} (queue : List Datagram)
    (hlen : (msgLen mem (chatDatagram src c)).toNat = c.len) (hc : c.Fits) :
    recvMessage mem (chatDatagram src c :: queue) = some (.ok (c.frame ++ [0]), src, queue) := by
  have hfit : c.frame.length + 1 = c.len := hc.frame_length
  rw [recvMessage_cons, store_filled (by omega),
    filled_set (by omega) (by rw [hlen]; exact hfit.ge),
    hlen, List.take_of_length_le (by change c.frame.length ≤ c.len - 1; omega)]
  rfl

theorem recvMessage_chat {mem : Residue} (src : SockAddr) {c : ChatLine} (queue : List Datagram)
    (hmem : mem.Bounded) (hc : c.Fits) :
    recvMessage mem (chatDatagram src c :: queue) = some (.ok (c.frame ++ [0]), src, queue) :=
  recvMessage_frame src queue (msgLen_chat src hmem hc) hc

theorem drop_frame {c : ChatLine} (hc : c.Fits) : (c.frame ++ [0]).drop 4 = c.text ++ [0] := by
  rw [hc.frame_eq, List.append_assoc]
  exact List.drop_left' (intToHex4_length _)

theorem cstr_drop_frame {c : ChatLine} (hc : c.Fits) :
    cstr ((c.frame ++ [0]).drop 4) = c.text := by
  rw [drop_frame hc]
  exact cstr_terminated c.text [] c.text_nul

theorem stringAt_frame {c : ChatLine} (hc : c.Fits) :
    stringAt ((c.frame ++ [0]).drop 4) 4 = .ok c.text := by
  rw [stringAt_eq _ 4 (by simp [drop_frame hc]), cstr_drop_frame hc]

/-- Successive calls of `recv_message`, each followed by the skip of the
    length: the texts with their sources, and what is left in the queue. -/
def recvMessages : List Residue → List Datagram →
    Option (List (Except Fault Bytes × SockAddr) × List Datagram)
  | [], queue => some ([], queue)
  | mem :: mems, queue => do
    let (message, peeraddr, queue) ← recvMessage mem queue
    let (rest, queue) ← recvMessages mems queue
    some ((message.bind fun m => stringAt (m.drop 4) 4, peeraddr) :: rest, queue)

theorem recvMessages_chat (mems : List Residue) (sent : List (SockAddr × ChatLine))
    (later : List Datagram) (hlen : mems.length = sent.length) (hmem : ∀ mem ∈ mems, mem.Bounded)
    (hfit : ∀ s ∈ sent, s.2.Fits) :
    recvMessages mems (sent.map (fun s => chatDatagram s.1 s.2) ++ later) =
      some (sent.map (fun s => (.ok s.2.text, s.1)), later) := by
  induction sent generalizing mems with
  | nil =>
    rw [List.length_nil, List.length_eq_zero_iff] at hlen
    subst mems
    rfl
  | cons s sent ih =>
    match mems, hlen with
    | mem :: mems, hlen =>
      have hs := hfit s List.mem_cons_self
      have hrest := ih mems (Nat.succ.inj hlen) (fun m hm => hmem m (List.mem_cons_of_mem _ hm))
        (fun t ht => hfit t (List.mem_cons_of_mem _ ht))
      rw [List.map_cons, List.cons_append, recvMessages,
        recvMessage_chat s.1 _ (hmem mem List.mem_cons_self) hs]
      simp only [Option.bind_eq_bind, Option.bind_some, hrest]
      rw [Except.bind, stringAt_frame hs]
      rfl

/-- Over UDP every line of chat arrives up to its line end as it was written, in
    the order of the queue, as long as four digits hold its length. -/
theorem datagram_roundTrip :
    (∀ c : ChatLine, c.total ≤ 65535 → 0 ∉ c.frame ∧ c.frame.length = c.total - 1 ∧
      ∀ tail, Isolated tail → (hexToInt (c.frame.take 4 ++ tail)).toNat = c.total) ∧
    (∀ (mems : List Residue) (sent : List (SockAddr × ChatLine)) (later : List Datagram),
      mems.length = sent.length → (∀ mem ∈ mems, mem.Bounded) →
      (∀ s ∈ sent, s.2.total ≤ 65535) →
      recvMessages mems (sent.map (fun s => chatDatagram s.1 s.2) ++ later) =
        some (sent.map (fun s => (.ok s.2.said, s.1)), later)) ∧
    (∀ c : ChatLine, 65535 < c.total → (hexToInt (c.frame.take 4)).toNat ≠ c.total) := by
  simp only [← ChatLine.text_eq_said, ← ChatLine.len_eq_total]
  refine ⟨?_, recvMessages_chat, ?_⟩
  · intro c hc
    exact ⟨createSendMsg_zero_notMem (ChatLine.Fits.lt hc) c.userName_nul c.message_nul,
      createSendMsg_length (ChatLine.Fits.lt hc), fun tail htail => createSendMsg_decodes hc htail⟩
  · intro c hc
    exact createSendMsg_overflow hc

/-- A message that ends in a bare line feed, and one that goes on behind its
    carriage return. -/
def evening : List (SockAddr × ChatLine) :=
  [(⟨⟨10, 0, 0, 2⟩, 40000⟩, ⟨ascii "bob", ascii "evening\n", by decide, by decide⟩),
    (⟨⟨10, 0, 0, 3⟩, 40001⟩, ⟨ascii "eva", ascii "hi, bob\rre\n", by decide, by decide⟩)]

theorem isolated_user : Isolated (ascii "user") := by
  rintro c ⟨⟩
  rfl

theorem datagram_roundTrip_evening :
    recvMessages [⟨[], fun _ => 0, []⟩, ⟨ascii "000euser", fun _ => 7, []⟩]
      (evening.map (fun s => chatDatagram s.1 s.2) ++ []) =
        some ([(.ok (ascii "bob: evening"), ⟨⟨10, 0, 0, 2⟩, 40000⟩),
          (.ok (ascii "eva: hi, bob"), ⟨⟨10, 0, 0, 3⟩, 40001⟩)], []) :=
  datagram_roundTrip.2.1 [⟨[], fun _ => 0, []⟩, ⟨ascii "000euser", fun _ => 7, []⟩] evening [] rfl
    (List.forall_mem_cons.2 ⟨isolated_nil, List.forall_mem_singleton.2 isolated_user⟩)
    (by decide)

end LanChat.DatagramReceive

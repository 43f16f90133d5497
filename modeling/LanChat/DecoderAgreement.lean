import LanChat.ResidualMemory

set_option autoImplicit false

/-!
# The decoder of v1 and v2 against that of v3 to v5

Both take the length of a frame from `msg_len_hex`, four bytes without a
terminator, and so both read on in what stands behind that array. They agree on
the frames of `create_send_msg` exactly as far as this makes no other number.
-/
namespace LanChat.DecoderAgreement
open CStrings HexText FrameCodec SocketAddresses DatagramReceive ReceiveBounds ControlCollision
  ChunkedStreams StreamReceive ResidualMemory

/-- Read on with the digits that stand behind `msg_len_hex`, a header that says
    `n` still makes `n` as an `unsigned int`. -/
def Undisturbed (n : ℕ) (stack : Bytes) : Prop :=
  let more := (stack.drop 4).takeWhile isxdigit
  n * 16 ^ more.length + value more < 2 ^ 64 ∧ (n * 16 ^ more.length + value more) % 2 ^ 32 = n

instance (n : ℕ) (stack : Bytes) : Decidable (Undisturbed n stack) :=
  inferInstanceAs (Decidable (_ ∧ _))

/-- The memory of successive calls of `recv_message`, from the `i`-th on. -/
def calls (hex : ℕ → Bytes) (heap : ℕ → ℕ → UInt8) (i n : ℕ) : List Residue :=
  (List.range' i n).map fun j => ⟨hex j, heap j, []⟩

def datagrams (sent : List (SockAddr × ChatLine)) : List Datagram :=
  sent.map fun s => chatDatagram s.1 s.2

/-- With these blocks of `malloc` the two decoders show the same texts, and the
    one on the stream is at the start of a header behind each of them. -/
def AgreeOn (stack hex : ℕ → Bytes) (heap heap' : ℕ → ℕ → UInt8) (i : ℕ)
    (sent : List (SockAddr × ChatLine)) (connfd : Chunks UInt8) : Prop :=
  (∃ received, recvMessages (calls hex heap' i sent.length) (datagrams sent) = some (received, []) ∧
    received.map Prod.fst = (listenerTask stack heap i connfd).map (fun p => .ok p.text)) ∧
  ∀ j < sent.length, ((listenerTask stack heap i connfd)[j]?).map (·.rest.bytes) =
    some (stream ((sent.map Prod.snd).drop (j + 1)))

/-- Whatever is in the blocks. -/
def Agree (stack hex : ℕ → Bytes) (i : ℕ) (sent : List (SockAddr × ChatLine))
    (connfd : Chunks UInt8) : Prop :=
  ∀ heap heap' : ℕ → ℕ → UInt8, AgreeOn stack hex heap heap' i sent connfd

/-- Neither decoder is disturbed at a header, where `stack` and `hex` are behind
    the arrays of the stream's and of the datagrams'. -/
def HeadersAlone (stack hex : ℕ → Bytes) (i : ℕ) (sent : List (SockAddr × ChatLine)) : Prop :=
  ∀ j s, sent[j]? = some s → Undisturbed s.2.len (stack (i + j)) ∧ Undisturbed s.2.len (hex (i + j))

theorem hexToInt_header_iff {n : ℕ} (hn : n < 65536) (stack : Bytes) :
    (hexToInt (intToHex4 (Int32.ofNat n) ++ stack.drop 4)).toNat = n ↔ Undisturbed n stack := by
  have hlen := intToHex4_length (Int32.ofNat n)
  have hne : intToHex4 (Int32.ofNat n) ≠ [] := List.ne_nil_of_length_pos (by omega)
  rw [hexToInt_eq, scanItem_digits _ _ (intToHex4_isxdigit _) hne (.inl (by omega)), strtoul_toNat,
    value_append, value_intToHex4 hn]
  unfold Undisturbed
  simp only [Bool.false_eq_true, ↓reduceIte]
  split_ifs <;> omega

theorem undisturbed_of_isolated {n : ℕ} (hn : n < 65536) {stack : Bytes}
    (h : Isolated (stack.drop 4)) : Undisturbed n stack := by
  rw [← hexToInt_header_iff hn, hexToInt_intToHex4 hn h]
  exact UInt32.toNat_ofNat_of_lt' (by
    show n < 4294967296
    omega)

theorem fits_lt {c : ChatLine} (h : c.Fits) : c.len < 65536 := by
  unfold ChatLine.Fits at h
  omega

section Datagrams

variable {c : ChatLine} {mem : Residue} {src : SockAddr}

/-- What one call of `recv_message` and the skip of the length make of a datagram. -/
def bodyOf (mem : Residue) (d : Datagram) : Except Fault Bytes :=
  (store (filled mem d) (msgLen mem d - 1).toNat 0).bind fun m => stringAt (m.drop 4) 4

theorem recvMessages_cons (mem : Residue) (mems : List Residue) (d : Datagram)
    (queue : List Datagram) : recvMessages (mem :: mems) (d :: queue) =
      (recvMessages mems queue).map fun p => ((bodyOf mem d, d.src) :: p.1, p.2) := by
  rw [recvMessages, recvMessage_cons]
  cases h : recvMessages mems queue <;> simp [h, bodyOf]

theorem receive_bodyOf (mem : Residue) (d : Datagram) :
    receive .v5Listen mem d = (bodyOf mem d).map .print := by
  rw [receive, recvMessage_cons, bodyOf]
  cases store (filled mem d) (msgLen mem d - 1).toNat 0 <;> rfl

theorem msgLen_chat_iff (hc : c.Fits) :
    (msgLen mem (chatDatagram src c)).toNat = c.len ↔ Undisturbed c.len mem.hex := by
  rw [msgLen, headerText_chat hc.lt, hexToInt_header_iff (fits_lt hc)]

theorem bodyOf_chat (hc : c.Fits) (h : Undisturbed c.len mem.hex) :
    bodyOf mem (chatDatagram src c) = .ok c.text := by
  have hread := recvMessage_frame src [] ((msgLen_chat_iff hc).2 h) hc
  rw [recvMessage_cons, Option.some.injEq, Prod.mk.injEq] at hread
  rw [bodyOf, hread.1]
  exact stringAt_frame hc

theorem bodyOf_visible {d : Datagram} {text : Bytes} (h : bodyOf mem d = .ok text) :
    5 ≤ (msgLen mem d).toNat ∧ visible mem d = text := by
  have hreceive := receive_bodyOf mem d
  rw [h] at hreceive
  have hfive : 5 ≤ (msgLen mem d).toNat :=
    (five_le_iff _).2 ((inside_iff .v5Listen mem d rfl).1 ⟨_, hreceive⟩)
  rw [receive_five mem rfl hfive] at hreceive
  injection hreceive with hprint
  injection hprint with htext
  exact ⟨hfive, htext⟩

theorem drop_payload (hc : c.Fits) : (chatDatagram src c).payload.drop 4 = c.text := by
  change c.frame.drop 4 = c.text
  rw [hc.frame_eq]
  exact List.drop_left' (intToHex4_length _)

/-- A length that is too short cuts the text, and one that is too long shows the
    block, of which two contents make two texts. -/
theorem undisturbed_of_bodyOf (hc : c.Fits)
    (h : ∀ heap, bodyOf { mem with heap := heap } (chatDatagram src c) = .ok c.text) :
    Undisturbed c.len mem.hex := by
  rw [← @msgLen_chat_iff c mem src hc]
  have hframe : (chatDatagram src c).payload.length + 1 = c.len := hc.frame_length
  have htext := c.text_length
  have hbody := @drop_payload c src hc
  obtain ⟨hfive, hzeros⟩ := bodyOf_visible (h fun _ => 0)
  obtain ⟨_, hones⟩ := bodyOf_visible (h fun _ => 1)
  change 5 ≤ (msgLen mem (chatDatagram src c)).toNat at hfive
  rcases le_or_gt (msgLen mem (chatDatagram src c)).toNat
    (max (chatDatagram src c).payload.length 4 + 1) with hle | hgt
  · rw [visible_covered { mem with heap := fun _ => 0 } hle, hbody] at hzeros
    have hshort := congrArg List.length hzeros
    have hcut : (cstr (c.text.take ((msgLen mem (chatDatagram src c)).toNat - 5))).length ≤
        (msgLen mem (chatDatagram src c)).toNat - 5 :=
      (List.takeWhile_prefix _).length_le.trans (List.length_take_le _ _)
    change (cstr (c.text.take ((msgLen mem (chatDatagram src c)).toNat - 5))).length =
      c.text.length at hshort
    omega
  · have hnul : 0 ∉ (chatDatagram src c).payload.drop 4 := hbody ▸ c.text_nul
    obtain ⟨k, hk⟩ := visible_ones hgt hnul
    rw [hones, hbody] at hk
    have hlong := congrArg List.length hk
    rw [List.length_append, List.length_cons] at hlong
    omega

end Datagrams

section Turn

variable {c : ChatLine} {r stack : Bytes} {connfd : Chunks UInt8}

theorem size_iff (hc : c.Fits) (hconn : connfd.bytes = c.frame ++ r)
    (hfull : (connfd.read 4).1.length = 4) :
    (hexToInt (blit (connfd.read 4).1 stack) - 5).toNat = c.text.length ↔
      Undisturbed c.len stack := by
  have htext := c.text_length
  have hlt := fits_lt hc
  have hfive : (5 : UInt32).toNat = 5 := rfl
  rw [(read_header_whole hc.lt hconn hfull).1, blit, intToHex4_length, ← hexToInt_header_iff hlt,
    UInt32.toNat_sub, hfive]
  have hword := (hexToInt (intToHex4 (Int32.ofNat c.len) ++ stack.drop 4)).toNat_lt
  constructor <;> intro h <;> omega

theorem readFrame_said (heap : ℕ → UInt8) (hc : c.Fits) (hconn : connfd.bytes = c.frame ++ r)
    (hfull : (connfd.read 4).1.length = 4) (h : Undisturbed c.len stack) :
    (readFrame stack heap (connfd.read 4)).text = c.text := by
  have hended : Ended (c.text.length, c.text ++ r) := by
    left
    simp
  rw [@readFrame_text_eq (fun _ => stack) heap (connfd.read 4) 0, (size_iff hc hconn hfull).2 h,
    (read_header_whole hc.lt hconn hfull).2, frame_text_ended heap hended, List.take_left' rfl]
  rw [← cstr_terminator]
  exact cstr_terminated c.text [] c.text_nul

/-- The next header is where the turn has left the stream, so that it can only
    have asked for too much behind the last frame, and shows its block there. -/
theorem undisturbed_of_turn (hc : c.Fits) (hconn : connfd.bytes = c.frame ++ r)
    (hfull : (connfd.read 4).1.length = 4)
    (hrest : (readFrame stack (fun _ => 0) (connfd.read 4)).rest.bytes = r)
    (hsame : (readFrame stack (fun _ => 1) (connfd.read 4)).text =
      (readFrame stack (fun _ => 0) (connfd.read 4)).text) : Undisturbed c.len stack := by
  have hbody := (read_header_whole hc.lt hconn hfull).2
  rw [← size_iff hc hconn hfull]
  rw [readFrame, readn_snd, hbody] at hrest
  have hlen := congrArg List.length hrest
  rw [List.length_drop, List.length_append] at hlen
  by_contra hne
  have hended : ¬ Ended ((hexToInt (blit (connfd.read 4).1 stack) - 5).toNat,
      (connfd.read 4).2.bytes) := by
    rw [hbody, Ended, not_or]
    dsimp only
    have hr : r = [] := List.length_eq_zero_iff.1 (by omega)
    subst r
    rw [List.append_nil]
    rw [List.length_nil] at hlen
    exact ⟨by omega, c.text_nul⟩
  rw [@readFrame_text_eq (fun _ => stack) _ (connfd.read 4) 0,
    @readFrame_text_eq (fun _ => stack) _ (connfd.read 4) 0] at hsame
  exact frame_text_differs hended hsame

end Turn

section Loop

variable {stack hex : ℕ → Bytes} {i : ℕ} {s : SockAddr × ChatLine}
  {sent : List (SockAddr × ChatLine)} {connfd : Chunks UInt8}

theorem agreeOn_cons (heap heap' : ℕ → ℕ → UInt8) (hne : connfd.bytes ≠ []) :
    AgreeOn stack hex heap heap' i (s :: sent) connfd ↔
      bodyOf ⟨hex i, heap' i, []⟩ (chatDatagram s.1 s.2) =
          .ok (readFrame (stack i) (heap i) (connfd.read 4)).text ∧
        (readFrame (stack i) (heap i) (connfd.read 4)).rest.bytes = stream (sent.map Prod.snd) ∧
        AgreeOn stack hex heap heap' (i + 1) sent
          (readFrame (stack i) (heap i) (connfd.read 4)).rest := by
  have hcalls : calls hex heap' i (s :: sent).length =
      ⟨hex i, heap' i, []⟩ :: calls hex heap' (i + 1) sent.length := by
    rw [calls, List.length_cons, List.range'_succ, List.map_cons, ← calls]
  have hqueue : datagrams (s :: sent) = chatDatagram s.1 s.2 :: datagrams sent := rfl
  rw [AgreeOn, AgreeOn, hcalls, hqueue, recvMessages_cons, listenerTask_cons hne]
  generalize bodyOf ⟨hex i, heap' i, []⟩ (chatDatagram s.1 s.2) = body
  generalize readFrame (stack i) (heap i) (connfd.read 4) = printed
  generalize listenerTask stack heap (i + 1) printed.rest = later
  generalize recvMessages (calls hex heap' (i + 1) sent.length) (datagrams sent) = result
  constructor
  · rintro ⟨⟨received, hreceived, htexts⟩, hrests⟩
    obtain ⟨⟨more, left⟩, hmore, hcons⟩ := Option.map_eq_some_iff.1 hreceived
    injection hcons with hreceived hleft
    subst hreceived hleft
    rw [List.map_cons, List.map_cons, List.cons.injEq] at htexts
    refine ⟨htexts.1, ?_, ⟨more, hmore, htexts.2⟩, fun j hj => ?_⟩
    · simpa using hrests 0 (by simp)
    · simpa using hrests (j + 1) (by simpa using hj)
  · rintro ⟨hbody, hrest, ⟨more, hmore, htexts⟩, hrests⟩
    refine ⟨⟨(body, s.1) :: more, ?_, ?_⟩, ?_⟩
    · rw [hmore]
      rfl
    · rw [List.map_cons, List.map_cons, hbody, htexts]
    · rintro (_ | j) hj
      · simpa using hrest
      · simpa using hrests j (by simpa using hj)

theorem headersAlone_cons : HeadersAlone stack hex i (s :: sent) ↔
    (Undisturbed s.2.len (stack i) ∧ Undisturbed s.2.len (hex i)) ∧
      HeadersAlone stack hex (i + 1) sent := by
  constructor
  · intro h
    refine ⟨h 0 s rfl, fun j t ht => ?_⟩
    rw [Nat.add_right_comm, Nat.add_assoc]
    exact h (j + 1) t ht
  · rintro ⟨hfirst, h⟩ (_ | j) t ht
    · cases ht
      exact hfirst
    · rw [← Nat.add_assoc, Nat.add_right_comm]
      exact h j t ht

variable (hfits : ∀ s ∈ sent, s.2.Fits) (hconn : connfd.bytes = stream (sent.map Prod.snd))
  (hwhole : HeadersWhole connfd (sent.map Prod.snd))

include hfits hconn hwhole

theorem agree_iff : Agree stack hex i sent connfd ↔ HeadersAlone stack hex i sent := by
  induction sent generalizing i connfd with
  | nil =>
    have hnil : (connfd.read 4).1 = [] := (connfd.read_eq_nil_iff (by decide)).2 hconn
    refine iff_of_true (fun heap heap' => ⟨⟨[], rfl, ?_⟩, ?_⟩) ?_
    · rw [listenerTask, dif_pos hnil]
      rfl
    · intro j hj
      simp at hj
    · intro j s hs
      simp at hs
  | cons s sent ih =>
    obtain ⟨hfit, hfits⟩ := List.forall_mem_cons.1 hfits
    have hne : connfd.bytes ≠ [] := hconn ▸ stream_ne_nil hfit.lt
    have hfirst : ∀ p, 0 < p → p < 4 → ¬ connfd.IsCut p := by
      simpa [stream] using hwhole 0 (by simp)
    have hfull := (read_full hfit.lt hconn).2 hfirst
    have hnext : Undisturbed s.2.len (stack i) → ∀ heap,
        (readFrame (stack i) heap (connfd.read 4)).rest.bytes = stream (sent.map Prod.snd) ∧
        HeadersWhole (readFrame (stack i) heap (connfd.read 4)).rest (sent.map Prod.snd) := by
      intro h heap
      obtain ⟨hbytes, hcuts⟩ :=
        readFrame_takes heap hfit.lt hconn hfull ((size_iff hfit hconn hfull).2 h)
      exact ⟨hbytes, ((headersWhole_cons hcuts).1 hwhole).2⟩
    rw [headersAlone_cons]
    constructor
    · intro h
      have hturn := fun heap heap' => (agreeOn_cons heap heap' hne).1 (h heap heap')
      have hstack : Undisturbed s.2.len (stack i) := by
        refine undisturbed_of_turn hfit hconn hfull (hturn (fun _ _ => 0) fun _ _ => 0).2.1 ?_
        have heq := (hturn (fun _ _ => 1) fun _ _ => 0).1.symm.trans
          (hturn (fun _ _ => 0) fun _ _ => 0).1
        injection heq
      have hhex : Undisturbed s.2.len (hex i) := by
        refine @undisturbed_of_bodyOf s.2 ⟨hex i, fun _ => 0, []⟩ s.1 hfit fun heap => ?_
        rw [(hturn (fun _ _ => 0) fun _ => heap).1, readFrame_said _ hfit hconn hfull hstack]
      refine ⟨⟨hstack, hhex⟩, ?_⟩
      obtain ⟨hbytes, hrest⟩ := hnext hstack fun _ => 0
      refine (ih hfits hbytes hrest).1 fun heap heap' => ?_
      exact (hturn heap heap').2.2
    · rintro ⟨⟨hstack, hhex⟩, halone⟩ heap heap'
      obtain ⟨hbytes, hrest⟩ := hnext hstack (heap i)
      rw [agreeOn_cons heap heap' hne, readFrame_said _ hfit hconn hfull hstack]
      exact ⟨bodyOf_chat hfit hhex, hbytes, (ih hfits hbytes hrest).2 halone heap heap'⟩

/-- Where no hexadecimal digit stands directly behind either array, `hex_to_int`
    sees just the header, and the decoders agree. -/
theorem decoders_agree (hstack : ∀ j, Isolated ((stack j).drop 4))
    (hhex : ∀ j, Isolated ((hex j).drop 4)) : Agree stack hex 0 sent connfd := by
  refine (agree_iff hfits hconn hwhole).2 fun j s hs => ?_
  have hlt := fits_lt (hfits s (List.mem_of_getElem? hs))
  exact ⟨undisturbed_of_isolated hlt (hstack _), undisturbed_of_isolated hlt (hhex _)⟩

/-- Whatever is in their blocks, the two decoders show the same texts of these
    frames, and the one on the stream is at the start of a header behind each,
    exactly when in neither the length of a header is read on into another. -/
theorem decoders_agree_iff : Agree stack hex 0 sent connfd ↔ HeadersAlone stack hex 0 sent :=
  agree_iff hfits hconn hwhole

end Loop

/-- Two frames from two sources; on the stream they are `StreamReceive.pieces`. -/
def pair : List (SockAddr × ChatLine) :=
  [(⟨⟨10, 0, 0, 2⟩, 40000⟩, lineAB), (⟨⟨10, 0, 0, 3⟩, 40001⟩, lineHi)]

theorem decoders_agree_pair :
    Agree (fun j => ascii "000b" ++ [UInt8.ofNat j]) (fun _ => ascii "0009user") 0 pair
      (arriving pieces (by decide)) := by
  refine (decoders_agree_iff (by decide) rfl pieces_headersWhole).2 ?_
  rintro (_ | _ | j) s hs
  · cases hs
    decide
  · cases hs
    decide
  · cases hs

/-- With a digit behind the array the first length is read as `0x91`: one text
    takes in both frames, and which it is shows the block besides. -/
theorem decoders_differ :
    (listenerTask (fun _ => ascii "....1") (fun _ _ => 0) 0
      (arriving pieces (by decide))).map Printed.text = [ascii "a: b000bbo: hi"] ∧
    recvMessages (calls (fun _ => []) (fun _ _ => 0) 0 2) (datagrams pair) =
      some ([(.ok (ascii "a: b"), ⟨⟨10, 0, 0, 2⟩, 40000⟩),
        (.ok (ascii "bo: hi"), ⟨⟨10, 0, 0, 3⟩, 40001⟩)], []) ∧
    ¬ AgreeOn (fun _ => ascii "....1") (fun _ => []) (fun _ _ => 0) (fun _ _ => 0) 0 pair
      (arriving pieces (by decide)) ∧
    ¬ Agree (fun _ => []) (fun _ => ascii "....1") 0 pair (arriving pieces (by decide)) := by
  have hstream : (listenerTask (fun _ => ascii "....1") (fun _ _ => 0) 0
      (arriving pieces (by decide))).map Printed.text = [ascii "a: b000bbo: hi"] := by
    rw [listenerTask_cons (by decide), listenerTask, dif_pos]
    · decide
    · apply (Chunks.read_eq_nil_iff _ (by decide)).2
      rw [readFrame, readn_snd]
      decide
  refine ⟨hstream, rfl, ?_, ?_⟩
  · rintro ⟨⟨received, hreceived, htexts⟩, _⟩
    have hlen := congrArg List.length htexts
    have htwo : received.length = 2 := by
      rw [show recvMessages _ _ = some _ from rfl, Option.some.injEq, Prod.mk.injEq] at hreceived
      rw [← hreceived.1]
      rfl
    rw [List.length_map, List.length_map, htwo, ← List.length_map, hstream] at hlen
    exact absurd hlen (by decide)
  · intro h
    have halone := (agree_iff (by decide) rfl pieces_headersWhole).1 h
    exact absurd (halone 0 _ rfl).2 (by decide)

end LanChat.DecoderAgreement

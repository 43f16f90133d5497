import LanChat.FrameCodec

set_option autoImplicit false

/-!
# The blocks that the two encoders of `lib/str_utils.c` fill

Each computes the size of its frame from lengths and has `snprintf` format into
a block of that size. What the block held before shows where nothing is written.
-/
namespace LanChat.EncoderBuffers
open CStrings HexText FrameCodec

/-- The block after `snprintf(block, n, …)` has formatted `text`. -/
def snprintfInto (n : ℕ) (text block : Bytes) : Except Fault Bytes :=
  if n = 0 then .ok block
  else
    let written := text.take (n - 1) ++ [0]
    if written.length ≤ block.length then .ok (blit written block)
    else .error (.write block.length)

/-- `int_to_hex_4` on the array that it is given. -/
def intToHex4Into (num : Int32) (hex : Bytes) : Except Fault Bytes := do
  let hex ← snprintfInto 5 ((numeral 16 num.toUInt32.toNat).leftpad 4 48) hex
  store hex 4 0

/-- `create_send_msg` with its local `hex_len` and the block of `malloc`. -/
def createSendMsgInto (heap : ℕ → UInt8) (hexLen message userName : Bytes) :
    Except Fault Bytes := do
  let message := chomp message
  let toSendLen := Int32.ofNat (4 + userName.length + 2 + message.length + 1)
  let hexLen ← intToHex4Into toSendLen hexLen
  let toSend := malloc (sizeT toSendLen) heap
  snprintfInto (sizeT toSendLen) (cstr hexLen ++ userName ++ ascii ": " ++ message) toSend

/-- `create_send_msg_static` with its local `hex_len` and the caller's array. -/
def createSendMsgStaticInto (hexLen message toSend : Bytes) : Except Fault Bytes := do
  let toSendLen := Int32.ofNat (4 + message.length + 1)
  let hexLen ← intToHex4Into toSendLen hexLen
  snprintfInto (sizeT toSendLen) (cstr hexLen ++ message) toSend

theorem snprintfInto_fits {n : ℕ} {text block : Bytes} (hfit : text.length < n)
    (hblock : text.length < block.length) :
    snprintfInto n text block = .ok (text ++ [0] ++ block.drop (text.length + 1)) := by
  have htake : text.take (n - 1) = text := List.take_of_length_le (by omega)
  rw [snprintfInto, if_neg (by omega), htake]
  dsimp only
  rw [if_pos (by simpa using hblock), blit, List.length_append, List.length_singleton]

theorem snprintfInto_five {text hex : Bytes} (htext : 4 ≤ text.length) (hhex : hex.length = 5) :
    snprintfInto 5 text hex = .ok (snprintf 5 text ++ [0]) := by
  have hlen : (text.take (5 - 1) ++ [0]).length = 5 := by
    rw [List.length_append, List.length_take_of_le htext]
    rfl
  rw [snprintfInto, if_neg (by decide)]
  dsimp only
  rw [if_pos (by omega), blit, hlen, List.drop_of_length_le hhex.le, List.append_nil]
  rfl

theorem intToHex4Into_eq (num : Int32) {hex : Bytes} (hhex : hex.length = 5) :
    intToHex4Into num hex = .ok (intToHex4 num ++ [0]) := by
  have hfour : 4 ≤ ((numeral 16 num.toUInt32.toNat).leftpad 4 48).length := by
    simp only [List.leftpad, List.length_append, List.length_replicate]
    omega
  have hlen := intToHex4_length num
  have hstore : store (intToHex4 num ++ [0]) 4 0 = .ok (intToHex4 num ++ [0]) := by
    rw [store, if_pos (by rw [List.length_append, hlen]; decide),
      List.set_append_right _ _ hlen.le, hlen]
    rfl
  rw [intToHex4Into, snprintfInto_five hfour hhex]
  exact hstore

theorem cstr_hex (num : Int32) : cstr (intToHex4 num ++ [0]) = intToHex4 num :=
  cstr_terminated _ [] (intToHex4_zero_notMem num)

/-- The static encoder writes as many bytes as it has counted, the last of them
    a NUL. -/
theorem createSendMsgStaticInto_eq {message hexLen toSend : Bytes}
    (hlen : message.length + 5 < 2 ^ 31) (hhex : hexLen.length = 5)
    (hroom : message.length + 5 ≤ toSend.length) :
    createSendMsgStaticInto hexLen message toSend =
      .ok (intToHex4 (Int32.ofNat (message.length + 5)) ++ message ++ [0] ++
        toSend.drop (message.length + 5)) := by
  have hsum : 4 + message.length + 1 = message.length + 5 := by omega
  have htext : (intToHex4 (Int32.ofNat (message.length + 5)) ++ message).length =
      message.length + 4 := by
    rw [List.length_append, intToHex4_length, Nat.add_comm]
  rw [createSendMsgStaticInto, hsum, intToHex4Into_eq _ hhex]
  change snprintfInto _ _ _ = _
  rw [sizeT_ofNat hlen, cstr_hex, snprintfInto_fits (by omega) (by omega), htext]

/-- So does the one that allocates its block, of which nothing is left over. -/
theorem createSendMsgInto_eq {c : ChatLine} (heap : ℕ → UInt8) {hexLen : Bytes}
    (hlen : c.len < 2 ^ 31) (hhex : hexLen.length = 5) :
    createSendMsgInto heap hexLen c.message c.userName =
      .ok (intToHex4 (Int32.ofNat c.len) ++ c.text ++ [0]) := by
  have hsum : 4 + c.userName.length + 2 + (chomp c.message).length + 1 = c.len := by
    rw [ChatLine.len, lengthField]
    omega
  have hbody := c.text_length
  have htext : (intToHex4 (Int32.ofNat c.len) ++ c.text).length = c.len - 1 := by
    rw [List.length_append, intToHex4_length]
    omega
  rw [createSendMsgInto]
  dsimp only
  rw [hsum, intToHex4Into_eq _ hhex]
  change snprintfInto _ _ _ = _
  rw [sizeT_ofNat hlen, cstr_hex, List.append_assoc, List.append_assoc,
    ← List.append_assoc c.userName]
  change snprintfInto _ (_ ++ c.text) _ = _
  rw [snprintfInto_fits (by omega) (by rw [malloc_length]; omega), htext, List.drop_of_length_le]
  · exact congrArg Except.ok (List.append_nil _)
  · rw [malloc_length]
    omega

theorem createSendMsgInto_frame {c : ChatLine} (heap : ℕ → UInt8) {hexLen : Bytes}
    (hlen : c.len < 2 ^ 31) (hhex : hexLen.length = 5) :
    createSendMsgInto heap hexLen c.message c.userName = .ok (c.frame ++ [0]) := by
  have hframe : c.frame = intToHex4 (Int32.ofNat c.len) ++ c.text := createSendMsg_eq hlen
  rw [createSendMsgInto_eq heap hlen hhex, hframe]

theorem createSendMsgStaticInto_frame {message hexLen toSend : Bytes}
    (hlen : message.length + 5 < 2 ^ 31) (hhex : hexLen.length = 5)
    (hsize : toSend.length = message.length + 5) :
    createSendMsgStaticInto hexLen message toSend = .ok (createSendMsgStatic message ++ [0]) := by
  have hsum : 4 + message.length + 1 = message.length + 5 := by omega
  have hframe : createSendMsgStatic message =
      intToHex4 (Int32.ofNat (message.length + 5)) ++ message := by
    rw [createSendMsgStatic, hsum, sizeT_ofNat hlen]
    apply snprintf_fits
    rw [List.length_append, intToHex4_length]
    omega
  rw [createSendMsgStaticInto_eq hlen hhex hsize.ge, hframe, List.drop_of_length_le hsize.le,
    List.append_nil]

/-- The arrays of `auth_accept` and `auth_request` hold their frames exactly. -/
theorem auth_frames {hexLen array : Bytes} (hhex : hexLen.length = 5)
    (harray : array.length = 4 + authOfc.length + 1) :
    createSendMsgStaticInto hexLen authOfc array = .ok (ascii "000eauth: OFC" ++ [0]) ∧
      createSendMsgStaticInto hexLen authCan array = .ok (ascii "000eauth: CAN" ++ [0]) := by
  have hfourteen : array.length = 14 := harray
  constructor
  · rw [createSendMsgStaticInto_frame (by decide) hhex hfourteen, createSendMsgStatic_authOfc]
  · rw [createSendMsgStaticInto_frame (by decide) hhex hfourteen, createSendMsgStatic_authCan]

/-- Of a name and a message, and of the text that they make, the two encoders
    write the same bytes: the size in four characters, the body and a NUL, which
    is the last byte of the computed size. -/
theorem encoders_agree (c : ChatLine) (hlen : c.total < 2 ^ 31) (heap : ℕ → UInt8)
    (hexLen hexLen' toSend : Bytes) (hhex : hexLen.length = 5) (hhex' : hexLen'.length = 5)
    (hroom : c.total ≤ toSend.length) :
    (headerOf c.total).length = 4 ∧ (headerOf c.total ++ c.said ++ [0]).length = c.total ∧
      createSendMsgInto heap hexLen c.message c.userName =
        .ok (headerOf c.total ++ c.said ++ [0]) ∧
      createSendMsgStaticInto hexLen' c.said toSend =
        .ok (headerOf c.total ++ c.said ++ [0] ++ toSend.drop c.total) := by
  have hsize := c.text_length
  rw [← c.len_eq_total] at hlen hroom
  rw [← c.text_eq_said, ← c.len_eq_total]
  refine ⟨headerOf_length _, ?_, ?_, ?_⟩
  · simp only [List.length_append, headerOf_length, List.length_singleton]
    omega
  · rw [← intToHex4_eq_headerOf hlen]
    exact createSendMsgInto_eq heap hlen hhex
  · have hinto := @createSendMsgStaticInto_eq c.text hexLen' toSend (hsize ▸ hlen) hhex'
      (hsize ▸ hroom)
    rw [hsize, intToHex4_eq_headerOf hlen] at hinto
    exact hinto

def greeting : ChatLine := ⟨ascii "ann", ascii "hello\n", by decide, by decide⟩

theorem encoders_agree_greeting :
    createSendMsgInto (fun _ => 7) [1, 1, 1, 1, 1] (ascii "hello\n") (ascii "ann") =
      .ok (ascii "000fann: hello" ++ [0]) ∧
    createSendMsgStaticInto [2, 2, 2, 2, 2] (ascii "ann: hello") (List.replicate 17 3) =
      .ok (ascii "000fann: hello" ++ [0] ++ [3, 3]) :=
  (encoders_agree greeting (by decide) (fun _ => 7) [1, 1, 1, 1, 1] [2, 2, 2, 2, 2]
    (List.replicate 17 3) rfl rfl (by decide)).2.2

end LanChat.EncoderBuffers

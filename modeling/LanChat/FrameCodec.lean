import LanChat.HexText

set_option autoImplicit false

/-!
# The pkt-line frames of `lib/str_utils.c`

A frame is four hexadecimal digits and a body. The digits count the whole
frame and a terminating NUL that no sender transmits.
-/
namespace LanChat.FrameCodec
open CStrings HexText

def authCan : Bytes := ascii "auth: CAN"
def authOfc : Bytes := ascii "auth: OFC"

/-- `snprintf(hex, 5, "%04x", num)`: at least four digits are produced, and
    only four of them fit. -/
def intToHex4 (num : Int32) : Bytes :=
  snprintf 5 ((numeral 16 num.toUInt32.toNat).leftpad 4 48)

/-- What `sscanf` does not convert leaves `dec` at zero. -/
def hexToInt (hex : Bytes) : UInt32 := (sscanfX hex).getD 0

def chomp (str : Bytes) : Bytes := str.take (strcspn str (ascii "\r\n"))

/-- An `int` where a `size_t` is expected. -/
def sizeT (n : Int32) : ℕ := (n.toInt % 2 ^ 64).toNat

def createSendMsg (message userName : Bytes) : Bytes :=
  let message := chomp message
  let toSendLen := Int32.ofNat (4 + userName.length + 2 + message.length + 1)
  snprintf (sizeT toSendLen) (intToHex4 toSendLen ++ userName ++ ascii ": " ++ message)

def createSendMsgStatic (message : Bytes) : Bytes :=
  let toSendLen := Int32.ofNat (4 + message.length + 1)
  snprintf (sizeT toSendLen) (intToHex4 toSendLen ++ message)

def body (userName message : Bytes) : Bytes := userName ++ ascii ": " ++ chomp message

/-- The length that the header of a chat frame is meant to carry. -/
def lengthField (userName message : Bytes) : ℕ := userName.length + (chomp message).length + 7

theorem zero_notMem_chomp {str : Bytes} (h : 0 ∉ str) : 0 ∉ chomp str :=
  fun hz => h (List.mem_of_mem_take hz)

theorem zero_notMem_body {u m : Bytes} (hu : 0 ∉ u) (hm : 0 ∉ m) : 0 ∉ body u m := by
  simp only [body, List.mem_append, not_or]
  exact ⟨⟨hu, by decide⟩, zero_notMem_chomp hm⟩

theorem body_length (u m : Bytes) : (body u m).length + 5 = lengthField u m := by
  have hsep : (ascii ": ").length = 2 := rfl
  simp only [body, lengthField, List.length_append, hsep]
  omega

theorem intToHex4_length (num : Int32) : (intToHex4 num).length = 4 := by
  simp only [intToHex4, snprintf, List.length_take, List.leftpad, List.length_append,
    List.length_replicate]
  omega

theorem intToHex4_isxdigit (num : Int32) : ∀ c ∈ intToHex4 num, isxdigit c = true := by
  intro c hc
  exact leftpad_isxdigit 4 _ (numeral_isxdigit (by decide) (by decide)) c (List.mem_of_mem_take hc)

theorem intToHex4_zero_notMem (num : Int32) : 0 ∉ intToHex4 num :=
  fun h => absurd (intToHex4_isxdigit num 0 h) (by decide)

theorem toUInt32_toNat {n : ℕ} (h : n < 2 ^ 32) : (Int32.ofNat n).toUInt32.toNat = n := by
  rw [Int32.toUInt32_ofNat']
  exact UInt32.toNat_ofNat_of_lt' h

theorem sizeT_ofNat {n : ℕ} (h : n < 2 ^ 31) : sizeT (Int32.ofNat n) = n := by
  rw [sizeT, Int32.toInt_ofNat_of_lt h]
  omega

/-- A header as text, apart from `int_to_hex_4`: the length in hexadecimal, padded
    to four characters or cut to its first four. -/
def headerOf (n : ℕ) : Bytes := ((numeral 16 n).leftpad 4 48).take 4

theorem headerOf_length (n : ℕ) : (headerOf n).length = 4 := by
  simp only [headerOf, List.length_take, List.leftpad, List.length_append, List.length_replicate]
  omega

theorem intToHex4_eq_headerOf {n : ℕ} (h : n < 2 ^ 31) :
    intToHex4 (Int32.ofNat n) = headerOf n := by
  rw [intToHex4, toUInt32_toNat (by omega)]
  rfl

theorem value_intToHex4 {n : ℕ} (h : n < 65536) : value (intToHex4 (Int32.ofNat n)) = n := by
  have hlen : (numeral 16 n).length ≤ 4 := numeral_length_le (k := 4) (by decide) h
  have hpad : ((numeral 16 n).leftpad 4 48).length = 4 := by
    simp only [List.leftpad, List.length_append, List.length_replicate]
    omega
  rw [intToHex4, toUInt32_toNat (by omega), snprintf_fits _ _ (by omega), value_leftpad,
    value_numeral]

theorem value_intToHex4_ge {n : ℕ} (h : 65536 ≤ n) (h' : n < 2 ^ 32) :
    4096 ≤ value (intToHex4 (Int32.ofNat n)) := by
  have hlen : 4 < (numeral 16 n).length := lt_numeral_length (k := 4) h
  have hpad : (numeral 16 n).leftpad 4 48 = numeral 16 n := by
    simp [List.leftpad, show 4 - (numeral 16 n).length = 0 by omega]
  have hn : n ≠ 0 := by omega
  rw [intToHex4, toUInt32_toNat h', hpad, snprintf, value_take_numeral n 4 (by omega)]
  have hle : 16 ^ ((numeral 16 n).length - 1) ≤ n := by
    by_contra hlt
    have hle := numeral_length_le (show 0 < (numeral 16 n).length - 1 by omega) (not_le.1 hlt)
    omega
  have hsplit : 16 ^ ((numeral 16 n).length - 1) = 4096 * 16 ^ ((numeral 16 n).length - 4) := by
    rw [show (4096 : ℕ) = 16 ^ 3 from rfl, ← pow_add]
    congr 1
    omega
  rw [Nat.le_div_iff_mul_le (Nat.pow_pos (by decide))]
  omega

theorem hexToInt_digits {ds tail : Bytes} (hds : ∀ c ∈ ds, isxdigit c = true)
    (hlen : ds.length = 4) (htail : Isolated tail) :
    hexToInt (ds ++ tail) = UInt32.ofNat (value ds) := by
  have hv := value_lt ds hds
  have hne : ds ≠ [] := by
    rintro rfl
    simp at hlen
  rw [hlen] at hv
  rw [hexToInt, sscanfX_digits ds tail hds hne (.inl (by omega)) (by omega) htail]
  rfl

theorem hexToInt_intToHex4 {n : ℕ} {tail : Bytes} (h : n < 65536) (htail : Isolated tail) :
    hexToInt (intToHex4 (Int32.ofNat n) ++ tail) = UInt32.ofNat n := by
  rw [hexToInt_digits (intToHex4_isxdigit _) (intToHex4_length _) htail, value_intToHex4 h]

theorem hexToInt_lt {ds : Bytes} (hds : ∀ c ∈ ds, isxdigit c = true) (hlen : ds.length ≤ 4) :
    (hexToInt ds).toNat < 65536 := by
  by_cases hne : ds = []
  · subst ds
    decide
  · have hv : value ds < 65536 :=
      (value_lt ds hds).trans_le (Nat.pow_le_pow_right (by decide) hlen)
    have hs := sscanfX_digits ds [] hds hne (.inr rfl) (by omega) isolated_nil
    rw [List.append_nil] at hs
    rw [hexToInt, hs, Option.getD_some, UInt32.toNat_ofNat_of_lt' (by
      show value ds < 4294967296
      omega)]
    exact hv

theorem createSendMsg_eq {u m : Bytes} (h : lengthField u m < 2 ^ 31) :
    createSendMsg m u = intToHex4 (Int32.ofNat (lengthField u m)) ++ body u m := by
  have hsum : 4 + u.length + 2 + (chomp m).length + 1 = lengthField u m := by
    unfold lengthField
    omega
  have hb := body_length u m
  unfold createSendMsg
  simp only [hsum, sizeT_ofNat h, List.append_assoc]
  rw [← List.append_assoc u]
  exact snprintf_fits _ _ (by rw [List.length_append, intToHex4_length, ← body]; omega)

theorem createSendMsg_length {u m : Bytes} (h : lengthField u m < 2 ^ 31) :
    (createSendMsg m u).length = lengthField u m - 1 := by
  have hb := body_length u m
  rw [createSendMsg_eq h, List.length_append, intToHex4_length]
  omega

theorem createSendMsg_header {u m : Bytes} (h : lengthField u m < 2 ^ 31) :
    (createSendMsg m u).take 4 = intToHex4 (Int32.ofNat (lengthField u m)) := by
  rw [createSendMsg_eq h]
  exact List.take_left' (intToHex4_length _)

theorem createSendMsg_zero_notMem {u m : Bytes} (h : lengthField u m < 2 ^ 31) (hu : 0 ∉ u)
    (hm : 0 ∉ m) : 0 ∉ createSendMsg m u := by
  rw [createSendMsg_eq h, List.mem_append, not_or]
  exact ⟨intToHex4_zero_notMem _, zero_notMem_body hu hm⟩

theorem createSendMsg_decodes {u m : Bytes} {tail : Bytes} (h : lengthField u m ≤ 65535)
    (htail : Isolated tail) :
    (hexToInt ((createSendMsg m u).take 4 ++ tail)).toNat = lengthField u m := by
  rw [createSendMsg_header (by omega), hexToInt_intToHex4 (by omega) htail]
  exact UInt32.toNat_ofNat_of_lt' (by
    show lengthField u m < 4294967296
    omega)

theorem createSendMsg_header_isxdigit (u m : Bytes) :
    ∀ c ∈ (createSendMsg m u).take 4, isxdigit c = true := by
  intro c hc
  simp only [createSendMsg, snprintf, List.append_assoc, List.take_take] at hc
  rw [List.take_append_of_le_length (by rw [intToHex4_length]; omega)] at hc
  exact intToHex4_isxdigit _ c (List.mem_of_mem_take hc)

theorem createSendMsg_overflow {u m : Bytes} (h : 65535 < lengthField u m) :
    (hexToInt ((createSendMsg m u).take 4)).toNat ≠ lengthField u m := by
  have hlt := hexToInt_lt (createSendMsg_header_isxdigit u m) (List.length_take_le 4 _)
  omega

/-- A line of chat as it reaches `create_send_msg`: two C strings. -/
structure ChatLine where
  userName : Bytes
  message : Bytes
  userName_nul : 0 ∉ userName
  message_nul : 0 ∉ message

namespace ChatLine

def frame (c : ChatLine) : Bytes := createSendMsg c.message c.userName
def text (c : ChatLine) : Bytes := body c.userName c.message
def len (c : ChatLine) : ℕ := lengthField c.userName c.message

/-- The message up to its first line end. -/
def line (c : ChatLine) : Bytes := c.message.takeWhile (· ∉ ascii "\r\n")

/-- What a receiver is to see of it, and the length that its header is to carry,
    whatever `chomp` does. -/
def said (c : ChatLine) : Bytes := c.userName ++ ascii ": " ++ c.line
def total (c : ChatLine) : ℕ := c.userName.length + c.line.length + 7

/-- The length fits the four digits of the header. -/
def Fits (c : ChatLine) : Prop := c.len ≤ 65535

instance (c : ChatLine) : Decidable c.Fits := inferInstanceAs (Decidable (c.len ≤ 65535))

theorem chomp_eq_line (c : ChatLine) : chomp c.message = c.line := take_strcspn _ _

theorem text_eq_said (c : ChatLine) : c.text = c.said := by
  rw [text, body, chomp_eq_line, said]

theorem len_eq_total (c : ChatLine) : c.len = c.total := by
  rw [len, lengthField, chomp_eq_line, total]

theorem text_nul (c : ChatLine) : 0 ∉ c.text := zero_notMem_body c.userName_nul c.message_nul

theorem text_length (c : ChatLine) : c.text.length + 5 = c.len := body_length _ _

theorem Fits.lt {c : ChatLine} (h : c.Fits) : c.len < 2 ^ 31 := by
  unfold Fits at h
  omega

theorem Fits.frame_eq {c : ChatLine} (h : c.Fits) :
    c.frame = intToHex4 (Int32.ofNat c.len) ++ c.text := createSendMsg_eq h.lt

theorem Fits.frame_length {c : ChatLine} (h : c.Fits) : c.frame.length + 1 = c.len := by
  have hl := createSendMsg_length h.lt
  have ht := c.text_length
  change c.frame.length = c.len - 1 at hl
  omega

end ChatLine

theorem createSendMsgStatic_authCan : createSendMsgStatic authCan = ascii "000eauth: CAN" := by
  decide

theorem createSendMsgStatic_authOfc : createSendMsgStatic authOfc = ascii "000eauth: OFC" := by
  decide

end LanChat.FrameCodec

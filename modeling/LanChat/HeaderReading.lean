import LanChat.StreamBounds

set_option autoImplicit false

/-!
# The length that is read from four bytes without a terminator

`msg_len_hex` is an array of four, and `hex_to_int` reads a string. The scan
goes on behind the array unless one of the four bytes ends it.
-/
namespace LanChat.HeaderReading
open CStrings HexText FrameCodec SocketAddresses DatagramReceive ReceiveBounds ChunkedStreams
  StreamBounds

/-- The text behind blanks, a sign and `0x`, where the digits are looked for. -/
def digitsFrom (text : Bytes) : Bytes := scanPrefix (scanSign (text.dropWhile isspace)).2

/-- The scan meets a byte that is no digit before the text is over. -/
def EndsInside (text : Bytes) : Prop := ∃ c ∈ digitsFrom text, isxdigit c = false

instance (text : Bytes) : Decidable (EndsInside text) :=
  inferInstanceAs (Decidable (∃ c ∈ digitsFrom text, isxdigit c = false))

/-- Only zeros stand behind a minus sign. -/
def Unsigned (text : Bytes) : Prop := (scanItem text).1 = true → value (scanItem text).2 = 0

theorem scanItem_eq (text : Bytes) : scanItem text =
    ((scanSign (text.dropWhile isspace)).1, (digitsFrom text).takeWhile isxdigit) := rfl

theorem dropWhile_append_ne {p : UInt8 → Bool} {text : Bytes} (r : Bytes)
    (h : text.dropWhile p ≠ []) : (text ++ r).dropWhile p = text.dropWhile p ++ r := by
  rw [List.dropWhile_append, if_neg]
  rwa [List.isEmpty_iff]

theorem scanSign_append {text : Bytes} (r : Bytes) (h : text ≠ []) :
    scanSign (text ++ r) = ((scanSign text).1, (scanSign text).2 ++ r) := by
  cases text with
  | nil => exact absurd rfl h
  | cons c text =>
    simp only [List.cons_append, scanSign]
    split_ifs <;> rfl

theorem scanPrefix_append {text : Bytes} (r : Bytes)
    (h : ∃ c ∈ scanPrefix text, isxdigit c = false) :
    scanPrefix (text ++ r) = scanPrefix text ++ r := by
  obtain ⟨c, hc, hno⟩ := h
  match text with
  | [] => cases hc
  | [a] =>
    have ha : c = a := List.mem_singleton.1 hc
    have hzero : a ≠ 48 := by
      rintro rfl
      rw [ha] at hno
      exact absurd hno (by decide)
    cases r with
    | nil => rfl
    | cons b r =>
      simp only [List.singleton_append, scanPrefix, hzero, false_and, ↓reduceIte]
  | a :: b :: text =>
    simp only [List.cons_append, scanPrefix]
    split_ifs <;> rfl

/-- A scan that ends inside the text reads the same of everything that begins
    with it. -/
theorem scanItem_append {text : Bytes} (h : EndsInside text) (r : Bytes) :
    scanItem (text ++ r) = scanItem text := by
  have hne : text.dropWhile isspace ≠ [] := by
    intro hnil
    obtain ⟨c, hc, _⟩ := h
    rw [digitsFrom, hnil] at hc
    cases hc
  have hfrom : digitsFrom (text ++ r) = digitsFrom text ++ r := by
    rw [digitsFrom, dropWhile_append_ne r hne, scanSign_append r hne]
    exact scanPrefix_append r h
  obtain ⟨c, hc, hno⟩ := h
  rw [scanItem_eq, scanItem_eq, hfrom, dropWhile_append_ne r hne, scanSign_append r hne,
    takeWhile_prefix_of_mem hc hno (List.prefix_append _ r)]

theorem scanPrefix_digit (text : Bytes) {x : UInt8} (hx : isxdigit x = true) :
    scanPrefix (text ++ [x]) = scanPrefix text ++ [x] := by
  match text with
  | [] => rfl
  | [a] => exact scanPrefix_digits [] hx
  | a :: b :: text =>
    simp only [List.cons_append, scanPrefix]
    split_ifs <;> rfl

theorem scanItem_digit {text : Bytes} (h : ¬ EndsInside text) {x : UInt8}
    (hx : isxdigit x = true) :
    scanItem (text ++ [x]) = ((scanItem text).1, digitsFrom text ++ [x]) := by
  have hdigits : ∀ c ∈ digitsFrom text ++ [x], isxdigit c = true := by
    intro c hc
    rcases List.mem_append.1 hc with hc | hc
    · by_contra hno
      exact h ⟨c, hc, Bool.eq_false_of_not_eq_true hno⟩
    · rwa [List.mem_singleton.1 hc]
  have hscan : scanSign ((text ++ [x]).dropWhile isspace) =
      ((scanSign (text.dropWhile isspace)).1, (scanSign (text.dropWhile isspace)).2 ++ [x]) := by
    by_cases hne : text.dropWhile isspace = []
    · have hspace : isspace x = false := isspace_of_isxdigit hx
      rw [List.dropWhile_append, hne, List.dropWhile_cons_of_neg (by simp [hspace])]
      exact scanSign_digit [] hx
    · rw [dropWhile_append_ne _ hne, scanSign_append _ hne]
  have hfrom : digitsFrom (text ++ [x]) = digitsFrom text ++ [x] := by
    rw [digitsFrom, hscan]
    exact scanPrefix_digit _ hx
  rw [scanItem_eq, scanItem_eq, hfrom, hscan, List.takeWhile_eq_self_iff.2 hdigits]

theorem value_concat (ds : Bytes) (x : UInt8) :
    value (ds ++ [x]) = xdigitVal x + 16 * value ds := by
  rw [value, List.reverse_append, List.reverse_singleton, List.singleton_append, List.map_cons,
    Nat.ofDigits_cons]
  rfl

theorem scanPrefix_suffix (text : Bytes) : scanPrefix text <:+ text := by
  match text with
  | [] | [_] => exact List.suffix_rfl
  | a :: b :: text =>
    simp only [scanPrefix]
    split_ifs
    · exact ⟨[a, b], rfl⟩
    · exact List.suffix_rfl

theorem scanSign_suffix (text : Bytes) : (scanSign text).2 <:+ text := by
  cases text with
  | nil => exact List.suffix_rfl
  | cons c text =>
    simp only [scanSign]
    split_ifs
    · exact List.suffix_cons c text
    · exact List.suffix_cons c text
    · exact List.suffix_rfl

theorem digitsFrom_suffix (text : Bytes) : digitsFrom text <:+ text :=
  (scanPrefix_suffix _).trans ((scanSign_suffix _).trans (List.dropWhile_suffix isspace))

theorem not_endsInside {text : Bytes} (h : ∀ c ∈ text, isxdigit c = true) : ¬ EndsInside text := by
  rintro ⟨c, hc, hno⟩
  rw [h c ((digitsFrom_suffix text).subset hc)] at hno
  cases hno

section Header

variable {h : Bytes}

theorem value_header (hlen : h.length = 4) {ds : Bytes} (hds : ∀ c ∈ ds, isxdigit c = true)
    (hle : ds.length ≤ (digitsFrom h).length) : value ds < 65536 := by
  have hfour := (digitsFrom_suffix h).length_le
  calc
    value ds < 16 ^ ds.length := value_lt ds hds
    _ ≤ 16 ^ 4 := Nat.pow_le_pow_right (by decide) (by omega)

theorem hexToInt_differs (hlen : h.length = 4) (hno : ¬ EndsInside h) :
    hexToInt (h ++ [49]) ≠ hexToInt (h ++ [50]) := by
  have hdigits : ∀ c ∈ digitsFrom h, isxdigit c = true := by
    intro c hc
    by_contra hn
    exact hno ⟨c, hc, Bool.eq_false_of_not_eq_true hn⟩
  have hlt := value_header hlen hdigits (le_refl _)
  have hone : xdigitVal 49 = 1 := rfl
  have htwo : xdigitVal 50 = 2 := rfl
  intro heq
  have hnat := congrArg UInt32.toNat heq
  rw [hexToInt_eq, hexToInt_eq, scanItem_digit hno (by decide), scanItem_digit hno (by decide),
    strtoul_toNat, strtoul_toNat, value_concat, value_concat, hone, htwo] at hnat
  split_ifs at hnat <;> omega

theorem hexToInt_le_iff (hlen : h.length = 4) :
    (hexToInt h).toNat ≤ 0xffff ↔ Unsigned h := by
  have hdigits : ∀ c ∈ (scanItem h).2, isxdigit c = true :=
    fun c hc => List.mem_takeWhile_imp hc
  have hlt := value_header hlen hdigits (List.takeWhile_prefix isxdigit).length_le
  rw [hexToInt_eq, strtoul_toNat, Unsigned, if_neg (by omega)]
  split_ifs with hneg
  · simp only [hneg, true_implies]
    omega
  · exact iff_of_true (by omega) fun hyes => absurd hyes hneg

end Header

/-- What `hex_to_int` makes of an array of these bytes. -/
def headerLen (h stack : Bytes) : UInt32 := hexToInt (blit h stack)

/-- What stands behind the array has no influence on the length, and four digits
    could have said it. -/
def Determined (length : Bytes → UInt32) : Prop :=
  (∀ stack stack', length stack = length stack') ∧ ∀ stack, (length stack).toNat ≤ 0xffff

theorem headerLen_append (h r : Bytes) : headerLen h (h ++ r) = hexToInt (h ++ r) := by
  rw [headerLen, blit, List.drop_left]

theorem headerLen_of_ends {h : Bytes} (hends : EndsInside h) (stack : Bytes) :
    headerLen h stack = hexToInt h := by
  rw [headerLen, blit, hexToInt_eq, hexToInt_eq, scanItem_append hends]

theorem determined_iff {h : Bytes} (hlen : h.length = 4) :
    Determined (headerLen h) ↔ EndsInside h ∧ Unsigned h := by
  constructor
  · rintro ⟨hsame, hle⟩
    have hends : EndsInside h := by
      by_contra hno
      have heq := hsame (h ++ [49]) (h ++ [50])
      rw [headerLen_append, headerLen_append] at heq
      exact hexToInt_differs hlen hno heq
    have hfirst := hle []
    rw [headerLen_of_ends hends] at hfirst
    exact ⟨hends, (hexToInt_le_iff hlen).1 hfirst⟩
  · rintro ⟨hends, hunsigned⟩
    constructor
    · intro stack stack'
      rw [headerLen_of_ends hends, headerLen_of_ends hends]
    · intro stack
      rw [headerLen_of_ends hends]
      exact (hexToInt_le_iff hlen).2 hunsigned

/-- No header of `create_send_msg` is determined: it is digits to its end. -/
theorem intToHex4_not_determined (num : Int32) : ¬ Determined (headerLen (intToHex4 num)) := by
  intro h
  exact not_endsInside (intToHex4_isxdigit num) ((determined_iff (intToHex4_length num)).1 h).1

/-- The length that `recv_message` reads of a datagram, with this behind the array. -/
def datagramLen (d : Datagram) (stack : Bytes) : UInt32 := msgLen ⟨stack, fun _ => 0, []⟩ d

/-- The length that `listener_task` reads at this place of a stream. -/
def streamLen (connfd : Chunks UInt8) (stack : Bytes) : UInt32 :=
  Turn.declared ⟨blit (connfd.read 4).1 stack, (connfd.read 4).2⟩

theorem datagramLen_eq (d : Datagram) : datagramLen d = headerLen (d.payload.take 4) := rfl

theorem streamLen_eq (connfd : Chunks UInt8) : streamLen connfd = headerLen (connfd.read 4).1 := rfl

theorem read_single {h : Bytes} (hlen : h.length = 4) (hne : ∀ p ∈ [h], p ≠ []) :
    ((⟨[h], hne⟩ : Chunks UInt8).read 4).1 = h := by
  unfold Chunks.read
  dsimp only
  rw [dif_neg (by omega)]

/-- In both decoders four bytes determine a length of at most `0xffff` exactly if
    one of them ends the scan and no number stands behind a minus sign. -/
theorem header_determined_iff (h : Bytes) (hlen : h.length = 4) :
    ((∀ d : Datagram, d.payload.take 4 = h → Determined (datagramLen d)) ↔
      EndsInside h ∧ Unsigned h) ∧
    ((∀ connfd : Chunks UInt8, (connfd.read 4).1 = h → Determined (streamLen connfd)) ↔
      EndsInside h ∧ Unsigned h) := by
  rw [← determined_iff hlen]
  refine ⟨⟨fun hall => ?_, ?_⟩, fun hall => ?_, ?_⟩
  · have htake : h.take 4 = h := List.take_of_length_le hlen.le
    have hfirst := hall ⟨⟨⟨10, 0, 0, 2⟩, chatPort⟩, h⟩ htake
    rwa [datagramLen_eq, htake] at hfirst
  · rintro hdetermined d rfl
    exact hdetermined
  · have hne : ∀ p ∈ [h], p ≠ [] := by
      intro p hp
      rw [List.mem_singleton.1 hp]
      exact List.ne_nil_of_length_pos (by omega)
    have hfirst := hall ⟨[h], hne⟩ (read_single hlen hne)
    rwa [streamLen_eq, read_single hlen hne] at hfirst
  · rintro hdetermined connfd rfl
    exact hdetermined

theorem header_determined_blank :
    Determined (datagramLen ⟨⟨⟨10, 0, 0, 2⟩, 40000⟩, ascii "009 a: b"⟩) :=
  (header_determined_iff (ascii "009 ") rfl).1.2
    ⟨by decide, fun hneg => absurd hneg (by decide)⟩ _ rfl

/-- The frame of `"a: b"` reads as nine or as `0x91`, and a header with a minus
    sign as more than four digits can say. -/
theorem header_spills :
    datagramLen ⟨⟨⟨10, 0, 0, 2⟩, 40000⟩, ascii "0009a: b"⟩ (ascii "....") = 9 ∧
    datagramLen ⟨⟨⟨10, 0, 0, 2⟩, 40000⟩, ascii "0009a: b"⟩ (ascii "....1") = 0x91 ∧
    (datagramLen ⟨⟨⟨10, 0, 0, 2⟩, 40000⟩, ascii "-1  "⟩ []).toNat = 0xffffffff ∧
    ¬ Determined (datagramLen ⟨⟨⟨10, 0, 0, 2⟩, 40000⟩, ascii "0009a: b"⟩) := by
  refine ⟨by decide, by decide, by decide, fun h => ?_⟩
  exact absurd (h.1 (ascii "....") (ascii "....1")) (by decide)

end LanChat.HeaderReading

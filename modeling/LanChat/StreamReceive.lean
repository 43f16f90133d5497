import LanChat.ChunkedStreams
import LanChat.DatagramReceive

set_option autoImplicit false

/-!
# `listener_task` of v1 and v2: frames on a TCP connection

The two versions are the same here. The header is read by one call of `read`,
the body by `Readn`.
-/
namespace LanChat.StreamReceive
open CStrings HexText FrameCodec SocketAddresses DatagramReceive ChunkedStreams

/-- The loop of `readn`; every turn but the last reads something. -/
def readnLoop : ℕ → ℕ → Chunks UInt8 → Bytes × Chunks UInt8
  | 0, _, fd => ([], fd)
  | fuel + 1, nleft, fd =>
    if nleft = 0 then ([], fd)
    else
      let got := fd.read nleft
      if got.1 = [] then ([], got.2)
      else
        let more := readnLoop fuel (nleft - got.1.length) got.2
        (got.1 ++ more.1, more.2)

def readn (fd : Chunks UInt8) (n : ℕ) : Bytes × Chunks UInt8 := readnLoop n n fd

theorem readnLoop_spec (fuel nleft : ℕ) (fd : Chunks UInt8) (h : nleft ≤ fuel) :
    (readnLoop fuel nleft fd).1 = fd.bytes.take nleft ∧
      (readnLoop fuel nleft fd).2.bytes = fd.bytes.drop nleft := by
  induction fuel generalizing nleft fd with
  | zero =>
    obtain rfl : nleft = 0 := by omega
    exact ⟨rfl, rfl⟩
  | succ fuel ih =>
    unfold readnLoop
    by_cases hz : nleft = 0
    · simp [hz]
    · have hsplit := fd.read_bytes nleft
      have hle := fd.read_length_le nleft
      simp only [hz, ↓reduceIte]
      split
      · rename_i hnil
        have hempty := (fd.read_eq_nil_iff (by omega)).1 hnil
        rw [hnil, List.nil_append] at hsplit
        rw [hsplit, hempty]
        exact ⟨by simp, by simp⟩
      · rename_i hne
        have hpos := List.length_pos_iff.2 hne
        obtain ⟨h1, h2⟩ := ih (nleft - (fd.read nleft).1.length) (fd.read nleft).2 (by omega)
        rw [h1, h2, ← hsplit, List.take_append, List.drop_append,
          List.take_of_length_le hle, List.drop_of_length_le hle]
        exact ⟨rfl, rfl⟩

theorem readn_fst (fd : Chunks UInt8) (n : ℕ) : (readn fd n).1 = fd.bytes.take n :=
  (readnLoop_spec n n fd (le_refl n)).1

theorem readn_snd (fd : Chunks UInt8) (n : ℕ) : (readn fd n).2.bytes = fd.bytes.drop n :=
  (readnLoop_spec n n fd (le_refl n)).2

theorem readn_length_lt (fd : Chunks UInt8) (m n : ℕ) (h : (fd.read m).1 ≠ []) :
    (readn (fd.read m).2 n).2.bytes.length < fd.bytes.length := by
  have hsplit := congrArg List.length (fd.read_bytes m)
  have hpos : 0 < (fd.read m).1.length := List.length_pos_iff.2 h
  rw [List.length_append] at hsplit
  rw [readn_snd, List.length_drop]
  omega

theorem isCut_readnLoop (fuel nleft : ℕ) (fd : Chunks UInt8) {q : ℕ} (hq : 0 < q) :
    (readnLoop fuel nleft fd).2.IsCut q ↔
      fd.IsCut ((readnLoop fuel nleft fd).1.length + q) := by
  induction fuel generalizing nleft fd with
  | zero => simp [readnLoop]
  | succ fuel ih =>
    unfold readnLoop
    by_cases hz : nleft = 0
    · simp [hz]
    · simp only [hz, ↓reduceIte]
      split
      · rename_i hnil
        rw [fd.isCut_read nleft hq, hnil]
      · rw [ih, fd.isCut_read nleft (by omega), List.length_append, Nat.add_assoc]

theorem isCut_readn (fd : Chunks UInt8) (n : ℕ) {q : ℕ} (hq : 0 < q) :
    (readn fd n).2.IsCut q ↔ fd.IsCut ((readn fd n).1.length + q) :=
  isCut_readnLoop n n fd hq

/-- One turn of the loop: what it prints, and what it leaves unread. -/
structure Printed where
  text : Bytes
  rest : Chunks UInt8

/-- The body of the loop after a header has been read, with what `stack` holds
    from `msg_len_hex` on and `heap` in the block. The terminator goes to index
    `msg_len`, so the block is taken with the byte behind it. -/
def readFrame (stack : Bytes) (heap : ℕ → UInt8) (header : Bytes × Chunks UInt8) : Printed :=
  let msgLen := hexToInt (blit header.1 stack) - 5
  let got := readn header.2 msgLen.toNat
  let message := (blit got.1 (malloc (msgLen.toNat + 1) heap)).set msgLen.toNat 0
  ⟨cstr message, got.2⟩

/-- The loop over one connection, from its `i`-th turn on. -/
def listenerTask (stack : ℕ → Bytes) (heap : ℕ → ℕ → UInt8) (i : ℕ) (connfd : Chunks UInt8) :
    List Printed :=
  if h : (connfd.read 4).1 = [] then []
  else
    let printed := readFrame (stack i) (heap i) (connfd.read 4)
    printed :: listenerTask stack heap (i + 1) printed.rest
termination_by connfd.bytes.length
decreasing_by exact readn_length_lt connfd 4 _ h

/-- What `message_loop` writes to the connection. -/
def stream (cs : List ChatLine) : Bytes := (cs.map ChatLine.frame).flatten

/-- No piece of the stream ends inside a header. -/
def HeadersWhole (connfd : Chunks UInt8) (cs : List ChatLine) : Prop :=
  ∀ j < cs.length, ∀ p, (stream (cs.take j)).length < p →
    p < (stream (cs.take j)).length + 4 → ¬ connfd.IsCut p

theorem text_cases (b : Bytes) (n : ℕ) (heap : ℕ → UInt8) (hb : 0 ∉ b) :
    (n ≤ b.length ∧ cstr ((blit (b.take n) (malloc (n + 1) heap)).set n 0) = b.take n) ∨
      (b.length < n ∧ b <+: cstr ((blit (b.take n) (malloc (n + 1) heap)).set n 0)) := by
  rcases le_or_gt n b.length with h | h
  · refine .inl ⟨h, ?_⟩
    have hset := blit_malloc_set (b.take n) heap
    rw [List.length_take, Nat.min_eq_left h] at hset
    rw [hset]
    exact cstr_terminated _ [] (fun hz => hb (List.mem_of_mem_take hz))
  · refine .inr ⟨h, ?_⟩
    rw [List.take_of_length_le h.le, blit, List.set_append_right _ _ h.le, cstr_append b _ hb]
    exact List.prefix_append b _

theorem colon_mem_text (c : ChatLine) : 58 ∈ c.text := by
  have hc : (58 : UInt8) ∈ ascii ": " := by decide
  simp only [ChatLine.text, body, List.mem_append, hc, or_true, true_or]

theorem digits_shift {ds r : Bytes} (c : ChatLine) (hds : ∀ a ∈ ds, isxdigit a = true)
    (h : c.text <+: ds ++ (c.text ++ r)) : ds = [] := by
  have hcolon : isxdigit 58 = false := by decide
  have h1 := takeWhile_prefix_of_mem (colon_mem_text c) hcolon h
  have h2 := takeWhile_prefix_of_mem (colon_mem_text c) hcolon (List.prefix_append c.text r)
  rw [List.takeWhile_append_of_pos hds, h2] at h1
  have hlen := congrArg List.length h1
  rw [List.length_append] at hlen
  exact List.length_eq_zero_iff.1 (by omega)

theorem stream_cons (c : ChatLine) (cs : List ChatLine) :
    stream (c :: cs) = c.frame ++ stream cs := rfl

theorem frame_eq {c : ChatLine} (h : c.len < 2 ^ 31) :
    c.frame = intToHex4 (Int32.ofNat c.len) ++ c.text := createSendMsg_eq h

theorem zero_notMem_stream {cs : List ChatLine} (h : ∀ c ∈ cs, c.len < 2 ^ 31) :
    0 ∉ stream cs := by
  intro hz
  obtain ⟨b, hb, hz⟩ := List.mem_flatten.1 hz
  obtain ⟨c, hc, rfl⟩ := List.mem_map.1 hb
  exact createSendMsg_zero_notMem (h c hc) c.userName_nul c.message_nul hz

section Turn

variable {c : ChatLine} {r : Bytes} {connfd : Chunks UInt8}

theorem read_full (hc : c.len < 2 ^ 31) (hconn : connfd.bytes = c.frame ++ r) :
    (connfd.read 4).1.length = 4 ↔ ∀ p, 0 < p → p < 4 → ¬ connfd.IsCut p := by
  have hlen : 4 ≤ connfd.bytes.length := by
    rw [hconn, frame_eq hc, List.length_append, List.length_append, intToHex4_length]
    omega
  rw [connfd.read_full_iff (by decide)]
  exact and_iff_right hlen

theorem read_header (hc : c.len < 2 ^ 31) (hconn : connfd.bytes = c.frame ++ r) :
    (connfd.read 4).1 = (intToHex4 (Int32.ofNat c.len)).take (connfd.read 4).1.length ∧
      (connfd.read 4).2.bytes =
        (intToHex4 (Int32.ofNat c.len)).drop (connfd.read 4).1.length ++ (c.text ++ r) := by
  have hsplit := connfd.read_bytes 4
  have hle := connfd.read_length_le 4
  have hhex := intToHex4_length (Int32.ofNat c.len)
  rw [hconn, frame_eq hc, List.append_assoc] at hsplit
  have htake := congrArg (List.take (connfd.read 4).1.length) hsplit
  have hdrop := congrArg (List.drop (connfd.read 4).1.length) hsplit
  rw [List.take_left', List.take_append_of_le_length (by omega)] at htake
  rw [List.drop_left', List.drop_append_of_le_length (by omega)] at hdrop
  exact ⟨htake, hdrop⟩
  all_goals rfl

theorem read_header_whole (hc : c.len < 2 ^ 31) (hconn : connfd.bytes = c.frame ++ r)
    (hfull : (connfd.read 4).1.length = 4) :
    (connfd.read 4).1 = intToHex4 (Int32.ofNat c.len) ∧
      (connfd.read 4).2.bytes = c.text ++ r := by
  have hhex := intToHex4_length (Int32.ofNat c.len)
  obtain ⟨h1, h2⟩ := read_header hc hconn
  rw [hfull] at h1 h2
  rw [List.take_of_length_le (by omega)] at h1
  rw [List.drop_of_length_le (by omega), List.nil_append] at h2
  exact ⟨h1, h2⟩

theorem msgLen_whole {stack : Bytes} (hstack : Isolated (stack.drop 4)) (hfit : c.Fits)
    (hfull : (connfd.read 4).1 = intToHex4 (Int32.ofNat c.len)) :
    (hexToInt (blit (connfd.read 4).1 stack) - 5).toNat = c.text.length := by
  have hlen := c.text_length
  have hlt : c.len < 65536 := by
    unfold ChatLine.Fits at hfit
    omega
  have hnat : (UInt32.ofNat c.len).toNat = c.len := UInt32.toNat_ofNat_of_lt' (by
    show c.len < 4294967296
    omega)
  have hfive : (5 : UInt32) ≤ UInt32.ofNat c.len := by
    rw [UInt32.le_iff_toNat_le, hnat]
    change 5 ≤ c.len
    omega
  rw [hfull, blit, intToHex4_length, hexToInt_intToHex4 hlt hstack,
    UInt32.toNat_sub_of_le _ _ hfive, hnat]
  change c.len - 5 = _
  omega

theorem msgLen_overflow {stack : Bytes} (hstack : Isolated (stack.drop 4)) (hc : c.len < 2 ^ 31)
    (hfit : ¬ c.Fits) (hfull : (connfd.read 4).1 = intToHex4 (Int32.ofNat c.len)) :
    (hexToInt (blit (connfd.read 4).1 stack) - 5).toNat < c.text.length := by
  have hlen := c.text_length
  have hge : 65536 ≤ c.len := not_le.1 hfit
  have hlow := value_intToHex4_ge hge (by omega)
  have hhigh := value_lt _ (intToHex4_isxdigit (Int32.ofNat c.len))
  rw [intToHex4_length] at hhigh
  have hnat : (UInt32.ofNat (value (intToHex4 (Int32.ofNat c.len)))).toNat =
      value (intToHex4 (Int32.ofNat c.len)) := UInt32.toNat_ofNat_of_lt' (by
    show _ < 4294967296
    omega)
  have hfive : (5 : UInt32) ≤ UInt32.ofNat (value (intToHex4 (Int32.ofNat c.len))) := by
    rw [UInt32.le_iff_toNat_le, hnat]
    change 5 ≤ _
    omega
  rw [hfull, blit, intToHex4_length,
    hexToInt_digits (intToHex4_isxdigit _) (intToHex4_length _) hstack,
    UInt32.toNat_sub_of_le _ _ hfive, hnat]
  change _ - 5 < _
  omega

theorem readFrame_text (stack : Bytes) (heap : ℕ → UInt8) (header : Bytes × Chunks UInt8)
    (hz : 0 ∉ header.2.bytes) :
    ((hexToInt (blit header.1 stack) - 5).toNat ≤ header.2.bytes.length ∧
      (readFrame stack heap header).text =
        header.2.bytes.take (hexToInt (blit header.1 stack) - 5).toNat) ∨
    (header.2.bytes.length < (hexToInt (blit header.1 stack) - 5).toNat ∧
      header.2.bytes <+: (readFrame stack heap header).text) := by
  unfold readFrame
  dsimp only
  rw [readn_fst]
  exact text_cases _ _ heap hz

theorem readFrame_text_iff {stack : Bytes} (heap : ℕ → UInt8)
    (hstack : Isolated (stack.drop 4)) (hc : c.len < 2 ^ 31) (hr : 0 ∉ r)
    (hconn : connfd.bytes = c.frame ++ r) :
    (readFrame stack heap (connfd.read 4)).text = c.text ↔
      (connfd.read 4).1.length = 4 ∧ c.Fits := by
  have hhex := intToHex4_length (Int32.ofNat c.len)
  have hle := connfd.read_length_le 4
  obtain ⟨h1, h2⟩ := read_header hc hconn
  have hz : 0 ∉ (connfd.read 4).2.bytes := by
    rw [h2, List.mem_append, List.mem_append, not_or, not_or]
    exact ⟨fun h => intToHex4_zero_notMem _ (List.mem_of_mem_drop h), c.text_nul, hr⟩
  have hcases := readFrame_text stack heap (connfd.read 4) hz
  constructor
  · intro htext
    rw [htext] at hcases
    -- what is left of the header can only be empty, or it would come first
    have hbegins : c.text <+: (connfd.read 4).2.bytes := by
      rcases hcases with ⟨_, h⟩ | ⟨_, h⟩
      · rw [h]
        exact List.take_prefix _ _
      · have hlen := h.length_le
        rw [h2, List.length_append, List.length_append] at hlen
        have hsame := h.eq_of_length (by
          rw [h2, List.length_append, List.length_append]
          omega)
        rw [hsame]
    rw [h2] at hbegins
    have hnil := digits_shift c
      (fun a ha => intToHex4_isxdigit _ a (List.mem_of_mem_drop ha)) hbegins
    rw [List.drop_eq_nil_iff] at hnil
    have hfull : (connfd.read 4).1.length = 4 := by omega
    refine ⟨hfull, ?_⟩
    by_contra hfit
    obtain ⟨h3, h4⟩ := read_header_whole hc hconn hfull
    have hshort := msgLen_overflow hstack hc hfit h3
    rcases hcases with ⟨hn, h⟩ | ⟨hn, h⟩
    · have hlen := congrArg List.length h
      rw [List.length_take] at hlen
      omega
    · rw [h4, List.length_append] at hn
      omega
  · rintro ⟨hfull, hfit⟩
    obtain ⟨h3, h4⟩ := read_header_whole hc hconn hfull
    have hlen := msgLen_whole hstack hfit h3
    rw [hlen, h4] at hcases
    rcases hcases with ⟨_, h⟩ | ⟨hn, _⟩
    · rw [h, List.take_left' rfl]
    · rw [List.length_append] at hn
      omega

/-- A turn that reads the length as it was meant takes one frame from the stream. -/
theorem readFrame_takes {stack : Bytes} (heap : ℕ → UInt8) (hc : c.len < 2 ^ 31)
    (hconn : connfd.bytes = c.frame ++ r) (hfull : (connfd.read 4).1.length = 4)
    (hlen : (hexToInt (blit (connfd.read 4).1 stack) - 5).toNat = c.text.length) :
    (readFrame stack heap (connfd.read 4)).rest.bytes = r ∧
      ∀ q, 0 < q → ((readFrame stack heap (connfd.read 4)).rest.IsCut q ↔
        connfd.IsCut (c.frame.length + q)) := by
  obtain ⟨h3, h4⟩ := read_header_whole hc hconn hfull
  have hframe : c.frame.length = 4 + c.text.length := by
    rw [frame_eq hc, List.length_append, intToHex4_length]
  constructor
  · rw [readFrame, readn_snd, hlen, h4]
    exact List.drop_left' rfl
  · intro q hq
    rw [readFrame, isCut_readn _ _ hq, connfd.isCut_read 4 (by omega), readn_fst, hlen, h4,
      List.take_left' rfl, hfull, hframe, Nat.add_assoc]

theorem readFrame_rest {stack : Bytes} (heap : ℕ → UInt8) (hstack : Isolated (stack.drop 4))
    (hfit : c.Fits) (hconn : connfd.bytes = c.frame ++ r)
    (hfull : (connfd.read 4).1.length = 4) :
    (readFrame stack heap (connfd.read 4)).rest.bytes = r ∧
      ∀ q, 0 < q → ((readFrame stack heap (connfd.read 4)).rest.IsCut q ↔
        connfd.IsCut (c.frame.length + q)) :=
  readFrame_takes heap hfit.lt hconn hfull
    (msgLen_whole hstack hfit (read_header_whole hfit.lt hconn hfull).1)

end Turn

theorem headersWhole_cons {c : ChatLine} {cs : List ChatLine} {connfd rest : Chunks UInt8}
    (hrest : ∀ q, 0 < q → (rest.IsCut q ↔ connfd.IsCut (c.frame.length + q))) :
    HeadersWhole connfd (c :: cs) ↔
      (∀ p, 0 < p → p < 4 → ¬ connfd.IsCut p) ∧ HeadersWhole rest cs := by
  constructor
  · intro h
    refine ⟨?_, ?_⟩
    · simpa [stream] using h 0 (by simp)
    · intro j hj p hp hp' hcut
      refine h (j + 1) (by simpa using hj) (c.frame.length + p) ?_ ?_
        ((hrest p (by omega)).1 hcut)
      · rw [List.take_succ_cons, stream_cons, List.length_append]
        omega
      · rw [List.take_succ_cons, stream_cons, List.length_append]
        omega
  · rintro ⟨h0, h⟩ (_ | j) hj p hp hp' hcut
    · exact h0 p (by simpa [stream] using hp) (by simpa [stream] using hp') hcut
    · rw [List.take_succ_cons, stream_cons, List.length_append] at hp hp'
      obtain ⟨q, rfl⟩ := Nat.exists_eq_add_of_le (show c.frame.length ≤ p by omega)
      exact h j (by simpa using hj) q (by omega) (by omega) ((hrest q (by omega)).2 hcut)

section Loop

variable {stack : ℕ → Bytes} {heap : ℕ → ℕ → UInt8}

theorem listenerTask_cons {i : ℕ} {connfd : Chunks UInt8} (h : connfd.bytes ≠ []) :
    listenerTask stack heap i connfd =
      readFrame (stack i) (heap i) (connfd.read 4) ::
        listenerTask stack heap (i + 1) (readFrame (stack i) (heap i) (connfd.read 4)).rest := by
  rw [listenerTask, dif_neg]
  rwa [connfd.read_eq_nil_iff (by decide)]

theorem stream_ne_nil {c : ChatLine} {cs : List ChatLine} (hc : c.len < 2 ^ 31) :
    stream (c :: cs) ≠ [] := by
  rw [stream_cons, frame_eq hc]
  intro h
  have hlen := congrArg List.length h
  rw [List.length_append, List.length_append, intToHex4_length, List.length_nil] at hlen
  omega

variable (stack heap) in
theorem texts_iff (hstack : ∀ i, Isolated ((stack i).drop 4)) (cs : List ChatLine)
    (hlt : ∀ c ∈ cs, c.len < 2 ^ 31) (i : ℕ) (connfd : Chunks UInt8)
    (hconn : connfd.bytes = stream cs) :
    (listenerTask stack heap i connfd).map Printed.text = cs.map ChatLine.text ↔
      HeadersWhole connfd cs ∧ ∀ c ∈ cs, c.Fits := by
  induction cs generalizing i connfd with
  | nil =>
    have hnil : (connfd.read 4).1 = [] := (connfd.read_eq_nil_iff (by decide)).2 hconn
    rw [listenerTask, dif_pos hnil]
    refine iff_of_true rfl ⟨?_, by simp⟩
    intro j hj
    simp at hj
  | cons c cs ih =>
    have hc := hlt c List.mem_cons_self
    have hcs : ∀ d ∈ cs, d.len < 2 ^ 31 := fun d hd => hlt d (List.mem_cons_of_mem c hd)
    have hturn := readFrame_text_iff (heap i) (hstack i) hc (zero_notMem_stream hcs) hconn
    have hread := read_full hc hconn
    rw [listenerTask_cons (hconn ▸ stream_ne_nil hc), List.map_cons, List.map_cons,
      List.cons.injEq, hturn]
    constructor
    · rintro ⟨⟨hfull, hfit⟩, htail⟩
      obtain ⟨hbytes, hcuts⟩ := readFrame_rest (heap i) (hstack i) hfit hconn hfull
      obtain ⟨hwhole, hfits⟩ := (ih hcs (i + 1) _ hbytes).1 htail
      exact ⟨(headersWhole_cons hcuts).2 ⟨hread.1 hfull, hwhole⟩,
        List.forall_mem_cons.2 ⟨hfit, hfits⟩⟩
    · rintro ⟨hwhole, hfits⟩
      obtain ⟨hfit, hfits⟩ := List.forall_mem_cons.1 hfits
      have hfirst : ∀ p, 0 < p → p < 4 → ¬ connfd.IsCut p := by
        simpa [stream] using hwhole 0 (by simp)
      have hfull := hread.2 hfirst
      obtain ⟨hbytes, hcuts⟩ := readFrame_rest (heap i) (hstack i) hfit hconn hfull
      exact ⟨⟨hfull, hfit⟩,
        (ih hcs (i + 1) _ hbytes).2 ⟨((headersWhole_cons hcuts).1 hwhole).2, hfits⟩⟩

/-- The texts that v1 and v2 print of a connection are those written to it
    exactly when no read of a header ends early, however the bodies arrive. -/
theorem listenerTask_texts_iff (hstack : ∀ i, Isolated ((stack i).drop 4)) (cs : List ChatLine)
    (hlt : ∀ c ∈ cs, c.len < 2 ^ 31) (connfd : Chunks UInt8) (hconn : connfd.bytes = stream cs) :
    (listenerTask stack heap 0 connfd).map Printed.text = cs.map ChatLine.text ↔
      HeadersWhole connfd cs ∧ ∀ c ∈ cs, c.Fits :=
  texts_iff stack heap hstack cs hlt 0 connfd hconn

end Loop

def lineAB : ChatLine := ⟨ascii "a", ascii "b", by decide, by decide⟩

/-- A connection on which `"0009a: b"` arrives in these pieces. -/
def arriving (pieces : List String) (h : ∀ p ∈ pieces.map ascii, p ≠ []) : Chunks UInt8 :=
  ⟨pieces.map ascii, h⟩

theorem headersWhole_lineAB {connfd : Chunks UInt8} (h : ∀ p, 0 < p → p < 4 → ¬ connfd.IsCut p) :
    HeadersWhole connfd [lineAB] := by
  intro j hj p hp hp'
  obtain rfl : j = 0 := by simpa using hj
  change 0 < p at hp
  change p < 0 + 4 at hp'
  exact h p hp (by omega)

def lineHi : ChatLine := ⟨ascii "bo", ascii "hi\n", by decide, by decide⟩

/-- Both bodies come in pieces, and the second header with the end of the first. -/
def pieces : List String := ["0009", "a", ": b000b", "b", "o: h", "i"]

theorem pieces_headersWhole :
    HeadersWhole (arriving pieces (by decide)) [lineAB, lineHi] := by
  intro j hj p hp hp' hcut
  have hmem : p ∈ [0, 4, 5, 12, 13, 17, 18] := (Chunks.isCut_iff_mem _ p).1 hcut
  simp only [List.mem_cons, List.not_mem_nil, or_false] at hmem
  match j, hj with
  | 0, _ =>
    change 0 < p at hp
    change p < 0 + 4 at hp'
    omega
  | 1, _ =>
    change 8 < p at hp
    change p < 8 + 4 at hp'
    omega

theorem listenerTask_texts_pieces :
    (listenerTask (fun _ => []) (fun _ _ => 0) 0
      (arriving pieces (by decide))).map Printed.text = [ascii "a: b", ascii "bo: hi"] :=
  (listenerTask_texts_iff (fun _ => by simp [Isolated]) [lineAB, lineHi] (by decide) _ rfl).2
    ⟨pieces_headersWhole, by decide⟩

/-- The same bytes print another text when the first read stops after two. -/
theorem split_header_differs :
    (arriving ["0009a: b"] (by decide)).bytes = stream [lineAB] ∧
    (arriving ["00", "09a: b"] (by decide)).bytes = stream [lineAB] ∧
    (listenerTask (fun _ => []) (fun _ _ => 0) 0
      (arriving ["0009a: b"] (by decide))).map Printed.text = [lineAB.text] ∧
    (listenerTask (fun _ => []) (fun _ _ => 0) 0
      (arriving ["00", "09a: b"] (by decide))).map Printed.text ≠ [lineAB.text] := by
  have hiff := fun (connfd : Chunks UInt8) (h : connfd.bytes = stream [lineAB]) =>
    texts_iff (fun _ => []) (fun _ _ => 0) (fun _ => by simp [Isolated]) [lineAB] (by decide) 0
      connfd h
  refine ⟨rfl, rfl, (hiff _ rfl).2 ⟨?_, by decide⟩, ?_⟩
  · apply headersWhole_lineAB
    intro p hp hp' hcut
    have hmem : p ∈ [0, 8] := (Chunks.isCut_iff_mem _ p).1 hcut
    simp only [List.mem_cons, List.not_mem_nil, or_false] at hmem
    omega
  · intro h
    exact ((hiff _ rfl).1 h).1 0 (by decide) 2 (by decide) (by decide) ⟨1, rfl⟩

end LanChat.StreamReceive

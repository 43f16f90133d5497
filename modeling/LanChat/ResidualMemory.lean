import LanChat.ControlCollision
import LanChat.StreamReceive

set_option autoImplicit false

/-!
# What is printed of memory that has not been received

Nobody looks at the number of bytes that `Recvfrom` and `Readn` return. Where a
message is shorter than its header says, the rest of the block is what `malloc`
has found there.
-/
namespace LanChat.ResidualMemory
open CStrings HexText FrameCodec SocketAddresses DatagramReceive ReceiveBounds ChatProcess
  ControlCollision ChunkedStreams StreamReceive

def printed (acts : List Act) : Bytes :=
  acts.flatMap fun
    | .printf text => text
    | _ => []

def reactionText : Reaction → Bytes
  | .accept => ascii "Received AUTH_CAN\n" ++ ascii "Sent auth accept\n"
  | .print text => text ++ ascii "\n"
  | .ignore => []

/-- What a receiver prints of a datagram, unless it leaves its block. -/
def output (r : Receiver) (mem : Residue) (d : Datagram) : Except Fault Bytes :=
  (receive r mem d).map fun reaction => printed (announce r d.src) ++ reactionText reaction

/-- The same text appears whatever was in the block. -/
def Determined (r : Receiver) (mem : Residue) (d : Datagram) : Prop :=
  ∃ text, ∀ heap, output r { mem with heap := heap } d = .ok text

/-- The datagram fills what its header declares, but for the terminator, or has
    a NUL in its body. -/
def Covered (mem : Residue) (d : Datagram) : Prop :=
  (msgLen mem d).toNat ≤ max d.payload.length 4 + 1 ∨ 0 ∈ d.payload.drop 4

/-- The bytes behind those that have arrived decide nothing: the body is a
    request without them, or, where nothing else is printed, none with them. -/
def Unseen (r : Receiver) (mem : Residue) (d : Datagram) : Prop :=
  match r with
  | .v3 | .v4 _ => authCan <+: d.payload.drop 4
  | .v5Listen => False
  | .v5Join => authCan <+: d.payload.drop 4 ∨ ¬ d.payload.drop 4 <+: authCan ∨
      (msgLen mem d).toNat < 14

/-- A datagram that the filter drops only needs a block that is not empty. -/
def Independent (r : Receiver) (mem : Residue) (d : Datagram) : Prop :=
  if r.passes d.src then DeclaresFive (headerText mem d) ∧ (Covered mem d ∨ Unseen r mem d)
  else msgLen mem d ≠ 0

theorem listenerTurn_output (sock : SockAddr) (mem : Residue) (d : Datagram) :
    (listenerTurn sock mem d).map printed = output .v3 mem d := by
  rw [listenerTurn, output]
  rcases receive .v3 mem d with f | _ | text | _ <;> simp [Except.map, printed, reactionText,
    announce, acceptActs, authAccept]

theorem onMessage_output (sock : SockAddr) (p : Proc) (r : Receiver) (mem : Residue)
    (d : Datagram) :
    (∀ text, output r mem d = .ok text → printed (onMessage sock p r mem d).2 = text) ∧
      ∀ f, output r mem d = .error f →
        (onMessage sock p r mem d).1.phase = .undefined (.block f) := by
  rw [output, onMessage]
  rcases receive r mem d with f | _ | text | _ <;> simp [Except.map, printed, reactionText,
    acceptActs, authAccept]

section Datagrams

variable {mem : Residue} {d : Datagram}

/-- The part of the block behind what has arrived, as far as it is printed. -/
def room (mem : Residue) (d : Datagram) (heap : ℕ → UInt8) : Bytes :=
  (malloc ((msgLen mem d).toNat - 1) heap).drop (max d.payload.length 4)

theorem determined_five {r : Receiver} (hpass : r.passes d.src = true)
    (h : 5 ≤ (msgLen mem d).toNat) : Determined r mem d ↔
      ∃ text, ∀ heap, reactionText (reactionTo r (visible { mem with heap := heap } d)) = text := by
  have houtput : ∀ heap, output r { mem with heap := heap } d = .ok (printed (announce r d.src) ++
      reactionText (reactionTo r (visible { mem with heap := heap } d))) := by
    intro heap
    rw [output, receive_five { mem with heap := heap } hpass h]
    rfl
  constructor
  · rintro ⟨text, htext⟩
    refine ⟨reactionText (reactionTo r (visible { mem with heap := fun _ => 0 } d)), ?_⟩
    intro heap
    have heq := (htext heap).trans (htext fun _ => 0).symm
    rw [houtput, houtput, Except.ok.injEq] at heq
    exact List.append_cancel_left heq
  · rintro ⟨text, htext⟩
    refine ⟨printed (announce r d.src) ++ text, fun heap => ?_⟩
    rw [houtput, htext]

section Beyond

-- more is declared than has arrived
variable (h : max d.payload.length 4 + 1 < (msgLen mem d).toNat)
include h

theorem room_length (heap : ℕ → UInt8) :
    (d.payload.drop 4).length + (room mem d heap).length = (msgLen mem d).toNat - 5 := by
  rw [room, List.length_drop, List.length_drop, malloc_length]
  omega

theorem visible_beyond (heap : ℕ → UInt8) :
    visible { mem with heap := heap } d = cstr (d.payload.drop 4 ++ room mem d heap) := by
  have hsame : msgLen { mem with heap := heap } d = msgLen mem d := rfl
  have hroom : (msgLen mem d).toNat - 5 - (d.payload.drop 4).length + max d.payload.length 4 =
      (msgLen mem d).toNat - 1 := by
    rw [List.length_drop]
    omega
  rw [visible, filled, hsame, List.take_of_length_le (by omega : d.payload.length ≤ _), drop_blit,
    List.take_append, List.take_of_length_le (by
      rw [List.length_drop]
      omega), max_comm 4, List.take_drop, add_comm (max _ _), hroom, take_malloc _ (by omega)]
  rfl

theorem visible_nul (heap : ℕ → UInt8) (hnul : 0 ∈ d.payload.drop 4) :
    visible { mem with heap := heap } d = cstr (d.payload.drop 4) := by
  rw [visible_beyond h heap, cstr_append_of_mem _ hnul]

theorem authCan_visible_iff (heap : ℕ → UInt8) :
    authCan <+: visible { mem with heap := heap } d ↔
      authCan <+: d.payload.drop 4 ++ room mem d heap := by
  rw [visible_beyond h heap, prefix_cstr_iff _ _ authCan_zero_notMem]

theorem room_completes (hbegun : d.payload.drop 4 <+: authCan) (hlong : 14 ≤ (msgLen mem d).toNat) :
    ∃ heap, authCan <+: d.payload.drop 4 ++ room mem d heap := by
  obtain ⟨t, ht⟩ := hbegun
  have hnine : authCan.length = 9 := rfl
  have hlen := congrArg List.length ht
  rw [List.length_append, List.length_drop, hnine] at hlen
  refine ⟨fun j => t.getD (j - max d.payload.length 4) 0, ?_⟩
  rw [← ht, List.prefix_append_right_inj]
  exact prefix_drop_malloc (by omega)

variable (hnul : 0 ∉ d.payload.drop 4)
include hnul

theorem visible_zeros :
    visible { mem with heap := fun _ => 0 } d = d.payload.drop 4 := by
  obtain ⟨k, hk⟩ := Nat.exists_eq_succ_of_ne_zero
    (show (msgLen mem d).toNat - 1 - max d.payload.length 4 ≠ 0 by omega)
  rw [visible_beyond h _, room, drop_malloc_const, hk, List.replicate_succ,
    cstr_terminated _ _ hnul]

theorem visible_ones : ∃ k,
    visible { mem with heap := fun _ => 1 } d = d.payload.drop 4 ++ 1 :: List.replicate k 1 := by
  obtain ⟨k, hk⟩ := Nat.exists_eq_succ_of_ne_zero
    (show (msgLen mem d).toNat - 1 - max d.payload.length 4 ≠ 0 by omega)
  have hones : 0 ∉ d.payload.drop 4 ++ 1 :: List.replicate k 1 := by
    simp [hnul, List.mem_replicate]
  refine ⟨k, ?_⟩
  rw [visible_beyond h _, room, drop_malloc_const, hk, List.replicate_succ,
    ← List.append_nil (_ ++ _), cstr_append _ _ hones]
  rfl

theorem print_differs :
    reactionText (.print (visible { mem with heap := fun _ => 1 } d)) ≠
      reactionText (.print (visible { mem with heap := fun _ => 0 } d)) := by
  obtain ⟨k, hones⟩ := visible_ones h hnul
  intro heq
  rw [visible_zeros h hnul, hones] at heq
  have hlen := congrArg List.length heq
  simp only [reactionText, List.length_append, List.length_cons, List.length_replicate] at hlen
  omega

theorem handle_determined_iff {r : Receiver} (hr : reactionTo r = reactionTo .v3)
    (hpass : r.passes d.src = true) (hfive : 5 ≤ (msgLen mem d).toNat) :
    Determined r mem d ↔ authCan <+: d.payload.drop 4 := by
  rw [determined_five hpass hfive, hr]
  constructor
  · rintro ⟨text, htext⟩
    by_contra hno
    have hone : 1 ∉ authCan := by decide
    have hzeros : ¬ authCan <+: visible { mem with heap := fun _ => 0 } d := by
      rwa [visible_zeros h hnul]
    have hones : ¬ authCan <+: visible { mem with heap := fun _ => 1 } d := by
      obtain ⟨k, hk⟩ := visible_ones h hnul
      rwa [hk, prefix_append_stop_iff _ _ hone]
    have heq := (htext fun _ => 1).trans (htext fun _ => 0).symm
    rw [reactionTo, reactionTo, if_neg hzeros, if_neg hones] at heq
    exact print_differs h hnul heq
  · intro hcan
    refine ⟨reactionText .accept, fun heap => ?_⟩
    rw [reactionTo, if_pos]
    rw [authCan_visible_iff h heap]
    exact hcan.trans (List.prefix_append _ _)

theorem listen_not_determined (hfive : 5 ≤ (msgLen mem d).toNat) :
    ¬ Determined .v5Listen mem d := by
  rw [determined_five rfl hfive]
  rintro ⟨text, htext⟩
  exact print_differs h hnul ((htext fun _ => 1).trans (htext fun _ => 0).symm)

theorem join_determined_iff (hfive : 5 ≤ (msgLen mem d).toNat) :
    Determined .v5Join mem d ↔ authCan <+: d.payload.drop 4 ∨ ¬ d.payload.drop 4 <+: authCan ∨
      (msgLen mem d).toNat < 14 := by
  have hnine : authCan.length = 9 := rfl
  rw [determined_five rfl hfive]
  simp only [reactionTo, authCan_visible_iff h]
  constructor
  · rintro ⟨text, htext⟩
    by_contra hno
    simp only [not_or, not_not, not_lt] at hno
    obtain ⟨heap, hheap⟩ := room_completes h hno.2.1 hno.2.2
    have hzeros : ¬ authCan <+: d.payload.drop 4 ++ room mem d fun _ => 0 := by
      rw [← authCan_visible_iff h, visible_zeros h hnul]
      exact hno.1
    have heq := (htext heap).trans (htext fun _ => 0).symm
    rw [if_pos hheap, if_neg hzeros] at heq
    exact absurd heq (by decide)
  · intro hunseen
    by_cases hcan : authCan <+: d.payload.drop 4
    · exact ⟨_, fun heap => by rw [if_pos (hcan.trans (List.prefix_append _ _))]⟩
    · have hnever : ∀ heap, ¬ authCan <+: d.payload.drop 4 ++ room mem d heap := by
        intro heap hwhole
        have hle := hwhole.length_le
        rw [List.length_append, room_length h heap, hnine] at hle
        rcases List.prefix_or_prefix_of_prefix hwhole (List.prefix_append _ _) with h' | h'
        · exact hcan h'
        · exact (hunseen.resolve_left hcan).resolve_right (by omega) h'
      exact ⟨_, fun heap => by rw [if_neg (hnever heap)]⟩

theorem determined_beyond_iff {r : Receiver} (hpass : r.passes d.src = true)
    (hfive : 5 ≤ (msgLen mem d).toNat) :
    Determined r mem d ↔ Unseen r mem d := by
  cases r with
  | v3 => exact handle_determined_iff h hnul rfl hpass hfive
  | v4 bindAddr => exact handle_determined_iff h hnul rfl hpass hfive
  | v5Listen => exact iff_of_false (listen_not_determined h hnul hfive) id
  | v5Join => exact join_determined_iff h hnul hfive

end Beyond

theorem determined_covered {r : Receiver} (hpass : r.passes d.src = true)
    (hfive : 5 ≤ (msgLen mem d).toNat) (h : Covered mem d) : Determined r mem d := by
  rw [determined_five hpass hfive]
  by_cases hlong : max d.payload.length 4 + 1 < (msgLen mem d).toNat
  · have hnul := h.resolve_left (not_le.2 hlong)
    exact ⟨_, fun heap => by rw [visible_nul hlong heap hnul]⟩
  · refine ⟨reactionText (reactionTo r
      (cstr ((d.payload.drop 4).take ((msgLen mem d).toNat - 5)))), fun heap => ?_⟩
    rw [visible_covered { mem with heap := heap } (not_lt.1 hlong)]
    rfl

theorem determined_dropped {r : Receiver} (hpass : r.passes d.src = false) :
    Determined r mem d ↔ msgLen mem d ≠ 0 := by
  constructor
  · rintro ⟨text, htext⟩ hzero
    have hfault := htext mem.heap
    rw [output, receive_nothing r hzero] at hfault
    cases hfault
  · intro hne
    refine ⟨printed (announce r d.src) ++ reactionText .ignore, fun heap => ?_⟩
    have hignore := (@receive_dropped_iff r { mem with heap := heap } d hpass).2 hne
    rw [output, hignore]
    rfl

theorem determined_iff (r : Receiver) (mem : Residue) (d : Datagram) :
    Determined r mem d ↔ Independent r mem d := by
  rw [Independent]
  split_ifs with hpass
  · constructor
    · intro hdet
      have hinside : ∃ reaction, receive r mem d = .ok reaction := by
        obtain ⟨text, htext⟩ := hdet
        have hok := htext mem.heap
        rw [output] at hok
        cases hr : receive r mem d with
        | error f =>
          rw [hr] at hok
          cases hok
        | ok reaction => exact ⟨reaction, rfl⟩
      have hfive := (inside_iff r mem d hpass).1 hinside
      refine ⟨hfive, ?_⟩
      by_contra hno
      rw [Covered, not_or, not_or, not_le] at hno
      exact hno.2 ((determined_beyond_iff hno.1.1 hno.1.2 hpass ((five_le_iff _).2 hfive)).1 hdet)
    · rintro ⟨hdeclares, h⟩
      have hfive : 5 ≤ (msgLen mem d).toNat := (five_le_iff _).2 hdeclares
      by_cases hcovered : Covered mem d
      · exact determined_covered hpass hfive hcovered
      · have hunseen := h.resolve_left hcovered
        rw [Covered, not_or, not_le] at hcovered
        exact (determined_beyond_iff hcovered.1 hcovered.2 hpass hfive).2 hunseen
  · exact determined_dropped (Bool.eq_false_iff.2 hpass)

end Datagrams

/-- For each turn of the loop the length of the body, and what there is of the
    stream from the body on. -/
def bodies (stack : ℕ → Bytes) (i : ℕ) (connfd : Chunks UInt8) : List (ℕ × Bytes) :=
  if h : (connfd.read 4).1 = [] then []
  else
    let msgLen := (hexToInt (blit (connfd.read 4).1 (stack i)) - 5).toNat
    (msgLen, (connfd.read 4).2.bytes) ::
      bodies stack (i + 1) (readn (connfd.read 4).2 msgLen).2
termination_by connfd.bytes.length
decreasing_by exact readn_length_lt connfd 4 _ h

/-- The body is all there, or a NUL is in what there is of it. -/
def Ended (body : ℕ × Bytes) : Prop := body.1 ≤ body.2.length ∨ 0 ∈ body.2

theorem frame_text_ended {n : ℕ} {rest : Bytes} (heap : ℕ → UInt8) (h : Ended (n, rest)) :
    cstr ((blit (rest.take n) (malloc (n + 1) heap)).set n 0) = cstr (rest.take n) := by
  rcases le_or_gt n rest.length with hle | hgt
  · have hset := blit_malloc_set (rest.take n) heap
    rw [List.length_take, min_eq_left hle] at hset
    rw [hset, cstr_terminator]
  · have hnul : 0 ∈ rest := h.resolve_left (not_le.2 hgt)
    rw [List.take_of_length_le hgt.le, blit, List.set_append_right _ _ hgt.le,
      cstr_append_of_mem _ hnul]

theorem frame_text_short {n : ℕ} {rest : Bytes} (b : UInt8) (h : ¬ Ended (n, rest)) :
    cstr ((blit (rest.take n) (malloc (n + 1) fun _ => b)).set n 0) =
      rest ++ cstr (b :: (List.replicate (n - rest.length) b).set (n - rest.length - 1) 0) := by
  obtain ⟨hgt, hnul⟩ := not_or.1 h
  replace hgt : rest.length < n := not_le.1 hgt
  have hroom : n + 1 - rest.length = n - rest.length + 1 := by omega
  obtain ⟨k, hk⟩ := Nat.exists_eq_add_of_lt hgt
  rw [List.take_of_length_le hgt.le, blit, List.set_append_right _ _ hgt.le, cstr_append _ _ hnul,
    drop_malloc_const, hroom, List.replicate_succ]
  have hindex : n - rest.length = k + 1 := by omega
  rw [hindex]
  rfl

theorem frame_text_differs {n : ℕ} {rest : Bytes} (h : ¬ Ended (n, rest)) :
    cstr ((blit (rest.take n) (malloc (n + 1) fun _ => 1)).set n 0) ≠
      cstr ((blit (rest.take n) (malloc (n + 1) fun _ => 0)).set n 0) := by
  rw [frame_text_short 1 h, frame_text_short 0 h]
  intro heq
  have hcons := List.append_cancel_left heq
  simp [cstr] at hcons

section Streams

variable {stack : ℕ → Bytes}

theorem bodies_cons {i : ℕ} {connfd : Chunks UInt8} (h : connfd.bytes ≠ []) :
    bodies stack i connfd =
      ((hexToInt (blit (connfd.read 4).1 (stack i)) - 5).toNat, (connfd.read 4).2.bytes) ::
        bodies stack (i + 1) (readn (connfd.read 4).2
          (hexToInt (blit (connfd.read 4).1 (stack i)) - 5).toNat).2 := by
  rw [bodies, dif_neg]
  rwa [connfd.read_eq_nil_iff (by decide)]

theorem readFrame_text_eq (heap : ℕ → UInt8) (header : Bytes × Chunks UInt8) (i : ℕ) :
    (readFrame (stack i) heap header).text =
      cstr ((blit (header.2.bytes.take (hexToInt (blit header.1 (stack i)) - 5).toNat)
        (malloc ((hexToInt (blit header.1 (stack i)) - 5).toNat + 1) heap)).set
          (hexToInt (blit header.1 (stack i)) - 5).toNat 0) := by
  rw [readFrame, readn_fst]

/-- What a connection shows does not depend on the blocks exactly when it does
    not end within a body, or a NUL stands in for the rest of it. -/
theorem texts_determined_iff (i : ℕ) (connfd : Chunks UInt8) :
    (∃ texts, ∀ heap, (listenerTask stack heap i connfd).map Printed.text = texts) ↔
      ∀ body ∈ bodies stack i connfd, Ended body := by
  induction i, connfd using bodies.induct stack with
  | case1 i connfd hnil =>
    refine iff_of_true ⟨[], fun heap => ?_⟩ ?_
    · rw [listenerTask, dif_pos hnil]
      rfl
    · rw [bodies, dif_pos hnil]
      simp
  | case2 i connfd hne msgLen ih =>
    have hbytes : connfd.bytes ≠ [] := fun e => hne ((connfd.read_eq_nil_iff (by decide)).2 e)
    rw [bodies_cons hbytes, List.forall_mem_cons, ← ih]
    simp only [listenerTask_cons hbytes, List.map_cons]
    constructor
    · rintro ⟨texts, htexts⟩
      refine ⟨?_, ?_⟩
      · by_contra hended
        have heq := (htexts fun _ _ => 1).trans (htexts fun _ _ => 0).symm
        rw [List.cons.injEq, readFrame_text_eq, readFrame_text_eq] at heq
        exact frame_text_differs hended heq.1
      · refine ⟨texts.tail, fun heap => ?_⟩
        rw [← htexts heap]
        rfl
    · rintro ⟨hended, texts, htexts⟩
      refine ⟨cstr ((connfd.read 4).2.bytes.take msgLen) :: texts, fun heap => ?_⟩
      rw [readFrame_text_eq, frame_text_ended _ hended]
      exact congrArg _ (htexts heap)

end Streams

/-- What is printed of a datagram, and what is printed of a connection, are
    determined by what has been received exactly as far as is said here. -/
theorem printed_determined_iff (r : Receiver) (mem : Residue) (d : Datagram) (stack : ℕ → Bytes)
    (connfd : Chunks UInt8) :
    (Determined r mem d ↔ Independent r mem d) ∧
    ((∃ texts, ∀ heap, (listenerTask stack heap 0 connfd).map Printed.text = texts) ↔
      ∀ body ∈ bodies stack 0 connfd, Ended body) ∧
    (∀ sock, (listenerTurn sock mem d).map printed = output .v3 mem d) ∧
    ∀ sock p text, output r mem d = .ok text → printed (onMessage sock p r mem d).2 = text :=
  ⟨determined_iff r mem d, texts_determined_iff 0 connfd,
    fun sock => listenerTurn_output sock mem d, fun sock p => (onMessage_output sock p r mem d).1⟩

/-- A datagram and a connection that end before their headers say. -/
def cut : Datagram := ⟨⟨⟨10, 0, 0, 2⟩, 40000⟩, ascii "000ahi"⟩

def cutStream : Chunks UInt8 := arriving ["000a", "hi"] (by decide)

def secret (n : ℕ) : UInt8 := UInt8.ofNat (65 + n)

theorem cutStream_texts (heap : ℕ → ℕ → UInt8) :
    (listenerTask (fun _ => []) heap 0 cutStream).map Printed.text =
      [(readFrame [] (heap 0) (cutStream.read 4)).text] := by
  rw [listenerTask_cons (by decide), listenerTask, dif_pos]
  · rfl
  · apply (Chunks.read_eq_nil_iff _ (by decide)).2
    rw [readFrame, readn_snd]
    decide

/-- The rest of what they show is what was in the block before. -/
theorem residue_printed :
    output .v3 clean cut = .ok (ascii "hi\n") ∧
    output .v3 { clean with heap := secret } cut = .ok (ascii "hiGHI\n") ∧
    output .v5Listen { clean with heap := secret } cut =
      .ok (ascii "Has data\nReceived data\nhiGHI\n") ∧
    (listenerTask (fun _ => []) (fun _ _ => 0) 0 cutStream).map Printed.text = [ascii "hi"] ∧
    (listenerTask (fun _ => []) (fun _ => secret) 0 cutStream).map Printed.text =
      [ascii "hiCDE"] := by
  refine ⟨by decide, by decide, by decide, ?_, ?_⟩
  · rw [cutStream_texts]
    decide
  · rw [cutStream_texts]
    decide

end LanChat.ResidualMemory

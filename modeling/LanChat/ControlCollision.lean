import LanChat.ChatProcess
import LanChat.ReceiveBounds

set_option autoImplicit false

/-!
# Chat frames that read as control frames

One socket of v3 and v4 takes both kinds of traffic, and only the text tells
them apart: a receiver takes for a request whatever starts with `AUTH_CAN`.
-/
namespace LanChat.ControlCollision
open CStrings HexText FrameCodec SocketAddresses DatagramReceive ReceiveBounds ChatProcess

/-- The name and the message, put together, start with `AUTH_CAN`. -/
def Collides (c : ChatLine) : Prop :=
  c.userName = ascii "auth" ∧ ascii "CAN" <+: chomp c.message ∨ authCan <+: c.userName

instance (c : ChatLine) : Decidable (Collides c) := inferInstanceAs (Decidable (_ ∨ _))

theorem colon_follows_auth :
    ∀ u ∈ authCan.inits, (authCan.drop u.length).head? = some 58 → u = ascii "auth" := by
  decide

theorem authCan_prefix_text_iff (c : ChatLine) : authCan <+: c.text ↔ Collides c := by
  have happ : c.text = c.userName ++ 58 :: 32 :: chomp c.message := List.append_assoc _ _ _
  rw [happ]
  constructor
  · intro h
    rcases List.prefix_or_prefix_of_prefix h (List.prefix_append _ _) with hname | hname
    · exact .inr hname
    · obtain ⟨r, hr⟩ := hname
      have hdrop : authCan.drop c.userName.length = r := by rw [← hr, List.drop_left]
      rw [← hr, List.prefix_append_right_inj] at h
      cases r with
      | nil => exact .inr (by rw [← hr, List.append_nil])
      | cons b r =>
        obtain ⟨rfl, _⟩ := List.cons_prefix_cons.1 h
        have hauth : c.userName = ascii "auth" :=
          colon_follows_auth _ (List.mem_inits _ _ |>.2 ⟨_, hr⟩) (by rw [hdrop]; rfl)
        have hrest : 58 :: r = ascii ": CAN" := by rw [← hdrop, hauth]; rfl
        rw [hrest] at h
        exact .inl ⟨hauth, (List.prefix_append_right_inj [58, 32]).1 h⟩
  · rintro (⟨hname, r, hr⟩ | hname)
    · rw [hname, ← hr]
      exact ⟨r, rfl⟩
    · exact hname.trans (List.prefix_append _ _)

theorem msgLen_chat_cases {mem : Residue} (src : SockAddr) {c : ChatLine} (hmem : mem.Bounded)
    (hlt : c.len < 2 ^ 31) :
    (msgLen mem (chatDatagram src c)).toNat = c.len ∨
      4096 ≤ (msgLen mem (chatDatagram src c)).toNat ∧
        (msgLen mem (chatDatagram src c)).toNat < c.len := by
  rcases le_or_gt c.len 65535 with hfits | hlong
  · exact .inl (msgLen_chat src hmem hfits)
  · have hdigits := intToHex4_isxdigit (Int32.ofNat c.len)
    have hfour := intToHex4_length (Int32.ofNat c.len)
    have hv : value (intToHex4 (Int32.ofNat c.len)) < 65536 := by
      simpa [hfour] using value_lt _ hdigits
    have hlen : (msgLen mem (chatDatagram src c)).toNat =
        value (intToHex4 (Int32.ofNat c.len)) := by
      rw [msgLen, headerText_chat hlt, hexToInt_digits hdigits hfour hmem]
      exact UInt32.toNat_ofNat_of_lt' (by
        show value (intToHex4 (Int32.ofNat c.len)) < 4294967296
        omega)
    have hge := value_intToHex4_ge (by omega) (show c.len < 2 ^ 32 by omega)
    exact .inr (by omega)

theorem filled_chat {mem : Residue} (src : SockAddr) {c : ChatLine} (hmem : mem.Bounded)
    (hlt : c.len < 2 ^ 31) :
    ((filled mem (chatDatagram src c)).set ((msgLen mem (chatDatagram src c)).toNat - 1) 0).drop 4 =
      c.text.take ((msgLen mem (chatDatagram src c)).toNat - 5) ++ [0] := by
  have htext := c.text_length
  have hframe : (chatDatagram src c).payload = intToHex4 (Int32.ofNat c.len) ++ c.text :=
    createSendMsg_eq hlt
  have hfour := intToHex4_length (Int32.ofNat c.len)
  have hlen : (chatDatagram src c).payload.length = 4 + c.text.length := by
    rw [hframe, List.length_append, hfour]
  have hcases := msgLen_chat_cases src hmem hlt
  rw [filled_set (by omega) (by omega), List.drop_append_of_le_length (by
    rw [List.length_take]
    omega), List.drop_take, hframe, List.drop_left' hfour, Nat.sub_sub]

/-- The text that stands behind the length, as far as the header declares it. -/
def visible (mem : Residue) (d : Datagram) : Bytes :=
  cstr (((filled mem d).drop 4).take ((msgLen mem d).toNat - 5))

theorem body_visible {mem : Residue} {d : Datagram} (h : 5 ≤ (msgLen mem d).toNat) :
    cstr (((filled mem d).set ((msgLen mem d).toNat - 1) 0).drop 4) = visible mem d := by
  have hl := filled_length mem d
  rw [filled_terminated (by omega), List.drop_append_of_le_length (by
    rw [List.length_take]
    omega), List.drop_take, Nat.sub_sub, cstr_terminator]
  rfl

theorem visible_covered (mem : Residue) {d : Datagram}
    (h : (msgLen mem d).toNat ≤ max d.payload.length 4 + 1) :
    visible mem d = cstr ((d.payload.drop 4).take ((msgLen mem d).toNat - 5)) := by
  rw [visible]
  by_cases hfive : (msgLen mem d).toNat ≤ 5
  · rw [Nat.sub_eq_zero_of_le hfive, List.take_zero, List.take_zero]
  · rw [List.take_drop, List.take_drop, filled, blit, List.take_append_of_le_length (by
      rw [List.length_take]
      omega), List.take_take, min_eq_left (by omega)]

/-- What is done with a body that ends inside its block. -/
def reactionTo (r : Receiver) (body : Bytes) : Reaction :=
  match r with
  | .v3 | .v4 _ => if authCan <+: body then .accept else .print body
  | .v5Listen => .print body
  | .v5Join => if authCan <+: body then .accept else .ignore

theorem receive_five {r : Receiver} (mem : Residue) {d : Datagram}
    (hpass : r.passes d.src = true) (h : 5 ≤ (msgLen mem d).toNat) :
    receive r mem d = .ok (reactionTo r (visible mem d)) := by
  rw [receive_eq r h, if_pos hpass, ← body_visible h]
  cases r with
  | v3 | v4 => exact handleBody_eq (zero_mem_drop h)
  | v5Listen => exact printBody_eq (zero_mem_drop h)
  | v5Join => exact joinBody_eq (zero_mem_drop h)

theorem receive_ok_iff {r : Receiver} {mem : Residue} {d : Datagram}
    (hpass : r.passes d.src = true) (reaction : Reaction) : receive r mem d = .ok reaction ↔
      DeclaresFive (headerText mem d) ∧ reaction = reactionTo r (visible mem d) := by
  constructor
  · intro h
    have hfive := (inside_iff r mem d hpass).1 ⟨_, h⟩
    rw [receive_five mem hpass ((five_le_iff _).2 hfive), Except.ok.injEq] at h
    exact ⟨hfive, h.symm⟩
  · rintro ⟨hfive, rfl⟩
    exact receive_five mem hpass ((five_le_iff _).2 hfive)

theorem receive_print_iff {r : Receiver} (hr : reactionTo r = reactionTo .v3) (mem : Residue)
    (d : Datagram) (text : Bytes) : receive r mem d = .ok (.print text) ↔
      r.passes d.src = true ∧ DeclaresFive (headerText mem d) ∧
        ¬ authCan <+: visible mem d ∧ text = visible mem d := by
  by_cases hpass : r.passes d.src = true
  · rw [receive_ok_iff hpass, hr, reactionTo]
    by_cases hcan : authCan <+: visible mem d <;> simp [hpass, hcan]
  · simp only [hpass, false_and, iff_false, Bool.false_eq_true]
    exact fun h => hpass (passes_of_receive h (by simp))

theorem visible_chat {mem : Residue} (src : SockAddr) {c : ChatLine} (hmem : mem.Bounded)
    (hlt : c.len < 2 ^ 31) : visible mem (chatDatagram src c) =
      c.text.take ((msgLen mem (chatDatagram src c)).toNat - 5) := by
  have htext := c.text_length
  have hcases := msgLen_chat_cases src hmem hlt
  rw [← body_visible (by omega), filled_chat src hmem hlt]
  exact cstr_terminated _ [] fun hz => c.text_nul (List.mem_of_mem_take hz)

theorem authCan_prefix_visible_iff {mem : Residue} (src : SockAddr) {c : ChatLine}
    (hmem : mem.Bounded) (hlt : c.len < 2 ^ 31) :
    authCan <+: visible mem (chatDatagram src c) ↔ Collides c := by
  have htext := c.text_length
  have hcases := msgLen_chat_cases src hmem hlt
  have hcan : authCan.length = 9 := rfl
  rw [visible_chat src hmem hlt, ← authCan_prefix_text_iff, List.prefix_take_iff, hcan]
  refine ⟨And.left, fun h => ⟨h, ?_⟩⟩
  have hle := h.length_le
  omega

theorem listenerTurn_print_iff (sock : SockAddr) (mem : Residue) (d : Datagram) (text : Bytes) :
    listenerTurn sock mem d = .ok [.printf (text ++ ascii "\n")] ↔
      receive .v3 mem d = .ok (.print text) := by
  rw [listenerTurn]
  rcases receive .v3 mem d with f | _ | _ | _ <;> simp [Except.map, acceptActs]

theorem step_print_iff {cfg : Config} {p : Proc} (hp : p.phase = .selecting) (mem : Residue)
    (d : Datagram) (text : Bytes) :
    step .v4 cfg p (.recv .listenfd d mem) =
        some (p, [.printf (ascii "Has data\n"), .printf (ascii "Received data\n"),
          .printf (text ++ ascii "\n")]) ↔
      receive (.v4 cfg.bindAddr) mem d = .ok (.print text) := by
  have hstep : step .v4 cfg p (.recv .listenfd d mem) =
      some (onMessage (cfg.sock .listenfd) p (.v4 cfg.bindAddr) mem d) := by
    simp [step, hp, Version.receiver]
  rw [hstep, onMessage]
  cases hr : receive (.v4 cfg.bindAddr) mem d with
  | error f => simp
  | ok reaction =>
    cases reaction with
    | accept => by_cases hpass : (Receiver.v4 cfg.bindAddr).passes d.src = true <;>
        simp [announce, hpass, acceptActs]
    | print shown =>
      have hpass := passes_of_receive hr (by simp)
      simp [announce, hpass]
    | ignore => by_cases hpass : (Receiver.v4 cfg.bindAddr).passes d.src = true <;>
        simp [announce, hpass]

/-- The header leaves room for a text, and the text is no request. -/
def Plain (mem : Residue) (d : Datagram) : Prop :=
  DeclaresFive (headerText mem d) ∧ ¬ authCan <+: visible mem d

theorem plain_chat_iff {mem : Residue} (src : SockAddr) {c : ChatLine} (hmem : mem.Bounded)
    (hlt : c.len < 2 ^ 31) : Plain mem (chatDatagram src c) ↔ ¬ Collides c := by
  have htext := c.text_length
  have hcases := msgLen_chat_cases src hmem hlt
  have hfive : 5 ≤ (msgLen mem (chatDatagram src c)).toNat := by omega
  rw [Plain, authCan_prefix_visible_iff src hmem hlt]
  exact and_iff_right ((five_le_iff _).1 hfive)

/-- The text is the line's own where the header has been read as it was written. -/
def ShownAs (mem : Residue) (c : ChatLine) (text : Bytes) : Prop :=
  mem.Bounded → c.Fits → text = c.text

theorem shownAs_visible (mem : Residue) (src : SockAddr) (c : ChatLine) :
    ShownAs mem c (visible mem (chatDatagram src c)) := by
  intro hmem hfits
  have htext := c.text_length
  rw [visible_chat src hmem hfits.lt, msgLen_chat src hmem hfits]
  exact List.take_of_length_le (by omega)

/-- A line of chat is printed by v3 and by v4, without any other effect, exactly
    when its frame reads as a text, and v4 does not take it for its own. -/
theorem chat_printed_iff (c : ChatLine) (src sock : SockAddr) (mem : Residue) (cfg : Config)
    (p : Proc) (hp : p.phase = .selecting) :
    ((∃ text, ShownAs mem c text ∧
        listenerTurn sock mem (chatDatagram src c) = .ok [.printf (text ++ ascii "\n")]) ↔
      Plain mem (chatDatagram src c)) ∧
    ((∃ text, ShownAs mem c text ∧
        step .v4 cfg p (.recv .listenfd (chatDatagram src c) mem) =
          some (p, [.printf (ascii "Has data\n"), .printf (ascii "Received data\n"),
            .printf (text ++ ascii "\n")])) ↔
      ¬ cfg.bindAddr <+: sockNtop src ∧ Plain mem (chatDatagram src c)) ∧
    (mem.Bounded → c.len < 2 ^ 31 → (Plain mem (chatDatagram src c) ↔ ¬ Collides c)) := by
  have hshown := shownAs_visible mem src c
  refine ⟨?_, ?_, fun hmem hlt => plain_chat_iff src hmem hlt⟩
  · simp only [listenerTurn_print_iff, receive_print_iff (r := .v3) rfl]
    exact ⟨fun ⟨text, _, _, hfive, hcan, _⟩ => ⟨hfive, hcan⟩,
      fun ⟨hfive, hcan⟩ => ⟨_, hshown, rfl, hfive, hcan, rfl⟩⟩
  · simp only [step_print_iff hp, receive_print_iff (r := .v4 cfg.bindAddr) rfl]
    rw [← passes_v4_iff]
    exact ⟨fun ⟨text, _, hpass, hfive, hcan, _⟩ => ⟨hpass, hfive, hcan⟩,
      fun ⟨hpass, hfive, hcan⟩ => ⟨_, hshown, hpass, hfive, hcan, rfl⟩⟩

def authLine : ChatLine := ⟨ascii "auth", ascii "CAN you hear me?\n", by decide, by decide⟩

theorem chat_printed_hello :
    ∃ text, listenerTurn ((host 1).sock .listenfd) clean
      (chatDatagram ((host 2).sock .sockfd) ⟨ascii "user", ascii "hello\n", by decide, by decide⟩) =
        .ok [.printf (text ++ ascii "\n")] := by
  obtain ⟨hturn, _, hplain⟩ := chat_printed_iff
    ⟨ascii "user", ascii "hello\n", by decide, by decide⟩ ((host 2).sock .sockfd)
    ((host 1).sock .listenfd) clean (host 1) ⟨.selecting, []⟩ rfl
  obtain ⟨text, _, htext⟩ := hturn.2 ((hplain isolated_nil (by decide)).2 (by decide))
  exact ⟨text, htext⟩

/-- Its line is answered like a request, and enters the sender as a peer. -/
theorem authLine_accepted :
    authLine.userName.length ≤ 10 ∧
    listenerTurn ((host 1).sock .listenfd) clean
        (chatDatagram ((host 2).sock .sockfd) authLine) =
      .ok (acceptActs ((host 1).sock .listenfd) ((host 2).sock .sockfd)) ∧
    (∃ acts, step .v4 (host 1) ⟨.selecting, []⟩
        (.recv .listenfd (chatDatagram ((host 2).sock .sockfd) authLine) clean) =
      some (⟨.selecting, [(host 2).sock .listenfd]⟩, acts) ∧
      packets acts = [ofcPacket ((host 1).sock .listenfd) ((host 2).sock .sockfd)]) :=
  ⟨by decide, rfl, _, rfl, rfl⟩

end LanChat.ControlCollision

import LanChat.ChatProcess

set_option autoImplicit false

/-!
# What `auth_try_confirm` confirms

The three versions read at most 14 bytes into a local array and compare the
nine behind the length, whether the datagram has filled them or not.
-/
namespace LanChat.OfferReading
open CStrings HexText FrameCodec SocketAddresses DatagramReceive ChatProcess

/-- `auth_try_confirm` of v3, where `none` is a receive that has timed out. -/
def authTryConfirmIterate (mem : Residue) : Option Datagram → Bool
  | none => false
  | some d => 0 < (d.payload.take (4 + authOfc.length + 1)).length ∧ authTryConfirm mem d = true

/-- What the call leaves in the array for the next one. -/
def msgAfter (mem : Residue) (d : Datagram) : Bytes :=
  blit (d.payload.take (4 + authOfc.length + 1)) mem.msg

/-- The datagram itself holds the nine bytes. -/
def CarriesOfc (payload : Bytes) : Prop := authOfc <+: payload.drop 4

instance (payload : Bytes) : Decidable (CarriesOfc payload) := inferInstanceAs (Decidable (_ <+: _))

/-- The datagram ends before or within the nine bytes, and what was there before
    makes up the rest of them. -/
def CompletedBy (msg payload : Bytes) : Prop :=
  payload.length < 13 ∧ payload.drop 4 <+: authOfc ∧
    authOfc.drop (payload.length - 4) <+: msg.drop (max 4 payload.length)

instance (msg payload : Bytes) : Decidable (CompletedBy msg payload) :=
  inferInstanceAs (Decidable (_ ∧ _))

theorem carriesOfc_iff (payload : Bytes) :
    CarriesOfc payload ↔ 13 ≤ payload.length ∧ (payload.drop 4).take 9 = authOfc := by
  have hnine : authOfc.length = 9 := rfl
  constructor
  · intro h
    have hle := h.length_le
    rw [List.length_drop] at hle
    exact ⟨by omega, (List.prefix_iff_eq_take.1 h).symm⟩
  · rintro ⟨_, h⟩
    rw [CarriesOfc, ← h]
    exact List.take_prefix _ _

theorem authTryConfirm_split (mem : Residue) (d : Datagram) : authTryConfirm mem d = true ↔
    authOfc <+: (d.payload.take 14).drop 4 ++ mem.msg.drop (max 4 (d.payload.take 14).length) := by
  have hsize : 4 + authOfc.length + 1 = 14 := rfl
  rw [authTryConfirm_iff, hsize, drop_blit]

theorem confirm_whole {mem : Residue} {d : Datagram} (h : 13 ≤ d.payload.length) :
    authTryConfirm mem d = true ↔ CarriesOfc d.payload := by
  have hnine : authOfc.length = 9 := rfl
  rw [authTryConfirm_split, prefix_append_iff_of_le, List.drop_take, List.prefix_take_iff]
  · exact and_iff_left (by omega)
  · rw [List.length_drop, List.length_take]
    omega

theorem confirm_short {mem : Residue} {d : Datagram} (h : d.payload.length < 13) :
    authTryConfirm mem d = true ↔ CompletedBy mem.msg d.payload := by
  have hnine : authOfc.length = 9 := rfl
  rw [authTryConfirm_split, List.take_of_length_le (by omega), prefix_append_iff_of_ge,
    List.length_drop, CompletedBy]
  · exact (and_iff_right h).symm
  · rw [List.length_drop]
    omega

theorem not_carriesOfc {payload : Bytes} (h : payload.length < 13) : ¬ CarriesOfc payload := by
  rw [carriesOfc_iff]
  omega

/-- The answer is right exactly where the array does not complete the datagram. -/
theorem confirm_iff (mem : Residue) (d : Datagram) :
    (authTryConfirm mem d = true ↔ CarriesOfc d.payload) ↔ ¬ CompletedBy mem.msg d.payload := by
  by_cases h : d.payload.length < 13
  · rw [confirm_short h]
    simp only [not_carriesOfc h, iff_false]
  · refine iff_of_true (confirm_whole (not_lt.1 h)) fun hc => h hc.1

theorem iterate_iff (mem : Residue) (d : Datagram) :
    authTryConfirmIterate mem (some d) = true ↔ d.payload ≠ [] ∧ authTryConfirm mem d = true := by
  rw [authTryConfirmIterate, decide_eq_true_eq, List.length_pos_iff, ne_eq, List.take_eq_nil_iff]
  simp

theorem iterate_cases (mem : Residue) (d : Datagram) :
    authTryConfirmIterate mem (some d) = true ↔
      CarriesOfc d.payload ∨ d.payload ≠ [] ∧ CompletedBy mem.msg d.payload := by
  rw [iterate_iff]
  by_cases h : d.payload.length < 13
  · rw [confirm_short h, or_iff_right (not_carriesOfc h)]
  · have hne : d.payload ≠ [] := fun e => h (by simp [e])
    rw [confirm_whole (not_lt.1 h), and_iff_right hne, or_iff_left fun hc => h hc.2.1]

/-- `auth_try_confirm` of v4 and v5, and that of v3, return 1 for what has been
    received exactly where no earlier bytes complete a short datagram, or, in v3,
    where it is empty; v3 returns 0 when nothing has been received. -/
theorem confirm_received_iff (mem : Residue) (d : Datagram) :
    ((authTryConfirm mem d = true ↔
        13 ≤ d.payload.length ∧ (d.payload.drop 4).take 9 = authOfc) ↔
      ¬ CompletedBy mem.msg d.payload) ∧
    ((authTryConfirmIterate mem (some d) = true ↔
        13 ≤ d.payload.length ∧ (d.payload.drop 4).take 9 = authOfc) ↔
      ¬ (d.payload ≠ [] ∧ CompletedBy mem.msg d.payload)) ∧
    authTryConfirmIterate mem none = false := by
  rw [← carriesOfc_iff, iterate_iff]
  refine ⟨confirm_iff mem d, ?_, rfl⟩
  by_cases hne : d.payload = []
  · have hno : ¬ CarriesOfc d.payload := not_carriesOfc (by simp [hne])
    rw [hne] at hno
    simp [hne, hno]
  · simp only [ne_eq, hne, not_false_eq_true, true_and]
    exact confirm_iff mem d

/-- An array of zeros in which an offer has been read. -/
def afterOffer : Residue :=
  { clean with
    msg := msgAfter { clean with msg := List.replicate 14 0 } ⟨(host 2).sock .listenfd,
      createSendMsgStatic authOfc⟩ }

def stray (text : String) : Datagram := ⟨⟨⟨10, 0, 0, 9⟩, 5353⟩, ascii text⟩

/-- A datagram of one byte is taken for another offer then, and by v4 and v5 an
    empty one as well. -/
theorem short_confirmed :
    authTryConfirm afterOffer (stray "x") = true ∧ authTryConfirm afterOffer (stray "") = true ∧
    authTryConfirmIterate afterOffer (some (stray "x")) = true ∧
    ¬ CarriesOfc (stray "x").payload ∧ ¬ CarriesOfc (stray "").payload := by
  decide

end LanChat.OfferReading

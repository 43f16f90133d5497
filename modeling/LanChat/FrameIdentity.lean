import LanChat.TypedCommands

set_option autoImplicit false

/-!
# What a frame says about who has sent it

The name and the text are joined by a separator that a name may contain.
-/
namespace LanChat.FrameIdentity
open CStrings FrameCodec TypedCommands

/-- The call returns this frame; a greater length is no `int`. -/
def Builds (c : ChatLine) (frame : Bytes) : Prop := c.len < 2 ^ 31 ∧ c.frame = frame

def SameLine (c d : ChatLine) : Prop :=
  c.userName = d.userName ∧ chomp c.message = chomp d.message

/-- The name of `d` is that of `c` and the start of what `c` says. -/
def Shifts (c d : ChatLine) : Prop :=
  ∃ s, d.userName = c.userName ++ ascii ": " ++ s ∧
    chomp c.message = s ++ ascii ": " ++ chomp d.message

/-- What `main` lets pass as a name. -/
structure Accepted (name : Bytes) : Prop where
  short : name.length ≤ 10
  nul : 0 ∉ name

/-- The name `v` is `u` and something that can be typed after it. -/
def Extends (u v : Bytes) : Prop :=
  ∃ s, v = u ++ ascii ": " ++ s ∧ ∀ b ∈ s, isBreak b = false

/-- Two separators in one place are one, and in two places do not overlap. -/
theorem separator_shift {a t t' : Bytes} (h : ascii ": " ++ t = a ++ (ascii ": " ++ t')) :
    a = [] ∧ t = t' ∨ ∃ s, a = ascii ": " ++ s ∧ t = s ++ (ascii ": " ++ t') := by
  have hsep : ascii ": " = [58, 32] := rfl
  rw [hsep] at *
  cases a with
  | nil => exact .inl ⟨rfl, (List.append_right_inj _).1 h⟩
  | cons x a =>
    cases a with
    | nil =>
      have hsecond : (32 : UInt8) = 58 := (List.cons.inj (List.cons.inj h).2).1
      exact absurd hsecond (by decide)
    | cons y s =>
      obtain ⟨hx, hrest⟩ := List.cons.inj h
      obtain ⟨hy, htail⟩ := List.cons.inj hrest
      exact .inr ⟨s, by rw [← hx, ← hy]; rfl, htail⟩

theorem body_eq_iff (u u' t t' : Bytes) :
    u ++ ascii ": " ++ t = u' ++ ascii ": " ++ t' ↔
      (u = u' ∧ t = t') ∨
      (∃ s, u' = u ++ ascii ": " ++ s ∧ t = s ++ ascii ": " ++ t') ∨
      ∃ s, u = u' ++ ascii ": " ++ s ∧ t' = s ++ ascii ": " ++ t := by
  constructor
  · intro h
    rw [List.append_assoc, List.append_assoc, List.append_eq_append_iff] at h
    rcases h with ⟨a, rfl, h⟩ | ⟨a, rfl, h⟩
    · rcases separator_shift h with ⟨rfl, rfl⟩ | ⟨s, rfl, rfl⟩
      · exact .inl ⟨(List.append_nil u).symm, rfl⟩
      · exact .inr (.inl ⟨s, by simp, by simp⟩)
    · rcases separator_shift h with ⟨rfl, rfl⟩ | ⟨s, rfl, rfl⟩
      · exact .inl ⟨List.append_nil u', rfl⟩
      · exact .inr (.inr ⟨s, by simp, by simp⟩)
  · rintro (⟨rfl, rfl⟩ | ⟨s, rfl, rfl⟩ | ⟨s, rfl, rfl⟩)
    · rfl
    · simp
    · simp

section Lines

variable {c d : ChatLine}

theorem frame_eq_iff_text (hc : c.len < 2 ^ 31) (hd : d.len < 2 ^ 31) :
    c.frame = d.frame ↔ c.text = d.text := by
  constructor
  · intro h
    have hdrop := congrArg (List.drop 4) h
    rwa [ChatLine.frame, ChatLine.frame, createSendMsg_drop hc, createSendMsg_drop hd] at hdrop
  · intro h
    have hlen : c.len = d.len := by rw [← c.text_length, ← d.text_length, h]
    change createSendMsg c.message c.userName = createSendMsg d.message d.userName
    rw [createSendMsg_eq hc, createSendMsg_eq hd]
    change intToHex4 (Int32.ofNat c.len) ++ c.text = intToHex4 (Int32.ofNat d.len) ++ d.text
    rw [hlen, h]

theorem text_eq_iff : c.text = d.text ↔ SameLine c d ∨ Shifts c d ∨ Shifts d c :=
  body_eq_iff c.userName d.userName (chomp c.message) (chomp d.message)

end Lines

/-- Two lines make one frame exactly if they are the same, or the name of one is
    the name of the other and the start of its text. -/
theorem frames_agree_iff (c d : ChatLine) :
    (∃ frame, Builds c frame ∧ Builds d frame) ↔
      c.len < 2 ^ 31 ∧ (SameLine c d ∨ Shifts c d ∨ Shifts d c) := by
  rw [← text_eq_iff]
  constructor
  · rintro ⟨frame, ⟨hc, hframe⟩, hd, rfl⟩
    exact ⟨hc, (frame_eq_iff_text hc hd).1 hframe⟩
  · rintro ⟨hc, htext⟩
    have hlen : d.len = c.len := by rw [← c.text_length, ← d.text_length, htext]
    have hd : d.len < 2 ^ 31 := hlen ▸ hc
    exact ⟨d.frame, ⟨hc, (frame_eq_iff_text hc hd).2 htext⟩, hd, rfl⟩

section Names

variable {u v : Bytes}

theorem cstr_self {str : Bytes} (h : 0 ∉ str) : cstr str = str := by
  have happ := cstr_append str [] h
  rwa [List.append_nil, show cstr [] = [] from rfl, List.append_nil] at happ

theorem extends_of_shifts {c d : ChatLine} (h : Shifts c d) : Extends c.userName d.userName := by
  obtain ⟨s, hname, htext⟩ := h
  refine ⟨s, hname, fun b hb => ?_⟩
  have hmem : b ∈ chomp (cstr c.message) := by
    rw [cstr_self c.message_nul, htext]
    exact List.mem_append_left _ (List.mem_append_left _ hb)
  rw [chomp_cstr] at hmem
  simpa using List.mem_takeWhile_imp hmem

theorem collision_of_extends (hv : Accepted v) (h : Extends u v) :
    ∃ c d frame, c.userName = u ∧ d.userName = v ∧ Builds c frame ∧ Builds d frame ∧
      ¬ SameLine c d := by
  obtain ⟨s, rfl, hs⟩ := h
  have hnul := hv.nul
  simp only [List.mem_append, not_or] at hnul
  have hunbroken : ∀ b ∈ s ++ ascii ": ", isBreak b = false := by
    intro b hb
    rcases List.mem_append.1 hb with hmem | hmem
    · exact hs b hmem
    · have hsep : b ∈ [58, 32] := hmem
      simp only [List.mem_cons, List.not_mem_nil, or_false] at hsep
      rcases hsep with rfl | rfl <;> rfl
  have hzero : 0 ∉ s ++ ascii ": " := fun hz => absurd (hunbroken 0 hz) (by decide)
  let c : ChatLine := ⟨u, s ++ ascii ": ", hnul.1.1, hzero⟩
  let d : ChatLine := ⟨u ++ ascii ": " ++ s, [], hv.nul, List.not_mem_nil⟩
  have hchomp : chomp (s ++ ascii ": ") = s ++ ascii ": " := by
    have hc := chomp_unbroken hunbroken
    rwa [cstr_self hzero] at hc
  have hshift : Shifts c d := ⟨s, rfl, hchomp.trans (List.append_nil _).symm⟩
  have hlen : c.len < 2 ^ 31 := by
    have hshort := hv.short
    rw [List.length_append, List.length_append] at hshort
    change u.length + (chomp (s ++ ascii ": ")).length + 7 < 2 ^ 31
    rw [hchomp, List.length_append]
    omega
  obtain ⟨frame, hcframe, hdframe⟩ := (frames_agree_iff c d).2 ⟨hlen, .inr (.inl hshift)⟩
  refine ⟨c, d, frame, rfl, rfl, hcframe, hdframe, ?_⟩
  rintro ⟨hname, _⟩
  have hsame := congrArg List.length hname
  simp only [c, d, List.length_append] at hsame
  have hsep : (ascii ": ").length = 2 := rfl
  omega

/-- Frames of two names tell them and their texts apart exactly if neither name
    extends the other. -/
theorem names_identify_iff (hu : Accepted u) (hv : Accepted v) :
    (∀ c d frame, c.userName = u → d.userName = v → Builds c frame → Builds d frame →
      SameLine c d) ↔ ¬ Extends u v ∧ ¬ Extends v u := by
  constructor
  · intro h
    constructor
    · intro hext
      obtain ⟨c, d, frame, hcu, hdv, hc, hd, hno⟩ := collision_of_extends hv hext
      exact hno (h c d frame hcu hdv hc hd)
    · intro hext
      obtain ⟨d, c, frame, hdv, hcu, hd, hc, hno⟩ := collision_of_extends hu hext
      obtain ⟨hname, htext⟩ := h c d frame hcu hdv hc hd
      exact hno ⟨hname.symm, htext.symm⟩
  · rintro ⟨huv, hvu⟩ c d frame rfl rfl hc hd
    rcases ((frames_agree_iff c d).1 ⟨frame, hc, hd⟩).2 with hsame | hshift | hshift
    · exact hsame
    · exact absurd (extends_of_shifts hshift) huv
    · exact absurd (extends_of_shifts hshift) hvu

end Names

def shorterName : ChatLine := ⟨ascii "al", ascii "bo: c", by decide, by decide⟩

def longerName : ChatLine := ⟨ascii "al: bo", ascii "c", by decide, by decide⟩

/-- What `al` says and what `al: bo` says is one frame. -/
theorem names_collide : Accepted shorterName.userName ∧ Accepted longerName.userName ∧
    Builds shorterName (ascii "000eal: bo: c") ∧ Builds longerName (ascii "000eal: bo: c") ∧
    ¬ SameLine shorterName longerName :=
  ⟨⟨by decide, by decide⟩, ⟨by decide, by decide⟩, ⟨by decide, by decide⟩,
    ⟨by decide, by decide⟩, fun h => absurd h.1 (by decide)⟩

end LanChat.FrameIdentity

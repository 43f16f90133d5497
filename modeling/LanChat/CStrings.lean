import Mathlib.Data.List.TakeWhile
import Mathlib.Data.List.Infix
import Mathlib.Tactic.Linarith

set_option autoImplicit false

/-!
# C strings, byte buffers and blocks of memory

A C string is the list of its bytes without the terminator, and every list has
a terminator after its last byte. A block of memory is the list of all its
bytes, and has nothing after the last one: what reads or writes there is a
`Fault`.
-/
namespace LanChat.CStrings

abbrev Bytes := List UInt8

def ascii (s : String) : Bytes := s.toList.map Char.toUInt8

/-- The C string at the start of a piece of memory. -/
def cstr (b : Bytes) : Bytes := b.takeWhile (· ≠ 0)

theorem zero_notMem_cstr (b : Bytes) : 0 ∉ cstr b := by
  intro h
  have hne := List.mem_takeWhile_imp h
  simp at hne

theorem cstr_append (s b : Bytes) (h : 0 ∉ s) : cstr (s ++ b) = s ++ cstr b := by
  induction s with
  | nil => rfl
  | cons a s ih =>
    have ha : a ≠ 0 := fun e => h (e ▸ List.mem_cons_self)
    have hs : 0 ∉ s := fun e => h (List.mem_cons_of_mem a e)
    simpa [cstr, ha] using ih hs

theorem cstr_terminated (s b : Bytes) (h : 0 ∉ s) : cstr (s ++ 0 :: b) = s := by
  rw [cstr_append s _ h]
  simp [cstr]

theorem cstr_append_of_mem {s : Bytes} (r : Bytes) (h : 0 ∈ s) : cstr (s ++ r) = cstr s := by
  obtain ⟨front, back, rfl, hfront⟩ := List.eq_append_cons_of_mem h
  rw [List.append_assoc, List.cons_append, cstr_terminated _ _ hfront, cstr_terminated _ _ hfront]

theorem cstr_terminator (s : Bytes) : cstr (s ++ [0]) = cstr s := by
  induction s with
  | nil => rfl
  | cons a s ih =>
    by_cases ha : a = 0
    · simp [cstr, ha]
    · simpa [cstr, ha] using ih

theorem prefix_cstr_iff (b t : Bytes) (ht : 0 ∉ t) : t <+: cstr b ↔ t <+: b := by
  constructor
  · exact fun h => h.trans (List.takeWhile_prefix _)
  · rintro ⟨r, rfl⟩
    rw [cstr_append t r ht]
    exact List.prefix_append t _

theorem takeWhile_prefix_of_mem {p : UInt8 → Bool} {s t : Bytes} {a : UInt8} (ha : a ∈ s)
    (hp : p a = false) (h : s <+: t) : t.takeWhile p = s.takeWhile p := by
  obtain ⟨r, rfl⟩ := h
  rw [List.takeWhile_append, if_neg]
  intro hl
  have hall := List.takeWhile_eq_self_iff.1 ((List.takeWhile_prefix p).eq_of_length hl) a ha
  rw [hp] at hall
  exact absurd hall (by decide)

theorem prefix_append_iff_of_le {s b t : Bytes} (h : t.length ≤ s.length) :
    t <+: s ++ b ↔ t <+: s :=
  ⟨fun ht => List.prefix_of_prefix_length_le ht (List.prefix_append s b) h,
    fun ht => ht.trans (List.prefix_append s b)⟩

theorem prefix_append_iff_of_ge {s b t : Bytes} (h : s.length ≤ t.length) :
    t <+: s ++ b ↔ s <+: t ∧ t.drop s.length <+: b := by
  constructor
  · intro ht
    obtain ⟨r, rfl⟩ := List.prefix_of_prefix_length_le (List.prefix_append s b) ht h
    rw [List.prefix_append_right_inj] at ht
    exact ⟨List.prefix_append s r, by rwa [List.drop_left]⟩
  · rintro ⟨⟨r, rfl⟩, hr⟩
    rw [List.drop_left] at hr
    exact (List.prefix_append_right_inj s).2 hr

/-- A byte that a text does not have ends every comparison with it. -/
theorem prefix_append_stop_iff {b : UInt8} {t : Bytes} (s r : Bytes) (hb : b ∉ t) :
    t <+: s ++ b :: r ↔ t <+: s := by
  constructor
  · intro h
    rcases List.prefix_or_prefix_of_prefix h (List.prefix_append s _) with hle | ⟨u, rfl⟩
    · exact hle
    · rw [List.prefix_append_right_inj] at h
      cases u with
      | nil => simp
      | cons c u =>
        obtain ⟨rfl, _⟩ := List.cons_prefix_cons.1 h
        simp at hb
  · exact fun h => h.trans (List.prefix_append s _)

theorem append_stop_prefix_iff {b : UInt8} {s t : Bytes} (r u : Bytes) (hs : b ∉ s) (ht : b ∉ t) :
    s ++ b :: r <+: t ++ b :: u ↔ s = t ∧ r <+: u := by
  induction s generalizing t with
  | nil =>
    cases t with
    | nil => simp [List.cons_prefix_cons]
    | cons c t =>
      have hc : ¬ b = c := fun e => ht (e ▸ List.mem_cons_self)
      simp [List.cons_prefix_cons, hc]
  | cons a s ih =>
    cases t with
    | nil =>
      have ha : ¬ a = b := fun e => hs (e ▸ List.mem_cons_self)
      simp [List.cons_prefix_cons, ha]
    | cons c t =>
      have hs' : b ∉ s := fun e => hs (List.mem_cons_of_mem a e)
      have ht' : b ∉ t := fun e => ht (List.mem_cons_of_mem c e)
      simp [List.cons_prefix_cons, ih hs' ht', and_assoc]

/-- `strncmp`: at most `n` bytes are compared, and none after a common NUL. -/
def strncmp : Bytes → Bytes → ℕ → ℤ
  | _, _, 0 => 0
  | [], [], _ + 1 => 0
  | [], b :: _, _ + 1 => -b.toNat
  | a :: _, [], _ + 1 => a.toNat
  | a :: s, b :: t, n + 1 =>
    if a = b then if a = 0 then 0 else strncmp s t n else a.toNat - b.toNat

theorem toNat_sub_ne {a b : UInt8} (h : a ≠ b) : (a.toNat : ℤ) - b.toNat ≠ 0 := by
  intro e
  exact h (UInt8.toNat_inj.1 (by omega))

theorem toNat_ne {a : UInt8} (h : a ≠ 0) : (a.toNat : ℤ) ≠ 0 := by
  have hs := toNat_sub_ne h
  rwa [UInt8.toNat_zero, Nat.cast_zero, sub_zero] at hs

/-- Against a whole NUL-free word, `strncmp` is the test for a prefix. -/
theorem strncmp_eq_zero_iff (s t : Bytes) (ht : 0 ∉ t) :
    strncmp s t t.length = 0 ↔ t <+: s := by
  induction t generalizing s with
  | nil => simp [strncmp]
  | cons b t ih =>
    have hb : b ≠ 0 := fun e => ht (e ▸ List.mem_cons_self)
    have ht' : 0 ∉ t := fun e => ht (List.mem_cons_of_mem b e)
    cases s with
    | nil =>
      have hn := toNat_ne hb
      simp only [List.length_cons, strncmp, neg_eq_zero, hn, false_iff]
      exact fun e => List.cons_ne_nil b t (List.prefix_nil.1 e)
    | cons a s =>
      by_cases hab : a = b
      · subst a
        simp [strncmp, hb, ih s ht']
      · have hne : ¬ b = a := fun e => hab e.symm
        simpa [strncmp, hab, List.cons_prefix_cons, hne] using toNat_sub_ne hab

theorem strncmp_swap (s t : Bytes) (n : ℕ) : strncmp s t n = -strncmp t s n := by
  induction n generalizing s t with
  | zero => simp [strncmp]
  | succ n ih =>
    cases s with
    | nil => cases t <;> simp [strncmp]
    | cons a s =>
      cases t with
      | nil => simp [strncmp]
      | cons b t =>
        by_cases hab : a = b
        · subst a
          by_cases hb : b = 0
          · simp [strncmp, hb]
          · simpa [strncmp, hb] using ih s t
        · have hba : ¬ b = a := fun e => hab e.symm
          simp [strncmp, hab, hba]

theorem strncmp_eq_zero_iff_left (s t : Bytes) (ht : 0 ∉ t) :
    strncmp t s t.length = 0 ↔ t <+: s := by
  rw [strncmp_swap, neg_eq_zero]
  exact strncmp_eq_zero_iff s t ht

def strcspn (s reject : Bytes) : ℕ := (s.takeWhile (· ∉ reject)).length

theorem take_strcspn (s reject : Bytes) :
    s.take (strcspn s reject) = s.takeWhile (· ∉ reject) := by
  exact (List.prefix_iff_eq_take.1 (List.takeWhile_prefix _)).symm

/-- The C string that `snprintf` leaves in a buffer of `n` bytes. -/
def snprintf (n : ℕ) (text : Bytes) : Bytes := text.take (n - 1)

theorem snprintf_fits (n : ℕ) (text : Bytes) (h : text.length < n) : snprintf n text = text := by
  exact List.take_of_length_le (by omega)

/-- Memory `dst` after the bytes `src` have been copied to its start. -/
def blit (src dst : Bytes) : Bytes := src ++ dst.drop src.length

theorem blit_length (src dst : Bytes) (h : src.length ≤ dst.length) :
    (blit src dst).length = dst.length := by
  simp only [blit, List.length_append, List.length_drop]
  omega

theorem drop_blit (src dst : Bytes) (k : ℕ) :
    (blit src dst).drop k = src.drop k ++ dst.drop (max k src.length) := by
  rw [blit, List.drop_append, List.drop_drop]
  congr 2
  omega

/-- An access outside the block that it goes to, with its index. -/
inductive Fault where
  | read (i : ℕ)
  | write (i : ℕ)
  deriving DecidableEq, Repr

/-- A fresh block; what it holds is whatever was in the heap. -/
def malloc (n : ℕ) (heap : ℕ → UInt8) : Bytes := (List.range n).map heap

@[simp] theorem malloc_length (n : ℕ) (heap : ℕ → UInt8) : (malloc n heap).length = n := by
  simp [malloc]

theorem take_malloc {k n : ℕ} (heap : ℕ → UInt8) (h : k ≤ n) :
    (malloc n heap).take k = malloc k heap := by
  rw [malloc, ← List.map_take, List.take_range, min_eq_left h]
  rfl

theorem drop_malloc_const (n m : ℕ) (b : UInt8) :
    (malloc n fun _ => b).drop m = List.replicate (n - m) b := by
  simp [malloc]

theorem prefix_drop_malloc {t : Bytes} {m n : ℕ} (h : m + t.length ≤ n) :
    t <+: (malloc n fun j => t.getD (j - m) 0).drop m := by
  rw [List.prefix_iff_eq_take]
  apply List.ext_getElem
  · simp only [List.length_take, List.length_drop, malloc_length]
    omega
  · intro i hi _
    simp [malloc, List.getElem_take, hi]

theorem blit_malloc_set (b : Bytes) (heap : ℕ → UInt8) :
    (blit b (malloc (b.length + 1) heap)).set b.length 0 = b ++ [0] := by
  have hlen : ((malloc (b.length + 1) heap).drop b.length).length = 1 := by
    rw [List.length_drop, malloc_length]
    omega
  obtain ⟨x, hx⟩ := List.length_eq_one_iff.1 hlen
  rw [blit, hx, List.set_append_right _ _ (le_refl _), Nat.sub_self]
  rfl

def store (block : Bytes) (i : ℕ) (v : UInt8) : Except Fault Bytes :=
  if i < block.length then .ok (block.set i v) else .error (.write i)

/-- `strncmp` on a block, read from index `i` on, against a C string. -/
def strncmpAt : Bytes → ℕ → Bytes → ℕ → Except Fault ℤ
  | _, _, _, 0 => .ok 0
  | [], i, _, _ + 1 => .error (.read i)
  | a :: _, _, [], _ + 1 => .ok a.toNat
  | a :: s, i, b :: t, n + 1 =>
    if a = b then if a = 0 then .ok 0 else strncmpAt s (i + 1) t n
    else .ok (a.toNat - b.toNat)

/-- The bytes a `%s` conversion prints of a block read from index `i` on. -/
def stringAt : Bytes → ℕ → Except Fault Bytes
  | [], i => .error (.read i)
  | a :: s, i => if a = 0 then .ok [] else (stringAt s (i + 1)).map (a :: ·)

theorem strncmpAt_eq (s : Bytes) (i : ℕ) (t : Bytes) (n : ℕ) (h : 0 ∈ s) :
    strncmpAt s i t n = .ok (strncmp s t n) := by
  induction n generalizing s i t with
  | zero => simp [strncmpAt, strncmp]
  | succ n ih =>
    cases s with
    | nil => simp at h
    | cons a s =>
      cases t with
      | nil => simp [strncmpAt, strncmp]
      | cons b t =>
        by_cases hab : a = b
        · subst a
          by_cases hb : b = 0
          · simp [strncmpAt, strncmp, hb]
          · have hs : 0 ∈ s := (List.mem_cons.1 h).resolve_left (fun e => hb e.symm)
            simp [strncmpAt, strncmp, hb, ih s (i + 1) t hs]
        · simp [strncmpAt, strncmp, hab]

theorem stringAt_eq (s : Bytes) (i : ℕ) (h : 0 ∈ s) : stringAt s i = .ok (cstr s) := by
  induction s generalizing i with
  | nil => simp at h
  | cons a s ih =>
    by_cases ha : a = 0
    · simp [stringAt, cstr, ha]
    · have hs : 0 ∈ s := (List.mem_cons.1 h).resolve_left (fun e => ha e.symm)
      simp [stringAt, ha, ih (i + 1) hs, Except.map, cstr]

end LanChat.CStrings

import Mathlib.Data.Nat.Digits.Lemmas
import LanChat.CStrings

set_option autoImplicit false

/-!
# Numbers as text: `%d` and `%x` of `printf`, `%x` of `sscanf`

Only what both directions share is here: numerals in a base up to sixteen,
and the grammar by which `sscanf` reads a hexadecimal number.
-/
namespace LanChat.HexText
open CStrings

def digitChar (d : ℕ) : UInt8 := UInt8.ofNat (if d < 10 then 48 + d else 87 + d)

/-- The numeral of `n` in base `b`, most significant digit first. -/
def numeral (b n : ℕ) : Bytes := if n = 0 then [48] else (b.digits n).reverse.map digitChar

def isspace (c : UInt8) : Bool := c.toNat = 32 ∨ 9 ≤ c.toNat ∧ c.toNat ≤ 13

def isxdigit (c : UInt8) : Bool :=
  48 ≤ c.toNat ∧ c.toNat ≤ 57 ∨ 97 ≤ c.toNat ∧ c.toNat ≤ 102 ∨ 65 ≤ c.toNat ∧ c.toNat ≤ 70

def xdigitVal (c : UInt8) : ℕ :=
  if c.toNat ≤ 57 then c.toNat - 48 else if c.toNat ≤ 70 then c.toNat - 55 else c.toNat - 87

/-- The number that a run of hexadecimal digits denotes. -/
def value (ds : Bytes) : ℕ := Nat.ofDigits 16 (ds.reverse.map xdigitVal)

def scanSign : Bytes → Bool × Bytes
  | [] => (false, [])
  | c :: s => if c = 45 then (true, s) else if c = 43 then (false, s) else (false, c :: s)

def scanPrefix : Bytes → Bytes
  | c :: d :: s => if c = 48 ∧ (d = 120 ∨ d = 88) then s else c :: d :: s
  | s => s

/-- The item that `%x` consumes: its sign and its run of digits. -/
def scanItem (text : Bytes) : Bool × Bytes :=
  let signed := scanSign (text.dropWhile isspace)
  (signed.1, (scanPrefix signed.2).takeWhile isxdigit)

/-- `strtoul` at 64 bits, stored into an `unsigned int`: a run that does not
    fit saturates, and a minus sign negates modulo the word size. -/
def strtoul (neg : Bool) (v : ℕ) : UInt32 :=
  UInt32.ofNat (if 2 ^ 64 ≤ v then 2 ^ 64 - 1 else if neg then 2 ^ 64 - v else v)

/-- `sscanf(text, "%x", &dec)`; `none` leaves `dec` as it was. -/
def sscanfX (text : Bytes) : Option UInt32 :=
  let item := scanItem text
  if item.2 = [] then none else some (strtoul item.1 (value item.2))

/-- No conversion that has read up to here goes on into `tail`. -/
def Isolated (tail : Bytes) : Prop := ∀ c ∈ tail.head?, isxdigit c = false

theorem isolated_nil : Isolated [] := by simp [Isolated]

theorem digitChar_isxdigit {d : ℕ} (h : d < 16) : isxdigit (digitChar d) = true := by
  interval_cases d <;> rfl

theorem xdigitVal_digitChar {d : ℕ} (h : d < 16) : xdigitVal (digitChar d) = d := by
  interval_cases d <;> rfl

theorem numeral_isxdigit {b n : ℕ} (hb : 1 < b) (hb' : b ≤ 16) :
    ∀ c ∈ numeral b n, isxdigit c = true := by
  unfold numeral
  split
  · simp [isxdigit]
  · intro c hc
    obtain ⟨d, hd, rfl⟩ := List.mem_map.1 hc
    have hlt := Nat.digits_lt_base hb (List.mem_reverse.1 hd)
    exact digitChar_isxdigit (by omega)

theorem xdigitVal_lt {c : UInt8} (h : isxdigit c = true) : xdigitVal c < 16 := by
  simp only [isxdigit, decide_eq_true_eq] at h
  unfold xdigitVal
  split_ifs <;> omega

theorem map_xdigitVal_digitChar (ds : List ℕ) (h : ∀ d ∈ ds, d < 16) :
    (ds.map digitChar).map xdigitVal = ds := by
  rw [List.map_map]
  calc
    ds.map (xdigitVal ∘ digitChar) = ds.map id :=
      List.map_congr_left (fun d hd => xdigitVal_digitChar (h d hd))
    _ = ds := List.map_id ds

theorem digits_lt (n : ℕ) : ∀ d ∈ Nat.digits 16 n, d < 16 :=
  fun _ hd => Nat.digits_lt_base (by decide) hd

theorem value_numeral (n : ℕ) : value (numeral 16 n) = n := by
  unfold numeral value
  split
  · rename_i h
    simp [h, xdigitVal]
  · rw [← List.map_reverse, List.reverse_reverse, map_xdigitVal_digitChar _ (digits_lt n)]
    exact Nat.ofDigits_digits 16 n

theorem value_leftpad (k : ℕ) (ds : Bytes) : value (ds.leftpad k 48) = value ds := by
  have hz : xdigitVal 48 = 0 := rfl
  simp only [value, List.leftpad, List.reverse_append, List.reverse_replicate, List.map_append,
    List.map_replicate, hz, Nat.ofDigits_append_replicate_zero]

theorem value_lt (ds : Bytes) (h : ∀ c ∈ ds, isxdigit c = true) : value ds < 16 ^ ds.length := by
  have hlt : ∀ d ∈ ds.reverse.map xdigitVal, d < 16 := by
    intro d hd
    obtain ⟨c, hc, rfl⟩ := List.mem_map.1 hd
    exact xdigitVal_lt (h c (List.mem_reverse.1 hc))
  simpa [value] using Nat.ofDigits_lt_base_pow_length (by decide) hlt

theorem leftpad_isxdigit (k : ℕ) (ds : Bytes) (h : ∀ c ∈ ds, isxdigit c = true) :
    ∀ c ∈ ds.leftpad k 48, isxdigit c = true := by
  intro c hc
  rcases List.mem_append.1 hc with hc | hc
  · rw [List.eq_of_mem_replicate hc]
    rfl
  · exact h c hc

theorem numeral_length {n : ℕ} (h : n ≠ 0) : (numeral 16 n).length = (Nat.digits 16 n).length := by
  simp [numeral, h]

theorem numeral_length_le {n k : ℕ} (hk : 0 < k) (h : n < 16 ^ k) :
    (numeral 16 n).length ≤ k := by
  by_cases hn : n = 0
  · simp only [numeral, hn, ↓reduceIte, List.length_singleton]
    omega
  · rw [numeral_length hn]
    exact (Nat.digits_length_le_iff (by decide) n).2 h

theorem lt_numeral_length {n k : ℕ} (h : 16 ^ k ≤ n) : k < (numeral 16 n).length := by
  have hn : n ≠ 0 := by
    have hpos : 0 < 16 ^ k := Nat.pow_pos (by decide)
    omega
  rw [numeral_length hn]
  exact (Nat.lt_digits_length_iff (by decide) n).2 h

theorem value_take_numeral (n k : ℕ) (hk : k ≤ (numeral 16 n).length) :
    value ((numeral 16 n).take k) = n / 16 ^ ((numeral 16 n).length - k) := by
  by_cases hn : n = 0
  · subst n
    have hv : ((numeral 16 0).take k) = [] ∨ ((numeral 16 0).take k) = [48] := by
      cases k <;> simp [numeral]
    rcases hv with hv | hv <;> simp [hv, value, xdigitVal]
  · have hl := numeral_length hn
    rw [hl] at hk ⊢
    unfold value
    rw [show numeral 16 n = (Nat.digits 16 n).reverse.map digitChar from by simp [numeral, hn],
      ← List.map_take, ← List.map_reverse, List.reverse_take, List.reverse_reverse,
      List.length_reverse, map_xdigitVal_digitChar _
        (fun d hd => digits_lt n d (List.mem_of_mem_drop hd))]
    exact (Nat.self_div_pow_eq_ofDigits_drop _ n (by decide)).symm

theorem numeral_eq {b : ℕ} (hb : 1 < b) (n : ℕ) :
    numeral b n =
      if n < b then [digitChar n] else numeral b (n / b) ++ [digitChar (n % b)] := by
  by_cases hn : n = 0
  · subst n
    rw [if_pos (by omega)]
    rfl
  · rw [numeral, if_neg hn, Nat.digits_def' hb (by omega), List.reverse_cons, List.map_append,
      List.map_singleton]
    split_ifs with hlt
    · rw [Nat.div_eq_of_lt hlt, Nat.mod_eq_of_lt hlt, Nat.digits_zero]
      rfl
    · have hdiv : n / b ≠ 0 := Nat.div_ne_zero_iff.2 ⟨by omega, not_lt.1 hlt⟩
      rw [numeral, if_neg hdiv]

/-- The number that a run of decimal digits denotes. -/
def decimal (ds : Bytes) : ℕ := ds.foldl (fun v c => v * 10 + xdigitVal c) 0

theorem decimal_concat (ds : Bytes) (c : UInt8) :
    decimal (ds ++ [c]) = decimal ds * 10 + xdigitVal c := by
  simp [decimal]

theorem decimal_numeral (n : ℕ) : decimal (numeral 10 n) = n := by
  induction n using Nat.strongRecOn with
  | ind n ih =>
    rw [numeral_eq (by decide)]
    split_ifs with hlt
    · simp [decimal, xdigitVal_digitChar (by omega : n < 16)]
    · have hmod : n % 10 < 16 := by omega
      rw [decimal_concat, ih (n / 10) (by omega), xdigitVal_digitChar hmod]
      omega

theorem numeral_injective : Function.Injective (numeral 10) := fun m n h => by
  rw [← decimal_numeral m, ← decimal_numeral n, h]

theorem numeral_prefix_iff (m n : ℕ) : numeral 10 m <+: numeral 10 n ↔
    m = n ∨ 10 ≤ n ∧ numeral 10 m <+: numeral 10 (n / 10) := by
  constructor
  · intro h
    by_cases hlt : n < 10
    · rw [numeral_eq (n := n) (by decide), if_pos hlt] at h
      have hne : numeral 10 m ≠ [] := by
        rw [numeral_eq (by decide)]
        split_ifs <;> simp
      have heq : numeral 10 m = numeral 10 n := by
        rw [numeral_eq (n := n) (by decide), if_pos hlt]
        exact h.eq_of_length (le_antisymm h.length_le (List.length_pos_iff.2 hne))
      exact .inl (numeral_injective heq)
    · rw [numeral_eq (n := n) (by decide), if_neg hlt, List.prefix_concat_iff] at h
      rcases h with h | h
      · refine .inl (numeral_injective ?_)
        rw [h, numeral_eq (n := n) (by decide), if_neg hlt]
      · exact .inr ⟨not_lt.1 hlt, h⟩
  · rintro (rfl | ⟨hn, h⟩)
    · exact List.prefix_rfl
    · rw [numeral_eq (n := n) (by decide), if_neg (not_lt.2 hn)]
      exact h.trans (List.prefix_append _ _)

theorem isspace_of_isxdigit {c : UInt8} (h : isxdigit c = true) : isspace c = false := by
  simp only [isxdigit, isspace, decide_eq_true_eq, decide_eq_false_iff_not] at h ⊢
  omega

theorem scanSign_digit {c : UInt8} (s : Bytes) (h : isxdigit c = true) :
    scanSign (c :: s) = (false, c :: s) := by
  have h1 : c ≠ 45 := by rintro rfl; exact absurd h (by decide)
  have h2 : c ≠ 43 := by rintro rfl; exact absurd h (by decide)
  simp [scanSign, h1, h2]

theorem scanPrefix_digits {c d : UInt8} (s : Bytes) (h : isxdigit d = true) :
    scanPrefix (c :: d :: s) = c :: d :: s := by
  have h1 : d ≠ 120 := by rintro rfl; exact absurd h (by decide)
  have h2 : d ≠ 88 := by rintro rfl; exact absurd h (by decide)
  simp [scanPrefix, h1, h2]

theorem takeWhile_isolated (ds tail : Bytes) (hds : ∀ c ∈ ds, isxdigit c = true)
    (htail : Isolated tail) : (ds ++ tail).takeWhile isxdigit = ds := by
  rw [List.takeWhile_append_of_pos hds]
  cases tail with
  | nil => simp
  | cons c tail => simp [htail c (by simp)]

/-- The conversion of a text that begins with digits goes on with those behind
    them. A single digit must end the text, or it could be the start of a prefix. -/
theorem scanItem_digits (ds tail : Bytes) (hds : ∀ c ∈ ds, isxdigit c = true) (hne : ds ≠ [])
    (hlen : 2 ≤ ds.length ∨ tail = []) :
    scanItem (ds ++ tail) = (false, ds ++ tail.takeWhile isxdigit) := by
  have htake : (ds ++ tail).takeWhile isxdigit = ds ++ tail.takeWhile isxdigit :=
    List.takeWhile_append_of_pos hds
  obtain ⟨c, ds, rfl⟩ := List.exists_cons_of_ne_nil hne
  have hc := hds c (by simp)
  have hskip : (c :: ds ++ tail).dropWhile isspace = c :: (ds ++ tail) := by
    simp [isspace_of_isxdigit hc]
  have hbegins : scanPrefix (c :: (ds ++ tail)) = c :: ds ++ tail := by
    cases ds with
    | nil =>
      have ht : tail = [] := hlen.resolve_left (by simp)
      simp [ht, scanPrefix]
    | cons d ds => exact scanPrefix_digits _ (hds d (by simp))
  unfold scanItem
  rw [hskip, scanSign_digit _ hc]
  dsimp only
  rw [hbegins, htake]

/-- Plain digits are read as the number they denote, wherever the run ends. -/
theorem sscanfX_digits (ds tail : Bytes) (hds : ∀ c ∈ ds, isxdigit c = true) (hne : ds ≠ [])
    (hlen : 2 ≤ ds.length ∨ tail = []) (hv : value ds < 2 ^ 64) (htail : Isolated tail) :
    sscanfX (ds ++ tail) = some (UInt32.ofNat (value ds)) := by
  have htake := takeWhile_isolated ds tail hds htail
  rw [List.takeWhile_append_of_pos hds] at htake
  unfold sscanfX
  rw [scanItem_digits ds tail hds hne hlen, htake]
  have hnot : ¬ 2 ^ 64 ≤ value ds := by omega
  simp only [strtoul, hnot, hne, ↓reduceIte, Bool.false_eq_true]

theorem value_append (ds es : Bytes) : value (ds ++ es) = value ds * 16 ^ es.length + value es := by
  rw [value, List.reverse_append, List.map_append, Nat.ofDigits_append, List.length_map,
    List.length_reverse, Nat.add_comm, Nat.mul_comm]
  rfl

end LanChat.HexText

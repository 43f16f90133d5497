import LanChat.SocketAddresses
import LanChat.TransitionRuns

set_option autoImplicit false

/-!
# `inet_pton` for IPv4, and the last dot of a text

The parser of `libfree/inet_pton.c` reads one character at a time into an array
of four octets.
-/
namespace LanChat.DottedQuads
open CStrings HexText SocketAddresses TransitionRuns

/-- The variables of `inet_pton4`: `tmp` is `past` up to `tp`, and `last` there. -/
structure Pton where
  sawDigit : Bool
  octets : ℕ
  past : List UInt8
  last : ℕ
  deriving DecidableEq, Repr

def isdigit (c : UInt8) : Bool := 48 ≤ c.toNat ∧ c.toNat ≤ 57

def ptonStep (s : Pton) (ch : UInt8) : Option Pton :=
  if isdigit ch then
    let new := s.last * 10 + (ch.toNat - 48)
    if 255 < new then none
    else if s.sawDigit then some { s with last := new }
    else if 4 < s.octets + 1 then none
    else some { s with last := new, octets := s.octets + 1, sawDigit := true }
  else if ch = 46 ∧ s.sawDigit then
    if s.octets = 4 then none
    else some { s with past := s.past ++ [UInt8.ofNat s.last], last := 0, sawDigit := false }
  else none

def ptonDone (s : Pton) : Option InAddr :=
  if s.octets < 4 then none
  else match s.past with
    | [a, b, c] => some ⟨a, b, c, UInt8.ofNat s.last⟩
    | _ => none

def inetPton (src : Bytes) : Option InAddr := (run ptonStep ⟨false, 0, [], 0⟩ src).bind ptonDone

/-- The text up to its last dot, which `strrchr` finds. -/
def throughLastDot (text : Bytes) : Option Bytes :=
  let back := text.reverse.dropWhile (· ≠ 46)
  if back = [] then none else some back.reverse

/-- `octets` counts the octets that have begun. -/
def Counted (s : Pton) : Prop := s.octets = s.past.length + s.sawDigit.toNat

theorem counted_step {s t : Pton} {ch : UInt8} (hs : Counted s) (h : ptonStep s ch = some t) :
    Counted t := by
  unfold Counted at *
  simp only [ptonStep] at h
  split_ifs at h with hdigit hnew hsaw hfour hdot hfull <;> cases h
  · exact hs
  · simp only [Bool.not_eq_true] at hsaw
    simp only [hsaw, Bool.toNat_false, Bool.toNat_true] at hs ⊢
    omega
  · simp only [hdot.2, Bool.toNat_true, Bool.toNat_false, List.length_append,
      List.length_singleton] at hs ⊢
    omega

theorem counted_run {s t : Pton} {text : Bytes} (hs : Counted s)
    (h : run ptonStep s text = some t) : Counted t :=
  run_preserves (fun _ _ _ hs h => counted_step hs h) hs h

theorem past_run {s t : Pton} {text : Bytes} (hdot : 46 ∉ text)
    (h : run ptonStep s text = some t) : t.past = s.past := by
  refine run_invariant (I := fun u => u.past = s.past) (A := fun ch => ch ≠ 46) ?_ rfl
    (fun ch hch e => hdot (e ▸ hch)) h
  intro u ch w hu hch hstep
  simp only [ptonStep] at hstep
  split_ifs at hstep with hdigit hnew hsaw hfour hd hfull
  · cases hstep
    exact hu
  · cases hstep
    exact hu
  · exact absurd hd.1 hch

theorem ptonStep_digit (s : Pton) {d : ℕ} (hd : d < 10) : ptonStep s (digitChar d) =
    if 255 < s.last * 10 + d then none
    else if s.sawDigit then some { s with last := s.last * 10 + d }
    else if 4 < s.octets + 1 then none
    else some { s with last := s.last * 10 + d, octets := s.octets + 1, sawDigit := true } := by
  have hval : (digitChar d).toNat = 48 + d := by interval_cases d <;> rfl
  have hdigit : isdigit (digitChar d) = true := by
    rw [isdigit, hval]
    exact decide_eq_true ⟨by omega, by omega⟩
  simp only [ptonStep, hdigit, ↓reduceIte, hval, Nat.add_sub_cancel_left]

theorem run_numeral {s : Pton} (hsaw : s.sawDigit = false) (hlast : s.last = 0)
    (hroom : s.octets < 4) (n : ℕ) : run ptonStep s (numeral 10 n) =
      if n ≤ 255 then some { s with last := n, octets := s.octets + 1, sawDigit := true }
      else none := by
  induction n using Nat.strongRecOn with
  | ind n ih =>
    rw [numeral_eq (by decide)]
    by_cases hlt : n < 10
    · rw [if_pos hlt, if_pos (by omega), run, ptonStep_digit s hlt, hsaw, hlast,
        if_neg (by omega), if_neg (by decide), if_neg (by omega), Nat.zero_mul, Nat.zero_add]
      rfl
    · rw [if_neg hlt, run_append, ih (n / 10) (by omega)]
      have hmod : n % 10 < 10 := Nat.mod_lt _ (by decide)
      have hsum : n / 10 * 10 + n % 10 = n := by omega
      by_cases hdiv : n / 10 ≤ 255
      · rw [if_pos hdiv, Option.bind_some, run, ptonStep_digit _ hmod]
        dsimp only
        rw [hsum, if_pos rfl]
        by_cases hn : n ≤ 255
        · rw [if_pos hn, if_neg (by omega)]
          rfl
        · rw [if_neg hn, if_pos (by omega)]
          rfl
      · rw [if_neg hdiv, if_neg (by omega)]
        rfl

theorem throughLastDot_append {net tail : Bytes} (h : 46 ∉ tail) :
    throughLastDot (net ++ 46 :: tail) = some (net ++ [46]) := by
  have hback : (net ++ 46 :: tail).reverse.dropWhile (· ≠ 46) = 46 :: net.reverse := by
    rw [List.reverse_append, List.reverse_cons, List.append_assoc, List.dropWhile_append_of_pos]
    · simp
    · intro c hc
      exact decide_eq_true fun e => h (e ▸ List.mem_reverse.1 hc)
  rw [throughLastDot, hback, if_neg (List.cons_ne_nil _ _)]
  simp

theorem exists_lastDot {text : Bytes} (h : 46 ∈ text) :
    ∃ net tail, text = net ++ 46 :: tail ∧ 46 ∉ tail := by
  obtain ⟨back, front, hback, hno⟩ := List.eq_append_cons_of_mem (List.mem_reverse.2 h)
  refine ⟨front.reverse, back.reverse, ?_, fun hmem => hno (List.mem_reverse.1 hmem)⟩
  rw [← List.reverse_reverse text, hback]
  simp

theorem ptonStep_dot {s t : Pton} (h : ptonStep s 46 = some t) :
    t.sawDigit = false ∧ t.last = 0 := by
  have hdigit : isdigit 46 = false := by decide
  simp only [ptonStep, hdigit, Bool.false_eq_true, ↓reduceIte] at h
  split_ifs at h
  cases h
  exact ⟨rfl, rfl⟩

theorem ptonDone_eq_some {s : Pton} {addr : InAddr} (h : ptonDone s = some addr) :
    s.past = [addr.a, addr.b, addr.c] := by
  simp only [ptonDone] at h
  split_ifs at h
  split at h
  · rename_i a b c hpast
    cases h
    exact hpast
  · cases h

theorem octets_step {s t : Pton} {ch : UInt8} (hs : s.octets ≤ 4) (h : ptonStep s ch = some t) :
    t.octets ≤ 4 := by
  simp only [ptonStep] at h
  split_ifs at h with hdigit hnew hsaw hfour hdot hfull <;> cases h <;> dsimp only <;> omega

/-- After a dot there is room for an octet, and as many have been read as there
    are dots. -/
theorem run_dot {front : Bytes} {t : Pton}
    (h : run ptonStep ⟨false, 0, [], 0⟩ (front ++ [46]) = some t) :
    t.sawDigit = false ∧ t.last = 0 ∧ t.octets < 4 ∧ t.octets = t.past.length := by
  obtain ⟨s, hfront, hstep⟩ := run_concat_iff.1 h
  have hle : s.octets ≤ 4 := run_preserves (I := fun u => u.octets ≤ 4)
    (fun _ _ _ hs h => octets_step hs h) (by decide) hfront
  have hcounted := counted_run (s := ⟨false, 0, [], 0⟩) rfl h
  obtain ⟨hsaw, hlast⟩ := ptonStep_dot hstep
  have hdigit : isdigit 46 = false := by decide
  rw [Counted, hsaw] at hcounted
  simp only [ptonStep, hdigit, Bool.false_eq_true, ↓reduceIte] at hstep
  split_ifs at hstep with hdot hfull
  cases hstep
  exact ⟨rfl, rfl, by dsimp only; omega, hcounted⟩

/-- What `strrchr` leaves of an address that `Inet_pton` takes can be completed
    by the number of any host, and by no greater one. -/
theorem inetPton_host {text : Bytes} {addr : InAddr} (h : inetPton text = some addr) :
    ∃ net, throughLastDot text = some net ∧
      ∀ n, inetPton (net ++ numeral 10 n) =
        if n ≤ 255 then some { addr with d := UInt8.ofNat n } else none := by
  obtain ⟨s, hrun, hdone⟩ := Option.bind_eq_some_iff.1 h
  have hpast := ptonDone_eq_some hdone
  have hdot : 46 ∈ text := by
    by_contra hno
    rw [past_run hno hrun] at hpast
    cases hpast
  obtain ⟨net, tail, rfl, htail⟩ := exists_lastDot hdot
  rw [List.append_cons, run_append, Option.bind_eq_some_iff] at hrun
  obtain ⟨t, hnet, hrest⟩ := hrun
  obtain ⟨hsaw, hlast, hroom, hcounted⟩ := run_dot hnet
  have hthree : t.past = [addr.a, addr.b, addr.c] := by rw [← past_run htail hrest, hpast]
  rw [hthree] at hcounted
  refine ⟨net ++ [46], throughLastDot_append htail, fun n => ?_⟩
  rw [inetPton, run_append, hnet, Option.bind_some,
    run_numeral hsaw hlast hroom]
  split_ifs
  · simp [ptonDone, hcounted, hthree]
  · rfl

theorem throughLastDot_eq_some {text net : Bytes} (h : throughLastDot text = some net) :
    ∃ front tail, net = front ++ [46] ∧ text = front ++ 46 :: tail ∧ 46 ∉ tail := by
  have hdot : 46 ∈ text := by
    by_contra hno
    rw [throughLastDot, if_pos] at h
    · cases h
    · apply List.dropWhile_eq_nil_iff.2
      intro c hc
      exact decide_eq_true fun e => hno (e ▸ List.mem_reverse.1 hc)
  obtain ⟨front, tail, rfl, htail⟩ := exists_lastDot hdot
  rw [throughLastDot_append htail] at h
  cases h
  exact ⟨front, tail, rfl, rfl, htail⟩

/-- The number of a host is put into what the text before it says, whatever
    that is. -/
theorem inetPton_numeral (front : Bytes) (n : ℕ) :
    inetPton (front ++ [46] ++ numeral 10 n) =
      if n ≤ 255 then
        (inetPton (front ++ [46] ++ numeral 10 0)).map fun addr => { addr with d := UInt8.ofNat n }
      else none := by
  rw [inetPton, inetPton, run_append _ (front ++ [46]) (numeral 10 n),
    run_append _ (front ++ [46]) (numeral 10 0)]
  cases hrun : run ptonStep ⟨false, 0, [], 0⟩ (front ++ [46]) with
  | none => simp
  | some t =>
    obtain ⟨hsaw, hlast, hroom, hcounted⟩ := run_dot hrun
    rw [Option.bind_some, Option.bind_some, run_numeral hsaw hlast hroom n,
      run_numeral hsaw hlast hroom 0, if_pos (Nat.zero_le 255)]
    split_ifs
    · simp only [Option.bind_some, ptonDone]
      split_ifs
      · rfl
      · split <;> rfl
    · rfl

theorem run_octet {s : Pton} (hsaw : s.sawDigit = false) (hlast : s.last = 0)
    (hroom : s.octets < 3) (n : UInt8) (rest : Bytes) :
    run ptonStep s (numeral 10 n.toNat ++ 46 :: rest) =
      run ptonStep ⟨false, s.octets + 1, s.past ++ [n], 0⟩ rest := by
  have hn := n.toNat_lt
  have hdigit : isdigit 46 = false := by decide
  rw [run_append, run_numeral hsaw hlast (by omega), if_pos (by omega), Option.bind_some, run,
    ptonStep, hdigit]
  simp only [Bool.false_eq_true, ↓reduceIte, and_self]
  rw [if_neg (by omega), UInt8.ofNat_toNat, Option.bind_some]

theorem inetPton_inetNtop (addr : InAddr) : inetPton (inetNtop addr) = some addr := by
  have hd := addr.d.toNat_lt
  rw [inetPton, inetNtop_dots, run_octet rfl rfl (show 0 < 3 by decide),
    run_octet rfl rfl (show 1 < 3 by decide), run_octet rfl rfl (show 2 < 3 by decide),
    run_numeral rfl rfl (show 3 < 4 by decide), if_pos (by omega)]
  simp [ptonDone]

end LanChat.DottedQuads

import LanChat.TransitionRuns
import Mathlib.Logic.Function.Basic
import Mathlib.Data.List.Basic

set_option autoImplicit false

/-!
# Networks that lose, double and reorder

Processes of any kind send packets, which are in flight until they enter a queue
of some process. Who has sent what is followed from there to who reads it.
-/
namespace LanChat.DatagramNetworks
open TransitionRuns

variable {ι κ σ ε μ π : Type*}

/-- `takes` is how much an event takes off a queue, and `enters` whether a process
    lets a packet into one. -/
structure Network (ι κ σ ε μ π : Type*) where
  init : ι → σ
  act : ι → σ → ε → Option (σ × List π)
  ready : (κ → List μ) → ε → Bool
  takes : ε → κ → ℕ
  enters : ι → σ → κ → π → Bool
  arrival : π → μ

structure Net (ι κ σ μ π : Type*) where
  proc : ι → σ
  queue : ι → κ → List μ
  flight : List π

inductive Label (ι κ ε π : Type*) where
  | act (i : ι) (e : ε)
  | deliver (p : π) (i : ι) (k : κ)
  | drop (p : π)
  | dup (p : π)

namespace Network

variable [DecidableEq ι] [DecidableEq κ] [DecidableEq π] (S : Network ι κ σ ε μ π)

def initial : Net ι κ σ μ π := ⟨S.init, fun _ _ => [], []⟩

def acted (s : Net ι κ σ μ π) (i : ι) (e : ε) (q : σ × List π) : Net ι κ σ μ π where
  proc := Function.update s.proc i q.1
  queue := Function.update s.queue i fun k => (s.queue i k).drop (S.takes e k)
  flight := s.flight ++ q.2

def delivered (s : Net ι κ σ μ π) (p : π) (i : ι) (k : κ) : Net ι κ σ μ π where
  proc := s.proc
  queue := Function.update s.queue i
    (Function.update (s.queue i) k (s.queue i k ++ [S.arrival p]))
  flight := s.flight.erase p

def step (s : Net ι κ σ μ π) : Label ι κ ε π → Option (Net ι κ σ μ π)
  | .act i e =>
    if S.ready (s.queue i) e then (S.act i (s.proc i) e).map (S.acted s i e) else none
  | .deliver p i k =>
    if p ∈ s.flight ∧ S.enters i (s.proc i) k p = true then some (S.delivered s p i k) else none
  | .drop p => if p ∈ s.flight then some { s with flight := s.flight.erase p } else none
  | .dup p => if p ∈ s.flight then some { s with flight := p :: s.flight } else none

/-- Everything that a step of the network can do. -/
inductive Move (s : Net ι κ σ μ π) : Label ι κ ε π → Net ι κ σ μ π → Prop where
  | act {i : ι} {e : ε} {q : σ × List π} (hready : S.ready (s.queue i) e = true)
      (hact : S.act i (s.proc i) e = some q) : Move s (.act i e) (S.acted s i e q)
  | deliver {p : π} {i : ι} {k : κ} (hp : p ∈ s.flight)
      (henters : S.enters i (s.proc i) k p = true) :
      Move s (.deliver p i k) (S.delivered s p i k)
  | drop {p : π} (hp : p ∈ s.flight) : Move s (.drop p) { s with flight := s.flight.erase p }
  | dup {p : π} (hp : p ∈ s.flight) : Move s (.dup p) { s with flight := p :: s.flight }

variable {S}

theorem move_of_step {s t : Net ι κ σ μ π} {l : Label ι κ ε π} (h : S.step s l = some t) :
    S.Move s l t := by
  cases l with
  | act i e =>
    simp only [step] at h
    split_ifs at h with hready
    obtain ⟨q, hq, rfl⟩ := Option.map_eq_some_iff.1 h
    exact .act hready hq
  | deliver p i k =>
    simp only [step] at h
    split_ifs at h with hc
    cases h
    exact .deliver hc.1 hc.2
  | drop p | dup p =>
    simp only [step] at h
    split_ifs at h with hp
    cases h
    constructor
    exact hp

omit [DecidableEq κ] [DecidableEq π] in
theorem mem_acted_queue {s : Net ι κ σ μ π} {i j : ι} {e : ε} {q : σ × List π} {k : κ} {d : μ}
    (h : d ∈ (S.acted s i e q).queue j k) : d ∈ s.queue j k := by
  by_cases hj : j = i
  · subst j
    simp only [acted, Function.update_self] at h
    exact List.mem_of_mem_drop h
  · simpa only [acted, Function.update_of_ne hj] using h

theorem mem_delivered_queue {s : Net ι κ σ μ π} {p : π} {i j : ι} {k k' : κ} {d : μ}
    (h : d ∈ (S.delivered s p i k).queue j k') :
    d ∈ s.queue j k' ∨ j = i ∧ k' = k ∧ d = S.arrival p := by
  by_cases hj : j = i
  · subst j
    by_cases hk : k' = k
    · subst k'
      simp only [delivered, Function.update_self, List.mem_append, List.mem_singleton] at h
      exact h.imp_right fun hd => ⟨rfl, rfl, hd⟩
    · simp only [delivered, Function.update_self, Function.update_of_ne hk] at h
      exact .inl h
  · simp only [delivered, Function.update_of_ne hj] at h
    exact .inl h

/-- Nothing is unread. -/
def quiet (proc : ι → σ) (flight : List π) : Net ι κ σ μ π := ⟨proc, fun _ _ => [], flight⟩

theorem step_quiet {proc : ι → σ} {flight : List π} {i : ι} {e : ε} {q : σ × List π}
    (hready : S.ready (fun _ => []) e = true) (hact : S.act i (proc i) e = some q) :
    S.step (quiet proc flight) (.act i e) =
      some (quiet (Function.update proc i q.1) (flight ++ q.2)) := by
  have hqueue : Function.update (fun (_ : ι) (_ : κ) => ([] : List μ)) i
      (fun k => ([] : List μ).drop (S.takes e k)) = fun _ _ => [] := by
    simp
  have hready' : S.ready ((quiet proc flight : Net ι κ σ μ π).queue i) e = true := hready
  have hact' : S.act i ((quiet proc flight : Net ι κ σ μ π).proc i) e = some q := hact
  rw [step, if_pos hready', hact', Option.map_some, acted]
  simp only [quiet, hqueue]

/-- One arrival is unread. -/
def held (proc : ι → σ) (flight : List π) (i : ι) (k : κ) (d : μ) : Net ι κ σ μ π :=
  ⟨proc, Function.update (fun _ _ => []) i (Function.update (fun _ => []) k [d]), flight⟩

theorem step_arrive {proc : ι → σ} {flight : List π} {p : π} {i : ι} {k : κ} (hp : p ∈ flight)
    (henters : S.enters i (proc i) k p = true) :
    S.step (quiet proc flight) (.deliver p i k) =
      some (held proc (flight.erase p) i k (S.arrival p)) := if_pos ⟨hp, henters⟩

omit [DecidableEq π] in
theorem held_queue (proc : ι → σ) (flight : List π) (i : ι) (k : κ) (d : μ) :
    (held proc flight i k d).queue i = Function.update (fun _ => []) k [d] := by
  simp only [held, Function.update_self]

/-- An event that reads nothing leaves the arrival where it is. -/
theorem step_held {proc : ι → σ} {flight : List π} {i : ι} {k : κ} {d : μ} {e : ε}
    {q : σ × List π} (hready : S.ready (Function.update (fun _ => []) k [d]) e = true)
    (htakes : ∀ k', S.takes e k' = 0) (hact : S.act i (proc i) e = some q) :
    S.step (held proc flight i k d) (.act i e) =
      some (held (Function.update proc i q.1) (flight ++ q.2) i k d) := by
  have hact' : S.act i ((held proc flight i k d).proc i) e = some q := hact
  have hsame : Function.update (held proc flight i k d).queue i
      (fun k' => ((held proc flight i k d).queue i k').drop (S.takes e k')) =
        (held proc flight i k d).queue := by
    simp only [htakes, List.drop_zero]
    exact Function.update_eq_self i _
  rw [step, held_queue, if_pos hready, hact', Option.map_some, acted, hsame]
  rfl

theorem step_read {proc : ι → σ} {flight : List π} {i : ι} {k : κ} {d : μ} {e : ε}
    {q : σ × List π} (hready : S.ready (Function.update (fun _ => []) k [d]) e = true)
    (htakes : S.takes e k = 1) (hact : S.act i (proc i) e = some q) :
    S.step (held proc flight i k d) (.act i e) =
      some (quiet (Function.update proc i q.1) (flight ++ q.2)) := by
  have hact' : S.act i ((held proc flight i k d).proc i) e = some q := hact
  have hread : Function.update (held proc flight i k d).queue i
      (fun k' => ((held proc flight i k d).queue i k').drop (S.takes e k')) = fun _ _ => [] := by
    rw [held_queue]
    funext j k'
    by_cases hj : j = i
    · subst j
      by_cases hk : k' = k
      · subst k'
        simp [htakes]
      · simp [hk]
    · simp [held, hj]
  rw [step, held_queue, if_pos hready, hact', Option.map_some, acted, hread]
  rfl

/-- A packet arrives where nothing else is unread, and is read. -/
theorem run_exchange {proc : ι → σ} {flight : List π} {p : π} {i : ι} {k : κ} {e : ε}
    {q : σ × List π} (hp : p ∈ flight) (henters : S.enters i (proc i) k p = true)
    (hready : S.ready (Function.update (fun _ => []) k [S.arrival p]) e = true)
    (htakes : S.takes e k = 1) (hact : S.act i (proc i) e = some q) :
    run S.step (quiet proc flight) [.deliver p i k, .act i e] =
      some (quiet (Function.update proc i q.1) (flight.erase p ++ q.2)) :=
  run_cons_iff.2 ⟨_, step_arrive hp henters, run_cons_iff.2
    ⟨_, step_read hready htakes hact, rfl⟩⟩

variable (S)

/-- `I` holds of the processes, `F` of what is in flight and `Q` of what has
    arrived, as long as the events are under `A`. What has once been said of a
    packet remains true as the processes go on. -/
structure Provenance (A : ι → ε → Prop) (I : (ι → σ) → Prop) (F : (ι → σ) → π → Prop)
    (Q : (ι → σ) → ι → κ → μ → Prop) : Prop where
  init : I S.init
  act : ∀ {proc : ι → σ} {queue : κ → List μ} {i : ι} {e : ε} {q : σ × List π}, A i e →
    I proc → (∀ k, ∀ d ∈ queue k, Q proc i k d) → S.ready queue e = true →
    S.act i (proc i) e = some q →
    I (Function.update proc i q.1) ∧ ∀ p ∈ q.2, F (Function.update proc i q.1) p
  flight : ∀ {proc : ι → σ} {i : ι} {e : ε} {q : σ × List π} {p : π},
    S.act i (proc i) e = some q → F proc p → F (Function.update proc i q.1) p
  queue : ∀ {proc : ι → σ} {i j : ι} {e : ε} {q : σ × List π} {k : κ} {d : μ},
    S.act i (proc i) e = some q → Q proc j k d → Q (Function.update proc i q.1) j k d
  arrives : ∀ {proc : ι → σ} {i : ι} {k : κ} {p : π}, F proc p →
    S.enters i (proc i) k p = true → Q proc i k (S.arrival p)

/-- All that is known of a state by a provenance. -/
structure Known (I : (ι → σ) → Prop) (F : (ι → σ) → π → Prop) (Q : (ι → σ) → ι → κ → μ → Prop)
    (s : Net ι κ σ μ π) : Prop where
  procs : I s.proc
  flight : ∀ p ∈ s.flight, F s.proc p
  queue : ∀ i k, ∀ d ∈ s.queue i k, Q s.proc i k d

variable {S} {A : ι → ε → Prop} {I : (ι → σ) → Prop} {F : (ι → σ) → π → Prop}
  {Q : (ι → σ) → ι → κ → μ → Prop}

theorem Known.move (h : S.Provenance A I F Q) {s t : Net ι κ σ μ π} {l : Label ι κ ε π}
    (hs : Known I F Q s) (hl : ∀ i e, l = .act i e → A i e) (hmove : S.Move s l t) :
    Known I F Q t := by
  cases hmove with
  | @act i e q hready hact =>
    obtain ⟨hprocs, hsent⟩ := h.act (hl i e rfl) hs.procs (hs.queue i) hready hact
    refine ⟨hprocs, ?_, fun j k d hd => h.queue hact (hs.queue j k d (mem_acted_queue hd))⟩
    intro p hp
    rcases List.mem_append.1 hp with hp | hp
    · exact h.flight hact (hs.flight p hp)
    · exact hsent p hp
  | @deliver p i k hp henters =>
    refine ⟨hs.procs, fun p hp => hs.flight p (List.mem_of_mem_erase hp), ?_⟩
    intro j k' d hd
    rcases mem_delivered_queue hd with hd | ⟨rfl, rfl, rfl⟩
    · exact hs.queue j k' d hd
    · exact h.arrives (hs.flight p hp) henters
  | drop hp => exact ⟨hs.procs, fun p hp => hs.flight p (List.mem_of_mem_erase hp), hs.queue⟩
  | dup hp => exact ⟨hs.procs, List.forall_mem_cons.2 ⟨hs.flight _ hp, hs.flight⟩, hs.queue⟩

omit [DecidableEq κ] [DecidableEq π] in
theorem known_initial (h : S.Provenance A I F Q) : Known I F Q S.initial where
  procs := h.init
  flight := by simp [initial]
  queue := by simp [initial]

theorem known_run (h : S.Provenance A I F Q) {labels : List (Label ι κ ε π)}
    {s : Net ι κ σ μ π} (hlabels : ∀ i e, .act i e ∈ labels → A i e)
    (hrun : run S.step S.initial labels = some s) : Known I F Q s := by
  refine run_invariant (A := fun l => ∀ i e, l = .act i e → A i e)
    (fun _ _ _ hs hl hstep => hs.move h hl (move_of_step hstep)) (known_initial h) ?_ hrun
  rintro l hl i e rfl
  exact hlabels i e hl

section Ledger

variable (S) (flying : π → Bool) (waiting : μ → Bool) (i : ι) (k : κ)

/-- The copies that may still be read from one queue. -/
def pending (s : Net ι κ σ μ π) : ℕ :=
  s.flight.countP flying + (s.queue i k).countP waiting

def sent (s : Net ι κ σ μ π) : Label ι κ ε π → ℕ
  | .act j e => ((S.act j (s.proc j) e).map fun q => q.2.countP flying).getD 0
  | _ => 0

def taken (s : Net ι κ σ μ π) : Label ι κ ε π → ℕ
  | .act j e => if j = i then ((s.queue i k).take (S.takes e k)).countP waiting else 0
  | _ => 0

def doubled (_ : Net ι κ σ μ π) : Label ι κ ε π → ℕ
  | .dup p => if flying p then 1 else 0
  | _ => 0

def lost (_ : Net ι κ σ μ π) : Label ι κ ε π → ℕ
  | .drop p => if flying p then 1 else 0
  | _ => 0

variable {S flying waiting i k}

omit [DecidableEq ι] [DecidableEq κ] in
theorem countP_erase (flying : π → Bool) {p : π} {flight : List π} (hp : p ∈ flight) :
    flight.countP flying = (flight.erase p).countP flying + if flying p then 1 else 0 := by
  rw [(List.perm_cons_erase hp).countP_eq, List.countP_cons]

omit [DecidableEq κ] [DecidableEq π] in
theorem pending_acted (s : Net ι κ σ μ π) (j : ι) (e : ε) (q : σ × List π) :
    pending flying waiting i k s + q.2.countP flying =
      pending flying waiting i k (S.acted s j e q) + S.taken waiting i k s (.act j e) := by
  simp only [pending, acted, taken, List.countP_append]
  by_cases hj : j = i
  · subst j
    have hsplit := congrArg (List.countP waiting) (List.take_append_drop (S.takes e k) (s.queue i k))
    rw [List.countP_append] at hsplit
    rw [Function.update_self, if_pos rfl]
    omega
  · rw [Function.update_of_ne (Ne.symm hj), if_neg hj]
    omega

theorem pending_delivered {s : Net ι κ σ μ π} {p : π} {j : ι} {k' : κ} (hp : p ∈ s.flight)
    (hflying : flying p = true ↔ (j = i ∧ k' = k) ∧ waiting (S.arrival p) = true) :
    pending flying waiting i k (S.delivered s p j k') = pending flying waiting i k s := by
  have hcount := countP_erase flying hp
  simp only [pending, delivered]
  by_cases hto : j = i ∧ k' = k
  · obtain ⟨rfl, rfl⟩ := hto
    have hsame : flying p = waiting (S.arrival p) :=
      Bool.eq_iff_iff.2 (hflying.trans (and_iff_right ⟨rfl, rfl⟩))
    rw [Function.update_self, Function.update_self, List.countP_append, List.countP_singleton,
      ← hsame]
    omega
  · have hno : ¬ flying p = true := fun h => hto (hflying.1 h).1
    rw [if_neg hno] at hcount
    have hqueue : Function.update s.queue j
        (Function.update (s.queue j) k' (s.queue j k' ++ [S.arrival p])) i k = s.queue i k := by
      by_cases hj : i = j
      · subst j
        rw [Function.update_self, Function.update_of_ne fun h => hto ⟨rfl, h.symm⟩]
      · rw [Function.update_of_ne hj]
    rw [hqueue]
    omega

/-- No copy comes from nowhere or disappears, where only what is flying for the
    queue enters it as something to be waited for. -/
theorem pending_step {s t : Net ι κ σ μ π} {l : Label ι κ ε π}
    (hflying : ∀ p ∈ s.flight, ∀ j k', S.enters j (s.proc j) k' p = true →
      (flying p = true ↔ (j = i ∧ k' = k) ∧ waiting (S.arrival p) = true))
    (h : S.step s l = some t) :
    pending flying waiting i k s + (S.sent flying s l + doubled flying s l) =
      pending flying waiting i k t + (S.taken waiting i k s l + lost flying s l) := by
  cases move_of_step h with
  | @act j e q hready hact =>
    have hsent : S.sent flying s (.act j e) = q.2.countP flying := by simp [sent, hact]
    rw [hsent]
    exact pending_acted s j e q
  | @deliver p j k' hp henters =>
    rw [pending_delivered hp (hflying p hp j k' henters)]
    rfl
  | drop hp =>
    have hcount := countP_erase flying hp
    simp only [pending, sent, doubled, taken, lost, hcount]
    omega
  | dup hp =>
    simp only [pending, sent, doubled, taken, lost, List.countP_cons]
    omega

end Ledger

end Network

end LanChat.DatagramNetworks

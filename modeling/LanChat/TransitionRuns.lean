import Mathlib.Data.List.Infix

set_option autoImplicit false

/-!
# Runs of partial transition functions

A transition takes a state and a label to the next state, if the label is
possible there. What holds along a run is derived from what one step does.
-/
namespace LanChat.TransitionRuns

variable {σ α β : Type*} {step : σ → α → Option σ}

/-- The state after a list of labels, if each of them is possible in turn. -/
def run (step : σ → α → Option σ) : σ → List α → Option σ
  | s, [] => some s
  | s, a :: as => (step s a).bind fun t => run step t as

@[simp] theorem run_nil (s : σ) : run step s [] = some s := rfl

theorem run_cons_iff {s u : σ} {a : α} {as : List α} :
    run step s (a :: as) = some u ↔ ∃ t, step s a = some t ∧ run step t as = some u :=
  Option.bind_eq_some_iff

theorem run_append (s : σ) (as bs : List α) :
    run step s (as ++ bs) = (run step s as).bind fun t => run step t bs := by
  induction as generalizing s with
  | nil => rfl
  | cons a as ih =>
    cases h : step s a with
    | none => simp [run, h]
    | some t => simpa [run, h] using ih t

theorem run_trans {s t u : σ} {as bs : List α} (h : run step s as = some t)
    (h' : run step t bs = some u) : run step s (as ++ bs) = some u := by
  rw [run_append, h, Option.bind_some, h']

theorem run_concat_iff {s u : σ} {as : List α} {a : α} :
    run step s (as ++ [a]) = some u ↔ ∃ t, run step s as = some t ∧ step t a = some u := by
  rw [run_append, Option.bind_eq_some_iff]
  simp [run]

/-- What the possible steps preserve is preserved by a run whose labels are
    all permitted. -/
theorem run_invariant {I : σ → Prop} {A : α → Prop}
    (hstep : ∀ s a t, I s → A a → step s a = some t → I t) {s u : σ} {as : List α}
    (hs : I s) (has : ∀ a ∈ as, A a) (hrun : run step s as = some u) : I u := by
  induction as generalizing s with
  | nil =>
    cases hrun
    exact hs
  | cons a as ih =>
    obtain ⟨t, ht, hrest⟩ := run_cons_iff.1 hrun
    exact ih (hstep s a t hs (has a List.mem_cons_self) ht)
      (fun b hb => has b (List.mem_cons_of_mem a hb)) hrest

theorem run_preserves {I : σ → Prop} (hstep : ∀ s a t, I s → step s a = some t → I t) {s u : σ}
    {as : List α} (hs : I s) (hrun : run step s as = some u) : I u :=
  run_invariant (A := fun _ => True) (fun s a t hs _ => hstep s a t hs) hs (fun _ _ => trivial) hrun

/-- A list that each permitted step extends by what its label says is, after a
    run of them, what the labels say. -/
theorem run_collects_of {f : σ → List β} {g : α → List β} {A : α → Prop}
    (hstep : ∀ s a t, A a → step s a = some t → f t = f s ++ g a) {s u : σ} {as : List α}
    (has : ∀ a ∈ as, A a) (hrun : run step s as = some u) : f u = f s ++ as.flatMap g := by
  induction as generalizing s with
  | nil =>
    cases hrun
    simp
  | cons a as ih =>
    obtain ⟨t, ht, hrest⟩ := run_cons_iff.1 hrun
    rw [ih (fun b hb => has b (List.mem_cons_of_mem a hb)) hrest,
      hstep s a t (has a List.mem_cons_self) ht, List.append_assoc, List.flatMap_cons]

theorem run_collects {f : σ → List β} {g : α → List β}
    (hstep : ∀ s a t, step s a = some t → f t = f s ++ g a) {s u : σ} {as : List α}
    (hrun : run step s as = some u) : f u = f s ++ as.flatMap g :=
  run_collects_of (A := fun _ => True) (fun s a t _ => hstep s a t) (fun _ _ => trivial) hrun

section Simulation

variable {σ' α' : Type*} {step' : σ' → α' → Option σ'} {R : σ → σ' → Prop} {f : α → α'}

/-- Where each permitted step can be followed by another system, so can a run of
    them. -/
theorem run_simulated_of {A : α → Prop}
    (hstep : ∀ s s' a t, A a → R s s' → step s a = some t →
      ∃ t', step' s' (f a) = some t' ∧ R t t')
    {s u : σ} {s' : σ'} {as : List α} (hR : R s s') (has : ∀ a ∈ as, A a)
    (hrun : run step s as = some u) : ∃ u', run step' s' (as.map f) = some u' ∧ R u u' := by
  induction as generalizing s s' with
  | nil =>
    cases hrun
    exact ⟨s', rfl, hR⟩
  | cons a as ih =>
    obtain ⟨t, ht, hrest⟩ := run_cons_iff.1 hrun
    obtain ⟨t', ht', hR'⟩ := hstep s s' a t (has a List.mem_cons_self) hR ht
    obtain ⟨u', hu', hRu⟩ := ih hR' (fun b hb => has b (List.mem_cons_of_mem a hb)) hrest
    exact ⟨u', run_cons_iff.2 ⟨t', ht', hu'⟩, hRu⟩

theorem run_simulated
    (hstep : ∀ s s' a t, R s s' → step s a = some t → ∃ t', step' s' (f a) = some t' ∧ R t t')
    {s u : σ} {s' : σ'} {as : List α} (hR : R s s') (hrun : run step s as = some u) :
    ∃ u', run step' s' (as.map f) = some u' ∧ R u u' :=
  run_simulated_of (A := fun _ => True) (fun s s' a t _ => hstep s s' a t) hR (fun _ _ => trivial)
    hrun

/-- Where every step of the other system is followed by one with a label of its
    kind, every run of it is. -/
theorem run_lifted
    (hstep : ∀ s s' a' t', R s s' → step' s' a' = some t' →
      ∃ a t, f a = a' ∧ step s a = some t ∧ R t t')
    {s : σ} {s' u' : σ'} {as' : List α'} (hR : R s s') (hrun : run step' s' as' = some u') :
    ∃ as u, as.map f = as' ∧ run step s as = some u ∧ R u u' := by
  induction as' generalizing s s' with
  | nil =>
    cases hrun
    exact ⟨[], s, rfl, rfl, hR⟩
  | cons a' as' ih =>
    obtain ⟨t', ht', hrest⟩ := run_cons_iff.1 hrun
    obtain ⟨a, t, rfl, ht, hR'⟩ := hstep s s' a' t' hR ht'
    obtain ⟨as, u, rfl, hu, hRu⟩ := ih hR' hrest
    exact ⟨a :: as, u, rfl, run_cons_iff.2 ⟨t, ht, hu⟩, hRu⟩

/-- Where each step of the other system can be shown, so can its runs. -/
theorem run_covered {shows : α → Option α'}
    (hstep : ∀ s s' a' t', R s s' → step' s' a' = some t' →
      ∃ as t, as.filterMap shows = [a'] ∧ run step s as = some t ∧ R t t')
    {s : σ} {s' u' : σ'} {as' : List α'} (hR : R s s') (hrun : run step' s' as' = some u') :
    ∃ as u, as.filterMap shows = as' ∧ run step s as = some u ∧ R u u' := by
  induction as' generalizing s s' with
  | nil =>
    cases hrun
    exact ⟨[], s, rfl, rfl, hR⟩
  | cons a' as' ih =>
    obtain ⟨t', ht', hrest⟩ := run_cons_iff.1 hrun
    obtain ⟨first, t, hfirst, ht, hR'⟩ := hstep s s' a' t' hR ht'
    obtain ⟨as, u, rfl, hu, hRu⟩ := ih hR' hrest
    exact ⟨first ++ as, u, by rw [List.filterMap_append, hfirst]; rfl,
      by rw [run_append, ht]; exact hu, hRu⟩

end Simulation

/-- A run that leaves `P` does so by one of its steps. -/
theorem run_leaves {P : σ → Prop} {s u : σ} {as : List α} (hs : P s) (hu : ¬ P u)
    (hrun : run step s as = some u) : ∃ bs a cs t t', as = bs ++ a :: cs ∧
      run step s bs = some t ∧ P t ∧ step t a = some t' ∧ ¬ P t' ∧ run step t' cs = some u := by
  induction as generalizing s with
  | nil =>
    cases hrun
    exact absurd hs hu
  | cons a as ih =>
    obtain ⟨t, ht, hrest⟩ := run_cons_iff.1 hrun
    by_cases hP : P t
    · obtain ⟨bs, b, cs, w, w', rfl, hw, hPw, hstep, hPw', hcs⟩ := ih hP hrest
      exact ⟨a :: bs, b, cs, w, w', rfl, run_cons_iff.2 ⟨t, ht, hw⟩, hPw, hstep, hPw', hcs⟩
    · exact ⟨[], a, as, s, t, rfl, rfl, hs, ht, hP, hrest⟩

/-- Every state that is met along the labels satisfies `P`. -/
def Along (step : σ → α → Option σ) (P : σ → Prop) (s : σ) (as : List α) : Prop :=
  ∀ bs t, bs <+: as → run step s bs = some t → P t

/-- Every step that is made along the labels is made where `G` allows it. -/
def Guarded (step : σ → α → Option σ) (G : σ → α → Prop) (s : σ) (as : List α) : Prop :=
  ∀ bs a t u, bs ++ [a] <+: as → run step s bs = some t → step t a = some u → G t a

theorem along_nil {P : σ → Prop} {s : σ} : Along step P s [] ↔ P s := by
  refine ⟨fun h => h [] s List.prefix_rfl rfl, ?_⟩
  intro h bs t hbs ht
  cases List.prefix_nil.1 hbs
  cases ht
  exact h

theorem along_cons {P : σ → Prop} {s : σ} {a : α} {as : List α} :
    Along step P s (a :: as) ↔ P s ∧ ∀ t, step s a = some t → Along step P t as := by
  constructor
  · intro h
    refine ⟨h [] s (List.nil_prefix) rfl, ?_⟩
    intro t ht bs u hbs hu
    exact h (a :: bs) u (List.cons_prefix_cons.2 ⟨rfl, hbs⟩) (run_cons_iff.2 ⟨t, ht, hu⟩)
  · rintro ⟨hs, hrest⟩ bs u hbs hu
    cases bs with
    | nil =>
      cases hu
      exact hs
    | cons b bs =>
      obtain ⟨rfl, htail⟩ := List.cons_prefix_cons.1 hbs
      obtain ⟨t, ht, hu⟩ := run_cons_iff.1 hu
      exact hrest t ht bs u htail hu

theorem guarded_nil {G : σ → α → Prop} {s : σ} : Guarded step G s [] := by
  intro bs a t u hbs
  simp at hbs

theorem guarded_cons {G : σ → α → Prop} {s : σ} {a : α} {as : List α} :
    Guarded step G s (a :: as) ↔
      ∀ t, step s a = some t → G s a ∧ Guarded step G t as := by
  constructor
  · intro h t ht
    refine ⟨h [] a s t (List.cons_prefix_cons.2 ⟨rfl, List.nil_prefix⟩) rfl ht, ?_⟩
    intro bs b u v hbs hu hv
    exact h (a :: bs) b u v (List.cons_prefix_cons.2 ⟨rfl, hbs⟩) (run_cons_iff.2 ⟨t, ht, hu⟩) hv
  · intro h bs b u v hbs hu hv
    cases bs with
    | nil =>
      obtain ⟨rfl, _⟩ := List.cons_prefix_cons.1 hbs
      cases hu
      exact (h v hv).1
    | cons c bs =>
      obtain ⟨rfl, htail⟩ := List.cons_prefix_cons.1 hbs
      obtain ⟨t, ht, hu⟩ := run_cons_iff.1 hu
      exact (h t ht).2 bs b u v htail hu hv

theorem guarded_append {G : σ → α → Prop} {s : σ} {as bs : List α} (has : Guarded step G s as)
    (hbs : ∀ t, run step s as = some t → Guarded step G t bs) : Guarded step G s (as ++ bs) := by
  induction as generalizing s with
  | nil => exact hbs s rfl
  | cons a as ih =>
    refine guarded_cons.2 fun t ht => ?_
    obtain ⟨hfirst, hrest⟩ := guarded_cons.1 has t ht
    exact ⟨hfirst, ih hrest fun u hu => hbs u (run_cons_iff.2 ⟨t, ht, hu⟩)⟩

/-- Where an invariant says exactly which steps lead out of `P`, a run stays in
    `P` exactly when it makes none of them. -/
theorem along_iff_guarded {I P : σ → Prop} {G : σ → α → Prop} {A : α → Prop}
    (hinv : ∀ s a t, I s → A a → step s a = some t → I t)
    (hstep : ∀ s a t, I s → P s → A a → step s a = some t → (P t ↔ G s a))
    {s : σ} {as : List α} (hI : I s) (hP : P s) (has : ∀ a ∈ as, A a) :
    Along step P s as ↔ Guarded step G s as := by
  induction as generalizing s with
  | nil => exact ⟨fun _ => guarded_nil, fun _ => along_nil.2 hP⟩
  | cons a as ih =>
    have ha := has a List.mem_cons_self
    have has' := fun b hb => has b (List.mem_cons_of_mem a hb)
    rw [along_cons, guarded_cons]
    constructor
    · rintro ⟨_, h⟩ t ht
      have hPt : P t := along_nil.1 fun bs u hbs hu => h t ht bs u (hbs.trans List.nil_prefix) hu
      exact ⟨(hstep s a t hI hP ha ht).1 hPt, (ih (hinv s a t hI ha ht) hPt has').1 (h t ht)⟩
    · intro h
      refine ⟨hP, fun t ht => ?_⟩
      have hPt := (hstep s a t hI hP ha ht).2 (h t ht).1
      exact (ih (hinv s a t hI ha ht) hPt has').2 (h t ht).2

theorem along_of_guarded {I : σ → Prop} {G : σ → α → Prop}
    (hstep : ∀ s a t, I s → G s a → step s a = some t → I t) {s : σ} {as : List α} (hs : I s)
    (h : Guarded step G s as) : Along step I s as := by
  induction as generalizing s with
  | nil => exact along_nil.2 hs
  | cons a as ih =>
    rw [guarded_cons] at h
    rw [along_cons]
    exact ⟨hs, fun t ht => ih (hstep s a t hs (h t ht).1 ht) (h t ht).2⟩

/-- Where each step within `P` is one of another system or none, a run within `P`
    is a run there, step by step. -/
theorem run_stuttered {σ' α' : Type*} {step' : σ' → α' → Option σ'} (view : σ → σ') {P : σ → Prop}
    (hstep : ∀ s a t, P s → P t → step s a = some t →
      ∃ move : Option α', run step' (view s) move.toList = some (view t))
    {s : σ} {as : List α} (halong : Along step P s as) :
    ∃ moves : List (Option α'), moves.length = as.length ∧
      ∀ n t, run step s (as.take n) = some t →
        run step' (view s) ((moves.take n).filterMap id) = some (view t) := by
  induction as generalizing s with
  | nil =>
    refine ⟨[], rfl, fun n t ht => ?_⟩
    rw [List.take_nil] at ht ⊢
    cases ht
    rfl
  | cons a as ih =>
    obtain ⟨hs, hrest⟩ := along_cons.1 halong
    have hfirst : ∃ (move : Option α') (moves : List (Option α')), moves.length = as.length ∧
        ∀ n t u, step s a = some t → run step t (as.take n) = some u →
          run step' (view s) (move.toList ++ (moves.take n).filterMap id) = some (view u) := by
      cases ht : step s a with
      | none =>
        exact ⟨none, List.replicate as.length none, List.length_replicate, fun _ _ _ h => by cases h⟩
      | some t =>
        have hlater := hrest t ht
        have hPt : P t := hlater [] t List.nil_prefix rfl
        obtain ⟨move, hmove⟩ := hstep s a t hs hPt ht
        obtain ⟨moves, hlength, hmoves⟩ := ih hlater
        refine ⟨move, moves, hlength, fun n w u hw hu => ?_⟩
        cases hw
        exact run_trans hmove (hmoves n u hu)
    obtain ⟨move, moves, hlength, hmoves⟩ := hfirst
    refine ⟨move :: moves, congrArg (· + 1) hlength, fun n u hu => ?_⟩
    cases n with
    | zero =>
      cases hu
      rfl
    | succ n =>
      rw [List.take_succ_cons] at hu
      obtain ⟨t, ht, hu⟩ := run_cons_iff.1 hu
      have hshown : ((move :: moves).take (n + 1)).filterMap id =
          move.toList ++ (moves.take n).filterMap id := by
        cases move <;> simp
      rw [hshown]
      exact hmoves n t u ht hu

theorem Along.imp {P Q : σ → Prop} {s : σ} {as : List α} (hPQ : ∀ t, P t → Q t)
    (h : Along step P s as) : Along step Q s as :=
  fun bs t hbs ht => hPQ t (h bs t hbs ht)

/-- Where every step that is not under `G` leads out of `P`, a run in `P` makes
    none. -/
theorem guarded_of_along {P : σ → Prop} {G : σ → α → Prop}
    (hstep : ∀ s a t, step s a = some t → P t → G s a) {s : σ} {as : List α}
    (h : Along step P s as) : Guarded step G s as :=
  fun _ a t u hbs ht hu => hstep t a u hu (h _ u hbs (run_concat_iff.2 ⟨t, ht, hu⟩))

section Shown

variable {σ' α' : Type*} {step' : σ' → α' → Option σ'} {view : σ → σ'} {shows : α → Option α'}

theorem filterMap_cons_toList (a : α) (as : List α) :
    (a :: as).filterMap shows = (shows a).toList ++ as.filterMap shows := by
  cases h : shows a <;> simp [h]

/-- A step that another system shows, as one of its own or as none. -/
def ShownStep (step : σ → α → Option σ) (step' : σ' → α' → Option σ') (view : σ → σ')
    (shows : α → Option α') (s : σ) (a : α) : Prop :=
  ∀ t, step s a = some t → run step' (view s) (shows a).toList = some (view t)

theorem run_shown_of {s u : σ} {as : List α}
    (hshown : Guarded step (ShownStep step step' view shows) s as)
    (hrun : run step s as = some u) :
    run step' (view s) (as.filterMap shows) = some (view u) := by
  induction as generalizing s with
  | nil =>
    cases hrun
    rfl
  | cons a as ih =>
    obtain ⟨t, ht, hrest⟩ := run_cons_iff.1 hrun
    obtain ⟨hfirst, hmore⟩ := guarded_cons.1 hshown t ht
    rw [filterMap_cons_toList]
    exact run_trans (hfirst t ht) (ih hmore hrest)

/-- Where some labels of a system are those of another and the others change
    nothing there, a run of it shows a run of the other. -/
theorem run_shown {I : σ → Prop}
    (hstep : ∀ s a t, I s → step s a = some t →
      I t ∧ run step' (view s) (shows a).toList = some (view t))
    {s u : σ} {as : List α} (hs : I s) (hrun : run step s as = some u) :
    run step' (view s) (as.filterMap shows) = some (view u) := by
  refine run_shown_of (fun bs a t _ _ ht _ v hv => ?_) hrun
  have hI : I t := run_preserves (fun s a t hs h => (hstep s a t hs h).1) hs ht
  exact (hstep t a v hI hv).2

/-- The run that is shown is under `G'` where the run itself is under `G`. -/
theorem guarded_shown {G : σ → α → Prop} {G' : σ' → α' → Prop}
    (hG : ∀ t a a', G t a → shows a = some a' → G' (view t) a') {s u : σ} {as : List α}
    (hshown : Guarded step (ShownStep step step' view shows) s as)
    (hguard : Guarded step G s as) (hrun : run step s as = some u) :
    Guarded step' G' (view s) (as.filterMap shows) := by
  induction as generalizing s with
  | nil => exact guarded_nil
  | cons a as ih =>
    obtain ⟨t, ht, hrest⟩ := run_cons_iff.1 hrun
    obtain ⟨hfirst, hmore⟩ := guarded_cons.1 hshown t ht
    obtain ⟨hallowed, hlater⟩ := guarded_cons.1 hguard t ht
    have hshow := hfirst t ht
    have htail := ih hmore hlater hrest
    rw [filterMap_cons_toList]
    cases ha : shows a with
    | none =>
      rw [ha] at hshow
      rw [Option.some.inj hshow]
      exact htail
    | some a' =>
      rw [ha] at hshow
      obtain ⟨v, hv, hlast⟩ := run_cons_iff.1 hshow
      obtain rfl := Option.some.inj hlast
      refine guarded_cons.2 fun w hw => ⟨hG s a a' hallowed ha, ?_⟩
      rw [hv] at hw
      rw [← Option.some.inj hw]
      exact htail

end Shown

/-- Every state that is met along the labels satisfies `P`, together with the
    labels that have led to it. -/
def AlongHistory (step : σ → α → Option σ) (P : List α → σ → Prop) (s : σ) (as : List α) : Prop :=
  ∀ bs t, bs <+: as → run step s bs = some t → P bs t

/-- Every step that is made along the labels is made where `G` allows it, after
    the labels before it. -/
def GuardedHistory (step : σ → α → Option σ) (G : List α → σ → α → Prop) (s : σ)
    (as : List α) : Prop :=
  ∀ bs a t u, bs ++ [a] <+: as → run step s bs = some t → step t a = some u → G bs t a

/-- Where every step that is made from `P` leads to `P` again exactly under `G`,
    a run stays in `P` exactly when all its steps are under `G`. -/
theorem alongHistory_iff_guarded {P : List α → σ → Prop} {G : List α → σ → α → Prop} {s : σ}
    {as : List α} (h0 : P [] s)
    (hstep : ∀ bs a t u, bs ++ [a] <+: as → run step s bs = some t → P bs t →
      step t a = some u → (P (bs ++ [a]) u ↔ G bs t a)) :
    AlongHistory step P s as ↔ GuardedHistory step G s as := by
  constructor
  · intro h bs a t u hbs ht hu
    have hP := h bs t ((List.prefix_append bs [a]).trans hbs) ht
    exact (hstep bs a t u hbs ht hP hu).1 (h _ u hbs (run_concat_iff.2 ⟨t, ht, hu⟩))
  · intro h bs
    induction bs using List.reverseRecOn with
    | nil =>
      intro t _ ht
      cases ht
      exact h0
    | append_singleton bs a ih =>
      intro u hbs hu
      obtain ⟨t, ht, hstepu⟩ := run_concat_iff.1 hu
      have hP := ih t ((List.prefix_append bs [a]).trans hbs) ht
      exact (hstep bs a t u hbs ht hP hstepu).2 (h bs a t u hbs ht hstepu)

/-- What the steps of a run come to, where each of them counts for `f`. -/
def tally (step : σ → α → Option σ) (f : σ → α → ℕ) : σ → List α → ℕ
  | _, [] => 0
  | s, a :: as => f s a + ((step s a).map fun t => tally step f t as).getD 0

theorem tally_cons {f : σ → α → ℕ} {s t : σ} {a : α} (as : List α) (h : step s a = some t) :
    tally step f s (a :: as) = f s a + tally step f t as := by
  simp [tally, h]

theorem tally_add {f g : σ → α → ℕ} (s : σ) (as : List α) :
    tally step (fun s a => f s a + g s a) s as = tally step f s as + tally step g s as := by
  induction as generalizing s with
  | nil => rfl
  | cons a as ih =>
    cases h : step s a with
    | none => simp [tally, h]
    | some t =>
      rw [tally_cons as h, tally_cons as h, tally_cons as h, ih]
      omega

/-- Where every step keeps the balance of what comes in and what goes out, so
    does a run. -/
theorem tally_balance {I : σ → Prop} {A : α → Prop} {B : σ → ℕ} {inward outward : σ → α → ℕ}
    (hinv : ∀ s a t, I s → A a → step s a = some t → I t)
    (hstep : ∀ s a t, I s → A a → step s a = some t →
      B s + inward s a = B t + outward s a)
    {s u : σ} {as : List α} (hs : I s) (has : ∀ a ∈ as, A a) (hrun : run step s as = some u) :
    B s + tally step inward s as = B u + tally step outward s as := by
  induction as generalizing s with
  | nil =>
    cases hrun
    rfl
  | cons a as ih =>
    obtain ⟨t, ht, hrest⟩ := run_cons_iff.1 hrun
    have ha := has a List.mem_cons_self
    have hone := hstep s a t hs ha ht
    have hmore := ih (hinv s a t hs ha ht) (fun b hb => has b (List.mem_cons_of_mem a hb)) hrest
    rw [tally_cons as ht, tally_cons as ht]
    omega

/-- What the steps of a run put out, one after the other. -/
def collect (step : σ → α → Option σ) (f : σ → α → List β) : σ → List α → List β
  | _, [] => []
  | s, a :: as => f s a ++ ((step s a).map fun t => collect step f t as).getD []

/-- A run from one state to another, with what it puts out at each of several places. -/
structure Emits {κ : Type*} (step : σ → α → Option σ) (f : κ → σ → α → List β) (s : σ)
    (as : List α) (t : σ) (out : κ → List β) : Prop where
  run : run step s as = some t
  collect : ∀ k, collect step (f k) s as = out k

section Emits

variable {κ : Type*} {f : κ → σ → α → List β}

theorem emits_nil (s : σ) : Emits step f s [] s fun _ => [] := ⟨rfl, fun _ => rfl⟩

theorem emits_cons {s t u : σ} {a : α} {as : List α} {out : κ → List β} (h : step s a = some t)
    (hrest : Emits step f t as u out) : Emits step f s (a :: as) u fun k => f k s a ++ out k where
  run := run_cons_iff.2 ⟨t, h, hrest.run⟩
  collect k := by simp [TransitionRuns.collect, h, hrest.collect]

theorem Emits.append {s t u : σ} {as bs : List α} {out out' : κ → List β}
    (h : Emits step f s as t out) (h' : Emits step f t bs u out') :
    Emits step f s (as ++ bs) u fun k => out k ++ out' k := by
  induction as generalizing s out with
  | nil =>
    obtain ⟨hrun, hout⟩ := h
    cases hrun
    exact ⟨h'.run, fun k => by rw [← hout k, ← h'.collect k]; rfl⟩
  | cons a as ih =>
    obtain ⟨v, hv, hrest⟩ := run_cons_iff.1 h.run
    have hmore := emits_cons hv (ih (s := v) ⟨hrest, fun _ => rfl⟩)
    refine ⟨hmore.run, fun k => ?_⟩
    rw [← h.collect k, List.cons_append, hmore.collect k]
    simp [TransitionRuns.collect, hv]

end Emits

end LanChat.TransitionRuns

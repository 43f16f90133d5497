import LanChat.ReadLoops
import LanChat.WriteLoops
import Mathlib.Logic.Function.Basic

set_option autoImplicit false

/-!
# Processes of v1 or v2 on one network

Each process writes to one connection, and its listener serves the connections
to it one after the other. Calls of all processes interleave in any order.
-/
namespace LanChat.TcpChat
open CStrings HexText FrameCodec DatagramReceive StreamReceive ChatProcess LineReading FgetsLoops
  TransitionRuns WriteLoops ReadLoops

/-- The processes: what is typed at each, whose listener its `find_peer` has
    found, and what the stack and the block hold at each turn of the loop over
    its connection. -/
structure Chats (ι : Type*) where
  userName : ι → Bytes
  stdin : ι → Bytes
  peer : ι → ι
  stack : ι → ℕ → Bytes
  heap : ι → ℕ → ℕ → UInt8
  userName_length : ∀ i, (userName i).length ≤ 10
  userName_nul : ∀ i, 0 ∉ userName i

/-- `wire i` has been written to the connection of `i` and not been read;
    `accepted j` are the connections that the listener of `j` has accepted, in
    order; `shown i` is what has been printed of the connection of `i`, and
    `printed j` what the listener of `j` has printed. -/
structure Tcp (ι : Type*) where
  sender : ι → Sender
  wire : ι → Bytes
  backlog : ι → List ι
  accepted : ι → List ι
  serving : ι → Option ι
  reader : ι → Reader
  shown : ι → List Bytes
  printed : ι → List Bytes

inductive TcpLabel (ι : Type*) where
  | send (i : ι) (e : SendEvent)
  | accept (j : ι)
  | read (j : ι) (n : ℕ)
  | eof (j : ι)

variable {ι : Type*} [DecidableEq ι] (C : Chats ι)

def Chats.init : Tcp ι where
  sender i := ⟨C.stdin i, .unconnected⟩
  wire _ := []
  backlog _ := []
  accepted _ := []
  serving _ := none
  reader _ := ⟨.header, 0⟩
  shown _ := []
  printed _ := []

/-- The state after `i` has become `t`, and has written `out`. -/
def Tcp.sent (s : Tcp ι) (i : ι) (t : Sender) (out : Bytes) : Tcp ι :=
  { s with
    sender := Function.update s.sender i t
    wire := Function.update s.wire i (s.wire i ++ out) }

def Tcp.joined (s : Tcp ι) (i j : ι) : Tcp ι :=
  { s with backlog := Function.update s.backlog j (s.backlog j ++ [i]) }

def Tcp.accept (s : Tcp ι) (i j : ι) (rest : List ι) : Tcp ι :=
  { s with
    backlog := Function.update s.backlog j rest
    accepted := Function.update s.accepted j (s.accepted j ++ [i])
    serving := Function.update s.serving j (some i) }

/-- The listener of `j` goes on with the connection of `i`, of which `n` bytes
    have been read. -/
def Tcp.served (s : Tcp ι) (i j : ι) (n : ℕ) (r : Reader × List Bytes) : Tcp ι :=
  { s with
    wire := Function.update s.wire i ((s.wire i).drop n)
    reader := Function.update s.reader i r.1
    shown := Function.update s.shown i (s.shown i ++ r.2)
    printed := Function.update s.printed j (s.printed j ++ r.2) }

def Tcp.closed (s : Tcp ι) (j : ι) : Tcp ι :=
  { s with serving := Function.update s.serving j none }

/-- The listener is killed when its process exits. -/
def Tcp.listens (s : Tcp ι) (j : ι) : Bool := (s.sender j).phase ≠ .exited

def Chats.step (s : Tcp ι) : TcpLabel ι → Option (Tcp ι)
  | .send i e => (sendStep (C.userName i) (s.sender i) e).map fun q =>
    if e = .connected then (s.sent i q.1 q.2).joined i (C.peer i) else s.sent i q.1 q.2
  | .accept j => match s.serving j, s.backlog j with
    | none, i :: rest => if s.listens j then some (s.accept i j rest) else none
    | _, _ => none
  | .read j n => match s.serving j with
    | some i =>
      if s.listens j ∧ 0 < n ∧ n ≤ (s.wire i).length ∧ n ≤ (s.reader i).wait.asked then
        some (s.served i j n ((s.reader i).read (C.stack i) (C.heap i) ((s.wire i).take n)))
      else none
    | none => none
  | .eof j => match s.serving j with
    | some i =>
      if s.listens j ∧ s.wire i = [] ∧ (s.sender i).phase.ended = true then
        match (s.reader i).eof (C.heap i) with
        | some r => some (s.served i j 0 r)
        | none => some (s.closed j)
      else none
    | none => none

/-- Everything that a step of the network can do. -/
inductive Moves (C : Chats ι) (s : Tcp ι) : TcpLabel ι → Tcp ι → Prop where
  | connect {i : ι} {t : Sender} {out : Bytes}
      (h : Sends (C.userName i) (s.sender i) .connected t out) :
      Moves C s (.send i .connected) ((s.sent i t out).joined i (C.peer i))
  | send {i : ι} {e : SendEvent} {t : Sender} {out : Bytes} (he : e ≠ .connected)
      (h : Sends (C.userName i) (s.sender i) e t out) : Moves C s (.send i e) (s.sent i t out)
  | accept {i j : ι} {rest : List ι} (hserving : s.serving j = none)
      (hbacklog : s.backlog j = i :: rest) : Moves C s (.accept j) (s.accept i j rest)
  | read {i j : ι} {n : ℕ} (hserving : s.serving j = some i) (hpos : 0 < n)
      (hle : n ≤ (s.wire i).length) (hasked : n ≤ (s.reader i).wait.asked) :
      Moves C s (.read j n)
        (s.served i j n ((s.reader i).read (C.stack i) (C.heap i) ((s.wire i).take n)))
  | cut {i j : ι} {msgLen : ℕ} {got : Bytes} (hserving : s.serving j = some i)
      (hwire : s.wire i = []) (hended : (s.sender i).phase.ended = true)
      (hwait : (s.reader i).wait = .body msgLen got) :
      Moves C s (.eof j) (s.served i j 0 ((s.reader i).print (C.heap i) msgLen got))
  | close {i j : ι} (hserving : s.serving j = some i) (hwire : s.wire i = [])
      (hended : (s.sender i).phase.ended = true) (hwait : (s.reader i).wait = .header) :
      Moves C s (.eof j) (s.closed j)

variable {C}

theorem moves_of_step {s t : Tcp ι} {l : TcpLabel ι} (h : C.step s l = some t) :
    Moves C s l t := by
  cases l with
  | send i e =>
    obtain ⟨q, hq, rfl⟩ := Option.map_eq_some_iff.1 h
    split_ifs with he
    · subst e
      exact .connect (sends_of_step hq)
    · exact .send he (sends_of_step hq)
  | accept j =>
    simp only [Chats.step] at h
    split at h
    · rename_i i rest hserving hbacklog
      split_ifs at h
      cases h
      exact .accept hserving hbacklog
    · cases h
  | read j n =>
    simp only [Chats.step] at h
    split at h
    · rename_i i hserving
      split_ifs at h with hc
      cases h
      exact .read hserving hc.2.1 hc.2.2.1 hc.2.2.2
    · cases h
  | eof j =>
    simp only [Chats.step] at h
    split at h
    · rename_i i hserving
      split_ifs at h with hc
      cases hwait : (s.reader i).wait with
      | header =>
        simp only [Reader.eof, hwait] at h
        cases h
        exact .close hserving hc.2.1 hc.2.2 hwait
      | body msgLen got =>
        simp only [Reader.eof, hwait] at h
        cases h
        exact .cut hserving hc.2.1 hc.2.2 hwait
    · cases h

/-- How far the listener is with a connection on which these lines are sent:
    what it waits for, what it has printed, and what it has still to read. -/
inductive Reading (cs : List ChatLine) : Wait → List Bytes → Bytes → Prop where
  | header (before after : List ChatLine) (h : cs = before ++ after) :
      Reading cs .header (before.map ChatLine.text) (stream after)
  | body (before : List ChatLine) (c : ChatLine) (after : List ChatLine) (got rest : Bytes)
      (h : cs = before ++ c :: after) (hbody : got ++ rest = c.text ++ stream after)
      (hlt : got.length < c.text.length) :
      Reading cs (.body c.text.length got) (before.map ChatLine.text) rest

/-- The connection has ended within a line, of which `got` has been read. -/
structure CutOff (cs : List ChatLine) (shown : List Bytes) (rest : Bytes) : Prop where
  text : ∃ before c after got text, cs = before ++ c :: after ∧
    shown = before.map ChatLine.text ++ [text] ∧ got <+: text ∧
    got ++ rest = c.text ++ stream after ∧ got.length < c.text.length

theorem msgLen_header {c : ChatLine} {stack : Bytes} (hstack : Isolated (stack.drop 4))
    (hfit : c.Fits) :
    (hexToInt (blit (intToHex4 (Int32.ofNat c.len)) stack) - 5).toNat = c.text.length := by
  have hlen := intToHex4_length (Int32.ofNat c.len)
  have hne : ∀ p ∈ [intToHex4 (Int32.ofNat c.len)], p ≠ [] := by
    intro p hp
    rw [List.mem_singleton.1 hp, ← List.length_pos_iff]
    omega
  have hread := congrArg Prod.fst (read_piece hne hlen.le)
  have hmsg := msgLen_whole hstack hfit hread
  rwa [hread] at hmsg

theorem printedText_full (heap : ℕ → UInt8) (c : ChatLine) :
    printedText heap c.text.length c.text = c.text := by
  rw [printedText, blit_malloc_set]
  exact cstr_terminated _ [] c.text_nul

section Reading

variable {cs : List ChatLine} {shown : List Bytes} {stack : ℕ → Bytes} {heap : ℕ → ℕ → UInt8}
  {r : Reader} {wire pending : Bytes} {n : ℕ}

theorem Reading.resume {before after : List ChatLine} {c : ChatLine} {got rest : Bytes}
    (h : cs = before ++ c :: after) (hbody : got ++ rest = c.text ++ stream after)
    (hle : got.length ≤ c.text.length) :
    Reading cs (r.resume heap c.text.length got).1.wait
      (before.map ChatLine.text ++ (r.resume heap c.text.length got).2) rest := by
  unfold Reader.resume
  split_ifs with hfull
  · obtain ⟨rfl, rfl⟩ := List.append_inj hbody hfull
    have hmap : before.map ChatLine.text ++ [printedText (heap r.turn) c.text.length c.text] =
        (before ++ [c]).map ChatLine.text := by
      rw [printedText_full, List.map_append]
      rfl
    change Reading cs .header (_ ++ [_]) _
    rw [hmap]
    exact .header _ _ (by rw [h, List.append_assoc]; rfl)
  · rw [List.append_nil]
    exact .body before c after got rest h hbody (lt_of_le_of_ne hle hfull)

theorem Reading.read (hreads : Reading cs r.wait shown (wire ++ pending))
    (hstack : ∀ k, Isolated ((stack k).drop 4)) (hfits : ∀ c ∈ cs, c.Fits) (hpos : 0 < n)
    (hle : n ≤ wire.length) (hasked : n ≤ r.wait.asked) (hwhole : r.wait = .header → n = 4) :
    Reading cs (r.read stack heap (wire.take n)).1.wait
      (shown ++ (r.read stack heap (wire.take n)).2) (wire.drop n ++ pending) := by
  obtain ⟨wait, turn⟩ := r
  have hsplit : wire.take n ++ (wire.drop n ++ pending) = wire ++ pending := by
    rw [← List.append_assoc, List.take_append_drop]
  have htake : (wire.take n).length = n := List.length_take_of_le hle
  generalize wire ++ pending = rest at hreads hsplit
  cases hreads with
  | header before after h =>
    obtain rfl := hwhole rfl
    cases after with
    | nil =>
      have hlen := congrArg List.length hsplit
      rw [List.length_append, htake] at hlen
      simp [stream] at hlen
    | cons c after =>
      have hfit := hfits c (h ▸ List.mem_append_right _ List.mem_cons_self)
      rw [stream_cons, hfit.frame_eq, List.append_assoc] at hsplit
      obtain ⟨hhead, htail⟩ := List.append_inj hsplit (htake.trans (intToHex4_length _).symm)
      rw [Reader.read]
      simp only [hhead, msgLen_header (hstack turn) hfit]
      exact Reading.resume h htail (Nat.zero_le _)
  | body before c after got rest h hbody hlt =>
    rw [← hsplit, ← List.append_assoc] at hbody
    change n ≤ c.text.length - got.length at hasked
    exact Reading.resume h hbody (by rw [List.length_append, htake]; omega)

theorem Reading.cut {msgLen : ℕ} {got rest : Bytes} (heap : ℕ → UInt8)
    (hreads : Reading cs (.body msgLen got) shown rest) :
    CutOff cs (shown ++ [printedText heap msgLen got]) rest := by
  cases hreads with
  | body before c after got rest h hbody hlt =>
    have hgot : got <+: c.text := List.prefix_of_prefix_length_le (List.prefix_append got rest)
      (hbody ▸ List.prefix_append c.text _) hlt.le
    have htext : got <+: printedText heap c.text.length got := by
      rcases text_cases got c.text.length heap fun hz => c.text_nul (hgot.subset hz) with
        ⟨hle, _⟩ | ⟨_, hbegin⟩
      · omega
      · rwa [List.take_of_length_le hlt.le] at hbegin
    exact ⟨before, c, after, got, _, h, rfl, htext, hbody, hlt⟩

theorem Reading.shown_prefix {wait : Wait} {rest : Bytes} (h : Reading cs wait shown rest) :
    shown <+: cs.map ChatLine.text := by
  cases h with
  | header before after h | body before c after got rest h =>
    rw [h, List.map_append]
    exact List.prefix_append _ _

theorem Reading.shown_eq (h : Reading cs .header shown []) (hfits : ∀ c ∈ cs, c.Fits) :
    shown = cs.map ChatLine.text := by
  generalize hrest : ([] : Bytes) = rest at h
  cases h with
  | header before after h =>
    cases after with
    | nil => rw [h, List.append_nil]
    | cons c after =>
      have hfit := hfits c (h ▸ List.mem_append_right _ List.mem_cons_self)
      exact absurd hrest.symm (stream_ne_nil hfit.lt)

end Reading

/-- What can still be read of the connection of `i`. -/
def Tcp.rest (C : Chats ι) (s : Tcp ι) (i : ι) : Bytes :=
  s.wire i ++ (s.sender i).pending (C.userName i)

/-- Nothing can be read any more, and the listener waits for the next header. -/
def Tcp.ended (s : Tcp ι) (i : ι) : Prop :=
  s.wire i = [] ∧ (s.sender i).phase.ended = true ∧ (s.reader i).wait = .header

/-- The listeners serve in turn, and print of each connection what is sent on it. -/
structure Served (C : Chats ι) (lines : ι → List ChatLine) (s : Tcp ι) : Prop where
  printed : ∀ j, s.printed j = (s.accepted j).flatMap s.shown
  nodup : ∀ j, (s.accepted j ++ s.backlog j).Nodup
  owner : ∀ j, ∀ i ∈ s.accepted j ++ s.backlog j,
    C.peer i = j ∧ (s.sender i).phase ≠ .unconnected
  last : ∀ j i, s.serving j = some i → (s.accepted j).getLast? = some i
  ended : ∀ j, ∀ i ∈ s.accepted j, s.serving j ≠ some i → s.ended i
  fresh : ∀ i, i ∉ s.accepted (C.peer i) → s.shown i = []
  reads : ∀ i, Reading (lines i) (s.reader i).wait (s.shown i) (s.rest C i) ∨
    s.ended i ∧ CutOff (lines i) (s.shown i) (s.rest C i)

variable {lines : ι → List ChatLine}

omit [DecidableEq ι] in
theorem served_init (hlines : ∀ i, messageLoop (C.userName i) (C.stdin i) =
    (lines i).map ChatLine.frame) : Served C lines C.init where
  printed _ := rfl
  nodup _ := List.nodup_nil
  owner := by simp [Chats.init]
  last := by simp [Chats.init]
  ended := by simp [Chats.init]
  fresh _ _ := rfl
  reads i := by
    refine .inl ?_
    have hrest : Tcp.rest C C.init i = stream (lines i) := by
      change [] ++ (messageLoop (C.userName i) (C.stdin i)).flatten = _
      rw [List.nil_append, hlines]
      rfl
    rw [hrest]
    exact .header [] (lines i) rfl

theorem rest_sent {s : Tcp ι} {i : ι} {e : SendEvent} {t : Sender} {out : Bytes}
    (h : Sends (C.userName i) (s.sender i) e t out) (k : ι) :
    (s.sent i t out).rest C k = s.rest C k := by
  by_cases hk : k = i
  · subst k
    simp only [Tcp.rest, Tcp.sent, Function.update_self]
    rw [List.append_assoc, ← h.pending_eq]
  · simp [Tcp.rest, Tcp.sent, hk]

theorem ended_sent {s : Tcp ι} {i k : ι} {e : SendEvent} {t : Sender} {out : Bytes}
    (h : Sends (C.userName i) (s.sender i) e t out) (hended : s.ended k) :
    (s.sent i t out).ended k := by
  have hk : k ≠ i := by
    rintro rfl
    have hend := hended.2.1
    rw [h.goesOn] at hend
    cases hend
  simpa [Tcp.ended, Tcp.sent, hk] using hended

theorem Served.sent {s : Tcp ι} (h : Served C lines s) {i : ι} {e : SendEvent} {t : Sender}
    {out : Bytes} (hsends : Sends (C.userName i) (s.sender i) e t out) :
    Served C lines (s.sent i t out) where
  printed := h.printed
  nodup := h.nodup
  owner j k hk := by
    obtain ⟨hpeer, hphase⟩ := h.owner j k hk
    refine ⟨hpeer, ?_⟩
    by_cases hki : k = i
    · subst k
      simpa [Tcp.sent] using hsends.phase_ne
    · simpa [Tcp.sent, hki] using hphase
  last := h.last
  ended j k hk hserving := ended_sent hsends (h.ended j k hk hserving)
  fresh := h.fresh
  reads k := by
    rw [rest_sent hsends]
    exact (h.reads k).imp id fun hcut => ⟨ended_sent hsends hcut.1, hcut.2⟩

theorem Served.joined {s : Tcp ι} (h : Served C lines s) {i : ι}
    (hphase : (s.sender i).phase ≠ .unconnected)
    (hnew : i ∉ s.accepted (C.peer i) ++ s.backlog (C.peer i)) :
    Served C lines (s.joined i (C.peer i)) where
  printed := h.printed
  nodup j := by
    by_cases hj : j = C.peer i
    · subst j
      simp only [Tcp.joined, Function.update_self]
      rw [← List.append_assoc, ← List.concat_eq_append]
      exact (h.nodup _).concat hnew
    · simpa [Tcp.joined, hj] using h.nodup j
  owner j k hk := by
    by_cases hj : j = C.peer i
    · subst j
      simp only [Tcp.joined, Function.update_self] at hk
      rw [← List.append_assoc, List.mem_append, List.mem_singleton] at hk
      rcases hk with hk | rfl
      · exact h.owner _ k hk
      · exact ⟨rfl, hphase⟩
    · simp only [Tcp.joined, Function.update_of_ne hj] at hk
      exact h.owner j k hk
  last := h.last
  ended := h.ended
  fresh := h.fresh
  reads := h.reads

/-- Accepting a connection takes it from one list to the other. -/
theorem accept_all {s : Tcp ι} {i j : ι} {rest : List ι} (hbacklog : s.backlog j = i :: rest)
    (k : ι) : (s.accept i j rest).accepted k ++ (s.accept i j rest).backlog k =
      s.accepted k ++ s.backlog k := by
  by_cases hk : k = j
  · subst k
    simp [Tcp.accept, hbacklog]
  · simp [Tcp.accept, hk]

theorem Served.accept {s : Tcp ι} (h : Served C lines s) {i j : ι} {rest : List ι}
    (hserving : s.serving j = none) (hbacklog : s.backlog j = i :: rest) :
    Served C lines (s.accept i j rest) := by
  have hmem : i ∈ s.accepted j ++ s.backlog j := by simp [hbacklog]
  have hpeer := (h.owner j i hmem).1
  have hnodup := h.nodup j
  rw [hbacklog] at hnodup
  have hnew : i ∉ s.accepted j := fun hi =>
    (List.nodup_append.1 hnodup).2.2 i hi i List.mem_cons_self rfl
  have hshown := h.fresh i (by rwa [hpeer])
  refine ⟨?_, ?_, ?_, ?_, ?_, ?_, h.reads⟩
  · intro k
    by_cases hk : k = j
    · subst k
      simp only [Tcp.accept, Function.update_self]
      rw [List.flatMap_append, h.printed, List.flatMap_singleton, hshown, List.append_nil]
    · simpa [Tcp.accept, hk] using h.printed k
  · intro k
    rw [accept_all hbacklog]
    exact h.nodup k
  · intro k m hm
    rw [accept_all hbacklog] at hm
    exact h.owner k m hm
  · intro k m hm
    by_cases hk : k = j
    · subst k
      simp only [Tcp.accept, Function.update_self, Option.some.injEq] at hm ⊢
      rw [List.getLast?_concat, hm]
    · simp only [Tcp.accept, Function.update_of_ne hk] at hm ⊢
      exact h.last k m hm
  · intro k m hm hne
    by_cases hk : k = j
    · rw [hk] at hm hne
      simp only [Tcp.accept, Function.update_self, List.mem_append, List.mem_singleton,
        ne_eq, Option.some.injEq] at hm hne
      exact h.ended j m (hm.resolve_right fun e => hne e.symm) (by simp [hserving])
    · simp only [Tcp.accept, Function.update_of_ne hk] at hm hne
      exact h.ended k m hm hne
  · intro k hk
    refine h.fresh k fun hmem => hk ?_
    by_cases hj : C.peer k = j
    · simp only [Tcp.accept, hj, Function.update_self]
      exact List.mem_append_left _ (hj ▸ hmem)
    · simpa [Tcp.accept, hj] using hmem

theorem served_others (s : Tcp ι) (i j : ι) (n : ℕ) (r : Reader × List Bytes) {l : List ι}
    (hl : i ∉ l) : l.flatMap (s.served i j n r).shown = l.flatMap s.shown := by
  apply List.flatMap_congr
  intro k hk
  have hne : k ≠ i := fun e => hl (e ▸ hk)
  simp [Tcp.served, hne]

theorem Served.serve {s : Tcp ι} (h : Served C lines s) {i j : ι} {n : ℕ}
    {r : Reader × List Bytes} (hserving : s.serving j = some i)
    (hreads : Reading (lines i) r.1.wait (s.shown i ++ r.2)
        ((s.wire i).drop n ++ (s.sender i).pending (C.userName i)) ∨
      (s.served i j n r).ended i ∧ CutOff (lines i) (s.shown i ++ r.2)
        ((s.wire i).drop n ++ (s.sender i).pending (C.userName i))) :
    Served C lines (s.served i j n r) := by
  obtain ⟨front, hfront⟩ := List.getLast?_eq_some_iff.1 (h.last j i hserving)
  have hmem : i ∈ s.accepted j := by simp [hfront]
  have hpeer := (h.owner j i (List.mem_append_left _ hmem)).1
  have hnotin : i ∉ front := by
    have hnodup := (List.nodup_append.1 (h.nodup j)).1
    rw [hfront] at hnodup
    exact fun hi => (List.nodup_append.1 hnodup).2.2 i hi i List.mem_cons_self rfl
  refine ⟨?_, h.nodup, h.owner, h.last, ?_, ?_, ?_⟩
  · intro k
    by_cases hk : k = j
    · have hprinted := h.printed j
      rw [hfront, List.flatMap_append, List.flatMap_singleton] at hprinted
      have haccepted : (s.served i j n r).accepted j = front ++ [i] := hfront
      rw [hk, haccepted, List.flatMap_append, served_others s i j n r hnotin,
        List.flatMap_singleton]
      simp only [Tcp.served, Function.update_self, hprinted, List.append_assoc]
    · have hl : i ∉ s.accepted k := fun hi =>
        hk (((h.owner k i (List.mem_append_left _ hi)).1).symm.trans hpeer)
      have haccepted : (s.served i j n r).accepted k = s.accepted k := rfl
      rw [haccepted, served_others s i j n r hl, ← h.printed k]
      simp [Tcp.served, hk]
  · intro k m hm hne
    have hm' : m ≠ i := by
      rintro rfl
      obtain rfl := ((h.owner k m (List.mem_append_left _ hm)).1).symm.trans hpeer
      exact hne hserving
    have hended := h.ended k m hm hne
    simpa [Tcp.ended, Tcp.served, hm'] using hended
  · intro k hk
    have hne : k ≠ i := by
      rintro rfl
      exact hk (by rw [hpeer]; exact hmem)
    have hshown := h.fresh k hk
    simpa [Tcp.served, hne] using hshown
  · intro k
    by_cases hk : k = i
    · subst k
      simpa [Tcp.rest, Tcp.served] using hreads
    · simpa [Tcp.rest, Tcp.ended, Tcp.served, hk] using h.reads k

theorem Served.close {s : Tcp ι} (h : Served C lines s) {i j : ι}
    (hserving : s.serving j = some i) (hended : s.ended i) : Served C lines (s.closed j) where
  printed := h.printed
  nodup := h.nodup
  owner := h.owner
  last k m hm := by
    by_cases hk : k = j
    · subst k
      simp [Tcp.closed] at hm
    · simp only [Tcp.closed, Function.update_of_ne hk] at hm
      exact h.last k m hm
  ended k m hm hne := by
    by_cases hmi : m = i
    · subst m
      exact hended
    · refine h.ended k m hm ?_
      by_cases hk : k = j
      · subst k
        rw [hserving]
        exact fun e => hmi (Option.some.inj e).symm
      · simpa [Tcp.closed, hk] using hne
  fresh := h.fresh
  reads := h.reads

/-- Every read at the loop condition returns a whole header. -/
def HeaderReads (s : Tcp ι) : TcpLabel ι → Prop
  | .read j n => ∀ i, s.serving j = some i → (s.reader i).wait = .header → n = 4
  | _ => True

theorem Served.step {s t : Tcp ι} {l : TcpLabel ι} (h : Served C lines s)
    (hstack : ∀ i k, Isolated ((C.stack i k).drop 4)) (hfits : ∀ i, ∀ c ∈ lines i, c.Fits)
    (hwhole : HeaderReads s l) (hstep : C.step s l = some t) : Served C lines t := by
  cases moves_of_step hstep with
  | @connect i t out hsends =>
    have hphase : (s.sender i).phase = .unconnected := hsends.connected_iff.1 rfl
    refine (h.sent hsends).joined ?_ fun hi => (h.owner _ i hi).2 hphase
    simpa [Tcp.sent] using hsends.phase_ne
  | send he hsends => exact h.sent hsends
  | accept hserving hbacklog => exact h.accept hserving hbacklog
  | @read i j n hserving hpos hle hasked =>
    refine h.serve hserving (.inl ?_)
    rcases h.reads i with hreads | ⟨hended, _⟩
    · exact hreads.read (hstack i) (hfits i) hpos hle hasked (hwhole i hserving)
    · rw [hended.1] at hle
      exact absurd (Nat.le_zero.1 hle) hpos.ne'
  | @cut i j msgLen got hserving hwire hended hwait =>
    refine h.serve hserving (.inr ⟨?_, ?_⟩)
    · refine ⟨?_, hended, ?_⟩ <;> simp [Tcp.served, Reader.print, hwire]
    · rcases h.reads i with hreads | ⟨hended, _⟩
      · rw [hwait] at hreads
        exact hreads.cut _
      · exact absurd (hwait.symm.trans hended.2.2) (by simp)
  | @close i j hserving hwire hended hwait => exact h.close hserving ⟨hwire, hended, hwait⟩

variable (C) in
/-- What the lines that a process sends say. -/
def Chats.texts (i : ι) : List Bytes := (messageLoop (C.userName i) (C.stdin i)).map (List.drop 4)

variable (C) in
/-- What is shown of the connection of `i` is a start of what it sends. Only of
    a process whose `Writen` has failed, the last line may be shown cut, from
    where nothing of it has been written. -/
def Tcp.ShownOf (s : Tcp ι) (i : ι) : Prop :=
  s.shown i <+: C.texts i ∨
    (∃ ptr, (s.sender i).phase = .failed ptr) ∧
      ∃ before line after got text, C.texts i = before ++ line :: after ∧
        s.shown i = before ++ [text] ∧ got <+: text ∧ got.length < line.length ∧
        ∃ more, got ++ (s.sender i).pending (C.userName i) = line ++ more

omit [DecidableEq ι] in
theorem Served.shownOf {s : Tcp ι} (h : Served C lines s) {i : ι}
    (htexts : C.texts i = (lines i).map ChatLine.text) : s.ShownOf C i := by
  unfold Tcp.ShownOf
  rw [htexts]
  rcases h.reads i with hreads | ⟨⟨hwire, hended, _⟩, hcut⟩
  · exact .inl hreads.shown_prefix
  · right
    obtain ⟨before, c, after, got, text, hlines, hshown, hgot, hbody, hlt⟩ := hcut.text
    rw [Tcp.rest, hwire, List.nil_append] at hbody
    refine ⟨?_, before.map ChatLine.text, c.text, after.map ChatLine.text, got, text,
      by rw [hlines, List.map_append, List.map_cons], hshown, hgot, hlt, _, hbody⟩
    cases hphase : (s.sender i).phase with
    | failed ptr => exact ⟨ptr, rfl⟩
    | exited =>
      have hlen := congrArg List.length hbody
      simp only [Sender.pending, hphase, List.append_nil, List.length_append] at hlen
      omega
    | unconnected | typing | writing ptr | left =>
      rw [hphase] at hended
      cases hended

omit [DecidableEq ι] in
theorem Served.shown_eq {s : Tcp ι} (h : Served C lines s) (hfits : ∀ i, ∀ c ∈ lines i, c.Fits)
    {i j : ι} (hmem : i ∈ s.accepted j) (hserving : s.serving j ≠ some i)
    (hexited : (s.sender i).phase = .exited) : s.shown i = (lines i).map ChatLine.text := by
  obtain ⟨hwire, _, hwait⟩ := h.ended j i hmem hserving
  have hrest : s.rest C i = [] := by simp [Tcp.rest, hwire, Sender.pending, hexited]
  have hreads := h.reads i
  rw [hwait, hrest] at hreads
  rcases hreads with hreads | ⟨_, hcut⟩
  · exact hreads.shown_eq (hfits i)
  · obtain ⟨before, c, after, got, text, _, _, _, hbody, hlt⟩ := hcut.text
    have hlen := congrArg List.length hbody
    rw [List.append_nil, List.length_append] at hlen
    omega

theorem served_along (hstack : ∀ i k, Isolated ((C.stack i k).drop 4))
    {ls : List (TcpLabel ι)} (hwhole : Guarded C.step HeaderReads C.init ls) :
    ∃ lines : ι → List ChatLine, (∀ i, C.texts i = (lines i).map ChatLine.text) ∧
      (∀ i, ∀ c ∈ lines i, c.Fits) ∧ Along C.step (Served C lines) C.init ls := by
  choose lines hframes htexts hfits using fun i =>
    messageLoop_lines (C.userName_length i) (C.userName_nul i) (C.stdin i)
  exact ⟨lines, htexts, hfits, along_of_guarded
    (fun s l t hs hl ht => hs.step hstack hfits hl ht) (served_init hframes) hwhole⟩

/-- Whatever the order of the calls, each listener prints one connection after
    the other, and of each a start of the lines that its process sends. -/
theorem listeners_print (C : Chats ι) (hstack : ∀ i k, Isolated ((C.stack i k).drop 4))
    (ls : List (TcpLabel ι)) (hwhole : Guarded C.step HeaderReads C.init ls) :
    Along C.step (fun s => (∀ i, s.ShownOf C i) ∧ ∀ j, (s.accepted j).Nodup ∧
      (∀ i ∈ s.accepted j, C.peer i = j) ∧ s.printed j = (s.accepted j).flatMap s.shown)
      C.init ls := by
  obtain ⟨lines, htexts, _, halong⟩ := served_along hstack hwhole
  refine halong.imp fun s hs => ⟨fun i => hs.shownOf (htexts i), fun j => ?_⟩
  exact ⟨(List.nodup_append.1 (hs.nodup j)).1,
    fun i hi => (hs.owner j i (List.mem_append_left _ hi)).1, hs.printed j⟩

theorem guarded_of_reads {s : Tcp ι} {ls : List (TcpLabel ι)}
    (h : ∀ j n, TcpLabel.read j n ∈ ls → n = 4) : Guarded C.step HeaderReads s ls := by
  intro bs l t u hbs _ _
  cases l with
  | read j n => exact fun _ _ _ => h j n (hbs.subset (by simp))
  | send | accept | eof => exact trivial

/-- A process at which `"b"` is typed, and one at which nothing is. -/
def oneLine : Chats Bool where
  userName _ := ascii "a"
  stdin i := if i then ascii "b\nam-end\n" else []
  peer i := !i
  stack _ _ := []
  heap _ _ _ := 0
  userName_length := by decide
  userName_nul := by decide

def oneLineCalls : List (TcpLabel Bool) :=
  [.send true .connected, .send true .fgets, .accept false, .send true (.wrote 3),
    .send true .interrupted, .send true (.wrote 5), .read false 4, .send true .fgets,
    .read false 4, .send true .exit, .eof false]

theorem oneLine_isolated : ∀ i k, Isolated ((oneLine.stack i k).drop 4) :=
  fun _ _ => isolated_nil

theorem oneLine_guarded : Guarded oneLine.step HeaderReads oneLine.init oneLineCalls :=
  guarded_of_reads (by simp [oneLineCalls])

theorem listeners_print_oneLine :
    ∃ s, run oneLine.step oneLine.init oneLineCalls = some s ∧ s.ShownOf oneLine true :=
  ⟨(run oneLine.step oneLine.init oneLineCalls).get (by decide +kernel), Option.some_get _ |>.symm,
    (listeners_print oneLine oneLine_isolated oneLineCalls oneLine_guarded _ _ List.prefix_rfl
      (Option.some_get _).symm).1 true⟩

/-- A listener that waits in `accept` has printed every line that was typed at
    the processes it has served, if these have exited. -/
theorem listeners_finish (C : Chats ι) (hstack : ∀ i k, Isolated ((C.stack i k).drop 4))
    (ls : List (TcpLabel ι)) (hwhole : Guarded C.step HeaderReads C.init ls) (s : Tcp ι)
    (hrun : run C.step C.init ls = some s) (j : ι) (hserving : s.serving j = none)
    (hexited : ∀ i ∈ s.accepted j, (s.sender i).phase = .exited)
    (hnul : ∀ i ∈ s.accepted j, 0 ∉ C.stdin i)
    (hlines : ∀ i ∈ s.accepted j, ∀ line ∈ chatLines (C.stdin i), Whole line) :
    s.printed j = (s.accepted j).flatMap fun i =>
      (chatLines (C.stdin i)).map fun line => shown (C.userName i) (lineText line) := by
  obtain ⟨lines, htexts, hfits, halong⟩ := served_along hstack hwhole
  have hs := halong ls s List.prefix_rfl hrun
  rw [hs.printed]
  apply List.flatMap_congr
  intro i hi
  rw [hs.shown_eq hfits hi (by simp [hserving]) (hexited i hi), ← htexts]
  exact (sent_lines_iff (C.userName_length i) (C.stdin i) (hnul i hi)).2 (hlines i hi)

theorem listeners_finish_oneLine :
    ∃ s, run oneLine.step oneLine.init oneLineCalls = some s ∧
      s.printed false = [ascii "a: b"] := by
  refine ⟨_, (Option.some_get (by decide +kernel)).symm, ?_⟩
  exact (listeners_finish oneLine oneLine_isolated oneLineCalls oneLine_guarded _
    (Option.some_get (by decide +kernel)).symm false (by decide +kernel) (by decide +kernel)
    (by decide +kernel) (by decide +kernel)).trans (by decide +kernel)

end LanChat.TcpChat

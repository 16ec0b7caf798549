import AegisTunnel.Lib.Machine

/-! Datagrams from a sender to a receiver, over a network that may lose, delay, reorder and repeat them but
    makes none up. Each has a packet, which the receiver passes on in pieces: what it has passed on, against
    what the sender has made. -/

namespace Datagrams
variable {σ ε β δ α : Type}

/-- A sender and a receiver. `opens` is the datagram of which the receiver passes something on in a step, with
    its packet; `outputs` is what it has passed on. -/
structure Link (σ ε β δ α : Type) where
  make : β → Option (δ × List α)
  step : σ → ε → Option σ
  opens : σ → ε → Option (δ × List α)
  outputs : σ → List (List α)
  quiet : ∀ {s t : σ} {e : ε}, step s e = some t → opens s e = none → outputs t = outputs s
  pieces : ∀ {s t : σ} {e : ε} {x : δ × List α}, step s e = some t → opens s e = some x →
    ∃ w, w ≠ [] ∧ w.flatten <+: x.2 ∧ outputs t = outputs s ++ w

/-- The receiver, the datagrams made with their packets, and those of which something was passed on, with the
    pieces. -/
structure Channel (σ δ α : Type) where
  receiver : σ
  made : List (δ × List α)
  log : List ((δ × List α) × List (List α))

def Channel.start (s : σ) : Channel σ δ α := ⟨s, [], []⟩

inductive Event (ε β : Type) where
  | make (x : β)
  | take (e : ε)

variable [DecidableEq δ] [DecidableEq α]

/-- How often a datagram was made. -/
def Channel.built (c : Channel σ δ α) (d : δ) : Nat := c.made.countP (·.1 = d)

/-- How often something of it was passed on. -/
def Channel.times (c : Channel σ δ α) (d : δ) : Nat := c.log.countP (·.1.1 = d)

def Link.next (link : Link σ ε β δ α) (c : Channel σ δ α) : Event ε β → Option (Channel σ δ α)
  | .make x => some { c with made := c.made ++ (link.make x).toList }
  | .take e =>
    if (link.opens c.receiver e).all (· ∈ c.made) then
      (link.step c.receiver e).map fun t => { c with
        receiver := t
        log := c.log ++ ((link.opens c.receiver e).map fun x =>
          (x, (link.outputs t).drop (link.outputs c.receiver).length)).toList }
    else none

/-- The datagram of which something is passed on was made more often than this was done before. -/
def Link.NoCopy (link : Link σ ε β δ α) (c : Channel σ δ α) (ev : Event ε β) : Prop :=
  ∀ e x, ev = .take e → link.opens c.receiver e = some x → c.times x.1 < c.built x.1

/-- A datagram is made, or the receiver takes a step, in which it passes on pieces of a packet or nothing. -/
inductive Link.Effect (link : Link σ ε β δ α) (c : Channel σ δ α) (ev : Event ε β) (c' : Channel σ δ α) : Prop where
  | made (x : β) (event : ev = .make x) (eq : c' = { c with made := c.made ++ (link.make x).toList })
  | idle (e : ε) (t : σ) (event : ev = .take e) (opens : link.opens c.receiver e = none)
      (outputs : link.outputs t = link.outputs c.receiver) (eq : c' = { c with receiver := t })
  | passed (e : ε) (t : σ) (x : δ × List α) (w : List (List α)) (event : ev = .take e)
      (opens : link.opens c.receiver e = some x) (known : x ∈ c.made) (part : w.flatten <+: x.2)
      (outputs : link.outputs t = link.outputs c.receiver ++ w)
      (eq : c' = { c with receiver := t, log := c.log ++ [(x, w)] })

variable {link : Link σ ε β δ α} {c c' : Channel σ δ α} {ev : Event ε β} {s : σ}

theorem Link.effect (h : link.next c ev = some c') : link.Effect c ev c' := by
  cases ev with
  | make x => cases h; exact .made x rfl rfl
  | take e =>
    simp only [Link.next] at h
    split at h
    next known =>
      obtain ⟨t, ran, rfl⟩ := Option.map_eq_some_iff.mp h
      cases opens : link.opens c.receiver e with
      | none => exact .idle e t rfl opens (link.quiet ran opens) (by simp)
      | some x =>
        obtain ⟨w, -, part, grown⟩ := link.pieces ran opens
        rw [opens] at known
        refine .passed e t x w rfl opens (of_decide_eq_true known) part grown ?_
        simp [grown]
    next => cases h

/-- What was passed on: the pieces of the packets in the log, in order, of datagrams that were made. -/
structure Link.Accounts (link : Link σ ε β δ α) (old : List (List α)) (c : Channel σ δ α) : Prop where
  all : link.outputs c.receiver = old ++ c.log.flatMap Prod.snd
  parts : ∀ y ∈ c.log, y.1 ∈ c.made ∧ y.2.flatten <+: y.1.2

theorem Link.Accounts.step {old : List (List α)} (acc : link.Accounts old c) (h : link.next c ev = some c') :
    link.Accounts old c' := by
  rcases Link.effect h with ⟨x, -, rfl⟩ | ⟨e, t, -, -, same, rfl⟩ | ⟨e, t, x, w, -, -, known, part, grown, rfl⟩
  · exact ⟨acc.all, fun y hy => ⟨List.mem_append_left _ (acc.parts y hy).1, (acc.parts y hy).2⟩⟩
  · exact ⟨same.trans acc.all, acc.parts⟩
  · refine ⟨?_, fun y hy => ?_⟩
    · rw [grown, acc.all, List.flatMap_append, List.append_assoc, List.flatMap_singleton]
    · rcases List.mem_append.mp hy with before | new
      · exact acc.parts y before
      · cases List.mem_singleton.mp new
        exact ⟨known, part⟩

theorem Link.accounts {ok : Channel σ δ α → Event ε β → Channel σ δ α → Prop}
    (run : Machine.Steps link.next ok (.start s) c) : link.Accounts (link.outputs s) c :=
  run.invariant ⟨(List.append_nil _).symm, fun _ h => nomatch h⟩ fun acc taken _ => acc.step taken

/-- No datagram is passed on more often than it was made. -/
def Channel.OnceEach (c : Channel σ δ α) : Prop := ∀ d, c.times d ≤ c.built d

/-- A step keeps this just if what it passes on is no copy. -/
theorem onceEach_step_iff (once : c.OnceEach) (h : link.next c ev = some c') : c'.OnceEach ↔ link.NoCopy c ev := by
  rcases Link.effect h with ⟨x, rfl, rfl⟩ | ⟨e, t, rfl, opens, -, rfl⟩ | ⟨e, t, x, w, rfl, opens, -, -, -, rfl⟩
  · refine iff_of_true (fun d => ?_) fun _ _ event => nomatch event
    rw [Channel.built, List.countP_append]
    exact (once d).trans (Nat.le_add_right ..)
  · refine iff_of_true once fun e' x event opened => ?_
    cases event
    cases opens.symm.trans opened
  · have count (d : δ) : Channel.times { c with receiver := t, log := c.log ++ [(x, w)] } d =
        c.times d + if x.1 = d then 1 else 0 := by
      rw [Channel.times, List.countP_append, List.countP_singleton]
      simp only [decide_eq_true_eq]
      rfl
    constructor
    · intro once' e' x' event opened
      cases event
      cases opens.symm.trans opened
      have most := once' x.1
      rw [count, if_pos rfl] at most
      exact most
    · intro fresh d
      rw [count]
      split
      next same => exact same ▸ fresh e x rfl opens
      next => exact once d

/-- Without copies, each datagram is passed on once at most. -/
theorem onceEach_of_noCopy (run : Machine.Steps link.next (fun c ev _ => link.NoCopy c ev) (.start s) c) : c.OnceEach :=
  run.invariant (fun _ => Nat.le_refl _) fun once taken good => (onceEach_step_iff once taken).mpr good

theorem Link.next_make {x : β} {y : δ × List α} (make : link.make x = some y) (c : Channel σ δ α) :
    link.next c (.make x) = some { c with made := c.made ++ [y] } := by
  simp [Link.next, make]

theorem Link.next_take {t : σ} {e : ε} {x : δ × List α} {w : List (List α)} (known : x ∈ c.made)
    (ran : link.step c.receiver e = some t) (opens : link.opens c.receiver e = some x)
    (grown : link.outputs t = link.outputs c.receiver ++ w) :
    link.next c (.take e) = some { c with receiver := t, log := c.log ++ [(x, w)] } := by
  simp [Link.next, opens, known, ran, grown]

/-- A receiver that opens a datagram whenever it comes passes on as many of its copies as come. -/
theorem exists_copies (link : Link σ ε β δ α) {P : σ → Prop} {x : β} {y : δ × List α} {w : List (List α)}
    (make : link.make x = some y)
    (again : ∀ s, P s →
      ∃ e t, link.step s e = some t ∧ link.opens s e = some y ∧ link.outputs t = link.outputs s ++ w ∧ P t)
    (start : P s) (n : Nat) :
    ∃ c, Machine.Steps link.next (fun _ _ _ => True) (.start s) c ∧ P c.receiver ∧ c.made = [y] ∧
      c.log = List.replicate n (y, w) := by
  induction n with
  | zero => exact ⟨_, .tail .refl (Link.next_make make (.start s)) trivial, start, rfl, rfl⟩
  | succ n ih =>
    obtain ⟨c, run, ready, made, log⟩ := ih
    obtain ⟨e, t, ran, opens, grown, ready'⟩ := again c.receiver ready
    have next := Link.next_take (by rw [made]; exact List.mem_singleton_self y) ran opens grown
    refine ⟨_, .tail run next trivial, ready', made, ?_⟩
    rw [log, List.replicate_succ']

/-- A datagram that is made and opened is no copy. -/
theorem exists_once (link : Link σ ε β δ α) {t : σ} {e : ε} {x : β} {y : δ × List α} {w : List (List α)}
    (make : link.make x = some y) (ran : link.step s e = some t) (opens : link.opens s e = some y)
    (grown : link.outputs t = link.outputs s ++ w) :
    ∃ c, Machine.Steps link.next (fun c ev _ => link.NoCopy c ev) (.start s) c ∧ c.made = [y] ∧ c.log = [(y, w)] ∧
      c.receiver = t := by
  have made := Link.next_make make (.start s)
  have next := Link.next_take (c := ⟨s, [y], []⟩) (List.mem_singleton_self y) ran opens grown
  refine ⟨_, .tail (.tail .refl made fun _ _ event => nomatch event) next fun e' x' event opens' => ?_, rfl, rfl, rfl⟩
  cases event
  cases opens.symm.trans opens'
  simp [Channel.start, Channel.times, Channel.built]

omit [DecidableEq α] in
theorem not_onceEach_of_copies {y : δ × List α} {w : List (List α)} {n : Nat} (made : c.made = [y])
    (log : c.log = List.replicate n (y, w)) (several : 1 < n) : ¬ c.OnceEach := by
  intro once
  have most := once y.1
  rw [Channel.times, Channel.built, made, log, List.countP_replicate, List.countP_singleton] at most
  simp only [decide_true, if_true] at most
  omega

end Datagrams

import AegisTunnel.Accounting

/-! # What `g_active_conns` counts

The counter is right as long as the handler of SIGCHLD reaps nothing but connection children, does not run
between the load and the store of an increment, and is installed at all. -/

namespace AegisTunnel
namespace Parent

/-- No child that has exited still waits for its SIGCHLD. -/
def Signalled (s : Parent) : Prop := s.pending = true → s.zombies = 0

/-- The increment of `g_active_conns` that a child which was forked is still owed. -/
def owed (s : Parent) : Int :=
  match s.pc with
  | .forked | .loaded _ => 1
  | _ => 0

/-- The counter, with the increment that is under way, counts the children that were not reaped, and the
    value that was loaded is still the counter's. -/
structure Balanced (s : Parent) : Prop where
  counts : s.active + s.owed = s.alive + s.zombies
  loaded : ∀ n, s.pc = .loaded n → n = s.active

/-- The exits that were signalled were reaped, and where nothing reaps there was none. -/
def Reaped (cfg : TcpConfig) (s : Parent) : Prop := s.pending = false ∨ cfg.mode = .socks5 → s.zombies = 0

/-- The handler does not reap a command of `run_cmdv`, nor anything between the load and the store of an
    increment. -/
def ReapsInTime (cfg : TcpConfig) (s : Parent) (ev : ParentEvent) : Prop :=
  ev = .sigchld → cfg.mode ≠ .socks5 → s.helper ≠ .exited ∧ ∀ n, s.pc = .loaded n → s.zombies = 0

variable {cfg : TcpConfig} {s t : Parent} {ev : ParentEvent}

/-! ### What a step does -/

/-- A step moves between the calls outside an increment, or it is part of one; a child or a command exits; or
    SIGCHLD is delivered. -/
inductive Effect (cfg : TcpConfig) (s : Parent) (ev : ParentEvent) (t : Parent) : Prop where
  | moved (pc : ParentPc) (helper : Helper) (other : ev ≠ .sigchld) (before : s.owed = 0)
      (after : owed { s with pc := pc } = 0) (eq : t = { s with pc := pc, helper := helper })
  | forked (place : s.pc = .fork) (other : ev ≠ .sigchld) (eq : t = { s with pc := .forked, alive := s.alive + 1 })
  | loaded (place : s.pc = .forked) (other : ev ≠ .sigchld) (eq : t = { s with pc := .loaded s.active })
  | stored (n : Int) (place : s.pc = .loaded n) (other : ev ≠ .sigchld)
      (eq : t = { s with pc := .accept, active := n + 1 })
  | exited (event : ev = .childExits) (some_ : 0 < s.alive)
      (eq : t = { s with alive := s.alive - 1, zombies := s.zombies + 1, pending := true })
  | helperExited (other : ev ≠ .sigchld) (eq : t = { s with helper := .exited, pending := true })
  | discarded (event : ev = .sigchld) (socks : cfg.mode = .socks5) (eq : t = { s with pending := false })
  | handled (event : ev = .sigchld) (reaps : cfg.mode ≠ .socks5) (eq : t = { s.sigchldHandler with pending := false })

theorem owed_of_pc {pc : ParentPc} (place : s.pc = pc) : s.owed = owed { s with pc := pc } := by
  rw [← place]

theorem step_effect (ran : s.step cfg ev = some t) : Effect cfg s ev t := by
  cases ev <;> simp only [step] at ran
  case stores =>
    split at ran <;> cases ran
    exact .stored _ ‹_› (by decide) rfl
  case acceptFailed eintr =>
    split at ran
    next => cases ran
    next place =>
      have place := owed_of_pc (not_not.mp place)
      split at ran <;> cases ran
      · exact .moved .stopped s.helper (by simp) place rfl rfl
      · exact .moved s.pc s.helper (by simp) place place rfl
  case checks =>
    split at ran
    next => cases ran
    next place =>
      have place := owed_of_pc (not_not.mp place)
      split at ran <;> cases ran
      · exact .moved .accept s.helper (by simp) place rfl rfl
      · exact .moved .fork s.helper (by simp) place rfl rfl
  case sigchld =>
    split at ran
    next => cases ran
    next =>
      split at ran <;> cases ran
      · exact .discarded rfl ‹_› rfl
      · exact .handled rfl ‹_› rfl
  all_goals
    split at ran <;> cases ran
    rename_i place
  case command => exact .moved .command .running (by decide) (owed_of_pc place.1) rfl rfl
  case waited => exact .moved .setup .none (by decide) (owed_of_pc place.1) rfl rfl
  case listens => exact .moved .accept s.helper (by decide) (owed_of_pc place) rfl rfl
  case stop => exact .moved .stopped s.helper (by decide) (owed_of_pc place) rfl rfl
  case accepts => exact .moved .check s.helper (by decide) (owed_of_pc place) rfl rfl
  case drops => exact .moved .accept s.helper (by decide) (owed_of_pc place) rfl rfl
  case forks => exact .forked place (by decide) rfl
  case loads => exact .loaded place (by decide) rfl
  case childExits => exact .exited rfl place rfl
  case helperExits => exact .helperExited (by decide) rfl

/-! ### The count -/

theorem balanced_handler (bal : s.Balanced) :
    s.sigchldHandler.Balanced ↔ s.helper ≠ .exited ∧ ∀ n, s.pc = .loaded n → s.zombies = 0 := by
  obtain ⟨counts, loaded⟩ := bal
  have owes : s.sigchldHandler.owed = s.owed := rfl
  constructor
  · intro after
    have counts' := after.counts
    rw [owes] at counts'
    have other : s.helper ≠ .exited := by
      intro exited
      simp only [sigchldHandler, exited, if_true] at counts'
      push_cast at counts'
      omega
    refine ⟨other, fun n pc => ?_⟩
    have same := after.loaded n pc
    simp only [sigchldHandler, other, if_false] at same
    have := loaded n pc
    omega
  · rintro ⟨other, undisturbed⟩
    refine ⟨?_, fun n pc => ?_⟩
    · rw [owes]
      simp only [sigchldHandler, other, if_false]
      push_cast
      omega
    · have := loaded n pc
      simp only [sigchldHandler, other, if_false, undisturbed n pc]
      push_cast
      omega

theorem not_loaded_of_owed {n : Int} (none : s.owed = 0) : s.pc ≠ .loaded n := by
  intro place
  rw [owed, place] at none
  cases none

/-- A step keeps the count exactly when the handler reaps in time. -/
theorem balanced_step_iff (bal : s.Balanced) (ran : s.step cfg ev = some t) :
    t.Balanced ↔ s.ReapsInTime cfg ev := by
  have counts := bal.counts
  have inTime : ev ≠ .sigchld → s.ReapsInTime cfg ev := fun other signal => absurd signal other
  cases step_effect ran with
  | moved pc helper other before after eq =>
    refine iff_of_true ?_ (inTime other)
    subst eq
    rw [before] at counts
    exact ⟨by rw [← counts, ← after]; rfl, fun n place => absurd place (not_loaded_of_owed after)⟩
  | forked place other eq =>
    refine iff_of_true ?_ (inTime other)
    subst eq
    simp only [owed, place] at counts
    refine ⟨?_, fun n place => by cases place⟩
    simp only [owed]
    push_cast
    omega
  | loaded place other eq =>
    refine iff_of_true ?_ (inTime other)
    subst eq
    simp only [owed, place] at counts
    exact ⟨counts, fun n place => by cases place; rfl⟩
  | stored n place other eq =>
    refine iff_of_true ?_ (inTime other)
    subst eq
    have same := bal.loaded n place
    simp only [owed, place] at counts
    refine ⟨?_, fun n place => by cases place⟩
    simp only [owed]
    omega
  | exited event some_ eq =>
    refine iff_of_true ?_ (inTime (by rw [event]; decide))
    subst eq
    refine ⟨?_, bal.loaded⟩
    change s.active + s.owed = _
    push_cast
    omega
  | helperExited other eq =>
    subst eq
    exact iff_of_true ⟨counts, bal.loaded⟩ (inTime other)
  | discarded event socks eq =>
    subst eq
    exact iff_of_true ⟨counts, bal.loaded⟩ fun _ reaps => absurd socks reaps
  | handled event reaps eq =>
    subst eq
    have same : ({ s.sigchldHandler with pending := false } : Parent).Balanced ↔ s.sigchldHandler.Balanced :=
      ⟨fun h => ⟨h.counts, h.loaded⟩, fun h => ⟨h.counts, h.loaded⟩⟩
    rw [same, balanced_handler bal]
    exact ⟨fun h _ _ => h, fun h => h event reaps⟩

theorem reaped_of_step (reaped : s.Reaped cfg) (ran : s.step cfg ev = some t)
    (handled : ev = .childExits → cfg.mode ≠ .socks5) : t.Reaped cfg := by
  cases step_effect ran with
  | moved pc helper other before after eq => exact eq ▸ reaped
  | forked place other eq => exact eq ▸ reaped
  | loaded place other eq => exact eq ▸ reaped
  | stored n place other eq => exact eq ▸ reaped
  | exited event some_ eq =>
    subst eq
    rintro (quiet | socks)
    · cases quiet
    · exact absurd socks (handled event)
  | helperExited other eq =>
    subst eq
    rintro (quiet | socks)
    · cases quiet
    · exact reaped (.inr socks)
  | discarded event socks eq =>
    subst eq
    exact fun _ => reaped (.inr socks)
  | handled event reaps eq =>
    subst eq
    exact fun _ => rfl

structure AccountInv (cfg : TcpConfig) (s : Parent) : Prop where
  balanced : s.Balanced
  reaped : s.Reaped cfg

/-- Back at `accept` the counter is the number of the children that are alive, and a connection is refused
    exactly when the most that are allowed are alive. -/
structure Accounted (cfg : TcpConfig) (s : Parent) : Prop where
  counted : s.pc = .accept → s.Signalled → s.active = s.alive
  refused : s.pc = .check → s.Signalled → ∀ t, s.step cfg .checks = some t → (t.pc = .accept ↔ cfg.maxConns ≤ s.alive)

theorem AccountInv.zombies (inv : s.AccountInv cfg) (signalled : s.Signalled) : s.zombies = 0 := by
  cases pending : s.pending with
  | true => exact signalled pending
  | false => exact inv.reaped (.inl pending)

theorem AccountInv.accounted (inv : s.AccountInv cfg) : s.Accounted cfg := by
  have counts := inv.balanced.counts
  refine ⟨fun pc signalled => ?_, fun pc signalled t ran => ?_⟩
  · simpa [owed, pc, inv.zombies signalled] using counts
  · have active : s.active = s.alive := by simpa [owed, pc, inv.zombies signalled] using counts
    simp only [step, pc, active, ne_eq, not_true_eq_false, if_false] at ran
    split at ran <;> cases ran
    · rename_i full
      exact iff_of_true rfl full
    · rename_i room
      exact iff_of_false (fun at_ => by cases at_) room

end Parent

/-- In every run in which the handler reaps in time, and in which no connection child of a SOCKS5 server
    exits, the connections are counted. -/
theorem active_conns_counted (cfg : TcpConfig) (s : Parent)
    (run : Machine.Steps (Parent.step cfg)
      (fun s ev _ => s.ReapsInTime cfg ev ∧ (ev = .childExits → cfg.mode ≠ .socks5)) .init s) : s.Accounted cfg := by
  have inv : s.AccountInv cfg := run.invariant ⟨⟨rfl, fun _ pc => by cases pc⟩, fun _ => rfl⟩
    fun inv ran good => ⟨(Parent.balanced_step_iff inv.balanced ran).mpr good.1, Parent.reaped_of_step inv.reaped ran good.2⟩
  exact inv.accounted

def limited (mode : TcpMode) : TcpConfig := ⟨mode, .replicate 32 0, [], 1, 0⟩

/-- The server starts to listen and serves a connection. -/
def serves : List ParentEvent := [.listens, .accepts, .checks, .forks, .loads, .stores]

/-- The handler reaps a setup command, the handler runs within an increment, or there is no handler: the
    counter is wrong with every child reaped, and the last server refuses a connection with none alive. -/
theorem active_conns_miscounted :
    (∃ s, Machine.Steps (Parent.step (limited .tun)) (fun _ _ _ => True) .init s ∧
      s.pc = .accept ∧ s.zombies = 0 ∧ s.alive = 0 ∧ s.active = -1 ∧ ¬ s.Accounted (limited .tun)) ∧
    (∃ s, Machine.Steps (Parent.step { limited .psk with maxConns := 2 }) (fun _ _ _ => True) .init s ∧
      s.pc = .accept ∧ s.zombies = 0 ∧ s.alive = 1 ∧ s.active = 2 ∧ ¬ s.Accounted { limited .psk with maxConns := 2 }) ∧
    ∃ s t, Machine.Steps (Parent.step (limited .socks5)) (fun _ _ _ => True) .init s ∧ s.pending = false ∧
      s.alive = 0 ∧ s.step (limited .socks5) .checks = some t ∧ t.pc = .accept ∧ ¬ s.Accounted (limited .socks5) := by
  refine ⟨?_, ?_, ?_⟩
  · refine ⟨_, .of_exec (fun _ _ _ => true) [.command, .helperExits, .sigchld, .waited, .listens] (fun _ _ => trivial) rfl,
      rfl, rfl, rfl, rfl, fun right => ?_⟩
    cases right.counted rfl fun _ => rfl
  · refine ⟨_, .of_exec (fun _ _ _ => true) (serves ++ [.accepts, .checks, .forks, .loads, .childExits, .sigchld, .stores])
      (fun _ _ => trivial) rfl, rfl, rfl, rfl, rfl, fun right => ?_⟩
    cases right.counted rfl fun _ => rfl
  · refine ⟨_, _, .of_exec (fun _ _ _ => true) (serves ++ [.childExits, .sigchld, .accepts]) (fun _ _ => trivial) rfl, rfl,
      rfl, rfl, rfl, fun right => ?_⟩
    have live := (right.refused rfl (fun quiet => by cases quiet) _ rfl).mp rfl
    exact absurd live (by decide)

/-- The handler runs in the setup with no command to reap, or at `accept`. -/
def reapsAtRest (s : Parent) (ev : ParentEvent) : Bool :=
  ev ≠ .sigchld || s.helper ≠ .exited && (s.pc = .setup || s.pc = .accept)

/-- The command of the setup is waited for, a connection is served, and its child is reaped. -/
def servesOne : List ParentEvent :=
  [.command, .helperExits, .waited, .sigchld] ++ serves ++ [.childExits, .sigchld]

theorem reapsInTime_of_reapsAtRest {cfg : TcpConfig} {s : Parent} {ev : ParentEvent} (h : reapsAtRest s ev = true) :
    s.ReapsInTime cfg ev := by
  rintro rfl _
  simp only [reapsAtRest, ne_eq, not_true_eq_false, decide_false, Bool.false_or, Bool.and_eq_true, Bool.or_eq_true,
    decide_eq_true_eq] at h
  refine ⟨h.1, fun n pc => ?_⟩
  rw [pc] at h
  rcases h.2 with at_ | at_ <;> cases at_

theorem active_conns_counted_one :
    ∃ s, Machine.exec (Parent.step (limited .tun)) (fun s ev _ => reapsAtRest s ev) .init servesOne = some s ∧
      s.pc = .accept ∧ s.active = 0 ∧ s.Accounted (limited .tun) :=
  ⟨_, rfl, rfl, rfl, active_conns_counted (limited .tun) _ (.of_exec (fun s ev _ => reapsAtRest s ev) servesOne
    (fun _ h => ⟨reapsInTime_of_reapsAtRest h, fun _ => by decide⟩) rfl)⟩

end AegisTunnel

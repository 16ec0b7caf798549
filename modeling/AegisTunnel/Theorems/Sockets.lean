import AegisTunnel.Sockets

/-! # Which addresses are tried

`connect_to_host` goes through all addresses of a host. `connect_to_host_mptcp` remembers for all of them together
which protocols it has had a socket of, and so it gives up after two addresses, or after one where there is no
MPTCP. -/

namespace AegisTunnel
open Handles

/-- The function leaves just the descriptor open that it returns. -/
def Tidy (r : Opening) : Prop := ∀ held, Reaches held r.1 (r.2.toList ++ held)

theorem tidy_none : Tidy ([], none) := fun held => .refl held

theorem tidy_opened (fd : Nat) : Tidy ([.opened fd], some fd) := fun held => .opened held fd

theorem tidy_transient (fd : Nat) : Tidy ([.opened fd, .closed fd], none) := fun held => .transient held fd

/-- A descriptor that is closed again before the next one is tried. -/
theorem Tidy.retried {r : Opening} (h : Tidy r) (fd : Nat) : Tidy (.opened fd :: .closed fd :: r.1, r.2) := fun held =>
  (Reaches.transient held fd).append (h held)

theorem tidy_connectLoop (addrs : List Address) : Tidy (connectLoop addrs) := by
  induction addrs with
  | nil => exact tidy_none
  | cons a rest ih =>
    rw [connectLoop]
    cases a.tcp with
    | none => exact ih
    | some fd =>
      dsimp only
      split
      · exact tidy_opened fd
      · exact ih.retried fd

theorem tidy_connectLoopMptcp (triedMptcp triedTcp : Bool) (addrs : List Address) :
    Tidy (connectLoopMptcp triedMptcp triedTcp addrs) := by
  induction addrs generalizing triedMptcp triedTcp with
  | nil => exact tidy_none
  | cons a rest ih =>
    rw [connectLoopMptcp]
    dsimp only
    split
    · exact ih _ _
    · split
      · exact tidy_opened _
      · exact (ih _ _).retried _

/-- A descriptor that is kept just if a call succeeds. -/
theorem tidy_kept (fd : Nat) (ok : Bool) : Tidy (if ok then ([.opened fd], some fd) else ([.opened fd, .closed fd], none)) := by
  cases ok with
  | true => exact tidy_opened fd
  | false => exact tidy_transient fd

theorem tidy_listenOnPort (socket : Option Nat) (binds listens : Bool) : Tidy (listenOnPort socket binds listens) := by
  cases socket with
  | none => exact tidy_none
  | some fd => exact tidy_kept fd (binds && listens)

theorem tidy_tunCreate (file : Option Nat) (attaches : Bool) : Tidy (tunCreate file attaches) := by
  cases file with
  | none => exact tidy_none
  | some fd => exact tidy_kept fd attaches

/-! ### The addresses -/

/-- An address to which a TCP connection can be made. -/
def Address.reachable (a : Address) : Bool := a.tcp.isSome && a.connects

theorem connectLoop_result (addrs : List Address) :
    (connectLoop addrs).2 = (addrs.find? Address.reachable).bind (·.tcp) := by
  induction addrs with
  | nil => rfl
  | cons a rest ih =>
    rw [connectLoop, List.find?_cons]
    cases found : a.tcp with
    | none => simpa [Address.reachable, found] using ih
    | some fd => cases up : a.connects <;> simp [Address.reachable, found, up, ih]

theorem connectLoopMptcp_done (addrs : List Address) : connectLoopMptcp true true addrs = ([], none) := by
  induction addrs with
  | nil => rfl
  | cons a rest ih => exact ih

/-- After the one TCP socket there is no other if there is no MPTCP. -/
theorem connectLoopMptcp_tried {addrs : List Address} (plain : ∀ a ∈ addrs, a.mptcp = none) :
    connectLoopMptcp false true addrs = ([], none) := by
  induction addrs with
  | nil => rfl
  | cons a rest ih =>
    rw [List.forall_mem_cons] at plain
    simpa [connectLoopMptcp, plain.1] using ih plain.2

/-- The first address of which there is a socket is the only one. -/
theorem connectLoopMptcp_plain {addrs : List Address} (plain : ∀ a ∈ addrs, a.mptcp = none) :
    (connectLoopMptcp false false addrs).2 =
      ((addrs.find? fun a => a.tcp.isSome).filter (·.connects)).bind (·.tcp) := by
  induction addrs with
  | nil => rfl
  | cons a rest ih =>
    rw [List.forall_mem_cons] at plain
    cases found : a.tcp with
    | none => simpa [connectLoopMptcp, plain.1, found] using ih plain.2
    | some fd =>
      cases up : a.connects <;>
        simp [connectLoopMptcp, plain.1, found, up, connectLoopMptcp_tried plain.2, Option.filter]

/-- The first address with the one protocol, the second with the other. -/
theorem connectLoopMptcp_both {addrs : List Address} (both : ∀ a ∈ addrs, a.mptcp.isSome ∧ a.tcp.isSome) :
    (connectLoopMptcp false false addrs).2.isSome = (addrs.take 2).any (·.connects) := by
  cases addrs with
  | nil => rfl
  | cons a rest =>
    rw [List.forall_mem_cons] at both
    obtain ⟨fd, hfd⟩ := Option.isSome_iff_exists.mp both.1.1
    cases up : a.connects with
    | true => simp [connectLoopMptcp, hfd, up]
    | false =>
      cases rest with
      | nil => simp [connectLoopMptcp, hfd, up]
      | cons b rest =>
        rw [List.forall_mem_cons] at both
        obtain ⟨fd', hfd'⟩ := Option.isSome_iff_exists.mp both.2.1.2
        cases up' : b.connects <;> simp [connectLoopMptcp, hfd, up, hfd', up', connectLoopMptcp_done]

/-- `connect_to_host` connects to the first address that can be reached. `connect_to_host_mptcp` does not: where there is
no MPTCP it tries the first address only of which it gets a socket, and where there are sockets of both kinds the
first two. Neither of them leaves another descriptor open than the one that it returns. -/
theorem connect_addresses (addrs : List Address) :
    (connectToHost (some addrs)).2 = (addrs.find? Address.reachable).bind (·.tcp) ∧
    ((∀ a ∈ addrs, a.mptcp = none) → (connectToHostMptcp (some addrs) none).2 =
      ((addrs.find? fun a => a.tcp.isSome).filter (·.connects)).bind (·.tcp)) ∧
    ((∀ a ∈ addrs, a.mptcp.isSome ∧ a.tcp.isSome) →
      (connectToHostMptcp (some addrs) none).2.isSome = (addrs.take 2).any (·.connects)) ∧
    Tidy (connectToHost (some addrs)) ∧ Tidy (connectToHostMptcp (some addrs) none) :=
  ⟨connectLoop_result addrs, connectLoopMptcp_plain, connectLoopMptcp_both, tidy_connectLoop addrs,
    tidy_connectLoopMptcp false false addrs⟩

/-- Two addresses, of which only the second one can be reached. -/
def secondUp : List Address := [⟨none, some 3, false⟩, ⟨none, some 3, true⟩]

theorem connect_addresses_secondUp : (connectToHost (some secondUp)).2 = some 3 ∧
    (connectToHostMptcp (some secondUp) none).2 = none :=
  ⟨(connect_addresses secondUp).1, (connect_addresses secondUp).2.1 (by decide)⟩

end AegisTunnel

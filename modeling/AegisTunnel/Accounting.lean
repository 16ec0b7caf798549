import AegisTunnel.TcpServer

/-! # The counting of connections (`src/main.c`, `src/mode_*.c`, `src/tunnel/tun.c`)

The listening process between two system calls, where `TcpServer` takes a round of the accept loop at a
time. The handler of SIGCHLD may run between any two of its steps, and `g_active_conns++` is a load and a
store. Only what the counter depends on is kept: which of the children run, and which have exited and wait
to be reaped. -/

namespace AegisTunnel

inductive ParentPc where
  /-- Before the accept loop. -/
  | setup
  /-- In `run_cmdv` or `tun_exec_script`, at `waitpid` for the command's process. -/
  | command
  | accept
  /-- A connection was accepted: at `g_active_conns >= g_max_conns`. -/
  | check
  /-- Below the limit: at the rate check and `fork`. -/
  | fork
  /-- `fork` has returned: at the load of `g_active_conns++`. -/
  | forked
  /-- The counter was loaded: at the store of `g_active_conns++`. -/
  | loaded (n : Int)
  /-- The accept loop was left. -/
  | stopped
  deriving DecidableEq

/-- The process of the command that `run_cmdv` waits for. -/
inductive Helper where
  | none
  | running
  | exited
  deriving DecidableEq

structure Parent where
  pc : ParentPc
  /-- `g_active_conns` -/
  active : Int
  /-- The connection children that run. -/
  alive : Nat
  /-- The connection children that have exited and were not waited for. -/
  zombies : Nat
  helper : Helper
  /-- SIGCHLD is pending. -/
  pending : Bool
  deriving DecidableEq

def Parent.init : Parent := ⟨.setup, 0, 0, 0, .none, false⟩

inductive ParentEvent where
  | command
  | waited
  | listens
  | stop
  | acceptFailed (eintr : Bool)
  | accepts
  | checks
  /-- The rate check fails, or `fork`. -/
  | drops
  | forks
  | loads
  | stores
  | childExits
  | helperExits
  | sigchld
  deriving DecidableEq

namespace Parent

/-- `sigchld_handler`: it reaps whatever child has exited, and counts each of them down. -/
def sigchldHandler (s : Parent) : Parent :=
  let reaped := s.zombies + if s.helper = .exited then 1 else 0
  { s with
    active := s.active - reaped
    zombies := 0
    helper := if s.helper = .exited then .none else s.helper }

/-- A step of the parent, the exit of a child, or the delivery of SIGCHLD, which the SOCKS5 server has set
    to its default: there it is discarded. -/
def step (cfg : TcpConfig) (s : Parent) : ParentEvent → Option Parent
  | .command => if s.pc = .setup ∧ cfg.mode = .tun then some { s with pc := .command, helper := .running } else none
  | .waited =>
    -- With the command's process gone already, `waitpid` fails at once and the result is not looked at.
    if s.pc = .command ∧ s.helper ≠ .running then some { s with pc := .setup, helper := .none } else none
  | .listens => if s.pc = .setup then some { s with pc := .accept } else none
  | .stop => if s.pc = .accept then some { s with pc := .stopped } else none
  | .acceptFailed eintr =>
    if s.pc ≠ .accept then none
    else if !eintr && cfg.mode = .tun then some { s with pc := .stopped }
    else some s
  | .accepts => if s.pc = .accept then some { s with pc := .check } else none
  | .checks =>
    if s.pc ≠ .check then none
    else if s.active ≥ cfg.maxConns then some { s with pc := .accept }
    else some { s with pc := .fork }
  | .drops => if s.pc = .fork then some { s with pc := .accept } else none
  | .forks => if s.pc = .fork then some { s with pc := .forked, alive := s.alive + 1 } else none
  | .loads => if s.pc = .forked then some { s with pc := .loaded s.active } else none
  | .stores =>
    match s.pc with
    | .loaded n => some { s with pc := .accept, active := n + 1 }
    | _ => none
  | .childExits =>
    if 0 < s.alive then some { s with alive := s.alive - 1, zombies := s.zombies + 1, pending := true } else none
  | .helperExits => if s.helper = .running then some { s with helper := .exited, pending := true } else none
  | .sigchld =>
    if !s.pending then none
    else if cfg.mode = .socks5 then some { s with pending := false }
    else some { s.sigchldHandler with pending := false }

end Parent

end AegisTunnel

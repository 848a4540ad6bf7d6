import Fedis.Impl.Machine
import Fedis.Impl.RdbDicts

/-!
# Background saving (`rdb.c`, `masterCron` and `sigChildHandler` of `redis.c`)

A child of `bgsave` has the dicts of its fork and rewrites the RDB file in place (`rdbChild`).
For a `Saver` the fork and the assignments behind it are one step, as the handler of
`SIGCHLD` and a command are. A `Parent` takes them one by one, and the signal comes between
any two.
-/

namespace Fedis

open Framework

/-- What a child that is forked now saves. -/
def snapshot (m : Machine) : List DbDicts := m.tables.map DbTables.dicts

/-- The parameters of `initServerConfig`: seconds and changes. -/
def saveParams : List (Int × Int) := [(900, 1), (300, 10000), (10, 1)]

/-- A server with what concerns saving. `child` is the running child, with its
snapshot, and `disk` the RDB file, if there is one, as it is when no child writes it.
`writes` and `sinceFork` count the write commands since the snapshot on disk and since
the last fork; nothing reads them. -/
structure Saver extends Machine where
  rdbOn : Bool
  unixtime : Int
  lastSave : Int
  rdbChildPid : Int
  isBgSaving : Bool
  child : Option (Int × List DbDicts)
  disk : Option Bytes
  writes : Nat
  sinceFork : Nat

/-- `bgsave`, with what `fork` returns. -/
def bgsave (s : Saver) (pid : Int) : Saver :=
  let s := if 0 < pid then { s with child := some (pid, snapshot s.toMachine), sinceFork := 0 } else s
  { s with rdbChildPid := pid, isBgSaving := true }

/-- `bgSaveIfNeeded`, at this time. -/
def bgSaveIfNeeded (s : Saver) (now pid : Int) : Saver :=
  if s.isBgSaving then s
  else if saveParams.any fun p => p.1 ≤ now - s.lastSave ∧ p.2 ≤ s.server.dirty then bgsave s pid
  else s

/-- `masterCron`, and the clock that `serverCron` sets behind it. -/
def masterCron (s : Saver) (now pid : Int) : Saver :=
  { (if s.rdbOn then bgSaveIfNeeded s now pid else s) with unixtime := now }

/-- `sigChildHandler`, for a child that `waitpid` has found. -/
def sigChildHandler (s : Saver) (pid : Int) (success : Bool) : Saver :=
  if s.rdbChildPid = pid then
    { s with
      lastSave := if success then s.unixtime else s.lastSave
      rdbChildPid := -1
      server := { s.server with dirty := 0 }
      isBgSaving := false }
  else s

/-- How `rdbSave` goes in a child: it cannot open the file, and returns; it writes everything;
or something is in its way, with these bytes in the file. A short write of the magic is an exit
with failure, one behind it is not noticed, and a signal can end the child anywhere. -/
inductive ChildEnd where
  | unopened
  | saved
  | cut (file : Bytes) (success : Bool)
deriving DecidableEq, Repr

/-- The file that a child with these dicts leaves, and whether its exit is a success. -/
def rdbChild (sha256 : Sha256) (dbs : List DbDicts) (disk : Option Bytes) :
    ChildEnd → Option (Option Bytes × Bool)
  | .unopened => some (disk, true)
  | .saved => (rdbSaveDicts stringCodec sha256 dbs).map fun file => (some file, true)
  | .cut file success => some (some file, success)

/-- The exit of the running child, and its handler. -/
def childExit (sha256 : Sha256) (s : Saver) (e : ChildEnd) : Option Saver :=
  match s.child with
  | none => some s
  | some (pid, dbs) => (rdbChild sha256 dbs s.disk e).map fun r =>
    sigChildHandler { s with
      child := none
      disk := r.1
      writes := if e = .saved then s.sinceFork else s.writes } pid r.2

/-! ## `bgsave`, statement by statement -/

/-- Where the parent is: outside `bgsave`, behind its `fork`, or behind the assignment to
`rdbChildPid`. -/
inductive BgSavePc where
  | outside
  | forked (pid : Int)
  | stored
deriving DecidableEq, Repr

/-- The parent, with its children that run and those that have exited and are not waited for
yet, and whether these have succeeded. -/
structure Parent where
  saver : Saver
  pc : BgSavePc
  running : List Int
  exited : List (Int × Bool)

/-- The children that `waitpid` has not returned. -/
def Parent.unreaped (p : Parent) : List Int := p.running ++ p.exited.map Prod.fst

/-- The loop of `sigChildHandler` over the children that `waitpid` returns. -/
def sigChildLoop (s : Saver) (exited : List (Int × Bool)) : Saver :=
  exited.foldl (fun s child => sigChildHandler s child.1 child.2) s

/-- What happens to the parent: `bgsave` is called and forks, with what `fork` returns, or
goes on by a statement; a child exits; the signal arrives; or the server has worked
outside `bgsave`. -/
inductive ParentEvent where
  | fork (pid : Int)
  | storePid
  | setSaving
  | childExit (pid : Int) (success : Bool)
  | sigChild
  | work (server : RedisServer) (unixtime : Int)

/-- One event. The pid of a new child is not that of another child. -/
def parentStep (p : Parent) : ParentEvent → Option (Unit × Parent)
  | .fork pid =>
    if p.pc = .outside ∧ pid ≠ 0 ∧ pid ∉ p.unreaped then
      some ((), { p with
        pc := .forked pid, running := if 0 < pid then p.running ++ [pid] else p.running })
    else none
  | .storePid =>
    match p.pc with
    | .forked pid => some ((), { p with saver := { p.saver with rdbChildPid := pid }, pc := .stored })
    | _ => none
  | .setSaving =>
    match p.pc with
    | .stored => some ((), { p with saver := { p.saver with isBgSaving := true }, pc := .outside })
    | _ => none
  | .childExit pid success =>
    if pid ∈ p.running then
      some ((), { p with running := p.running.erase pid, exited := p.exited ++ [(pid, success)] })
    else none
  | .sigChild => some ((), { p with saver := sigChildLoop p.saver p.exited, exited := [] })
  | .work server unixtime =>
    if p.pc = .outside then
      some ((), { p with saver := { p.saver with server := server, unixtime := unixtime } })
    else none

/-- A server that starts, without children. -/
def initParent (s : Saver) : Parent where
  saver := { s with rdbChildPid := -1, isBgSaving := false }
  pc := .outside
  running := []
  exited := []

end Fedis

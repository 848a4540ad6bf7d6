import Mathlib.Logic.Function.Basic
import Fedis.Framework.Libc

/-!
# What the server is for: a store with deadlines

Numbered databases hold values under keys, and clients that each have selected one of them. A key
may be given a deadline, behind which its value is not seen. A deadline is that of the key: it stays
when the value is set anew or deleted, and is given once.

`number` reads a number and `shown` is how a value comes back.
-/

namespace Fedis

open Framework

/-- A request. Numbers are the texts that the client sends. -/
inductive Query where
  | set (key value : Bytes)
  | get (key : Bytes)
  | del (key : Bytes)
  | expire (key seconds : Bytes)
  | ttl (key : Bytes)
  | select (index : Bytes)
  | ping
deriving DecidableEq, Repr

inductive Reply where
  | ok
  | pong
  | err
  | keyNotFound
  | bulk (value : Bytes)
deriving DecidableEq, Repr

/-- A client's request, and the time when it comes. -/
structure Ask where
  now : Int
  client : Nat
  query : Query
deriving DecidableEq, Repr

structure Store where
  now : Int
  value : Nat → Bytes → Option Bytes
  deadline : Nat → Bytes → Option Int
  selected : Nat → Nat
  sent : Nat → List Reply

namespace Store

/-- A store that starts at this time. -/
def init (now : Int) : Store where
  now := now
  value := fun _ _ => none
  deadline := fun _ _ => none
  selected := fun _ => 0
  sent := fun _ => []

/-- The deadline of the key has passed. -/
def Passed (st : Store) (i : Nat) (k : Bytes) : Prop := ∃ d ∈ st.deadline i k, d < st.now

instance (st : Store) (i : Nat) (k : Bytes) : Decidable (st.Passed i k) :=
  inferInstanceAs (Decidable (∃ d ∈ _, _))

/-- The value that is seen. -/
def seen (st : Store) (i : Nat) (k : Bytes) : Option Bytes :=
  if st.Passed i k then none else st.value i k

def setValue (st : Store) (i : Nat) (k : Bytes) (v : Option Bytes) : Store :=
  { st with value := Function.update st.value i (Function.update (st.value i) k v) }

def setDeadline (st : Store) (i : Nat) (k : Bytes) (d : Int) : Store :=
  { st with deadline := Function.update st.deadline i (Function.update (st.deadline i) k (some d)) }

variable (number : Bytes → Option Int) (shown : Bytes → Bytes) (dbnum : Nat)

/-- What a client of database `i` is answered. Not defined are the selection of a database that
is not there, and times that are no `long`. A TTL asks for the key in the first database. -/
def answer (st : Store) (c : Nat) : Query → Option (Reply × Store)
  | .set key value => some (.ok, st.setValue (st.selected c) key (some value))
  | .get key =>
    match st.seen (st.selected c) key with
    | none => some (.keyNotFound, st)
    | some value => some (.bulk (shown value), st)
  | .del key =>
    if (st.seen (st.selected c) key).isSome then some (.ok, st.setValue (st.selected c) key none)
    else some (.keyNotFound, st)
  | .expire key seconds =>
    match number seconds with
    | none => some (.err, st)
    | some n =>
      if ¬ inLong (n + st.now) then none
      else if (st.deadline (st.selected c) key).isSome then some (.err, st)
      else some (.ok, st.setDeadline (st.selected c) key (n + st.now))
  | .ttl key =>
    if (st.deadline 0 key).isSome then
      let ttl := (st.deadline (st.selected c) key).getD 0 - st.now
      if inLong ttl then some (.bulk (bytes "ttl:" ++ decimalInt ttl ++ bytes "s"), st) else none
    else some (.keyNotFound, st)
  | .select index =>
    match number index with
    | none => some (.err, st)
    | some n =>
      if 0 ≤ n ∧ n < dbnum then
        some (.bulk (bytes "OK, db is " ++ decimalInt n),
          { st with selected := Function.update st.selected c n.toNat })
      else none
  | .ping => some (.pong, st)

/-- One request. Time does not go back. -/
def step (st : Store) (r : Ask) : Option (Unit × Store) :=
  if r.now < st.now then none
  else (answer number shown dbnum { st with now := r.now } r.client r.query).map fun q =>
    ((), { q.2 with sent := Function.update q.2.sent r.client (q.2.sent r.client ++ [q.1]) })

end Store

end Fedis

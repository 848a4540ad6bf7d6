import Fedis.Impl.Process

/-!
# The arguments that a request's handling reads (`redis.c`)

`argReads` lists the reads of `argv` on the way of a request through
`processCommand`, in their order. They depend on the command that was found and
on `argc`; a read that the request has no argument for leaves the array.
-/

namespace Fedis

/-- The indexes that a handler reads. SET without a value only logs its key. -/
def procReads (argc : Nat) : Proc → List Nat
  | .set => if argc = 2 then [1] else [1, 1, 2]
  | .get | .del | .slaveof | .sync | .select | .ttl => [1]
  | .object => [2, 1]
  | .expire => [1, 2]
  | .watch => List.range' 1 (argc - 1)
  | .bye | .ping | .replconf | .replack | .info | .heartbeat | .multi | .exec => []

/-- The indexes that `processCommand` and what it calls read: the name, the key of
a command on a database, the handler's, and the key again for `touchWatchKey`. -/
def argReads (argc : Nat) (found : Option RedisCommand) : List Nat :=
  0 :: match found with
    | none => []
    | some cmd =>
      (if cmd.read || cmd.write then [1] else []) ++ procReads argc cmd.proc ++
        if cmd.write then [1] else []

end Fedis

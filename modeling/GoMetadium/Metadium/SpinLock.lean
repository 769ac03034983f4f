import GoMetadium.Lib.Machine

set_option autoImplicit false

/-! # The etcd spin lock (`metadium/spinlock.go`, `metadium/etcdutil.go`)

`SpinLock` is a word `v` that only atomic operations touch: `TryLock` is one
compare-and-swap of `v` from 0 to 1, `Unlock` an atomic store of 0, and `Lock` is the loop
`for l.TryLock() { runtime.Gosched() }`, which repeats while the compare-and-swap succeeds and
returns at the first one that fails.

The package lock `etcdLock = &SpinLock{0}` guards the etcd entry points: `EtcdInit`,
`EtcdAddMember`, `EtcdRemoveMember`, `EtcdMoveLeader` and `EtcdJoin` call `Lock` and defer
`Unlock`; `EtcdStart` returns at once unless `TryLock` succeeds, and then defers `Unlock`.
A goroutine running one of them is a program counter. A run is a schedule, the list of the
goroutines that take an atomic step, one after another, so every interleaving is a schedule.

`Lock` returns exactly when its compare-and-swap fails, that is when `v` is not 0: on a free
lock it takes it and spins once more to return, but on a held lock it returns at once. So
while one goroutine is inside a guarded body, any other that calls `Lock` enters too, and its
deferred `Unlock` frees the lock the first one still holds.
-/

namespace GoMetadium.Metadium

/-- The entry points of `etcdutil.go` that take `etcdLock`. -/
inductive EtcdCall where
  | etcdInit
  | etcdStart
  | etcdAddMember
  | etcdRemoveMember
  | etcdMoveLeader
  | etcdJoin
  deriving DecidableEq, Repr

/-- Where a goroutine is in its entry point. -/
inductive Pc where
  /-- Not started: its next step is its first compare-and-swap. -/
  | start
  /-- In `Lock`'s loop after a compare-and-swap that succeeded (`runtime.Gosched()`): its next
  step is the loop condition's compare-and-swap. -/
  | spin
  /-- Between taking `etcdLock` and its deferred `Unlock`. -/
  | critical
  /-- Returned. -/
  | done
  deriving DecidableEq, Repr

/-- `atomic.CompareAndSwapUint32(&l.v, 0, 1)`: whether it swapped, and the word after. -/
def tryLock (v : UInt32) : Bool × UInt32 := if v = 0 then (true, 1) else (false, v)

/-- `atomic.StoreUint32(&l.v, 0)`. -/
def unlock (_ : UInt32) : UInt32 := 0

/-- One atomic step of a goroutine running `call` at `pc`, on the word `v`. -/
def goStep (call : EtcdCall) (pc : Pc) (v : UInt32) : Pc × UInt32 :=
  match pc, call with
  -- `if !etcdLock.TryLock() { return }`
  | .start, .etcdStart => (if (tryLock v).1 then .critical else .done, (tryLock v).2)
  -- the condition of `for l.TryLock() { runtime.Gosched() }`
  | .start, _ | .spin, _ => (if (tryLock v).1 then .spin else .critical, (tryLock v).2)
  -- the deferred `etcdLock.Unlock()`
  | .critical, _ => (.done, unlock v)
  | .done, _ => (.done, v)

/-- The lock word and the goroutines, each with its entry point and program counter. -/
structure World where
  v : UInt32
  goroutines : List (EtcdCall × Pc)
  deriving DecidableEq, Repr

namespace World

/-- Goroutine `i` takes one atomic step; a goroutine that does not exist does nothing. -/
def step (w : World) (i : Nat) : World :=
  match w.goroutines[i]? with
  | some (call, pc) =>
    { v := (goStep call pc w.v).2, goroutines := w.goroutines.set i (call, (goStep call pc w.v).1) }
  | none => w

/-- Goroutines that call the given entry points, none started, and `etcdLock = &SpinLock{0}`. -/
def init (calls : List EtcdCall) : World := ⟨0, calls.map fun c => (c, .start)⟩

/-- The world as a machine whose calls are the scheduled goroutines. -/
def machine : Machine World Nat Unit := ⟨fun w i => ((), w.step i)⟩

/-- The world after the schedule `sched`. -/
def run (w : World) (sched : List Nat) : World := (machine.run w sched).2

/-- The goroutines between taking `etcdLock` and releasing it. -/
def inCritical (w : World) : List Nat :=
  (List.range w.goroutines.length).filter fun i => (w.goroutines[i]?.map Prod.snd) = some .critical

end World

/-- The entry points that take the lock with `Lock` (all but `EtcdStart`). -/
def EtcdCall.usesLock : EtcdCall → Bool
  | .etcdStart => false
  | _ => true

/-! ## One step of `Lock`, `TryLock` and `Unlock` -/

/-! ## Steps of the world -/

namespace World

variable {w : World} {i : Nat}

@[simp] theorem run_nil : w.run [] = w := rfl

@[simp] theorem run_cons (sched : List Nat) : w.run (i :: sched) = (w.step i).run sched := rfl

/-- The lock word is always 0 or 1. -/
def WordOk (w : World) : Prop := w.v = 0 ∨ w.v = 1

end World

/-! ## `Lock` does not exclude -/

namespace World

variable {w : World} {i j : Nat}

end World

/-- **Two goroutines inside `etcdLock`.** With `EtcdInit` in goroutine 0 and
`EtcdAddMember` in goroutine 1, the schedule `0, 0, 1` has goroutine 0 take the free lock and
return from `Lock` on its second compare-and-swap, then goroutine 1 return from `Lock` on its
first compare-and-swap, which failed: both are inside their bodies. One more step of
goroutine 1 runs its deferred `Unlock`, which frees the lock while goroutine 0 is still
inside. -/
theorem etcdLock_admits_two :
    (World.init [.etcdInit, .etcdAddMember]).run [0, 0, 1] =
        ⟨1, [(.etcdInit, .critical), (.etcdAddMember, .critical)]⟩ ∧
      ((World.init [.etcdInit, .etcdAddMember]).run [0, 0, 1]).inCritical = [0, 1] ∧
      (World.init [.etcdInit, .etcdAddMember]).run [0, 0, 1, 1] =
        ⟨0, [(.etcdInit, .critical), (.etcdAddMember, .done)]⟩ :=
  ⟨rfl, rfl, rfl⟩

end GoMetadium.Metadium

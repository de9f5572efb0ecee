import Iam.Repository.Store
import Iam.Service.IamService

/-!
# Running the service against a store

A `World` is the state the service shares: the store, the decision cache,
and the number of calls made so far.  What the environment decides at each
call (a failed connection, the value `uuid.New()` returns, the reading of
`time.Now()`) is an `Env`, indexed by that number, so every run is a
function of the environment.  `Prog.exec` runs one operation with nothing
interleaved, `runRequests` runs operations one after another, and
`runSchedule` interleaves operations call by call.
-/

namespace Iam

/-- The environment's decisions, by the index of the call. -/
structure Env where
  fails : Nat → Bool
  uuid : Nat → UUID
  clock : Nat → Int

structure World where
  store : Store
  cache : Cache
  tick : Nat
  deriving DecidableEq, Repr

/-- No call fails; `uuid.New()` counts up from 1; the clock reads one nanosecond per call. -/
def Env.reliable : Env := ⟨fun _ => false, fun n => BitVec.ofNat 128 (n + 1), fun n => n⟩

def World.init (cache : Cache) : World := ⟨Store.empty, cache, 0⟩

namespace World

variable (env : Env) (w : World)

def next : World := { w with tick := w.tick + 1 }

@[simp] theorem next_store : w.next.store = w.store := rfl

@[simp] theorem next_tick : w.next.tick = w.tick + 1 := rfl

def read {α : Type} (v : α) : Except DbError α :=
  if env.fails w.tick then .error .connection else .ok v

theorem read_eq_ok {α : Type} {v v' : α} (h : w.read env v = .ok v') : v' = v := by
  unfold read at h
  split at h <;> cases h
  rfl

theorem read_ok {α : Type} (v : α) (hf : env.fails w.tick = false) : w.read env v = .ok v := by
  simp [read, hf]

def write (r : Except DbError Store) : Except DbError Unit × World :=
  if env.fails w.tick then (.error .connection, w.next)
  else match r with
    | .ok s => (.ok (), { w with store := s }.next)
    | .error e => (.error e, w.next)

def perform : (c : Call) → c.Reply × World
  | .cacheGet key => (w.cache.get (env.clock w.tick) key, w.next)
  | .cacheSet key v => ((), { w with cache := w.cache.set (env.clock w.tick) key v }.next)
  | .cacheClear => ((), { w with cache := w.cache.clear }.next)
  | .newUUID => (env.uuid w.tick, w.next)
  | .resourceCreate r => w.write env (w.store.resourceCreate r)
  | .resourceGetByID id => (w.read env (w.store.resourceGetByID id), w.next)
  | .resourceUpdate r => w.write env (w.store.resourceUpdate r)
  | .resourceDelete id => w.write env (.ok (w.store.resourceDelete id))
  | .resourceGetAncestors id =>
    ((w.read env (w.store.getAncestors id)).bind fun
      | some ancestors => .ok ancestors
      | none => .error .nonTermination, w.next)
  | .permissionCreate p => w.write env (w.store.permissionCreate p)
  | .permissionGetByIDs ids => (w.read env (w.store.permissionGetByIDs ids), w.next)
  | .roleCreate r => w.write env (w.store.roleCreate r)
  | .roleGetByID id => (w.read env (w.store.roleGetByID id), w.next)
  | .roleUpdate r => w.write env (w.store.roleUpdate r)
  | .roleDelete id => w.write env (.ok (w.store.roleDelete id))
  | .policyCreate p => w.write env (w.store.policyCreate p)
  | .policyGetByID id => (w.read env (w.store.policyGetByID id), w.next)
  | .policyGetByResourceID id => (w.read env (w.store.policyGetByResourceID id), w.next)
  | .policyUpdate p => w.write env (w.store.policyUpdate p)
  | .policyDelete id => w.write env (.ok (w.store.policyDelete id))
  | .bindingCreate b => w.write env (w.store.bindingCreate b)
  | .bindingGetByID id => (w.read env (w.store.bindingGetByID id), w.next)
  | .bindingDelete id => w.write env (.ok (w.store.bindingDelete id))

theorem write_ok {r : Except DbError Store} {s : Store} (hf : env.fails w.tick = false)
    (h : r = .ok s) : w.write env r = (.ok (), { w with store := s }.next) := by
  simp [write, hf, h]

theorem write_error (e : DbError) : ∃ e', (w.write env (.error e)).1 = .error e' := by
  unfold write
  split <;> exact ⟨_, rfl⟩

theorem write_tick (r : Except DbError Store) : (w.write env r).2.tick = w.tick + 1 := by
  unfold write
  split <;> (try split) <;> rfl

theorem perform_tick (c : Call) : (w.perform env c).2.tick = w.tick + 1 := by
  cases c <;> simp only [perform, write, next] <;> split <;> (try split) <;> rfl

theorem perform_store (c : Call) (h : c.writesStore = false) :
    (w.perform env c).2.store = w.store := by
  cases c <;> simp_all [perform, next, Call.writesStore]

theorem perform_cache (c : Call) (h : c.writesCache = false) :
    (w.perform env c).2.cache = w.cache := by
  cases c <;> simp only [Call.writesCache, Bool.true_eq_false] at h <;>
    simp only [perform, write, next] <;> split <;> (try split) <;> rfl

end World

def Prog.exec (env : Env) {α : Type} : Prog α → World → α × World
  | .pure a, w => (a, w)
  | .call c k, w => (k (w.perform env c).1).exec env (w.perform env c).2

@[simp] theorem Prog.exec_pure (env : Env) {α : Type} (a : α) (w : World) :
    (Prog.pure a).exec env w = (a, w) := rfl

@[simp] theorem Prog.exec_call (env : Env) {α : Type} (c : Call) (k : c.Reply → Prog α)
    (w : World) :
    (Prog.call c k).exec env w = (k (w.perform env c).1).exec env (w.perform env c).2 :=
  rfl

theorem Prog.exec_bind (env : Env) {α β : Type} (x : Prog α) (f : α → Prog β) (w : World) :
    (x >>= f).exec env w = (f (x.exec env w).1).exec env (x.exec env w).2 := by
  induction x generalizing w with
  | pure a => rfl
  | call c k ih => exact ih _ _

theorem Prog.exec_map (env : Env) {α β : Type} (f : α → β) (x : Prog α) (w : World) :
    (f <$> x).exec env w = (f (x.exec env w).1, (x.exec env w).2) := by
  induction x generalizing w with
  | pure a => rfl
  | call c k ih => exact ih _ _

def Store.evaluate (s : Store) (p : GoString) (r : UUID) (x : GoString) (ctx : Context) :
    Decision :=
  ((checkPermission p r x ctx).exec Env.reliable ⟨s, .noop, 0⟩).1

def runRequests (env : Env) : List Request → World → List Response × World
  | [], w => ([], w)
  | req :: rest, w =>
    let r := req.prog.exec env w
    let rs := runRequests env rest r.2
    (r.1 :: rs.1, rs.2)

abbrev Threads := List (Prog Response)

def stepThread (env : Env) (w : World) (ts : Threads) (i : Nat) : Option (World × Threads) :=
  match ts.get? i with
  | some (.call c k) => match w.perform env c with
    | (r, w') => some (w', ts.set i (k r))
  | _ => none

/-- Interleave the threads' calls in the order the schedule names them. -/
def runSchedule (env : Env) : World → Threads → List Nat → Option (World × Threads)
  | w, ts, [] => some (w, ts)
  | w, ts, i :: rest => match stepThread env w ts i with
    | some (w', ts') => runSchedule env w' ts' rest
    | none => none

def Prog.result? {α : Type} : Prog α → Option α
  | .pure a => some a
  | .call _ _ => none

end Iam

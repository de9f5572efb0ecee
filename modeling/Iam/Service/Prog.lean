import Iam.Domain.Entities

/-!
# Service code as programs over its calls

The evaluator and the façade reach shared state only through the repository
interfaces, the decision cache and `uuid.New()`.  A `Prog` is service code as
a tree of those calls, each continuing with the reply it receives, so that
one definition of each Go function can be run against fixed answers, against
a store in one piece, or interleaved with other calls step by step.  A
repository method is one call; GORM's `BeforeCreate` and `BeforeUpdate`
hooks run in the caller's goroutine, so they are code around the call.
-/

namespace Iam

inductive Call where
  | cacheGet (key : GoString)
  | cacheSet (key : GoString) (value : Bool)
  | cacheClear
  | newUUID
  | resourceCreate (r : Resource)
  | resourceGetByID (id : UUID)
  | resourceUpdate (r : Resource)
  | resourceDelete (id : UUID)
  | resourceGetAncestors (id : UUID)
  | permissionCreate (p : Permission)
  | permissionGetByIDs (ids : List UUID)
  | roleCreate (r : Role)
  | roleGetByID (id : UUID)
  | roleUpdate (r : Role)
  | roleDelete (id : UUID)
  | policyCreate (p : Policy)
  | policyGetByID (id : UUID)
  | policyGetByResourceID (resourceID : UUID)
  | policyUpdate (p : Policy)
  | policyDelete (id : UUID)
  | bindingCreate (b : Binding)
  | bindingGetByID (id : UUID)
  | bindingDelete (id : UUID)
  deriving DecidableEq, Repr

@[reducible] def Call.Reply : Call → Type
  | .cacheGet _ => Option Bool
  | .cacheSet _ _ | .cacheClear => Unit
  | .newUUID => UUID
  | .resourceGetByID _ => Except DbError (Option Resource)
  | .resourceGetAncestors _ => Except DbError (List Resource)
  | .permissionGetByIDs _ => Except DbError (List Permission)
  | .roleGetByID _ => Except DbError (Option Role)
  | .policyGetByID _ | .policyGetByResourceID _ => Except DbError (Option Policy)
  | .bindingGetByID _ => Except DbError (Option Binding)
  | .resourceCreate _ | .resourceUpdate _ | .resourceDelete _ | .permissionCreate _
  | .roleCreate _ | .roleUpdate _ | .roleDelete _ | .policyCreate _ | .policyUpdate _
  | .policyDelete _ | .bindingCreate _ | .bindingDelete _ => Except DbError Unit

def Call.ForallReply : (c : Call) → (c.Reply → Prop) → Prop
  | .cacheGet _, p => p none ∧ ∀ b, p (some b)
  | .cacheSet _ _, p | .cacheClear, p => p ()
  | .newUUID, p => ∀ u, p u
  | .resourceGetByID _, p | .roleGetByID _, p | .policyGetByID _, p
  | .policyGetByResourceID _, p | .bindingGetByID _, p =>
    (∀ e, p (.error e)) ∧ p (.ok none) ∧ ∀ x, p (.ok (some x))
  | .resourceGetAncestors _, p | .permissionGetByIDs _, p => (∀ e, p (.error e)) ∧ ∀ l, p (.ok l)
  | .resourceCreate _, p | .resourceUpdate _, p | .resourceDelete _, p | .permissionCreate _, p
  | .roleCreate _, p | .roleUpdate _, p | .roleDelete _, p | .policyCreate _, p
  | .policyUpdate _, p | .policyDelete _, p | .bindingCreate _, p | .bindingDelete _, p =>
    (∀ e, p (.error e)) ∧ p (.ok ())

private theorem Except.forall_iff {ε α : Type} {p : Except ε α → Prop} :
    (∀ r, p r) ↔ (∀ e, p (.error e)) ∧ ∀ a, p (.ok a) :=
  ⟨fun h => ⟨fun _ => h _, fun _ => h _⟩, fun ⟨h1, h2⟩ r => by cases r; exacts [h1 _, h2 _]⟩

private theorem Unit.forall_iff {p : Unit → Prop} : (∀ u, p u) ↔ p () :=
  ⟨fun h => h (), fun h _ => h⟩

@[simp] theorem Except.toBool_ok {ε α : Type} (a : α) : (Except.ok a : Except ε α).toBool = true :=
  rfl

@[simp] theorem Except.toBool_error {ε α : Type} (e : ε) :
    (Except.error e : Except ε α).toBool = false := rfl

@[simp] theorem Except.mapError_ok {ε ε' α : Type} (f : ε → ε') (a : α) :
    (Except.ok a : Except ε α).mapError f = .ok a := rfl

@[simp] theorem Except.mapError_error {ε ε' α : Type} (f : ε → ε') (e : ε) :
    (Except.error e : Except ε α).mapError f = .error (f e) := rfl

theorem Call.forallReply_iff (c : Call) (p : c.Reply → Prop) : c.ForallReply p ↔ ∀ r, p r := by
  cases c <;> simp only [ForallReply] <;>
    first
    | rw [Unit.forall_iff]
    | rw [Except.forall_iff, Unit.forall_iff]
    | rw [Except.forall_iff, Option.forall]
    | rw [Except.forall_iff]
    | rw [Option.forall]

def Call.writesCache : Call → Bool
  | .cacheSet _ _ | .cacheClear => true
  | _ => false

def Call.writesStore : Call → Bool
  | .resourceCreate _ | .resourceUpdate _ | .resourceDelete _ | .permissionCreate _
  | .roleCreate _ | .roleUpdate _ | .roleDelete _ | .policyCreate _ | .policyUpdate _
  | .policyDelete _ | .bindingCreate _ | .bindingDelete _ => true
  | _ => false

inductive Prog (α : Type) where
  | pure (a : α)
  | call (c : Call) (k : c.Reply → Prog α)

namespace Prog

def bind {α β : Type} : Prog α → (α → Prog β) → Prog β
  | pure a, f => f a
  | call c k, f => call c fun r => (k r).bind f

instance : Monad Prog where
  pure := pure
  bind := bind

def lift (c : Call) : Prog c.Reply := call c pure

/--
Run against fixed answers, recording the calls in the order they are made.
This is the reading of a program in which nothing else touches the state
between its calls.
-/
def run {α : Type} (ans : (c : Call) → c.Reply) : Prog α → List Call × α
  | pure a => ([], a)
  | call c k => let r := (k (ans c)).run ans; (c :: r.1, r.2)

variable {α β : Type} (ans : (c : Call) → c.Reply)

@[simp] theorem pure_eq (a : α) : (Pure.pure a : Prog α) = pure a := rfl

@[simp] theorem pure_bind (a : α) (f : α → Prog β) : (pure a >>= f) = f a := rfl

@[simp] theorem call_bind (c : Call) (k : c.Reply → Prog α) (f : α → Prog β) :
    (call c k >>= f) = call c fun r => k r >>= f := rfl

@[simp] theorem bind_assoc {γ : Type} (x : Prog α) (g : α → Prog β) (f : β → Prog γ) :
    (x >>= g >>= f) = x >>= fun a => g a >>= f := by
  induction x with
  | pure a => rfl
  | call c k ih => exact congrArg (call c) (funext ih)

@[simp] theorem ite_bind {c : Prop} [Decidable c] (x y : Prog α) (f : α → Prog β) :
    ((if c then x else y) >>= f) = if c then x >>= f else y >>= f := by
  split <;> rfl

@[simp] theorem map_ite {c : Prop} [Decidable c] (f : α → β) (x y : Prog α) :
    (f <$> if c then x else y) = if c then f <$> x else f <$> y := by
  split <;> rfl

@[simp] theorem map_pure (f : α → β) (a : α) : f <$> (pure a : Prog α) = pure (f a) := rfl

@[simp] theorem map_call (f : α → β) (c : Call) (k : c.Reply → Prog α) :
    f <$> call c k = call c fun r => f <$> k r := rfl

@[simp] theorem run_pure (a : α) : (pure a : Prog α).run ans = ([], a) := rfl

@[simp] theorem run_call (c : Call) (k : c.Reply → Prog α) :
    (call c k).run ans = (c :: ((k (ans c)).run ans).1, ((k (ans c)).run ans).2) := rfl

theorem run_bind (x : Prog α) (f : α → Prog β) :
    (x >>= f).run ans =
      ((x.run ans).1 ++ ((f (x.run ans).2).run ans).1, ((f (x.run ans).2).run ans).2) := by
  induction x with
  | pure a => rfl
  | call c k ih => simp [ih]

/-- Code run on each element of a list in turn, collecting the results. -/
def forEach {α β : Type} (f : α → Prog β) : List α → Prog (List β)
  | [] => pure []
  | a :: as => f a >>= fun b => forEach f as >>= fun bs => pure (b :: bs)

def forOption {α β : Type} (f : α → Prog β) : Option α → Prog (Option β)
  | none => pure none
  | some a => f a >>= fun b => pure (some b)

end Prog

open Prog

def newUUID : Prog UUID := lift .newUUID

/-- The common body of the `BeforeCreate` hooks: a nil id becomes `uuid.New()`. -/
def freshID (id : UUID) : Prog UUID := if id = UUID.nil then newUUID else Prog.pure id

def Resource.beforeCreate (r : Resource) : Prog Resource := do
  return { r with id := ← freshID r.id }

def Permission.beforeCreate (p : Permission) : Prog Permission := do
  return { p with id := ← freshID p.id }

def Role.beforeCreate (r : Role) : Prog Role := do
  return { r with id := ← freshID r.id }

def Condition.beforeCreate (c : Condition) : Prog Condition := do
  return { c with id := ← freshID c.id }

def Binding.beforeCreate (b : Binding) : Prog Binding := do
  return { b with id := ← freshID b.id }

/-- `Policy.BeforeCreate` also fills an empty etag with `uuid.New().String()`. -/
def Policy.beforeCreate (p : Policy) : Prog Policy := do
  let id ← freshID p.id
  let etag ← if p.etag = [] then UUID.string <$> newUUID else Prog.pure p.etag
  return { p with id, etag }

def BindingRecord.beforeCreate (r : BindingRecord) : Prog BindingRecord := do
  return { r with id := ← freshID r.id }

/-!
GORM runs the `BeforeCreate` hook of every row it saves along the
associations: an association's own hook, then those of the associations it
saves first, then those it saves after its row.
-/

def ResourceAssoc.beforeCreate (ra : ResourceAssoc) : Prog ResourceAssoc := do
  let row ← ra.row.beforeCreate
  let parent ← forOption Resource.beforeCreate ra.parent
  let children ← forEach Resource.beforeCreate ra.children
  return ⟨row, parent, children⟩

def PolicyAssoc.beforeCreate (p : PolicyAssoc) : Prog PolicyAssoc := do
  let q ← p.toPolicy.beforeCreate
  let resource ← forOption ResourceAssoc.beforeCreate p.resource
  let bindings ← forEach BindingRecord.beforeCreate p.bindings
  return { p with id := q.id, etag := q.etag, resource, bindings }

def Role.beforeCreateAssoc (r : Role) : Prog Role := do
  let r ← r.beforeCreate
  return { r with permissions := ← forEach Permission.beforeCreate r.permissions }

def Policy.beforeUpdate (p : Policy) : Prog Policy := do
  return { p with etag := UUID.string (← newUUID), version := p.version + 1 }

namespace ResourceRepository

def create (r : Resource) : Prog (Resource × Except DbError Unit) := do
  let r ← r.beforeCreate
  return (r, ← lift (.resourceCreate r))

def getByID (id : UUID) : Prog (Except DbError (Option Resource)) := lift (.resourceGetByID id)

def update (r : Resource) : Prog (Except DbError Unit) := lift (.resourceUpdate r)

def delete (id : UUID) : Prog (Except DbError Unit) := lift (.resourceDelete id)

def getAncestors (id : UUID) : Prog (Except DbError (List Resource)) :=
  lift (.resourceGetAncestors id)

end ResourceRepository

namespace PermissionRepository

def create (p : Permission) : Prog (Permission × Except DbError Unit) := do
  let p ← p.beforeCreate
  return (p, ← lift (.permissionCreate p))

def getByIDs (ids : List UUID) : Prog (Except DbError (List Permission)) :=
  lift (.permissionGetByIDs ids)

end PermissionRepository

namespace RoleRepository

def create (r : Role) : Prog (Role × Except DbError Unit) := do
  let r ← r.beforeCreate
  return (r, ← lift (.roleCreate r))

def getByID (id : UUID) : Prog (Except DbError (Option Role)) := lift (.roleGetByID id)

def update (r : Role) : Prog (Except DbError Unit) := lift (.roleUpdate r)

def delete (id : UUID) : Prog (Except DbError Unit) := lift (.roleDelete id)

end RoleRepository

namespace PolicyRepository

def create (p : Policy) : Prog (Policy × Except DbError Unit) := do
  let p ← p.beforeCreate
  return (p, ← lift (.policyCreate p))

def getByID (id : UUID) : Prog (Except DbError (Option Policy)) := lift (.policyGetByID id)

def getByResourceID (resourceID : UUID) : Prog (Except DbError (Option Policy)) :=
  lift (.policyGetByResourceID resourceID)

/-- `Update` is `db.Save`, which runs `BeforeUpdate` first. -/
def update (p : Policy) : Prog (Policy × Except DbError Unit) := do
  let p ← p.beforeUpdate
  return (p, ← lift (.policyUpdate p))

def delete (id : UUID) : Prog (Except DbError Unit) := lift (.policyDelete id)

end PolicyRepository

namespace BindingRepository

/--
`Create`: the hooks of the binding, of its `Policy` and `Role` associations,
and of its condition, whose `BindingID` GORM sets to the binding's id; then
one statement saves them all.
-/
def create (b : Binding) : Prog (Binding × Except DbError Unit) := do
  let b ← b.beforeCreate
  let policy ← forOption PolicyAssoc.beforeCreate b.policy
  let role ← forOption Role.beforeCreateAssoc b.role
  let condition ← match b.condition with
    | none => Prog.pure none
    | some c => some <$> ({ c with bindingID := b.id } : Condition).beforeCreate
  let b := { b with policy, role, condition }
  return (b, ← lift (.bindingCreate b))

def getByID (id : UUID) : Prog (Except DbError (Option Binding)) := lift (.bindingGetByID id)

def delete (id : UUID) : Prog (Except DbError Unit) := lift (.bindingDelete id)

end BindingRepository

def cacheGet (key : GoString) : Prog (Option Bool) := lift (.cacheGet key)

def cacheSet (key : GoString) (value : Bool) : Prog Unit := lift (.cacheSet key value)

def cacheClear : Prog Unit := lift .cacheClear

end Iam

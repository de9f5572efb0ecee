import Iam.Runtime.Reach

/-!
# Failed requests

Every repository method is one atomic call, and a write that reports an error
leaves the store as it was.  A request therefore fails without a trace in the
store unless it can fail after one of its writes succeeded.  Three operations
make several writes: `CreatePolicy` (the policy, then each binding),
`UpdatePolicy` (the deletes, the creates, then the policy) and
`CreateBinding` (a missing policy, then the binding).  Every other request,
in every environment and from every world, returns an error only with the
store untouched (`failed_request_keeps_store`).

A program fails cleanly (`Prog.FailsClean`) when along every path a result it
counts as failed comes only while none of its writes has succeeded.
-/

namespace Iam

def Call.succeededWrite : (c : Call) → c.Reply → Bool
  | .resourceCreate _, r | .resourceUpdate _, r | .resourceDelete _, r | .permissionCreate _, r
  | .roleCreate _, r | .roleUpdate _, r | .roleDelete _, r | .policyCreate _, r
  | .policyUpdate _, r | .policyDelete _, r | .bindingCreate _, r | .bindingDelete _, r =>
    r.toBool
  | _, _ => false

theorem Call.succeededWrite_of_writesStore {c : Call} (h : c.writesStore = false) (r : c.Reply) :
    c.succeededWrite r = false := by
  cases c <;> first | rfl | exact absurd h Bool.noConfusion

namespace World

variable (env : Env) (w : World)

theorem write_store_of_error (r : Except DbError Store) (h : (w.write env r).1.toBool = false) :
    (w.write env r).2.store = w.store := by
  rcases write_cases env w r with ⟨h1, -⟩ | ⟨-, h2⟩
  · rw [h1] at h
    cases h
  · exact h2

theorem perform_store_of_not_succeeded (c : Call)
    (h : c.succeededWrite (w.perform env c).1 = false) : (w.perform env c).2.store = w.store := by
  cases c <;> simp only [perform, Call.succeededWrite] at h ⊢ <;>
    first | rfl | exact write_store_of_error env w _ h

end World

namespace Prog

variable {α β : Type} {bad : α → Bool}

/-- Along every path of a program, a result `bad` holds of comes only while no write has
succeeded; `changed` records whether one has. -/
def FailsClean (bad : α → Bool) : Bool → Prog α → Prop
  | changed, .pure a => changed = true → bad a = false
  | changed, .call c k => ∀ r, FailsClean bad (changed || c.succeededWrite r) (k r)

@[simp] theorem failsClean_pure (changed : Bool) (a : α) :
    FailsClean bad changed (pure a) ↔ (changed = true → bad a = false) := Iff.rfl

@[simp] theorem failsClean_call (changed : Bool) (c : Call) (k : c.Reply → Prog α) :
    FailsClean bad changed (call c k) ↔
      c.ForallReply fun r => FailsClean bad (changed || c.succeededWrite r) (k r) := by
  rw [Call.forallReply_iff]; rfl

@[simp] theorem failsClean_map (f : β → α) (changed : Bool) (x : Prog β) :
    FailsClean bad changed (f <$> x) ↔ FailsClean (bad ∘ f) changed x := by
  induction x generalizing changed with
  | pure a => exact Iff.rfl
  | call c k ih => exact forall_congr' fun r => ih r _

@[simp] theorem failsClean_ite {p : Prop} [Decidable p] (changed : Bool) {x y : Prog α} :
    FailsClean bad changed (if p then x else y) ↔
      (p → FailsClean bad changed x) ∧ (¬p → FailsClean bad changed y) := by
  split <;> simp_all

theorem Only.failsClean {x : Prog α} (hx : Only (fun c => c.writesStore = false) x) :
    FailsClean bad false x := by
  induction x with
  | pure a => exact fun h => absurd h Bool.false_ne_true
  | call c k ih =>
    intro r
    rw [Call.succeededWrite_of_writesStore hx.1, Bool.or_false]
    exact ih r (hx.2 r)

theorem FailsClean.exec_store (env : Env) {x : Prog α} :
    ∀ {changed : Bool} {w : World}, FailsClean bad changed x → bad (x.exec env w).1 = true →
      changed = false ∧ (x.exec env w).2.store = w.store := by
  induction x with
  | pure a =>
    intro changed w h hb
    cases changed
    · exact ⟨rfl, rfl⟩
    · exact absurd (h rfl) (by simpa using hb)
  | call c k ih =>
    intro changed w h hb
    obtain ⟨hch, hs⟩ := ih _ (h _) hb
    obtain ⟨rfl, hw⟩ := Bool.or_eq_false_iff.1 hch
    exact ⟨rfl, hs.trans (World.perform_store_of_not_succeeded env w c hw)⟩

end Prog

open Prog

def Request.writesSeveral : Request → Bool
  | .createPolicy .. | .updatePolicy .. | .createBinding .. => true
  | _ => false

theorem failsClean_request (req : Request) (h : req.writesSeveral = false) :
    FailsClean Response.failed false req.prog := by
  cases req <;> simp only [Request.writesSeveral, Bool.true_eq_false] at h <;>
    simp only [Request.prog, failsClean_map]
  case checkPermission =>
    exact Only.failsClean (only_checkPermissionWith (P := fun c => c.writesStore = false)
      (fun _ => rfl) (fun _ => rfl) (fun _ => rfl) (fun _ => rfl) _ _ _ rfl _ _)
  case getEffectivePermissions =>
    exact Only.failsClean (only_getEffectivePermissions (P := fun c => c.writesStore = false)
      (fun _ => rfl) (fun _ => rfl) (fun _ => rfl) _ _)
  all_goals simp [getResource, getRole, getPolicy, createResource, updateResource, deleteResource,
    createPermission, createRole, updateRole, deleteRole, deletePolicy, deleteBinding,
    ResourceRepository.create, ResourceRepository.getByID, ResourceRepository.update,
    ResourceRepository.delete, PermissionRepository.create, PermissionRepository.getByIDs,
    RoleRepository.create, RoleRepository.getByID, RoleRepository.update, RoleRepository.delete,
    PolicyRepository.getByResourceID, PolicyRepository.delete, BindingRepository.delete,
    Resource.beforeCreate, Permission.beforeCreate, Role.beforeCreate, freshID, newUUID, cacheClear,
    lift, dbErr, Call.ForallReply, Call.succeededWrite, Response.failed]

/--
A request other than `CreatePolicy`, `UpdatePolicy` and `CreateBinding` that fails leaves the
store as it was, whatever the environment and the world it runs in.
-/
theorem failed_request_keeps_store (env : Env) (w : World) (req : Request)
    (hreq : req.writesSeveral = false) (hfail : (req.prog.exec env w).1.failed = true) :
    (req.prog.exec env w).2.store = w.store :=
  ((failsClean_request req hreq).exec_store env hfail).2

theorem failed_request_keeps_store_orphan :
    (Request.createResource (lit "doc") (lit "d") (some 9) []).writesSeveral = false ∧
    ((Request.createResource (lit "doc") (lit "d") (some 9) []).prog.exec Env.reliable
      (World.init .noop)).1.failed = true ∧
    ((Request.createResource (lit "doc") (lit "d") (some 9) []).prog.exec Env.reliable
      (World.init .noop)).2.store = Store.empty :=
  ⟨rfl, by decide, failed_request_keeps_store _ _ _ rfl (by decide)⟩

end Iam

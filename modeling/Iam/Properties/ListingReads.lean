import Iam.Properties.PolicyUpdate
import Iam.Repository.Listings

/-!
# Listing bindings against reading the policy

`ListBindings` by resource and `GetPolicy` read the bindings of a resource by
two queries.  The join of `ListByResourceID` does not skip a soft-deleted
policy, so a successful `DeletePolicy` removes the policy from `GetPolicy`
(`policies.resource_id` is a unique index over every row, so the resource has
no other) and changes nothing `ListBindings` returns.
-/

namespace Iam

open Prog

namespace Store

@[simp] theorem listBindings_policyDelete (s : Store) (id r : UUID) (principal : GoString)
    (n o : Int) :
    (s.policyDelete id).listBindings r principal n o = s.listBindings r principal n o := by
  simp only [listBindings, bindingListByResourceID, policyDelete, Table.softDelete, List.any_map,
    Function.comp_def, apply_ite Row.val, ite_self]
  rfl

theorem ResourceKeyed.policyGetByResourceID_policyDelete {s : Store} (hk : s.ResourceKeyed)
    {r : UUID} {P : Policy} (hP : s.policyGetByResourceID r = some P) :
    (s.policyDelete P.id).policyGetByResourceID r = none := by
  obtain ⟨prow, hprow, hid, hres⟩ := policyGetByResourceID_eq_some hP
  simp only [policyGetByResourceID, policyDelete, Table.softDelete, Option.map_eq_none',
    List.find?_eq_none, List.mem_map]
  rintro _ ⟨q, hq, rfl⟩
  by_cases hqid : q.val.id = P.id
  · simp [hqid]
  · have hr : q.val.resourceID ≠ r := fun hr => hqid (hid ▸ hk q hq prow hprow (hr.trans hres.symm))
    simp [hqid, hr]

end Store

theorem deletePolicy_exec_ok {env : Env} {w : World} {r : UUID} {e : GoString}
    (h : ((deletePolicy r e).exec env w).1 = .ok ()) :
    ∃ P, w.store.policyGetByResourceID r = some P ∧
      ((deletePolicy r e).exec env w).2.store = w.store.policyDelete P.id := by
  unfold deletePolicy at h ⊢
  simp only [PolicyRepository.getByResourceID, lift, call_bind, Prog.pure_bind, Prog.exec_call,
    World.perform] at h ⊢
  generalize hread : World.read env w (w.store.policyGetByResourceID r) = rd at h ⊢
  rcases rd with e' | _ | P
  · cases h
  · cases h
  refine ⟨P, (World.read_eq_ok env w hread).symm, ?_⟩
  dsimp only at h ⊢
  by_cases he : (P.etag != e) = true
  · simp only [he, if_true, Prog.exec_pure] at h
    cases h
  simp only [he, if_false, Bool.false_eq_true, Prog.pure_eq, cacheClear, PolicyRepository.delete,
    lift, call_bind, Prog.pure_bind, Prog.exec_call, Prog.exec_pure, World.perform,
    World.write] at h ⊢
  split at h <;> simp_all [dbErr, Except.mapError]

/--
In every reachable world, a `DeletePolicy(r, e)` that succeeds leaves `r`
with no policy for `GetPolicy`, while `ListBindings` returns, for every
resource, principal and page, what it returned before the delete.
-/
theorem reachable_deletePolicy_keeps_listBindings (env : Env) (ok : World → Request → Prop)
    (w : World) (h : Reachable env ok w) (r : UUID) (e : GoString)
    (hdel : ((deletePolicy r e).exec env w).1 = .ok ()) :
    ((deletePolicy r e).exec env w).2.store.policyGetByResourceID r = none ∧
    ∀ r' principal n o, ((deletePolicy r e).exec env w).2.store.listBindings r' principal n o =
      w.store.listBindings r' principal n o := by
  obtain ⟨P, hP, hs⟩ := deletePolicy_exec_ok hdel
  rw [hs]
  exact ⟨h.resourceKeyed.policyGetByResourceID_policyDelete hP,
    fun _ _ _ _ => Store.listBindings_policyDelete _ _ _ _ _ _⟩

theorem reachable_deletePolicy_keeps_listBindings_bound :
    ((deletePolicy 1 (UUID.string 7)).exec Env.reliable boundWorld).1 = .ok () ∧
    ((deletePolicy 1 (UUID.string 7)).exec Env.reliable boundWorld).2.store.policyGetByResourceID
      1 = none ∧
    ∀ r' principal n o,
      ((deletePolicy 1 (UUID.string 7)).exec Env.reliable boundWorld).2.store.listBindings r'
        principal n o = boundWorld.store.listBindings r' principal n o :=
  ⟨rfl, reachable_deletePolicy_keeps_listBindings Env.reliable (fun _ _ => True) boundWorld
    ((Reachable.runRequests (fun _ _ => trivial) (policySetup []) (.init .noop 0)).step _ trivial)
    1 _ rfl⟩

end Iam

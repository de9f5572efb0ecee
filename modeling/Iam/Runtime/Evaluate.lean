import Iam.Runtime.Reach
import Iam.Service.EvaluatorSpec

/-!
# The uncached evaluation against a store

`Store.evaluate` runs `CheckPermission` on a store with the no-op cache and
no failing call.  When the ancestor query of the resource ends, that run is
the run against the store's answers, `Store.repos`, so the evaluator's
specification applies to it; when the query does not end, the evaluation
denies with the error of the ancestor fetch.
-/

namespace Iam

open Prog

def World.Evaluating (s : Store) (w : World) : Prop := w.store = s ∧ w.cache = .noop

def Call.ChecksOn (r : UUID) : Call → Prop
  | .cacheGet _ | .cacheSet _ _ | .resourceGetByID _ | .policyGetByResourceID _ => True
  | .resourceGetAncestors id => id = r
  | _ => False

theorem only_checkPermission_checksOn (p : GoString) (r : UUID) (x : GoString) (ctx : Context) :
    Only (Call.ChecksOn r) (checkPermission p r x ctx) :=
  only_checkPermissionWith (P := Call.ChecksOn r) (fun _ => trivial) (fun _ => trivial)
    (fun _ => trivial) (fun _ => trivial) _ p r rfl x ctx

def Store.Reads (s : Store) : (c : Call) → c.Reply → Prop
  | .resourceGetByID id, v => ∀ o, v = .ok o → o = s.resourceGetByID id
  | .resourceGetAncestors id, v => ∀ l, v = .ok l → s.getAncestors id = some l
  | .policyGetByResourceID id, v => ∀ o, v = .ok o → o = s.policyGetByResourceID id
  | _, _ => True

theorem World.perform_reads (env : Env) (w : World) (c : Call) :
    w.store.Reads c (w.perform env c).1 := by
  cases c <;> simp only [Store.Reads, World.perform] <;> try trivial
  case resourceGetByID id => exact fun o h => World.read_eq_ok env w h
  case policyGetByResourceID id => exact fun o h => World.read_eq_ok env w h
  case resourceGetAncestors id =>
    intro l h
    unfold World.read at h
    split at h
    · cases h
    · cases ha : w.store.getAncestors id <;> simp only [ha, Except.bind] at h
      · cases h
      · cases h; rfl

namespace Store

variable (s : Store) (p : GoString) (r : UUID) (x : GoString) (ctx : Context)

def repos : Repos :=
  ⟨s.resourceGetByID, fun id => (s.getAncestors id).getD [], s.policyGetByResourceID⟩

theorem evaluate_eq_run (h : (s.getAncestors r).isSome) :
    s.evaluate p r x ctx = ((checkPermission p r x ctx).run s.repos.answer).2 := by
  refine (only_checkPermission_checksOn p r x ctx).exec_eq_run Env.reliable s.repos.answer ?_
    (show World.Evaluating s ⟨s, .noop, 0⟩ from ⟨rfl, rfl⟩)
  rintro c w hc ⟨hs, hcache⟩
  obtain ⟨l, hl⟩ := Option.isSome_iff_exists.1 h
  cases c <;> simp only [Call.ChecksOn] at hc <;>
    simp [World.perform, World.read, World.next, World.Evaluating, Env.reliable, Repos.answer,
      repos, Cache.get, Cache.set, Except.bind, hs, hcache, hc, hl]

theorem evaluate_of_getAncestors_none (h : s.getAncestors r = none) :
    (s.evaluate p r x ctx).allowed = false := by
  simp [Store.evaluate, checkPermission, checkPermissionWith, cacheGet, ResourceRepository.getByID,
    ResourceRepository.getAncestors, lift, World.perform, World.read, World.next, Env.reliable,
    Cache.get]
  split <;> simp [World.perform, World.read, Except.bind, h]

theorem evaluate_allowed_iff (h : (s.getAncestors r).isSome) :
    (s.evaluate p r x ctx).allowed = true ↔ (s.resourceGetByID r).isSome ∧
      ∃ a ∈ s.repos.chain r, s.repos.GrantsAt evaluateCondition p x ctx a := by
  rw [evaluate_eq_run s p r x ctx h]
  exact (checkPermissionWith_spec evaluateCondition s.repos p x ctx r).2.1

end Store

end Iam

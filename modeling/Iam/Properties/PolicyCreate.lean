import Iam.Properties.PolicyUpdate
import Iam.Properties.Members

/-!
# A successful `CreatePolicy`

`CreatePolicy` inserts a policy at version `1` under an id and an etag that
`BeforeCreate` draws from `uuid.New()`, inserts a row for each binding it was
sent, clears the cache and reads the policy back by id.  The insert is refused
while any row of `policies`, soft-deleted or not, names the resource; once no
row does, and with no failed call, valid bindings and new draws, the call
succeeds and returns what `GetPolicy` reads from then on.  No binding row
names a policy id that no policy row holds, so `Preload` finds the new
bindings only.
-/

namespace Iam

open Prog

namespace Store

theorem policyGetByResourceID_append_new {s : Store} {r : UUID} {old : List (Row PolicyRecord)}
    {v : PolicyRecord} (hs : s.policies = old ++ [⟨v, false⟩])
    (hnone : old.any (·.val.resourceID == r) = false) (hv : v.resourceID = r) :
    s.policyGetByResourceID r = some (s.loadPolicy v) := by
  have hfind : old.find? (fun row => !row.deleted && row.val.resourceID == r) = none :=
    List.find?_eq_none.2 fun row hrow => by
      simpa using fun _ => List.any_eq_false.1 hnone row hrow
  simp [policyGetByResourceID, hs, List.find?_append, hfind, hv]

end Store

/--
A bound on the calls `CreatePolicy` makes, each taking one tick: the two
`uuid.New()` of `BeforeCreate` and the insert, at most three calls per
binding, the clear and the read back.
-/
def createPolicyCalls (bs : List Binding) : Nat := 3 * bs.length + 5

theorem exec_createPolicy_ok (env : Env) (w : World) (r : UUID) (bs : List Binding)
    (hconds : w.store.ConditionsHeld) (hint : w.store.Integrity)
    (hr : Table.holds Resource.id w.store.resources r = true)
    (hnone : w.store.policies.any (·.val.resourceID == r) = false)
    (hf : ∀ n, w.tick ≤ n → env.fails n = false) (hplain : ∀ b ∈ bs, b.plain = true)
    (hok : ∀ b ∈ bs, Table.holds RoleRecord.id w.store.roles b.roleID = true ∧
      Json.jsonbAccepts b.members = true)
    (hids : ∀ b ∈ bs, b.id ≠ UUID.nil →
      Table.holds BindingRecord.id w.store.bindings b.id = false)
    (hdist : bs.Pairwise fun a b => a.id ≠ UUID.nil → a.id ≠ b.id)
    (hpid : Table.holds PolicyRecord.id w.store.policies (env.uuid w.tick) = false)
    (hnew : ∀ k, w.tick ≤ k → k < w.tick + createPolicyCalls bs →
      (∀ i < k, env.uuid i ≠ env.uuid k) ∧
      Table.holds BindingRecord.id w.store.bindings (env.uuid k) = false ∧
      ∀ b ∈ bs, b.id ≠ env.uuid k) :
    ∃ P', ((createPolicy r bs).exec env w).1 = .ok (some P') ∧
      ((createPolicy r bs).exec env w).2.store.policyGetByResourceID r = some P' ∧
      P'.id = env.uuid w.tick ∧ P'.resourceID = r ∧ P'.version = 1 ∧
      P'.etag = UUID.string (env.uuid (w.tick + 1)) ∧
      List.Forall₂ (Replaces P'.id) P'.bindings bs := by
  set p : Policy := ⟨env.uuid w.tick, r, [], UUID.string (env.uuid (w.tick + 1)), 1⟩ with hp
  set v := Store.PolicyRecord.ofPolicy p
  have hcreate : w.store.policyCreate p =
      .ok { w.store with policies := w.store.policies ++ [⟨v, false⟩] } :=
    Store.policyCreate_eq_ok.2 ⟨by simp only [hp, hpid, hnone, Bool.or_false], hr, rfl⟩
  unfold createPolicy
  rw [Prog.exec_bind, policyRepository_create_exec]
  dsimp only
  rw [World.write_ok env _ (hf (w.tick + 2) (by omega)) hcreate]
  dsimp only [World.next]
  obtain ⟨new, s₁, t₁, h₁, ht₁, ht₁', hs₁, hrows⟩ :=
    exec_createBindings_ok env p.id (w.tick + createPolicyCalls bs) bs
      ⟨{ w.store with policies := w.store.policies ++ [⟨v, false⟩] }, w.cache, w.tick + 3⟩
      (by dsimp only; unfold createPolicyCalls; omega)
      (fun n hn => hf n (by dsimp only at hn; omega))
      (by simp [Table.holds, v, Store.PolicyRecord.ofPolicy])
      (fun c hc => by simpa using hconds c hc) hplain hok hids hdist
      (fun i j hi hij hj => (hnew j (by dsimp only at hi; omega) hj).1 i hij)
      (fun k hk hkT => (hnew k (by dsimp only at hk; omega) hkT).2)
  rw [Prog.exec_bind, h₁]
  dsimp only at ht₁ ht₁'
  simp only [cacheClear, PolicyRepository.getByID, lift, call_bind, Prog.pure_bind,
    Prog.exec_call, Prog.exec_bind, World.perform, Prog.exec_pure]
  rw [World.read_ok env _ _ (hf _ (by simp only [World.next_tick]; omega))]
  have hpol : s₁.policies = w.store.policies ++ [⟨v, false⟩] := by rw [hs₁]
  have hget : s₁.policyGetByID p.id = some (s₁.loadPolicy v) := by
    rw [Store.policyGetByID, hpol]
    exact congrArg (Option.map _) (Table.live_append_new hpid)
  have hbnd : s₁.bindings = Table.softDeleteAll BindingRecord.id w.store.bindings [] ++ new := by
    rw [hs₁]; rfl
  refine ⟨s₁.loadPolicy v, by simp only [World.next_store, hget]; rfl,
    Store.policyGetByResourceID_append_new hpol hnone rfl, rfl, rfl, rfl, rfl, ?_⟩
  -- every binding row names a held policy, and no row held the new policy's id
  refine Store.loadPolicy_bindings_replaced (p := v)
    (fun row hrow _ hpr => absurd (hint.binding_policies row hrow) ?_) hbnd hrows
  rw [hpr]
  simpa using hpid

end Iam

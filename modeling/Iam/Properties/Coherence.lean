import Iam.Runtime.Reach
import Iam.Service.CacheSpec

/-!
# The decision cache against the store

`CheckPermission` probes the cache before it reads anything, and a grant it
computes is cached under `perm:<principal>:<resource>:<permission>`.  Only the
policy and binding operations clear the cache: a role deleted or edited, or a
resource deleted, leaves the grants it supported in the cache.  A check in
flight while a mutation runs can also write a grant it computed from the
store as it was before the mutation, after the mutation has cleared the cache.

A check reads and writes the cache under its own key only, and two checks
share a key only if they are the same check or a permission name holds a `:`.
-/

namespace Iam

def memoryConfig : CacheConfig := ⟨lit "memory", true, 300, 1000, 5⟩

def aliceBinding (role : UUID) : Binding :=
  { id := UUID.nil, policyID := UUID.nil, roleID := role, role := none,
    members := Json.marshalStrings [lit "alice"], condition := none }

/--
Resource `1`, permission `3` named `read`, role `6` holding it, and a policy
of the resource (etag `UUID.string 9`) that gives the role to `alice`.
-/
def grantSetup : List Request :=
  [.createResource (lit "doc") (lit "d") none [],
   .createPermission (lit "read") [] [],
   .createRole (lit "reader") [] [] [3],
   .createPolicy 1 [aliceBinding 6]]

def grantWorld : World :=
  (runRequests Env.reliable grantSetup (World.init (.memory (newCacheService memoryConfig)))).2

/-! ## A revocation the cache does not see -/

def revokedWorld : World :=
  (runRequests Env.reliable [.checkPermission (lit "alice") 1 (lit "read") [], .deleteRole 6]
    grantWorld).2

/-- The next check is served from the cache, while the store no longer grants. -/
theorem deleteRole_keeps_cached_grant :
    ((checkPermission (lit "alice") 1 (lit "read") []).exec Env.reliable revokedWorld).1.allowed =
      true ∧
    (revokedWorld.store.evaluate (lit "alice") 1 (lit "read") []).allowed = false := by
  decide

/-! ## A check in flight across a mutation -/

/--
A check reads the policy and finds the grant; `DeletePolicy` then runs to the
end, clearing the cache and deleting the policy; then the check caches its
grant.  A check that starts after both have returned is served that grant,
while the store no longer grants.
-/
theorem inflight_check_caches_stale_grant :
    ((runSchedule Env.reliable grantWorld
      [(Request.checkPermission (lit "alice") 1 (lit "read") []).prog,
       (Request.deletePolicy 1 (UUID.string 9)).prog] [0, 0, 0, 0, 1, 1, 1, 0]).map fun (w, ts) =>
      (ts.map fun t => t.result?.map Response.failed,
       ((checkPermission (lit "alice") 1 (lit "read") []).exec Env.reliable w).1.allowed,
       (w.store.evaluate (lit "alice") 1 (lit "read") []).allowed)) =
    some ([some false, some false], true, false) := by
  decide

/-! ## Keys of different checks -/

def Call.OnKey (key : GoString) : Call → Prop
  | .cacheGet k | .cacheSet k _ => k = key
  | _ => True

theorem only_checkChain_onKey (evaluate : Condition → Context → Bool) (p x : GoString)
    (ctx : Context) (key : GoString) :
    ∀ L, Prog.Only (Call.OnKey key) (checkChain evaluate p x ctx key L)
  | [] => by simp [checkChain]
  | a :: rest => by
    refine Prog.Only.bind ?_ fun d => ?_
    · simp only [checkResourcePermissionWith, PolicyRepository.getByResourceID, Prog.lift,
        Prog.call_bind, Prog.pure_bind]
      refine ⟨trivial, fun
        | .error _ | .ok none => trivial
        | .ok (some P) => ?_⟩
      dsimp only
      split <;> trivial
    · split
      · trivial
      · split
        · exact ⟨rfl, fun _ => trivial⟩
        · exact only_checkChain_onKey evaluate p x ctx key rest

theorem only_checkPermission_onKey (p : GoString) (r : UUID) (x : GoString) (ctx : Context) :
    Prog.Only (Call.OnKey (generateCacheKey p r.string x)) (checkPermission p r x ctx) := by
  simp only [checkPermission, checkPermissionWith, cacheGet, ResourceRepository.getByID,
    ResourceRepository.getAncestors, Prog.lift, Prog.call_bind, Prog.pure_bind, Prog.pure_eq]
  refine ⟨rfl, fun g => ?_⟩
  dsimp only
  split
  · trivial
  refine ⟨trivial, fun
    | .error _ | .ok none => trivial
    | .ok (some _) => ⟨trivial, fun
      | .error _ => trivial
      | .ok l => only_checkChain_onKey _ _ _ _ _ _⟩⟩

/--
With permission names free of `:`, two different checks have different keys,
whatever their principals; and a check reads and writes the cache under its
own key only.  So a grant one check caches is never read by another.
-/
theorem checkPermission_keys_distinct (p p' x x' : GoString) (r r' : UUID) (ctx : Context)
    (hx : colon ∉ x) (hx' : colon ∉ x') (hne : (p, r, x) ≠ (p', r', x')) :
    generateCacheKey p r.string x ≠ generateCacheKey p' r'.string x' ∧
    Prog.Only (Call.OnKey (generateCacheKey p r.string x)) (checkPermission p r x ctx) := by
  refine ⟨fun h => hne ?_, only_checkPermission_onKey p r x ctx⟩
  obtain ⟨rfl, rfl, rfl⟩ := generateCacheKey_inj hx hx' h
  rfl

theorem checkPermission_keys_distinct_alice :
    colon ∉ lit "read" ∧ colon ∉ lit "write" ∧
    (lit "user:alice", (1 : UUID), lit "read") ≠ (lit "user:alice", 1, lit "write") ∧
    generateCacheKey (lit "user:alice") (UUID.string 1) (lit "read") ≠
      generateCacheKey (lit "user:alice") (UUID.string 1) (lit "write") ∧
    Prog.Only (Call.OnKey (generateCacheKey (lit "user:alice") (UUID.string 1) (lit "read")))
      (checkPermission (lit "user:alice") 1 (lit "read") []) :=
  ⟨by decide, by decide, by decide,
    checkPermission_keys_distinct _ _ _ _ _ _ [] (by decide) (by decide) (by decide)⟩

def uuidUser : GoString := lit "user:" ++ UUID.string 1

def uuidUserWorld : World :=
  (runRequests Env.reliable
    ([.createResource (lit "doc") (lit "d") none [],
      .createPermission (lit "read") [] [],
      .createRole (lit "reader") [] [] [3],
      .createBinding 1 6 [uuidUser] none,
      .checkPermission uuidUser 1 (lit "read") []])
    (World.init (.memory (newCacheService memoryConfig)))).2

/--
`uuidUser`'s grant of `read` on resource `1` has the key of the check of
principal `user` for the permission named `<id of 1>:read` on resource `1`,
which the cache then grants while the store does not.
-/
theorem cached_grant_served_to_other_check :
    generateCacheKey uuidUser (UUID.string 1) (lit "read") =
      generateCacheKey (lit "user") (UUID.string 1) (UUID.string 1 ++ lit ":read") ∧
    ((checkPermission (lit "user") 1 (UUID.string 1 ++ lit ":read") []).exec Env.reliable
      uuidUserWorld).1.allowed = true ∧
    (uuidUserWorld.store.evaluate (lit "user") 1 (UUID.string 1 ++ lit ":read") []).allowed =
      false :=
  ⟨generateCacheKey_shift (lit "user") (lit "read") 1 1, by decide, by decide⟩

end Iam

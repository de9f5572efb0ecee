import Iam.Properties.Coherence
import Iam.Properties.HierarchyReads
import Iam.Runtime.Evaluate
import Iam.Runtime.Schedule

/-!
# Grants inherited down the resource tree

`CheckPermission` walks the resource and the ancestors the recursive query
returns.  The query joins parents only while they are live, so a
soft-deleted resource cuts the walk: a live resource below it no longer
inherits the grants of the live resources above it.  Along live links the
grants are inherited in every reachable store, cycles included: the walk
from a resource through its live ancestor `A` goes on as the walk from `A`,
so it meets every resource whose grant reaches `A`, and where the walk from
`A` does not end neither does the walk from below it.

Grants never travel the other way.  The walk from `A` meets only `A` and what
its `parent_id` links reach, and with fresh ids those links have no cycle, so
a grant held only below `A` does not reach `A`.

What `GetEffectivePermissions` returns is granted by the store even when
some of its calls fail, but not all of it: a policy read that fails is
skipped, and the call still succeeds.
-/

namespace Iam

open Store

/-! ## Unique ids -/

theorem World.perform_idsUnique (env : Env) (w : World) (c : Call) (h : w.store.IdsUnique) :
    (w.perform env c).2.store.IdsUnique := by
  cases hc : c.changesParents
  · unfold IdsUnique; rwa [World.perform_resourceVals env w hc]
  cases c <;> simp only [Call.changesParents, Bool.false_eq_true] at hc
  case resourceCreate r => exact World.write_inv env w h fun _ hs' => h.resourceCreate hs'
  case bindingCreate b => exact World.write_inv env w h fun _ hs' => h.bindingCreate hs'
  case resourceUpdate r =>
    refine World.write_inv env w h fun s' hs' => ?_
    unfold IdsUnique
    rw [(resourceUpdate_inv hs').1]
    split
    · rwa [map_id_replace]
    · rw [List.map_append, List.nodup_append]
      exact ⟨h, List.nodup_singleton _,
        fun a ha hb => ‹r.id ∉ _› (List.mem_singleton.1 hb ▸ ha)⟩

theorem reachable_idsUnique {env : Env} {ok : World → Request → Prop} {w : World}
    (h : Reachable env ok w) : w.store.IdsUnique :=
  h.store_inv (by simp [IdsUnique, resourceVals, Store.empty]) fun _ req _ hs =>
    Prog.exec_inv env (fun c w => World.perform_idsUnique env w c) req.prog hs

/-! ## Inheritance along live links -/

theorem chain_mono {s : Store} {R A : Resource} {LR LA : List Resource}
    (hLR : s.getAncestors R.id = some (LR.filter (·.id != R.id)))
    (hLA : s.getAncestors A.id = some (LA.filter (·.id != A.id)))
    (hsub : A :: LA ⊆ R :: LR) : ∀ a ∈ s.repos.chain A.id, a ∈ s.repos.chain R.id := by
  simp only [Repos.chain, repos, hLR, hLA, Option.getD_some]
  intro a ha
  obtain ⟨B, hB, rfl⟩ : ∃ B ∈ A :: LA, B.id = a := by
    simp only [List.mem_cons, List.mem_map, List.mem_filter] at ha
    rcases ha with rfl | ⟨B, ⟨hB, -⟩, rfl⟩
    · exact ⟨A, List.mem_cons_self _ _, rfl⟩
    · exact ⟨B, List.mem_cons_of_mem _ hB, rfl⟩
  by_cases hBR : B.id = R.id
  · simp [hBR]
  · rcases List.mem_cons.1 (hsub hB) with rfl | hB'
    · exact absurd rfl hBR
    · exact List.mem_cons_of_mem _
        (List.mem_map.2 ⟨B, List.mem_filter.2 ⟨hB', by simpa⟩, rfl⟩)

/--
In every reachable store, a grant on a live resource `A` reaches every live
resource `R` from which `A` is reached by following `parent_id` through
live resources.
-/
theorem reachable_live_ancestor_grants (env : Env) (ok : World → Request → Prop) (w : World)
    (h : Reachable env ok w) (p x : GoString) (ctx : Context) (R A : Resource)
    (hR : w.store.resourceGetByID R.id = some R)
    (hpath : Relation.ReflTransGen w.store.LiveStep R A)
    (hA : (w.store.evaluate p A.id x ctx).allowed = true) :
    (w.store.evaluate p R.id x ctx).allowed = true := by
  have hu := reachable_idsUnique h
  have hAlive : w.store.resourceGetByID A.id = some A := by
    rcases hpath.cases_tail with rfl | ⟨B, -, hBA⟩
    · exact hR
    · exact resourceGetByID_of_liveStep hBA
  obtain ⟨LA, hLA⟩ :
      ∃ LA, w.store.parentChain w.store.resources.length A.parentID = some LA := by
    cases hc : w.store.parentChain w.store.resources.length A.parentID with
    | some LA => exact ⟨LA, rfl⟩
    | none =>
      have := w.store.evaluate_of_getAncestors_none p A.id x ctx
        (by rw [hu.getAncestors_eq hAlive, hc]; rfl)
      simp [this] at hA
  obtain ⟨LR, hwR, hsub⟩ := (maxWalk_of_parentChain hLA).of_reflTransGen hpath
  have hLR :=
    hwR.parentChain (hwR.length_lt (List.mem_map.2 ⟨_, (Table.live_eq_some hR).1, rfl⟩)).le
  have hancA := hu.getAncestors_eq hAlive
  have hancR := hu.getAncestors_eq hR
  rw [hLA, Option.map_some'] at hancA
  rw [hLR, Option.map_some'] at hancR
  obtain ⟨-, a, ha, hg⟩ := (w.store.evaluate_allowed_iff p A.id x ctx (by simp [hancA])).1 hA
  exact (w.store.evaluate_allowed_iff p R.id x ctx (by simp [hancR])).2
    ⟨by simp [hR], a, chain_mono hancR hancA hsub a ha, hg⟩

def liveChainRun : List Request :=
  [.createResource (lit "org") (lit "o") none [],
   .createResource (lit "folder") (lit "f") (some 1) [],
   .createResource (lit "doc") (lit "d") (some 3) [],
   .createPermission (lit "read") [] [],
   .createRole (lit "reader") [] [] [7],
   .createPolicy 1 [aliceBinding 10]]

def liveChainWorld : World := (runRequests Env.reliable liveChainRun (World.init .noop)).2

theorem reachable_live_ancestor_grants_liveChain :
    Reachable Env.reliable (fun _ _ => True) liveChainWorld ∧
    liveChainWorld.store.resourceGetByID 5 = some ⟨5, lit "doc", lit "d", some 3, []⟩ ∧
    Relation.ReflTransGen liveChainWorld.store.LiveStep ⟨5, lit "doc", lit "d", some 3, []⟩
      ⟨1, lit "org", lit "o", none, []⟩ ∧
    (liveChainWorld.store.evaluate (lit "alice") 1 (lit "read") []).allowed = true ∧
    (liveChainWorld.store.evaluate (lit "alice") 5 (lit "read") []).allowed = true :=
  have hreach : Reachable Env.reliable (fun _ _ => True) liveChainWorld :=
    Reachable.runRequests (fun _ _ => trivial) liveChainRun (.init .noop 0)
  have hR :
      liveChainWorld.store.resourceGetByID 5 = some ⟨5, lit "doc", lit "d", some 3, []⟩ := by
    decide
  have hpath : Relation.ReflTransGen liveChainWorld.store.LiveStep
      ⟨5, lit "doc", lit "d", some 3, []⟩ ⟨1, lit "org", lit "o", none, []⟩ :=
    .tail (.single (b := ⟨3, lit "folder", lit "f", some 1, []⟩) (by decide)) (by decide)
  have hA : (liveChainWorld.store.evaluate (lit "alice") 1 (lit "read") []).allowed = true := by
    decide
  ⟨hreach, hR, hpath, hA, reachable_live_ancestor_grants Env.reliable (fun _ _ => True)
    liveChainWorld hreach (lit "alice") (lit "read") [] ⟨5, lit "doc", lit "d", some 3, []⟩
    ⟨1, lit "org", lit "o", none, []⟩ hR hpath hA⟩

/-! ## A deleted link -/

/--
Resources `1`, `3` below it and `5` below that; permission `7` named `read`,
role `10` holding it, a policy of `1` giving the role to `alice`; then `3`
is deleted.
-/
def chainRun : List Request := liveChainRun ++ [.deleteResource 3]

/--
After `chainRun`, resource `5` still reaches `1` through `parent_id`, both
are live, `1` grants and `5` does not.
-/
theorem deleted_link_cuts_inheritance :
    ∃ w, Reachable Env.reliable (fun _ _ => True) w ∧
      Relation.TransGen w.store.ParentOf 5 1 ∧
      (w.store.resourceGetByID 5).isSome ∧ (w.store.resourceGetByID 1).isSome ∧
      (w.store.evaluate (lit "alice") 1 (lit "read") []).allowed = true ∧
      (w.store.evaluate (lit "alice") 5 (lit "read") []).allowed = false :=
  ⟨_, Reachable.runRequests (fun _ _ => trivial) chainRun (.init .noop 0),
    .tail (b := 3) (.single (by decide)) (by decide), by decide⟩

/-! ## No inheritance upward -/

theorem Store.eq_or_transGen_of_mem_chain (s : Store) {A a : UUID} (ha : a ∈ s.repos.chain A) :
    a = A ∨ Relation.TransGen s.ParentOf A a := by
  simp only [Repos.chain, repos, List.mem_cons, List.mem_map] at ha
  rcases ha with rfl | ⟨y, hy, rfl⟩
  · exact .inl rfl
  right
  unfold getAncestors at hy
  cases hrow : s.resources.find? (·.val.id == A) with
  | none => simp [hrow] at hy
  | some row =>
    cases hl : s.parentChain s.resources.length row.val.parentID with
    | none => simp [hrow, hl] at hy
    | some l =>
      simp only [hrow, hl, Option.map_some', Option.getD_some, List.mem_filter] at hy
      have hA : row.val.id = A := by simpa using List.find?_some hrow
      have hm : row.val ∈ s.resourceVals :=
        List.mem_map.2 ⟨row, List.mem_of_find?_eq_some hrow, rfl⟩
      rw [← hA]
      exact transGen_liveStep_parentOf hm (mem_of_chain_liveStep (chain_of_parentChain hl) hy.1)

/--
In every reachable world a grant does not travel up the resource tree: when
every resource whose policy grants `x` to `p` lies below `A` along
`parent_id`, the uncached `CheckPermission(p, A, x)` denies.
-/
theorem reachable_grants_not_upward (env : Env) (w : World) (h : Reachable env (FreshIDs env) w)
    (p x : GoString) (ctx : Context) (A : UUID)
    (hbelow : ∀ a, w.store.repos.GrantsAt evaluateCondition p x ctx a →
      Relation.TransGen w.store.ParentOf a A) :
    (w.store.evaluate p A x ctx).allowed = false := by
  have hs := h.wellFormed
  cases hA : (w.store.evaluate p A x ctx).allowed with
  | false => rfl
  | true =>
    obtain ⟨-, a, ha, hg⟩ :=
      (w.store.evaluate_allowed_iff p A x ctx (hs.acyclic.getAncestors_isSome A)).1 hA
    rcases w.store.eq_or_transGen_of_mem_chain ha with rfl | hup
    · exact absurd (hbelow a hg) (hs.acyclic a)
    · exact absurd (hup.trans (hbelow a hg)) (hs.acyclic A)

def leafGrantWorld : World :=
  (runRequests Env.reliable [.createPermission (lit "read") [] [],
    .createRole (lit "reader") [] [] [7], .createPolicy 5 [aliceBinding 10]] hierarchyWorld).2

theorem reachable_grants_not_upward_leaf :
    (leafGrantWorld.store.evaluate (lit "alice") 5 (lit "read") []).allowed = true ∧
    (leafGrantWorld.store.evaluate (lit "alice") 1 (lit "read") []).allowed = false := by
  have hreach : Reachable Env.reliable (FreshIDs Env.reliable) leafGrantWorld :=
    ((hierarchyWorld_reachable.step (.createPermission (lit "read") [] [])
      (.of_draws rfl trivial)).step
      (.createRole (lit "reader") [] [] [7]) (.of_draws rfl trivial)).step
      (.createPolicy 5 [aliceBinding 10]) ⟨by decide, trivial⟩
  have hpol : leafGrantWorld.store.policies.map (·.val.resourceID) = [5] := by decide
  have h51 : Relation.TransGen leafGrantWorld.store.ParentOf 5 1 :=
    .tail (b := 3) (.single (by decide)) (by decide)
  refine ⟨by decide, reachable_grants_not_upward Env.reliable leafGrantWorld hreach (lit "alice")
    (lit "read") [] 1 fun a hg => ?_⟩
  obtain ⟨P, hP, -⟩ := hg
  obtain ⟨row, hrow, -⟩ := Option.map_eq_some'.1 hP
  have hr : row.deleted = false ∧ row.val.resourceID = a := by simpa using List.find?_some hrow
  have h5 : row.val.resourceID ∈ [(5 : UUID)] :=
    hpol ▸ List.mem_map_of_mem _ (List.mem_of_find?_eq_some hrow)
  rw [← hr.2, List.mem_singleton.1 h5]
  exact h51

/-! ## Sound, not complete -/

/-- Every name of the lists comes from a binding naming `p` on `chain`: a permission of its
role, or the role's name. -/
def EffectiveSound (repos : Repos) (p : GoString) (chain : List UUID)
    (names : List GoString × List GoString) : Prop :=
  (∀ x ∈ names.1, ∃ role, repos.MemberRole p chain role ∧
    ∃ perm ∈ role.permissions, perm.name = x) ∧
  ∀ n ∈ names.2, ∃ role, repos.MemberRole p chain role ∧ role.name = n

theorem effectiveSound_collectBindings {repos : Repos} {p : GoString} {chain : List UUID}
    {a : UUID} {P : Policy} (ha : a ∈ chain) (hP : repos.policy a = some P)
    {names : List GoString × List GoString} (h : EffectiveSound repos p chain names) :
    EffectiveSound repos p chain (collectBindings p P.bindings names) := by
  refine ⟨fun x hx => ?_, fun n hn => ?_⟩
  · rcases (mem_collectBindings p P.bindings names x).1.1 hx with hx | ⟨role, hrole, hperm⟩
    · exact h.1 x hx
    · exact ⟨role, ⟨a, ha, P, hP, hrole⟩, hperm⟩
  · rcases (mem_collectBindings p P.bindings names n).2.1 hn with hn | ⟨role, hrole, hname⟩
    · exact h.2 n hn
    · exact ⟨role, ⟨a, ha, P, hP, hrole⟩, hname⟩

open Prog in
theorem sat_collectChain_sound (s : Store) (p : GoString) (chain : List UUID) :
    ∀ (rest : List UUID), rest ⊆ chain → ∀ {names : List GoString × List GoString},
      EffectiveSound s.repos p chain names →
      Sat s.Reads (fun c => c.writesStore = false) (EffectiveSound s.repos p chain)
        (collectChain p rest names)
  | [], _, _, h => h
  | a :: rest, hsub, _, h => by
    simp only [collectChain, PolicyRepository.getByResourceID, lift, call_bind, sat_call]
    have hrest : rest ⊆ chain := fun b hb => hsub (List.mem_cons_of_mem _ hb)
    refine ⟨rfl, fun r hr => ?_⟩
    rcases r with _ | _ | policy
    · exact sat_collectChain_sound s p chain rest hrest h
    · exact sat_collectChain_sound s p chain rest hrest h
    · exact sat_collectChain_sound s p chain rest hrest
        (effectiveSound_collectBindings (hsub (List.mem_cons_self _ _)) (hr _ rfl).symm h)

open Prog in
theorem sat_getEffectivePermissions_sound (s : Store) (p : GoString) (r : UUID) :
    Sat s.Reads (fun c => c.writesStore = false)
      (fun res => ∀ names, res = .ok names → (s.resourceGetByID r).isSome ∧
        (s.getAncestors r).isSome ∧ EffectiveSound s.repos p (s.repos.chain r) names)
      (getEffectivePermissions p r) := by
  simp only [getEffectivePermissions, ResourceRepository.getByID, ResourceRepository.getAncestors,
    lift, call_bind, sat_call]
  refine ⟨rfl, fun res hres => ?_⟩
  rcases res with _ | _ | resource
  · exact fun _ h => nomatch h
  · exact fun _ h => nomatch h
  refine ⟨rfl, fun anc hanc => ?_⟩
  rcases anc with _ | ancestors
  · exact fun _ h => nomatch h
  have hl : s.getAncestors r = some ancestors := hanc _ rfl
  have hchain : s.repos.chain r = r :: ancestors.map (·.id) := by
    simp [Repos.chain, Store.repos, hl]
  refine (sat_collectChain_sound s p _ _ (List.Subset.refl _) ⟨by simp, by simp⟩).bind
    fun names hn _ h => ?_
  cases h
  refine ⟨by rw [← hres _ rfl]; rfl, by rw [hl]; rfl, ?_⟩
  rw [hchain]
  exact hn

/--
Whatever its calls return, failed calls included, a `GetEffectivePermissions`
that succeeds returns only what the store grants: every permission is one
that the uncached check grants on the store in every context, and every role
is given to the principal by a binding on the resource or an ancestor.  It is
not complete: a policy read that fails is skipped, and the call still
succeeds.
-/
theorem getEffectivePermissions_sound (env : Env) (w : World) (p : GoString) (r : UUID)
    (perms roles : List GoString)
    (h : ((getEffectivePermissions p r).exec env w).1 = .ok (perms, roles)) :
    (∀ x ∈ perms, ∀ ctx, (w.store.evaluate p r x ctx).allowed = true) ∧
      ∀ n ∈ roles, ∃ role, w.store.repos.MemberRole p (w.store.repos.chain r) role ∧
        role.name = n := by
  -- the calls only read, so each reply that succeeds is what `w.store` holds
  obtain ⟨hres, hanc, hsound⟩ := Prog.Sat.exec_post_inv
    (fun w' c hc (hw' : w'.store = w.store) => (World.perform_store env w' c hc).trans hw')
    (fun w' c hw' => hw' ▸ World.perform_reads env w' c)
    (sat_getEffectivePermissions_sound w.store p r) rfl _ h
  refine ⟨fun x hx ctx => (w.store.evaluate_allowed_iff p r x ctx hanc).2 ⟨hres, ?_⟩, hsound.2⟩
  obtain ⟨role, ⟨a, ha, P, hP, b, hb, hm, hrole⟩, perm, hperm, rfl⟩ := hsound.1 x hx
  exact ⟨a, ha, P, hP, b, hb, (b.grants_evaluateCondition p _ ctx).2 ⟨hm, role, hrole, perm, hperm,
    rfl⟩⟩

/-- The connection fails at the read of resource `5`'s policy, the third call from
`leafGrantWorld`. -/
def policyReadFails : Env := { Env.reliable with fails := fun n => n == leafGrantWorld.tick + 2 }

theorem getEffectivePermissions_sound_leaf :
    ((getEffectivePermissions (lit "alice") 5).exec policyReadFails leafGrantWorld).1 =
      .ok ([], []) ∧
    ((getEffectivePermissions (lit "alice") 5).exec Env.reliable leafGrantWorld).1 =
      .ok ([lit "read"], [lit "reader"]) ∧
    (∀ x ∈ [lit "read"], ∀ ctx,
      (leafGrantWorld.store.evaluate (lit "alice") 5 x ctx).allowed = true) ∧
    ∀ n ∈ [lit "reader"], ∃ role, leafGrantWorld.store.repos.MemberRole (lit "alice")
      (leafGrantWorld.store.repos.chain 5) role ∧ role.name = n :=
  have h : ((getEffectivePermissions (lit "alice") 5).exec Env.reliable leafGrantWorld).1 =
      .ok ([lit "read"], [lit "reader"]) := by rfl
  ⟨by rfl, h, getEffectivePermissions_sound _ _ _ _ _ _ h⟩

end Iam

import Iam.Properties.Ancestry
import Iam.Repository.Descendants

/-!
# The hierarchy reads in every reachable world

With fresh ids every reachable resource table is well formed: unique ids,
held parents, no cycle.  So `GetDescendants` ends on every id and lists, each
once, what repeated `GetChildren` reaches from the row of the id, live or
soft-deleted; and `GetResourceHierarchy` of a live resource returns two
disjoint lists that mirror each other.
-/

namespace Iam

theorem Reachable.wellFormed {env : Env} {w : World} (h : Reachable env (FreshIDs env) w) :
    w.store.WellFormed :=
  h.store_inv Store.empty_wellFormed fun w req hfresh => exec_wellFormed env w req hfresh

/--
With fresh ids, in every reachable world `GetDescendants` ends on every id,
repeats no row, and lists exactly the rows that repeated `GetChildren` reaches
from a row of the id, live or soft-deleted.
-/
theorem reachable_getDescendants (env : Env) (w : World) (h : Reachable env (FreshIDs env) w)
    (id : UUID) :
    ∃ D, w.store.getDescendants id = some D ∧ D.Nodup ∧
      ∀ x, x ∈ D ↔
        ∃ d ∈ w.store.resourceVals, d.id = id ∧ Relation.TransGen w.store.ChildOf d x := by
  have hs := h.wellFormed
  obtain ⟨D, hD⟩ := Option.isSome_iff_exists.1 (hs.acyclic.getDescendants_isSome id)
  exact ⟨D, hD, hs.getDescendants_nodup hD, hs.acyclic.mem_getDescendants hD⟩

theorem reachable_getDescendants_org :
    hierarchyWorld.store.getDescendants 1 =
      some [⟨3, lit "folder", lit "f", some 1, []⟩, ⟨5, lit "doc", lit "d", some 3, []⟩] ∧
    ∃ D, hierarchyWorld.store.getDescendants 1 = some D ∧ D.Nodup ∧
      ∀ x, x ∈ D ↔ ∃ d ∈ hierarchyWorld.store.resourceVals, d.id = 1 ∧
        Relation.TransGen hierarchyWorld.store.ChildOf d x :=
  ⟨by decide, reachable_getDescendants Env.reliable hierarchyWorld hierarchyWorld_reachable 1⟩

/--
With fresh ids, in every reachable world `GetResourceHierarchy` of a live
resource `y` succeeds with ancestors `A` and descendants `D`: neither repeats a
row or holds `y`, no row is in both, and a live resource is in `D` exactly
when `GetAncestors` of it lists `y`.
-/
theorem reachable_resourceHierarchy (env : Env) (w : World) (h : Reachable env (FreshIDs env) w)
    (y : Resource) (hy : w.store.resourceGetByID y.id = some y) :
    ∃ A D, w.store.getResourceHierarchy y.id = .ok (A, D) ∧ A.Nodup ∧ D.Nodup ∧ y ∉ A ∧
      y ∉ D ∧ (∀ x ∈ A, x ∉ D) ∧
      ∀ x, w.store.resourceGetByID x.id = some x →
        (x ∈ D ↔ ∃ Ax, w.store.getAncestors x.id = some Ax ∧ y ∈ Ax) :=
  h.wellFormed.getResourceHierarchy_spec hy

theorem reachable_resourceHierarchy_folder :
    hierarchyWorld.store.resourceGetByID 3 = some ⟨3, lit "folder", lit "f", some 1, []⟩ ∧
    hierarchyWorld.store.getResourceHierarchy 3 =
      .ok ([⟨1, lit "org", lit "o", none, []⟩], [⟨5, lit "doc", lit "d", some 3, []⟩]) ∧
    ∃ A D, hierarchyWorld.store.getResourceHierarchy 3 = .ok (A, D) ∧ A.Nodup ∧ D.Nodup ∧
      ⟨3, lit "folder", lit "f", some 1, []⟩ ∉ A ∧ ⟨3, lit "folder", lit "f", some 1, []⟩ ∉ D ∧
      (∀ x ∈ A, x ∉ D) ∧
      ∀ x, hierarchyWorld.store.resourceGetByID x.id = some x →
        (x ∈ D ↔ ∃ Ax, hierarchyWorld.store.getAncestors x.id = some Ax ∧
          ⟨3, lit "folder", lit "f", some 1, []⟩ ∈ Ax) :=
  ⟨by decide, rfl, reachable_resourceHierarchy Env.reliable hierarchyWorld
    hierarchyWorld_reachable ⟨3, lit "folder", lit "f", some 1, []⟩ (by decide)⟩

end Iam

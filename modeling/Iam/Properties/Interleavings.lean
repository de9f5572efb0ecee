import Iam.Properties.HierarchyReads
import Iam.Properties.PolicyInvariants
import Iam.Runtime.Schedule

/-!
# Writes under interleaving

Run call by call, requests interleave.  Each call is atomic, but the
resource tree needs more than what one call keeps, since `UpdateResource`
loads a row, lets other requests write, and saves the row
later.  Rows are never removed, and while no binding carries a `Policy` a
row's parent never changes, so the parent link of a loaded row is still in
the table when it is saved
(`Store.KeepsLinks`).  What a thread may still do is stated against every
later world (`TreeSafe`), so that the steps of other threads keep it; the
table then stays well formed under every interleaving.
-/

namespace Iam

open Prog

/-! ## Worlds that keep the parent links -/

def Store.KeepsLinks (s s' : Store) : Prop :=
  ∀ r ∈ s.resourceVals, ∃ r' ∈ s'.resourceVals, r'.id = r.id ∧ r'.parentID = r.parentID

def World.Precedes (w w' : World) : Prop := w.tick ≤ w'.tick ∧ w.store.KeepsLinks w'.store

theorem Store.keepsLinks_refl (s : Store) : s.KeepsLinks s := fun r hr => ⟨r, hr, rfl, rfl⟩

theorem Store.KeepsLinks.trans {s₁ s₂ s₃ : Store} (h₁ : s₁.KeepsLinks s₂)
    (h₂ : s₂.KeepsLinks s₃) : s₁.KeepsLinks s₃ := fun r hr =>
  let ⟨r₂, hr₂, hid₂, hp₂⟩ := h₁ r hr
  let ⟨r₃, hr₃, hid₃, hp₃⟩ := h₂ r₂ hr₂
  ⟨r₃, hr₃, hid₃.trans hid₂, hp₃.trans hp₂⟩

theorem World.Precedes.trans {w₁ w₂ w₃ : World} (h₁ : w₁.Precedes w₂) (h₂ : w₂.Precedes w₃) :
    w₁.Precedes w₃ := ⟨h₁.1.trans h₂.1, h₁.2.trans h₂.2⟩

/-! ## Threads that keep the table well formed -/

/--
A call that keeps the table well formed: an inserted row is not its own
parent, a saved row has the id and the parent of a row.
-/
def Store.TreeCall (s : Store) : Call → Prop
  | .resourceCreate r => r.parentID ≠ some r.id
  | .resourceUpdate r => ∃ row ∈ s.resourceVals, row.id = r.id ∧ row.parentID = r.parentID
  | .bindingCreate b => b.policy = none
  | _ => True

/--
The replies of a call made in `w`: `uuid.New()` draws at a call before `T`,
and a loaded resource is a row.
-/
def World.MayReply (env : Env) (T : Nat) (w : World) : (c : Call) → c.Reply → Prop
  | .newUUID, u => ∃ t, w.tick ≤ t ∧ t < T ∧ u = env.uuid t
  | .resourceGetByID _, v => ∀ o, v = .ok (some o) → o ∈ w.store.resourceVals
  | _, _ => True

/--
From `w` on, whatever runs between its calls, every call of the thread keeps
the table well formed.
-/
def TreeSafe (env : Env) (T : Nat) {α : Type} : World → Prog α → Prop
  | _, .pure _ => True
  | w, .call c k => w.store.TreeCall c ∧
      ∀ w', w.Precedes w' → ∀ r, w'.MayReply env T c r → TreeSafe env T w' (k r)

section TreeSafe

variable {env : Env} {T : Nat} {α β : Type}

@[simp] theorem treeSafe_pure (w : World) (a : α) : TreeSafe env T w (Prog.pure a) ↔ True :=
  Iff.rfl

@[simp] theorem treeSafe_call (w : World) (c : Call) (k : c.Reply → Prog α) :
    TreeSafe env T w (Prog.call c k) ↔ w.store.TreeCall c ∧
      ∀ w', w.Precedes w' → ∀ r, w'.MayReply env T c r → TreeSafe env T w' (k r) := Iff.rfl

@[simp] theorem treeSafe_map_iff (f : α → β) {x : Prog α} {w : World} :
    TreeSafe env T w (f <$> x) ↔ TreeSafe env T w x := by
  induction x generalizing w with
  | pure a => exact Iff.rfl
  | call c k ih =>
    exact and_congr Iff.rfl (forall₂_congr fun _ _ => forall₂_congr fun r _ => ih r)

theorem Store.TreeCall.mono {s s' : Store} {c : Call} (h : s.TreeCall c) (hl : s.KeepsLinks s') :
    s'.TreeCall c := by
  cases c
  case resourceUpdate r =>
    obtain ⟨row, hrow, hid, hp⟩ := h
    obtain ⟨row', hrow', hid', hp'⟩ := hl row hrow
    exact ⟨row', hrow', hid'.trans hid, hp'.trans hp⟩
  all_goals exact h

theorem TreeSafe.mono {w w' : World} {x : Prog α} (h : TreeSafe env T w x) (hw : w.Precedes w') :
    TreeSafe env T w' x := by
  cases x with
  | pure a => trivial
  | call c k => exact ⟨h.1.mono hw.2, fun w'' h'' => h.2 w'' (hw.trans h'')⟩

theorem treeSafe_of_only {w : World} {x : Prog α}
    (h : Only (fun c => c.changesParents = false) x) : TreeSafe env T w x := by
  induction x generalizing w with
  | pure a => trivial
  | call c k ih =>
    refine ⟨?_, fun w' _ r _ => ih r (h.2 r)⟩
    cases c
    case bindingCreate b => simpa [Call.changesParents] using h.1
    all_goals first | trivial | cases h.1

theorem treeSafe_createResource {w : World} (t n : GoString) (parent : Option UUID)
    (a : StringMap) (hfresh : ∀ t, w.tick ≤ t → t < T → some (env.uuid t) ≠ parent) :
    TreeSafe env T w (Request.createResource t n parent a).prog := by
  simp only [Request.prog, Iam.createResource, ResourceRepository.create, Resource.beforeCreate,
    freshID, newUUID, lift, if_pos, call_bind, Prog.pure_eq, Prog.pure_bind, treeSafe_map_iff,
    treeSafe_call]
  refine ⟨trivial, fun w' hw' _ ⟨t, ht, htT, hu⟩ => ⟨fun hp => ?_, fun _ _ r _ => ?_⟩⟩
  · exact hfresh t (hw'.1.trans ht) htT (hu ▸ hp.symm)
  · cases r <;> trivial

theorem treeSafe_updateResource {w : World} (id : UUID) (n : GoString) (a : StringMap) :
    TreeSafe env T w (Request.updateResource id n a).prog := by
  simp only [Request.prog, Iam.updateResource, ResourceRepository.getByID,
    ResourceRepository.update, lift, call_bind, Prog.pure_eq, Prog.pure_bind, treeSafe_map_iff,
    treeSafe_call]
  refine ⟨trivial, fun w' _ v hv => ?_⟩
  rcases v with _ | _ | row
  · trivial
  · trivial
  · exact ⟨⟨row, hv row rfl, rfl, rfl⟩, fun _ _ r _ => by cases r <;> trivial⟩

end TreeSafe

/--
No id drawn in `[lo, hi)` is a parent a `CreateResource` names, and no
binding carries a `Policy`, whose resources GORM saves under the ids given.
-/
def Request.FreshIDsWithin (env : Env) (lo hi : Nat) : Request → Prop
  | .createResource _ _ (some parent) _ => ∀ t, lo ≤ t → t < hi → env.uuid t ≠ parent
  | req => req.NoPolicyAssoc

theorem Request.treeSafe {env : Env} {T : Nat} {w : World} (req : Request)
    (hfresh : req.FreshIDsWithin env w.tick T) : TreeSafe env T w req.prog := by
  cases req
  case createResource t n parent a =>
    refine treeSafe_createResource t n parent a fun t ht htT hp => ?_
    cases parent
    · cases hp
    · exact hfresh t ht htT (Option.some.inj hp)
  case updateResource id n a => exact treeSafe_updateResource id n a
  all_goals exact treeSafe_of_only (only_keepsParents _ rfl hfresh)

/-! ## Steps and runs -/

namespace World

variable (env : Env) (w : World)

theorem perform_treeCall {c : Call} (hs : w.store.WellFormed) (hc : w.store.TreeCall c) :
    (w.perform env c).2.store.WellFormed ∧ w.store.KeepsLinks (w.perform env c).2.store := by
  cases hpc : c.changesParents
  · have hv := perform_resourceVals env w hpc
    exact ⟨hs.of_resourceVals_eq hv, fun r hr => ⟨r, hv ▸ hr, rfl, rfl⟩⟩
  cases c <;> simp only [Call.changesParents, Bool.false_eq_true] at hpc
  case bindingCreate b => simp [show b.policy = none from hc] at hpc
  case resourceCreate r =>
    simp only [perform]
    rcases write_store env w (w.store.resourceCreate r) with h | h
    · rw [h]; exact ⟨hs, Store.keepsLinks_refl _⟩
    refine ⟨hs.resourceCreate hc h, fun x hx => ⟨x, ?_, rfl, rfl⟩⟩
    rw [(Store.resourceCreate_inv h).1]
    exact List.mem_append_left _ hx
  case resourceUpdate r =>
    simp only [perform]
    rcases write_store env w (w.store.resourceUpdate r) with h | h
    · rw [h]; exact ⟨hs, Store.keepsLinks_refl _⟩
    obtain ⟨row, hrow, hid, hp⟩ := hc
    refine ⟨hs.resourceUpdate hrow hid hp h, fun x hx => ?_⟩
    have hmem : r.id ∈ w.store.resourceVals.map Resource.id := List.mem_map.2 ⟨row, hrow, hid⟩
    rw [(Store.resourceUpdate_inv h).1, if_pos hmem]
    by_cases hxr : x.id = r.id
    · obtain rfl := Store.IdsUnique.eq_of_id_eq hs.ids_nodup hx hrow (hxr.trans hid.symm)
      exact ⟨r, List.mem_map.2 ⟨x, hx, if_pos hxr⟩, hid.symm, hp.symm⟩
    · exact ⟨x, List.mem_map.2 ⟨x, hx, if_neg hxr⟩, rfl, rfl⟩

theorem mayReply_perform {T : Nat} (hT : w.tick < T) (c : Call) :
    w.MayReply env T c (w.perform env c).1 := by
  cases c
  case newUUID => exact ⟨w.tick, le_rfl, hT, rfl⟩
  case resourceGetByID id =>
    intro o h
    simp only [perform] at h
    exact List.mem_map.2 ⟨_, (Table.live_eq_some (read_eq_ok env w h).symm).1, rfl⟩
  all_goals trivial

end World

section Runs

variable {env : Env} {T : Nat}

theorem stepThread_treeSafe {w w' : World} {ts ts' : Threads} {i : Nat} (hT : w.tick < T)
    (hs : w.store.WellFormed) (hts : ∀ t ∈ ts, TreeSafe env T w t)
    (h : stepThread env w ts i = some (w', ts')) :
    w'.store.WellFormed ∧ ∀ t ∈ ts', TreeSafe env T w' t := by
  obtain ⟨c, k, hi, rfl, rfl⟩ := stepThread_eq_some h
  obtain ⟨hc, hk⟩ := hts _ (List.get?_mem hi)
  obtain ⟨hwf, hkeep⟩ := World.perform_treeCall env w hs hc
  have hpre : w.Precedes (w.perform env c).2 := ⟨by rw [World.perform_tick]; omega, hkeep⟩
  refine ⟨hwf, fun t ht => ?_⟩
  rcases List.mem_or_eq_of_mem_set ht with ht | rfl
  · exact (hts t ht).mono hpre
  · exact (hk w ⟨le_rfl, Store.keepsLinks_refl _⟩ _ (World.mayReply_perform env w hT c)).mono hpre

theorem runSchedule_treeSafe {w w' : World} {ts ts' : Threads} {sched : List Nat}
    (hT : w.tick + sched.length ≤ T) (hs : w.store.WellFormed)
    (hts : ∀ t ∈ ts, TreeSafe env T w t) (h : runSchedule env w ts sched = some (w', ts')) :
    w'.store.WellFormed := by
  have hrun := runSchedule_inv
    (fun w ts => w.tick ≤ T → w.store.WellFormed ∧ ∀ t ∈ ts, TreeSafe env T w t)
    (fun w ts i w' ts' hinv hstep hle => by
      obtain ⟨c, k, -, rfl, -⟩ := stepThread_eq_some hstep
      rw [World.perform_tick] at hle
      obtain ⟨hs, hts⟩ := hinv (by omega)
      exact stepThread_treeSafe (by omega) hs hts hstep)
    sched (fun _ => ⟨hs, hts⟩) h
  exact (hrun (by rw [runSchedule_tick sched h]; exact hT)).1

end Runs

/--
From every reachable world, every interleaving of any requests keeps the
resource table well formed, as long as no id `uuid.New()` draws during the
run is a parent a `CreateResource` names: unique ids, held parents and no
cycle, so both ancestor walks and the descendant query end on every id.
-/
theorem interleaved_wellFormed (env : Env) (w : World) (hw : Reachable env (FreshIDs env) w)
    (reqs : List Request) (sched : List Nat)
    (hfresh : ∀ req ∈ reqs, req.FreshIDsWithin env w.tick (w.tick + sched.length))
    (w' : World) (ts : Threads)
    (h : runSchedule env w (reqs.map Request.prog) sched = some (w', ts)) :
    w'.store.WellFormed ∧ (∀ id, (w'.store.getAncestors id).isSome) ∧
      ∀ id, (w'.store.getDescendants id).isSome := by
  have hs : w'.store.WellFormed := runSchedule_treeSafe le_rfl hw.wellFormed
    (fun t ht => by
      obtain ⟨req, hreq, rfl⟩ := List.mem_map.1 ht
      exact req.treeSafe (hfresh req hreq)) h
  exact ⟨hs, hs.acyclic.getAncestors_isSome, hs.acyclic.getDescendants_isSome⟩

def raceRun : List Request :=
  [.updateResource 3 (lit "team") [], .createResource (lit "doc") (lit "e") (some 3) []]

theorem interleaved_wellFormed_race :
    ∃ w' ts, runSchedule Env.reliable hierarchyWorld (raceRun.map Request.prog) [0, 1, 1, 0] =
      some (w', ts) ∧ w'.store.WellFormed ∧ (∀ id, (w'.store.getAncestors id).isSome) ∧
      ∀ id, (w'.store.getDescendants id).isSome :=
  ⟨_, _, rfl, interleaved_wellFormed Env.reliable hierarchyWorld hierarchyWorld_reachable raceRun
    [0, 1, 1, 0] (by
      simp only [raceRun, List.mem_cons, List.mem_nil_iff, or_false]
      rintro _ (rfl | rfl) <;> unfold Request.FreshIDsWithin <;> decide) _ _ rfl⟩

end Iam

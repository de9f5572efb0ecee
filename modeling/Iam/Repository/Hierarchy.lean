import Iam.Repository.Associations
import Mathlib.Data.List.Chain
import Mathlib.Data.List.Nodup
import Mathlib.Data.List.Perm.Subperm

/-!
# The parent hierarchy

`parent_id` as a relation over all resource rows, live or soft-deleted, and
the two walks that follow it upwards: the recursive query of
`resourceRepository.GetAncestors` (`parentChain`) and the loop of
`Resource.GetAncestors` (`walkParents`).  Both step from a resource to its
live parent and list what they pass, nearest first.  Where the relation has
no cycle the rows a walk passes have distinct ids, so one unit of fuel per
row is enough and neither walk runs forever.
-/

namespace Iam

theorem Table.live_eq_some {α : Type} {key : α → UUID} {rows : List (Row α)} {id : UUID}
    {v : α} (h : Table.live key rows id = some v) : ⟨v, false⟩ ∈ rows ∧ key v = id := by
  obtain ⟨⟨v, d⟩, hfind, rfl⟩ := Option.map_eq_some'.1 h
  have hp := List.find?_some hfind
  simp only [Bool.and_eq_true, Bool.not_eq_true', beq_iff_eq] at hp
  obtain ⟨rfl, hkey⟩ := hp
  exact ⟨List.mem_of_find?_eq_some hfind, hkey⟩

namespace Store

variable (s : Store)

def resourceVals : List Resource := s.resources.map (·.val)

def ParentOf (a b : UUID) : Prop := ∃ r ∈ s.resourceVals, r.id = a ∧ r.parentID = some b

instance (a b : UUID) : Decidable (s.ParentOf a b) :=
  inferInstanceAs (Decidable (∃ r ∈ s.resourceVals, r.id = a ∧ r.parentID = some b))

def Acyclic : Prop := ∀ a, ¬ Relation.TransGen s.ParentOf a a

def liveParent (r : Resource) : Option Resource :=
  r.parentID.bind (Table.live Resource.id s.resources)

def LiveStep (a b : Resource) : Prop := s.liveParent a = some b

instance (a b : Resource) : Decidable (s.LiveStep a b) :=
  inferInstanceAs (Decidable (s.liveParent a = some b))

variable {s}

theorem mem_resourceVals_of_liveStep {a b : Resource} (h : s.LiveStep a b) :
    b ∈ s.resourceVals := by
  obtain ⟨q, -, hq⟩ := Option.bind_eq_some.1 h
  exact List.mem_map.2 ⟨_, (Table.live_eq_some hq).1, rfl⟩

theorem parentOf_of_liveStep {a b : Resource} (ha : a ∈ s.resourceVals) (h : s.LiveStep a b) :
    s.ParentOf a.id b.id := by
  obtain ⟨q, hq, hlive⟩ := Option.bind_eq_some.1 h
  exact ⟨a, ha, rfl, by rw [hq, (Table.live_eq_some hlive).2]⟩

theorem parentChain_of_liveParent_none {f : Nat} {r : Resource} (h : s.liveParent r = none) :
    s.parentChain f r.parentID = some [] := by
  unfold liveParent at h
  cases hq : r.parentID with
  | none => simp only [parentChain]
  | some q => rw [hq, Option.some_bind] at h; simp only [parentChain, h]

theorem parentChain_zero_of_liveParent {r p : Resource} (h : s.liveParent r = some p) :
    s.parentChain 0 r.parentID = none := by
  obtain ⟨q, hq, hp⟩ := Option.bind_eq_some.1 h
  simp only [hq, parentChain, hp]

theorem parentChain_succ_of_liveParent {f : Nat} {r p : Resource} (h : s.liveParent r = some p) :
    s.parentChain (f + 1) r.parentID = (s.parentChain f p.parentID).map (p :: ·) := by
  obtain ⟨q, hq, hp⟩ := Option.bind_eq_some.1 h
  simp only [hq, parentChain, hp]

theorem walkParents_map_fst (f : Nat) (r : Resource) :
    (s.walkParents f r).map Prod.fst = s.parentChain f r.parentID := by
  induction f generalizing r with
  | zero =>
    rw [walkParents]
    cases r.parentID with
    | none => rfl
    | some q => simp only [parentChain]; cases Table.live Resource.id s.resources q <;> rfl
  | succ f ih =>
    rw [walkParents]
    cases r.parentID with
    | none => rfl
    | some q =>
      simp only [parentChain]
      cases Table.live Resource.id s.resources q with
      | none => rfl
      | some p => simp only [Option.map_map, Function.comp_def, ← ih p]

theorem chain_of_parentChain {f : Nat} {r : Resource} {l : List Resource}
    (h : s.parentChain f r.parentID = some l) : List.Chain s.LiveStep r l := by
  induction f generalizing r l with
  | zero =>
    cases hp : s.liveParent r with
    | none => rw [parentChain_of_liveParent_none hp, Option.some.injEq] at h; exact h ▸ .nil
    | some p => simp [parentChain_zero_of_liveParent hp] at h
  | succ f ih =>
    cases hp : s.liveParent r with
    | none => rw [parentChain_of_liveParent_none hp, Option.some.injEq] at h; exact h ▸ .nil
    | some p =>
      obtain ⟨l', hl', rfl⟩ :=
        Option.map_eq_some'.1 ((parentChain_succ_of_liveParent hp).symm.trans h)
      exact .cons hp (ih hl')

theorem chain_of_parentChain_eq_none {f : Nat} {r : Resource}
    (h : s.parentChain f r.parentID = none) :
    ∃ l, List.Chain s.LiveStep r l ∧ l.length = f + 1 := by
  induction f generalizing r with
  | zero =>
    cases hp : s.liveParent r with
    | none => simp [parentChain_of_liveParent_none hp] at h
    | some p => exact ⟨[p], .cons hp .nil, rfl⟩
  | succ f ih =>
    cases hp : s.liveParent r with
    | none => simp [parentChain_of_liveParent_none hp] at h
    | some p =>
      rw [parentChain_succ_of_liveParent hp, Option.map_eq_none'] at h
      obtain ⟨l, hl, hlen⟩ := ih h
      exact ⟨p :: l, .cons hp hl, by simp [hlen]⟩

theorem parentChain_succ {f : Nat} {r : Resource} {l : List Resource}
    (h : s.parentChain f r.parentID = some l) : s.parentChain (f + 1) r.parentID = some l := by
  induction f generalizing r l with
  | zero =>
    cases hp : s.liveParent r with
    | none => rwa [parentChain_of_liveParent_none hp] at h ⊢
    | some p => simp [parentChain_zero_of_liveParent hp] at h
  | succ f ih =>
    cases hp : s.liveParent r with
    | none => rwa [parentChain_of_liveParent_none hp] at h ⊢
    | some p =>
      rw [parentChain_succ_of_liveParent hp, Option.map_eq_some'] at h ⊢
      obtain ⟨l', hl', rfl⟩ := h
      exact ⟨l', ih hl', rfl⟩

theorem mem_resourceVals_of_chain {r : Resource} {l : List Resource}
    (h : List.Chain s.LiveStep r l) : ∀ a ∈ l, a ∈ s.resourceVals := by
  induction h with
  | nil => simp
  | cons hstep _ ih =>
    simp only [List.mem_cons, forall_eq_or_imp]
    exact ⟨mem_resourceVals_of_liveStep hstep, ih⟩

theorem Acyclic.nodup_ids (hs : s.Acyclic) {l : List Resource} (hl : List.Chain' s.LiveStep l)
    (hst : ∀ a ∈ l, a ∈ s.resourceVals) : (l.map Resource.id).Nodup := by
  haveI : IsTrans Resource fun a b => Relation.TransGen s.ParentOf a.id b.id :=
    ⟨fun _ _ _ => Relation.TransGen.trans⟩
  have hR : List.Chain' (fun a b => Relation.TransGen s.ParentOf a.id b.id) l :=
    (List.Chain'.iff_mem.1 hl).imp fun a b ⟨ha, _, hab⟩ =>
      .single (parentOf_of_liveStep (hst a ha) hab)
  refine List.pairwise_map.2 ((List.chain'_iff_pairwise.1 hR).imp ?_)
  rintro a b hab (heq : a.id = b.id)
  rw [heq] at hab
  exact hs _ hab

theorem Acyclic.length_le (hs : s.Acyclic) {r : Resource} {l : List Resource}
    (h : List.Chain s.LiveStep r l) : l.length ≤ s.resources.length := by
  have hnd := List.Nodup.of_map Resource.id
    (hs.nodup_ids (show List.Chain' s.LiveStep (r :: l) from h).tail (mem_resourceVals_of_chain h))
  simpa [resourceVals] using (hnd.subperm (mem_resourceVals_of_chain h)).length_le

theorem Acyclic.parentChain_isSome (hs : s.Acyclic) (r : Resource) :
    ∃ l, s.parentChain s.resources.length r.parentID = some l := by
  cases h : s.parentChain s.resources.length r.parentID with
  | some l => exact ⟨l, rfl⟩
  | none =>
    obtain ⟨l, hl, hlen⟩ := chain_of_parentChain_eq_none h
    have := hs.length_le hl
    omega

theorem Acyclic.getAncestors_isSome (hs : s.Acyclic) (id : UUID) : (s.getAncestors id).isSome := by
  unfold getAncestors
  cases s.resources.find? (·.val.id == id) with
  | none => rfl
  | some row => obtain ⟨l, hl⟩ := hs.parentChain_isSome row.val; simp [hl]

theorem Acyclic.resource_getAncestors (hs : s.Acyclic) (r : Resource) :
    ∃ l e, r.getAncestors s = some (l, e) ∧ List.Chain s.LiveStep r l ∧ l.Nodup := by
  obtain ⟨l, hl⟩ := hs.parentChain_isSome r
  have hw := walkParents_map_fst (s := s) s.resources.length r
  rw [hl, Option.map_eq_some'] at hw
  obtain ⟨⟨l, e⟩, hw, rfl⟩ := hw
  have hc := chain_of_parentChain hl
  exact ⟨l, e, hw, hc, List.Nodup.of_map Resource.id
    (hs.nodup_ids (show List.Chain' s.LiveStep (r :: l) from hc).tail
      (mem_resourceVals_of_chain hc))⟩

/-! ## Whole walks

Without acyclicity a walk may go round a cycle of live rows.  The walk from
`r` is then infinite; when it is finite it is the `MaxWalk` from `r`, which
never repeats a row, so the query lists it within one unit of fuel per row.
-/

variable (s) in
inductive MaxWalk : Resource → List Resource → Prop
  | stop {r : Resource} : s.liveParent r = none → MaxWalk r []
  | step {r p : Resource} {l : List Resource} : s.liveParent r = some p → MaxWalk p l →
      MaxWalk r (p :: l)

theorem maxWalk_of_parentChain {f : Nat} {r : Resource} {l : List Resource}
    (h : s.parentChain f r.parentID = some l) : s.MaxWalk r l := by
  induction f generalizing r l with
  | zero =>
    cases hp : s.liveParent r with
    | none => rw [parentChain_of_liveParent_none hp, Option.some.injEq] at h; exact h ▸ .stop hp
    | some p => simp [parentChain_zero_of_liveParent hp] at h
  | succ f ih =>
    cases hp : s.liveParent r with
    | none => rw [parentChain_of_liveParent_none hp, Option.some.injEq] at h; exact h ▸ .stop hp
    | some p =>
      obtain ⟨l', hl', rfl⟩ :=
        Option.map_eq_some'.1 ((parentChain_succ_of_liveParent hp).symm.trans h)
      exact .step hp (ih hl')

theorem MaxWalk.parentChain {r : Resource} {l : List Resource} (h : s.MaxWalk r l) {f : Nat}
    (hf : l.length ≤ f) : s.parentChain f r.parentID = some l := by
  induction h generalizing f with
  | stop hp => exact parentChain_of_liveParent_none hp
  | step hp _ ih =>
    obtain ⟨g, rfl⟩ : ∃ g, f = g + 1 := ⟨f - 1, by simp at hf; omega⟩
    rw [parentChain_succ_of_liveParent hp, ih (by simpa using hf)]
    rfl

theorem MaxWalk.unique {r : Resource} {l₁ l₂ : List Resource} (h₁ : s.MaxWalk r l₁)
    (h₂ : s.MaxWalk r l₂) : l₁ = l₂ := by
  induction h₁ generalizing l₂ with
  | stop hp =>
    cases h₂ with
    | stop _ => rfl
    | step hp' _ => simp [hp] at hp'
  | step hp _ ih =>
    cases h₂ with
    | stop hp' => simp [hp] at hp'
    | step hp' h' =>
      cases hp.symm.trans hp'
      rw [ih h']

theorem MaxWalk.shorter {r x : Resource} {l : List Resource} (h : s.MaxWalk r l) (hx : x ∈ l) :
    ∃ l', s.MaxWalk x l' ∧ l'.length < l.length := by
  induction h with
  | stop _ => simp at hx
  | step _ hw ih =>
    rcases List.mem_cons.1 hx with rfl | hx
    · exact ⟨_, hw, by simp⟩
    · obtain ⟨l', h', hlen⟩ := ih hx
      exact ⟨l', h', by simp; omega⟩

theorem MaxWalk.nodup {r : Resource} {l : List Resource} (h : s.MaxWalk r l) : (r :: l).Nodup := by
  induction h with
  | stop _ => exact List.nodup_singleton _
  | step hp hw ih =>
    refine List.nodup_cons.2 ⟨fun hr => ?_, ih⟩
    obtain ⟨l', h', hlen⟩ := (MaxWalk.step hp hw).shorter hr
    rw [← (MaxWalk.step hp hw).unique h'] at hlen
    exact lt_irrefl _ hlen

theorem MaxWalk.mem_resourceVals {r : Resource} {l : List Resource} (h : s.MaxWalk r l) :
    ∀ a ∈ l, a ∈ s.resourceVals := by
  induction h with
  | stop _ => simp
  | step hp _ ih => exact List.forall_mem_cons.2 ⟨mem_resourceVals_of_liveStep hp, ih⟩

theorem MaxWalk.length_lt {r : Resource} {l : List Resource} (h : s.MaxWalk r l)
    (hr : r ∈ s.resourceVals) : l.length < s.resources.length := by
  have := (h.nodup.subperm (List.forall_mem_cons.2 ⟨hr, h.mem_resourceVals⟩)).length_le
  simpa [resourceVals] using this

theorem MaxWalk.of_reflTransGen {r a : Resource} {la : List Resource}
    (hra : Relation.ReflTransGen s.LiveStep r a) (ha : s.MaxWalk a la) :
    ∃ l, s.MaxWalk r l ∧ a :: la ⊆ r :: l := by
  induction hra using Relation.ReflTransGen.head_induction_on with
  | refl => exact ⟨la, ha, List.Subset.refl _⟩
  | head hstep _ ih =>
    obtain ⟨l, hl, hsub⟩ := ih
    exact ⟨_, .step hstep hl, hsub.trans (List.subset_cons_self _ _)⟩

theorem resourceGetByID_of_liveStep {a b : Resource} (h : s.LiveStep a b) :
    s.resourceGetByID b.id = some b := by
  obtain ⟨q, -, hq⟩ := Option.bind_eq_some.1 h
  rw [resourceGetByID, (Table.live_eq_some hq).2, hq]

variable (s) in
def IdsUnique : Prop := (s.resourceVals.map Resource.id).Nodup

theorem IdsUnique.getAncestors_eq {X : Resource} (hu : s.IdsUnique)
    (hX : s.resourceGetByID X.id = some X) :
    s.getAncestors X.id = (s.parentChain s.resources.length X.parentID).map
      (·.filter (·.id != X.id)) := by
  obtain ⟨hmem, -⟩ := Table.live_eq_some hX
  unfold getAncestors
  cases hf : s.resources.find? (·.val.id == X.id) with
  | none => simpa using List.find?_eq_none.1 hf _ hmem
  | some row =>
    have hid : row.val.id = X.id := by simpa using List.find?_some hf
    have hinj := List.inj_on_of_nodup_map (by simpa [IdsUnique, resourceVals] using hu)
      (List.mem_of_find?_eq_some hf) hmem hid
    rw [hinj]

/-! ## The invariant of the resource table -/

theorem holds_resources_iff {q : UUID} :
    Table.holds Resource.id s.resources q = true ↔ q ∈ s.resourceVals.map Resource.id := by
  simp [Table.holds, resourceVals]

variable (s)

def ParentsHeld : Prop :=
  ∀ r ∈ s.resourceVals, ∀ q, r.parentID = some q → q ∈ s.resourceVals.map Resource.id

structure WellFormed : Prop where
  ids_nodup : (s.resourceVals.map Resource.id).Nodup
  parents_held : s.ParentsHeld
  acyclic : s.Acyclic

variable {s}

theorem WellFormed.of_resourceVals_eq {s' : Store} (h : s'.resourceVals = s.resourceVals)
    (hs : s.WellFormed) : s'.WellFormed := by
  obtain ⟨h1, h2, h3⟩ := hs
  refine ⟨by rwa [h], by unfold ParentsHeld; rwa [h], ?_⟩
  unfold Acyclic ParentOf at *
  rwa [h]

theorem resourceCreate_inv {r : Resource} {s' : Store} (h : s.resourceCreate r = .ok s') :
    s'.resourceVals = s.resourceVals ++ [r] ∧ r.id ∉ s.resourceVals.map Resource.id ∧
      ∀ q, r.parentID = some q → q = r.id ∨ q ∈ s.resourceVals.map Resource.id := by
  obtain ⟨hheld, hfk, rfl⟩ := resourceCreate_eq_ok.1 h
  refine ⟨by simp [resourceVals], by rwa [← holds_resources_iff, Bool.not_eq_true], fun q hq => ?_⟩
  simpa [hq, refersTo, holds_resources_iff] using hfk

theorem transGen_of_no_edge_into {α : Type} {R R' : α → α → Prop} {u : α}
    (hR : ∀ x y, R' x y → R x y ∨ x = u) (hin : ∀ x, ¬ R' x u) {a b : α} (ha : a ≠ u)
    (h : Relation.TransGen R' a b) : Relation.TransGen R a b ∧ b ≠ u := by
  induction h with
  | single hab => exact ⟨.single ((hR _ _ hab).resolve_right ha), fun hb => hin _ (hb ▸ hab)⟩
  | tail _ hcb ih =>
    exact ⟨ih.1.tail ((hR _ _ hcb).resolve_right ih.2), fun hb => hin _ (hb ▸ hcb)⟩

theorem ParentsHeld.resourceCreate {r : Resource} {s' : Store} (hs : s.ParentsHeld)
    (h : s.resourceCreate r = .ok s') : s'.ParentsHeld := by
  obtain ⟨hv, -, hfk⟩ := resourceCreate_inv h
  intro x hx q hq
  simp only [hv, List.mem_append, List.mem_singleton, List.map_append, List.map_cons,
    List.map_nil] at hx ⊢
  rcases hx with hx | rfl
  · exact .inl (hs x hx q hq)
  · rcases hfk q hq with rfl | hq
    · exact .inr rfl
    · exact .inl hq

theorem WellFormed.resourceCreate {r : Resource} {s' : Store} (hs : s.WellFormed)
    (hr : r.parentID ≠ some r.id) (h : s.resourceCreate r = .ok s') : s'.WellFormed := by
  obtain ⟨hv, hnew, -⟩ := resourceCreate_inv h
  refine ⟨?_, hs.parents_held.resourceCreate h, fun a hcyc => ?_⟩
  · rw [hv, List.map_append, List.nodup_append]
    exact ⟨hs.ids_nodup, List.nodup_singleton _, by simpa using hnew⟩
  have hR : ∀ x y, s'.ParentOf x y → s.ParentOf x y ∨ x = r.id := by
    rintro x y ⟨z, hz, rfl, hzy⟩
    rw [hv, List.mem_append, List.mem_singleton] at hz
    rcases hz with hz | rfl
    · exact .inl ⟨z, hz, rfl, hzy⟩
    · exact .inr rfl
  have hin : ∀ x, ¬ s'.ParentOf x r.id := by
    rintro x ⟨z, hz, rfl, hzy⟩
    rw [hv, List.mem_append, List.mem_singleton] at hz
    rcases hz with hz | rfl
    · exact hnew (hs.parents_held z hz _ hzy)
    · exact hr hzy
  obtain ⟨c, -, hca⟩ := Relation.TransGen.tail'_iff.1 hcyc
  exact hs.acyclic a (transGen_of_no_edge_into hR hin (fun ha => hin c (ha ▸ hca)) hcyc).1

theorem resourceUpdate_inv {r : Resource} {s' : Store} (h : s.resourceUpdate r = .ok s') :
    s'.resourceVals = (if r.id ∈ s.resourceVals.map Resource.id then
        s.resourceVals.map fun x => if x.id = r.id then r else x
      else s.resourceVals ++ [r]) ∧
      ∀ q, r.parentID = some q → q = r.id ∨ q ∈ s.resourceVals.map Resource.id := by
  obtain ⟨hfk, rfl⟩ := resourceUpdate_eq_ok.1 h
  refine ⟨?_, fun q hq => by simpa [hq, refersTo, holds_resources_iff] using hfk⟩
  simp only [Table.save, holds_resources_iff]
  split <;> simp [resourceVals, apply_ite Row.val]

theorem map_id_replace (l : List Resource) (r : Resource) :
    (l.map fun x => if x.id = r.id then r else x).map Resource.id = l.map Resource.id := by
  rw [List.map_map]
  exact List.map_congr_left fun x _ => by by_cases hx : x.id = r.id <;> simp [hx]

theorem resourceUpdate_ids {r : Resource} {s' : Store} (h : s.resourceUpdate r = .ok s') :
    ∀ q, q ∈ s'.resourceVals.map Resource.id ↔ q ∈ s.resourceVals.map Resource.id ∨ q = r.id := by
  intro q
  rw [(resourceUpdate_inv h).1]
  split
  · rw [map_id_replace, or_iff_left_of_imp (· ▸ ‹_›)]
  · simp

theorem mem_resourceUpdate {r x : Resource} {s' : Store} (h : s.resourceUpdate r = .ok s')
    (hx : x ∈ s'.resourceVals) : x ∈ s.resourceVals ∨ x = r := by
  rw [(resourceUpdate_inv h).1] at hx
  split at hx
  · obtain ⟨y, hy, rfl⟩ := List.mem_map.1 hx
    by_cases hyr : y.id = r.id <;> simp [hyr, hy]
  · simpa using hx

theorem ParentsHeld.resourceUpdate {r : Resource} {s' : Store} (hs : s.ParentsHeld)
    (h : s.resourceUpdate r = .ok s') : s'.ParentsHeld := by
  intro x hx q hq
  rw [resourceUpdate_ids h]
  rcases mem_resourceUpdate h hx with hx | rfl
  · exact .inl (hs x hx q hq)
  · exact ((resourceUpdate_inv h).2 q hq).symm

theorem WellFormed.resourceUpdate {r row : Resource} {s' : Store} (hs : s.WellFormed)
    (hrow : row ∈ s.resourceVals) (hid : row.id = r.id) (hp : row.parentID = r.parentID)
    (h : s.resourceUpdate r = .ok s') : s'.WellFormed := by
  have hmem : r.id ∈ s.resourceVals.map Resource.id := List.mem_map.2 ⟨row, hrow, hid⟩
  have hids : s'.resourceVals.map Resource.id = s.resourceVals.map Resource.id := by
    rw [(resourceUpdate_inv h).1, if_pos hmem, map_id_replace]
  have hsub : ∀ a b, s'.ParentOf a b → s.ParentOf a b := by
    rintro a b ⟨x, hx, rfl, hxb⟩
    rcases mem_resourceUpdate h hx with hx | rfl
    · exact ⟨x, hx, rfl, hxb⟩
    · exact ⟨row, hrow, hid, hp.trans hxb⟩
  exact ⟨hids ▸ hs.ids_nodup, hs.parents_held.resourceUpdate h,
    fun a hcyc => hs.acyclic a (Relation.TransGen.mono hsub hcyc)⟩

@[simp] theorem resourceVals_resourceDelete (id : UUID) :
    (s.resourceDelete id).resourceVals = s.resourceVals := by
  simp [resourceDelete, Table.softDelete, resourceVals, apply_ite Row.val]

theorem resourceVals_setParentID (r : Resource) :
    (s.setParentID r).resourceVals =
      s.resourceVals.map fun x => if x.id = r.id then { x with parentID := r.parentID } else x := by
  simp only [resourceVals, setParentID, List.map_map]
  exact List.map_congr_left fun x _ => by by_cases hx : x.val.id = r.id <;> simp [hx]

theorem ids_setParentID (r : Resource) :
    (s.setParentID r).resourceVals.map Resource.id = s.resourceVals.map Resource.id := by
  rw [resourceVals_setParentID, List.map_map]
  exact List.map_congr_left fun x _ => by by_cases hx : x.id = r.id <;> simp [hx]

theorem ParentsHeld.setParentID {r : Resource} (hs : s.ParentsHeld)
    (hheld : Table.holds Resource.id s.resources r.id = true)
    (hfk : r.parentID.all (refersTo (Table.holds Resource.id s.resources) r.id) = true) :
    (s.setParentID r).ParentsHeld := by
  intro x hx q hq
  rw [ids_setParentID]
  rw [resourceVals_setParentID, List.mem_map] at hx
  obtain ⟨y, hy, rfl⟩ := hx
  split at hq
  · have hq : r.parentID = some q := hq
    have : q = r.id ∨ q ∈ s.resourceVals.map Resource.id := by
      simpa [hq, refersTo, holds_resources_iff] using hfk
    exact this.elim (fun hq => hq ▸ holds_resources_iff.1 hheld) id
  · exact hs y hy q hq

theorem IdsUnique.congr {s' : Store} (h : s'.resources = s.resources) (hs : s.IdsUnique) :
    s'.IdsUnique := by
  unfold IdsUnique resourceVals at *; rwa [h]

theorem IdsUnique.resourceCreate {r : Resource} {s' : Store} (hs : s.IdsUnique)
    (h : s.resourceCreate r = .ok s') : s'.IdsUnique := by
  obtain ⟨hv, hnew, -⟩ := resourceCreate_inv h
  unfold IdsUnique
  rw [hv, List.map_append, List.nodup_append]
  exact ⟨hs, List.nodup_singleton _, by simpa using hnew⟩

theorem TreeStep.idsUnique {s' : Store} (h : TreeStep s s') (hs : s.IdsUnique) :
    s'.IdsUnique := by
  cases h with
  | resourceCreate h => exact hs.resourceCreate h
  | setParentID _ _ h => subst h; unfold IdsUnique; rw [ids_setParentID]; exact hs
  | policyCreate h => obtain ⟨-, -, rfl⟩ := policyCreate_eq_ok.1 h; exact hs
  | setPolicyID _ _ h => subst h; exact hs
  | bindingInsert _ h => exact hs.congr (bindingInsert_frame h).1

theorem IdsUnique.bindingCreate {b : Binding} {s' : Store} (hs : s.IdsUnique)
    (h : s.bindingCreate b = .ok s') : s'.IdsUnique :=
  bindingCreate_inv (fun _ _ h => h.idsUnique) (fun _ _ h hs => hs.congr h.frame.1)
    (fun _ _ h hs => hs.congr (bindingInsert_frame h).1) h hs

end Store

end Iam

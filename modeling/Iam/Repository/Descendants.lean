import Iam.Repository.Hierarchy

/-!
# The descendant query

`resourceRepository.GetDescendants` is the recursive query of `GetAncestors`
turned downwards: the rows of the id, soft-deleted or not, then round after
round the live rows whose `parent_id` names a row of the round before, and
`WHERE id != ?` on the union.  The recursion stops at the first empty round,
so a cycle of live rows below the id makes it run forever.
`IAMService.GetResourceHierarchy` returns the ancestor query and this one.

In an acyclic table the query ends within one round per row and lists what
repeated `GetChildren` reaches; with unique ids it lists each row once.
-/

namespace Iam

namespace Store

variable (s : Store)

def getChildren (id : UUID) : List Resource :=
  s.resources.filterMap fun row =>
    if !row.deleted && row.val.parentID == some id then some row.val else none

/-- One round of `INNER JOIN descendants d ON r.parent_id = d.id WHERE r.deleted_at IS NULL`. -/
def childRound (round : List Resource) : List Resource :=
  round.flatMap fun d => s.getChildren d.id

/--
The rounds of the recursion from `round` on, up to the first empty one.
Rows of one round come working-table row by row, an order SQL leaves open
and no result below depends on.  `none` means more than `fuel` rounds.
-/
def descendantRounds : Nat → List Resource → Option (List Resource)
  | _, [] => some []
  | 0, _ :: _ => none
  | fuel + 1, d :: ds => (descendantRounds fuel (s.childRound (d :: ds))).map ((d :: ds) ++ ·)

/--
`resourceRepository.GetDescendants`.  A round that is not empty after one
round per row of the table repeats an id along its chain of parents, and
from there the rounds repeat for ever, so `none` is exactly the query that
runs forever.
-/
def getDescendants (id : UUID) : Option (List Resource) :=
  (s.descendantRounds s.resources.length (s.resourceVals.filter (·.id == id))).map
    (·.filter (·.id != id))

/--
`IAMService.GetResourceHierarchy` against one store, each query succeeding:
the ancestors, then the descendants; a query that runs forever is an error,
as for `GetAncestors` in a world.
-/
def getResourceHierarchy (id : UUID) : Except DbError (List Resource × List Resource) :=
  match s.getAncestors id, s.getDescendants id with
  | some ancestors, some descendants => .ok (ancestors, descendants)
  | _, _ => .error .nonTermination

def ChildOf (d c : Resource) : Prop := c ∈ s.getChildren d.id

variable {s}

theorem mem_getChildren {id : UUID} {c : Resource} :
    c ∈ s.getChildren id ↔ ⟨c, false⟩ ∈ s.resources ∧ c.parentID = some id := by
  simp only [getChildren, List.mem_filterMap]
  constructor
  · rintro ⟨⟨v, d⟩, hr, h⟩
    split at h
    · next hc =>
      cases h
      obtain ⟨rfl, hp⟩ : d = false ∧ v.parentID = some id := by simpa using hc
      exact ⟨hr, hp⟩
    · cases h
  · rintro ⟨hr, hp⟩
    exact ⟨_, hr, by simp [hp]⟩

theorem ChildOf.mem_resourceVals {d c : Resource} (h : s.ChildOf d c) : c ∈ s.resourceVals :=
  List.mem_map.2 ⟨_, (mem_getChildren.1 h).1, rfl⟩

theorem ChildOf.parentOf {d c : Resource} (h : s.ChildOf d c) : s.ParentOf c.id d.id :=
  ⟨c, h.mem_resourceVals, rfl, (mem_getChildren.1 h).2⟩

theorem transGen_parentOf {d c : Resource} (h : Relation.TransGen s.ChildOf d c) :
    Relation.TransGen s.ParentOf c.id d.id := by
  induction h with
  | single h => exact .single h.parentOf
  | tail _ h ih => exact .head h.parentOf ih

/-! ## Rounds -/

@[simp] theorem descendantRounds_nil (f : Nat) : s.descendantRounds f [] = some [] := by
  cases f <;> rfl

theorem descendantRounds_sound : ∀ {f : Nat} {round l : List Resource},
    s.descendantRounds f round = some l →
    ∀ x ∈ l, ∃ d ∈ round, Relation.ReflTransGen s.ChildOf d x
  | _, [], _, h, x, hx => by rw [descendantRounds_nil] at h; cases h; cases hx
  | 0, _ :: _, _, h, _, _ => by cases h
  | f + 1, d :: ds, l, h, x, hx => by
    obtain ⟨l', hl', rfl⟩ := Option.map_eq_some'.1 h
    rcases List.mem_append.1 hx with hx | hx
    · exact ⟨x, hx, .refl⟩
    obtain ⟨c, hc, hcx⟩ := descendantRounds_sound hl' x hx
    obtain ⟨d', hd', hdc⟩ := List.mem_flatMap.1 hc
    exact ⟨d', hd', .head hdc hcx⟩

theorem descendantRounds_complete : ∀ {f : Nat} {round l : List Resource},
    s.descendantRounds f round = some l →
    ∀ {d x : Resource}, d ∈ round → Relation.ReflTransGen s.ChildOf d x → x ∈ l
  | _, [], _, _, _, _, hd, _ => by cases hd
  | 0, _ :: _, _, h, _, _, _, _ => by cases h
  | f + 1, d :: ds, l, h, d', x, hd, hx => by
    obtain ⟨l', hl', rfl⟩ := Option.map_eq_some'.1 h
    rcases Relation.ReflTransGen.cases_head hx with rfl | ⟨c, hdc, hcx⟩
    · exact List.mem_append_left _ hd
    · exact List.mem_append_right _
        (descendantRounds_complete hl' (List.mem_flatMap.2 ⟨d', hd, hdc⟩) hcx)

theorem descendantRounds_eq_none : ∀ {f : Nat} {round : List Resource},
    s.descendantRounds f round = none →
    ∃ d ∈ round, ∃ l, List.Chain s.ChildOf d l ∧ l.length = f
  | _, [], h => by simp at h
  | 0, d :: _, _ => ⟨d, List.mem_cons_self _ _, [], .nil, rfl⟩
  | f + 1, d :: ds, h => by
    obtain ⟨c, hc, l, hl, hlen⟩ := descendantRounds_eq_none (Option.map_eq_none'.1 h)
    obtain ⟨d', hd', hdc⟩ := List.mem_flatMap.1 hc
    exact ⟨d', hd', c :: l, .cons hdc hl, by simp [hlen]⟩

/-! ## Acyclic tables -/

theorem mem_resourceVals_of_childChain {d : Resource} {l : List Resource}
    (h : List.Chain s.ChildOf d l) : ∀ x ∈ l, x ∈ s.resourceVals := by
  induction h with
  | nil => simp
  | cons hstep _ ih => exact List.forall_mem_cons.2 ⟨hstep.mem_resourceVals, ih⟩

theorem Acyclic.nodup_ids_of_childChain (hs : s.Acyclic) {d : Resource} {l : List Resource}
    (h : List.Chain s.ChildOf d l) : ((d :: l).map Resource.id).Nodup := by
  haveI : IsTrans Resource fun a b => Relation.TransGen s.ParentOf b.id a.id :=
    ⟨fun _ _ _ hab hbc => hbc.trans hab⟩
  have hR : List.Chain' (fun a b => Relation.TransGen s.ParentOf b.id a.id) (d :: l) :=
    (List.Chain'.iff_mem.1 (show List.Chain' s.ChildOf (d :: l) from h)).imp
      fun _ _ ⟨_, _, hab⟩ => .single hab.parentOf
  refine List.pairwise_map.2 ((List.chain'_iff_pairwise.1 hR).imp ?_)
  rintro a b hab (heq : a.id = b.id)
  rw [heq] at hab
  exact hs _ hab

theorem Acyclic.descendantRounds_isSome (hs : s.Acyclic) {round : List Resource}
    (hr : ∀ d ∈ round, d ∈ s.resourceVals) :
    (s.descendantRounds s.resources.length round).isSome := by
  cases h : s.descendantRounds s.resources.length round with
  | some l => rfl
  | none =>
    obtain ⟨d, hd, l, hl, hlen⟩ := descendantRounds_eq_none h
    have hsub : d :: l ⊆ s.resourceVals :=
      List.cons_subset.2 ⟨hr d hd, mem_resourceVals_of_childChain hl⟩
    have := ((List.Nodup.of_map _ (hs.nodup_ids_of_childChain hl)).subperm hsub).length_le
    simp [resourceVals] at this
    omega

theorem Acyclic.getDescendants_isSome (hs : s.Acyclic) (id : UUID) :
    (s.getDescendants id).isSome := by
  have : (s.descendantRounds s.resources.length (s.resourceVals.filter (·.id == id))).isSome :=
    hs.descendantRounds_isSome fun _ h => List.mem_of_mem_filter h
  simpa [getDescendants] using this

theorem Acyclic.mem_getDescendants (hs : s.Acyclic) {id : UUID} {D : List Resource}
    (hD : s.getDescendants id = some D) (x : Resource) :
    x ∈ D ↔ ∃ d ∈ s.resourceVals, d.id = id ∧ Relation.TransGen s.ChildOf d x := by
  obtain ⟨l, hl, rfl⟩ := Option.map_eq_some'.1 hD
  simp only [List.mem_filter, bne_iff_ne, ne_eq]
  constructor
  · rintro ⟨hx, hne⟩
    obtain ⟨d, hd, hdx⟩ := descendantRounds_sound hl x hx
    obtain ⟨hd, hid⟩ := List.mem_filter.1 hd
    rcases Relation.reflTransGen_iff_eq_or_transGen.1 hdx with rfl | hdx
    · exact absurd (by simpa using hid) hne
    · exact ⟨d, hd, by simpa using hid, hdx⟩
  · rintro ⟨d, hd, rfl, hdx⟩
    refine ⟨descendantRounds_complete hl (List.mem_filter.2 ⟨hd, by simp⟩) hdx.to_reflTransGen,
      fun hid => hs d.id ?_⟩
    simpa [hid] using transGen_parentOf hdx

/-! ## Unique ids -/

theorem IdsUnique.eq_of_id_eq (hu : s.IdsUnique) {a b : Resource} (ha : a ∈ s.resourceVals)
    (hb : b ∈ s.resourceVals) (h : a.id = b.id) : a = b :=
  List.inj_on_of_nodup_map hu ha hb h

theorem IdsUnique.resourceGetByID_of_mem (hu : s.IdsUnique) {c : Resource}
    (h : ⟨c, false⟩ ∈ s.resources) : s.resourceGetByID c.id = some c := by
  have hsome : (s.resources.find? fun r => !r.deleted && r.val.id == c.id).isSome :=
    List.find?_isSome.2 ⟨_, h, by simp⟩
  obtain ⟨r, hr⟩ := Option.isSome_iff_exists.1 hsome
  have hlive : Table.live Resource.id s.resources c.id = some r.val := by simp [Table.live, hr]
  obtain ⟨hmem, hid⟩ := Table.live_eq_some hlive
  rw [resourceGetByID, hlive,
    hu.eq_of_id_eq (List.mem_map.2 ⟨_, hmem, rfl⟩) (List.mem_map.2 ⟨_, h, rfl⟩) hid]

theorem IdsUnique.childOf_unique (hu : s.IdsUnique) {p q c : Resource} (hp : s.ChildOf p c)
    (hq : s.ChildOf q c) (hpm : p ∈ s.resourceVals) (hqm : q ∈ s.resourceVals) : p = q :=
  hu.eq_of_id_eq hpm hqm
    (Option.some.inj ((mem_getChildren.1 hp).2.symm.trans (mem_getChildren.1 hq).2))

theorem mem_resourceVals_of_transGen {d c : Resource} (h : Relation.TransGen s.ChildOf d c) :
    c ∈ s.resourceVals := by
  induction h with
  | single h => exact h.mem_resourceVals
  | tail _ h _ => exact h.mem_resourceVals

theorem nodup_getChildren (hu : s.IdsUnique) (id : UUID) : (s.getChildren id).Nodup := by
  have hrows : (s.resources.map (·.val)).Nodup := List.Nodup.of_map Resource.id hu
  refine List.Nodup.filterMap ?_ (hrows.of_map _)
  rintro ⟨v, _ | _⟩ ⟨v', _ | _⟩ b ha ha' <;> simp_all

theorem IdsUnique.descendantRounds_nodup (hu : s.IdsUnique) : ∀ {f : Nat} {round l : List Resource},
    s.descendantRounds f round = some l → round.Nodup → (∀ d ∈ round, d ∈ s.resourceVals) →
    (∀ a ∈ round, ∀ b ∈ round, ¬ Relation.TransGen s.ChildOf a b) → l.Nodup
  | _, [], _, h, _, _, _ => by rw [descendantRounds_nil] at h; cases h; exact List.nodup_nil
  | 0, _ :: _, _, h, _, _, _ => by cases h
  | f + 1, d :: ds, l, h, hnd, hr, hbelow => by
    obtain ⟨l', hl', rfl⟩ := Option.map_eq_some'.1 h
    have hparent : ∀ c ∈ s.childRound (d :: ds), ∃ p ∈ d :: ds, s.ChildOf p c :=
      fun c hc => List.mem_flatMap.1 hc
    have hr' : ∀ c ∈ s.childRound (d :: ds), c ∈ s.resourceVals := fun c hc =>
      let ⟨_, _, hpc⟩ := hparent c hc; hpc.mem_resourceVals
    have hnd' : (s.childRound (d :: ds)).Nodup := by
      refine List.nodup_flatMap.2 ⟨fun p _ => nodup_getChildren hu p.id, ?_⟩
      refine hnd.imp_of_mem fun {p q} hp hq hpq c hcp hcq => hpq ?_
      exact hu.childOf_unique hcp hcq (hr p hp) (hr q hq)
    have hbelow' : ∀ a ∈ s.childRound (d :: ds), ∀ b ∈ s.childRound (d :: ds),
        ¬ Relation.TransGen s.ChildOf a b := by
      intro a ha b hb hab
      obtain ⟨pa, hpa, hpaa⟩ := hparent a ha
      obtain ⟨pb, hpb, hpbb⟩ := hparent b hb
      obtain ⟨p, hap, hpb'⟩ := Relation.TransGen.tail'_iff.1 hab
      have hpm : p ∈ s.resourceVals := by
        rcases Relation.reflTransGen_iff_eq_or_transGen.1 hap with rfl | hap
        · exact hr' _ ha
        · exact mem_resourceVals_of_transGen hap
      obtain rfl := hu.childOf_unique hpb' hpbb hpm (hr pb hpb)
      exact hbelow pa hpa p hpb (.head' hpaa hap)
    refine List.nodup_append.2 ⟨hnd, hu.descendantRounds_nodup hl' hnd' hr' hbelow',
      fun x hx hx' => ?_⟩
    obtain ⟨c, hc, hcx⟩ := descendantRounds_sound hl' x hx'
    obtain ⟨p, hp, hpc⟩ := hparent c hc
    exact hbelow p hp x hx (.head' hpc hcx)

theorem WellFormed.getDescendants_nodup (hs : s.WellFormed) {id : UUID} {D : List Resource}
    (hD : s.getDescendants id = some D) : D.Nodup := by
  obtain ⟨l, hl, rfl⟩ := Option.map_eq_some'.1 hD
  have hu : s.IdsUnique := hs.ids_nodup
  have hvals : s.resourceVals.Nodup := List.Nodup.of_map Resource.id hu
  refine (hu.descendantRounds_nodup hl (hvals.filter _)
    (fun _ h => List.mem_of_mem_filter h) fun a ha b hb hab => ?_).filter _
  have hid : a.id = b.id := by
    simp only [List.mem_filter, beq_iff_eq] at ha hb
    rw [ha.2, hb.2]
  exact hs.acyclic a.id (by simpa [hid] using transGen_parentOf hab)

/-! ## Descendants and ancestors -/

theorem childOf_iff_liveStep {a b : Resource} (ha : s.resourceGetByID a.id = some a) :
    s.ChildOf a b ↔ ⟨b, false⟩ ∈ s.resources ∧ s.LiveStep b a := by
  rw [ChildOf, mem_getChildren, LiveStep, liveParent]
  refine and_congr_right fun _ => ⟨fun h => by rw [h]; exact ha, fun h => ?_⟩
  obtain ⟨q, hq, hlive⟩ := Option.bind_eq_some.1 h
  rw [hq, (Table.live_eq_some hlive).2]

theorem IdsUnique.transGen_childOf_iff (hu : s.IdsUnique) {x y : Resource}
    (hy : s.resourceGetByID y.id = some y) :
    Relation.TransGen s.ChildOf y x ↔
      ⟨x, false⟩ ∈ s.resources ∧ Relation.TransGen s.LiveStep x y := by
  constructor
  · intro h
    induction h with
    | single h =>
      exact ⟨((childOf_iff_liveStep hy).1 h).1, .single ((childOf_iff_liveStep hy).1 h).2⟩
    | tail hyc hcx ih =>
      have hc := hu.resourceGetByID_of_mem ih.1
      obtain ⟨hx, hxc⟩ := (childOf_iff_liveStep hc).1 hcx
      exact ⟨hx, .head hxc ih.2⟩
  · rintro ⟨hx, h⟩
    induction h using Relation.TransGen.head_induction_on with
    | base h => exact .single ((childOf_iff_liveStep hy).2 ⟨hx, h⟩)
    | ih hxz _ ih =>
      obtain ⟨q, -, hlive⟩ := Option.bind_eq_some.1 hxz
      have hz := (Table.live_eq_some hlive).1
      exact .tail (ih hz) ((childOf_iff_liveStep (hu.resourceGetByID_of_mem hz)).2 ⟨hx, hxz⟩)

theorem transGen_liveStep_parentOf {a b : Resource} (ha : a ∈ s.resourceVals)
    (h : Relation.TransGen s.LiveStep a b) : Relation.TransGen s.ParentOf a.id b.id := by
  induction h using Relation.TransGen.head_induction_on with
  | base h => exact .single (parentOf_of_liveStep ha h)
  | ih hab _ ih => exact .head (parentOf_of_liveStep ha hab) (ih (mem_resourceVals_of_liveStep hab))

theorem mem_of_chain_liveStep {r y : Resource} {l : List Resource} (h : List.Chain s.LiveStep r l)
    (hy : y ∈ l) : Relation.TransGen s.LiveStep r y := by
  induction h with
  | nil => cases hy
  | cons hstep _ ih =>
    rcases List.mem_cons.1 hy with rfl | hy
    · exact .single hstep
    · exact .head hstep (ih hy)

theorem MaxWalk.mem_of_transGen {r y : Resource} {l : List Resource} (hw : s.MaxWalk r l)
    (h : Relation.TransGen s.LiveStep r y) : y ∈ l := by
  induction h using Relation.TransGen.head_induction_on generalizing l with
  | base h =>
    cases hw with
    | stop hp => simp [LiveStep, hp] at h
    | step hp _ => exact List.mem_cons.2 (.inl (Option.some.inj (hp.symm.trans h)).symm)
  | ih hrz _ ih =>
    cases hw with
    | stop hp => simp [LiveStep, hp] at hrz
    | step hp hw' =>
      obtain rfl := Option.some.inj (hp.symm.trans hrz)
      exact List.mem_cons_of_mem _ (ih hw')

theorem WellFormed.mem_getAncestors (hs : s.WellFormed) {x y : Resource}
    (hx : s.resourceGetByID x.id = some x) {A : List Resource}
    (hA : s.getAncestors x.id = some A) : y ∈ A ↔ Relation.TransGen s.LiveStep x y := by
  rw [IdsUnique.getAncestors_eq hs.ids_nodup hx] at hA
  obtain ⟨l, hl, rfl⟩ := Option.map_eq_some'.1 hA
  have hxm : x ∈ s.resourceVals := List.mem_map.2 ⟨_, (Table.live_eq_some hx).1, rfl⟩
  simp only [List.mem_filter, bne_iff_ne, ne_eq]
  refine ⟨fun h => mem_of_chain_liveStep (chain_of_parentChain hl) h.1, fun h => ⟨?_, ?_⟩⟩
  · exact (maxWalk_of_parentChain hl).mem_of_transGen h
  · intro hid
    exact hs.acyclic x.id (by simpa [hid] using transGen_liveStep_parentOf hxm h)

theorem WellFormed.mem_getDescendants_iff (hs : s.WellFormed) {x y : Resource}
    (hx : s.resourceGetByID x.id = some x) (hy : s.resourceGetByID y.id = some y)
    {A D : List Resource} (hA : s.getAncestors x.id = some A)
    (hD : s.getDescendants y.id = some D) : x ∈ D ↔ y ∈ A := by
  have hu : s.IdsUnique := hs.ids_nodup
  have hym : y ∈ s.resourceVals := List.mem_map.2 ⟨_, (Table.live_eq_some hy).1, rfl⟩
  rw [hs.mem_getAncestors hx hA, hs.acyclic.mem_getDescendants hD]
  constructor
  · rintro ⟨d, hd, hid, hdx⟩
    obtain rfl := hu.eq_of_id_eq hd hym hid
    exact ((hu.transGen_childOf_iff hy).1 hdx).2
  · intro h
    exact ⟨y, hym, rfl, (hu.transGen_childOf_iff hy).2 ⟨(Table.live_eq_some hx).1, h⟩⟩

theorem WellFormed.not_transGen_liveStep_self (hs : s.WellFormed) {x : Resource}
    (hx : x ∈ s.resourceVals) : ¬ Relation.TransGen s.LiveStep x x :=
  fun h => hs.acyclic x.id (transGen_liveStep_parentOf hx h)

theorem WellFormed.getResourceHierarchy_spec (hs : s.WellFormed) {y : Resource}
    (hy : s.resourceGetByID y.id = some y) :
    ∃ A D, s.getResourceHierarchy y.id = .ok (A, D) ∧ A.Nodup ∧ D.Nodup ∧ y ∉ A ∧ y ∉ D ∧
      (∀ x ∈ A, x ∉ D) ∧
      ∀ x, s.resourceGetByID x.id = some x →
        (x ∈ D ↔ ∃ Ax, s.getAncestors x.id = some Ax ∧ y ∈ Ax) := by
  have hu : s.IdsUnique := hs.ids_nodup
  have hym : y ∈ s.resourceVals := List.mem_map.2 ⟨_, (Table.live_eq_some hy).1, rfl⟩
  obtain ⟨A, hA⟩ := Option.isSome_iff_exists.1 (hs.acyclic.getAncestors_isSome y.id)
  obtain ⟨D, hD⟩ := Option.isSome_iff_exists.1 (hs.acyclic.getDescendants_isSome y.id)
  have hbelow : ∀ x ∈ D, Relation.TransGen s.LiveStep x y := fun x hx => by
    obtain ⟨d, hd, hid, hdx⟩ := (hs.acyclic.mem_getDescendants hD x).1 hx
    obtain rfl := hu.eq_of_id_eq hd hym hid
    exact ((hu.transGen_childOf_iff hy).1 hdx).2
  refine ⟨A, D, by simp only [getResourceHierarchy, hA, hD], ?_, hs.getDescendants_nodup hD,
    fun h => hs.not_transGen_liveStep_self hym ((hs.mem_getAncestors hy hA).1 h),
    fun h => hs.not_transGen_liveStep_self hym (hbelow y h),
    fun x hxA hxD => hs.not_transGen_liveStep_self hym
      (((hs.mem_getAncestors hy hA).1 hxA).trans (hbelow x hxD)),
    fun x hx => ?_⟩
  · rw [hu.getAncestors_eq hy] at hA
    obtain ⟨l, hl, rfl⟩ := Option.map_eq_some'.1 hA
    exact (List.nodup_cons.1 (maxWalk_of_parentChain hl).nodup).2.filter _
  · obtain ⟨Ax, hAx⟩ := Option.isSome_iff_exists.1 (hs.acyclic.getAncestors_isSome x.id)
    rw [hs.mem_getDescendants_iff hx hy hAx hD]
    exact ⟨fun h => ⟨Ax, hAx, h⟩, fun ⟨_, h, hyA⟩ => Option.some.inj (hAx.symm.trans h) ▸ hyA⟩

end Store

end Iam

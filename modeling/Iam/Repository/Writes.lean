import Iam.Repository.Store

/-!
# What each write does

One lemma per write of the store: when it succeeds, the checks it passed and
the store it leaves.  Later proofs use these and never unfold a write.
-/

namespace Iam

namespace Table

variable {α : Type} {key : α → UUID} {rows : List (Row α)}

@[simp] theorem holds_append (rs : List (Row α)) (x : UUID) :
    holds key (rows ++ rs) x = (holds key rows x || holds key rs x) := by
  simp [holds]

@[simp] theorem holds_softDelete (id x : UUID) :
    holds key (softDelete key rows id) x = holds key rows x := by
  simp only [holds, softDelete, List.any_map, Function.comp_def, apply_ite Row.val]
  simp

theorem holds_save (v : α) {x : UUID} (h : holds key rows x = true) :
    holds key (save key rows v) x = true := by
  unfold save
  split
  · simp only [holds, List.any_map, Function.comp_def, apply_ite Row.val, List.any_eq_true,
      beq_iff_eq] at h ⊢
    obtain ⟨r, hr, rfl⟩ := h
    exact ⟨r, hr, by split <;> simp_all⟩
  · simp [h]

theorem mem_softDelete {r : Row α} {id : UUID} (h : r ∈ softDelete key rows id) :
    ∃ r' ∈ rows, r'.val = r.val := by
  obtain ⟨r', hr', rfl⟩ := List.mem_map.1 h
  exact ⟨r', hr', by split <;> rfl⟩

theorem mem_save {r : Row α} {v : α} (h : r ∈ save key rows v) : r ∈ rows ∨ r.val = v := by
  unfold save at h
  split at h
  · obtain ⟨r', hr', rfl⟩ := List.mem_map.1 h
    split
    · exact .inr rfl
    · exact .inl hr'
  · rcases List.mem_append.1 h with h | h
    · exact .inl h
    · exact .inr (by simp_all)

theorem mem_save_iff {r : Row α} {v : α} :
    r ∈ save key rows v ↔ r ∈ rows ∧ key r.val ≠ key v ∨ r = ⟨v, false⟩ := by
  unfold save holds
  split
  · next h =>
    obtain ⟨r₀, hr₀, hk₀⟩ := List.any_eq_true.1 h
    rw [List.mem_map]
    constructor
    · rintro ⟨r', hr', rfl⟩
      by_cases hk : key r'.val = key v <;> simp [hk, hr']
    · rintro (⟨hr, hne⟩ | rfl)
      · exact ⟨r, hr, by simp [hne]⟩
      · exact ⟨r₀, hr₀, by simp [beq_iff_eq.1 hk₀]⟩
  · next h =>
    have hne : ∀ r ∈ rows, key r.val ≠ key v := fun r hr hk =>
      h (List.any_eq_true.2 ⟨r, hr, beq_iff_eq.2 hk⟩)
    simp only [List.mem_append, List.mem_singleton]
    exact ⟨Or.imp_left fun hr => ⟨hr, hne r hr⟩, Or.imp_left And.left⟩

theorem live_save (rows : List (Row α)) (v : α) : live key (save key rows v) (key v) = some v := by
  unfold live save
  split
  · next h =>
    induction rows with
    | nil => cases h
    | cons r rs ih =>
      by_cases hr : key r.val = key v
      · simp [hr]
      · simp only [holds, List.any_cons, beq_eq_false_iff_ne.2 hr, Bool.false_or] at h
        simpa [hr] using ih h
  · next h =>
    have : rows.find? (fun r => !r.deleted && key r.val == key v) = none :=
      List.find?_eq_none.2 fun r hr => by simp_all [holds]
    simp [List.find?_append, this]

theorem holds_append_new {v : α} {d : Bool} {x : UUID} (h : holds key rows x = false)
    (hv : key v ≠ x) : holds key (rows ++ [⟨v, d⟩]) x = false := by
  simp only [holds_append, h, Bool.false_or]
  simp [holds, hv]

theorem live_append_new {v : α} (h : holds key rows (key v) = false) :
    live key (rows ++ [⟨v, false⟩]) (key v) = some v := by
  simpa [save, h] using @live_save _ key rows v

end Table

theorem mem_foldl_addNew {x : UUID × UUID} : ∀ (l acc : List (UUID × UUID)),
    x ∈ l.foldl (fun acc row => if row ∈ acc then acc else acc ++ [row]) acc ↔ x ∈ acc ∨ x ∈ l
  | [], acc => by simp
  | a :: l, acc => by
    rw [List.foldl_cons, mem_foldl_addNew l, List.mem_cons]
    split
    · next ha =>
      constructor <;> rintro (h | h) <;>
        first | simp [h] | (rcases h with rfl | h <;> simp [*])
    · simp [or_assoc]

theorem Except.bind_eq_ok {ε α β : Type} {x : Except ε α} {f : α → Except ε β} {b : β} :
    x >>= f = .ok b ↔ ∃ a, x = .ok a ∧ f a = .ok b := by
  cases x with
  | error e => exact ⟨fun h => (by cases h), fun ⟨_, h, _⟩ => (by cases h)⟩
  | ok a => exact ⟨fun h => ⟨a, rfl, h⟩, fun ⟨_, h, h'⟩ => (by cases h; exact h')⟩

namespace Store

variable {s s' : Store}

theorem resourceCreate_eq_ok {r : Resource} :
    s.resourceCreate r = .ok s' ↔ Table.holds Resource.id s.resources r.id = false ∧
      r.parentID.all (refersTo (Table.holds Resource.id s.resources) r.id) = true ∧
      s' = { s with resources := s.resources ++ [⟨r, false⟩] } := by
  unfold resourceCreate
  cases Table.holds Resource.id s.resources r.id <;>
    cases r.parentID.all (refersTo (Table.holds Resource.id s.resources) r.id) <;>
    simp [eq_comm (a := s')]

theorem resourceUpdate_eq_ok {r : Resource} :
    s.resourceUpdate r = .ok s' ↔
      r.parentID.all (refersTo (Table.holds Resource.id s.resources) r.id) = true ∧
      s' = { s with resources := Table.save Resource.id s.resources r } := by
  unfold resourceUpdate
  cases r.parentID.all (refersTo (Table.holds Resource.id s.resources) r.id) <;>
    simp [eq_comm (a := s')]

theorem permissionCreate_eq_ok {p : Permission} :
    s.permissionCreate p = .ok s' ↔ (Table.holds Permission.id s.permissions p.id ||
        s.permissions.any (·.val.name == p.name)) = false ∧
      s' = { s with permissions := s.permissions ++ [⟨p, false⟩] } := by
  unfold permissionCreate
  cases Table.holds Permission.id s.permissions p.id || s.permissions.any (·.val.name == p.name) <;>
    simp [eq_comm (a := s')]

theorem roleCreate_eq_ok {r : Role} :
    s.roleCreate r = .ok s' ↔ (Table.holds RoleRecord.id s.roles r.id ||
        s.roles.any (·.val.name == r.name)) = false ∧
      ∃ join, s.joinRows r.id r.permissions = .ok join ∧
        s' = { s with roles := s.roles ++ [⟨RoleRecord.ofRole r, false⟩],
                      rolePermissions := join } := by
  unfold roleCreate
  cases Table.holds RoleRecord.id s.roles r.id || s.roles.any (·.val.name == r.name) <;>
    cases s.joinRows r.id r.permissions <;> simp [bind, Except.bind, eq_comm (a := s')]

theorem mem_joinRows {roleID : UUID} {perms : List Permission} {join : List (UUID × UUID)}
    (h : s.joinRows roleID perms = .ok join) (x : UUID × UUID) :
    x ∈ join ↔ x ∈ s.rolePermissions ∨ ∃ p ∈ perms, (roleID, p.id) = x := by
  unfold joinRows at h
  split at h
  · cases h
    simp [mem_foldl_addNew]
  · cases h

theorem roleUpdate_eq_ok {r : Role} :
    s.roleUpdate r = .ok s' ↔
      (s.roles.any fun row => row.val.name == r.name && row.val.id != r.id) = false ∧
      ∃ join, s.joinRows r.id r.permissions = .ok join ∧
        s' = { s with
          roles := Table.save RoleRecord.id s.roles (RoleRecord.ofRole r)
          rolePermissions := join } := by
  unfold roleUpdate
  cases s.roles.any fun row => row.val.name == r.name && row.val.id != r.id <;>
    cases s.joinRows r.id r.permissions <;> simp [bind, Except.bind, eq_comm (a := s')]

theorem policyCreate_eq_ok {p : Policy} :
    s.policyCreate p = .ok s' ↔ (Table.holds PolicyRecord.id s.policies p.id ||
        s.policies.any (·.val.resourceID == p.resourceID)) = false ∧
      Table.holds Resource.id s.resources p.resourceID = true ∧
      s' = { s with policies := s.policies ++ [⟨PolicyRecord.ofPolicy p, false⟩] } := by
  unfold policyCreate
  cases Table.holds PolicyRecord.id s.policies p.id ||
      s.policies.any (·.val.resourceID == p.resourceID) <;>
    cases Table.holds Resource.id s.resources p.resourceID <;> simp [eq_comm (a := s')]

theorem policyUpdate_eq_ok {p : Policy} :
    s.policyUpdate p = .ok s' ↔
      (s.policies.any fun row => row.val.resourceID == p.resourceID && row.val.id != p.id) = false ∧
      Table.holds Resource.id s.resources p.resourceID = true ∧
      s' = { s with
        policies := Table.save PolicyRecord.id s.policies (PolicyRecord.ofPolicy p) } := by
  unfold policyUpdate
  cases s.policies.any fun row => row.val.resourceID == p.resourceID && row.val.id != p.id <;>
    cases Table.holds Resource.id s.resources p.resourceID <;> simp [eq_comm (a := s')]

def withBinding (b : Binding) (s : Store) : Except DbError Store :=
  let s' := { s with bindings := s.bindings ++ [⟨BindingRecord.ofBinding b, false⟩] }
  match b.condition with
  | none => .ok s'
  | some c => do
    let conditions ← s'.saveCondition c
    .ok { s' with conditions }

theorem bindingInsert_eq_ok {b : Binding} :
    s.bindingInsert b = .ok s' ↔ Table.holds BindingRecord.id s.bindings b.id = false ∧
      Table.holds PolicyRecord.id s.policies b.policyID = true ∧
      Table.holds RoleRecord.id s.roles b.roleID = true ∧ Json.jsonbAccepts b.members = true ∧
      withBinding b s = .ok s' := by
  unfold bindingInsert
  cases Table.holds BindingRecord.id s.bindings b.id <;>
    cases Table.holds PolicyRecord.id s.policies b.policyID <;>
    cases Table.holds RoleRecord.id s.roles b.roleID <;> cases Json.jsonbAccepts b.members <;>
    simp
  rfl

theorem Binding.setupReferences_of_plain {b : Binding} (h : b.plain = true) :
    b.setupReferences = b := by
  obtain ⟨id, policyID, roleID, role, members, condition, policy⟩ := b
  simp only [Binding.plain, Bool.and_eq_true, Option.isNone_iff_eq_none] at h
  obtain ⟨rfl, rfl⟩ := h
  rfl

theorem bindingCreate_of_plain {b : Binding} (h : b.plain = true) :
    s.bindingCreate b = s.bindingInsert b := by
  rw [← Binding.setupReferences_of_plain h]
  simp only [Binding.plain, Bool.and_eq_true, Option.isNone_iff_eq_none] at h
  simp only [bindingCreate, Binding.setupReferences, h.1, h.2]
  rfl

theorem bindingCreate_mk_none (id policyID roleID : UUID) (members : GoString)
    (condition : Option Condition) :
    s.bindingCreate ⟨id, policyID, roleID, none, members, condition, none⟩ =
      s.bindingInsert ⟨id, policyID, roleID, none, members, condition, none⟩ :=
  bindingCreate_of_plain rfl

theorem bindingCreate_eq_ok {b : Binding} :
    s.bindingCreate b = .ok s' ↔ ∃ s₁ s₂, s.saveAssoc policySaveAssoc b.policy = .ok s₁ ∧
      s₁.saveAssoc roleSaveAssoc b.role = .ok s₂ ∧ s₂.bindingInsert b.setupReferences = .ok s' := by
  simp only [bindingCreate, bind, Except.bind]
  constructor
  · intro h
    split at h
    · cases h
    · split at h
      · cases h
      · exact ⟨_, _, ‹_›, ‹_›, h⟩
  · rintro ⟨s₁, s₂, h₁, h₂, h⟩
    simp [h₁, h₂, h]

theorem withBinding_eq_ok {b : Binding} (h : withBinding b s = .ok s') :
    s' = { s with bindings := s.bindings ++ [⟨BindingRecord.ofBinding b, false⟩],
                  conditions := s'.conditions } := by
  unfold withBinding at h
  split at h
  · cases h; rfl
  · simp only [bind, Except.bind] at h
    split at h <;> cases h
    rfl

theorem bindingGetByID_of_insert {b : Binding} (h : s.bindingInsert b = .ok s') :
    ∃ b', s'.bindingGetByID b.id = some b' ∧ b'.members = b.members := by
  obtain ⟨hnew, -, -, -, hw⟩ := bindingInsert_eq_ok.1 h
  rw [withBinding_eq_ok hw]
  exact ⟨_, congrArg (Option.map _) (Table.live_append_new hnew), rfl⟩

end Store

end Iam

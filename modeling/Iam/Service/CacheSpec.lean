import Iam.Service.Cache

/-!
# The decision cache: keys and grants

`GenerateCacheKey` joins principal, resource id and permission with `:`.
The resource id is the 36-byte `UUID.String` form, which has no `:` and
determines the id.  So when the permission has no `:` either, the key
determines all three: the permission is what follows the last `:`, the id
the 36 bytes before it, and the principal the rest, whatever `:` it holds.

The grants the cache holds are the keys mapped to `true`.  `Get` answers
`true` only for one of them, `Set` adds at most its own key, and `Clear`
drops them all.
-/

namespace Iam

def colon : UInt8 := 58

/-! ## Hexadecimal digits -/

theorem hexDigit_ne_colon_fin : ∀ n : Fin 16, hexDigit n ≠ colon := by decide

theorem hexDigit_injective_fin : ∀ m n : Fin 16, hexDigit m = hexDigit n → m = n := by decide

theorem UUID.nibble_ne_colon (u : UUID) (i : Nat) : u.nibble i ≠ colon :=
  hexDigit_ne_colon_fin ⟨_, Nat.mod_lt _ (by decide)⟩

theorem UUID.colon_not_mem_string (u : UUID) : colon ∉ u.string := by
  have h45 : colon ≠ 45 := by decide
  simp [UUID.string, h45, UUID.nibble_ne_colon]

theorem eq_of_hexDigits : ∀ n {a b : Nat}, a < 16 ^ n → b < 16 ^ n →
    (∀ j < n, a / 16 ^ j % 16 = b / 16 ^ j % 16) → a = b
  | 0, _, _, ha, hb, _ => by simp only [pow_zero] at ha hb; omega
  | n + 1, a, b, ha, hb, h => by
    have hlow := h 0 (Nat.succ_pos n)
    have hhigh : a / 16 = b / 16 := eq_of_hexDigits n
      (Nat.div_lt_of_lt_mul (by rwa [pow_succ, mul_comm] at ha))
      (Nat.div_lt_of_lt_mul (by rwa [pow_succ, mul_comm] at hb))
      fun j hj => by
        simpa only [Nat.div_div_eq_div_mul, pow_succ', mul_comm] using h (j + 1) (by omega)
    simp only [pow_zero, Nat.div_one] at hlow
    omega

theorem UUID.nibble_eq_iff (u u' : UUID) (i : Nat) :
    u.nibble i = u'.nibble i ↔
      u.toNat / 16 ^ (31 - i) % 16 = u'.toNat / 16 ^ (31 - i) % 16 := by
  have h16 : ∀ k, (2 : Nat) ^ (4 * k) = 16 ^ k := fun k => by rw [pow_mul]; rfl
  simp only [UUID.nibble, h16]
  exact ⟨fun h => congrArg Fin.val (hexDigit_injective_fin ⟨_, Nat.mod_lt _ (by decide)⟩
    ⟨_, Nat.mod_lt _ (by decide)⟩ h), fun h => by rw [h]⟩

theorem UUID.eq_of_nibbles {u u' : UUID} (h : ∀ i < 32, u.nibble i = u'.nibble i) : u = u' := by
  refine BitVec.eq_of_toNat_eq (eq_of_hexDigits 32 u.isLt u'.isLt fun j hj => ?_)
  have := (UUID.nibble_eq_iff u u' (31 - j)).1 (h (31 - j) (by omega))
  rwa [show 31 - (31 - j) = j by omega] at this

theorem UUID.string_injective {u u' : UUID} (h : u.string = u'.string) : u = u' := by
  simp only [UUID.string, List.append_assoc, List.cons_append] at h
  obtain ⟨h0, h⟩ := List.append_inj h (by simp)
  obtain ⟨h1, h⟩ := List.append_inj (List.cons.inj h).2 (by simp)
  obtain ⟨h2, h⟩ := List.append_inj (List.cons.inj h).2 (by simp)
  obtain ⟨h3, h4⟩ := List.append_inj (List.cons.inj h).2 (by simp)
  have h4 := (List.cons.inj h4).2
  simp only [List.map_inj_left, List.mem_range'_1] at h0 h1 h2 h3 h4
  exact UUID.eq_of_nibbles fun i hi => by
    rcases Nat.lt_or_ge i 8 with h8 | h8; · exact h0 i ⟨by omega, h8⟩
    rcases Nat.lt_or_ge i 12 with h12 | h12; · exact h1 i ⟨h8, h12⟩
    rcases Nat.lt_or_ge i 16 with h16 | h16; · exact h2 i ⟨h12, h16⟩
    rcases Nat.lt_or_ge i 20 with h20 | h20; · exact h3 i ⟨h16, h20⟩
    exact h4 i ⟨h20, by omega⟩

/-! ## Cutting a key at a separator -/

section Separator

variable {α : Type} {a : α}

theorem cut_first_eq : ∀ {y y' v v' : List α}, a ∉ y → a ∉ y' →
    y ++ a :: v = y' ++ a :: v' → y = y' ∧ v = v'
  | [], [], _, _, _, _, h => ⟨rfl, (List.cons.inj h).2⟩
  | [], b :: _, _, _, _, hy', h => absurd ((List.cons.inj h).1 ▸ List.mem_cons_self _ _) hy'
  | b :: _, [], _, _, hy, _, h => absurd ((List.cons.inj h).1 ▸ List.mem_cons_self _ _) hy
  | b :: y, b' :: y', _, _, hy, hy', h => by
    simp only [List.cons_append, List.cons.injEq] at h
    obtain ⟨rfl, h⟩ := h
    obtain ⟨rfl, rfl⟩ := cut_first_eq (List.not_mem_of_not_mem_cons hy)
      (List.not_mem_of_not_mem_cons hy') h
    exact ⟨rfl, rfl⟩

theorem cut_last_eq {u u' x x' : List α} (hx : a ∉ x) (hx' : a ∉ x')
    (h : u ++ a :: x = u' ++ a :: x') : u = u' ∧ x = x' := by
  have h := congrArg List.reverse h
  simp only [List.reverse_append, List.reverse_cons, List.append_assoc, List.singleton_append] at h
  obtain ⟨hx, hu⟩ := cut_first_eq (by simpa using hx) (by simpa using hx') h
  exact ⟨List.reverse_injective hu, List.reverse_injective hx⟩

end Separator

theorem generateCacheKey_eq (principal resourceID permission : GoString) :
    generateCacheKey principal resourceID permission =
      (lit "perm:" ++ principal ++ colon :: resourceID) ++ colon :: permission := by
  simp only [generateCacheKey, List.append_assoc]
  rfl

theorem generateCacheKey_inj {p p' x x' : GoString} {r r' : UUID} (hx : colon ∉ x)
    (hx' : colon ∉ x') (h : generateCacheKey p r.string x = generateCacheKey p' r'.string x') :
    p = p' ∧ r = r' ∧ x = x' := by
  rw [generateCacheKey_eq, generateCacheKey_eq] at h
  obtain ⟨hu, rfl⟩ := cut_last_eq hx hx' h
  obtain ⟨hp, hr⟩ := cut_last_eq r.colon_not_mem_string r'.colon_not_mem_string hu
  exact ⟨List.append_cancel_left hp, UUID.string_injective hr, rfl⟩

theorem generateCacheKey_shift (p x : GoString) (r r' : UUID) :
    generateCacheKey (p ++ colon :: r.string) r'.string x =
      generateCacheKey p r.string (r'.string ++ colon :: x) := by
  simp only [generateCacheKey_eq, List.append_assoc, List.cons_append]

/-! ## Grants held -/

def Cache.grants : Cache → List GoString
  | .noop => []
  | .memory c => (c.data.filter (·.2.value)).map (·.1)

theorem Cache.mem_grants_of_get {cache : Cache} {now : Int} {key : GoString}
    (h : cache.get now key = some true) : key ∈ cache.grants := by
  cases cache with
  | noop => cases h
  | memory c =>
    obtain ⟨e, he, hv, -⟩ := CacheService.get_eq_some h
    exact List.mem_map.2 ⟨(key, e), List.mem_filter.2 ⟨he, by simpa using hv⟩, rfl⟩

theorem CacheService.mem_set_data {c : CacheService Bool} {now : Int} {key : GoString} {v : Bool}
    {kv : GoString × CacheEntry Bool} (h : kv ∈ (c.set now key v).data) :
    (kv.1 = key ∧ kv.2.value = v) ∨ kv ∈ c.data := by
  rw [CacheService.set_eq] at h
  split at h
  · exact .inr h
  rcases List.mem_cons.1 h with rfl | h
  · exact .inl ⟨rfl, rfl⟩
  · exact .inr ((c.roomFor_sublist now).subset (List.mem_filter.1 h).1)

theorem Cache.mem_grants_set {cache : Cache} {now : Int} {key k : GoString} {v : Bool}
    (h : k ∈ (cache.set now key v).grants) : (k = key ∧ v = true) ∨ k ∈ cache.grants := by
  cases cache with
  | noop => cases h
  | memory c =>
    simp only [Cache.set, Cache.grants, List.mem_map, List.mem_filter] at h ⊢
    obtain ⟨kv, ⟨hkv, he⟩, rfl⟩ := h
    rcases CacheService.mem_set_data hkv with ⟨hk, hv⟩ | hold
    · exact .inl ⟨hk, hv ▸ he⟩
    · exact .inr ⟨kv, ⟨hold, he⟩, rfl⟩

@[simp] theorem Cache.grants_clear (cache : Cache) : cache.clear.grants = [] := by
  cases cache <;> rfl

end Iam

import Iam.Domain.Json

/-!
# `Unmarshal` after `Marshal`

`CreateBinding` stores `json.Marshal(members)` and `Binding.GetMembers` reads
it back with `json.Unmarshal`.  The two are inverse on strings that are
well-formed UTF-8 (`unmarshalStrings_marshalStrings`).  The proof follows
`escape` one step at a time (`escape_go_cons`): each token it writes passes
the string scan unchanged (`Scans`), and on well-formed input `unquote` reads
the token back in one step as the bytes it came from (`Decodes`).

The same steps decide what the `jsonb` column takes.  `Marshal`'s output is
always well-formed UTF-8 (`Utf8Tok`), and its tokens pass PostgreSQL's stricter
scan too, except the escape `\u0000` that it writes for a NUL byte and that
PostgreSQL refuses: the column takes the members exactly when none has a NUL
byte (`jsonbAccepts_marshalStrings`).
-/

namespace Iam.Json

/-! ## Bytes -/

theorem plain_of_high {b : UInt8} (h : 128 ≤ b) : ¬ b < 32 ∧ b ≠ 34 ∧ b ≠ 92 := by
  refine ⟨fun h' => ?_, ?_, ?_⟩
  · simp only [UInt8.le_def, UInt8.lt_def, UInt8.toBitVec_ofNat] at h h'
    bv_omega
  all_goals rintro rfl; exact absurd h (by decide)

theorem toNat_lt_of_lt_128 {c : UInt8} (hc : c < 128) : c.toNat < 128 := by
  simpa [UInt8.lt_def, BitVec.lt_def] using hc

theorem toUInt8_toNat (c : UInt8) : c.toNat.toUInt8 = c :=
  UInt8.toNat.inj (UInt8.toNat_ofNat_of_lt c.toNat_lt_size)

theorem hexDigit_spec : ∀ k : Fin 16, isHex (hexDigit k) = true ∧ hexVal (hexDigit k) = k := by
  decide

theorem hex4_hexDigit {c : UInt8} (hc : c < 128) :
    hex4 48 48 (hexDigit (c.toNat / 16)) (hexDigit (c.toNat % 16)) = some c.toNat := by
  have h := toNat_lt_of_lt_128 hc
  obtain ⟨h1, h2⟩ := hexDigit_spec ⟨c.toNat / 16, by omega⟩
  obtain ⟨h3, h4⟩ := hexDigit_spec ⟨c.toNat % 16, by omega⟩
  simp only at h1 h2 h3 h4
  simp only [hex4, h1, h3, h2, h4, Bool.and_true, show isHex 48 = true from rfl,
    show hexVal 48 = 0 from rfl, if_true, Option.some.injEq]
  omega

theorem encodeRune_ascii {c : UInt8} (hc : c < 128) : encodeRune c.toNat = [c] := by
  simp [encodeRune, toNat_lt_of_lt_128 hc, toUInt8_toNat]

theorem isSurrogate_ascii {c : UInt8} (hc : c < 128) : isSurrogate c.toNat = false := by
  have := toNat_lt_of_lt_128 hc
  simp only [isSurrogate, Bool.and_eq_false_iff, decide_eq_false_iff_not]
  omega

/-! ## UTF-8 sequences -/

theorem headIn_cons (lo hi a : UInt8) (s : GoString) :
    headIn lo hi (a :: s) = (lo ≤ a && a ≤ hi) := rfl

@[simp] theorem headIn_nil (lo hi : UInt8) : headIn lo hi [] = false := rfl

theorem utf8SeqLen_eq_succ {c : UInt8} {s : GoString} {n : Nat}
    (h : utf8SeqLen (c :: s) = n + 1) :
    n ≤ s.length ∧ (∀ b ∈ s.take n, 128 ≤ b) ∧
      ∀ t, utf8SeqLen (c :: (s.take n ++ t)) = n + 1 := by
  unfold utf8SeqLen at h ⊢
  dsimp only at h ⊢
  by_cases h1 : c < 128
  · simp only [h1, if_true] at h ⊢
    cases h
    simp
  by_cases h2 : c < 194
  · simp [h1, h2] at h
  by_cases h3 : c < 224
  · simp only [h1, h2, h3, if_false, if_true, Nat.sub_self, List.range_zero, List.all_nil,
      Bool.and_true] at h ⊢
    rcases s with _ | ⟨a, s⟩
    · simp at h
    · split_ifs at h with ha
      cases h
      simp only [headIn_cons, Bool.and_eq_true, decide_eq_true_eq] at ha
      simp [ha, headIn_cons]
  by_cases h4 : c < 245
  · simp only [h1, h2, h3, h4, if_false, if_true] at h ⊢
    generalize hL : (if c = 0xE0 then (0xA0 : UInt8) else if c = 0xF0 then 0x90 else 0x80) = lo
      at h ⊢
    have hlo : 128 ≤ lo := hL ▸ by split_ifs <;> decide
    generalize (if c = 0xED then (0x9F : UInt8) else if c = 0xF4 then 0x8F else 0xBF) = hi at h ⊢
    by_cases h5 : c < 240
    · simp only [h5, if_true, show 3 - 2 = 1 from rfl, show List.range 1 = [0] from rfl,
        List.all_cons, List.all_nil, Bool.and_true] at h ⊢
      rcases s with _ | ⟨a, _ | ⟨b, s⟩⟩ <;>
        simp only [headIn_nil, Bool.and_false, Bool.false_and, List.drop_succ_cons, List.drop_zero,
          List.drop_nil, Bool.false_eq_true, if_false] at h <;> try omega
      split_ifs at h with hab
      cases h
      simp only [headIn_cons, Bool.and_eq_true, decide_eq_true_eq] at hab
      simp [headIn_cons, hab, UInt8.le_trans hlo hab.1.1]
    · simp only [h5, if_false, show 4 - 2 = 2 from rfl, show List.range 2 = [0, 1] from rfl,
        List.all_cons, List.all_nil, Bool.and_true] at h ⊢
      rcases s with _ | ⟨a, _ | ⟨b, _ | ⟨d, s⟩⟩⟩ <;>
        simp only [headIn_nil, Bool.and_false, Bool.false_and, List.drop_succ_cons, List.drop_zero,
          List.drop_nil, Bool.false_eq_true, if_false] at h <;> try omega
      split_ifs at h with hab
      cases h
      simp only [headIn_cons, Bool.and_eq_true, decide_eq_true_eq] at hab
      simp [headIn_cons, hab, UInt8.le_trans hlo hab.1.1]
  · simp [h1, h2, h3, h4] at h

theorem utf8Valid_go_cons {f : Nat} {c : UInt8} {s : GoString}
    (h : utf8Valid.go (f + 1) (c :: s) = true) :
    ∃ n, utf8SeqLen (c :: s) = n + 1 ∧ utf8Valid.go f (s.drop n) = true := by
  simp only [utf8Valid.go] at h
  split at h
  · cases h
  · exact ⟨_, ‹_›, h⟩

theorem eq_cons_cons_of_take_two {s : GoString} {a b : UInt8} (h : s.take 2 = [a, b]) :
    ∃ t, s = a :: b :: t :=
  ⟨s.drop 2, by rw [← List.take_append_drop 2 s, h]; rfl⟩

/-! ## Tokens -/

/-- `tok` passes the string scan unchanged, whatever follows it; `pg` adds PostgreSQL's
checks to `Unmarshal`'s. -/
def Scans (pg : Bool) (tok : GoString) : Prop :=
  ∀ rest, scanString pg (tok ++ rest) = (scanString pg rest).map fun p => (tok ++ p.1, p.2)

def Decodes (tok d : GoString) : Prop :=
  ∀ g rest, unquote.go (g + 1) (tok ++ rest) = d ++ unquote.go g rest

/-- `tok` is well-formed UTF-8 made of at most `tok.length` whole sequences, whatever
follows it. -/
def Utf8Tok (tok : GoString) : Prop :=
  ∃ m ≤ tok.length, ∀ f t, utf8Valid.go (f + m) (tok ++ t) = utf8Valid.go f t

section Tokens

variable {pg : Bool}

theorem Scans.append {a b : GoString} (ha : Scans pg a) (hb : Scans pg b) : Scans pg (a ++ b) :=
  fun rest => by
    rw [List.append_assoc, ha, hb, Option.map_map]
    simp [Function.comp_def]

theorem scans_plain {c : UInt8} (h1 : ¬ c < 32) (h34 : c ≠ 34) (h92 : c ≠ 92) : Scans pg [c] :=
  fun rest => by
    delta scanString
    dsimp only [List.brecOn, List.rec, List.cons_append, List.nil_append]
    delta scanString.match_4
    dsimp only
    rw [dif_neg h34, dif_neg h92]
    simp only [h1, if_false]

theorem scans_short {e : UInt8} (hu : e ≠ 117) (he : isShortEscape e = true) :
    Scans pg [92, e] := fun rest => by
  delta scanString
  dsimp only [List.brecOn, List.rec, List.cons_append, List.nil_append]
  delta scanString.match_4
  dsimp only
  rw [dif_neg (by decide), dif_pos rfl, dif_neg hu]
  simp only [he, if_true]

theorem scans_unicode {a b c d : UInt8} {r : Nat} (h : hex4 a b c d = some r)
    (hpg : pg = true → r ≠ 0 ∧ isSurrogate r = false) : Scans pg [92, 117, a, b, c, d] :=
  fun rest => by
  delta scanString
  dsimp only [List.brecOn, List.rec, List.cons_append, List.nil_append]
  delta scanString.match_4
  dsimp only
  rw [dif_neg (by decide), dif_pos rfl, dif_pos rfl]
  split <;> rename_i h' <;> rw [h] at h' <;> cases h'
  cases pg
  · rfl
  · obtain ⟨h0, hs⟩ := hpg rfl
    rw [if_neg (by simpa using h0), if_neg (by simpa using hs)]

theorem scans_high : ∀ {tok : GoString}, (∀ b ∈ tok, 128 ≤ b) → Scans pg tok
  | [], _ => fun rest => by simp
  | b :: tok, h => by
    obtain ⟨h1, h2, h3⟩ := plain_of_high (h b (List.mem_cons_self _ _))
    exact (scans_plain h1 h2 h3).append (scans_high fun b hb => h b (List.mem_cons_of_mem _ hb))

end Tokens

theorem scanString_nul (rest : GoString) :
    scanString true ([92, 117, 48, 48, 48, 48] ++ rest) = none := by
  delta scanString
  dsimp only [List.brecOn, List.rec, List.cons_append, List.nil_append]
  delta scanString.match_4
  dsimp only
  rw [dif_neg (by decide), dif_pos rfl, dif_pos rfl, show hex4 48 48 48 48 = some 0 from rfl]
  rfl

theorem utf8Tok_nil : Utf8Tok [] := ⟨0, Nat.zero_le _, fun _ _ => rfl⟩

theorem Utf8Tok.append {a b : GoString} (ha : Utf8Tok a) (hb : Utf8Tok b) : Utf8Tok (a ++ b) := by
  obtain ⟨m, hm, ha⟩ := ha
  obtain ⟨n, hn, hb⟩ := hb
  refine ⟨n + m, by rw [List.length_append]; omega, fun f t => ?_⟩
  rw [List.append_assoc, ← Nat.add_assoc, ha, hb]

theorem utf8SeqLen_ascii {c : UInt8} (hc : c < 128) (s : GoString) : utf8SeqLen (c :: s) = 1 := by
  unfold utf8SeqLen
  exact if_pos hc

theorem utf8Tok_ascii : ∀ {tok : GoString}, (∀ b ∈ tok, b < 128) → Utf8Tok tok
  | [], _ => utf8Tok_nil
  | c :: tok, h => by
    refine Utf8Tok.append (a := [c]) ⟨1, le_rfl, fun f t => ?_⟩
      (utf8Tok_ascii fun b hb => h b (List.mem_cons_of_mem _ hb))
    rw [List.singleton_append]
    simp only [utf8Valid.go, utf8SeqLen_ascii (h c (List.mem_cons_self _ _)), List.drop_zero]

theorem utf8Tok_seq {c : UInt8} {s : GoString} {n : Nat} (h : utf8SeqLen (c :: s) = n + 1) :
    Utf8Tok (c :: s.take n) := by
  obtain ⟨hlen, -, happ⟩ := utf8SeqLen_eq_succ h
  refine ⟨1, by simp, fun f t => ?_⟩
  rw [List.cons_append]
  simp only [utf8Valid.go, happ t, List.drop_left' (List.length_take_of_le hlen)]

theorem utf8Valid_of_utf8Tok {s : GoString} (h : Utf8Tok s) : utf8Valid s = true := by
  obtain ⟨m, hm, h⟩ := h
  have := h (s.length - m) []
  rw [List.append_nil, Nat.sub_add_cancel hm] at this
  rw [utf8Valid, this]
  cases s.length - m <;> rfl

theorem decodes_short {e : UInt8} (hu : e ≠ 117) : Decodes [92, e] [escapeByte e] :=
  fun g rest => by
    delta unquote.go
    dsimp only [Nat.brecOn, Nat.rec, List.cons_append, List.nil_append]
    delta unquote.go.match_1
    dsimp only
    rw [dif_pos rfl, dif_neg hu]

theorem decodes_unicode {a b c d : UInt8} {r : Nat} (h : hex4 a b c d = some r)
    (hs : isSurrogate r = false) : Decodes [92, 117, a, b, c, d] (encodeRune r) :=
  fun g rest => by
    delta unquote.go
    dsimp only [Nat.brecOn, Nat.rec, List.cons_append, List.nil_append]
    delta unquote.go.match_1
    dsimp only
    rw [dif_pos rfl, dif_pos rfl]
    simp only [h, hs, Bool.false_eq_true, if_false]

theorem decodes_ascii {c : UInt8} (h92 : c ≠ 92) (hc : c < 128) : Decodes [c] [c] :=
  fun g rest => by
    delta unquote.go
    dsimp only [Nat.brecOn, Nat.rec, List.cons_append, List.nil_append]
    delta unquote.go.match_1
    dsimp only
    rw [dif_neg h92]
    simp only [hc, if_true]

theorem unquote_go_seq (g : Nat) {c : UInt8} (h92 : c ≠ 92) (hc : ¬ c < 128) {n : Nat}
    {rest : GoString} (h : utf8SeqLen (c :: rest) = n + 1) :
    unquote.go (g + 1) (c :: rest) = c :: rest.take n ++ unquote.go g (rest.drop n) := by
  delta unquote.go
  dsimp only [Nat.brecOn, Nat.rec]
  delta unquote.go.match_1
  dsimp only
  rw [dif_neg h92]
  simp only [hc, if_false, h]

theorem decodes_seq {c : UInt8} {s : GoString} {n : Nat} (hc : 128 ≤ c)
    (h : utf8SeqLen (c :: s) = n + 1) : Decodes (c :: s.take n) (c :: s.take n) := fun g rest => by
  obtain ⟨hlen, -, happ⟩ := utf8SeqLen_eq_succ h
  have hn : (s.take n).length = n := List.length_take_of_le hlen
  rw [List.cons_append, unquote_go_seq g (plain_of_high hc).2.2 (UInt8.not_lt.2 hc) (happ rest),
    List.take_left' hn, List.drop_left' hn, List.cons_append]

/--
What one step of `Marshal`'s string encoder writes for the bytes `c :: s`: a token that
scans as it is, under PostgreSQL's checks too unless `c` is NUL, which it writes as the
`\u0000` they refuse; the token is well-formed UTF-8, and the step then skips `k`
continuation bytes.  On a well-formed sequence of `n + 1` bytes, `k = n` and the token
decodes back to the sequence.
-/
structure EscapeStep (c : UInt8) (s tok : GoString) (k : Nat) : Prop where
  ne_nil : tok ≠ []
  scans : ∀ pg, (pg = true → c ≠ 0) → Scans pg tok
  nul : c = 0 → ∀ rest, scanString true (tok ++ rest) = none
  utf8 : Utf8Tok tok
  skipped : ∀ b ∈ s.take k, 128 ≤ b
  decodes : ∀ n, utf8SeqLen (c :: s) = n + 1 → k = n ∧ Decodes tok (c :: s.take k)

theorem EscapeStep.ascii {c : UInt8} {s tok : GoString} (hc : c < 128) (hne : tok ≠ [])
    (hscan : ∀ pg, (pg = true → c ≠ 0) → Scans pg tok)
    (hnul : c = 0 → ∀ rest, scanString true (tok ++ rest) = none)
    (hasc : ∀ b ∈ tok, b < 128) (hd : Decodes tok [c]) : EscapeStep c s tok 0 where
  ne_nil := hne
  scans := hscan
  nul := hnul
  utf8 := utf8Tok_ascii hasc
  skipped := by simp
  decodes n hn := by
    have := utf8SeqLen_ascii hc s
    exact ⟨by omega, hd⟩

theorem hexDigit_lt_128 : ∀ n < 16, hexDigit n < 128 := by decide

theorem escape_go_cons (f : Nat) (c : UInt8) (s : GoString) :
    ∃ tok k, escape.go (f + 1) (c :: s) = tok ++ escape.go f (s.drop k) ∧
      EscapeStep c s tok k := by
  by_cases hc : c < 128
  · suffices h : ∃ tok, escape.go (f + 1) (c :: s) = tok ++ escape.go f s ∧
        EscapeStep c s tok 0 from
      let ⟨tok, heq, hstep⟩ := h
      ⟨tok, 0, by rw [List.drop_zero]; exact heq, hstep⟩
    rw [escape.go, if_pos hc]
    refine ⟨_, rfl, ?_⟩
    by_cases hs : c = 92 ∨ c = 34 ∨ c = 8 ∨ c = 12 ∨ c = 10 ∨ c = 13 ∨ c = 9
    · rcases hs with rfl | rfl | rfl | rfl | rfl | rfl | rfl <;>
        exact EscapeStep.ascii hc (List.cons_ne_nil _ _)
          (fun _ _ => scans_short (by decide) rfl) (fun h => absurd h (by decide)) (by decide)
          (decodes_short (by decide))
    simp only [not_or] at hs
    obtain ⟨h92, h34, h8, h12, h10, h13, h9⟩ := hs
    simp only [h92, h34, h8, h12, h10, h13, h9, decide_False, Bool.or_false, if_false,
      Bool.false_eq_true]
    split
    · have hd1 := hexDigit_lt_128 (c.toNat / 16) (by have := toNat_lt_of_lt_128 hc; omega)
      have hd2 := hexDigit_lt_128 (c.toNat % 16) (by omega)
      refine EscapeStep.ascii hc (List.cons_ne_nil _ _)
        (fun _ hpg => scans_unicode (hex4_hexDigit hc) fun h => ⟨fun h0 => hpg h ?_,
          isSurrogate_ascii hc⟩) (fun h rest => ?_) ?_
        (encodeRune_ascii hc ▸ decodes_unicode (hex4_hexDigit hc) (isSurrogate_ascii hc))
      · exact UInt8.toNat.inj h0
      · subst h; exact scanString_nul rest
      · simp only [List.mem_cons, List.mem_singleton, List.not_mem_nil, or_false]
        rintro b (rfl | rfl | rfl | rfl | rfl | rfl) <;> first | decide | assumption
    · rename_i hu
      simp only [Bool.or_eq_true, decide_eq_true_eq, not_or] at hu
      exact EscapeStep.ascii hc (List.cons_ne_nil _ _)
        (fun _ _ => scans_plain hu.1.1.1 h34 h92)
        (fun h => absurd (h ▸ hu.1.1.1) (by decide)) (by simpa using hc) (decodes_ascii h92 hc)
  · have h80 : 128 ≤ c := UInt8.not_lt.1 hc
    have hc0 : c ≠ 0 := fun h => absurd (h ▸ h80) (by decide)
    rw [escape.go, if_neg hc]
    rcases hn : utf8SeqLen (c :: s) with _ | n
    · exact ⟨lit "\\ufffd", 0, rfl, List.cons_ne_nil _ _,
        fun _ _ => scans_unicode (r := 0xFFFD) rfl fun _ => ⟨by decide, rfl⟩,
        fun h => absurd h hc0, utf8Tok_ascii (by decide), by simp, fun n h => by omega⟩
    obtain ⟨-, hcont, -⟩ := utf8SeqLen_eq_succ hn
    dsimp only
    split_ifs with h28 h29
    · simp only [Bool.and_eq_true, decide_eq_true_eq] at h28
      obtain ⟨rfl, t, rfl⟩ := And.imp_right eq_cons_cons_of_take_two h28
      obtain rfl : n = 2 := by
        have : utf8SeqLen (226 :: 128 :: 168 :: t) = 3 := rfl
        omega
      exact ⟨_, 2, rfl, List.cons_ne_nil _ _,
        fun _ _ => scans_unicode rfl fun _ => ⟨by decide, rfl⟩, fun h => absurd h hc0,
        utf8Tok_ascii (by decide), by simp only [List.take_succ_cons, List.take_zero]; decide,
        fun m hm => ⟨by omega, decodes_unicode (r := 0x2028) rfl rfl⟩⟩
    · simp only [Bool.and_eq_true, decide_eq_true_eq] at h29
      obtain ⟨rfl, t, rfl⟩ := And.imp_right eq_cons_cons_of_take_two h29
      obtain rfl : n = 2 := by
        have : utf8SeqLen (226 :: 128 :: 169 :: t) = 3 := rfl
        omega
      exact ⟨_, 2, rfl, List.cons_ne_nil _ _,
        fun _ _ => scans_unicode rfl fun _ => ⟨by decide, rfl⟩, fun h => absurd h hc0,
        utf8Tok_ascii (by decide), by simp only [List.take_succ_cons, List.take_zero]; decide,
        fun m hm => ⟨by omega, decodes_unicode (r := 0x2029) rfl rfl⟩⟩
    · exact ⟨c :: s.take n, n, rfl, List.cons_ne_nil _ _,
        fun _ _ => scans_high (List.forall_mem_cons.2 ⟨h80, hcont⟩), fun h => absurd h hc0,
        utf8Tok_seq hn, hcont, fun m hm => ⟨by omega, decodes_seq h80 hn⟩⟩

/-! ## Strings -/

theorem scanString_escape (pg : Bool) (f : Nat) (x t : GoString) (hx : pg = true → 0 ∉ x) :
    scanString pg (escape.go f x ++ 34 :: t) = some (escape.go f x, t) := by
  induction f generalizing x with
  | zero => cases x <;> rfl
  | succ f ih =>
    cases x with
    | nil => rfl
    | cons c s =>
      obtain ⟨tok, k, heq, hstep⟩ := escape_go_cons f c s
      have hc : pg = true → c ≠ 0 := fun h h0 => hx h (h0 ▸ List.mem_cons_self _ _)
      have hs : pg = true → 0 ∉ s.drop k := fun h h0 =>
        hx h (List.mem_cons_of_mem _ (List.mem_of_mem_drop h0))
      rw [heq, List.append_assoc, hstep.scans pg hc, ih _ hs]
      rfl

theorem scanString_escape_nul (f : Nat) (x rest : GoString) (hx : 0 ∈ x) (hf : x.length ≤ f) :
    scanString true (escape.go f x ++ rest) = none := by
  induction f generalizing x with
  | zero =>
    cases x with
    | nil => cases hx
    | cons => simp at hf
  | succ f ih =>
    cases x with
    | nil => cases hx
    | cons c s =>
      obtain ⟨tok, k, heq, hstep⟩ := escape_go_cons f c s
      rw [heq, List.append_assoc]
      by_cases hc : c = 0
      · exact hstep.nul hc _
      -- the bytes the step skips are continuation bytes, so the NUL lies after them
      have hs : 0 ∈ s.drop k := by
        have h0 := (List.mem_cons.1 hx).resolve_left fun h => hc h.symm
        rw [← List.take_append_drop k s, List.mem_append] at h0
        exact h0.resolve_left fun h => absurd (hstep.skipped 0 h) (by decide)
      rw [hstep.scans true fun _ => hc, ih _ hs (by simp at hf ⊢; omega)]
      rfl

theorem utf8Tok_escape_go (f : Nat) (x : GoString) : Utf8Tok (escape.go f x) := by
  induction f generalizing x with
  | zero => cases x <;> exact utf8Tok_nil
  | succ f ih =>
    cases x with
    | nil => exact utf8Tok_nil
    | cons c s =>
      obtain ⟨tok, k, heq, hstep⟩ := escape_go_cons f c s
      rw [heq]
      exact hstep.utf8.append (ih _)

theorem unquote_go_escape (f : Nat) (x : GoString) (hx : utf8Valid.go f x = true) (g : Nat)
    (hg : (escape.go f x).length ≤ g) : unquote.go g (escape.go f x) = x := by
  induction f generalizing x g with
  | zero =>
    cases x with
    | nil => cases g <;> rfl
    | cons => cases hx
  | succ f ih =>
    cases x with
    | nil => cases g <;> rfl
    | cons c s =>
      obtain ⟨n, hn, hv⟩ := utf8Valid_go_cons hx
      obtain ⟨tok, k, heq, hstep⟩ := escape_go_cons f c s
      obtain ⟨rfl, hd⟩ := hstep.decodes n hn
      rw [heq] at hg ⊢
      have htok := List.length_pos.2 hstep.ne_nil
      rw [List.length_append] at hg
      obtain ⟨g, rfl⟩ : ∃ g', g = g' + 1 := ⟨g - 1, by omega⟩
      rw [hd, ih _ hv g (by omega), List.cons_append, List.take_append_drop]

theorem unquote_escape {x : GoString} (hx : utf8Valid x = true) : unquote (escape x) = x :=
  unquote_go_escape _ _ hx _ le_rfl

/-! ## Arrays of strings -/

theorem intercalate_cons_cons (sep a b : GoString) (l : List GoString) :
    List.intercalate sep (a :: b :: l) = a ++ sep ++ List.intercalate sep (b :: l) := by
  simp [List.intercalate, List.intersperse]

section Arrays

variable (pg : Bool)

theorem parseValue_escape (f : Nat) (m t : GoString) (hm : pg = true → 0 ∉ m) :
    parseValue pg (f + 1) ((34 :: escape m ++ [34]) ++ t) = some (.string (escape m), t) := by
  simp only [List.cons_append, List.append_assoc, List.singleton_append]
  show (scanString pg _).map _ = _
  rw [escape, scanString_escape pg _ _ _ hm]
  rfl

theorem parseElements_comma (f : Nat) {s s' : GoString} {v : Value}
    (h : parseValue pg f s = some (v, 44 :: s')) :
    parseElements pg (f + 1) s = (parseElements pg f s').map fun p => (v :: p.1, p.2) := by
  show (do let (v, s) ← parseValue pg f s; _) = _
  rw [h]
  rfl

theorem parseElements_close (f : Nat) {s s' : GoString} {v : Value}
    (h : parseValue pg f s = some (v, 93 :: s')) :
    parseElements pg (f + 1) s = some ([v], s') := by
  show (do let (v, s) ← parseValue pg f s; _) = _
  rw [h]
  rfl

theorem parseElements_none (f : Nat) {s : GoString} (h : parseValue pg f s = none) :
    parseElements pg (f + 1) s = none := by
  show (do let (v, s) ← parseValue pg f s; _) = _
  rw [h]
  rfl

theorem parseElements_marshal : ∀ (m : GoString) (ms : List GoString) (f : Nat) (rest : GoString),
    (List.intercalate [44] ((m :: ms).map fun x => 34 :: escape x ++ [34])).length < f →
    (pg = true → ∀ x ∈ m :: ms, 0 ∉ x) →
    parseElements pg f
        (List.intercalate [44] ((m :: ms).map fun x => 34 :: escape x ++ [34]) ++ 93 :: rest) =
      some ((m :: ms).map fun x => .string (escape x), rest)
  | m, [], f + 1, rest, hf, hms => by
    simp only [List.map_cons, List.map_nil, List.intercalate, List.intersperse, List.flatten,
      List.append_nil, List.length_cons, List.length_append] at hf ⊢
    obtain ⟨f, rfl⟩ : ∃ f', f = f' + 1 := ⟨f - 1, by omega⟩
    exact parseElements_close pg _
      (parseValue_escape pg f m _ fun h => hms h m (List.mem_cons_self _ _))
  | m, m' :: ms, f + 1, rest, hf, hms => by
    have ih := parseElements_marshal m' ms
    simp only [List.map_cons] at ih hf ⊢
    rw [intercalate_cons_cons] at hf ⊢
    simp only [List.length_append, List.length_cons] at hf
    obtain ⟨f, rfl⟩ : ∃ f', f = f' + 1 := ⟨f - 1, by omega⟩
    rw [List.append_assoc, List.append_assoc, List.singleton_append,
      parseElements_comma pg _
        (parseValue_escape pg f m _ fun h => hms h m (List.mem_cons_self _ _)),
      ih (f + 1) rest (by omega) fun h x hx => hms h x (List.mem_cons_of_mem _ hx)]
    rfl

theorem parseValue_array (f : Nat) {s : GoString} (hs : s.head? = some 34) :
    parseValue pg (f + 1) (91 :: s) =
      (parseElements pg f s).map fun p => (.array p.1, p.2) := by
  cases s with
  | nil => cases hs
  | cons c s => obtain rfl := Option.some.inj hs; rfl

end Arrays

theorem parseValue_escape_nul (f : Nat) (m t : GoString) (hm : 0 ∈ m) :
    parseValue true (f + 1) ((34 :: escape m ++ [34]) ++ t) = none := by
  simp only [List.cons_append, List.append_assoc, List.singleton_append]
  show (scanString true _).map _ = _
  rw [escape, scanString_escape_nul _ _ _ hm le_rfl]
  rfl

theorem parseElements_marshal_nul :
    ∀ (m : GoString) (ms : List GoString) (f : Nat) (rest : GoString),
    (List.intercalate [44] ((m :: ms).map fun x => 34 :: escape x ++ [34])).length < f →
    (∃ x ∈ m :: ms, 0 ∈ x) →
    parseElements true f
      (List.intercalate [44] ((m :: ms).map fun x => 34 :: escape x ++ [34]) ++ 93 :: rest) =
      none
  | m, [], f + 1, rest, hf, hms => by
    simp only [List.map_cons, List.map_nil, List.intercalate, List.intersperse, List.flatten,
      List.append_nil, List.length_cons, List.length_append] at hf ⊢
    obtain ⟨f, rfl⟩ : ∃ f', f = f' + 1 := ⟨f - 1, by omega⟩
    exact parseElements_none true _ (parseValue_escape_nul f m _ (by simpa using hms))
  | m, m' :: ms, f + 1, rest, hf, hms => by
    have ih := parseElements_marshal_nul m' ms
    simp only [List.map_cons] at ih hf ⊢
    rw [intercalate_cons_cons] at hf ⊢
    simp only [List.length_append, List.length_cons] at hf
    obtain ⟨f, rfl⟩ : ∃ f', f = f' + 1 := ⟨f - 1, by omega⟩
    rw [List.append_assoc, List.append_assoc, List.singleton_append]
    by_cases hm : 0 ∈ m
    · exact parseElements_none true _ (parseValue_escape_nul f m _ hm)
    have hrest : ∃ x ∈ m' :: ms, 0 ∈ x := by
      obtain ⟨x, hx, h0⟩ := hms
      rcases List.mem_cons.1 hx with rfl | hx
      · exact absurd h0 hm
      · exact ⟨x, hx, h0⟩
    rw [parseElements_comma true _ (parseValue_escape true f m _ fun _ => hm),
      ih (f + 1) rest (by omega) hrest]
    rfl

theorem toStrings_escape : ∀ {ms : List GoString}, (∀ m ∈ ms, utf8Valid m = true) →
    Value.toStrings (.array (ms.map fun x => .string (escape x))) = some ms
  | [], _ => rfl
  | m :: ms, h => by
    have ih := toStrings_escape fun x hx => h x (List.mem_cons_of_mem m hx)
    simp only [Value.toStrings, List.map_cons, List.mapM_cons] at ih ⊢
    simp only [ih, unquote_escape (h m (List.mem_cons_self m ms))]
    rfl

theorem head_marshal (m : GoString) (ms : List GoString) :
    (List.intercalate [44] ((m :: ms).map fun x => 34 :: escape x ++ [34]) ++ [93]).head? =
      some 34 := by
  cases ms <;> rfl

theorem unmarshalStrings_marshalStrings {ms : List GoString}
    (h : ∀ m ∈ ms, utf8Valid m = true) :
    unmarshalStrings (marshalStrings ms) = some ms := by
  cases ms with
  | nil => rfl
  | cons m ms =>
    rw [unmarshalStrings, parse, marshalStrings, List.cons_append,
      parseValue_array false _ (head_marshal m ms),
      parseElements_marshal false m ms _ [] (by simp; omega) fun h => nomatch h]
    exact toStrings_escape h

/-! ## What `jsonb` accepts -/

theorem utf8Tok_intercalate : ∀ {l : List GoString}, (∀ x ∈ l, Utf8Tok x) →
    Utf8Tok (List.intercalate [44] l)
  | [], _ => utf8Tok_nil
  | [a], h => by simpa [List.intercalate] using h a (List.mem_singleton_self a)
  | a :: b :: l, h => by
    rw [intercalate_cons_cons]
    exact ((h a (List.mem_cons_self _ _)).append (utf8Tok_ascii (by decide))).append
      (utf8Tok_intercalate fun x hx => h x (List.mem_cons_of_mem _ hx))

theorem utf8Valid_marshalStrings (ms : List GoString) : utf8Valid (marshalStrings ms) = true := by
  have hq : ∀ x ∈ ms.map fun x => 34 :: escape x ++ [34], Utf8Tok x := by
    simp only [List.mem_map]
    rintro _ ⟨x, -, rfl⟩
    exact ((utf8Tok_ascii (by decide) : Utf8Tok [34]).append (utf8Tok_escape_go _ x)).append
      (utf8Tok_ascii (by decide))
  exact utf8Valid_of_utf8Tok (((utf8Tok_ascii (by decide) : Utf8Tok [91]).append
    (utf8Tok_intercalate hq)).append (utf8Tok_ascii (by decide)))

theorem parse_marshalStrings_isSome (ms : List GoString) :
    (parse true (marshalStrings ms)).isSome = true ↔ ∀ m ∈ ms, (0 : UInt8) ∉ m := by
  cases ms with
  | nil => exact iff_of_true rfl fun _ h => nomatch h
  | cons m ms =>
    rw [parse, marshalStrings, List.cons_append, parseValue_array true _ (head_marshal m ms)]
    by_cases h : ∀ x ∈ m :: ms, (0 : UInt8) ∉ x
    · rw [parseElements_marshal true m ms _ [] (by simp; omega) fun _ => h]
      exact iff_of_true rfl h
    · have hnul : ∃ x ∈ m :: ms, 0 ∈ x := by
        by_contra hc
        exact h fun x hx h0 => hc ⟨x, hx, h0⟩
      rw [parseElements_marshal_nul m ms _ [] (by simp; omega) hnul]
      exact iff_of_false (by simp) h

/--
The `jsonb` column `bindings.members` takes `json.Marshal(members)` exactly when
no member has a NUL byte: `Marshal` writes NUL as the escape `\u0000`, which
PostgreSQL refuses, and its output is otherwise well-formed UTF-8 that
PostgreSQL parses.
-/
theorem jsonbAccepts_marshalStrings (ms : List GoString) :
    jsonbAccepts (marshalStrings ms) = true ↔ ∀ m ∈ ms, (0 : UInt8) ∉ m := by
  rw [← parse_marshalStrings_isSome, jsonbAccepts, utf8Valid_marshalStrings]
  simp [marshalStrings]

theorem jsonbAccepts_marshalStrings_of_nul {ms : List GoString} (h : ∃ m ∈ ms, (0 : UInt8) ∈ m) :
    jsonbAccepts (marshalStrings ms) = false := by
  obtain ⟨m, hm, h0⟩ := h
  have hparse : (parse true (marshalStrings ms)).isSome = false := by
    simpa using mt (parse_marshalStrings_isSome ms).1 fun hall => hall m hm h0
  simp [jsonbAccepts, hparse]

/-- `["a\u0000"]` is refused, `["a\u0001"]` taken. -/
example : jsonbAccepts (marshalStrings [[97, 0]]) = false ∧
    jsonbAccepts (marshalStrings [[97, 1]]) = true := by decide

end Iam.Json

import Vani.Backend.EmitText

/-!
# What the emitted string literals stand for

An escaped text is read back byte by byte, unless a trigraph in it is replaced first or the
hexadecimal escape of a control character takes in a digit behind it. Where one of the two
happens the bytes differ: a trigraph is shorter than what it replaces, and a longer escape
has a greater value. In a format, `%` is lost as well.
-/

set_option autoImplicit false

namespace Vani.Analysis

open Vani.Library Vani.Backend

/-! ## Bytes -/

/-- The byte has an escape of two characters. -/
def shortEscape : UInt8 → Option UInt8
  | 92 => some 92
  | 34 => some 34
  | 10 => some 110
  | 13 => some 114
  | 9 => some 116
  | _ => none

/-- The hexadecimal digit of a value, as a byte. -/
def hexByte (n : Nat) : UInt8 := if n < 10 then UInt8.ofNat (48 + n) else UInt8.ofNat (87 + n)

/-- The escape of a byte. -/
def escapeByte (b : UInt8) : List UInt8 :=
  match shortEscape b with
  | some e => [92, e]
  | none =>
    if b < 32 then [92, 120, hexByte (b.toNat / 16), hexByte (b.toNat % 16)] else [b]

attribute [local simp] escapeByte shortEscape

theorem escapeByte_big {b : UInt8} (h : 128 ≤ b.toNat) : escapeByte b = [b] := by
  have hshort : shortEscape b = none := by
    unfold shortEscape
    split <;> first | rfl | (exact absurd h (by decide))
  have hnot : ¬b < 32 := by
    rw [UInt8.lt_iff_toNat_lt, show UInt8.toNat 32 = 32 from rfl]
    omega
  unfold escapeByte
  rw [hshort]
  exact if_neg hnot

/-- The bytes of a character beyond ASCII are all big. -/
theorem utf8EncodeChar_big {ch : Char} (h : 128 ≤ ch.toNat) :
    ∀ b ∈ String.utf8EncodeChar ch, 128 ≤ b.toNat := by
  have hval : ch.val.toNat = ch.toNat := rfl
  unfold String.utf8EncodeChar
  rw [hval]
  dsimp only
  intro b hb
  rw [if_neg (by omega)] at hb
  split at hb
  · simp only [List.mem_cons, List.not_mem_nil, or_false] at hb
    rcases hb with rfl | rfl <;> simp only [UInt8.toNat_ofNat'] <;> omega
  · split at hb
    · simp only [List.mem_cons, List.not_mem_nil, or_false] at hb
      rcases hb with rfl | rfl | rfl <;> simp only [UInt8.toNat_ofNat'] <;> omega
    · simp only [List.mem_cons, List.not_mem_nil, or_false] at hb
      rcases hb with rfl | rfl | rfl | rfl <;> simp only [UInt8.toNat_ofNat'] <;> omega

theorem flatMap_escapeByte_big {bs : List UInt8} (h : ∀ b ∈ bs, 128 ≤ b.toNat) :
    bs.flatMap escapeByte = bs := by
  induction bs with
  | nil => rfl
  | cons b bs ih =>
    rw [List.flatMap_cons, escapeByte_big (h b List.mem_cons_self),
      ih fun c hc => h c (List.mem_cons_of_mem b hc)]
    rfl

theorem utf8_escapeChar_ascii : ∀ n : Fin 128,
    utf8 (escapeChar (Char.ofNat n)) =
      (String.utf8EncodeChar (Char.ofNat n)).flatMap escapeByte := by
  decide

/-- The bytes of an escaped character are the escaped bytes of the character. -/
theorem utf8_escapeChar (ch : Char) :
    utf8 (escapeChar ch) = (String.utf8EncodeChar ch).flatMap escapeByte := by
  by_cases hascii : ch.toNat < 128
  · have hchar := utf8_escapeChar_ascii ⟨ch.toNat, hascii⟩
    rwa [Char.ofNat_toNat] at hchar
  · have hplain : escapeChar ch = [ch] := by
      have hne : ∀ c : Char, c.toNat < 128 → ch ≠ c := fun c hc heq => hascii (heq ▸ hc)
      unfold escapeChar
      rw [if_neg (hne _ (by decide)), if_neg (hne _ (by decide)), if_neg (hne _ (by decide)),
        if_neg (hne _ (by decide)), if_neg (hne _ (by decide)), if_neg (by omega)]
    rw [hplain, flatMap_escapeByte_big (utf8EncodeChar_big (by omega))]
    exact List.flatMap_singleton ..

/-- The bytes of an escaped text are the escaped bytes of the text. -/
theorem utf8_escapeCString (text : List Char) :
    utf8 (escapeCString text) = (utf8 text).flatMap escapeByte := by
  induction text with
  | nil => rfl
  | cons ch text ih =>
    unfold utf8 escapeCString at *
    rw [List.flatMap_cons, List.flatMap_append, ih, List.flatMap_cons, List.flatMap_append]
    exact congrArg (· ++ _) (utf8_escapeChar ch)

/-! ## The first translation phase -/

/-- The escaped bytes of a text up to the quote behind them. -/
def escaped (s : List UInt8) : List UInt8 := s.flatMap escapeByte ++ [34]

theorem escaped_cons (c : UInt8) (s : List UInt8) : escaped (c :: s) = escapeByte c ++ escaped s := by
  unfold escaped
  rw [List.flatMap_cons, List.append_assoc]

theorem escapeByte_short {c e : UInt8} (h : shortEscape c = some e) : escapeByte c = [92, e] := by
  unfold escapeByte
  rw [h]

theorem escapeByte_control {c : UInt8} (h : shortEscape c = none) (hc : c < 32) :
    escapeByte c = [92, 120, hexByte (c.toNat / 16), hexByte (c.toNat % 16)] := by
  unfold escapeByte
  rw [h]
  exact if_pos hc

theorem escapeByte_plain {c : UInt8} (h : shortEscape c = none) (hc : ¬c < 32) :
    escapeByte c = [c] := by
  unfold escapeByte
  rw [h]
  exact if_neg hc

theorem trigraphAt_eq_some {c d : UInt8} {s : List UInt8} (h : trigraphAt c s = some d) :
    c = 63 ∧ ∃ e s', s = 63 :: e :: s' ∧ trigraph e = some d := by
  unfold trigraphAt at h
  split at h
  · exact ⟨rfl, _, _, rfl, h⟩
  · cases h

theorem trigraphAt_of_ne {c : UInt8} (h : c ≠ 63) (s : List UInt8) : trigraphAt c s = none := by
  cases hout : trigraphAt c s with
  | none => rfl
  | some d => exact absurd (trigraphAt_eq_some hout).1 h

/-- The last character of a trigraph is not escaped. -/
theorem escapeByte_trigraph {c d : UInt8} (h : trigraph c = some d) : escapeByte c = [c] := by
  unfold trigraph at h
  split at h <;> first | rfl | cases h

/-- The first character of an escaped byte is the byte or a backslash. -/
theorem escapeByte_head (c : UInt8) : escapeByte c = [c] ∨ ∃ r, escapeByte c = 92 :: r := by
  cases hshort : shortEscape c with
  | some e => exact Or.inr ⟨_, escapeByte_short hshort⟩
  | none =>
    by_cases hc : c < 32
    · exact Or.inr ⟨_, escapeByte_control hshort hc⟩
    · exact Or.inl (escapeByte_plain hshort hc)

/-- Escaping makes no trigraph. -/
theorem trigraphAt_escaped {c : UInt8} {s : List UInt8} (h : trigraphAt c s = none) :
    trigraphAt c (escaped s) = none := by
  cases hout : trigraphAt c (escaped s) with
  | none => rfl
  | some d =>
    obtain ⟨rfl, e, s', hs', htri⟩ := trigraphAt_eq_some hout
    cases s with
    | nil => cases hs'
    | cons x s =>
      rw [escaped_cons] at hs'
      rcases escapeByte_head x with hx | ⟨r, hx⟩
      · rw [hx] at hs'
        cases s with
        | nil =>
          cases hs'
          have hno : (none : Option UInt8) = some d := htri
          cases hno
        | cons y s =>
          rw [escaped_cons] at hs'
          rcases escapeByte_head y with hy | ⟨r, hy⟩
          · rw [hy] at hs'
            cases hs'
            exact htri.symm.trans h
          · rw [hy] at hs'
            cases hs'
            have hno : (none : Option UInt8) = some d := htri
            cases hno
      · rw [hx] at hs'
        cases hs'

/-- What the escaped bytes of a text are after the first translation phase. -/
inductive Image : List UInt8 → List UInt8 → Prop
  | nil : Image [] [34]
  | plain {c : UInt8} {s y : List UInt8} : shortEscape c = none → ¬c < 32 →
      trigraphAt c s = none → Image s y → Image (c :: s) (c :: y)
  | short {c e : UInt8} {s y : List UInt8} : shortEscape c = some e → Image s y →
      Image (c :: s) (92 :: e :: y)
  | control {c : UInt8} {s y : List UInt8} : shortEscape c = none → c < 32 → Image s y →
      Image (c :: s) (92 :: 120 :: hexByte (c.toNat / 16) :: hexByte (c.toNat % 16) :: y)
  | trigraph {c d : UInt8} {s y : List UInt8} : trigraph c = some d → Image s y →
      Image (63 :: 63 :: c :: s) (d :: y)

attribute [local simp] replaceFrom

theorem replaceFrom_cons {c : UInt8} {s : List UInt8} (h : trigraphAt c s = none) :
    replaceFrom 0 (c :: s) = c :: replaceFrom 0 s := by
  rw [replaceFrom, h]

theorem hexByte_ne {n : Nat} (h : n < 16) : hexByte n ≠ 63 := by
  have hall : ∀ n : Fin 16, hexByte n ≠ 63 := by decide
  exact hall ⟨n, h⟩

theorem image_of_length (n : Nat) : ∀ s : List UInt8, s.length ≤ n →
    Image s (replaceFrom 0 (escaped s)) := by
  induction n with
  | zero =>
    intro s hs
    rw [List.eq_nil_of_length_eq_zero (Nat.le_zero.mp hs)]
    exact Image.nil
  | succ n ih =>
    intro s hs
    cases s with
    | nil => exact Image.nil
    | cons c s =>
      rw [List.length_cons] at hs
      have hrest := ih s (by omega)
      rw [escaped_cons]
      cases hshort : shortEscape c with
      | some e =>
        have he : e ≠ 63 := by
          unfold shortEscape at hshort
          split at hshort <;> first | (cases hshort; decide) | cases hshort
        rw [escapeByte_short hshort, List.cons_append, List.singleton_append,
          replaceFrom_cons (trigraphAt_of_ne (by decide) _),
          replaceFrom_cons (trigraphAt_of_ne he _)]
        exact Image.short hshort hrest
      | none =>
        by_cases hc : c < 32
        · have hlt : c.toNat < 32 := UInt8.lt_iff_toNat_lt.mp hc
          rw [escapeByte_control hshort hc]
          simp only [List.cons_append, List.nil_append]
          rw [replaceFrom_cons (trigraphAt_of_ne (by decide) _),
            replaceFrom_cons (trigraphAt_of_ne (by decide) _),
            replaceFrom_cons (trigraphAt_of_ne (hexByte_ne (by omega)) _),
            replaceFrom_cons (trigraphAt_of_ne (hexByte_ne (by omega)) _)]
          exact Image.control hshort hc hrest
        · rw [escapeByte_plain hshort hc, List.singleton_append]
          cases htri : trigraphAt c s with
          | none =>
            rw [replaceFrom_cons (trigraphAt_escaped htri)]
            exact Image.plain hshort hc htri hrest
          | some d =>
            obtain ⟨rfl, e, s', rfl, he⟩ := trigraphAt_eq_some htri
            rw [escaped_cons, escaped_cons, escapeByte_trigraph he]
            have hskip : replaceFrom 0 (63 :: ([63] ++ ([e] ++ escaped s'))) =
                d :: replaceFrom 0 (escaped s') := by
              show replaceFrom 0 (63 :: 63 :: e :: escaped s') = _
              have htrig : trigraphAt 63 (63 :: e :: escaped s') = some d := he
              rw [replaceFrom, htrig]
              rfl
            rw [show escapeByte 63 = [63] from rfl, hskip]
            exact Image.trigraph he (ih s' (by rw [List.length_cons, List.length_cons] at hs; omega))

theorem image (s : List UInt8) : Image s (replaceFrom 0 (escaped s)) :=
  image_of_length s.length s (Nat.le_refl _)

/-! ## Reading -/

theorem numericEscape_some {v : Nat} {x : Option (List UInt8)} {r : List UInt8}
    (h : numericEscape v x = some r) : ∃ r', x = some r' ∧ v < 256 ∧ r = UInt8.ofNat v :: r' := by
  unfold numericEscape at h
  split at h
  · next hv =>
    obtain ⟨r', hr', rfl⟩ := Option.map_eq_some_iff.mp h
    exact ⟨r', hr', hv, rfl⟩
  · cases h

theorem onPlain_of_plain {c : UInt8} (h34 : c ≠ 34) (h92 : c ≠ 92) (h10 : c ≠ 10)
    (s : List UInt8) (next escaped : Option (List UInt8)) :
    onPlain c s next escaped = next.map (c :: ·) := by
  unfold onPlain
  rw [if_neg h34, if_neg h92, if_neg h10]

theorem universalBytes_length {v : Nat} {u : List UInt8} (h : universalBytes v = some u) :
    u.length ≤ 4 := by
  unfold universalBytes at h
  split at h
  · cases h
    rw [String.length_utf8EncodeChar]
    exact Char.utf8Size_le_four _
  · cases h

/-- What is read from here in each state is not much longer than the `n` bytes of the text
from here on. -/
structure ShortReads (n : Nat) (y : List UInt8) : Prop where
  plain : ∀ r, readLiteral .plain y = some r → r.length ≤ n
  escape : ∀ r, readLiteral .escape y = some r →
    r.length ≤ n + 3 ∧ (r.head? = some 63 → r.length ≤ n)
  hexFirst : ∀ r, readLiteral (.hex none) y = some r → r.length ≤ n
  hex : ∀ v r, readLiteral (.hex (some v)) y = some r → r.length ≤ n + 1
  octal : ∀ v k r, readLiteral (.octal v k) y = some r → r.length ≤ n + 1
  universal : ∀ v k r, readLiteral (.universal v k) y = some r → r.length + max k 1 ≤ n + 4

/-- A byte outside an escape sequence stands for one of the text. -/
theorem ShortReads.cons {n m : Nat} {y : List UInt8} (h : ShortReads n y) {c : UInt8}
    (h34 : c ≠ 34) (h92 : c ≠ 92) (h10 : c ≠ 10) (hm : n + 1 ≤ m) : ShortReads m (c :: y) := by
  have hplain : ∀ r, onPlain c y (readLiteral .plain y) (readLiteral .escape y) = some r →
      r.length ≤ m := by
    intro r hr
    rw [onPlain_of_plain h34 h92 h10] at hr
    obtain ⟨r', hr', rfl⟩ := Option.map_eq_some_iff.mp hr
    have hle := h.plain r' hr'
    rw [List.length_cons]
    omega
  have hnumeric : ∀ v r, numericEscape v
      (onPlain c y (readLiteral .plain y) (readLiteral .escape y)) = some r →
      r.length ≤ m + 1 := by
    intro v r hr
    obtain ⟨r', hr', -, rfl⟩ := numericEscape_some hr
    exact Nat.succ_le_succ (hplain r' hr')
  refine ⟨hplain, ?_, ?_, ?_, ?_, ?_⟩
  · intro r hr
    have hle : r.length ≤ m := by
      unfold readLiteral at hr
      split at hr
      · obtain ⟨r', hr', rfl⟩ := Option.map_eq_some_iff.mp hr
        have hle := h.plain r' hr'
        rw [List.length_cons]
        omega
      · split at hr
        · have hle := h.hexFirst r hr
          omega
        · split at hr
          · have hle := h.universal _ _ r hr
            omega
          · split at hr
            · have hle := h.universal _ _ r hr
              omega
            · split at hr
              · have hle := h.octal _ _ r hr
                omega
              · cases hr
    exact ⟨by omega, fun _ => hle⟩
  · intro r hr
    unfold readLiteral at hr
    split at hr
    · have hle := h.hex _ r hr
      omega
    · cases hr
  · intro v r hr
    unfold readLiteral at hr
    split at hr
    · have hle := h.hex _ r hr
      omega
    · exact hnumeric v r hr
  · intro v k r hr
    unfold readLiteral at hr
    split at hr
    · have hle := h.octal _ _ r hr
      omega
    · exact hnumeric v r hr
  · intro v k r hr
    unfold readLiteral at hr
    split at hr
    · cases hr
    · split at hr
      · obtain ⟨u, hu, hr⟩ := Option.bind_eq_some_iff.mp hr
        obtain ⟨r', hr', rfl⟩ := Option.map_eq_some_iff.mp hr
        have hle := h.plain r' hr'
        have hlength := universalBytes_length hu
        rw [List.length_append]
        omega
      · have hle := h.universal _ _ r hr
        omega

/-- A backslash in front of what is read as an escape sequence. -/
theorem ShortReads.backslash {n : Nat} {y : List UInt8}
    (hesc : ∀ r, readLiteral .escape y = some r → r.length ≤ n)
    (hplain : ∀ r, readLiteral .plain y = some r → r.length ≤ n + 2) :
    ShortReads n (92 :: y) := by
  have hnumeric : ∀ v r, numericEscape v
      (onPlain 92 y (readLiteral .plain y) (readLiteral .escape y)) = some r →
      r.length ≤ n + 1 := by
    intro v r hr
    obtain ⟨r', hr', -, rfl⟩ := numericEscape_some hr
    exact Nat.succ_le_succ (hesc r' hr')
  refine ⟨hesc, ?_, ?_, ?_, ?_, ?_⟩
  · intro r hr
    have hr : (readLiteral .plain y).map (92 :: ·) = some r := hr
    obtain ⟨r', hr', rfl⟩ := Option.map_eq_some_iff.mp hr
    have hle := hplain r' hr'
    refine ⟨Nat.succ_le_succ hle, fun hhead => ?_⟩
    cases hhead
  · intro r hr
    cases hr
  · intro v r hr
    exact hnumeric v r hr
  · intro v k r hr
    have hr : numericEscape v
        (onPlain 92 y (readLiteral .plain y) (readLiteral .escape y)) = some r := by
      cases k <;> exact hr
    exact hnumeric v r hr
  · intro v k r hr
    cases hr

/-- The value of the digits of a control character's escape. -/
theorem hexValue_hexByte {n : Nat} (h : n < 16) : hexValue (hexByte n) = some n := by
  have hall : ∀ n : Fin 16, hexValue (hexByte n) = some n.val := by decide
  exact hall ⟨n, h⟩

/-- A control character's escape is read up to where a digit may follow it. -/
theorem readLiteral_control {c : UInt8} (y : List UInt8) :
    readLiteral .escape (120 :: hexByte (c.toNat / 16) :: hexByte (c.toNat % 16) :: y) =
      readLiteral (.hex (some c.toNat)) y := by
  have hlt : c.toNat < 256 := UInt8.toNat_lt c
  show readLiteral (.hex none) _ = _
  rw [readLiteral, hexValue_hexByte (by omega)]
  dsimp only
  rw [readLiteral, hexValue_hexByte (by omega)]
  dsimp only [Option.getD]
  rw [show (0 * 16 + c.toNat / 16) * 16 + c.toNat % 16 = c.toNat by omega]

theorem readLiteral_short {c e : UInt8} (h : shortEscape c = some e) (y : List UInt8) :
    readLiteral .escape (e :: y) = (readLiteral .plain y).map (c :: ·) := by
  unfold shortEscape at h
  split at h <;> first | (cases h; rfl) | cases h

theorem Image.shortReads {s y : List UInt8} (h : Image s y) : ShortReads s.length y := by
  induction h with
  | nil =>
    have hnumeric : ∀ v r, numericEscape v (some []) = some r → r.length ≤ 0 + 1 := by
      intro v r hr
      obtain ⟨r', hr', -, rfl⟩ := numericEscape_some hr
      cases hr'
      exact Nat.le_refl 1
    refine ⟨?_, ?_, ?_, hnumeric, ?_, ?_⟩
    · intro r hr
      cases hr
      exact Nat.le_refl 0
    · intro r hr
      cases hr
    · intro r hr
      cases hr
    · intro v k r hr
      have hr : numericEscape v (some []) = some r := by
        cases k <;> exact hr
      exact hnumeric v r hr
    · intro v k r hr
      cases hr
  | @plain c s y hshort hc htri _ ih =>
    refine ih.cons ?_ ?_ ?_ (Nat.le_refl _)
    · rintro rfl
      cases hshort
    · rintro rfl
      cases hshort
    · rintro rfl
      cases hshort
  | @short c e s y hshort _ ih =>
    apply ShortReads.backslash
    · intro r hr
      rw [readLiteral_short hshort] at hr
      obtain ⟨r', hr', rfl⟩ := Option.map_eq_some_iff.mp hr
      exact Nat.succ_le_succ (ih.plain r' hr')
    · intro r hr
      have hr : onPlain e y (readLiteral .plain y) (readLiteral .escape y) = some r := hr
      unfold onPlain at hr
      rw [List.length_cons]
      split at hr
      · split at hr
        · cases hr
          exact Nat.zero_le _
        · cases hr
      · split at hr
        · exact (ih.escape r hr).1
        · split at hr
          · cases hr
          · obtain ⟨r', hr', rfl⟩ := Option.map_eq_some_iff.mp hr
            have hle := ih.plain r' hr'
            rw [List.length_cons]
            omega
  | @control c s y hshort hc _ ih =>
    have hlt : c.toNat < 32 := UInt8.lt_iff_toNat_lt.mp hc
    apply ShortReads.backslash
    · intro r hr
      rw [readLiteral_control] at hr
      exact ih.hex _ r hr
    · intro r hr
      have hdigit : ∀ n : Fin 16, hexByte n ≠ 34 ∧ hexByte n ≠ 92 ∧ hexByte n ≠ 10 := by decide
      have hfirst := hdigit ⟨c.toNat / 16, by omega⟩
      have hsecond := hdigit ⟨c.toNat % 16, by omega⟩
      have hbody := ((ih.cons hsecond.1 hsecond.2.1 hsecond.2.2 (Nat.le_refl _)).cons
        hfirst.1 hfirst.2.1 hfirst.2.2 (Nat.le_refl _)).cons (c := 120) (by decide) (by decide)
        (by decide) (Nat.le_refl _)
      exact hbody.plain r hr
  | @trigraph c d s y htri _ ih =>
    by_cases h92 : d = 92
    · subst h92
      apply ShortReads.backslash
      · intro r hr
        exact (ih.escape r hr).1
      · intro r hr
        have hle := ih.plain r hr
        simp only [List.length_cons]
        omega
    · refine ih.cons ?_ h92 ?_ (by simp only [List.length_cons]; omega)
      · rintro rfl
        unfold Library.trigraph at htri
        split at htri <;> cases htri
      · rintro rfl
        unfold Library.trigraph at htri
        split at htri <;> cases htri

/-! ## What is read back -/

/-- The byte is escaped by its hexadecimal value. -/
def HexEscaped (c : UInt8) : Prop := c < 32 ∧ shortEscape c = none

/-- No trigraph in the text. -/
def NoTrigraph (s : List UInt8) : Prop :=
  ∀ c, (Library.trigraph c).isSome → ¬[63, 63, c] <:+: s

/-- No control character with a hexadecimal digit behind it. -/
def NoSwallow (s : List UInt8) : Prop :=
  ∀ c d, HexEscaped c → (hexValue d).isSome → ¬[c, d] <:+: s

attribute [local simp] hexValue readLiteral

theorem noTrigraph_cons {c : UInt8} {s : List UInt8} (h : trigraphAt c s = none) :
    NoTrigraph (c :: s) ↔ NoTrigraph s := by
  refine forall₂_congr fun e he => not_congr ?_
  rw [List.infix_cons_iff]
  refine or_iff_right fun hpre => ?_
  obtain ⟨r, hr⟩ := hpre
  cases hr
  have hsome : Library.trigraph e = none := h
  rw [hsome] at he
  cases he

theorem noSwallow_cons {c : UInt8} {s : List UInt8}
    (h : HexEscaped c → s.head?.bind hexValue = none) :
    NoSwallow (c :: s) ↔ NoSwallow s := by
  refine forall₄_congr fun e d he hd => not_congr ?_
  rw [List.infix_cons_iff]
  refine or_iff_right fun hpre => ?_
  obtain ⟨r, hr⟩ := hpre
  cases hr
  have hnone : hexValue d = none := h he
  rw [hnone] at hd
  cases hd

/-- A digit is behind a place of the image exactly where one is in the text. -/
theorem Image.head_hex {s y : List UInt8} (h : Image s y) :
    y.head?.bind hexValue = s.head?.bind hexValue := by
  cases h with
  | nil => rfl
  | plain => rfl
  | @short c e s y hshort _ =>
    unfold shortEscape at hshort
    split at hshort <;> first | rfl | cases hshort
  | @control c s y hshort hc _ =>
    have hlt : c.toNat < 32 := UInt8.lt_iff_toNat_lt.mp hc
    have hnone : hexValue c = none := by
      unfold hexValue
      rw [if_neg (by omega), if_neg (by omega), if_neg (by omega)]
    exact hnone.symm
  | @trigraph c d s y htri _ =>
    unfold Library.trigraph at htri
    split at htri <;> first | (cases htri; rfl) | cases htri

/-- A hexadecimal escape is worth no less than what is read of it. -/
theorem le_of_readHex {y : List UInt8} {v : Nat} {b : UInt8} {r : List UInt8}
    (h : readLiteral (.hex (some v)) y = some (b :: r)) : v ≤ b.toNat := by
  induction y generalizing v with
  | nil => cases h
  | cons c y ih =>
    unfold readLiteral at h
    split at h
    · next d _ =>
      have hle : v * 16 + d ≤ b.toNat := ih h
      omega
    · obtain ⟨r', -, hv, heq⟩ := numericEscape_some h
      cases heq
      rw [UInt8.toNat_ofNat']
      omega

/-- The escape of a control character is read as the character if no digit follows. -/
theorem readHex_exact {c : UInt8} (hc : c ≠ 0) {y r : List UInt8} :
    readLiteral (.hex (some c.toNat)) y = some (c :: r) ↔
      y.head?.bind hexValue = none ∧ readLiteral .plain y = some r := by
  have hpos : 0 < c.toNat := Nat.pos_of_ne_zero fun hzero => hc (UInt8.toNat_inj.mp hzero)
  have hlt : c.toNat < 256 := UInt8.toNat_lt c
  cases y with
  | nil => exact ⟨nofun, nofun⟩
  | cons d y =>
    cases hd : hexValue d with
    | some n =>
      refine ⟨fun h => ?_, fun h => ?_⟩
      · unfold readLiteral at h
        rw [hd] at h
        have hle := le_of_readHex h
        dsimp only [Option.getD] at hle
        omega
      · have hnone : hexValue d = none := h.1
        rw [hd] at hnone
        cases hnone
    | none =>
      have hread : readLiteral (.hex (some c.toNat)) (d :: y) =
          (readLiteral .plain (d :: y)).map (c :: ·) := by
        conv_lhs => rw [readLiteral, hd]
        dsimp only
        unfold numericEscape
        rw [if_pos hlt, UInt8.ofNat_toNat]
        rfl
      rw [hread, Option.map_eq_some_iff]
      constructor
      · rintro ⟨r', hr', heq⟩
        cases heq
        exact ⟨hd, hr'⟩
      · rintro ⟨-, hr'⟩
        exact ⟨r, hr', rfl⟩

theorem map_cons_eq_some {x : Option (List UInt8)} {c : UInt8} {s : List UInt8} :
    x.map (c :: ·) = some (c :: s) ↔ x = some s := by
  rw [Option.map_eq_some_iff]
  constructor
  · rintro ⟨r, hr, heq⟩
    cases heq
    exact hr
  · intro h
    exact ⟨s, h, rfl⟩

/-- A text is read back from its image exactly if there is no trigraph in it and no control
character with a digit behind it. -/
theorem Image.exact {s y : List UInt8} (h : Image s y) (hnul : 0 ∉ s) :
    readLiteral .plain y = some s ↔ NoTrigraph s ∧ NoSwallow s := by
  induction h with
  | nil =>
    refine ⟨fun _ => ⟨fun c _ hin => ?_, fun c d _ _ hin => ?_⟩, fun _ => rfl⟩
    · exact absurd (List.infix_nil.mp hin) (List.cons_ne_nil _ _)
    · exact absurd (List.infix_nil.mp hin) (List.cons_ne_nil _ _)
  | @plain c s y hshort hc htri hs ih =>
    rw [noTrigraph_cons htri, noSwallow_cons fun hhex => absurd hhex.1 hc,
      ← ih fun hmem => hnul (List.mem_cons_of_mem c hmem)]
    show onPlain c y _ _ = _ ↔ _
    rw [onPlain_of_plain, map_cons_eq_some]
    · rintro rfl
      cases hshort
    · rintro rfl
      cases hshort
    · rintro rfl
      cases hshort
  | @short c e s y hshort hs ih =>
    have hne : c ≠ 63 := by
      rintro rfl
      cases hshort
    have hhex : ¬HexEscaped c := by
      rintro ⟨-, hnone⟩
      rw [hshort] at hnone
      cases hnone
    rw [noTrigraph_cons (trigraphAt_of_ne hne s), noSwallow_cons fun h => absurd h hhex,
      ← ih fun hmem => hnul (List.mem_cons_of_mem c hmem)]
    show readLiteral .escape (e :: y) = _ ↔ _
    rw [readLiteral_short hshort, map_cons_eq_some]
  | @control c s y hshort hc hs ih =>
    have hne : c ≠ 63 := by
      rintro rfl
      exact absurd hc (by decide)
    have hzero : c ≠ 0 := fun hzero => hnul (hzero ▸ List.mem_cons_self)
    rw [noTrigraph_cons (trigraphAt_of_ne hne s)]
    show readLiteral .escape _ = _ ↔ _
    rw [readLiteral_control, readHex_exact hzero, hs.head_hex,
      ih fun hmem => hnul (List.mem_cons_of_mem c hmem)]
    constructor
    · rintro ⟨hhead, htri, hswallow⟩
      exact ⟨htri, (noSwallow_cons fun _ => hhead).mpr hswallow⟩
    · rintro ⟨htri, hswallow⟩
      have hhead : s.head?.bind hexValue = none := by
        cases s with
        | nil => rfl
        | cons d s =>
          cases hd : hexValue d with
          | none => exact hd
          | some n =>
            exact absurd (List.IsPrefix.isInfix ⟨s, rfl⟩)
              (hswallow c d ⟨hc, hshort⟩ (by rw [hd]; rfl))
      exact ⟨hhead, htri, (noSwallow_cons fun _ => hhead).mp hswallow⟩
  | @trigraph c d s y htri hs ih =>
    have hbad : ¬NoTrigraph (63 :: 63 :: c :: s) := by
      intro h
      exact h c (by rw [htri]; rfl) (List.IsPrefix.isInfix ⟨s, rfl⟩)
    refine ⟨fun hread => ?_, fun hgood => absurd hgood.1 hbad⟩
    have hread : onPlain d y (readLiteral .plain y) (readLiteral .escape y) =
        some (63 :: 63 :: c :: s) := hread
    by_cases h92 : d = 92
    · subst h92
      have hle := (hs.shortReads.escape _ hread).2 rfl
      simp only [List.length_cons] at hle
      omega
    · have h63 : d ≠ 63 := by
        rintro rfl
        unfold Library.trigraph at htri
        split at htri <;> cases htri
      unfold onPlain at hread
      rw [if_neg h92] at hread
      split at hread
      · split at hread <;> cases hread
      · split at hread
        · cases hread
        · obtain ⟨r, -, heq⟩ := Option.map_eq_some_iff.mp hread
          cases heq
          exact absurd rfl h63

/-! ## The literals -/

theorem utf8_append (a b : List Char) : utf8 (a ++ b) = utf8 a ++ utf8 b := List.flatMap_append

/-- The value of a literal that starts with its quote. -/
theorem literalBytes_quote (s : List UInt8) :
    literalBytes (34 :: escaped s) = readLiteral .plain (replaceFrom 0 (escaped s)) := by
  unfold literalBytes replaceTrigraphs
  rw [replaceFrom_cons (trigraphAt_of_ne (by decide) _)]
  rfl

theorem utf8_strLiteral (text : List Char) :
    utf8 (strLiteral text) = 34 :: escaped (utf8 text) := by
  unfold strLiteral escaped
  rw [utf8_append]
  show 34 :: utf8 (escapeCString text) ++ [34] = _
  rw [utf8_escapeCString]
  rfl

/-- The format of an assertion is the literal of the line it is to write. -/
theorem utf8_assertFormat (msg : List Char) :
    utf8 (assertFormat msg) = 34 :: escaped (utf8 (assertPrefix ++ msg ++ ['\n'])) := by
  have hprefix : utf8 assertPrefix = (utf8 assertPrefix).flatMap escapeByte := by decide +kernel
  have hescaped : escaped (utf8 (assertPrefix ++ msg ++ ['\n'])) =
      utf8 assertPrefix ++ utf8 (escapeCString msg) ++ [92, 110, 34] := by
    unfold escaped
    rw [utf8_append, utf8_append, List.flatMap_append, List.flatMap_append, ← hprefix,
      ← utf8_escapeCString, List.append_assoc]
    rfl
  unfold assertFormat
  rw [hescaped, utf8_append, utf8_append]
  rfl

/-- No infix starts in what has none of its first byte. -/
theorem infix_append_left {x : UInt8} {p a s : List UInt8} (h : x ∉ a) :
    x :: p <:+: a ++ s ↔ x :: p <:+: s := by
  induction a with
  | nil => rfl
  | cons c a ih =>
    rw [List.cons_append, List.infix_cons_iff, ih fun hmem => h (List.mem_cons_of_mem c hmem)]
    refine or_iff_right fun hpre => ?_
    obtain ⟨r, hr⟩ := hpre
    exact h ((List.cons.inj hr).1 ▸ List.mem_cons_self)

/-- No infix ends in another byte behind a text. -/
theorem infix_concat {x y : UInt8} {p s : List UInt8} (h : x ≠ y) :
    p ++ [x] <:+: s ++ [y] ↔ p ++ [x] <:+: s := by
  rw [List.infix_concat_iff]
  refine or_iff_right fun hsuf => ?_
  obtain ⟨r, hr⟩ := hsuf
  rw [← List.append_assoc] at hr
  exact h (List.append_inj' hr rfl |>.2 |> List.singleton_inj.mp)

/-- The texts around the message of an assertion make no trigraph and no longer escape. -/
theorem assert_line_iff (s : List UInt8) :
    (NoTrigraph (utf8 assertPrefix ++ s ++ [10]) ∧ NoSwallow (utf8 assertPrefix ++ s ++ [10])) ↔
      NoTrigraph s ∧ NoSwallow s := by
  have hquestion : (63 : UInt8) ∉ utf8 assertPrefix := by decide +kernel
  have hcontrol : ∀ c ∈ utf8 assertPrefix, ¬c < 32 := by decide +kernel
  refine and_congr (forall₂_congr fun c hc => not_congr ?_)
    (forall₄_congr fun c d hc hd => not_congr ?_)
  · have hne : c ≠ 10 := by
      rintro rfl
      cases hc
    rw [List.append_assoc, infix_append_left hquestion]
    exact infix_concat (p := [63, 63]) hne
  · have hne : d ≠ 10 := by
      rintro rfl
      cases hd
    have hout : c ∉ utf8 assertPrefix := fun hmem => hcontrol c hmem hc.1
    rw [List.append_assoc, infix_append_left hout]
    exact infix_concat (p := [c]) hne

/-- A text without NUL. -/
def NulFree (text : List Char) : Prop := 0 ∉ utf8 text

/-- **The literals of a text stand for it** exactly if there is no trigraph in it and no
control character with a hexadecimal digit behind it, and in the format of an assertion no
percent sign. Source: backend_c.rs:12748-12762, 7725-7740, 8371-8389 -/
theorem literal_round_trip_iff (text : List Char) (h : NulFree text) :
    (literalBytes (utf8 (strLiteral text)) = some (utf8 text) ↔
        NoTrigraph (utf8 text) ∧ NoSwallow (utf8 text)) ∧
      ((literalBytes (utf8 (assertFormat text))).bind printfOutput =
          some (utf8 (assertPrefix ++ text ++ ['\n'])) ↔
        (NoTrigraph (utf8 text) ∧ NoSwallow (utf8 text)) ∧ 37 ∉ utf8 text) := by
  constructor
  · rw [utf8_strLiteral, literalBytes_quote]
    exact (image _).exact h
  · have hline : utf8 (assertPrefix ++ text ++ ['\n']) =
        utf8 assertPrefix ++ utf8 text ++ [10] := by
      rw [utf8_append, utf8_append]
      rfl
    have hnul : 0 ∉ utf8 (assertPrefix ++ text ++ ['\n']) := by
      have hprefix : (0 : UInt8) ∉ utf8 assertPrefix := by decide
      rw [hline, List.mem_append, List.mem_append]
      rintro ((hmem | hmem) | hmem)
      · exact hprefix hmem
      · exact h hmem
      · exact absurd hmem (by decide)
    have hpercent : 37 ∉ utf8 (assertPrefix ++ text ++ ['\n']) ↔ 37 ∉ utf8 text := by
      have hprefix : (37 : UInt8) ∉ utf8 assertPrefix := by decide
      have hend : (37 : UInt8) ∉ [10] := by decide
      rw [hline, List.mem_append, List.mem_append]
      tauto
    have himage := image (utf8 (assertPrefix ++ text ++ ['\n']))
    have hexact := himage.exact hnul
    rw [hline, assert_line_iff] at hexact
    rw [utf8_assertFormat, literalBytes_quote, ← hpercent, hline, ← hexact, ← hline]
    constructor
    · intro hrun
      obtain ⟨y, hy, hout⟩ := Option.bind_eq_some_iff.mp hrun
      have hle := himage.shortReads.plain y hy
      obtain ⟨hshort, hsame⟩ := printfOutput_length hout
      obtain ⟨rfl, hmem⟩ := hsame (by omega)
      exact ⟨hy, hmem⟩
    · rintro ⟨hy, hmem⟩
      rw [hy]
      exact printfOutput_of_not_mem hmem

/-- A text of two letters. -/
theorem literal_round_trip_plain :
    (literalBytes (utf8 (strLiteral ['o', 'k'])) = some (utf8 ['o', 'k']) ↔
        NoTrigraph (utf8 ['o', 'k']) ∧ NoSwallow (utf8 ['o', 'k'])) ∧
      ((literalBytes (utf8 (assertFormat ['o', 'k']))).bind printfOutput =
          some (utf8 (assertPrefix ++ ['o', 'k'] ++ ['\n'])) ↔
        (NoTrigraph (utf8 ['o', 'k']) ∧ NoSwallow (utf8 ['o', 'k'])) ∧
          37 ∉ utf8 ['o', 'k']) :=
  literal_round_trip_iff ['o', 'k'] (by unfold NulFree; decide)

/-- A percent sign in the message of an assertion. -/
theorem percent_refutes :
    ¬∀ text : List Char, NulFree text →
      literalBytes (utf8 (strLiteral text)) = some (utf8 text) ∧
        (literalBytes (utf8 (assertFormat text))).bind printfOutput =
          some (utf8 (assertPrefix ++ text ++ ['\n'])) := by
  intro hall
  have hrun := (hall ['%'] (by unfold NulFree; decide)).2
  revert hrun
  decide

/-!
## What `parse_int` accepts

`strtoll` reaches the end of exactly the texts that are a numeral behind white space. So
`parse_int` accepts more than the numerals of `int64_t`: those behind white space, and those
out of range, for which it returns the nearest value in range.
-/

/-- A text is accepted exactly if it is a numeral behind white space. -/
theorem parseInt_eq (s : CText) :
    parseInt s = (numeral (s.bytes.dropWhile isSpace)).map (saturate cLong) := by
  unfold parseInt
  cases hnum : numeral (s.bytes.dropWhile isSpace) with
  | some x =>
    obtain ⟨hrun, hne⟩ := strtoll_numeral hnum
    rw [hrun]
    exact if_pos ⟨hne.symm, rfl, hne⟩
  | none =>
    refine if_neg ?_
    rintro ⟨-, hend, hne⟩
    obtain ⟨x, hx⟩ := numeral_of_strtoll hend hne
    rw [hnum] at hx
    cases hx

/-- The text is a numeral that has white space before it or is out of range. -/
def Misread (s : CText) : Prop :=
  ∃ x, numeral (s.bytes.dropWhile isSpace) = some x ∧
    (s.bytes.dropWhile isSpace ≠ s.bytes ∨ ¬cLong.Fits x)

/-- **`parse_int` returns a value exactly for the numerals of `int64_t`**, as far as a text is
neither a numeral with white space before it nor one out of range.
Source: backend_c.rs:10273-10287 -/
theorem parseInt_iff (s : CText) :
    (∀ v, parseInt s = some v ↔ numeral s.bytes = some v ∧ cLong.Fits v) ↔ ¬Misread s := by
  have hrange : cLong.lo ≤ cLong.hi := by decide
  rw [parseInt_eq]
  constructor
  · rintro hexact ⟨x, hnum, hbad⟩
    rw [hnum] at hexact
    obtain ⟨hplain, -⟩ := (hexact (saturate cLong x)).mp rfl
    have hsame := numeral_no_space hplain
    rcases hbad with hspace | hout
    · exact hspace hsame
    · rw [hsame, hplain] at hnum
      have hx : saturate cLong x = x := Option.some.inj hnum
      exact hout (hx ▸ saturate_fits hrange x)
  · intro hgood v
    constructor
    · intro hv
      obtain ⟨x, hnum, rfl⟩ := Option.map_eq_some_iff.mp hv
      have hsame : s.bytes.dropWhile isSpace = s.bytes := by
        by_contra hspace
        exact hgood ⟨x, hnum, Or.inl hspace⟩
      have hfits : cLong.Fits x := by
        by_contra hout
        exact hgood ⟨x, hnum, Or.inr hout⟩
      rw [saturate_of_fits hfits]
      rw [hsame] at hnum
      exact ⟨hnum, hfits⟩
    · rintro ⟨hnum, hfits⟩
      rw [numeral_no_space hnum, hnum, Option.map_some, saturate_of_fits hfits]

/-- A space and a digit. -/
def spacedFive : CText := ⟨[32, 53], by decide⟩

theorem spacedFive_refutes :
    ¬∀ (s : CText) (v : Int), parseInt s = some v ↔ numeral s.bytes = some v ∧ cLong.Fits v := by
  intro hall
  have hnum := (hall spacedFive 5).mp (by decide)
  exact absurd hnum.1 (by decide)

end Vani.Analysis

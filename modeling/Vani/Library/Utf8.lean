import Mathlib.Data.List.Basic

/-!
# Texts and their bytes

A text is a list of characters, its encoding a list of bytes, and an offset into the text
counts bytes. An offset is on a boundary where characters before it take as many bytes. All
bytes of a character that is not ASCII are `0x80` at least, so a run of bytes that a scanner
takes by looking at ASCII bytes only is a run of characters.
-/

set_option autoImplicit false

namespace Vani.Library

/-- The bytes of a text. -/
def utf8 (text : List Char) : List UInt8 := text.flatMap String.utf8EncodeChar

/-- The number of bytes of a text. -/
def byteSize (text : List Char) : Nat := (utf8 text).length

/-- The text before an offset and the text from it on, if it is on a boundary. -/
def splitAtByte : List Char → Nat → Option (List Char × List Char)
  | text, 0 => some ([], text)
  | [], _ + 1 => none
  | c :: text, n + 1 =>
    if c.utf8Size ≤ n + 1 then
      (splitAtByte text (n + 1 - c.utf8Size)).map fun (before, after) => (c :: before, after)
    else none

/-- The text between two offsets, if both are on boundaries and in order. -/
def sliceBytes (text : List Char) (start stop : Nat) : Option (List Char) := do
  let (_, after) ← splitAtByte text start
  if start ≤ stop then (splitAtByte after (stop - start)).map Prod.fst else none

/-- The offset is on a boundary. -/
def OnBoundary (text : List Char) (n : Nat) : Prop :=
  ∃ before after, text = before ++ after ∧ byteSize before = n

/-- What is decided of every character of a list, one after another, holds of each of them. -/
theorem forall_chars {P : Char → Prop} [DecidablePred P] {chars : List Char}
    (h : (chars.all fun c => decide (P c)) = true) : ∀ c ∈ chars, P c := fun c hc =>
  of_decide_eq_true (List.all_eq_true.mp h c hc)

/-! ## Sizes -/

@[simp] theorem utf8_nil : utf8 [] = [] := rfl

@[simp] theorem utf8_cons (c : Char) (text : List Char) :
    utf8 (c :: text) = String.utf8EncodeChar c ++ utf8 text := List.flatMap_cons

@[simp] theorem utf8_append (a b : List Char) : utf8 (a ++ b) = utf8 a ++ utf8 b :=
  List.flatMap_append

@[simp] theorem byteSize_nil : byteSize [] = 0 := rfl

@[simp] theorem byteSize_cons (c : Char) (text : List Char) :
    byteSize (c :: text) = c.utf8Size + byteSize text := by
  unfold byteSize
  rw [utf8_cons, List.length_append, String.length_utf8EncodeChar]

@[simp] theorem byteSize_append (a b : List Char) :
    byteSize (a ++ b) = byteSize a + byteSize b := by
  unfold byteSize
  rw [utf8_append, List.length_append]

theorem byteSize_pos {text : List Char} (h : text ≠ []) : 0 < byteSize text := by
  cases text with
  | nil => exact absurd rfl h
  | cons c text =>
    have hc := c.utf8Size_pos
    rw [byteSize_cons]
    omega

theorem utf8_eq_nil {text : List Char} (h : utf8 text = []) : text = [] := by
  by_contra hne
  have hpos := byteSize_pos hne
  unfold byteSize at hpos
  rw [h] at hpos
  exact Nat.lt_irrefl _ hpos

/-! ## Boundaries -/

theorem splitAtByte_append (before after : List Char) :
    splitAtByte (before ++ after) (byteSize before) = some (before, after) := by
  induction before with
  | nil => cases after <;> rfl
  | cons c before ih =>
    obtain ⟨n, hn⟩ : ∃ n, byteSize (c :: before) = n + 1 :=
      ⟨byteSize (c :: before) - 1, (Nat.succ_pred_eq_of_pos (byteSize_pos (by simp))).symm⟩
    have hsub : n + 1 - c.utf8Size = byteSize before := by
      rw [byteSize_cons] at hn
      omega
    have hle : c.utf8Size ≤ n + 1 := by
      rw [byteSize_cons] at hn
      omega
    rw [hn, List.cons_append]
    unfold splitAtByte
    rw [if_pos hle, hsub, ih]
    rfl

/-- The text before an offset goes on to the text before a later one. -/
theorem before_of_le {before after before' after' : List Char}
    (htext : before ++ after = before' ++ after') (hle : byteSize before ≤ byteSize before') :
    ∃ mid, before' = before ++ mid := by
  rcases List.append_eq_append_iff.mp htext with ⟨mid, hmid, -⟩ | ⟨mid, hmid, -⟩
  · exact ⟨mid, hmid⟩
  · have hnil : mid = [] := by
      by_contra hne
      have hpos := byteSize_pos hne
      rw [hmid, byteSize_append] at hle
      omega
    exact ⟨[], by rw [hmid, hnil, List.append_nil, List.append_nil]⟩

/-- The text between two offsets that are known to be on boundaries. -/
theorem sliceBytes_append (before mid after : List Char) :
    sliceBytes (before ++ mid ++ after) (byteSize before) (byteSize before + byteSize mid) =
      some mid := by
  unfold sliceBytes
  rw [List.append_assoc, splitAtByte_append]
  show (if _ then _ else _) = _
  rw [if_pos (Nat.le_add_right _ _), Nat.add_sub_cancel_left, splitAtByte_append]
  rfl

/-! ## ASCII -/

/-- The byte of an ASCII character. -/
def asciiByte (c : Char) : UInt8 := UInt8.ofNat c.toNat

theorem utf8EncodeChar_of_ascii {c : Char} (h : c.toNat < 0x80) :
    String.utf8EncodeChar c = [asciiByte c] := by
  unfold String.utf8EncodeChar
  exact if_pos (Nat.le_of_lt_succ h)

theorem toNat_asciiByte {c : Char} (h : c.toNat < 0x80) : (asciiByte c).toNat = c.toNat := by
  unfold asciiByte
  rw [UInt8.toNat_ofNat']
  exact Nat.mod_eq_of_lt (by omega)

theorem eq_of_asciiByte {c d : Char} (hc : c.toNat < 0x80) (hd : d.toNat < 0x80)
    (h : asciiByte c = asciiByte d) : c = d := by
  have hnat := congrArg UInt8.toNat h
  rw [toNat_asciiByte hc, toNat_asciiByte hd] at hnat
  exact Char.toNat_inj.mp hnat

theorem utf8Size_of_ascii {c : Char} (h : c.toNat < 0x80) : c.utf8Size = 1 := by
  rw [← String.length_utf8EncodeChar, utf8EncodeChar_of_ascii h]
  rfl

/-- The bytes of a character beyond ASCII are beyond ASCII. -/
theorem le_of_mem_utf8EncodeChar {c : Char} (h : 0x80 ≤ c.toNat) {b : UInt8}
    (hb : b ∈ String.utf8EncodeChar c) : 0x80 ≤ b.toNat := by
  unfold String.utf8EncodeChar at hb
  have hv : c.val.toNat = c.toNat := rfl
  simp only [hv] at hb
  rw [if_neg (by omega)] at hb
  split_ifs at hb
  all_goals
    simp only [List.mem_cons, List.not_mem_nil, or_false] at hb
    rcases hb with rfl | rfl | rfl | rfl <;> rw [UInt8.toNat_ofNat'] <;> omega

/-- An ASCII byte of an encoding is a character of the text. -/
theorem mem_of_asciiByte_mem_utf8 {k : Char} (hk : k.toNat < 0x80) {text : List Char}
    (h : asciiByte k ∈ utf8 text) : k ∈ text := by
  obtain ⟨c, hc, hb⟩ := List.mem_flatMap.mp h
  by_cases hascii : c.toNat < 0x80
  · rw [utf8EncodeChar_of_ascii hascii, List.mem_singleton] at hb
    rw [eq_of_asciiByte hk hascii hb]
    exact hc
  · have hle := le_of_mem_utf8EncodeChar (Nat.le_of_not_lt hascii) hb
    rw [toNat_asciiByte hk] at hle
    omega

theorem asciiByte_mem_utf8 {k : Char} (hk : k.toNat < 0x80) {text : List Char} (h : k ∈ text) :
    asciiByte k ∈ utf8 text := by
  apply List.mem_flatMap.mpr
  refine ⟨k, h, ?_⟩
  rw [utf8EncodeChar_of_ascii hk]
  exact List.mem_singleton_self _

/-- An encoding that begins with an ASCII byte begins with its character. -/
theorem utf8_eq_cons_of_ascii {text : List Char} {b : UInt8} {rest : List UInt8}
    (h : utf8 text = b :: rest) (hb : b.toNat < 0x80) :
    ∃ c after, text = c :: after ∧ c.toNat < 0x80 ∧ asciiByte c = b ∧ utf8 after = rest := by
  cases text with
  | nil => cases h
  | cons c after =>
    by_cases hc : c.toNat < 0x80
    · rw [utf8_cons, utf8EncodeChar_of_ascii hc] at h
      cases h
      exact ⟨c, after, rfl, hc, rfl, rfl⟩
    · rw [utf8_cons] at h
      obtain ⟨b', more, hmore⟩ := List.exists_cons_of_ne_nil (String.utf8EncodeChar_ne_nil (c := c))
      have hle := le_of_mem_utf8EncodeChar (Nat.le_of_not_lt hc)
        (hmore ▸ List.mem_cons_self : b' ∈ String.utf8EncodeChar c)
      rw [hmore] at h
      cases h
      omega

/-- An encoding that begins beyond ASCII begins with all bytes of its character. -/
theorem utf8_eq_cons_of_not_ascii {text : List Char} {b : UInt8} {rest : List UInt8}
    (h : utf8 text = b :: rest) (hb : 0x80 ≤ b.toNat) :
    ∃ c after more, text = c :: after ∧ 0x80 ≤ c.toNat ∧
      String.utf8EncodeChar c = b :: more ∧ more ++ utf8 after = rest := by
  cases text with
  | nil => cases h
  | cons c after =>
    by_cases hc : c.toNat < 0x80
    · rw [utf8_cons, utf8EncodeChar_of_ascii hc] at h
      cases h
      rw [toNat_asciiByte hc] at hb
      omega
    · obtain ⟨b', more, hmore⟩ := List.exists_cons_of_ne_nil (String.utf8EncodeChar_ne_nil (c := c))
      rw [utf8_cons, hmore] at h
      cases h
      exact ⟨c, after, more, rfl, Nat.le_of_not_lt hc, hmore, rfl⟩

/-- A character whose encoding begins with `0xE0` takes three bytes. -/
theorem utf8Size_of_e0 {c : Char} {more : List UInt8}
    (h : String.utf8EncodeChar c = 0xE0 :: more) : c.utf8Size = 3 := by
  rw [← String.length_utf8EncodeChar]
  unfold String.utf8EncodeChar at h ⊢
  have hv : c.val.toNat = c.toNat := rfl
  simp only [hv] at h ⊢
  split_ifs at h ⊢
  · have hb := congrArg UInt8.toNat (List.cons.inj h).1
    rw [UInt8.toNat_ofNat'] at hb
    change _ = 0xE0 at hb
    omega
  · have hb := congrArg UInt8.toNat (List.cons.inj h).1
    rw [UInt8.toNat_ofNat'] at hb
    change _ = 0xE0 at hb
    omega
  · rfl
  · have hb := congrArg UInt8.toNat (List.cons.inj h).1
    rw [UInt8.toNat_ofNat'] at hb
    change _ = 0xE0 at hb
    omega

/-! ## Runs of bytes -/

/-- The test does not look into bytes beyond ASCII. -/
def OnAscii (p : UInt8 → Bool) : Prop :=
  ∃ v, ∀ b : UInt8, 0x80 ≤ b.toNat → p b = v

/-- All bytes of a character pass such a test, or the first one fails it. -/
theorem OnAscii.encodeChar {p : UInt8 → Bool} (hp : OnAscii p) (c : Char) :
    (∀ b ∈ String.utf8EncodeChar c, p b = true) ∨
      ∃ b more, String.utf8EncodeChar c = b :: more ∧ p b = false := by
  obtain ⟨b, more, hmore⟩ := List.exists_cons_of_ne_nil (String.utf8EncodeChar_ne_nil (c := c))
  cases hb : p b with
  | false => exact Or.inr ⟨b, more, hmore, hb⟩
  | true =>
    left
    intro b' hb'
    by_cases hc : c.toNat < 0x80
    · rw [utf8EncodeChar_of_ascii hc] at hmore hb'
      cases hmore
      rw [List.mem_singleton.mp hb']
      exact hb
    · obtain ⟨v, hv⟩ := hp
      have hle := Nat.le_of_not_lt hc
      rw [hv b' (le_of_mem_utf8EncodeChar hle hb'),
        ← hv b (le_of_mem_utf8EncodeChar hle (hmore ▸ List.mem_cons_self))]
      exact hb

/-- The longest run of bytes that pass such a test is a run of characters. -/
theorem OnAscii.takeWhile {p : UInt8 → Bool} (hp : OnAscii p) (text : List Char) :
    ∃ mid after, text = mid ++ after ∧ (utf8 text).takeWhile p = utf8 mid ∧
      (utf8 text).dropWhile p = utf8 after := by
  induction text with
  | nil => exact ⟨[], [], rfl, rfl, rfl⟩
  | cons c text ih =>
    rw [utf8_cons]
    rcases hp.encodeChar c with hall | ⟨b, more, hmore, hb⟩
    · obtain ⟨mid, after, rfl, htake, hdrop⟩ := ih
      refine ⟨c :: mid, after, rfl, ?_, ?_⟩
      · rw [List.takeWhile_append_of_pos hall, htake, utf8_cons]
      · rw [List.dropWhile_append_of_pos hall, hdrop]
    · refine ⟨[], c :: text, rfl, ?_, ?_⟩
      · rw [hmore, List.cons_append, List.takeWhile_cons_of_neg (by rw [hb]; decide)]
        rfl
      · rw [hmore, List.cons_append, List.dropWhile_cons_of_neg (by rw [hb]; decide), utf8_cons,
          hmore, List.cons_append]

end Vani.Library

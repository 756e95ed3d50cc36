import Mathlib.Data.List.TakeWhile
import Vani.Syntax.Lexer

/-!
# How the lexer reads words

A cursor stands on a boundary of the source whenever a word begins or ends, though the bytes
beyond ASCII are passed one by one. What the lexer takes for a word, a number, a name or a
keyword, has no byte in it that begins a string or a comment or ends a line: each function
that reads one returns, with an error or behind such a word, and never slices the source off
a boundary.
-/

set_option autoImplicit false

namespace Vani.Analysis

open Vani.Library Vani.Syntax

/-! ## Results of the lexer -/

section Results

variable {α β : Type}

/-- The call returns, with an error or with a value that has the property. -/
def Settles (x : Lexed α) (P : α → Prop) : Prop :=
  ∃ r, x = Outcome.done r ∧ ∀ a, r = .ok a → P a

theorem settles_pure {P : α → Prop} {a : α} (h : P a) : Settles (pure a) P := by
  refine ⟨.ok a, rfl, ?_⟩
  intro b hb
  cases hb
  exact h

theorem settles_error {P : α → Prop} (span : Span) (message : String) :
    Settles (Lexed.error span message) P := by
  refine ⟨.error ⟨span, message⟩, rfl, ?_⟩
  intro b hb
  cases hb

theorem Settles.bind {x : Lexed α} {f : α → Lexed β} {P : α → Prop} {Q : β → Prop}
    (h : Settles x P) (hf : ∀ a, P a → Settles (f a) Q) : Settles (x >>= f) Q := by
  obtain ⟨r, rfl, hr⟩ := h
  cases r with
  | error d =>
    refine ⟨.error d, rfl, ?_⟩
    intro b hb
    cases hb
  | ok a => exact hf a (hr a rfl)

theorem Settles.ok {x : Lexed α} {P : α → Prop} (h : Settles x P) {a : α}
    (ha : x = pure a) : P a := by
  obtain ⟨r, hx, hr⟩ := h
  rw [hx] at ha
  cases ha
  exact hr a rfl

@[simp] theorem lexed_pure_bind (a : α) (f : α → Lexed β) : ((pure a : Lexed α) >>= f) = f a := rfl

/-- Where sequencing returns a value, both parts do. -/
theorem lexed_bind_eq_ok {x : Lexed α} {f : α → Lexed β} {b : β}
    (h : (x >>= f) = pure b) : ∃ a, x = pure a ∧ f a = pure b := by
  match x with
  | .done (.ok a) => exact ⟨a, rfl, h⟩
  | .done (.error d) => cases h
  | .aborted => cases h
  | .stuck => cases h

end Results

/-! ## Cursors -/

variable {source before after mid : List Char} {c : Cursor} {p : UInt8 → Bool}

/-- The cursor stands between two parts of the source. -/
structure CursorAt (source before after : List Char) (c : Cursor) : Prop where
  text : source = before ++ after
  pos : c.pos = byteSize before
  rest : c.rest = utf8 after

theorem CursorAt.slice (h : CursorAt source (before ++ mid) after c) :
    slice source (byteSize before) c.pos = pure mid := by
  unfold Vani.Syntax.slice
  rw [h.text, h.pos, byteSize_append, sliceBytes_append]

theorem CursorAt.forward (h : CursorAt source before (mid ++ after) c) :
    CursorAt source (before ++ mid) after (c.forward (byteSize mid)) where
  text := by rw [h.text, List.append_assoc]
  pos := by
    show c.pos + _ = _
    rw [h.pos, byteSize_append]
  rest := by
    show c.rest.drop _ = _
    rw [h.rest, Library.utf8_append]
    exact List.drop_left

theorem advanceWhile_eq_forward (p : UInt8 → Bool) (c : Cursor) :
    c.advanceWhile p = c.forward (c.rest.takeWhile p).length := by
  have hdrop : c.rest.drop (c.rest.takeWhile p).length = c.rest.dropWhile p := by
    have h := congrArg (List.drop (c.rest.takeWhile p).length)
      (List.takeWhile_append_dropWhile (p := p) (l := c.rest))
    rw [List.drop_left] at h
    exact h.symm
  unfold Cursor.advanceWhile Cursor.forward
  rw [hdrop]

/-- A test that looks at ASCII bytes only stops the cursor between two characters. -/
theorem CursorAt.advanceWhile (hp : OnAscii p) (h : CursorAt source before after c) :
    ∃ mid after', after = mid ++ after' ∧ (∀ b ∈ utf8 mid, p b = true) ∧
      (∀ b rest, utf8 after' = b :: rest → p b = false) ∧
      CursorAt source (before ++ mid) after' (c.advanceWhile p) := by
  obtain ⟨mid, after', htext, htake, hdrop⟩ := hp.takeWhile after
  refine ⟨mid, after', htext, ?_, ?_, ?_⟩
  · intro b hb
    rw [← htake] at hb
    exact List.mem_takeWhile_imp hb
  · intro b rest hrest
    rw [← hdrop] at hrest
    have hne : (utf8 after).dropWhile p ≠ [] := by
      rw [hrest]
      exact List.cons_ne_nil _ _
    have hhead := List.head_dropWhile_not p hne
    simp only [hrest, List.head_cons] at hhead
    simpa using hhead
  · subst htext
    rw [advanceWhile_eq_forward, h.rest, htake]
    exact h.forward

/-- The next byte is ASCII: the cursor goes over one character. -/
theorem CursorAt.forward_one {b : UInt8} {rest : List UInt8} (h : CursorAt source before after c)
    (hrest : c.rest = b :: rest) (hb : b.toNat < 0x80) :
    ∃ ch after', after = ch :: after' ∧ ch.toNat < 0x80 ∧ asciiByte ch = b ∧
      CursorAt source (before ++ [ch]) after' (c.forward 1) := by
  obtain ⟨ch, after', rfl, hch, hbyte, -⟩ := utf8_eq_cons_of_ascii (h.rest.symm.trans hrest) hb
  refine ⟨ch, after', rfl, hch, hbyte, ?_⟩
  have hsize : byteSize [ch] = 1 := by
    rw [byteSize_cons, utf8Size_of_ascii hch]
    rfl
  have hfwd : CursorAt source before ([ch] ++ after') c := h
  rw [← hsize]
  exact hfwd.forward

/-! ## Words -/

/-- The byte neither begins a string or a comment nor ends a line. -/
def isPlain (b : UInt8) : Bool := b != 0x22 && b != 0x2F && b != 0x0A

/-- A test that looks at ASCII bytes only and fails on those that are not plain. -/
structure PlainTest (p : UInt8 → Bool) : Prop where
  onAscii : OnAscii p
  quote : p 0x22 = false
  slash : p 0x2F = false
  newline : p 0x0A = false

namespace PlainTest

theorem isPlain_of (hp : PlainTest p) {b : UInt8} (hb : p b = true) : isPlain b = true := by
  have hne : ∀ k : UInt8, p k = false → b ≠ k := by
    rintro k hk rfl
    rw [hk] at hb
    cases hb
  unfold isPlain
  rw [bne_iff_ne.mpr (hne _ hp.quote), bne_iff_ne.mpr (hne _ hp.slash),
    bne_iff_ne.mpr (hne _ hp.newline)]
  rfl

theorem or {q : UInt8 → Bool} (hp : PlainTest p) (hq : PlainTest q) :
    PlainTest fun b => p b || q b where
  onAscii := by
    obtain ⟨v, hv⟩ := hp.onAscii
    obtain ⟨w, hw⟩ := hq.onAscii
    refine ⟨v || w, ?_⟩
    intro b hb
    show (p b || q b) = _
    rw [hv b hb, hw b hb]
  quote := by rw [hp.quote, hq.quote]; rfl
  slash := by rw [hp.slash, hq.slash]; rfl
  newline := by rw [hp.newline, hq.newline]; rfl

/-- The test for a range of ASCII bytes. -/
theorem range {lo hi : Nat} (hhi : hi < 0x80) (hquote : 0x22 < lo ∨ hi < 0x22)
    (hslash : 0x2F < lo ∨ hi < 0x2F) (hnewline : 0x0A < lo ∨ hi < 0x0A) :
    PlainTest fun b => decide (lo ≤ b.toNat) && decide (b.toNat ≤ hi) where
  onAscii := ⟨false, fun b hb => by simp; omega⟩
  quote := by
    have hb : (0x22 : UInt8).toNat = 0x22 := rfl
    simp [hb]
    omega
  slash := by
    have hb : (0x2F : UInt8).toNat = 0x2F := rfl
    simp [hb]
    omega
  newline := by
    have hb : (0x0A : UInt8).toNat = 0x0A := rfl
    simp [hb]
    omega

theorem isDigit : PlainTest Syntax.isDigit := range (by omega) (by omega) (by omega) (by omega)

theorem underscore : PlainTest fun b => b == asciiByte '_' where
  onAscii := by
    refine ⟨false, ?_⟩
    intro b hb
    apply beq_eq_false_iff_ne.mpr
    rintro rfl
    exact absurd hb (by decide)
  quote := rfl
  slash := rfl
  newline := rfl

theorem isDigitOrUnderscore : PlainTest isDigitOrUnderscore := isDigit.or underscore

theorem isAlphaOrUnderscore : PlainTest isAlphaOrUnderscore :=
  ((range (by omega) (by omega) (by omega) (by omega)).or
    (range (by omega) (by omega) (by omega) (by omega))).or underscore

theorem isIdentByte : PlainTest isIdentByte := isAlphaOrUnderscore.or isDigit

theorem isNonAscii : PlainTest isNonAscii where
  onAscii := ⟨true, fun _ hb => decide_eq_true hb⟩
  quote := rfl
  slash := rfl
  newline := rfl

theorem isDigitForRadix {radix : Nat} (h : radix = 16 ∨ radix = 2 ∨ radix = 8) :
    PlainTest (isDigitForRadix radix) := by
  rcases h with rfl | rfl | rfl
  · exact (isDigit.or (range (by omega) (by omega) (by omega) (by omega))).or
      (range (by omega) (by omega) (by omega) (by omega))
  · refine ⟨⟨false, ?_⟩, rfl, rfl, rfl⟩
    intro b hb
    apply Bool.eq_false_iff.mpr
    intro h
    obtain ⟨ch, hch, hbyte⟩ := List.any_eq_true.mp h
    rw [← eq_of_beq hbyte] at hb
    have hdigits : ∀ ch ∈ ['0', '1'], ¬0x80 ≤ (asciiByte ch).toNat :=
      forall_chars (by decide)
    exact hdigits ch hch hb
  · exact range (by omega) (by omega) (by omega) (by omega)

end PlainTest

/-- From an offset on, some characters with plain bytes only have been read. -/
def WordTo (source before : List Char) (c : Cursor) : Prop :=
  ∃ mid after, mid ≠ [] ∧ (∀ b ∈ utf8 mid, isPlain b = true) ∧
    CursorAt source (before ++ mid) after c

theorem peekIs_eq_true {c : Cursor} (h : c.peekIs p = true) :
    ∃ b rest, c.rest = b :: rest ∧ p b = true := by
  unfold Cursor.peekIs Cursor.peek at h
  match hrest : c.rest with
  | [] =>
    rw [hrest] at h
    cases h
  | b :: rest =>
    rw [hrest] at h
    exact ⟨b, rest, rfl, h⟩

namespace WordTo

/-- A word goes on over a run of plain bytes. -/
theorem advanceWhile (hp : PlainTest p) (h : WordTo source before c) :
    WordTo source before (c.advanceWhile p) := by
  obtain ⟨mid, after, hne, hplain, hat⟩ := h
  obtain ⟨mid', after', rfl, hmid', -, hat'⟩ := hat.advanceWhile hp.onAscii
  refine ⟨mid ++ mid', after', ?_, ?_, ?_⟩
  · simp [hne]
  · intro b hb
    rw [Library.utf8_append] at hb
    rcases List.mem_append.mp hb with hb | hb
    · exact hplain b hb
    · exact hp.isPlain_of (hmid' b hb)
  · rw [← List.append_assoc]
    exact hat'

/-- A word goes on over one of some plain characters. -/
theorem forward {chars : List Char}
    (hchars : ∀ ch ∈ chars, ch.toNat < 0x80 ∧ isPlain (asciiByte ch) = true)
    (hpeek : c.peekIs (isOneOf chars) = true) (h : WordTo source before c) :
    WordTo source before (c.forward 1) := by
  obtain ⟨mid, after, hne, hplain, hat⟩ := h
  obtain ⟨b, rest, hrest, hb⟩ := peekIs_eq_true hpeek
  obtain ⟨ch, hch, hbyte⟩ := List.any_eq_true.mp hb
  obtain ⟨hascii, hchplain⟩ := hchars ch hch
  rw [eq_of_beq hbyte] at hchplain
  have hlt : b.toNat < 0x80 := by
    rw [← eq_of_beq hbyte, toNat_asciiByte hascii]
    exact hascii
  obtain ⟨ch', after', rfl, hch', hbyte', hat'⟩ := hat.forward_one hrest hlt
  refine ⟨mid ++ [ch'], after', ?_, ?_, ?_⟩
  · simp
  · intro b' hb'
    rw [Library.utf8_append, utf8_cons, utf8EncodeChar_of_ascii hch', hbyte'] at hb'
    rcases List.mem_append.mp hb' with hb' | hb'
    · exact hplain b' hb'
    · rw [utf8_nil, List.append_nil, List.mem_singleton] at hb'
      rw [hb']
      exact hchplain
  · rw [← List.append_assoc]
    exact hat'

theorem slice (h : WordTo source before c) :
    ∃ raw, Vani.Syntax.slice source (byteSize before) c.pos = pure raw := by
  obtain ⟨mid, after, -, -, hat⟩ := h
  exact ⟨mid, hat.slice⟩

/-- The run that a word goes on over can be sliced. -/
theorem slice_advanceWhile (hp : PlainTest p) (h : WordTo source before c) :
    ∃ raw, Vani.Syntax.slice source c.pos (c.advanceWhile p).pos = pure raw := by
  obtain ⟨mid, after, -, -, hat⟩ := h
  obtain ⟨mid', after', rfl, -, -, hat'⟩ := hat.advanceWhile hp.onAscii
  refine ⟨mid', ?_⟩
  rw [hat.pos]
  exact hat'.slice

end WordTo

/-- A token is read, and it is a word. -/
def TokenTo (source before : List Char) (r : TokenKind × Cursor) : Prop :=
  r.1 ≠ .eof ∧ WordTo source before r.2

/-- A keyword is not the end. -/
theorem lookup_ne_eof {table : List (String × TokenKind)} (h : ∀ e ∈ table, e.2 ≠ .eof)
    (text : String) : (table.lookup text).getD (.ident text) ≠ .eof := by
  cases hlookup : table.lookup text with
  | none => simp
  | some kind =>
    obtain ⟨l₁, l₂, hsplit, -⟩ := List.lookup_eq_some_iff.mp hlookup
    apply h (text, kind)
    rw [hsplit]
    simp

theorem lexIdent_spec (h : WordTo source before c) :
    Settles (lexIdent source (byteSize before) c) (TokenTo source before) := by
  have hword := h.advanceWhile PlainTest.isIdentByte
  obtain ⟨raw, hraw⟩ := hword.slice
  unfold lexIdent
  simp only [hraw]
  apply settles_pure
  exact ⟨lookup_ne_eof (by decide) _, hword⟩

theorem lexUnicodeIdent_spec
    (h : WordTo source before (c.advanceWhile fun b => isIdentByte b || isNonAscii b)) :
    Settles (lexUnicodeIdent source (byteSize before) c) (TokenTo source before) := by
  obtain ⟨raw, hraw⟩ := h.slice
  unfold lexUnicodeIdent
  simp only [hraw]
  apply settles_pure
  exact ⟨lookup_ne_eof (by decide) _, h⟩

theorem skipFraction_spec (h : WordTo source before c) :
    WordTo source before (skipFraction c).2 := by
  unfold skipFraction
  split_ifs with hpoint
  · apply WordTo.advanceWhile PlainTest.isDigitOrUnderscore
    exact h.forward (forall_chars (by decide)) (Bool.and_eq_true_iff.mp hpoint).1
  · exact h

theorem skipExponent_spec (h : WordTo source before c) :
    Settles (skipExponent c) fun r => WordTo source before r.2 := by
  unfold skipExponent
  by_cases he : c.peekIs (isOneOf ['e', 'E']) = true
  · rw [if_pos he]
    extract_lets afterE digits
    have hafter : WordTo source before afterE := h.forward (forall_chars (by decide)) he
    have hdigits : WordTo source before digits := by
      show WordTo source before (if _ then _ else _)
      split_ifs with hsign
      · exact hafter.forward (forall_chars (by decide)) hsign
      · exact hafter
    split_ifs
    · exact settles_pure (hdigits.advanceWhile PlainTest.isDigitOrUnderscore)
    · exact settles_error _ _
  · rw [if_neg he]
    exact settles_pure h

theorem floatLiteral_spec (span : Span) (raw : List Char) :
    Settles (floatLiteral span raw) fun kind => kind ≠ .eof := by
  unfold floatLiteral
  split
  · exact settles_error _ _
  · split
    · exact settles_pure (by simp)
    · exact settles_error _ _

theorem intLiteral_spec (span : Span) (raw : List Char) :
    Settles (intLiteral span raw) fun kind => kind ≠ .eof := by
  unfold intLiteral
  split
  · exact settles_pure (by simp)
  · exact settles_error _ _

theorem radixOf_cases (letter : UInt8) :
    (radixOf letter).1 = 16 ∨ (radixOf letter).1 = 2 ∨ (radixOf letter).1 = 8 := by
  unfold radixOf
  split_ifs <;> simp

theorem Cursor_advance_of_rest {b : UInt8} {rest : List UInt8} (h : c.rest = b :: rest) :
    c.advance = pure (b, c.forward 1) := by
  unfold Cursor.advance Cursor.forward
  rw [h]
  rfl

theorem lexRadixInt_spec (h : WordTo source before c)
    (hpeek : c.peekIs (isOneOf ['x', 'X', 'b', 'B', 'o', 'O']) = true) :
    Settles (lexRadixInt source (byteSize before) c) (TokenTo source before) := by
  obtain ⟨letter, rest, hrest, -⟩ := peekIs_eq_true hpeek
  have hprefix : WordTo source before (c.forward 1) := h.forward (forall_chars (by decide)) hpeek
  obtain ⟨radix, name, hradix⟩ : ∃ radix name, radixOf letter = (radix, name) := ⟨_, _, rfl⟩
  have hcases := radixOf_cases letter
  rw [hradix] at hcases
  have htest : PlainTest fun b => b == asciiByte '_' || isDigitForRadix radix b :=
    PlainTest.underscore.or (PlainTest.isDigitForRadix hcases)
  have hdigits := hprefix.advanceWhile htest
  obtain ⟨raw, hraw⟩ := hdigits.slice
  obtain ⟨digits, hslice⟩ := hprefix.slice_advanceWhile htest
  unfold lexRadixInt
  rw [Cursor_advance_of_rest hrest, lexed_pure_bind]
  simp only [hradix, hslice, hraw, lexed_pure_bind]
  split
  · exact settles_error _ _
  · split
    · exact settles_pure ⟨by simp, hdigits⟩
    · exact settles_error _ _

theorem lexNumber_spec (first : UInt8) (h : WordTo source before c) :
    Settles (lexNumber source (byteSize before) first c) (TokenTo source before) := by
  unfold lexNumber
  split
  · rename_i hradix
    exact lexRadixInt_spec h (Bool.and_eq_true_iff.mp hradix).2
  · have hfraction := skipFraction_spec (h.advanceWhile PlainTest.isDigitOrUnderscore)
    apply Settles.bind (skipExponent_spec hfraction)
    rintro ⟨hasExponent, c'⟩ hword
    obtain ⟨raw, hraw⟩ := hword.slice
    simp only [hraw, lexed_pure_bind]
    split
    · apply Settles.bind (floatLiteral_spec _ _)
      intro kind hkind
      exact settles_pure ⟨hkind, hword⟩
    · apply Settles.bind (intLiteral_spec _ _)
      intro kind hkind
      exact settles_pure ⟨hkind, hword⟩

/-! ## Digits beyond ASCII -/

theorem devanagariDigitNext_iff {rest : List UInt8} (h : devanagariDigitNext rest = true) :
    ∃ b rest', rest = 0xE0 :: 0xA5 :: b :: rest' ∧ isDevanagariDigitEnd b = true := by
  match rest, h with
  | b :: b' :: b'' :: rest', h =>
    unfold devanagariDigitNext at h
    obtain ⟨hbytes, hend⟩ := Bool.and_eq_true_iff.mp h
    obtain ⟨hb, hb'⟩ := Bool.and_eq_true_iff.mp hbytes
    rw [eq_of_beq hb, eq_of_beq hb']
    exact ⟨b'', rest', rfl, hend⟩

/-- A digit is one character. -/
theorem CursorAt.devanagariDigit (h : CursorAt source before after c)
    (hdigit : devanagariDigitNext c.rest = true) :
    ∃ ch after', after = ch :: after' ∧ (∀ b ∈ utf8 [ch], isPlain b = true) ∧
      CursorAt source (before ++ [ch]) after' (c.forward 3) := by
  obtain ⟨b, rest, hrest, -⟩ := devanagariDigitNext_iff hdigit
  obtain ⟨ch, after', more, rfl, hch, hbytes, -⟩ :=
    utf8_eq_cons_of_not_ascii (h.rest.symm.trans hrest) (by decide)
  refine ⟨ch, after', rfl, ?_, ?_⟩
  · intro b' hb'
    rw [utf8_cons, utf8_nil, List.append_nil] at hb'
    apply PlainTest.isNonAscii.isPlain_of
    exact decide_eq_true (le_of_mem_utf8EncodeChar hch hb')
  · have hsize : byteSize [ch] = 3 := by
      rw [byteSize_cons, utf8Size_of_e0 hbytes]
      rfl
    have hfwd : CursorAt source before ([ch] ++ after') c := h
    rw [← hsize]
    exact hfwd.forward

theorem WordTo.skipDevanagariDigits (fuel : Nat) (h : WordTo source before c) :
    WordTo source before (skipDevanagariDigits fuel c) := by
  induction fuel generalizing c with
  | zero => exact h
  | succ fuel ih =>
    unfold Vani.Syntax.skipDevanagariDigits
    split
    · rename_i hdigit
      apply ih
      obtain ⟨mid, after, hne, hplain, hat⟩ := h
      obtain ⟨ch, after', rfl, hch, hat'⟩ := hat.devanagariDigit hdigit
      refine ⟨mid ++ [ch], after', by simp, ?_, ?_⟩
      · intro b hb
        rw [Library.utf8_append] at hb
        rcases List.mem_append.mp hb with hb | hb
        · exact hplain b hb
        · exact hch b hb
      · rw [← List.append_assoc]
        exact hat'
    · exact h

theorem lexDevanagariNumber_spec (h : CursorAt source before after c)
    (hdigit : devanagariDigitNext c.rest = true) :
    Settles (lexDevanagariNumber source (byteSize before) (c.forward 1))
      (TokenTo source before) := by
  obtain ⟨b, rest, hrest, -⟩ := devanagariDigitNext_iff hdigit
  have hsecond : (c.forward 1).rest = 0xA5 :: b :: rest := by
    show c.rest.drop 1 = _
    rw [hrest]
    rfl
  have hthird : ((c.forward 1).forward 1).rest = b :: rest := by
    show (c.forward 1).rest.drop 1 = _
    rw [hsecond]
    rfl
  have hpast : ((c.forward 1).forward 1).forward 1 = c.forward 3 := by
    unfold Cursor.forward
    rw [List.drop_drop, List.drop_drop]
  have hword : WordTo source before (c.forward 3) := by
    obtain ⟨ch, after', -, hch, hat⟩ := h.devanagariDigit hdigit
    exact ⟨[ch], after', by simp, hch, hat⟩
  unfold lexDevanagariNumber
  rw [Cursor_advance_of_rest hsecond, lexed_pure_bind]
  dsimp only
  rw [Cursor_advance_of_rest hthird, lexed_pure_bind]
  dsimp only
  rw [hpast]
  have hdigits := hword.skipDevanagariDigits (c.forward 3).rest.length
  obtain ⟨raw, hraw⟩ := hdigits.slice
  rw [hraw, lexed_pure_bind]
  split
  · exact settles_pure ⟨by simp, hdigits⟩
  · exact settles_error _ _

end Vani.Analysis

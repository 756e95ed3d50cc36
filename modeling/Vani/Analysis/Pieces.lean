import Vani.Analysis.Lexing

/-!
# What the lexer reads

Every source is read piece by piece: the lexer returns, with an error or with the pieces, and
the pieces are the text cut into blanks, comments, string literals and words. `Lexeme` says
what a piece looks like and what can follow it, `Scanned` that the pieces of a text are
lexemes one behind the other.
-/

set_option autoImplicit false

namespace Vani.Analysis

open Vani.Library Vani.Syntax

variable {source before after mid : List Char} {c : Cursor}

/-! ## Strings -/

/-- `"` -/
def quote : Char := Char.ofNat 0x22

/-- What stands between the quotes of a string literal. -/
inductive StringBody : List Char → Prop
  | nil : StringBody []
  | char {ch : Char} {rest : List Char} (hquote : ch ≠ quote) (hescape : ch ≠ Char.ofNat 0x5C)
      (hnewline : ch ≠ Char.ofNat 0x0A) (h : StringBody rest) : StringBody (ch :: rest)
  | escape {ch : Char} {rest : List Char} (hascii : ch.toNat < 0x80)
      (hnewline : ch ≠ Char.ofNat 0x0A) (h : StringBody rest) :
      StringBody (Char.ofNat 0x5C :: ch :: rest)

theorem StringBody.append {a b : List Char} (ha : StringBody a) (hb : StringBody b) :
    StringBody (a ++ b) := by
  induction ha with
  | nil => exact hb
  | char hquote hescape hnewline _ ih => exact StringBody.char hquote hescape hnewline ih
  | escape hascii hnewline _ ih => exact StringBody.escape hascii hnewline ih

/-- A string literal is on one line. -/
theorem StringBody.newline_not_mem {body : List Char} (h : StringBody body) :
    Char.ofNat 0x0A ∉ body := by
  induction h with
  | nil => exact List.not_mem_nil
  | char _ _ hnewline _ ih =>
    intro hmem
    rcases List.mem_cons.mp hmem with h | hmem
    · exact hnewline h.symm
    · exact ih hmem
  | escape _ hnewline _ ih =>
    intro hmem
    rcases List.mem_cons.mp hmem with h | hmem
    · exact absurd h (by decide)
    rcases List.mem_cons.mp hmem with h | hmem
    · exact hnewline h.symm
    · exact ih hmem

/-- A character that is escaped is one of a few. -/
theorem escapeOf_eq_some {b : UInt8} {ch : Char} (h : escapeOf b = some ch) :
    b.toNat < 0x80 ∧ b ≠ 0x0A := by
  unfold escapeOf at h
  obtain ⟨e, hfind, -⟩ := Option.map_eq_some_iff.mp h
  have hmem := List.mem_of_find?_eq_some hfind
  have hbyte := List.find?_some hfind
  have htable : ∀ e ∈ escapes, (asciiByte e.1).toNat < 0x80 ∧ asciiByte e.1 ≠ 0x0A := by decide
  rw [← eq_of_beq hbyte]
  exact htable e hmem

/-- A string literal behind the offset. -/
def StringTo (source before : List Char) (r : TokenKind × Cursor) : Prop :=
  (∃ text, r.1 = .str text) ∧ ∃ body after, StringBody body ∧
    CursorAt source (before ++ quote :: (body ++ [quote])) after r.2

/-- The loop over the characters of a string; what has been read of it is a body. -/
theorem lexString_spec (start fuel : Nat) (value : List Char) {body : List Char}
    (hfuel : c.rest.length < fuel) (hbody : StringBody body)
    (h : CursorAt source (before ++ quote :: body) after c) :
    Settles (lexString source start fuel value c) (StringTo source before) := by
  induction fuel generalizing value c body after with
  | zero => omega
  | succ fuel ih =>
    unfold lexString
    split
    · exact settles_error _ _
    · rename_i byte rest hrest
      have hlen : c.rest.length = rest.length + 1 := by rw [hrest]; rfl
      split
      · rename_i hquote
        have hascii : byte.toNat < 0x80 := by
          rw [eq_of_beq hquote]
          decide
        obtain ⟨ch, after', rfl, hch, hbyte, hat⟩ := h.forward_one hrest hascii
        have hchq : ch = quote := by
          apply eq_of_asciiByte hch (by decide)
          rw [hbyte, eq_of_beq hquote]
          rfl
        apply settles_pure
        refine ⟨⟨_, rfl⟩, body, after', hbody, ?_⟩
        rw [hchq, List.append_assoc] at hat
        exact hat
      · rename_i hnquote
        split
        · rename_i hslash
          have hascii : byte.toNat < 0x80 := by
            rw [eq_of_beq hslash]
            decide
          obtain ⟨ch, after', rfl, hch, hbyte, hat⟩ := h.forward_one hrest hascii
          have hchs : ch = Char.ofNat 0x5C := by
            apply eq_of_asciiByte hch (by decide)
            rw [hbyte, eq_of_beq hslash]
            rfl
          split
          · exact settles_error _ _
          · rename_i escaped rest' hrest'
            have hlen' : (c.forward 2).rest.length + 2 = c.rest.length := by
              have hdrop : (c.forward 1).rest = rest := by
                show c.rest.drop 1 = _
                rw [hrest]
                rfl
              show (c.rest.drop 2).length + 2 = _
              rw [hdrop] at hrest'
              rw [List.length_drop, hlen, hrest', List.length_cons]
              omega
            split
            · rename_i value' hescape
              obtain ⟨hlow, hline⟩ := escapeOf_eq_some hescape
              obtain ⟨ch', after'', rfl, hch', hbyte', hat'⟩ :=
                hat.forward_one hrest' hlow
              have hchn : ch' ≠ Char.ofNat 0x0A := by
                rintro rfl
                exact hline hbyte'.symm
              have hbody' : StringBody (body ++ [ch, ch']) := by
                apply hbody.append
                rw [hchs]
                exact StringBody.escape hch' hchn StringBody.nil
              have hpast : (c.forward 1).forward 1 = c.forward 2 := by
                unfold Cursor.forward
                rw [List.drop_drop]
              have hat'' : CursorAt source (before ++ quote :: (body ++ [ch, ch'])) after''
                  (c.forward 2) := by
                rw [hpast] at hat'
                simpa using hat'
              exact ih _ (by omega) hbody' hat''
            · exact settles_error _ _
        · rename_i hnslash
          split
          · exact settles_error _ _
          · rename_i hnnewline
            obtain ⟨ch, after', rfl⟩ : ∃ ch after', after = ch :: after' := by
              cases after with
              | nil =>
                rw [h.rest] at hrest
                cases hrest
              | cons ch after' => exact ⟨ch, after', rfl⟩
            have hnext : nextChar source c = pure (some (ch, c.forward ch.utf8Size)) := by
              unfold nextChar
              rw [h.text, h.pos, splitAtByte_append]
            have hfirst : ∀ k : Char, k.toNat < 0x80 → asciiByte k ≠ byte → ch ≠ k := by
              rintro k hk hne rfl
              have hbytes := h.rest.symm.trans hrest
              rw [utf8_cons, utf8EncodeChar_of_ascii hk] at hbytes
              exact hne (List.cons.inj hbytes).1
            have hsize : byteSize [ch] = ch.utf8Size := by
              rw [byteSize_cons, byteSize_nil]
              rfl
            have hfwd : CursorAt source (before ++ quote :: body) ([ch] ++ after') c := h
            have hat := hfwd.forward
            rw [hsize] at hat
            have hpos := ch.utf8Size_pos
            rw [hnext, lexed_pure_bind]
            have hbody' : StringBody (body ++ [ch]) := by
              apply hbody.append
              apply StringBody.char _ _ _ StringBody.nil
              · exact hfirst _ (by decide) fun h => hnquote (by rw [← h]; rfl)
              · exact hfirst _ (by decide) fun h => hnslash (by rw [← h]; rfl)
              · exact hfirst _ (by decide) fun h => hnnewline (by rw [← h]; rfl)
            have hat' : CursorAt source (before ++ quote :: (body ++ [ch])) after'
                (c.forward ch.utf8Size) := by
              simpa using hat
            have hlt : (c.forward ch.utf8Size).rest.length < fuel := by
              show (c.rest.drop ch.utf8Size).length < fuel
              rw [List.length_drop]
              omega
            exact ih _ hlt hbody' hat'

/-! ## Pieces -/

/-- Space, carriage return, tab and line feed. -/
def blanks : List Char := [' ', Char.ofNat 0x0D, Char.ofNat 0x09, Char.ofNat 0x0A]

/-- What a piece looks like that stands before the rest of a text. -/
inductive Lexeme : Piece → List Char → List Char → Prop
  | blank {ch : Char} {after : List Char} (h : ch ∈ blanks) : Lexeme .blank [ch] after
  | comment {body after : List Char} (hbody : Char.ofNat 0x0A ∉ body)
      (hafter : after = [] ∨ after.head? = some (Char.ofNat 0x0A)) :
      Lexeme .comment ('/' :: '/' :: body) after
  | word {kind : TokenKind} {mid after : List Char} (hkind : kind ≠ .eof) (hne : mid ≠ [])
      (hplain : ∀ b ∈ utf8 mid, isPlain b = true) : Lexeme (.token kind) mid after
  | slash {after : List Char} (h : (utf8 after).head? ≠ some 0x2F) :
      Lexeme (.token .slash) ['/'] after
  | string {text : String} {body after : List Char} (hbody : StringBody body) :
      Lexeme (.token (.str text)) (quote :: (body ++ [quote])) after

theorem Lexeme.ne_nil {piece : Piece} (h : Lexeme piece mid after) : mid ≠ [] := by
  cases h with
  | word _ hne _ => exact hne
  | _ => exact List.cons_ne_nil _ _

/-- A piece is read from an offset on. -/
def PieceTo (source before : List Char) (r : Piece × Cursor) : Prop :=
  ∃ mid after, Lexeme r.1 mid after ∧ CursorAt source (before ++ mid) after r.2

theorem asToken_spec {x : Lexed (TokenKind × Cursor)} (h : Settles x (TokenTo source before)) :
    Settles (asToken x) (PieceTo source before) := by
  apply Settles.bind h
  rintro ⟨kind, c'⟩ ⟨hkind, mid, after, hne, hplain, hat⟩
  exact settles_pure ⟨mid, after, Lexeme.word hkind hne hplain, hat⟩

theorem asToken_string {x : Lexed (TokenKind × Cursor)} (h : Settles x (StringTo source before)) :
    Settles (asToken x) (PieceTo source before) := by
  apply Settles.bind h
  rintro ⟨kind, c'⟩ ⟨⟨text, rfl⟩, body, after, hbody, hat⟩
  exact settles_pure ⟨_, after, Lexeme.string hbody, hat⟩

/-- A comment ends where the line does. -/
theorem skipLineComment_spec (h : CursorAt source (before ++ ['/', '/']) after c) :
    PieceTo source before (.comment, skipLineComment c) := by
  have htest : OnAscii fun b => b != 0x0A := by
    refine ⟨true, ?_⟩
    intro b hb
    apply bne_iff_ne.mpr
    rintro rfl
    exact absurd hb (by decide)
  obtain ⟨body, after', rfl, hbody, hafter, hat⟩ := h.advanceWhile htest
  refine ⟨'/' :: '/' :: body, after', Lexeme.comment ?_ ?_, ?_⟩
  · intro hmem
    have hb := hbody _ (asciiByte_mem_utf8 (by decide) hmem)
    exact absurd hb (by decide)
  · cases after' with
    | nil => exact Or.inl rfl
    | cons ch rest =>
      right
      obtain ⟨b, more, hmore⟩ := List.exists_cons_of_ne_nil (String.utf8EncodeChar_ne_nil (c := ch))
      have hline : b = 0x0A := by
        have hb := hafter b (more ++ utf8 rest) (by rw [utf8_cons, hmore]; rfl)
        simpa using hb
      have hmem : Char.ofNat 0x0A ∈ [ch] := by
        apply mem_of_asciiByte_mem_utf8 (by decide)
        rw [utf8_cons, hmore, hline]
        exact List.mem_cons_self
      rw [List.mem_singleton.mp hmem]
      rfl
  · have htext : before ++ '/' :: '/' :: body = before ++ ['/', '/'] ++ body := by simp
    rw [htext]
    exact hat

/-- One character has been read, and it is plain. -/
theorem wordTo_of_char {ch : Char} (hch : ch.toNat < 0x80) (hplain : isPlain (asciiByte ch) = true)
    (h : CursorAt source (before ++ [ch]) after c) : WordTo source before c := by
  refine ⟨[ch], after, by simp, ?_, h⟩
  intro b hb
  rw [utf8_cons, utf8EncodeChar_of_ascii hch, utf8_nil, List.append_nil, List.mem_singleton] at hb
  rw [hb]
  exact hplain

/-- An operator behind its first character, which does not begin a comment. -/
theorem operator_spec {ch : Char} {kind : TokenKind} {c' : Cursor} (hch : ch.toNat < 0x80)
    (h : CursorAt source (before ++ [ch]) after c)
    (hcomment : ¬(asciiByte ch == asciiByte '/' && c.peekIs (isOneOf ['/'])) = true)
    (hoperator : operator (asciiByte ch) c = some (kind, c')) :
    PieceTo source before (.token kind, c') := by
  have hdoubles : ∀ o ∈ doubleOperators, o.2.2 ≠ .eof ∧ isPlain (asciiByte o.1) = true ∧
      o.2.1.toNat < 0x80 ∧ isPlain (asciiByte o.2.1) = true := by decide
  have hsingles : ∀ o ∈ singleOperators, o.2 ≠ .eof ∧
      (isPlain (asciiByte o.1) = true ∨ o = ('/', .slash)) := by decide
  unfold operator at hoperator
  split at hoperator
  · rename_i o hfind
    cases hoperator
    obtain ⟨hkind, hfirst, hsecond⟩ := hdoubles o (List.mem_of_find?_eq_some hfind)
    have hfound := List.find?_some hfind
    obtain ⟨hbyte, hpeek⟩ := Bool.and_eq_true_iff.mp hfound
    rw [eq_of_beq hbyte] at hfirst
    have hsecond : ∀ k ∈ [o.2.1], k.toNat < 0x80 ∧ isPlain (asciiByte k) = true := fun k hk => by
      rw [List.mem_singleton.mp hk]
      exact hsecond
    obtain ⟨mid, after', hne, hplain, hat⟩ := (wordTo_of_char hch hfirst h).forward hsecond hpeek
    exact ⟨mid, after', Lexeme.word hkind hne hplain, hat⟩
  · obtain ⟨o, hfind, ho⟩ := Option.map_eq_some_iff.mp hoperator
    cases ho
    have hfound := List.find?_some hfind
    have hbyte := eq_of_beq hfound
    obtain ⟨hkind, hplain | rfl⟩ := hsingles o (List.mem_of_find?_eq_some hfind)
    · rw [hbyte] at hplain
      obtain ⟨mid, after', hne, hplain, hat⟩ := wordTo_of_char hch hplain h
      exact ⟨mid, after', Lexeme.word hkind hne hplain, hat⟩
    · rw [eq_of_asciiByte hch (by decide) hbyte.symm] at h hcomment
      refine ⟨['/'], after, Lexeme.slash ?_, h⟩
      intro hhead
      apply hcomment
      unfold Cursor.peekIs Cursor.peek
      rw [h.rest, ← List.head?_eq_getElem?, hhead]
      rfl

theorem isOneOf_ascii {chars : List Char} (hchars : ∀ k ∈ chars, (asciiByte k).toNat < 0x80)
    {b : UInt8} (h : isOneOf chars b = true) : b.toNat < 0x80 := by
  obtain ⟨k, hk, hbyte⟩ := List.any_eq_true.mp h
  rw [← eq_of_beq hbyte]
  exact hchars k hk

/-- A word that begins beyond ASCII goes over all bytes of its first character. -/
theorem wordTo_unicodeIdent {byte : UInt8} {rest : List UInt8} (h : CursorAt source before after c)
    (hrest : c.rest = byte :: rest) (hbyte : 0x80 ≤ byte.toNat) :
    WordTo source before ((c.forward 1).advanceWhile fun b => isIdentByte b || isNonAscii b) := by
  have htest := PlainTest.isIdentByte.or PlainTest.isNonAscii
  have hpass : (isIdentByte byte || isNonAscii byte) = true := by
    rw [show isNonAscii byte = true from decide_eq_true hbyte, Bool.or_true]
  have hfrom : (c.forward 1).advanceWhile (fun b => isIdentByte b || isNonAscii b) =
      c.advanceWhile fun b => isIdentByte b || isNonAscii b := by
    unfold Cursor.advanceWhile Cursor.forward
    simp only [hrest, List.drop_one, List.tail_cons, List.takeWhile_cons, List.dropWhile_cons, hpass,
      if_true, List.length_cons]
    rw [Nat.add_assoc, Nat.add_comm 1]
  rw [hfrom]
  obtain ⟨mid, after', rfl, hmid, hstop, hat⟩ := h.advanceWhile htest.onAscii
  refine ⟨mid, after', ?_, fun b hb => htest.isPlain_of (hmid b hb), hat⟩
  rintro rfl
  have hfail := hstop byte rest (h.rest.symm.trans hrest)
  rw [hpass] at hfail
  cases hfail

/-- The three bytes the main loop looks at for a digit. -/
theorem devanagariDigitNext_of {byte : UInt8} {rest : List UInt8} (hrest : c.rest = byte :: rest)
    (h : (byte == 0xE0 && (c.forward 1).peek == some 0xA5 &&
      (c.forward 1).peekNextIs isDevanagariDigitEnd) = true) : devanagariDigitNext c.rest = true := by
  unfold Cursor.peekNextIs Cursor.peekNext Cursor.peek Cursor.forward at h
  rw [hrest] at h ⊢
  match rest, h with
  | b :: b' :: rest', h => exact h
  | [b], h => simp at h
  | [], h => simp at h

/-- One turn of the main loop reads a piece. -/
theorem lexOne_spec (h : CursorAt source before after c) (hne : c.isAtEnd = false) :
    Settles (lexOne source c) (PieceTo source before) := by
  obtain ⟨byte, rest, hrest⟩ : ∃ byte rest, c.rest = byte :: rest := by
    cases hrest : c.rest with
    | nil =>
      unfold Cursor.isAtEnd at hne
      rw [hrest] at hne
      cases hne
    | cons byte rest => exact ⟨byte, rest, rfl⟩
  unfold lexOne
  rw [Cursor_advance_of_rest hrest, lexed_pure_bind, h.pos]
  dsimp only
  by_cases hascii : byte.toNat < 0x80
  · obtain ⟨ch, after', rfl, hch, rfl, hat⟩ := h.forward_one hrest hascii
    split
    · rename_i hblank
      apply settles_pure
      refine ⟨[ch], after', Lexeme.blank ?_, hat⟩
      obtain ⟨k, hk, hbyte⟩ := List.any_eq_true.mp hblank
      have hlow : ∀ k ∈ blanks, k.toNat < 0x80 := forall_chars (by decide)
      rw [eq_of_asciiByte hch (hlow k hk) (eq_of_beq hbyte).symm]
      exact hk
    split
    · rename_i hcomment
      obtain ⟨hslash, hpeek⟩ := Bool.and_eq_true_iff.mp hcomment
      obtain ⟨b, rest', hrest', hb⟩ := peekIs_eq_true hpeek
      obtain ⟨k, hk, hbyte⟩ := List.any_eq_true.mp hb
      rw [List.mem_singleton.mp hk] at hbyte
      have hlow : b.toNat < 0x80 := by
        rw [← eq_of_beq hbyte]
        decide
      obtain ⟨ch', after'', rfl, hch', hb', hat'⟩ := hat.forward_one hrest' hlow
      rw [eq_of_asciiByte hch (by decide) (eq_of_beq hslash),
        eq_of_asciiByte hch' (by decide) (hb'.trans (eq_of_beq hbyte).symm)] at hat'
      rw [List.append_assoc] at hat'
      exact settles_pure (skipLineComment_spec hat')
    rename_i hncomment
    split
    · rename_i hdigit
      apply asToken_spec
      exact lexNumber_spec _ (wordTo_of_char hch (PlainTest.isDigit.isPlain_of hdigit) hat)
    split
    · rename_i halpha
      apply asToken_spec
      exact lexIdent_spec
        (wordTo_of_char hch (PlainTest.isAlphaOrUnderscore.isPlain_of halpha) hat)
    split
    · rename_i hnonAscii
      exact absurd (of_decide_eq_true hnonAscii) (Nat.not_le_of_lt hascii)
    split
    · rename_i hquote
      have hchq : ch = quote := by
        apply eq_of_asciiByte hch (by decide)
        rw [eq_of_beq hquote]
        rfl
      rw [hchq] at hat
      apply asToken_string
      exact lexString_spec _ _ _ (Nat.lt_succ_self _) StringBody.nil hat
    split
    · rename_i kind c' hoperator
      apply settles_pure
      exact operator_spec hch hat hncomment hoperator
    · exact settles_error _ _
  · have hbyte := Nat.le_of_not_lt hascii
    have hslash : ¬(byte == asciiByte '/' && (c.forward 1).peekIs (isOneOf ['/'])) = true := by
      intro h
      rw [eq_of_beq (Bool.and_eq_true_iff.mp h).1] at hascii
      exact hascii (by decide)
    have hdigit : ¬Syntax.isDigit byte = true := by
      intro h
      have hle := of_decide_eq_true (Bool.and_eq_true_iff.mp h).2
      omega
    have halpha : ¬isAlphaOrUnderscore byte = true := by
      intro h
      unfold isAlphaOrUnderscore at h
      simp only [Bool.or_eq_true, Bool.and_eq_true, decide_eq_true_eq, beq_iff_eq] at h
      rcases h with (h | h) | rfl
      · omega
      · omega
      · exact hascii (by decide)
    have hnonAscii : isNonAscii byte = true := decide_eq_true hbyte
    rw [if_neg fun h => hascii (isOneOf_ascii (forall_chars (by decide)) h), if_neg hslash,
      if_neg hdigit, if_neg halpha, if_pos hnonAscii]
    split
    · rename_i hdevanagari
      apply asToken_spec
      exact lexDevanagariNumber_spec h (devanagariDigitNext_of hrest hdevanagari)
    · apply asToken_spec
      exact lexUnicodeIdent_spec (wordTo_unicodeIdent h hrest hbyte)

/-! ## The pieces of a text -/

/-- The pieces of a text that begins at an offset. -/
inductive Scanned : Nat → List Char → List (Piece × Span) → Prop
  | nil {pos : Nat} : Scanned pos [] []
  | cons {pos : Nat} {piece : Piece} {mid after : List Char} {pieces : List (Piece × Span)}
      (hlexeme : Lexeme piece mid after) (h : Scanned (pos + byteSize mid) after pieces) :
      Scanned pos (mid ++ after) ((piece, ⟨pos, pos + byteSize mid⟩) :: pieces)

/-- The loop over the pieces: each turn reads one and leaves the rest of the text. -/
theorem scan_spec (fuel : Nat) (hfuel : c.rest.length ≤ fuel) (h : CursorAt source before after c) :
    Settles (scan source fuel c) (Scanned (byteSize before) after) := by
  induction fuel generalizing c before after with
  | zero =>
    have hrest : c.rest = [] := List.eq_nil_of_length_eq_zero (Nat.le_zero.mp hfuel)
    have hafter : after = [] := utf8_eq_nil (h.rest.symm.trans hrest)
    unfold scan
    rw [if_pos (by unfold Cursor.isAtEnd; rw [hrest]; rfl), hafter]
    exact settles_pure Scanned.nil
  | succ fuel ih =>
    unfold scan
    split
    · rename_i hend
      have hafter : after = [] := utf8_eq_nil (h.rest.symm.trans (List.isEmpty_iff.mp hend))
      rw [hafter]
      exact settles_pure Scanned.nil
    · rename_i hend
      apply Settles.bind (lexOne_spec h (Bool.eq_false_iff.mpr hend))
      rintro ⟨piece, c'⟩ ⟨mid, after', hlexeme, hat⟩
      dsimp only at hlexeme hat
      obtain rfl : after = mid ++ after' := by
        have htext := h.text.symm.trans hat.text
        rw [List.append_assoc] at htext
        exact List.append_cancel_left htext
      have hpos := byteSize_pos hlexeme.ne_nil
      have hlen : c'.rest.length ≤ fuel := by
        rw [h.rest] at hfuel
        rw [hat.rest]
        have hsize : (utf8 (mid ++ after')).length = byteSize mid + (utf8 after').length := by
          rw [Library.utf8_append, List.length_append]
          rfl
        omega
      apply Settles.bind (ih hlen hat)
      intro pieces hpieces
      apply settles_pure
      rw [byteSize_append] at hpieces
      rw [h.pos, hat.pos, byteSize_append]
      exact Scanned.cons hlexeme hpieces

/-- Every text is cut into pieces, up to an error. -/
theorem pieces_spec (source : List Char) :
    Settles (pieces source) (Scanned 0 source) := by
  have h : CursorAt source [] source ⟨0, utf8 source⟩ := ⟨rfl, rfl, rfl⟩
  exact scan_spec (byteSize source) (Nat.le_refl _) h

end Vani.Analysis

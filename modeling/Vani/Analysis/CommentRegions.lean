import Vani.Analysis.Pieces
import Vani.Syntax.Comments

/-!
# Comments beside the lexer

The scan for comments and the lexer go over a text in step: both leave a piece of the lexer
where it ends. A string literal is the one piece with quotes in it, and the scan leaves it at
the quote that ends it; a comment is the one piece with two slashes, and both leave it at the
end of its line.
-/

set_option autoImplicit false

namespace Vani.Analysis

open Vani.Library Vani.Syntax

variable {source : List Char}

/-! ## Turns of the scan -/

theorem extractFrom_nil (pos : Nat) : extractFrom source ⟨pos, []⟩ = [] := by
  rw [extractFrom]

theorem extractFrom_cons (pos : Nat) (b : UInt8) (rest : List UInt8) :
    extractFrom source ⟨pos, b :: rest⟩ =
      if b == 0x22 then extractFrom source (skipString (pos + 1) rest)
      else if b == asciiByte '/' && (rest[0]?).any (isOneOf ['/']) then
        ⟨(sliceBytes source pos (skipLineComment ⟨pos, b :: rest⟩).pos).getD [],
          ⟨pos, (skipLineComment ⟨pos, b :: rest⟩).pos⟩⟩ ::
            extractFrom source (skipLineComment ⟨pos, b :: rest⟩)
      else extractFrom source ⟨pos + 1, rest⟩ := by
  rw [extractFrom]

/-- Bytes that begin neither a string nor a comment are passed. -/
theorem extractFrom_append {bytes : List UInt8} (h : ∀ b ∈ bytes, b ≠ 0x22 ∧ b ≠ 0x2F) (pos : Nat)
    (rest : List UInt8) :
    extractFrom source ⟨pos, bytes ++ rest⟩ = extractFrom source ⟨pos + bytes.length, rest⟩ := by
  induction bytes generalizing pos with
  | nil => rfl
  | cons b bytes ih =>
    obtain ⟨hquote, hslash⟩ := h b List.mem_cons_self
    have hslash' : (b == asciiByte '/') = false := beq_eq_false_iff_ne.mpr hslash
    rw [List.cons_append, extractFrom_cons, if_neg (by simpa using hquote), hslash',
      Bool.false_and, if_neg Bool.false_ne_true, ih fun b' hb' => h b' (List.mem_cons_of_mem _ hb'),
      List.length_cons, Nat.add_assoc, Nat.add_comm 1]

/-- Bytes of a string that neither end it nor begin an escape are passed. -/
theorem skipString_append {bytes : List UInt8} (h : ∀ b ∈ bytes, b ≠ 0x22 ∧ b ≠ 0x5C ∧ b ≠ 0x0A)
    (pos : Nat) (rest : List UInt8) :
    skipString pos (bytes ++ rest) = skipString (pos + bytes.length) rest := by
  induction bytes generalizing pos with
  | nil => rfl
  | cons b bytes ih =>
    obtain ⟨hquote, hescape, hline⟩ := h b List.mem_cons_self
    have hturn : skipString pos (b :: (bytes ++ rest)) = skipString (pos + 1) (bytes ++ rest) := by
      conv_lhs => unfold skipString
      rw [if_neg (by simpa using hescape), if_neg (by simpa using hquote),
        if_neg (by simpa using hline)]
    rw [List.cons_append, hturn, ih fun b' hb' => h b' (List.mem_cons_of_mem _ hb'),
      List.length_cons, Nat.add_assoc, Nat.add_comm 1]

/-- A character other than some ASCII one has no byte of it. -/
theorem ne_of_mem_utf8EncodeChar {ch k : Char} (hk : k.toNat < 0x80) (hne : ch ≠ k) {b : UInt8}
    (hb : b ∈ String.utf8EncodeChar ch) : b ≠ asciiByte k := by
  rintro rfl
  have hmem : k ∈ [ch] := by
    apply mem_of_asciiByte_mem_utf8 hk
    rw [utf8_cons, utf8_nil, List.append_nil]
    exact hb
  exact hne (List.mem_singleton.mp hmem).symm

/-- The body of a string is passed up to the quote that ends it. -/
theorem skipString_body {body : List Char} (h : StringBody body) (pos : Nat) (rest : List UInt8) :
    skipString pos (utf8 body ++ 0x22 :: rest) = ⟨pos + byteSize body + 1, rest⟩ := by
  induction h generalizing pos with
  | nil =>
    show skipString pos (0x22 :: rest) = _
    unfold skipString
    rw [if_neg (by decide), if_pos (by decide)]
    rfl
  | @char ch body hquote hescape hnewline _ ih =>
    have hpass : ∀ b ∈ String.utf8EncodeChar ch, b ≠ 0x22 ∧ b ≠ 0x5C ∧ b ≠ 0x0A := by
      intro b hb
      exact ⟨ne_of_mem_utf8EncodeChar (k := quote) (by decide) hquote hb,
        ne_of_mem_utf8EncodeChar (by decide) hescape hb,
        ne_of_mem_utf8EncodeChar (by decide) hnewline hb⟩
    rw [utf8_cons, List.append_assoc, skipString_append hpass, ih, byteSize_cons,
      String.length_utf8EncodeChar, Nat.add_assoc pos]
  | @escape ch body hascii _ _ ih =>
    have hbytes : utf8 (Char.ofNat 0x5C :: ch :: body) ++ 0x22 :: rest =
        0x5C :: asciiByte ch :: (utf8 body ++ 0x22 :: rest) := by
      rw [utf8_cons, utf8_cons, utf8EncodeChar_of_ascii hascii]
      rfl
    have hturn : skipString pos (0x5C :: asciiByte ch :: (utf8 body ++ 0x22 :: rest)) =
        skipString (pos + 2) (utf8 body ++ 0x22 :: rest) := by
      conv_lhs => unfold skipString
      rw [if_pos (by decide)]
    have hsize : byteSize (Char.ofNat 0x5C :: ch :: body) = 2 + byteSize body := by
      rw [byteSize_cons, byteSize_cons, utf8Size_of_ascii hascii]
      exact (Nat.add_assoc 1 1 _).symm
    rw [hbytes, hturn, ih, hsize, Nat.add_assoc pos]

/-! ## Pieces -/

/-- A comment is passed to the end of its line. -/
theorem skipLineComment_body {body after : List Char} (hbody : Char.ofNat 0x0A ∉ body)
    (hafter : after = [] ∨ after.head? = some (Char.ofNat 0x0A)) (pos : Nat) :
    skipLineComment ⟨pos, utf8 (body ++ after)⟩ = ⟨pos + byteSize body, utf8 after⟩ := by
  have hpass : ∀ b ∈ utf8 body, (b != 0x0A) = true := by
    intro b hb
    apply bne_iff_ne.mpr
    rintro rfl
    exact hbody (mem_of_asciiByte_mem_utf8 (by decide) hb)
  have hstop : (utf8 after).takeWhile (fun b => b != 0x0A) = [] ∧
      (utf8 after).dropWhile (fun b => b != 0x0A) = utf8 after := by
    rcases hafter with rfl | hhead
    · exact ⟨rfl, rfl⟩
    · cases after with
      | nil => cases hhead
      | cons ch after =>
        cases hhead
        exact ⟨rfl, rfl⟩
  unfold skipLineComment Cursor.advanceWhile
  rw [Library.utf8_append, List.takeWhile_append_of_pos hpass, List.dropWhile_append_of_pos hpass,
    hstop.1, hstop.2, List.append_nil]
  rfl

/-- The scan leaves a piece where the lexer does, and takes it for a comment if the lexer does. -/
theorem extractFrom_lexeme {piece : Piece} {mid after : List Char} (h : Lexeme piece mid after)
    (pos : Nat) :
    (extractFrom source ⟨pos, utf8 (mid ++ after)⟩).map Comment.span =
      (commentOf (piece, ⟨pos, pos + byteSize mid⟩)).toList ++
        (extractFrom source ⟨pos + byteSize mid, utf8 after⟩).map Comment.span := by
  cases h with
  | @blank ch _ h =>
    have hpass : ∀ b ∈ utf8 [ch], b ≠ 0x22 ∧ b ≠ 0x2F := by
      have hblanks : ∀ ch ∈ blanks, ch.toNat < 0x80 ∧ asciiByte ch ≠ 0x22 ∧ asciiByte ch ≠ 0x2F :=
        forall_chars (by decide)
      obtain ⟨hch, hbyte⟩ := hblanks ch h
      intro b hb
      rw [utf8_cons, utf8EncodeChar_of_ascii hch, utf8_nil, List.append_nil,
        List.mem_singleton] at hb
      rw [hb]
      exact hbyte
    rw [Library.utf8_append, extractFrom_append hpass]
    rfl
  | word hkind hne hplain =>
    have hpass : ∀ b ∈ utf8 mid, b ≠ 0x22 ∧ b ≠ 0x2F := by
      intro b hb
      have hb := hplain b hb
      unfold isPlain at hb
      simp only [Bool.and_eq_true, bne_iff_ne] at hb
      exact hb.1
    rw [Library.utf8_append, extractFrom_append hpass]
    rfl
  | slash hnext =>
    have hnot : ¬(asciiByte '/' == asciiByte '/' &&
        ((utf8 after)[0]?).any (isOneOf ['/'])) = true := by
      intro hpeek
      apply hnext
      rw [List.head?_eq_getElem?]
      have hany := (Bool.and_eq_true_iff.mp hpeek).2
      cases hb : (utf8 after)[0]? with
      | none =>
        rw [hb] at hany
        cases hany
      | some b =>
        rw [hb] at hany
        obtain ⟨k, hk, hbyte⟩ := List.any_eq_true.mp hany
        rw [List.mem_singleton.mp hk] at hbyte
        rw [← eq_of_beq hbyte]
        rfl
    have hbytes : utf8 (['/'] ++ after) = asciiByte '/' :: utf8 after := rfl
    rw [hbytes, extractFrom_cons, if_neg (by decide), if_neg hnot]
    rfl
  | @string text body _ hbody =>
    have hbytes : utf8 (quote :: (body ++ [quote]) ++ after) =
        0x22 :: (utf8 body ++ 0x22 :: utf8 after) := by
      rw [List.cons_append, utf8_cons, Library.utf8_append, Library.utf8_append, List.append_assoc]
      rfl
    have hsize : byteSize (quote :: (body ++ [quote])) = 1 + byteSize body + 1 := by
      rw [byteSize_cons, byteSize_append, Nat.add_assoc]
      rfl
    rw [hbytes, extractFrom_cons, if_pos (by decide), skipString_body hbody, hsize]
    have hpos : pos + 1 + byteSize body + 1 = pos + (1 + byteSize body + 1) := by omega
    rw [hpos]
    rfl
  | @comment body _ hbody hafter =>
    have hline : Char.ofNat 0x0A ∉ '/' :: '/' :: body := by
      intro hmem
      rcases List.mem_cons.mp hmem with h | h
      · exact absurd h (by decide)
      rcases List.mem_cons.mp h with h | h
      · exact absurd h (by decide)
      · exact hbody h
    have hskip := skipLineComment_body hline hafter pos
    have hbytes : utf8 ('/' :: '/' :: body ++ after) =
        asciiByte '/' :: asciiByte '/' :: utf8 (body ++ after) := rfl
    rw [hbytes] at hskip ⊢
    rw [extractFrom_cons, if_neg (by decide), if_pos (by rfl), hskip]
    rfl

/-- Over all pieces of a text the scan finds the comments among them. -/
theorem extractFrom_scanned (source : List Char) {pos : Nat} {text : List Char}
    {pieces : List (Piece × Span)} (h : Scanned pos text pieces) :
    (extractFrom source ⟨pos, utf8 text⟩).map Comment.span = pieces.filterMap commentOf := by
  induction h with
  | nil => rw [utf8_nil, extractFrom_nil]; rfl
  | @cons pos piece mid after pieces hlexeme _ ih =>
    rw [extractFrom_lexeme hlexeme, ih, List.filterMap_cons]
    cases commentOf (piece, ⟨pos, pos + byteSize mid⟩) <;> rfl

/-- For a source that the lexer accepts, the regions of the comments that are extracted are the
regions that the lexer goes over as comments. -/
theorem extractComments_eq_skipped {tokens : List Token}
    (h : lex source = pure tokens) :
    skippedComments source = pure ((extractComments source).map Comment.span) := by
  obtain ⟨raw, hraw, -⟩ := lexed_bind_eq_ok h
  obtain ⟨found, hfound, -⟩ := lexed_bind_eq_ok hraw
  have hscanned := (pieces_spec source).ok hfound
  have hcomments := extractFrom_scanned source hscanned
  unfold skippedComments extractComments
  rw [hcomments, hfound]
  rfl

/-- A comment marker in a string, an escaped quote, and a quote in a comment. -/
theorem extractComments_eq_skipped_quotes :
    skippedComments "a \"// \\\"é\" // \" b\n/ \"\"//".toList =
      pure ((extractComments "a \"// \\\"é\" // \" b\n/ \"\"//".toList).map Comment.span) :=
  have h : lex "a \"// \\\"é\" // \" b\n/ \"\"//".toList =
      pure [⟨.ident "a", ⟨0, 1⟩⟩, ⟨.str "// \"é", ⟨2, 11⟩⟩, ⟨.slash, ⟨19, 20⟩⟩,
        ⟨.str "", ⟨21, 23⟩⟩, ⟨.eof, ⟨25, 25⟩⟩] := by
    decide
  extractComments_eq_skipped h

end Vani.Analysis

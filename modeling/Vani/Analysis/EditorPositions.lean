import Vani.Analysis.TokenSpans
import Vani.Syntax.Lsp
import Mathlib.Algebra.GroupWithZero.Nat

/-!
# Positions for editors

The protocol counts lines by the ends `\n`, `\r\n` and `\r`, and columns in units of UTF-16. The
server counts the bytes behind the last `\n`, both numbers as `u32`. The two agree on every
boundary of a source exactly where the source is ASCII, has no carriage return by itself and
fits the numbers; then offsets come back from their positions, and the tokens that are sent
relative to each other decode to where they are.
-/

set_option autoImplicit false

namespace Vani.Analysis

open Vani.Library Vani.Syntax

/-! ## What the protocol specifies -/

/-- `\n` -/
def lf : Char := Char.ofNat 0x0A

/-- `\r` -/
def cr : Char := Char.ofNat 0x0D

/-- The number of UTF-16 units of a character. -/
def utf16Size (c : Char) : Nat := if c.toNat < 0x10000 then 1 else 2

def utf16Length (text : List Char) : Nat := (text.map utf16Size).sum

/-- The position behind a character, by what follows it. -/
def stepPosition (p : Position) (c : Char) (after : List Char) : Position :=
  if c = lf ∨ c = cr ∧ after.head? ≠ some lf then ⟨p.line + 1, 0⟩
  else ⟨p.line, p.character + utf16Size c⟩

/-- The position behind a text, by what follows it. -/
def positionFrom : Position → List Char → List Char → Position
  | p, [], _ => p
  | p, c :: text, after => positionFrom (stepPosition p c (text ++ after)) text after

/-- The position between two parts of a source. -/
def protocolPosition (before after : List Char) : Position := positionFrom ⟨0, 0⟩ before after

/-- The position of a span and its length. -/
def placeOf (source : List Char) (span : Span) : Option (Position × Nat) := do
  let (before, after) ← splitAtByte source span.start
  let text ← sliceBytes source span.start span.stop
  pure (protocolPosition before after, utf16Length text)

/-- The positions and lengths of tokens that are relative to each other. -/
def decodeFrom : Position → List SemanticToken → List (Position × Nat)
  | _, [] => []
  | p, t :: rest =>
    let q : Position := if t.deltaLine = 0 then ⟨p.line, p.character + t.deltaStart⟩
      else ⟨p.line + t.deltaLine, t.deltaStart⟩
    (q, t.length) :: decodeFrom q rest

/-- The server's positions are those of the protocol, for every boundary of the source and for
every token that is reported. -/
structure PositionsCorrect (overrides : Overrides) (source : List Char) : Prop where
  position : ∀ before after, source = before ++ after →
    byteOffsetToPosition source (byteSize before) = protocolPosition before after
  offset : ∀ before after, source = before ++ after →
    positionToByteOffset source (byteOffsetToPosition source (byteSize before)) =
      some (byteSize before)
  tokens : ∀ tokens, lex source = pure tokens →
    (decodeFrom ⟨0, 0⟩ (computeSemanticTokens overrides source)).map some =
      (tokens.filter fun t => (kindIndex t.kind).isSome).map fun t => placeOf source t.span

/-- All characters are ASCII, a carriage return is before a line feed, and no number of lines
or of characters of a line is beyond a `u32`. -/
structure PlainLines (source : List Char) : Prop where
  ascii : ∀ c ∈ source, c.toNat < 0x80
  returns : ∀ before after, source = before ++ cr :: after → after.head? = some lf
  small : ∀ before after, source = before ++ after →
    before.count lf < 2 ^ 32 ∧ (before.reverse.takeWhile (· ≠ lf)).length < 2 ^ 32

/-! ## Exact positions -/

/-- The line and the byte column behind a character. -/
def byteStep (p : Nat × Nat) (c : Char) : Nat × Nat :=
  if c = lf then (p.1 + 1, 0) else (p.1, p.2 + c.utf8Size)

/-- The line and the byte column behind a text. -/
def bytePosition (before : List Char) : Nat × Nat := before.foldl byteStep (0, 0)

variable {source before after text : List Char} {c : Char} {p : Position}

theorem bytePosition_concat (before : List Char) (c : Char) :
    bytePosition (before ++ [c]) = byteStep (bytePosition before) c :=
  List.foldl_concat ..

theorem byteStep_lf (p : Nat × Nat) : byteStep p lf = (p.1 + 1, 0) := if_pos rfl

theorem byteStep_of_ne (p : Nat × Nat) (hc : c ≠ lf) : byteStep p c = (p.1, p.2 + c.utf8Size) :=
  if_neg hc

/-- Behind a text the line is further on, or it is the same and the column is. -/
theorem foldl_byteStep_le (p : Nat × Nat) (text : List Char) :
    p.1 < (text.foldl byteStep p).1 ∨
      (text.foldl byteStep p).1 = p.1 ∧ (text.foldl byteStep p).2 = p.2 + byteSize text := by
  induction text generalizing p with
  | nil => exact Or.inr ⟨rfl, rfl⟩
  | cons c text ih =>
    rw [List.foldl_cons]
    by_cases hc : c = lf
    · rw [hc, byteStep_lf]
      left
      rcases ih (p.1 + 1, 0) with h | ⟨h, -⟩
      · exact Nat.lt_of_succ_lt h
      · rw [h]
        exact Nat.lt_succ_self _
    · rw [byteStep_of_ne p hc, byteSize_cons]
      rcases ih (p.1, p.2 + c.utf8Size) with h | ⟨h, hcol⟩
      · exact Or.inl h
      · exact Or.inr ⟨h, hcol.trans (Nat.add_assoc _ _ _)⟩

theorem foldl_byteStep_col_le (p : Nat × Nat) (text : List Char) :
    (text.foldl byteStep p).2 ≤ p.2 + byteSize text := by
  induction text generalizing p with
  | nil => exact Nat.le_refl _
  | cons c text ih =>
    have h := ih (byteStep p c)
    have hstep : (byteStep p c).2 ≤ p.2 + c.utf8Size := by
      unfold byteStep
      split
      · exact Nat.zero_le _
      · exact Nat.le_refl _
    rw [List.foldl_cons, byteSize_cons]
    omega

theorem positionFrom_concat (p : Position) (before : List Char) (c : Char) (after : List Char) :
    positionFrom p (before ++ [c]) after =
      stepPosition (positionFrom p before (c :: after)) c after := by
  induction before generalizing p with
  | nil => rfl
  | cons d before ih =>
    show positionFrom (stepPosition p d (before ++ [c] ++ after)) (before ++ [c]) after = _
    rw [ih, List.append_assoc]
    rfl

theorem protocolPosition_concat (before : List Char) (c : Char) (after : List Char) :
    protocolPosition (before ++ [c]) after =
      stepPosition (protocolPosition before (c :: after)) c after :=
  positionFrom_concat _ before c after

/-! ## What the server computes -/

theorem asU32_add_one (n : Nat) : asU32 (asU32 n + 1) = asU32 (n + 1) := by
  unfold asU32
  omega

theorem asU32_of_lt {n : Nat} (h : n < 2 ^ 32) : asU32 n = n := Nat.mod_eq_of_lt h

/-- Bytes that are no line feed are passed. -/
theorem lineFrom_append {clamped line last : Nat} {bytes rest : List UInt8} {i : Nat}
    (hbytes : ∀ b ∈ bytes, b ≠ 0x0A) (hle : i + bytes.length ≤ clamped) :
    lineFrom clamped i line last (bytes ++ rest) =
      lineFrom clamped (i + bytes.length) line last rest := by
  induction bytes generalizing i with
  | nil => rfl
  | cons b bytes ih =>
    rw [List.length_cons] at hle
    have hb : ¬(b == 0x0A) = true := by simpa using hbytes b List.mem_cons_self
    rw [List.cons_append, lineFrom, if_neg (by omega), if_neg hb,
      ih (fun b' hb' => hbytes b' (List.mem_cons_of_mem _ hb')) (by omega), List.length_cons,
      Nat.add_assoc, Nat.add_comm 1]

/-- A character other than a line feed has no byte of one. -/
theorem ne_lf_of_mem (hc : c ≠ lf) {b : UInt8} (hb : b ∈ String.utf8EncodeChar c) : b ≠ 0x0A := by
  rintro rfl
  have hmem : lf ∈ [c] := by
    apply mem_of_asciiByte_mem_utf8 (by decide)
    rw [utf8_cons, utf8_nil, List.append_nil]
    exact hb
  exact hc (List.mem_singleton.mp hmem).symm

/-- The loop over the bytes of a text counts its lines, and keeps where the last one begins. -/
theorem lineFrom_text {clamped l k i : Nat} (text : List Char) (rest : List UInt8)
    (hk : k ≤ i) (hclamped : i + byteSize text = clamped) :
    lineFrom clamped i (asU32 l) (i - k) (utf8 text ++ rest) =
      (asU32 (text.foldl byteStep (l, k)).1, clamped - (text.foldl byteStep (l, k)).2) := by
  induction text generalizing i l k with
  | nil =>
    have hi : i = clamped := hclamped
    subst hi
    cases rest with
    | nil => rfl
    | cons b rest => exact if_pos (Nat.le_refl _)
  | cons c text ih =>
    have hpos := c.utf8Size_pos
    rw [byteSize_cons] at hclamped
    rw [utf8_cons, List.append_assoc, List.foldl_cons]
    by_cases hc : c = lf
    · subst hc
      have hsize : lf.utf8Size = 1 := utf8Size_of_ascii (by decide)
      have hbytes : String.utf8EncodeChar lf = [0x0A] := utf8EncodeChar_of_ascii (by decide)
      have h := ih (l := l + 1) (k := 0) (i := i + 1) (Nat.zero_le _) (by omega)
      rw [hbytes, byteStep_lf, List.singleton_append, lineFrom, if_neg (by omega),
        if_pos (by decide), asU32_add_one, ← h]
      rfl
    · have hlen := String.length_utf8EncodeChar c
      have h := ih (l := l) (k := k + c.utf8Size) (i := i + c.utf8Size) (by omega) (by omega)
      rw [byteStep_of_ne _ hc, lineFrom_append (fun b hb => ne_lf_of_mem hc hb) (by omega), hlen,
        ← h]
      congr 1
      omega

/-- The server's position of a boundary. -/
theorem byteOffsetToPosition_eq (before after : List Char) :
    byteOffsetToPosition (before ++ after) (byteSize before) =
      ⟨asU32 (bytePosition before).1, asU32 (bytePosition before).2⟩ := by
  have hclamped : min (byteSize before) (byteSize (before ++ after)) = byteSize before := by
    rw [byteSize_append]
    omega
  have hcol : (bytePosition before).2 ≤ byteSize before := by
    have h := foldl_byteStep_col_le (0, 0) before
    unfold bytePosition
    omega
  have hline : lineFrom (byteSize before) 0 0 0 (utf8 (before ++ after)) =
      (asU32 (bytePosition before).1, byteSize before - (bytePosition before).2) := by
    rw [Library.utf8_append]
    exact lineFrom_text (l := 0) (k := 0) (i := 0) before (utf8 after) (Nat.le_refl _)
      (Nat.zero_add _)
  unfold byteOffsetToPosition
  rw [hclamped]
  dsimp only
  rw [hline]
  show Position.mk _ (asU32 (byteSize before - (byteSize before - _))) = _
  rw [Nat.sub_sub_self hcol]

/-! ## Sources that the server gets wrong -/

theorem utf16Size_lt {c : Char} (hc : ¬c.toNat < 0x80) :
    utf16Size c < c.utf8Size ∧ c.utf8Size ≤ 4 ∧ 0 < utf16Size c := by
  have hlen := String.length_utf8EncodeChar c
  have hv : c.val.toNat = c.toNat := rfl
  unfold String.utf8EncodeChar at hlen
  simp only [hv] at hlen
  unfold utf16Size
  split_ifs at hlen ⊢ <;> simp only [List.length_cons, List.length_nil] at hlen <;> omega

/-- Behind a character beyond ASCII the byte column is not the column of the protocol. -/
theorem ascii_of_position
    (h : ∀ before after, source = before ++ after →
      byteOffsetToPosition source (byteSize before) = protocolPosition before after) :
    ∀ c ∈ source, c.toNat < 0x80 := by
  intro c hc
  by_contra hascii
  obtain ⟨before, after, rfl⟩ := List.append_of_mem hc
  have hfirst := h before (c :: after) rfl
  have hsecond := h (before ++ [c]) after (by simp)
  have hne : c ≠ lf := by
    rintro rfl
    exact hascii (by decide)
  have hcr : c ≠ cr := by
    rintro rfl
    exact hascii (by decide)
  have hproto : protocolPosition (before ++ [c]) after =
      ⟨(protocolPosition before (c :: after)).line,
        (protocolPosition before (c :: after)).character + utf16Size c⟩ := by
    rw [protocolPosition_concat]
    exact if_neg (by simp [hne, hcr])
  have hsplit : before ++ c :: after = before ++ [c] ++ after := by simp
  rw [byteOffsetToPosition_eq] at hfirst
  rw [hproto, ← hfirst, hsplit, byteOffsetToPosition_eq, bytePosition_concat, byteStep_of_ne _ hne]
    at hsecond
  have hcol := congrArg Position.character hsecond
  obtain ⟨hlt, hle, hpos⟩ := utf16Size_lt hascii
  simp only [asU32] at hcol
  omega

/-- Behind a carriage return by itself the server is still on its line. -/
theorem returns_of_position
    (h : ∀ before after, source = before ++ after →
      byteOffsetToPosition source (byteSize before) = protocolPosition before after) :
    ∀ before after, source = before ++ cr :: after → after.head? = some lf := by
  rintro before after rfl
  by_contra halone
  have hfirst := h before (cr :: after) rfl
  have hsecond := h (before ++ [cr]) after (by simp)
  have hproto : protocolPosition (before ++ [cr]) after =
      ⟨(protocolPosition before (cr :: after)).line + 1, 0⟩ := by
    rw [protocolPosition_concat]
    exact if_pos (Or.inr ⟨rfl, halone⟩)
  have hsplit : before ++ cr :: after = before ++ [cr] ++ after := by simp
  rw [byteOffsetToPosition_eq] at hfirst
  rw [hproto, ← hfirst, hsplit, byteOffsetToPosition_eq, bytePosition_concat,
    byteStep_of_ne _ (by decide)] at hsecond
  have hline := congrArg Position.line hsecond
  simp only at hline
  omega

/-! ## Sources that the server gets right -/

/-- On plain text the protocol counts as the server does. -/
theorem protocolPosition_eq (hascii : ∀ c ∈ source, c.toNat < 0x80)
    (hreturns : ∀ before after, source = before ++ cr :: after → after.head? = some lf)
    (hsource : source = before ++ after) :
    protocolPosition before after = ⟨(bytePosition before).1, (bytePosition before).2⟩ := by
  induction before using List.reverseRecOn generalizing after with
  | nil => rfl
  | append_singleton before c ih =>
    have hsource' : source = before ++ c :: after := by
      rw [hsource]
      simp
    have hc : c.toNat < 0x80 := hascii c (by rw [hsource']; simp)
    rw [protocolPosition_concat, ih hsource', bytePosition_concat]
    by_cases hlf : c = lf
    · rw [hlf, byteStep_lf]
      exact if_pos (Or.inl rfl)
    · have hplain : ¬(c = lf ∨ c = cr ∧ after.head? ≠ some lf) := by
        rintro (h | ⟨rfl, h⟩)
        · exact hlf h
        · exact h (hreturns before after hsource')
      have hunit : utf16Size c = c.utf8Size := by
        rw [utf8Size_of_ascii hc]
        exact if_pos (by omega)
      rw [byteStep_of_ne _ hlf, ← hunit]
      exact if_neg hplain

/-- On ASCII the byte column is the number of characters behind the last line feed. -/
theorem bytePosition_eq (hascii : ∀ c ∈ before, c.toNat < 0x80) :
    bytePosition before = (before.count lf, (before.reverse.takeWhile (· ≠ lf)).length) := by
  induction before using List.reverseRecOn with
  | nil => rfl
  | append_singleton before c ih =>
    have hc : c.toNat < 0x80 := hascii c (by simp)
    rw [bytePosition_concat, ih fun d hd => hascii d (by simp [hd]), List.count_append,
      List.reverse_append]
    by_cases hlf : c = lf
    · rw [hlf, byteStep_lf]
      simp
    · rw [byteStep_of_ne _ hlf, utf8Size_of_ascii hc]
      simp [hlf]

/-- Where the server's positions are right, its numbers have not wrapped. -/
theorem plainLines_of_position
    (h : ∀ before after, source = before ++ after →
      byteOffsetToPosition source (byteSize before) = protocolPosition before after) :
    PlainLines source := by
  have hascii := ascii_of_position h
  have hreturns := returns_of_position h
  refine ⟨hascii, hreturns, ?_⟩
  intro before after hsource
  have hposition := h before after hsource
  rw [protocolPosition_eq hascii hreturns hsource, hsource, byteOffsetToPosition_eq,
    bytePosition_eq fun c hc => hascii c (by rw [hsource]; simp [hc])] at hposition
  have hline := congrArg Position.line hposition
  have hcol := congrArg Position.character hposition
  simp only [asU32] at hline hcol
  omega

theorem PlainLines.bytePosition_lt (h : PlainLines source) (hsource : source = before ++ after) :
    (bytePosition before).1 < 2 ^ 32 ∧ (bytePosition before).2 < 2 ^ 32 := by
  rw [bytePosition_eq fun c hc => h.ascii c (by rw [hsource]; simp [hc])]
  exact h.small before after hsource

/-- The server's position on a plain source has not wrapped. -/
theorem PlainLines.position_eq (h : PlainLines source)
    (hsource : source = before ++ after) :
    byteOffsetToPosition source (byteSize before) =
      ⟨(bytePosition before).1, (bytePosition before).2⟩ := by
  obtain ⟨hline, hcol⟩ := h.bytePosition_lt hsource
  rw [hsource, byteOffsetToPosition_eq, asU32_of_lt hline, asU32_of_lt hcol]

theorem PlainLines.position (h : PlainLines source) (hsource : source = before ++ after) :
    byteOffsetToPosition source (byteSize before) = protocolPosition before after := by
  rw [h.position_eq hsource, protocolPosition_eq h.ascii h.returns hsource]

/-! ## Back to offsets -/

/-- The loop over the bytes stops at the first offset of the position, which is behind the
text that leads to it. -/
theorem offsetFrom_text {l k i : Nat} (text : List Char) (rest : List UInt8)
    (hascii : ∀ c ∈ text, c.toNat < 0x80)
    (hsmall : ∀ q r, text = q ++ r →
      (q.foldl byteStep (l, k)).1 < 2 ^ 32 ∧ (q.foldl byteStep (l, k)).2 < 2 ^ 32) :
    offsetFrom ⟨(text.foldl byteStep (l, k)).1, (text.foldl byteStep (l, k)).2⟩ i l k
      (utf8 text ++ rest) = some (i + byteSize text) := by
  induction text generalizing l k i with
  | nil =>
    cases rest with
    | nil => exact if_pos ⟨rfl, rfl⟩
    | cons b rest => exact if_pos ⟨rfl, rfl⟩
  | cons c text ih =>
    have hc : c.toNat < 0x80 := hascii c List.mem_cons_self
    have hbytes : utf8 (c :: text) ++ rest = asciiByte c :: (utf8 text ++ rest) := by
      rw [utf8_cons, utf8EncodeChar_of_ascii hc]
      rfl
    have hsize : byteSize (c :: text) = 1 + byteSize text := by
      rw [byteSize_cons, utf8Size_of_ascii hc]
    have hnext : (byteStep (l, k) c).1 < 2 ^ 32 ∧ (byteStep (l, k) c).2 < 2 ^ 32 :=
      hsmall [c] text rfl
    have hrest : ∀ q r, text = q ++ r → (q.foldl byteStep (byteStep (l, k) c)).1 < 2 ^ 32 ∧
        (q.foldl byteStep (byteStep (l, k) c)).2 < 2 ^ 32 := by
      intro q r hq
      exact hsmall (c :: q) r (by rw [hq]; rfl)
    have hbehind : ¬(l = ((c :: text).foldl byteStep (l, k)).1 ∧
        k = ((c :: text).foldl byteStep (l, k)).2) := by
      have hpos := byteSize_pos (List.cons_ne_nil c text)
      rcases foldl_byteStep_le (l, k) (c :: text) with h | ⟨-, h⟩ <;> omega
    rw [hbytes, offsetFrom, if_neg hbehind, List.foldl_cons, hsize]
    have hascii' : ∀ d ∈ text, d.toNat < 0x80 := fun d hd => hascii d (List.mem_cons_of_mem _ hd)
    by_cases hlf : c = lf
    · subst hlf
      rw [byteStep_lf] at hnext hrest ⊢
      have hline : ¬l = (text.foldl byteStep (l + 1, 0)).1 := by
        rcases foldl_byteStep_le (l + 1, 0) text with h | ⟨h, -⟩ <;> omega
      rw [if_pos (by decide), if_neg hline, asU32_of_lt hnext.1, ih hascii' hrest, Nat.add_assoc]
    · rw [byteStep_of_ne _ hlf, utf8Size_of_ascii hc] at hnext hrest ⊢
      have hbyte : ¬(asciiByte c == 0x0A) = true := by
        intro h
        exact hlf (eq_of_asciiByte hc (by decide) (eq_of_beq h))
      rw [if_neg hbyte, asU32_of_lt hnext.2, ih hascii' hrest, Nat.add_assoc]

theorem PlainLines.offset (h : PlainLines source) (hsource : source = before ++ after) :
    positionToByteOffset source (byteOffsetToPosition source (byteSize before)) =
      some (byteSize before) := by
  have hsmall : ∀ q r, before = q ++ r →
      (q.foldl byteStep (0, 0)).1 < 2 ^ 32 ∧ (q.foldl byteStep (0, 0)).2 < 2 ^ 32 := by
    intro q r hq
    have hsplit : source = q ++ (r ++ after) := by rw [hsource, hq, List.append_assoc]
    exact h.bytePosition_lt hsplit
  have hascii : ∀ c ∈ before, c.toNat < 0x80 := fun c hc => h.ascii c (by rw [hsource]; simp [hc])
  rw [h.position_eq hsource]
  unfold positionToByteOffset
  have hoffset := offsetFrom_text (i := 0) before (utf8 after) hascii hsmall
  rw [hsource, Library.utf8_append]
  rw [Nat.zero_add] at hoffset
  exact hoffset

/-! ## Tokens relative to each other -/

/-- One position is not behind another. -/
def PositionLe (p q : Position) : Prop :=
  p.line < q.line ∨ p.line = q.line ∧ p.character ≤ q.character

theorem subU32_of_le {a b : Nat} (hle : b ≤ a) (ha : a < 2 ^ 32) : subU32 a b = a - b := by
  unfold subU32
  omega

/-- Tokens in order, encoded and decoded, are where they were. -/
theorem decode_encode (emitted : List EmittedToken)
    (hsmall : ∀ e ∈ emitted, e.position.line < 2 ^ 32 ∧ e.position.character < 2 ^ 32)
    (hordered : (p :: emitted.map EmittedToken.position).Pairwise PositionLe) :
    decodeFrom p (encodeFrom p.line p.character emitted) =
      emitted.map fun e => (e.position, e.length) := by
  induction emitted generalizing p with
  | nil => rfl
  | cons e rest ih =>
    obtain ⟨hbehind, hrest⟩ := List.pairwise_cons.mp hordered
    obtain ⟨hline, hcharacter⟩ := hsmall e List.mem_cons_self
    have hnext := ih (fun e' he' => hsmall e' (List.mem_cons_of_mem _ he')) hrest
    have hturn : (if subU32 e.position.line p.line = 0 then
          (⟨p.line, p.character + (if subU32 e.position.line p.line = 0 then
            subU32 e.position.character p.character else e.position.character)⟩ : Position)
        else ⟨p.line + subU32 e.position.line p.line, if subU32 e.position.line p.line = 0 then
            subU32 e.position.character p.character else e.position.character⟩) = e.position := by
      rcases hbehind e.position List.mem_cons_self with hlt | ⟨heq, hle⟩
      · have hne : ¬subU32 e.position.line p.line = 0 := by
          rw [subU32_of_le hlt.le hline]
          omega
        rw [if_neg hne, if_neg hne, subU32_of_le hlt.le hline, Nat.add_sub_cancel' hlt.le]
      · have hzero : subU32 e.position.line p.line = 0 := by
          rw [heq, subU32_of_le (Nat.le_refl _) hline, Nat.sub_self]
        rw [if_pos hzero, if_pos hzero, subU32_of_le hle hcharacter, Nat.add_sub_cancel' hle, heq]
    unfold encodeFrom decodeFrom
    dsimp only
    rw [hturn, hnext]
    rfl

/-- Positions of a plain source are in the order of their offsets. -/
theorem PlainLines.positionLe (h : PlainLines source) {m n : Nat} (hm : OnBoundary source m)
    (hn : OnBoundary source n) (hle : m ≤ n) :
    PositionLe (byteOffsetToPosition source m)
      (byteOffsetToPosition source n) := by
  obtain ⟨before, after, hsource, rfl⟩ := hm
  obtain ⟨before', after', hsource', rfl⟩ := hn
  obtain ⟨mid, rfl⟩ := before_of_le (hsource.symm.trans hsource') hle
  rw [h.position_eq hsource, h.position_eq hsource']
  unfold bytePosition
  rw [List.foldl_append]
  rcases foldl_byteStep_le (before.foldl byteStep (0, 0)) mid with hlt | ⟨heq, hcol⟩
  · exact Or.inl hlt
  · right
    refine ⟨heq.symm, ?_⟩
    rw [hcol]
    exact Nat.le_add_right _ _

theorem PlainLines.position_lt (h : PlainLines source) {n : Nat} (hn : OnBoundary source n) :
    (byteOffsetToPosition source n).line < 2 ^ 32 ∧
      (byteOffsetToPosition source n).character < 2 ^ 32 := by
  obtain ⟨before, after, hsource, rfl⟩ := hn
  rw [h.position_eq hsource]
  exact h.bytePosition_lt hsource

theorem foldl_byteStep_line (p : Nat × Nat) (hlf : lf ∉ text) :
    (text.foldl byteStep p).2 = p.2 + byteSize text := by
  induction text generalizing p with
  | nil => rfl
  | cons c text ih =>
    have hc : c ≠ lf := by
      rintro rfl
      exact hlf List.mem_cons_self
    rw [List.foldl_cons, byteStep_of_ne p hc, ih _ fun h => hlf (List.mem_cons_of_mem _ h),
      byteSize_cons, Nat.add_assoc]

theorem utf16Length_eq (hascii : ∀ c ∈ text, c.toNat < 0x80) : utf16Length text = byteSize text := by
  induction text with
  | nil => rfl
  | cons c text ih =>
    have hc := hascii c List.mem_cons_self
    have hunit : utf16Size c = 1 := if_pos (by omega)
    unfold utf16Length at ih ⊢
    rw [List.map_cons, List.sum_cons, ih fun d hd => hascii d (List.mem_cons_of_mem _ hd), hunit,
      byteSize_cons, utf8Size_of_ascii hc]

/-- The place of a word on a plain source, as the server computes it. -/
theorem PlainLines.place (h : PlainLines source) {first mid last : List Char} {span : Span}
    (hsource : source = first ++ mid ++ last) (hfirst : byteSize first = span.start)
    (hstop : span.stop = span.start + byteSize mid) (hline : lf ∉ mid) :
    placeOf source span = some (byteOffsetToPosition source span.start,
      asU32 (span.stop - span.start)) := by
  have hsource' : source = first ++ (mid ++ last) := by rw [hsource, List.append_assoc]
  have hlength : byteSize mid < 2 ^ 32 := by
    obtain ⟨-, hcol⟩ := h.bytePosition_lt hsource
    unfold bytePosition at hcol
    rw [List.foldl_append, foldl_byteStep_line _ hline] at hcol
    omega
  have hascii : ∀ c ∈ mid, c.toNat < 0x80 := fun c hc => h.ascii c (by rw [hsource]; simp [hc])
  have hsplit : splitAtByte source span.start = some (first, mid ++ last) := by
    rw [hsource', ← hfirst, splitAtByte_append]
  have hslice : sliceBytes source span.start span.stop = some mid := by
    rw [hstop, ← hfirst, hsource, sliceBytes_append]
  unfold placeOf
  rw [hsplit, hslice]
  show some (protocolPosition first (mid ++ last), utf16Length mid) = _
  rw [← h.position hsource', utf16Length_eq hascii, hfirst, hstop, Nat.add_sub_cancel_left,
    asU32_of_lt hlength]

/-- The tokens that are sent have the places of the tokens that are reported. -/
theorem map_emitted (overrides : Overrides) {tokens : List Token}
    (hplace : ∀ t ∈ tokens, t.kind ≠ .eof →
      placeOf source t.span = some (byteOffsetToPosition source t.span.start,
        asU32 (t.span.stop - t.span.start))) :
    ((tokens.filterMap (emitToken source overrides)).map fun e => some (e.position, e.length)) =
      (tokens.filter fun t => (kindIndex t.kind).isSome).map fun t => placeOf source t.span := by
  induction tokens with
  | nil => rfl
  | cons t tokens ih =>
    have htail := ih fun t' ht' => hplace t' (List.mem_cons_of_mem _ ht')
    cases hkind : kindIndex t.kind with
    | none =>
      have hemit : emitToken source overrides t = none := by
        unfold emitToken
        rw [hkind]
        rfl
      rw [List.filterMap_cons_none hemit, htail, List.filter_cons_of_neg (by simp [hkind])]
    | some typeIndex =>
      have hne : t.kind ≠ .eof := by
        intro h
        rw [h] at hkind
        cases hkind
      obtain ⟨e, hemit, hposition, hlength⟩ : ∃ e, emitToken source overrides t = some e ∧
          e.position = byteOffsetToPosition source t.span.start ∧
          e.length = asU32 (t.span.stop - t.span.start) := by
        unfold emitToken
        rw [hkind]
        exact ⟨_, rfl, rfl, rfl⟩
      rw [List.filterMap_cons_some hemit, List.map_cons, htail,
        List.filter_cons_of_pos (by simp [hkind]), List.map_cons,
        hplace t List.mem_cons_self hne, hposition, hlength]

theorem emitToken_position {overrides : Overrides} {t : Token} {e : EmittedToken}
    (h : emitToken source overrides t = some e) :
    e.position = byteOffsetToPosition source t.span.start := by
  obtain ⟨typeIndex, -, rfl⟩ := Option.map_eq_some_iff.mp h
  rfl

/-- On a plain source the tokens that are sent decode to the places of the tokens. -/
theorem PlainLines.tokens (h : PlainLines source) (overrides : Overrides) {tokens : List Token}
    (hlex : lex source = pure tokens) :
    (decodeFrom ⟨0, 0⟩ (computeSemanticTokens overrides source)).map some =
      (tokens.filter fun t => (kindIndex t.kind).isSome).map fun t => placeOf source t.span := by
  obtain ⟨words, -, rfl, htiling, -, -, -⟩ := lex_tiling hlex
  have hspans := htiling.spansTile
  have hsend : computeSemanticTokens overrides source =
      encodeFrom 0 0 ((words ++ [eofAt source]).filterMap (emitToken source overrides)) := by
    unfold computeSemanticTokens
    rw [hlex]
    rfl
  have hordered : (words ++ [eofAt source]).Pairwise fun a b =>
      PositionLe (byteOffsetToPosition source a.span.start)
        (byteOffsetToPosition source b.span.start) := by
    apply hspans.ordered.imp_of_mem
    intro a b ha hb hab
    exact h.positionLe (hspans.boundaries a ha).1 (hspans.boundaries b hb).1 hab.1.le
  have hdecode := decode_encode (p := ⟨0, 0⟩)
    ((words ++ [eofAt source]).filterMap (emitToken source overrides)) ?_ ?_
  · rw [hsend, hdecode, List.map_map, ← map_emitted overrides ?_]
    · rfl
    intro t ht hkind
    rcases List.mem_append.mp ht with ht | ht
    · obtain ⟨first, mid, last, hsource, hfirst, hstop, hline⟩ :=
        htiling.texts (List.nil_append source).symm byteSize_nil ht
      exact h.place hsource hfirst hstop hline
    · rw [List.mem_singleton.mp ht] at hkind
      exact absurd rfl hkind
  · intro e he
    obtain ⟨t, ht, hemit⟩ := List.mem_filterMap.mp he
    rw [emitToken_position hemit]
    exact h.position_lt (hspans.boundaries t ht).1
  · apply List.pairwise_cons.mpr
    constructor
    · intro q _
      rcases Nat.eq_zero_or_pos q.line with hzero | hpos
      · exact Or.inr ⟨hzero.symm, Nat.zero_le _⟩
      · exact Or.inl hpos
    · apply List.pairwise_map.mpr
      apply hordered.filterMap
      intro a a' haa' e he e' he'
      rw [emitToken_position he, emitToken_position he']
      exact haa'

/-- The server's positions are those of the protocol exactly for plain sources. -/
theorem positionsCorrect_iff (overrides : Overrides) (source : List Char) :
    PositionsCorrect overrides source ↔ PlainLines source := by
  constructor
  · intro h
    exact plainLines_of_position h.position
  · intro h
    exact ⟨fun _ _ hsource => h.position hsource, fun _ _ hsource => h.offset hsource,
      fun _ hlex => h.tokens overrides hlex⟩

/-- Behind `é` the server's column is 2, that of the protocol 1. -/
theorem positions_incorrect : ¬∀ source, PositionsCorrect (fun _ => none) source := by
  intro h
  have hposition := (h "é".toList).position "é".toList [] (List.append_nil _).symm
  exact absurd hposition (by decide)

end Vani.Analysis

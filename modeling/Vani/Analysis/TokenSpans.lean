import Mathlib.Data.List.Chain
import Vani.Analysis.Pieces

/-!
# Spans of tokens

The words of a source and the gaps between them are a tiling of it: `Tiling` reads a text as a
gap, a word, and the tiling of the rest. The pieces of the lexer make one, and merging two
adjacent words into one keeps it. The spans of a tiling are non-empty, in order, and on
boundaries, and the gaps are white space and comments.
-/

set_option autoImplicit false

namespace Vani.Analysis

open Vani.Library Vani.Syntax

variable {source : List Char}

/-! ## What is claimed of spans -/

/-- White space and comments before the rest of a text. -/
inductive Trivia (after : List Char) : List Char → Prop
  | nil : Trivia after []
  | blank {ch : Char} {gap : List Char} (hch : ch ∈ blanks) (h : Trivia after gap) :
      Trivia after (ch :: gap)
  | comment {body gap : List Char} (hbody : Char.ofNat 0x0A ∉ body)
      (hend : gap ++ after = [] ∨ (gap ++ after).head? = some (Char.ofNat 0x0A))
      (h : Trivia after gap) : Trivia after ('/' :: '/' :: (body ++ gap))

/-- Between two offsets there are white space and comments only. -/
def TriviaBetween (source : List Char) (start stop : Nat) : Prop :=
  ∃ before gap after, source = before ++ (gap ++ after) ∧ byteSize before = start ∧
    start + byteSize gap = stop ∧ Trivia after gap

/-- The spans of the tokens tile the source. -/
structure SpansTile (source : List Char) (tokens : List Token) : Prop where
  nonempty : ∀ t ∈ tokens, t.kind ≠ .eof → t.span.start < t.span.stop
  ordered : tokens.Pairwise fun a b => a.span.start < b.span.start ∧ a.span.stop ≤ b.span.start
  boundaries : ∀ t ∈ tokens, OnBoundary source t.span.start ∧ OnBoundary source t.span.stop
  leading : ∀ t ∈ tokens.head?, TriviaBetween source 0 t.span.start
  gaps : tokens.IsChain fun a b => TriviaBetween source a.span.stop b.span.start
  last : ∃ words, tokens = words ++ [⟨.eof, ⟨byteSize source, byteSize source⟩⟩] ∧
    ∀ t ∈ words, t.kind ≠ .eof

/-- A token stands for one token or for several with spaces between them. -/
structure Covers (source : List Char) (token : Token) (group : List Token) : Prop where
  spaces : group.IsChain fun a b => whitespaceOnly source a.span.stop b.span.start = true
  start : ∃ first ∈ group.head?, token.span.start = first.span.start
  stop : ∃ last ∈ group.getLast?, token.span.stop = last.span.stop
  single : ∀ word, group = [word] → token = word

/-- The tokens stand for groups of other tokens, all of them in order. -/
def Regrouped (source : List Char) (raw tokens : List Token) : Prop :=
  ∃ groups : List (List Token), raw = groups.flatten ∧ List.Forall₂ (Covers source) tokens groups

/-! ## Tilings -/

/-- The words of a text that begins at an offset, with the gaps between them. -/
inductive Tiling : Nat → List Char → List Token → Prop
  | nil {pos : Nat} {gap : List Char} (hgap : Trivia [] gap) : Tiling pos gap []
  | cons {pos : Nat} {text : List Char} (token : Token) (gap mid after : List Char)
      {tokens : List Token} (htext : text = gap ++ (mid ++ after))
      (hgap : Trivia (mid ++ after) gap)
      (hkind : token.kind ≠ .eof) (hmid : mid ≠ []) (hline : Char.ofNat 0x0A ∉ mid)
      (hstart : token.span.start = pos + byteSize gap)
      (hstop : token.span.stop = token.span.start + byteSize mid)
      (h : Tiling token.span.stop after tokens) : Tiling pos text (token :: tokens)

namespace Tiling

variable {pos : Nat} {text : List Char} {a b : Token} {tokens : List Token}

/-- A blank goes into the gap behind it. -/
theorem blank {ch : Char} (hch : ch ∈ blanks) (h : Tiling (pos + byteSize [ch]) text tokens) :
    Tiling pos (ch :: text) tokens := by
  cases h with
  | nil hgap => exact Tiling.nil (Trivia.blank hch hgap)
  | cons token gap mid after htext hgap hkind hmid hline hstart hstop h =>
    subst htext
    apply Tiling.cons token (ch :: gap) mid after rfl (Trivia.blank hch hgap) hkind hmid hline _
      hstop h
    rw [hstart, Nat.add_assoc, ← byteSize_append]
    rfl

/-- A comment goes into the gap behind it. -/
theorem comment {body : List Char} (hbody : Char.ofNat 0x0A ∉ body)
    (hend : text = [] ∨ text.head? = some (Char.ofNat 0x0A))
    (h : Tiling (pos + byteSize ('/' :: '/' :: body)) text tokens) :
    Tiling pos ('/' :: '/' :: (body ++ text)) tokens := by
  cases h with
  | nil hgap =>
    apply Tiling.nil
    apply Trivia.comment hbody _ hgap
    rw [List.append_nil]
    exact hend
  | cons token gap mid after htext hgap hkind hmid hline hstart hstop h =>
    subst htext
    apply Tiling.cons token ('/' :: '/' :: (body ++ gap)) mid after _
      (Trivia.comment hbody hend hgap) hkind hmid hline _ hstop h
    · simp
    · rw [hstart, Nat.add_assoc, ← byteSize_append]
      rfl

/-- The pieces that the lexer reads tile the text. -/
theorem of_scanned {pieces : List (Piece × Span)} (h : Scanned pos text pieces) :
    Tiling pos text (pieces.filterMap tokenOf) := by
  induction h with
  | nil => exact Tiling.nil Trivia.nil
  | @cons pos piece mid after pieces hlexeme _ ih =>
    cases hlexeme with
    | blank hch => exact blank hch ih
    | comment hbody hend => exact comment hbody hend ih
    | word hkind hne hplain =>
      refine Tiling.cons _ [] _ _ rfl Trivia.nil hkind hne ?_ rfl rfl ih
      intro hmem
      exact absurd (hplain _ (asciiByte_mem_utf8 (by decide) hmem)) (by decide)
    | slash _ =>
      exact Tiling.cons _ [] _ _ rfl Trivia.nil (by simp) (List.cons_ne_nil _ _) (by decide) rfl rfl
        ih
    | string hbody =>
      refine Tiling.cons _ [] _ _ rfl Trivia.nil (by simp) (List.cons_ne_nil _ _) ?_ rfl rfl ih
      intro hmem
      rcases List.mem_cons.mp hmem with h | hmem
      · exact absurd h (by decide)
      rcases List.mem_append.mp hmem with hmem | hmem
      · exact hbody.newline_not_mem hmem
      · exact absurd (List.mem_singleton.mp hmem) (by decide)

/-- The span of two adjacent words, merged, is from the first to the last. -/
theorem merge_eq (h : Tiling pos text (a :: b :: tokens)) :
    a.span.merge b.span = ⟨a.span.start, b.span.stop⟩ := by
  cases h with
  | cons _ _ _ _ _ _ _ _ _ _ hstop h =>
    cases h with
    | cons _ _ _ _ _ _ _ _ _ hstart' hstop' _ =>
      unfold Span.merge
      rw [Nat.min_eq_left (by omega), Nat.max_eq_right (by omega)]

/-- Two adjacent words with spaces between them, merged, are a word. -/
theorem merge {before : List Char} {kind : TokenKind} (hkind : kind ≠ .eof)
    (hsource : source = before ++ text) (hbefore : byteSize before = pos)
    (hspace : whitespaceOnly source a.span.stop b.span.start = true)
    (h : Tiling pos text (a :: b :: tokens)) :
    Tiling pos text (⟨kind, a.span.merge b.span⟩ :: tokens) := by
  rw [h.merge_eq]
  cases h with
  | cons _ gap mid after htext hgap _ hmid hline hstart hstop h =>
    cases h with
    | cons _ gap' mid' after' htext' hgap' _ hmid' hline' hstart' hstop' h' =>
      subst htext'
      have hslice : sliceBytes source a.span.stop b.span.start = some gap' := by
        have hsplit : source = before ++ gap ++ mid ++ gap' ++ (mid' ++ after') := by
          rw [hsource, htext]
          simp
        have hsize : byteSize (before ++ gap ++ mid) = a.span.stop := by
          rw [byteSize_append, byteSize_append, hbefore, hstop, hstart]
        rw [hsplit, hstart', ← hsize]
        exact sliceBytes_append _ _ _
      have hline'' : Char.ofNat 0x0A ∉ gap' := by
        intro hmem
        unfold whitespaceOnly at hspace
        rw [hslice] at hspace
        exact absurd (List.all_eq_true.mp hspace _ hmem) (by decide)
      apply Tiling.cons ⟨kind, ⟨a.span.start, b.span.stop⟩⟩ gap (mid ++ (gap' ++ mid')) after' _ _
        hkind _ _ hstart _ h'
      · rw [htext]
        simp
      · simpa using hgap
      · simp [hmid]
      · intro hmem
        rcases List.mem_append.mp hmem with hmem | hmem
        · exact hline hmem
        rcases List.mem_append.mp hmem with hmem | hmem
        · exact hline'' hmem
        · exact hline' hmem
      · show b.span.stop = a.span.start + _
        rw [byteSize_append, byteSize_append]
        omega

end Tiling

/-! ## Merging -/

section Merging

variable {keyword : Token → Token → Option TokenKind}

/-- Two words are merged only where spaces are between them, and never to the end. -/
def JoinsWords (source : List Char) (keyword : Token → Token → Option TokenKind) : Prop :=
  ∀ a b kind, keyword a b = some kind →
    kind ≠ .eof ∧ whitespaceOnly source a.span.stop b.span.start = true

/-- Two tokens that stand for groups, merged, stand for both. -/
theorem Covers.merge {a b : Token} {g g' : List Token} (kind : TokenKind)
    (hspace : whitespaceOnly source a.span.stop b.span.start = true) (ha : Covers source a g)
    (hb : Covers source b g') :
    Covers source ⟨kind, ⟨a.span.start, b.span.stop⟩⟩ (g ++ g') := by
  obtain ⟨first, hfirst, hstart⟩ := ha.start
  obtain ⟨last, hlast, hstop⟩ := ha.stop
  obtain ⟨first', hfirst', hstart'⟩ := hb.start
  obtain ⟨last', hlast', hstop'⟩ := hb.stop
  have hne : g ≠ [] := by
    rintro rfl
    cases hfirst
  have hne' : g' ≠ [] := by
    rintro rfl
    cases hfirst'
  refine ⟨?_, ⟨first, ?_, hstart⟩, ⟨last', ?_, hstop'⟩, ?_⟩
  · apply List.isChain_append.mpr
    refine ⟨ha.spaces, hb.spaces, ?_⟩
    intro x hx y hy
    rw [Option.mem_def] at hlast hfirst'
    rw [hlast] at hx
    rw [hfirst'] at hy
    cases hx
    cases hy
    rw [← hstop, ← hstart']
    exact hspace
  · rw [List.head?_append_of_ne_nil _ hne]
    exact hfirst
  · rw [List.getLast?_append_of_ne_nil _ hne']
    exact hlast'
  · intro word hword
    have hlen := congrArg List.length hword
    have hpos := List.length_pos_of_ne_nil hne
    have hpos' := List.length_pos_of_ne_nil hne'
    simp only [List.length_append, List.length_singleton] at hlen
    omega

/-- The merging loop keeps the tiling, and its tokens stand for all tokens it was given. -/
theorem mergeFrom_spec (hkeyword : JoinsWords source keyword) {pos : Nat}
    {before text : List Char} {a : Token} {tokens g : List Token} {groups : List (List Token)}
    (hsource : source = before ++ text) (hbefore : byteSize before = pos)
    (h : Tiling pos text (a :: tokens)) (hg : Covers source a g)
    (hgroups : List.Forall₂ (Covers source) tokens groups) :
    Tiling pos text (mergeFrom keyword a tokens) ∧
      ∃ groups', (g :: groups).flatten = groups'.flatten ∧
        List.Forall₂ (Covers source) (mergeFrom keyword a tokens) groups' := by
  induction tokens generalizing pos before text a g groups with
  | nil =>
    cases hgroups
    exact ⟨h, [g], rfl, List.Forall₂.cons hg List.Forall₂.nil⟩
  | cons b rest ih =>
    cases hgroups with
    | @cons _ g' _ groups hb hrest =>
      unfold mergeFrom
      split
      · rename_i kind hsome
        obtain ⟨hkind, hspace⟩ := hkeyword a b kind hsome
        have hmerged := hg.merge kind hspace hb
        rw [← h.merge_eq] at hmerged
        obtain ⟨htiling, groups', hflat, hcovers⟩ :=
          ih hsource hbefore (h.merge hkind hsource hbefore hspace) hmerged hrest
        refine ⟨htiling, groups', ?_, hcovers⟩
        rw [← hflat, List.flatten_cons, List.flatten_cons, List.flatten_cons, List.append_assoc]
      · cases h with
        | cons _ gap mid after htext hgap hkind hmid hline hstart hstop h =>
          have hsource' : source = before ++ (gap ++ mid) ++ after := by
            rw [hsource, htext]
            simp
          have hbefore' : byteSize (before ++ (gap ++ mid)) = a.span.stop := by
            rw [byteSize_append, byteSize_append, hbefore, hstop, hstart, Nat.add_assoc]
          obtain ⟨htiling, groups', hflat, hcovers⟩ := ih hsource' hbefore' h hb hrest
          refine ⟨Tiling.cons a gap mid after htext hgap hkind hmid hline hstart hstop htiling,
            g :: groups', ?_, List.Forall₂.cons hg hcovers⟩
          rw [List.flatten_cons, hflat, List.flatten_cons]

theorem mergeAdjacent_spec (hkeyword : JoinsWords source keyword) {tokens : List Token}
    {groups : List (List Token)} (h : Tiling 0 source tokens)
    (hgroups : List.Forall₂ (Covers source) tokens groups) :
    Tiling 0 source (mergeAdjacent keyword tokens) ∧
      ∃ groups', groups.flatten = groups'.flatten ∧
        List.Forall₂ (Covers source) (mergeAdjacent keyword tokens) groups' := by
  cases tokens with
  | nil => exact ⟨h, groups, rfl, hgroups⟩
  | cons a rest =>
    cases hgroups with
    | cons hg hrest =>
      exact mergeFrom_spec hkeyword (List.nil_append source).symm byteSize_nil h hg hrest

/-- A token that is merged with none before it stays at the end. -/
theorem mergeFrom_concat {last : Token} (hlast : ∀ a, keyword a last = none) (a : Token)
    (tokens : List Token) :
    mergeFrom keyword a (tokens ++ [last]) = mergeFrom keyword a tokens ++ [last] := by
  induction tokens generalizing a with
  | nil =>
    show mergeFrom keyword a [last] = _
    unfold mergeFrom
    rw [hlast a]
    rfl
  | cons b rest ih =>
    rw [List.cons_append]
    unfold mergeFrom
    split
    · exact ih _
    · rw [ih b]
      rfl

theorem mergeAdjacent_concat {last : Token} (hlast : ∀ a, keyword a last = none)
    (tokens : List Token) :
    mergeAdjacent keyword (tokens ++ [last]) = mergeAdjacent keyword tokens ++ [last] := by
  cases tokens with
  | nil => rfl
  | cons a rest => exact mergeFrom_concat hlast a rest

end Merging

/-- The end of a source. -/
def eofAt (source : List Char) : Token := ⟨.eof, ⟨byteSize source, byteSize source⟩⟩

theorem textOf_eof : Syntax.textOf source (eofAt source).span = some [] := by
  have h := sliceBytes_append source [] []
  rw [List.append_nil, List.append_nil] at h
  exact h

theorem multiWordKeyword_joins : JoinsWords source (multiWordKeyword source) := by
  intro a b kind h
  have htable : ∀ e ∈ multiWordKeywords, e.2 ≠ .eof := by decide
  unfold multiWordKeyword at h
  split at h
  · rename_i hspace
    refine ⟨?_, hspace⟩
    obtain ⟨aText, -, h⟩ := Option.bind_eq_some_iff.mp h
    obtain ⟨bText, -, h⟩ := Option.bind_eq_some_iff.mp h
    split at h
    · obtain ⟨l₁, l₂, hsplit, -⟩ := List.lookup_eq_some_iff.mp h
      apply htable (String.ofList (aText ++ ' ' :: bText), kind)
      rw [hsplit]
      simp
    · cases h
  · cases h

/-- The end has no text, so it is no word of a keyword. -/
theorem multiWordKeyword_eof (a : Token) : multiWordKeyword source a (eofAt source) = none := by
  unfold multiWordKeyword
  split
  · rw [textOf_eof]
    cases Syntax.textOf source a.span with
    | none => rfl
    | some text =>
      show (if _ then _ else _) = _
      rw [if_neg (by simp)]
  · rfl

theorem giveBack_joins : JoinsWords source (giveBack source) := by
  intro a b kind h
  unfold giveBack at h
  split at h
  · split at h
    · rename_i hwords
      cases h
      refine ⟨by simp, ?_⟩
      exact (Bool.and_eq_true_iff.mp (Bool.and_eq_true_iff.mp hwords).1).1
    · cases h
  · cases h

theorem giveBack_eof (a : Token) : giveBack source a (eofAt source) = none := by
  unfold giveBack
  split
  · rename_i heq
    cases heq
  · rfl

/-! ## Spans of a tiling -/

section Spans

variable {before text : List Char} {pos : Nat} {words : List Token}

theorem Tiling.bounds (h : Tiling pos text words) {t : Token} (ht : t ∈ words) :
    pos ≤ t.span.start ∧ t.span.start < t.span.stop ∧ t.span.stop ≤ pos + byteSize text := by
  induction h with
  | nil _ => cases ht
  | @cons pos text token gap mid after _ htext _ _ hmid _ hstart hstop _ ih =>
    have hsize : byteSize gap + byteSize mid + byteSize after = byteSize text := by
      rw [htext, byteSize_append, byteSize_append, Nat.add_assoc]
    have hpos := byteSize_pos hmid
    rcases List.mem_cons.mp ht with rfl | ht
    · omega
    · obtain ⟨hlo, hlt, hhi⟩ := ih ht
      omega

theorem Tiling.pairwise (h : Tiling pos text words) :
    words.Pairwise fun a b => a.span.start < b.span.start ∧ a.span.stop ≤ b.span.start := by
  induction h with
  | nil _ => exact List.Pairwise.nil
  | cons token gap mid after _ _ _ hmid _ _ hstop h ih =>
    refine List.Pairwise.cons ?_ ih
    intro b hb
    obtain ⟨hlo, -, -⟩ := h.bounds hb
    have hpos := byteSize_pos hmid
    omega

/-- The text of a word is on one line. -/
theorem Tiling.texts (h : Tiling pos text words) (hsource : source = before ++ text)
    (hbefore : byteSize before = pos) {t : Token} (ht : t ∈ words) :
    ∃ first mid last, source = first ++ mid ++ last ∧ byteSize first = t.span.start ∧
      t.span.stop = t.span.start + byteSize mid ∧ Char.ofNat 0x0A ∉ mid := by
  induction h generalizing before with
  | nil _ => cases ht
  | cons token gap mid after htext _ _ _ hline hstart hstop _ ih =>
    have hfirst : byteSize (before ++ gap) = token.span.start := by
      rw [byteSize_append, hbefore, hstart]
    have hsplit : source = before ++ gap ++ mid ++ after := by
      rw [hsource, htext]
      simp
    rcases List.mem_cons.mp ht with rfl | ht
    · exact ⟨before ++ gap, mid, after, hsplit, hfirst, hstop, hline⟩
    · apply ih hsplit _ ht
      rw [byteSize_append, hfirst, hstop]

theorem Tiling.boundaries (h : Tiling pos text words) (hsource : source = before ++ text)
    (hbefore : byteSize before = pos) {t : Token} (ht : t ∈ words) :
    OnBoundary source t.span.start ∧ OnBoundary source t.span.stop := by
  obtain ⟨first, mid, last, hsplit, hfirst, hstop, -⟩ := h.texts hsource hbefore ht
  refine ⟨⟨first, mid ++ last, ?_, hfirst⟩, ⟨first ++ mid, last, hsplit, ?_⟩⟩
  · rw [hsplit, List.append_assoc]
  · rw [byteSize_append, hfirst, hstop]

/-- Before the first word, between two words and behind the last there is trivia. -/
theorem Tiling.gaps (h : Tiling pos text words) (hsource : source = before ++ text)
    (hbefore : byteSize before = pos) :
    (∀ t ∈ (words ++ [eofAt source]).head?, TriviaBetween source pos t.span.start) ∧
      (words ++ [eofAt source]).IsChain fun a b =>
        TriviaBetween source a.span.stop b.span.start := by
  induction h generalizing before with
  | @nil pos gap hgap =>
    refine ⟨?_, List.isChain_singleton _⟩
    intro t ht
    cases ht
    refine ⟨before, gap, [], by rw [hsource, List.append_nil], hbefore, ?_, hgap⟩
    show _ = byteSize source
    rw [hsource, byteSize_append, hbefore]
  | cons token gap mid after htext hgap _ _ _ hstart hstop _ ih =>
    have hsecond : byteSize (before ++ (gap ++ mid)) = token.span.stop := by
      rw [byteSize_append, byteSize_append, hbefore, hstop, hstart, Nat.add_assoc]
    have hsplit : source = before ++ (gap ++ mid) ++ after := by
      rw [hsource, htext]
      simp
    obtain ⟨hnext, hchain⟩ := ih hsplit hsecond
    constructor
    · intro t ht
      cases ht
      refine ⟨before, gap, mid ++ after, ?_, hbefore, hstart.symm, hgap⟩
      rw [hsource, htext]
    · exact List.isChain_cons.mpr ⟨hnext, hchain⟩

theorem Tiling.kind_ne_eof (h : Tiling pos text words) {t : Token} (ht : t ∈ words) :
    t.kind ≠ .eof := by
  induction h with
  | nil _ => cases ht
  | cons token _ _ _ _ _ hkind _ _ _ _ _ ih =>
    rcases List.mem_cons.mp ht with rfl | ht
    · exact hkind
    · exact ih ht

/-- The words of a source and its end tile the source. -/
theorem Tiling.spansTile (h : Tiling 0 source words) :
    SpansTile source (words ++ [eofAt source]) := by
  have hgaps := h.gaps (List.nil_append source).symm byteSize_nil
  refine ⟨?_, ?_, ?_, hgaps.1, hgaps.2, words, rfl, fun t ht => h.kind_ne_eof ht⟩
  · intro t ht hkind
    rcases List.mem_append.mp ht with ht | ht
    · exact (h.bounds ht).2.1
    · rw [List.mem_singleton.mp ht] at hkind
      exact absurd rfl hkind
  · apply List.pairwise_append.mpr
    refine ⟨h.pairwise, List.pairwise_singleton _ _, ?_⟩
    intro a ha b hb
    rw [List.mem_singleton.mp hb]
    obtain ⟨-, hlt, hle⟩ := h.bounds ha
    show _ < byteSize source ∧ _ ≤ byteSize source
    omega
  · intro t ht
    rcases List.mem_append.mp ht with ht | ht
    · exact h.boundaries (List.nil_append source).symm byteSize_nil ht
    · rw [List.mem_singleton.mp ht]
      have hend : OnBoundary source (byteSize source) := ⟨source, [], (List.append_nil _).symm, rfl⟩
      exact ⟨hend, hend⟩

end Spans

/-! ## The lexer -/

/-- A token stands for itself. -/
theorem Covers.self (t : Token) : Covers source t [t] where
  spaces := List.isChain_singleton t
  start := ⟨t, rfl, rfl⟩
  stop := ⟨t, rfl, rfl⟩
  single := by
    intro word hword
    exact List.head_eq_of_cons_eq hword

theorem covers_singletons (tokens : List Token) :
    List.Forall₂ (Covers source) tokens (tokens.map fun t => [t]) := by
  induction tokens with
  | nil => exact List.Forall₂.nil
  | cons t tokens ih => exact List.Forall₂.cons (Covers.self t) ih

/-- What the main pass returns is a tiling and the end. -/
theorem lexTokens_tiling {raw : List Token} (h : lexTokens source = pure raw) :
    ∃ words, raw = words ++ [eofAt source] ∧ Tiling 0 source words := by
  obtain ⟨found, hfound, hraw⟩ := lexed_bind_eq_ok h
  cases hraw
  exact ⟨_, rfl, Tiling.of_scanned ((pieces_spec source).ok hfound)⟩

/-- The passes that merge words keep a tiling a tiling. -/
theorem merges_tiling {words : List Token} (h : Tiling 0 source words) :
    ∃ words', mergeGiveBackAsciiAlias source
        (mergeMultiWordDevanagariAliases source (words ++ [eofAt source])) =
          words' ++ [eofAt source] ∧
      Tiling 0 source words' ∧
      Regrouped source (words ++ [eofAt source]) (words' ++ [eofAt source]) := by
  obtain ⟨hmulti, groups, hflat, hcovers⟩ :=
    mergeAdjacent_spec multiWordKeyword_joins h (covers_singletons words)
  obtain ⟨hgive, groups', hflat', hcovers'⟩ := mergeAdjacent_spec giveBack_joins hmulti hcovers
  refine ⟨_, ?_, hgive, groups' ++ [[eofAt source]], ?_, ?_⟩
  · unfold mergeGiveBackAsciiAlias mergeMultiWordDevanagariAliases
    rw [mergeAdjacent_concat multiWordKeyword_eof, mergeAdjacent_concat giveBack_eof]
  · have hwords : (words.map fun t => [t]).flatten = words := by
      rw [← List.flatMap_def, List.flatMap_singleton']
    rw [List.flatten_append, ← hflat', ← hflat, hwords]
    rfl
  · apply List.rel_append hcovers'
    exact List.Forall₂.cons (Covers.self _) List.Forall₂.nil

/-- A range between two boundaries can be sliced. -/
theorem slice_of_boundaries {start stop : Nat} (hstart : OnBoundary source start)
    (hstop : OnBoundary source stop) (hle : start ≤ stop) :
    ∃ text, slice source start stop = pure text := by
  obtain ⟨before, after, rfl, rfl⟩ := hstart
  obtain ⟨before', after', htext, rfl⟩ := hstop
  obtain ⟨mid, rfl⟩ := before_of_le htext hle
  refine ⟨mid, ?_⟩
  unfold slice
  rw [htext, byteSize_append, sliceBytes_append]

/-- The last pass slices the source at the spans of tokens only. -/
theorem languagePurityFrom_settles {tokens : List Token}
    (h : ∀ t ∈ tokens, ∃ text, slice source t.span.start t.span.stop = pure text)
    (english devanagari : Option Span) :
    Settles (languagePurityFrom source english devanagari tokens) fun _ => True := by
  induction tokens generalizing english devanagari with
  | nil => exact settles_pure trivial
  | cons token rest ih =>
    have hrest := ih fun t ht => h t (List.mem_cons_of_mem _ ht)
    obtain ⟨text, htext⟩ := h token List.mem_cons_self
    unfold languagePurityFrom
    split
    · exact hrest _ _
    · rw [htext, lexed_pure_bind]
      split
      · exact settles_error _ _
      · exact hrest _ _
      · exact settles_error _ _
      · exact hrest _ _

/-- The lexer returns on every source, with tokens or with a diagnostic. -/
theorem lex_returns (source : List Char) : Settles (lex source) fun _ => True := by
  have hraw : Settles (lexTokens source) fun raw =>
      ∃ words, raw = words ++ [eofAt source] ∧ Tiling 0 source words := by
    apply (pieces_spec source).bind
    intro found hfound
    exact settles_pure ⟨_, rfl, Tiling.of_scanned hfound⟩
  apply hraw.bind
  rintro raw ⟨words, rfl, htiling⟩
  obtain ⟨words', hwords', htiling', -⟩ := merges_tiling htiling
  have hspans := htiling'.spansTile
  extract_lets merged tokens
  have htokens : tokens = words' ++ [eofAt source] := hwords'
  rw [htokens]
  apply Settles.bind (languagePurityFrom_settles ?_ none none)
  · intro _ _
    exact settles_pure trivial
  · intro t ht
    obtain ⟨hstart, hstop⟩ := hspans.boundaries t ht
    apply slice_of_boundaries hstart hstop
    rcases List.mem_append.mp ht with ht | ht
    · exact (htiling'.bounds ht).2.1.le
    · rw [List.mem_singleton.mp ht]
      exact Nat.le_refl _

/-- What the lexer returns is a tiling and the end. -/
theorem lex_tiling {tokens : List Token} (h : lex source = pure tokens) :
    ∃ words raw, tokens = words ++ [eofAt source] ∧ Tiling 0 source words ∧
      lexTokens source = pure raw ∧ SpansTile source raw ∧ Regrouped source raw tokens := by
  obtain ⟨raw, hraw, hmerged⟩ := lexed_bind_eq_ok h
  obtain ⟨-, -, htokens⟩ := lexed_bind_eq_ok hmerged
  cases htokens
  obtain ⟨words, rfl, htiling⟩ := lexTokens_tiling hraw
  obtain ⟨words', hwords', htiling', hregrouped⟩ := merges_tiling htiling
  rw [hwords']
  exact ⟨words', _, rfl, htiling', hraw, htiling.spansTile, hregrouped⟩

/-- For a source that the lexer accepts, the spans of the tokens tile the source, before the
words that make one keyword are merged and after, and a merged token spans the words it
stands for. -/
theorem lex_spansTile {tokens : List Token} (h : lex source = pure tokens) :
    SpansTile source tokens ∧
      ∃ raw, lexTokens source = pure raw ∧ SpansTile source raw ∧ Regrouped source raw tokens := by
  obtain ⟨words, raw, rfl, htiling, hraw, hspans, hregrouped⟩ := lex_tiling h
  exact ⟨htiling.spansTile, raw, hraw, hspans, hregrouped⟩

/-- `नहीं तो` is one token, the comment behind it is none. -/
theorem lex_spansTile_else :
    SpansTile "नहीं \t तो // x".toList
        [⟨.else_, ⟨0, 21⟩⟩, ⟨.eof, ⟨26, 26⟩⟩] ∧
      ∃ raw, lexTokens "नहीं \t तो // x".toList = pure raw ∧
        SpansTile "नहीं \t तो // x".toList raw ∧
        Regrouped "नहीं \t तो // x".toList raw [⟨.else_, ⟨0, 21⟩⟩, ⟨.eof, ⟨26, 26⟩⟩] :=
  lex_spansTile (by decide)

end Vani.Analysis

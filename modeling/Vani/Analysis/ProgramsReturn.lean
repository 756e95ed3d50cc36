import Vani.Analysis.ParserReturns

/-!
# Statements and declarations are parsed to the end

A statement that fails without having read anything stands where recovery passes a token, so the
loops over statements and declarations end. With that the functions that call one another return
below every bound, by induction on it, and the parser of a file returns from every list of tokens
whose last one is the end.
-/

set_option autoImplicit false
set_option synthInstance.maxSize 4000

namespace Vani.Analysis

open Vani.Library Vani.Program Vani.Syntax

variable {good : Places} {n : Nat} {r : Entries} {s s' : ParserState}

/-! ## A statement that is given back -/

theorem skipped_half {kind kind' : TokenKind} (h : SameOrHalf kind kind') (hkind : Skipped kind) :
    Skipped kind' := by
  rcases h with rfl | ⟨-, rfl⟩
  · exact hkind
  · exact .inl rfl

/-- Going back to a place behind which something has been read. -/
theorem restored (hs : Standing good s) (h : (contract good).Behind s s') :
    (contract good).Behind s { s' with pos := s.pos } ∧
      SameOrHalf (currentKind s) (currentKind { s' with pos := s.pos }) := by
  have hkeeps : Keeps s.tokens s'.tokens := h.after
  have hbound : s.pos < s'.tokens.length := hkeeps.length_eq ▸ hs.bound
  have hle : ParserState.left { s' with pos := s.pos } ≤ s.left := left_le_of_keeps hkeeps rfl
  refine ⟨⟨⟨hbound, h.valid.last, h.valid.tokens, h.valid.errors⟩, hle, hkeeps⟩, ?_⟩
  have hsame := List.forall₂_iff_get.mp hkeeps
  unfold currentKind
  dsimp only
  rw [List.getElem?_eq_getElem hs.bound, List.getElem?_eq_getElem hbound]
  exact hsame.2 s.pos hs.bound hbound

section Statements

variable [Returning good n r]

section GivenBack

variable (hs : Standing good s) (hlt : s.left < n + 1)
include hs hlt

/-- A call that is returned has been read. -/
theorem callAndSemicolon_runs :
    (contract good).Runs (callAndSemicolon r) s (fun o s' => ∀ e, o = some e → s'.left < s.left)
      fun _ => False := by
  unfold callAndSemicolon
  refine (Contract.Reads.runs s hs hlt).attempt.bind (fun _ _ h => h) ?_
  intro x s₁ hbehind hx
  cases x with
  | error e => exact Contract.runs_pure hbehind.valid fun _ h => nomatch h
  | ok e =>
    refine (matchToken_runs rfl hbehind.valid).bind (fun _ _ h => h) ?_
    rintro o s₂ hbehind' (⟨rfl, -, -⟩ | ⟨t, rfl, -, -⟩)
    · exact Contract.runs_pure hbehind'.valid fun _ h => nomatch h
    · exact Contract.runs_pure hbehind'.valid fun _ _ =>
        Nat.lt_of_le_of_lt hbehind'.left hx.1

/-- A call has been read, or the place is the one before. -/
theorem parseCallStmt_runs (hskipped : Skipped (currentKind s)) :
    (contract good).Runs (parseCallStmt r) s (fun _ s' => s'.left < s.left)
      fun s' => s'.left < s.left ∨ Skipped (currentKind s') := by
  obtain ⟨x, s₁, hrun, hbehind, hx⟩ := callAndSemicolon_runs (r := r) hs hlt
  cases x with
  | error e => exact hx.2.elim
  | ok o =>
    cases o with
    | some e =>
      refine ⟨.ok (.let_ "_" none e), s₁, ?_, hbehind, hx e rfl⟩
      unfold parseCallStmt
      rw [Parser.bind_of_ok (rfl : Parser.get s = .done (.ok s, s)), Parser.bind_of_ok hrun]
      rfl
    | none =>
      obtain ⟨hback, hkind⟩ := restored hs hbehind
      have herror : (contract good).Runs (errorHere "expected statement" : Parse Stmt)
          { s₁ with pos := s.pos } (fun _ _ => False) fun s' => s' = { s₁ with pos := s.pos } :=
        errorHere_runs _ hback.valid rfl
      obtain ⟨x, s₂, hrun', hbehind', hx'⟩ := herror
      cases x with
      | ok _ => exact hx'.elim
      | error e =>
        obtain ⟨he, rfl⟩ := hx'
        refine ⟨.error e, _, ?_, hback, he, .inr (skipped_half hkind hskipped)⟩
        unfold parseCallStmt
        rw [Parser.bind_of_ok (rfl : Parser.get s = .done (.ok s, s)), Parser.bind_of_ok hrun]
        exact hrun'

end GivenBack

/-! ## The shapes that are looked for -/

omit [Returning good n r] in
/-- The kinds from a token on begin with its kind. -/
theorem kinds_eq (hs : Standing good s) :
    ∃ rest, (s.tokens.drop s.pos).map Token.kind = currentKind s :: rest := by
  obtain ⟨t, ht, hkind⟩ := hs.exists_token
  have hdrop : s.tokens.drop s.pos = t :: s.tokens.drop (s.pos + 1) :=
    List.drop_eq_getElem?_toList_append.trans (by rw [ht]; rfl)
  rw [hdrop, List.map_cons, hkind]
  exact ⟨_, rfl⟩

section Shapes

variable {kind : TokenKind} {rest : List TokenKind}

theorem isIdent_of_assignment (h : looksLikeAssignment (kind :: rest) = true) :
    kind.isIdent = true := by
  unfold looksLikeAssignment at h
  split at h
  · simp_all [TokenKind.isIdent]
  · cases h

theorem isIdent_of_sovFor (h : looksLikeSovFor (kind :: rest) = true) : kind.isIdent = true := by
  unfold looksLikeSovFor at h
  split at h
  · simp_all [TokenKind.isIdent]
  · cases h

theorem isIdent_of_fieldAssign (h : looksLikeFieldAssign (kind :: rest) = true) :
    kind.isIdent = true := by
  unfold looksLikeFieldAssign at h
  split at h
  · simp_all [TokenKind.isIdent]
  · cases h

theorem isIdent_of_pastIndex {rest' : List TokenKind} (h : pastIndex (kind :: rest) = some rest') :
    kind.isIdent = true := by
  unfold pastIndex at h
  split at h
  · simp_all [TokenKind.isIdent]
  · cases h

theorem isIdent_of_indexAssign (h : looksLikeIndexAssign (kind :: rest) = true) :
    kind.isIdent = true := by
  unfold looksLikeIndexAssign at h
  split at h
  · rename_i hpast
    exact isIdent_of_pastIndex hpast
  · cases h

theorem isIdent_of_indexThenFieldAssign
    (h : looksLikeIndexThenFieldAssign (kind :: rest) = true) : kind.isIdent = true := by
  unfold looksLikeIndexThenFieldAssign at h
  split at h
  · rename_i hpast
    exact isIdent_of_pastIndex hpast
  · cases h

end Shapes

/-! ## Statements -/

omit [Returning good n r] in
/-- Something has been read, or what follows is passed to recover. -/
theorem stmt_of_reads {K : ParserState → Prop} {p : Parse Stmt}
    [h : (contract good).Reads (n + 1) K p] (hs : Standing good s) (hlt : s.left < n + 1)
    (hK : K s) :
    (contract good).Runs p s (fun _ s' => s'.left < s.left)
      fun s' => s'.left < s.left ∨ Skipped (currentKind s') :=
  (h.runs s hs hlt).mono (fun _ _ _ h => h.1) fun _ _ h => .inl (h hK)

theorem parsePlainStmt_runs (hs : Standing good s) (hlt : s.left < n + 1)
    (hskipped : Skipped (currentKind s)) {rest : List TokenKind} :
    (contract good).Runs (parsePlainStmt r (currentKind s :: rest)) s
      (fun _ s' => s'.left < s.left) fun s' => s'.left < s.left ∨ Skipped (currentKind s') := by
  have hend : Inside s := by
    intro h
    rw [h] at hskipped
    rcases hskipped with h | h
    · cases h
    · cases h
  unfold parsePlainStmt
  split
  · exact stmt_of_reads hs hlt hend
  · split
    · rename_i h
      exact stmt_of_reads hs hlt (isIdent_of_assignment h)
    · split
      · rename_i h
        exact stmt_of_reads hs hlt (isIdent_of_indexAssign h)
      · split
        · rename_i h
          exact stmt_of_reads hs hlt (isIdent_of_fieldAssign h)
        · split
          · rename_i h
            exact stmt_of_reads hs hlt
              (isIdent_of_indexThenFieldAssign h)
          · split
            · rename_i h
              refine stmt_of_reads hs hlt ?_
              unfold At
              rw [Option.some_inj.mp h]
              rfl
            · exact parseCallStmt_runs hs hlt hskipped

omit [Returning good n r] in
/-- What follows a look at all tokens ahead. -/
theorem runs_kinds {α : Type} {f : List TokenKind → Parse α} {Q : α → ParserState → Prop}
    {E : ParserState → Prop} (hs : Standing good s)
    (h : ∀ rest, (contract good).Runs (f (currentKind s :: rest)) s Q E) :
    (contract good).Runs (kindsFrom 0 >>= f) s Q E := by
  obtain ⟨rest, hkinds⟩ := kinds_eq hs
  have hrun : kindsFrom 0 s = .done (.ok (currentKind s :: rest), s) := by
    rw [← hkinds]
    rfl
  unfold Contract.Runs
  rw [Parser.bind_of_ok hrun]
  exact h rest

omit [Returning good n r] in
/-- Where no body ends and no keyword stands, recovery passes a token. -/
theorem skipped_of_plain {kind : TokenKind} (hbody : kind.endsBody = false)
    (h : kind ∉ [.let_, .return_, .assert, .prove, .print, .if_, .while_, .for_, .break_,
      .continue_]) : Skipped kind := by
  unfold Skipped TokenKind.startsStmt
  split
  all_goals simp_all [TokenKind.endsBody]

theorem parseStmt_reads : ReadsStmt good (n + 1) (parseStmt r) := by
  intro s hs hlt hbody
  unfold parseStmt
  refine runs_current hs fun t _ _ hkind => ?_
  refine runs_kinds hs fun rest => ?_
  rw [hkind]
  split
  iterate 8 exact stmt_of_reads hs hlt (by simp [At, *])
  · exact (from_bump s hs hlt (by simp [Inside, *])).mono (fun _ _ _ h => h.1) fun _ _ => .inl
  iterate 2 exact stmt_of_reads hs hlt (by simp [At, *])
  iterate 2
    exact (from_bump s hs hlt (by simp [Inside, *])).mono (fun _ _ _ h => h.1) fun _ _ => .inl
  · split
    · rename_i h
      exact stmt_of_reads hs hlt (isIdent_of_sovFor h)
    · refine parsePlainStmt_runs hs hlt (skipped_of_plain hbody ?_)
      simp only [List.mem_cons, List.not_mem_nil, or_false, not_or]
      and_intros
      all_goals assumption

end Statements

/-- Up to a depth of the calls the functions return from states with less left than that. -/
theorem entries_returning (good : Places) (depth : Nat) :
    Returning good depth (entries depth) := by
  induction depth with
  | zero =>
    refine ⟨?_, fun _ => ?_, ?_, ?_, ?_, fun _ _ hlt => ?_, ?_⟩
    all_goals first | exact Contract.accepts_zero | exact absurd hlt (Nat.not_lt_zero _)
  | succ depth ih =>
    unfold entries
    exact ⟨parseType_accepts, fun _ => Contract.Reads.start inferInstance,
      Contract.Reads.start inferInstance, Contract.Reads.start inferInstance,
      Contract.Reads.start inferInstance, parseStmt_reads, Contract.Reads.start inferInstance⟩

/-! ## Items -/

instance : (contract good).Accepts n parseTypeParams := by
  unfold parseTypeParams
  infer_instance

theorem setTypeParams_accepts (g : List String → List String) :
    (contract good).Accepts n (Parser.modify fun s =>
      { s with currentTypeParams := g s.currentTypeParams }) :=
  modify_accepts (fun _ => rfl) (fun _ => rfl) [] (fun _ => (List.append_nil _).symm)
    fun _ h => nomatch h

instance (names : List String) : (contract good).Accepts n (enterTypeParams names) := by
  unfold enterTypeParams
  refine Contract.Accepts.bind inferInstance fun s => ?_
  exact (setTypeParams_accepts (names ++ ·)).bind fun _ => inferInstance

instance (saved : List String) : (contract good).Accepts n (restoreTypeParams saved) :=
  setTypeParams_accepts fun _ => saved

instance {α : Type} [(contract good).Describes α] {member : Parse α} {K : ParserState → Prop}
    [(contract good).Reads (n + 1) K member] (message : String) :
    (contract good).Accepts n (membersUntilBrace member message) := by
  unfold membersUntilBrace
  refine loop_accepts fun members => ?_
  refine Contract.Accepts.bind_turns inferInstance fun _ => ?_
  exact Contract.turns_ite Contract.turns_leave Contract.reads_then.turns

section Items

variable [Returning good n r]

instance : (contract good).Reads (n + 1) (At (· == .struct)) (parseStructDecl r) :=
  reads_keyword rfl

instance : (contract good).Accepts n (parsePayload r) := by
  unfold parsePayload
  infer_instance

instance : (contract good).Reads (n + 1) (At TokenKind.isIdent) (parseVariant r) :=
  Contract.reads_thenPair

instance : (contract good).Reads (n + 1) (At (· == .enum)) (parseEnumDecl r) :=
  reads_keyword rfl

instance : (contract good).Reads (n + 1) (At (· == .fn)) (parseInterfaceMethod r) :=
  reads_keyword rfl

instance : (contract good).Reads (n + 1) (At (· == .interface)) (parseInterfaceDecl r) :=
  reads_keyword rfl

omit [Returning good n r] in
/-- A constant whose value is known is remembered. -/
theorem rememberConst_accepts (name : String) (value : Expr) :
    (contract good).Accepts n (Parser.modify fun s =>
      match exprAsIntLiteral s.constIntValues value with
      | some v => { s with constIntValues := (name, v) :: s.constIntValues }
      | none => s) := by
  refine modify_accepts (fun s => ?_) (fun s => ?_) [] (fun s => ?_) fun _ h => nomatch h
  · split
    · rfl
    · rfl
  · split
    · rfl
    · rfl
  · rw [List.append_nil]
    split
    · rfl
    · rfl

instance : (contract good).Reads (n + 1) (At (· == .const)) (parseConstDecl r) := by
  have hremember := @rememberConst_accepts good n
  exact reads_keyword rfl

instance : (contract good).Reads (n + 1) (At (· == .type)) (parseTypeAlias r) :=
  reads_keyword rfl

/-! ## Functions -/

omit [Returning good n r] in
instance : (contract good).Accepts n parseWhereClauses := by
  unfold parseWhereClauses parseWhereClause
  infer_instance

instance : (contract good).Accepts n (parseContract r) := by
  unfold parseContract
  refine loop_accepts fun c => ?_
  refine matchToken_turns rfl ?_ fun _ => inferInstance
  exact matchToken_turns rfl Contract.turns_leave fun _ => inferInstance

instance (isPure : Bool) : (contract good).Accepts n (parseFunctionRest r isPure) := by
  unfold parseFunctionRest
  infer_instance

instance : (contract good).Reads (n + 1) (At fun kind => kind == .fn || kind == .pureKw)
    (parseFunction r) := by
  refine ⟨fun s hs hlt => ?_⟩
  unfold parseFunction
  refine (matchToken_runs rfl hs).bind (fun _ _ => False.elim) ?_
  rintro o s' hbehind (⟨rfl, rfl, hpure⟩ | ⟨t, rfl, ht, hread⟩)
  · have hfn : (contract good).Reads (n + 1) (At (· == .fn)) (do
        let _ ← expectKeyword "'fn'" (· == .fn)
        parseFunctionRest r (none : Option Token).isSome) := reads_keyword rfl
    refine (hfn.runs s' hs hlt).mono (fun _ _ _ h => h) fun s'' _ hE hkind => hE ?_
    simpa [At, Bool.or_eq_true, not_or] using Or.resolve_right (by simpa [At] using hkind) hpure
  · have hrest : (contract good).Accepts n (do
        let _ ← expectKeyword "'fn'" (· == .fn)
        parseFunctionRest r (some t).isSome) := inferInstance
    refine (hrest.runs s' hbehind.valid
      (Nat.lt_of_lt_of_le hread (Nat.le_of_lt_succ hlt))).mono ?_ ?_
    · intro f s'' hbehind' hf
      exact ⟨Nat.lt_of_le_of_lt hbehind'.left hread, hf⟩
    · intro s'' hbehind' _ _
      exact Nat.lt_of_le_of_lt hbehind'.left hread

omit [Returning good n r] in
instance (t : (contract good).Results Token) : (contract good).Accepts n (boundValue t.1) := by
  unfold boundValue
  split
  · infer_instance
  · infer_instance

omit [Returning good n r] in
instance : (contract good).Accepts n parseBound := by
  unfold parseBound
  infer_instance

instance : (contract good).Reads (n + 1) (At (· == .hash)) (parseAttributedFn r) :=
  reads_keyword rfl

instance : (contract good).Reads (n + 1) (At (· == .externKw)) (parseExternFn r) :=
  reads_keyword rfl

instance : (contract good).Reads (n + 1) (At (· == .implement)) (parseImplDecl r) :=
  reads_keyword rfl

instance : (contract good).Reads (n + 1) (At (· == .methods)) (parseMethodsBlock r) :=
  reads_keyword rfl

end Items

/-! ## Imports -/

instance : (contract good).Describes Syntax.UsePath := ⟨fun use => Located good use.span⟩

instance : (contract good).Describes UseDecl where
  holds
    | .file use => Located good use.span
    | .path use => Located good use.span
    | .pathMulti uses => ∀ use ∈ uses, Located good use.span

instance (module_ item : String) (alias_ : Option String) (isPub : Bool) (span : Span)
    [h : (contract good).Good span] :
    (contract good).Good (⟨module_, item, alias_, isPub, span⟩ : Syntax.UsePath) :=
  ⟨h.holds⟩

instance (path : String) (span : Span) [h : (contract good).Good span] :
    (contract good).Good (UseDecl.file ⟨path, span⟩) :=
  ⟨h.holds⟩

instance (use : Syntax.UsePath) [h : (contract good).Good use] :
    (contract good).Good (UseDecl.path use) :=
  ⟨h.holds⟩

instance (uses : List Syntax.UsePath) [h : (contract good).Good uses] :
    (contract good).Good (UseDecl.pathMulti uses) :=
  ⟨h.holds⟩

instance (first : String) : (contract good).Accepts n (parseUseModule first) := by
  unfold parseUseModule
  refine loop_accepts fun path => ?_
  refine Contract.Accepts.bind_turns inferInstance fun _ => ?_
  refine Contract.Accepts.bind_turns inferInstance fun _ => ?_
  exact Contract.turns_ite Contract.turns_leave Contract.reads_thenPair.turns

instance : (contract good).Accepts n parseAlias := by
  unfold parseAlias
  infer_instance

instance : (contract good).Accepts n parseUseItem := by
  unfold parseUseItem
  infer_instance

instance (isPub : Bool) (start : Span) [(contract good).Good start] (module_ : String) :
    (contract good).Accepts n (parseUseItems isPub start module_) := by
  unfold parseUseItems
  infer_instance

instance (isPub : Bool) (start : Span) [(contract good).Good start] :
    (contract good).Accepts n (parseUsePath isPub start) := by
  unfold parseUsePath
  infer_instance

instance (isPub : Bool) : (contract good).Reads (n + 1) (At (· == .use)) (parseUse isPub) :=
  reads_keyword rfl

instance : (contract good).Reads (n + 1) (At (· == .intent)) parseIntent :=
  reads_keyword rfl

/-! ## Recovery -/

section Recovery

variable {α β : Type} [(contract good).Describes α] [(contract good).Describes β]
  {p : Parse α} {sync : Parse Unit} {keep : α → β} {before : β} {K : ParserState → Prop}
  {E : ParserState → Prop}

theorem syncPastBrace_runs (hs : Standing good s) :
    (contract good).Runs syncPastBrace s (fun _ _ => True) E := by
  unfold syncPastBrace
  refine (loop_runs (fun depth s hs _ => ?_) hs (Nat.lt_succ_self _)).mono
    (fun _ _ _ _ => trivial) fun _ _ h => h
  refine runs_current hs fun t _ _ hkind => ?_
  rw [hkind]
  split
  · exact Contract.runs_pure hs ⟨fun _ h => (nomatch h), inferInstance⟩
  · exact Contract.runs_pure hs ⟨fun _ h => (nomatch h), inferInstance⟩
  · refine runs_bump hs (by simp [*]) fun _ s' _ _ hs' hread => ?_
    exact Contract.runs_pure hs' ⟨fun _ _ => hread, inferInstance⟩
  · refine runs_bump hs (by simp [*]) fun _ s' _ _ hs' hread => ?_
    exact Contract.runs_pure hs' ⟨fun _ _ => hread, inferInstance⟩
  · refine runs_bump hs ?_ fun _ s' _ _ hs' hread => ?_
    · assumption
    · exact Contract.runs_pure hs' ⟨fun _ _ => hread, inferInstance⟩

theorem syncToTopLevel_runs (hs : Standing good s) :
    (contract good).Runs syncToTopLevel s (fun _ _ => True) E :=
  (skipWhile_runs rfl hs).mono (fun _ _ _ _ => trivial) fun _ _ => False.elim

/-- Behind a declaration or behind an error in it. -/
theorem recover_runs [hp : (contract good).Reads n K p]
    (hsync : ∀ s, Standing good s → (contract good).Runs sync s (fun _ _ => True) E)
    (hkeep : ∀ x : (contract good).Results α, (contract good).Good (keep x.1))
    (hbefore : (contract good).Good before) (hs : Standing good s) (hlt : s.left < n) :
    (contract good).Runs (recover sync p keep before) s
      (fun b s' => (K s → s'.left < s.left) ∧ (contract good).Good b) E := by
  unfold recover
  refine (hp.runs s hs hlt).attempt.bind (fun _ _ => False.elim) fun x s₁ hbehind hx => ?_
  cases x with
  | ok x => exact Contract.runs_pure hbehind.valid ⟨fun _ => hx.1, hkeep ⟨x, hx.2⟩⟩
  | error e =>
    refine (pushError_runs (E := fun _ => False) hbehind.valid hx.1).bind (fun _ _ => False.elim) ?_
    rintro _ s₂ hbehind₂ rfl
    refine (hsync _ hbehind₂.valid).bind (fun _ _ h => h) fun _ s₃ hbehind₃ _ => ?_
    have hread : K s → s₁.left < s.left := hx.2
    exact Contract.runs_pure hbehind₃.valid
      ⟨fun hK => Nat.lt_of_le_of_lt hbehind₃.left (hread hK), hbefore⟩

end Recovery

/-! ## Modules -/

/-- The imports of a module stand somewhere. -/
instance : (contract good).Describes ModuleBody :=
  ⟨fun b => ∀ use ∈ b.usePaths, Located good use.span⟩

instance : (contract good).Good (⟨Items.empty, [], []⟩ : ModuleBody) := ⟨fun _ h => nomatch h⟩

/-- The other parts of a module are not asked about. -/
theorem good_usePaths {b b' : ModuleBody} (hb : (contract good).Good b)
    (h : b'.usePaths = b.usePaths) : (contract good).Good b' := by
  refine ⟨fun use huse => ?_⟩
  rw [h] at huse
  exact hb.holds use huse

theorem parseModuleUse_runs {b : ModuleBody} [hb : (contract good).Good b] (hs : Standing good s)
    (hkind : currentKind s = .use ∨ currentKind s = .pub) :
    (contract good).Runs (parseModuleUse b) s
      (fun b' s' => s'.left < s.left ∧ (contract good).Good b')
      fun _ => True := by
  unfold parseModuleUse
  refine (matchToken_runs rfl hs).bind (fun _ _ => False.elim) fun isPub s₁ hbehind hpub => ?_
  have hle : s₁.left ≤ s.left := hbehind.left
  have huse : s₁.left < s.left ∨ At (· == .use) s₁ := by
    rcases hpub with ⟨-, rfl, hnot⟩ | ⟨t, -, -, hread⟩
    · right
      rcases hkind with h | h
      · simp [At, h]
      · exact absurd (by simp [At, h]) hnot
    · exact .inl hread
  refine (Contract.Reads.runs s₁ hbehind.valid (Nat.lt_succ_self _)).attempt.bind
    (fun _ _ => False.elim) fun x s₂ hbehind₂ hx => ?_
  have hle₂ : s₂.left ≤ s₁.left := hbehind₂.left
  have hread : s₂.left < s.left := by
    rcases huse with hread | huse
    · omega
    · cases x with
      | ok x => exact Nat.lt_of_lt_of_le hx.1 hle
      | error e => exact Nat.lt_of_lt_of_le (hx.2 huse) hle
  cases x with
  | ok x =>
    have hgood := hx.2.holds
    cases x with
    | file use =>
      refine (pushError_runs hbehind₂.valid hgood).bind (fun _ _ h => h) fun _ s₃ hbehind₃ _ => ?_
      exact Contract.runs_pure hbehind₃.valid ⟨Nat.lt_of_le_of_lt hbehind₃.left hread, hb⟩
    | path use =>
      refine Contract.runs_pure hbehind₂.valid ⟨hread, ⟨fun use' huse => ?_⟩⟩
      rcases List.mem_append.mp huse with huse | huse
      · exact hb.holds use' huse
      · exact List.mem_singleton.mp huse ▸ hgood
    | pathMulti uses =>
      refine Contract.runs_pure hbehind₂.valid ⟨hread, ⟨fun use huse => ?_⟩⟩
      exact (List.mem_append.mp huse).elim (hb.holds use) (hgood use)
  | error e =>
    refine (pushError_runs hbehind₂.valid hx.1).bind (fun _ _ h => h) fun _ s₃ hbehind₃ _ => ?_
    refine (syncPastBrace_runs hbehind₃.valid).bind (fun _ _ h => h) fun _ s₄ hbehind₄ _ => ?_
    refine Contract.runs_pure hbehind₄.valid ⟨?_, hb⟩
    exact Nat.lt_of_le_of_lt (hbehind₃.trans hbehind₄).left hread

instance : (contract good).Accepts n parseQualifier := by
  unfold parseQualifier
  have hskip : (contract good).Accepts n (skipWhile fun kind =>
      !(kind == .rParen || kind == .rBrace || kind == .eof)) := skipWhile_accepts rfl
  refine Contract.Accepts.bind inferInstance fun kinds => ?_
  split
  · infer_instance
  · infer_instance

theorem parseVisibility_runs (hs : Standing good s) :
    (contract good).Runs parseVisibility s (fun _ s' => s' = s ∨ s'.left < s.left)
      fun _ => True := by
  unfold parseVisibility
  refine (matchToken_runs rfl hs).bind (fun _ _ => False.elim) ?_
  rintro o s₁ hbehind (⟨rfl, rfl, -⟩ | ⟨t, rfl, -, hread⟩)
  · exact Contract.runs_pure hs (.inl rfl)
  · refine (Contract.Accepts.runs s₁ hbehind.valid (Nat.lt_succ_self _)).mono ?_ fun _ _ h => h
    intro _ s₂ hbehind₂ _
    exact .inr (Nat.lt_of_le_of_lt hbehind₂.left hread)

section Modules

variable [Returning good n r] {nested : Parse Syntax.ModuleDecl}
  [(contract good).Reads n (At (· == .module_)) nested]

theorem parseModuleItem_runs (visibility : Bool × Bool) {b : ModuleBody}
    (hb : (contract good).Good b) (hs : Standing good s) (hlt : s.left < n) :
    (contract good).Runs (parseModuleItem r nested visibility b) s
      (fun b' s' => ((currentKind s).endsBody = false → s'.left < s.left) ∧
        (contract good).Good b') fun _ => True := by
  unfold parseModuleItem
  refine runs_current hs fun t _ ht hkind => ?_
  rw [hkind]
  have hitem : ∀ {α : Type} [(contract good).Describes α] {p : Parse α} {keep : α → ModuleBody}
      {K : ParserState → Prop} {m : Nat} [(contract good).Reads m K p], s.left < m → K s →
      (∀ x, (keep x).usePaths = b.usePaths) →
      (contract good).Runs (recover syncPastBrace p keep b) s
        (fun b' s' => ((currentKind s).endsBody = false → s'.left < s.left) ∧
          (contract good).Good b') fun _ => True := by
    intro α _ p keep K m _ hlt hK hkeep
    refine (recover_runs (fun _ hs => syncPastBrace_runs hs)
      (fun x => good_usePaths hb (hkeep x.1)) hb hs hlt).mono ?_ fun _ _ h => h
    exact fun _ _ _ h => ⟨fun _ => h.1 hK, h.2⟩
  have hlt' : s.left < n + 1 := Nat.lt_succ_of_lt hlt
  dsimp only
  split
  · exact hitem hlt (by simp [At, *]) fun _ => rfl
  iterate 9 exact hitem hlt' (by simp [At, *]) fun _ => rfl
  · refine (pushError_runs hs ht.located).bind (fun _ _ h => h) ?_
    rintro _ s₁ hbehind rfl
    split
    · rename_i hbrace
      refine Contract.runs_pure hbehind.valid ⟨fun hbody => ?_, hb⟩
      rw [eq_of_beq hbrace] at hbody
      cases hbody
    · by_cases hend : currentKind s = .eof
      · have hbump : (contract good).Accepts n (do let _ ← bump; pure b) := inferInstance
        refine (hbump.runs _ hbehind.valid hlt).mono (fun b' _ _ h => ⟨fun hbody => ?_, h⟩)
          fun _ _ h => h
        rw [hend] at hbody
        cases hbody
      · refine runs_bump hbehind.valid hend fun _ s₂ _ _ hs₂ hread => ?_
        exact Contract.runs_pure hs₂ ⟨fun _ => hread, hb⟩

theorem parseModulePart_runs {b : ModuleBody} (hb : (contract good).Good b) (hs : Standing good s)
    (hlt : s.left < n) (hbody : (currentKind s).endsBody = false) :
    (contract good).Runs (parseModulePart r nested b) s
      (fun b' s' => s'.left < s.left ∧ (contract good).Good b')
      fun _ => True := by
  unfold parseModulePart
  refine runs_current hs fun t _ ht hkind => ?_
  refine runs_peek ⟨_, rfl⟩ fun usesNext => ?_
  rw [hkind]
  split
  · rename_i huse
    refine parseModuleUse_runs hs ?_
    simp only [Bool.or_eq_true, Bool.and_eq_true, beq_iff_eq] at huse
    rcases huse with huse | huse
    · exact .inl huse
    · exact .inr huse.1
  · refine (parseVisibility_runs hs).bind (fun _ _ h => h) fun visibility s₁ hbehind hvisible => ?_
    refine (parseModuleItem_runs visibility hb hbehind.valid
      (Nat.lt_of_le_of_lt hbehind.left hlt)).mono ?_ fun _ _ h => h
    intro b' s₂ hbehind₂ hitem
    refine ⟨?_, hitem.2⟩
    rcases hvisible with rfl | hread
    · exact hitem.1 hbody
    · exact Nat.lt_of_le_of_lt hbehind₂.left hread

end Modules

theorem rejectGlobs_accepts {usePaths : List Syntax.UsePath}
    (h : ∀ use ∈ usePaths, Located good use.span) :
    (contract good).Accepts n (rejectGlobs usePaths) := by
  unfold rejectGlobs
  refine modify_accepts (fun _ => rfl) (fun _ => rfl) _ (fun _ => rfl) ?_
  intro e he
  obtain ⟨use, huse, rfl⟩ := List.mem_map.mp he
  exact h use (List.mem_filter.mp huse).1

theorem Returning.mono {m : Nat} (hr : Returning good n r) (h : m ≤ n) : Returning good m r where
  parseType := hr.parseType.lower h
  parseBinaryExpr k := (hr.parseBinaryExpr k).lower h
  parseUnaryExpr := hr.parseUnaryExpr.lower h
  parseCallExpr := hr.parseCallExpr.lower h
  parsePrimaryExpr := hr.parsePrimaryExpr.lower h
  parseStmt s hs hlt := hr.parseStmt s hs (Nat.lt_of_lt_of_le hlt h)
  parseIfStmt := hr.parseIfStmt.lower h

/-- Modules nested up to the bound are read; a nested one begins behind a token. -/
theorem parseModuleDecl_reads (hr : Returning good n r) {depth : Nat} (hdepth : depth ≤ n) :
    (contract good).Reads depth (At (· == .module_)) (parseModuleDecl r depth) := by
  induction depth with
  | zero => exact Contract.reads_zero
  | succ depth ih =>
    unfold parseModuleDecl
    have hbelow : Returning good depth r := hr.mono (Nat.le_of_succ_le hdepth)
    have hnested := ih (Nat.le_of_succ_le hdepth)
    refine (expectKeyword_reads rfl _).bind fun _ => ?_
    refine Contract.Accepts.bind inferInstance fun name => ?_
    refine Contract.Accepts.bind inferInstance fun _ => ?_
    refine Contract.Accepts.bind (loop_accepts fun b s hs hlt => ?_) fun body => ?_
    · refine runs_check hs ?_
      cases hend : (currentKind s).endsBody with
      | true => exact Contract.turns_leave s hs hlt
      | false =>
        refine (parseModulePart_runs b.2 hs hlt hend).bind
          (fun _ _ h => h) fun b' s' hbehind hb' => ?_
        exact Contract.runs_pure hbehind.valid ⟨fun _ _ => hb'.1, ⟨hb'.2.holds⟩⟩
    · have hglobs : (contract good).Accepts depth (rejectGlobs body.1.usePaths) :=
        rejectGlobs_accepts body.2.holds
      infer_instance

/-! ## Files -/

theorem parseTopLevel_runs [Returning good n r] {nested : Parse Syntax.ModuleDecl}
    [(contract good).Reads n (At (· == .module_)) nested] (p : ProgramDecl)
    (hs : Standing good s) (hlt : s.left < n) (hkind : Inside s) :
    (contract good).Runs (parseTopLevel r nested p) s (fun _ s' => s'.left < s.left)
      fun _ => False := by
  unfold parseTopLevel
  refine runs_current hs fun t _ ht htkind => ?_
  refine runs_peek ⟨_, rfl⟩ fun externNext => ?_
  rw [htkind]
  have hitem : ∀ {α : Type} [(contract good).Describes α] {q : Parse α} {keep : α → ProgramDecl}
      {K : ParserState → Prop} {m : Nat} [(contract good).Reads m K q], s.left < m → K s →
      (contract good).Runs (recover syncToTopLevel q keep p) s (fun _ s' => s'.left < s.left)
        fun _ => False := by
    intro α _ q keep K m _ hlt hK
    refine (recover_runs (fun _ hs => syncToTopLevel_runs hs) (fun _ => inferInstance)
      inferInstance hs hlt).mono ?_ fun _ _ h => h
    exact fun _ _ _ h => h.1 hK
  have hlt' : s.left < n + 1 := Nat.lt_succ_of_lt hlt
  dsimp only
  split
  · exact hitem hlt (by simp [At, *])
  iterate 10 exact hitem hlt' (by simp [At, *])
  · split
    · refine runs_bump hs hkind fun _ s₁ _ _ hs₁ hread => ?_
      refine (recover_runs (fun _ hs => syncToTopLevel_runs hs) (fun _ => inferInstance)
        inferInstance hs₁ (Nat.lt_trans hread hlt')).mono ?_ fun _ _ h => h
      exact fun _ _ hbehind _ => Nat.lt_of_le_of_lt hbehind.left hread
    · exact hitem hlt' (by simp [At, *])
  iterate 2 exact hitem hlt' (by simp [At, *])
  · refine (pushError_runs hs ht.located).bind (fun _ _ h => h) ?_
    rintro _ s₁ hbehind rfl
    refine runs_bump hbehind.valid hkind fun _ s₂ _ _ hs₂ hread => ?_
    refine (syncToTopLevel_runs hs₂).bind (fun _ _ h => h) fun _ s₃ hbehind₃ _ => ?_
    exact Contract.runs_pure hbehind₃.valid (Nat.lt_of_le_of_lt hbehind₃.left hread)

theorem parseProgram_runs (hr : Returning good n r) {depth : Nat} (hdepth : depth ≤ n)
    (hs : Standing good s) (hlt : s.left < depth) :
    (contract good).Runs (parseProgram r depth) s (fun _ _ => True) fun _ => False := by
  unfold parseProgram
  have hbelow : Returning good depth r := hr.mono hdepth
  refine (loop_runs (n := depth) (fun p s hs hlt => ?_) hs hlt).mono
    (fun _ _ _ _ => trivial) fun _ _ h => h
  refine runs_check hs ?_
  cases hend : (currentKind s == .eof) with
  | true => exact Contract.runs_pure hs ⟨fun _ h => (nomatch h), inferInstance⟩
  | false =>
    have hnested := parseModuleDecl_reads hr hdepth
    refine (parseTopLevel_runs p.1 hs hlt (ne_of_beq_false hend)).bind (fun _ _ h => h)
      fun p' s' hbehind hread => ?_
    exact Contract.runs_pure hbehind.valid ⟨fun _ _ => hread, inferInstance⟩

/-- The parser returns from the start of a file, with errors that stand somewhere. -/
theorem parse_runs (good : Places) {tokens : List Token}
    (hlast : tokens.getLast?.map Token.kind = some .eof) (htokens : ∀ t ∈ tokens, TokenAt good t) :
    ∃ program errors, parse tokens = .done (program, errors) ∧
      ∀ e ∈ errors, Located good e.span := by
  have hne : tokens ≠ [] := by
    rintro rfl
    cases hlast
  have hs : Standing good (ParserState.new tokens) :=
    ⟨List.length_pos_iff.mpr hne, hlast, htokens, fun _ h => nomatch h⟩
  have hr := entries_returning good ((ParserState.new tokens).left + 1)
  obtain ⟨x, s', hrun, hbehind, hx⟩ :=
    parseProgram_runs hr (Nat.le_refl _) hs (Nat.lt_succ_self _)
  cases x with
  | error e => exact hx.2.elim
  | ok program =>
    refine ⟨program, s'.errors, ?_, hbehind.valid.errors⟩
    unfold parse
    dsimp only
    rw [hrun]

/-- From every list of tokens whose last one is the end the parser returns a program and its
errors. The places of the errors are those of tokens, parts of `>>` and what lies between them. -/
theorem parse_returns {tokens : List Token}
    (hlast : tokens.getLast?.map Token.kind = some .eof) :
    ∃ program errors, parse tokens = .done (program, errors) ∧
      ∀ good : Span → Prop, (∀ a b, good a → good b → good (a.merge b)) →
        (∀ t ∈ tokens, good t.span) →
        (∀ t ∈ tokens, t.kind = .greaterGreater → good ⟨t.span.start + 1, t.span.stop⟩) →
        ∀ e ∈ errors, good e.span := by
  obtain ⟨program, errors, hparse, -⟩ := parse_runs ⟨fun _ => True, fun _ _ => trivial⟩
    hlast fun t _ => ⟨trivial, fun _ => trivial⟩
  refine ⟨program, errors, hparse, fun good hmerge hspans hhalves e he => ?_⟩
  obtain ⟨program', errors', hparse', herrors⟩ := parse_runs ⟨good, hmerge _ _⟩ hlast
    fun t ht => ⟨hspans t ht, hhalves t ht⟩
  rw [hparse] at hparse'
  cases hparse'
  exact herrors e he

/-- `let x = ;` outside of a function is an error at the `let`. -/
theorem parse_returns_stray_let :
    ∃ program errors, parse [⟨.let_, ⟨0, 3⟩⟩, ⟨.eof, ⟨3, 3⟩⟩] = .done (program, errors) ∧
      ∀ good : Span → Prop, (∀ a b, good a → good b → good (a.merge b)) →
        (∀ t ∈ [(⟨.let_, ⟨0, 3⟩⟩ : Token), ⟨.eof, ⟨3, 3⟩⟩], good t.span) →
        (∀ t ∈ [(⟨.let_, ⟨0, 3⟩⟩ : Token), ⟨.eof, ⟨3, 3⟩⟩], t.kind = .greaterGreater →
          good ⟨t.span.start + 1, t.span.stop⟩) →
        ∀ e ∈ errors, good e.span :=
  parse_returns rfl

end Vani.Analysis

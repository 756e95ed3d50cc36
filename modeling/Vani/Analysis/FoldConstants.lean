import Vani.Analysis.DeadCode
import Vani.Analysis.FixedWidth
import Vani.Model.SsaMachine

/-!
# What constant folding finds

In SSA form a value has one definition, so what the pass knows about a value at any place is
the constant that this definition folds to. Folding is done in 128 bits: it gives what the
machine computes at the type of the instruction where the type has the operands and the
exact result.
-/

set_option autoImplicit false

namespace Vani.Analysis

open Vani.Library Vani.Program.Ssa Vani.Model.Ssa
open Vani.Program (Ty IntTy BinaryOp exactInteger)
open Vani.Backend (cType)

/-! ## SSA form -/

/-- Every value defined in a function, as often as it is defined. -/
def definitions (blocks : List BasicBlock) : List ValueId :=
  blocks.flatMap fun b => b.params.map Prod.fst ++ b.instructions.map Instruction.result

/-- Each value is defined once, and before every use. -/
structure InSsaForm (f : Function) : Prop where
  ids : ∀ (n : Nat) (b : BasicBlock), f.blocks[n]? = some b → b.id = n
  once : (definitions f.blocks).Nodup
  operands : ∀ b ∈ f.blocks, ∀ pre i post, b.instructions = pre ++ i :: post →
    ∀ v, .value v ∈ i.kind.operands → Available (next f.blocks) (fun _ => True) f b pre v
  terminators : ∀ b ∈ f.blocks, ∀ v, .value v ∈ b.terminator.operands →
    Available (next f.blocks) (fun _ => True) f b b.instructions v

/-! ## The pass, instruction by instruction -/

/-- An instruction with the known constants in place of its operands. -/
def substituted (env : ConstEnv) (i : Instruction) : InstrKind :=
  i.kind.mapOperands (substOp env)

/-- What the pass makes of an instruction. -/
def rewritten (env : ConstEnv) (i : Instruction) : Instruction :=
  match tryFold (substituted env i) with
  | some c => { i with kind := .const c }
  | none => { i with kind := substituted env i }

/-- What the pass knows after an instruction. -/
def learn (env : ConstEnv) (i : Instruction) : ConstEnv :=
  match tryFold (substituted env i) with
  | some c => Function.update env i.result (some c)
  | none => env

/-- What the pass knows after some instructions. -/
def learnAll (env : ConstEnv) (is : List Instruction) : ConstEnv := is.foldl learn env

/-- The instructions of some blocks in order. -/
def code (blocks : List BasicBlock) : List Instruction := blocks.flatMap BasicBlock.instructions

/-- What the pass knows before an instruction. -/
def knownAt (f : Function) (block done : Nat) : ConstEnv :=
  learnAll (learnAll (fun _ => none) (code (f.blocks.take block)))
    (((f.blocks[block]?).elim [] BasicBlock.instructions).take done)

/-- The constants that the pass finds in a function. -/
def constants (f : Function) : ConstEnv := learnAll (fun _ => none) (code f.blocks)

theorem foldInstr_fst (s : FoldState) (i : Instruction) :
    (foldInstr s i).1 = rewritten s.env i := by
  unfold foldInstr rewritten substituted
  dsimp only
  cases tryFold (i.kind.mapOperands (substOp s.env)) <;> rfl

theorem foldInstr_env (s : FoldState) (i : Instruction) :
    (foldInstr s i).2.env = learn s.env i := by
  unfold foldInstr learn substituted
  dsimp only
  cases tryFold (i.kind.mapOperands (substOp s.env)) <;> rfl

section RewriteAll

variable {α σ : Type} {step : σ → α → α × σ}

theorem rewriteAll_snd (s : σ) (l : List α) :
    (rewriteAll step s l).2 = l.foldl (fun s a => (step s a).2) s := by
  induction l generalizing s with
  | nil => rfl
  | cons a l ih => exact ih (step s a).2

theorem getElem?_rewriteAll (s : σ) (l : List α) (n : Nat) :
    (rewriteAll step s l).1[n]? =
      l[n]?.map fun a => (step ((l.take n).foldl (fun s a => (step s a).2) s) a).1 := by
  induction l generalizing s n with
  | nil => simp [rewriteAll]
  | cons a l ih =>
    cases n with
    | zero => rfl
    | succ n => exact ih (step s a).2 n

end RewriteAll

theorem learnAll_append (env : ConstEnv) (is js : List Instruction) :
    learnAll env (is ++ js) = learnAll (learnAll env is) js := List.foldl_append

theorem foldInstrs_env (s : FoldState) (is : List Instruction) :
    (is.foldl (fun s i => (foldInstr s i).2) s).env = learnAll s.env is := by
  induction is generalizing s with
  | nil => rfl
  | cons i is ih => exact (ih _).trans (congrArg (learnAll · is) (foldInstr_env s i))

/-- What the pass makes of a block. -/
def rewrittenBlock (env : ConstEnv) (b : BasicBlock) : BasicBlock :=
  { b with
    instructions := b.instructions.mapIdx fun k i =>
      rewritten (learnAll env (b.instructions.take k)) i
    terminator := b.terminator.mapOperands (substOp (learnAll env b.instructions)) }

theorem foldBlock_env (s : FoldState) (b : BasicBlock) :
    (foldBlock s b).2.env = learnAll s.env b.instructions := by
  have hsnd : (rewriteAll foldInstr s b.instructions).2 =
      b.instructions.foldl (fun s i => (foldInstr s i).2) s := rewriteAll_snd s b.instructions
  exact (congrArg FoldState.env hsnd).trans (foldInstrs_env s b.instructions)

theorem foldBlock_fst (s : FoldState) (b : BasicBlock) :
    (foldBlock s b).1 = rewrittenBlock s.env b := by
  have hinstrs : (rewriteAll foldInstr s b.instructions).1 =
      b.instructions.mapIdx fun k i => rewritten (learnAll s.env (b.instructions.take k)) i := by
    refine List.ext_getElem? fun k => ?_
    rw [getElem?_rewriteAll, List.getElem?_mapIdx]
    simp only [foldInstr_fst, foldInstrs_env]
  have henv : (rewriteAll foldInstr s b.instructions).2.env = learnAll s.env b.instructions := by
    rw [rewriteAll_snd, foldInstrs_env]
  unfold foldBlock rewrittenBlock
  dsimp only
  rw [hinstrs, henv]

theorem foldBlocks_env (s : FoldState) (bs : List BasicBlock) :
    (bs.foldl (fun s b => (foldBlock s b).2) s).env = learnAll s.env (code bs) := by
  induction bs generalizing s with
  | nil => rfl
  | cons b bs ih =>
    have hcode : code (b :: bs) = b.instructions ++ code bs := rfl
    rw [hcode, learnAll_append, ← foldBlock_env]
    exact ih _

/-- The blocks of the folded function. -/
theorem getElem?_folded (f : Function) (n : Nat) :
    (foldConstantsInFunction f).1.blocks[n]? =
      f.blocks[n]?.map
        (rewrittenBlock (learnAll (fun _ => none) (code (f.blocks.take n)))) := by
  have hblocks : (foldConstantsInFunction f).1.blocks =
      (rewriteAll foldBlock ⟨fun _ => none, 0⟩ f.blocks).1 := rfl
  rw [hblocks, getElem?_rewriteAll]
  simp only [foldBlock_fst, foldBlocks_env]

/-! ## What the pass knows is the constant of the one definition -/

theorem learn_of_ne {env : ConstEnv} {i : Instruction} {v : ValueId} (hne : i.result ≠ v) :
    learn env i v = env v := by
  unfold learn
  cases tryFold (substituted env i) with
  | none => rfl
  | some c => exact Function.update_of_ne hne.symm _ _

theorem learn_self {env : ConstEnv} {i : Instruction} (hnone : env i.result = none) :
    learn env i i.result = tryFold (substituted env i) := by
  unfold learn
  cases tryFold (substituted env i) with
  | none => exact hnone
  | some c => exact Function.update_self _ _ _

/-- Instructions that do not define a value teach nothing about it. -/
theorem learnAll_of_notMem {env : ConstEnv} {is : List Instruction} {v : ValueId}
    (hv : v ∉ is.map Instruction.result) : learnAll env is v = env v := by
  induction is generalizing env with
  | nil => rfl
  | cons i is ih =>
    rw [List.map_cons, List.mem_cons, not_or] at hv
    exact (ih hv.2).trans (learn_of_ne (Ne.symm hv.1))

theorem mem_of_learnAll {is : List Instruction} {v : ValueId} {c : Const}
    (h : learnAll (fun _ => none) is v = some c) : v ∈ is.map Instruction.result := by
  by_contra hv
  rw [learnAll_of_notMem hv] at h
  cases h

section Once

variable {f : Function}

theorem results_sublist (bs : List BasicBlock) :
    ((code bs).map Instruction.result).Sublist (definitions bs) := by
  induction bs with
  | nil => exact .slnil
  | cons b bs ih =>
    rw [code, List.flatMap_cons, List.map_append, definitions, List.flatMap_cons]
    exact (List.sublist_append_right _ _).append ih

theorem InSsaForm.nodup (hf : InSsaForm f) : ((code f.blocks).map Instruction.result).Nodup :=
  hf.once.sublist (results_sublist f.blocks)

/-- What is known before a place is known in the end. -/
theorem InSsaForm.constants_of_known (hf : InSsaForm f) {pre rest : List Instruction}
    (hcode : code f.blocks = pre ++ rest) {v : ValueId} {c : Const}
    (h : learnAll (fun _ => none) pre v = some c) : constants f v = some c := by
  have hnodup := hf.nodup
  rw [hcode, List.map_append, List.nodup_append] at hnodup
  have hrest : v ∉ rest.map Instruction.result := fun hmem =>
    hnodup.2.2 v (mem_of_learnAll h) v hmem rfl
  rw [constants, hcode, learnAll_append, learnAll_of_notMem hrest, h]

/-- The constant of a value is what its definition folds to. -/
theorem InSsaForm.constants_result (hf : InSsaForm f) {pre rest : List Instruction}
    {i : Instruction} (hcode : code f.blocks = pre ++ i :: rest) :
    constants f i.result = tryFold (substituted (learnAll (fun _ => none) pre) i) := by
  have hnodup := hf.nodup
  rw [hcode, List.map_append, List.map_cons, List.nodup_append, List.nodup_cons] at hnodup
  obtain ⟨-, ⟨hrest, -⟩, hdisjoint⟩ := hnodup
  have hpre : i.result ∉ pre.map Instruction.result := fun hmem =>
    hdisjoint i.result hmem i.result List.mem_cons_self rfl
  have hsplit : learnAll (fun _ => none) (pre ++ i :: rest) =
      learnAll (learn (learnAll (fun _ => none) pre) i) rest := learnAll_append _ _ _
  rw [constants, hcode, hsplit, learnAll_of_notMem hrest]
  exact learn_self (learnAll_of_notMem hpre)

theorem definitions_append (bs cs : List BasicBlock) :
    definitions (bs ++ cs) = definitions bs ++ definitions cs := List.flatMap_append

theorem code_append (bs cs : List BasicBlock) : code (bs ++ cs) = code bs ++ code cs :=
  List.flatMap_append

/-- A parameter of a block is not known to be a constant. -/
theorem InSsaForm.constants_param (hf : InSsaForm f) {b : BasicBlock} (hb : b ∈ f.blocks)
    {v : ValueId} (hv : v ∈ b.params.map Prod.fst) : constants f v = none := by
  refine learnAll_of_notMem fun hmem => ?_
  obtain ⟨bs, cs, hsplit⟩ := List.append_of_mem hb
  have honce := hf.once
  rw [hsplit, definitions_append, List.nodup_append] at honce
  obtain ⟨-, hright, hleft⟩ := honce
  have hhere : v ∈ definitions (b :: cs) := by
    rw [definitions, List.flatMap_cons, List.append_assoc]
    exact List.mem_append_left _ hv
  rw [hsplit, code_append, List.map_append] at hmem
  rcases List.mem_append.mp hmem with hmem | hmem
  · exact hleft v ((results_sublist bs).subset hmem) v hhere rfl
  · rw [definitions, List.flatMap_cons, List.append_assoc, List.nodup_append] at hright
    refine hright.2.2 v hv v ?_ rfl
    rw [code, List.flatMap_cons, List.map_append] at hmem
    rcases List.mem_append.mp hmem with hmem | hmem
    · exact List.mem_append_left _ hmem
    · exact List.mem_append_right _ ((results_sublist cs).subset hmem)

/-- The code before and after an instruction. -/
theorem code_split {n k : Nat} {b : BasicBlock} {i : Instruction} (hb : f.blocks[n]? = some b)
    (hi : b.instructions[k]? = some i) :
    ∃ rest, code f.blocks =
      (code (f.blocks.take n) ++ b.instructions.take k) ++ i :: rest := by
  obtain ⟨hn, rfl⟩ := List.getElem?_eq_some_iff.mp hb
  obtain ⟨hk, rfl⟩ := List.getElem?_eq_some_iff.mp hi
  refine ⟨f.blocks[n].instructions.drop (k + 1) ++ code (f.blocks.drop (n + 1)), ?_⟩
  have hblocks : f.blocks = f.blocks.take n ++ f.blocks[n] :: f.blocks.drop (n + 1) := by
    rw [List.getElem_cons_drop, List.take_append_drop]
  have hcode : code (f.blocks[n] :: f.blocks.drop (n + 1)) =
      f.blocks[n].instructions ++ code (f.blocks.drop (n + 1)) := List.flatMap_cons
  have hinstrs : f.blocks[n].instructions = f.blocks[n].instructions.take k ++
      f.blocks[n].instructions[k] :: f.blocks[n].instructions.drop (k + 1) := by
    rw [List.getElem_cons_drop, List.take_append_drop]
  calc code f.blocks = code (f.blocks.take n ++ f.blocks[n] :: f.blocks.drop (n + 1)) :=
        congrArg code hblocks
    _ = code (f.blocks.take n) ++ (f.blocks[n].instructions ++ code (f.blocks.drop (n + 1))) := by
        rw [code_append, hcode]
    _ = _ := by
        conv_lhs => rw [hinstrs]
        simp only [List.append_assoc, List.cons_append]

theorem knownAt_eq {n : Nat} {b : BasicBlock} (hb : f.blocks[n]? = some b) (k : Nat) :
    knownAt f n k =
      learnAll (fun _ => none) (code (f.blocks.take n) ++ b.instructions.take k) := by
  unfold knownAt
  rw [hb, learnAll_append]
  rfl

/-- What is known before an instruction is known in the end. -/
theorem InSsaForm.knownAt_le (hf : InSsaForm f) {n k : Nat} {b : BasicBlock}
    (hb : f.blocks[n]? = some b) {v : ValueId} {c : Const} (h : knownAt f n k v = some c) :
    constants f v = some c := by
  rw [knownAt_eq hb] at h
  obtain ⟨hn, rfl⟩ := List.getElem?_eq_some_iff.mp hb
  have hblocks : f.blocks = f.blocks.take n ++ f.blocks[n] :: f.blocks.drop (n + 1) := by
    rw [List.getElem_cons_drop, List.take_append_drop]
  have hcode : code f.blocks = (code (f.blocks.take n) ++ f.blocks[n].instructions.take k) ++
      (f.blocks[n].instructions.drop k ++ code (f.blocks.drop (n + 1))) := by
    have hcons : code (f.blocks[n] :: f.blocks.drop (n + 1)) =
        f.blocks[n].instructions ++ code (f.blocks.drop (n + 1)) := List.flatMap_cons
    conv_lhs => rw [hblocks, code_append, hcons, ← List.take_append_drop k f.blocks[n].instructions]
    simp only [List.append_assoc]
  exact hf.constants_of_known hcode h

end Once

/-! ## Where 128 bits give what the type gives -/

/-- An operation on two values of a type whose exact result the type has: the quotient, for
a remainder, and the count of a shift is below the width. -/
def ArithExact (t : IntType) (op : BinaryOp) (a b : Int) : Prop :=
  t.Fits a ∧ t.Fits b ∧ (∀ r, exactInteger op a b = some r → t.Fits r) ∧
    (op = .rem → t.Fits (a.tdiv b)) ∧ (op = .shl ∨ op = .shr → b < t.bits)

/-- The constants that an instruction of a type works on, and the exact result, are values of
the type. -/
def FoldExact (ty : Ty) : InstrKind → Prop
  | .const (.int v) | .cast (.const (.int v)) _ => ∀ t, ty = .int t → (cType t).Fits v
  | .unary .neg (.const (.int v)) =>
    ∃ t, ty = .int t ∧ (cType t).Fits v ∧ (cType t).Fits (-v)
  | .binary op (.const (.int a)) (.const (.int b)) =>
    (relation op a b).isSome ∨ ∃ t, ty = .int t ∧ ArithExact (cType t) op a b
  | _ => True

theorem fits_i128 {t : IntTy} {x : Int} (h : (cType t).Fits x) : i128.Fits x := by
  cases t <;>
    simp only [IntType.Fits, IntType.lo, IntType.hi, cType, i128, IntTy.isSigned, IntTy.bits,
      if_true, Bool.false_eq_true, if_false] at h ⊢ <;>
    omega

theorem wrap_fits_self {t : IntTy} {x : Int} (h : (cType t).Fits x) : (cType t).wrap x = x :=
  IntType.wrap_of_fits (cType_bits_pos t) h

theorem inI128_eq {x : Int} {c : Const} (h : inI128 x = some c) : c = .int x := by
  unfold inI128 at h
  split at h
  · exact (Option.some.inj h).symm
  · cases h

/-- Arithmetic folds to what the machine computes. -/
theorem arith_of_fold {t : IntTy} {op : BinaryOp} {a b : Int} {c : Const}
    (hfold : foldIntBinary op a b = some c) (hrel : relation op a b = none)
    (hexact : ArithExact (cType t) op a b) :
    ∃ v, c = .int v ∧ (cType t).Fits v ∧
      arith (cType t) op ((cType t).wrap a) ((cType t).wrap b) = some v := by
  obtain ⟨ha, hb, hres, hrem, hshift⟩ := hexact
  rw [wrap_fits_self ha, wrap_fits_self hb]
  cases op with
  | add =>
    have hfits := hres _ rfl
    exact ⟨_, inI128_eq hfold, hfits, congrArg some (wrap_fits_self hfits)⟩
  | sub =>
    have hfits := hres _ rfl
    exact ⟨_, inI128_eq hfold, hfits, congrArg some (wrap_fits_self hfits)⟩
  | mul =>
    have hfits := hres _ rfl
    exact ⟨_, inI128_eq hfold, hfits, congrArg some (wrap_fits_self hfits)⟩
  | div =>
    simp only [foldIntBinary] at hfold
    split at hfold
    · cases hfold
    · next hzero =>
      have hfits := hres _ (if_neg hzero)
      exact ⟨_, inI128_eq hfold, hfits, if_pos ⟨hzero, hfits⟩⟩
  | rem =>
    simp only [foldIntBinary] at hfold
    split at hfold
    · cases hfold
    · next hzero =>
      have hquot := hrem rfl
      rw [if_pos (fits_i128 hquot)] at hfold
      have hfits := hres _ (if_neg hzero)
      exact ⟨_, (Option.some.inj hfold).symm, hfits, if_pos ⟨hzero, hquot⟩⟩
  | bitAnd =>
    have hfits := hres _ rfl
    exact ⟨_, (Option.some.inj hfold).symm, hfits, congrArg some (wrap_fits_self hfits)⟩
  | bitOr =>
    have hfits := hres _ rfl
    exact ⟨_, (Option.some.inj hfold).symm, hfits, congrArg some (wrap_fits_self hfits)⟩
  | bitXor =>
    have hfits := hres _ rfl
    exact ⟨_, (Option.some.inj hfold).symm, hfits, congrArg some (wrap_fits_self hfits)⟩
  | shl =>
    simp only [foldIntBinary] at hfold
    split at hfold
    · next hcount =>
      have hfits := hres _ (if_pos hcount.1)
      have hsame : i128.wrap (a * 2 ^ b.toNat) = a * 2 ^ b.toNat :=
        IntType.wrap_of_fits (by decide) (fits_i128 hfits)
      rw [hsame] at hfold
      refine ⟨_, (Option.some.inj hfold).symm, hfits, ?_⟩
      rw [arith, if_pos ⟨hcount.1, hshift (Or.inl rfl)⟩, wrap_fits_self hfits]
    · cases hfold
  | shr =>
    simp only [foldIntBinary] at hfold
    split at hfold
    · next hcount =>
      have hfits := hres _ (if_pos hcount.1)
      exact ⟨_, (Option.some.inj hfold).symm, hfits,
        if_pos ⟨hcount.1, hshift (Or.inr rfl)⟩⟩
    · cases hfold
  | _ => cases hrel <;> cases hfold

section Machine

variable {ν ω : Type}

theorem at_ofConst_int {ty : Ty} {v : Int} (h : ∀ t, ty = .int t → (cType t).Fits v) :
    (Val.int v : Val ν).at ty = .int v := by
  cases ty with
  | int t => exact congrArg Val.int (wrap_fits_self (h t rfl))
  | _ => rfl

theorem at_bool (ty : Ty) (b : Bool) : (Val.bool b : Val ν).at ty = .bool b := by
  cases ty <;> rfl

theorem at_float (ty : Ty) (bits : Nat) : (Val.float bits : Val ν).at ty = .float bits := by
  cases ty <;> rfl

theorem relation_of_fold {op : BinaryOp} {a b : Int} {c : Const} {r : Bool}
    (hfold : foldIntBinary op a b = some c) (hrel : relation op a b = some r) : c = .bool r := by
  cases op <;> cases hrel <;> cases hfold <;> rfl

/-- The machine computes the constant that an instruction folds to, and the type of the
instruction has it. -/
theorem operate_of_fold {ty : Ty} {k : InstrKind} {c : Const} (fr : Frame ν)
    (hfold : tryFold k = some c) (hexact : FoldExact ty k) :
    (Val.ofConst c : Val ν).at ty = .ofConst c ∧
      ∃ xs, k.operands.mapM fr.eval = some xs ∧ operate ty k xs = .value (.ofConst c) := by
  unfold tryFold at hfold
  split at hfold
  · -- a constant
    next c' =>
    cases hfold
    have hat : (Val.ofConst c : Val ν).at ty = .ofConst c := by
      cases c with
      | int v => exact at_ofConst_int hexact
      | bool b => exact at_bool ty b
      | float bits => exact at_float ty bits
    exact ⟨hat, [], rfl, congrArg Computed.value hat⟩
  · -- a negated integer
    next v =>
    obtain ⟨t, rfl, hv, hneg⟩ := hexact
    rw [inI128_eq hfold]
    refine ⟨congrArg Val.int (wrap_fits_self hneg), [.int v], rfl, ?_⟩
    simp only [operate, wrap_fits_self hv, wrap_fits_self hneg, Val.ofConst]
  · cases hfold
    exact ⟨at_float ty _, _, rfl, rfl⟩
  · cases hfold
    exact ⟨at_bool ty _, _, rfl, rfl⟩
  · -- an operator on two integers
    next op a b =>
    cases hrel : relation op a b with
    | some r =>
      rw [relation_of_fold hfold hrel]
      refine ⟨at_bool ty r, [.int a, .int b], rfl, ?_⟩
      simp only [operate, integer, hrel, Val.ofConst]
    | none =>
      obtain hsome | ⟨t, rfl, harith⟩ := hexact
      · rw [hrel] at hsome
        cases hsome
      · obtain ⟨v, rfl, hfits, hcomputed⟩ := arith_of_fold hfold hrel harith
        refine ⟨congrArg Val.int (wrap_fits_self hfits), [.int a, .int b], rfl, ?_⟩
        cases op with
        | and => cases hfold
        | or => cases hfold
        | _ => simp only [operate, integer, hrel, hcomputed, Val.ofConst]
  · -- an operator on two booleans
    next op a b =>
    cases op <;> cases hfold <;> exact ⟨at_bool ty _, _, rfl, rfl⟩
  · -- a conversion
    next v target =>
    unfold foldIntCast at hfold
    split at hfold
    · next t =>
      split at hfold
      · cases hfold
      · next hrange =>
        cases hfold
        have hfits : (cType t).Fits v := by
          cases t <;>
            simp only [IntType.Fits, IntType.lo, IntType.hi, cType, IntTy.isSigned, IntTy.bits,
              IntTy.minValue, IntTy.maxValue, if_true, Bool.false_eq_true, if_false] at hrange ⊢ <;>
            omega
        refine ⟨at_ofConst_int hexact, [.int v], rfl, ?_⟩
        simp only [operate, wrap_fits_self hfits, Val.ofConst]
    · cases hfold
  · cases hfold

/-! ## Substituted operands hold the same values -/

theorem operands_mapOperands (g : Operand → Operand) (k : InstrKind) :
    (k.mapOperands g).operands = k.operands.map g := by
  cases k <;> rfl

theorem mapOperands_mapOperands (g g' : Operand → Operand) (k : InstrKind) :
    (k.mapOperands g).mapOperands g' = k.mapOperands (g' ∘ g) := by
  cases k <;> simp [InstrKind.mapOperands]

theorem shape_mapOperands (g : Operand → Operand) (k : InstrKind) :
    shape (k.mapOperands g) = shape k := mapOperands_mapOperands g _ k

/-- What the machine computes depends on the values of the operands alone. -/
theorem operate_mapOperands (g : Operand → Operand) (ty : Ty) (k : InstrKind)
    (xs : List (Val ν)) : operate ty (k.mapOperands g) xs = operate ty k xs := by
  cases k with
  | unary op x =>
    rcases xs with _ | ⟨a, _ | ⟨b, xs⟩⟩
    · cases op <;> rfl
    · cases op <;> cases a <;> rfl
    · cases op <;> cases a <;> rfl
  | binary op l r =>
    rcases xs with _ | ⟨a, _ | ⟨b, _ | ⟨c, xs⟩⟩⟩
    · rfl
    · cases a <;> rfl
    · cases a <;> cases b <;> rfl
    · cases a <;> cases b <;> rfl
  | cast x target =>
    rcases xs with _ | ⟨a, _ | ⟨b, xs⟩⟩
    · cases target <;> rfl
    · cases target <;> cases a <;> rfl
    · cases target <;> cases a <;> rfl
  | _ => rfl

theorem callee_mapOperands (g : Operand → Operand) (m : Module) (k : InstrKind) :
    callee m (k.mapOperands g) = callee m k := by
  cases k <;> rfl

end Machine

end Vani.Analysis

import Mathlib.Data.List.Forall2
import Vani.Analysis.NewFacts

/-!
# Facts recorded for bindings

When a `let` or an element assignment records equations about the values it stores, and
when a call's `ensures` clauses are turned into facts, these are true of the store
afterwards under the conditions stated here. Each condition speaks of the statement and
of the store before it: what the initialiser assigns, which names it mentions, and that
the stored value compares equal to the computed one (a NaN does not).
-/

set_option autoImplicit false

namespace Vani.Analysis

open Vani.Program Vani.Model

variable {W : Type} {P : Prims W} {T : Nominal} {σ σ' τ : Store W}

/-- The stored value compares equal to whatever the expression gives. -/
def StoredEqual (P : Prims W) (T : Nominal) (σ : Store W) (x : Value) (a : Expr) : Prop :=
  ∀ u, Gives P T σ a u → P.runBinary .eq x u = some (.scalar (.bool true))

/-- The value is a sequence whose elements compare equal to the listed expressions. -/
def ElementsEqual (P : Prims W) (T : Nominal) (σ : Store W) (v : Value) (es : List Expr) :
    Prop :=
  ∃ xs, v = .seq xs ∧ xs.length = es.length ∧
    ∀ (j : Nat) a x, es[j]? = some a → xs[j]? = some x → StoredEqual P T σ x a

/-- The value of the expression compares equal to itself once it is stored. -/
def SelfEqual (P : Prims W) (T : Nominal) (σ : Store W) (a : Expr) : Prop :=
  ∀ u, Gives P T σ a u → P.runBinary .eq u.settle u = some (.scalar (.bool true))

/-- What the initialiser's value `v` and the stored value `v'` must satisfy for the
equations recorded about the initialiser. -/
def StoredWell (P : Prims W) (T : Nominal) (σ : Store W) (v v' : Value) : Expr → Prop
  | .arrayLit es => ElementsEqual P T σ v' es
  | .call f args =>
    (builtinOp f args).isSome = true ∧
    match f, args with
    | "vec", es => ElementsEqual P T σ v' es
    | "push", [_, a] => v' = v ∧ SelfEqual P T σ a ∧
        ∀ xs, v = .seq xs → valueFitsType xs.length .u64 = true
    | "set", [_, _, a] => v' = v ∧ SelfEqual P T σ a
    | "clone", [_] => v' = v ∧ ∃ k, StrictOp.len.apply P [v] = some (.scalar (.int .u64 false k))
    | _, _ => v' = v
  | _ => v' = v

/-- The elements of a sequence, as facts. -/
theorem arrayElementFacts_true {n : String} {xs : List Value} (hn : τ.lookup n = some (.seq xs))
    {es : List Expr} {i : Nat}
    (hes : ∀ (j : Nat) a, es[j]? = some a → ∃ x u, xs[i + j]? = some x ∧ Gives P T τ a u ∧
      P.runBinary .eq x u = some (.scalar (.bool true))) :
    ∀ f, f ∈ arrayElementFacts n i es → EvalsTrue P T τ f := by
  induction es generalizing i with
  | nil => exact fun f hf => absurd hf List.not_mem_nil
  | cons e es ih =>
    intro f hf
    rcases List.mem_cons.1 hf with rfl | hf
    · obtain ⟨x, u, hx, hu, heq⟩ := hes 0 e rfl
      exact ((Gives.var hn).index (Gives.int i) hx).eqFact hu heq |>.evalsTrue
    · refine ih (fun j a hj => ?_) f hf
      have hnext := hes (j + 1) a hj
      rwa [show i + (j + 1) = i + 1 + j by omega] at hnext

/-- A variable that has just been bound. -/
theorem lookup_declare_self {n : String} {v : Value} (hne : σ.scopes ≠ []) :
    (σ.declare n v).lookup n = some v := by
  cases hs : σ.scopes with
  | nil => exact absurd hs hne
  | cons s rest => simp [Store.declare, Store.lookup, hs, lookupScopes]

/-- The operand lists of builtin calls. -/
theorem Eval.builtin_inv {f : String} {args : List Expr} {op : StrictOp} {v : Value}
    (h : Gives P T σ (.call f args) v) (hop : builtinOp f args = some op) :
    ∃ vs, List.Forall₂ (Gives P T σ) args vs ∧ op.apply P vs = some v := by
  have hop' : operands T (.call f args) = some (op, args) := by rw [operands, hop]; rfl
  obtain ⟨vs, v', hr, hargs, happ⟩ := Eval.strict_inv h hop'
  cases hr
  exact ⟨vs, (Eval.gives_args hargs).2, happ⟩

/-- An expression that gives the value of the variable behind its borrows. -/
theorem Gives.unwrap {e : Expr} {base : String} {v : Value} (h : Gives P T σ e v)
    (hbase : unwrapToVar e = some base) : σ.lookup base = some v := by
  induction e using unwrapToVar.induct generalizing v with
  | case1 n =>
    cases hbase
    exact Eval.var_inv h
  | case2 e ih =>
    obtain ⟨u, hu, happ⟩ := Eval.strict_one_inv h rfl
    cases happ
    exact ih hu hbase
  | case3 e ih =>
    obtain ⟨u, hu, happ⟩ := Eval.strict_one_inv h rfl
    cases happ
    exact ih hu hbase
  | case4 e h1 h2 h3 =>
    rw [unwrapToVar] at hbase
    · cases hbase
    all_goals assumption

/-- The names of an argument are names of the argument list. -/
theorem names_of_mem {es : List Expr} {a : Expr} (h : a ∈ es) :
    exprNames P T a ⊆ argsNames P T es := by
  induction es with
  | nil => cases h
  | cons e es ih =>
    rw [argsNames]
    rcases List.mem_cons.1 h with rfl | h
    · exact List.subset_append_left ..
    · exact fun n hn => List.mem_append_right _ (ih h hn)

/-- Binding a name that the arguments do not mention leaves their values in place. -/
theorem gives_after {n : String} (v' : Value) {es : List Expr} {vs : List Value}
    (hn : n ∉ argsNames P T es) (h : List.Forall₂ (Gives P T σ) es vs) :
    List.Forall₂ (Gives P T (σ.declare n v')) es vs := by
  induction h with
  | nil => exact .nil
  | cons ha _ ih =>
    rw [argsNames, List.mem_append, not_or] at hn
    exact .cons (ha.transfer (sameFor_declare σ v' hn.1)) (ih hn.2)

/-- The element facts of a literal. -/
theorem elementFacts_of_literal {n : String} {v' : Value} {es : List Expr} {vs : List Value}
    (hne : σ.scopes ≠ []) (hn : n ∉ argsNames P T es)
    (hvs : List.Forall₂ (Gives P T σ) es vs) (hwell : ElementsEqual P T σ v' es) :
    ∀ f, f ∈ arrayElementFacts n 0 es → EvalsTrue P T (σ.declare n v') f := by
  obtain ⟨xs, rfl, hlen, heq⟩ := hwell
  refine arrayElementFacts_true (lookup_declare_self hne) fun j a hj => ?_
  have hjlt : j < es.length := (List.getElem?_eq_some_iff.1 hj).1
  obtain ⟨x, hx⟩ : ∃ x, xs[j]? = some x := ⟨_, List.getElem?_eq_getElem (hlen ▸ hjlt)⟩
  obtain ⟨u, hu⟩ : ∃ u, vs[j]? = some u :=
    ⟨_, List.getElem?_eq_getElem (hvs.length_eq ▸ hjlt)⟩
  have hgive : Gives P T σ a u := by
    have hget := (List.forall₂_iff_get.1 hvs).2 j hjlt (hvs.length_eq ▸ hjlt)
    rw [List.getElem?_eq_getElem hjlt] at hj
    rw [List.getElem?_eq_getElem (hvs.length_eq ▸ hjlt)] at hu
    cases hj
    cases hu
    exact hget
  have hnames := names_of_mem (P := P) (T := T) (List.mem_of_getElem? hj)
  refine ⟨x, u, by rwa [Nat.zero_add], ?_, heq j a x hj hx u hgive⟩
  exact hgive.transfer (sameFor_declare σ _ fun h => hn (hnames h))

/-- One more than a length is computed exactly while it fits. -/
theorem foldBinary_lenSucc {ff : ScalarOp → List Scalar → Option Scalar} {n : Nat}
    (hfit : valueFitsType ((n : Int) + 1) .u64 = true) :
    foldBinary ff .add (.int .u64 false n) (.int .i64 true 1) =
      some (.int .u64 false ((n : Int) + 1)) := by
  have hty : promotedIntegerType .u64 false n .i64 true 1 = some .u64 := by
    simp [promotedIntegerType, adaptedIntegerLiteralType, valueFitsType, commonIntegerType,
      IntTy.minValue, IntTy.maxValue, IntTy.isSigned, IntTy.bits, unsignedType]
  simp only [foldBinary, hty, evalIntegerBinary, exactInteger, hfit, if_true, Option.map_some]

/-- The length of an extended array, as an expression. -/
theorem Gives.lenSucc {a : Expr} {vs : List Value} (ha : Gives P T σ a (.seq vs))
    (hfit : valueFitsType ((vs.length : Int) + 1) .u64 = true) :
    Gives P T σ (.binary .add (.len a) (.int 1))
      (.scalar (.int .u64 false ((vs.length : Int) + 1))) := by
  have hop : operands T (.binary .add (.len a) (.int 1)) =
      some (.binary .add, [.len a, .int 1]) := by simp [operands]
  have hone : Gives P T σ (.int 1) (.scalar (.int .i64 true 1)) := by
    have h1 : (1 : Int) ≤ IntTy.maxValue .i64 := by simp [IntTy.maxValue]
    have h := Gives.int (P := P) (T := T) (σ := σ) 1
    rwa [if_pos h1] at h
  refine Gives.strict_two hop ha.len hone ?_
  rw [StrictOp.apply_binary]
  exact P.runBinary_of_fold (foldBinary_lenSucc hfit)

/-- The values of two operands. -/
theorem forall₂_two {α β : Type} {R : α → β → Prop} {a b : α} {vs : List β}
    (h : List.Forall₂ R [a, b] vs) : ∃ x y, vs = [x, y] ∧ R a x ∧ R b y := by
  cases h with
  | cons ha h => cases h with
    | cons hb h => cases h; exact ⟨_, _, rfl, ha, hb⟩

/-- The values of three operands. -/
theorem forall₂_three {α β : Type} {R : α → β → Prop} {a b c : α} {vs : List β}
    (h : List.Forall₂ R [a, b, c] vs) : ∃ x y z, vs = [x, y, z] ∧ R a x ∧ R b y ∧ R c z := by
  cases h with
  | cons ha h =>
    obtain ⟨y, z, rfl, hb, hc⟩ := forall₂_two h
    exact ⟨_, y, z, rfl, ha, hb, hc⟩

/-- The equation between a stored array and the array before. -/
theorem Gives.storeEq {new old : String} {k v : Expr} {xs ys : List Value} {t : IntTy}
    {b : Bool} {i : Int} {x : Value} (hnew : σ.lookup new = some (.seq xs))
    (hold : σ.lookup old = some (.seq ys)) (hk : Gives P T σ k (.scalar (.int t b i)))
    (hv : Gives P T σ v x) (hstore : Value.isStore xs ys i x = true) :
    Gives P T σ (storeEqFact new old k v) (.scalar (.bool true)) := by
  have hop : operands T (storeEqFact new old k v) =
      some (.storeEq, [.var new, .var old, k, v]) := rfl
  refine Eval.strict hop (.argsCons (Gives.var hnew) (.argsCons (Gives.var hold)
    (.argsCons hk (.argsCons hv .argsNil)))) ?_
  simp only [StrictOp.apply, hstore]

/-- The equation between two arrays. -/
theorem Gives.arrayEq {a b : String} {u v : Value} (ha : σ.lookup a = some u)
    (hb : σ.lookup b = some v) (hsame : Value.same u v = true) :
    Gives P T σ (arrayEqFact a b) (.scalar (.bool true)) := by
  have hop : operands T (arrayEqFact a b) = some (.arrayEq, [.var a, .var b]) := rfl
  refine Gives.strict_two hop (Gives.var ha) (Gives.var hb) ?_
  simp only [StrictOp.apply, hsame]

attribute [local simp] vecBuiltinFacts StrictOp.apply operands

/-- The facts about a `push` into a copy. -/
theorem pushFacts_true {n : String} {a b : Expr} {v : Value} (hne : σ.scopes ≠ [])
    (hn : n ∉ argsNames P T [a, b]) (heval : Gives P T σ (.call "push" [a, b]) v)
    (hop : builtinOp "push" [a, b] = some .push) (hself : SelfEqual P T σ b)
    (hfit : ∀ xs, v = .seq xs → valueFitsType xs.length .u64 = true) :
    ∀ f, f ∈ vecBuiltinFacts "push" [a, b] n → EvalsTrue P T (σ.declare n v) f := by
  obtain ⟨vs, hvs, happ⟩ := Eval.builtin_inv heval hop
  obtain ⟨ua, ub, rfl, ha', hb'⟩ := forall₂_two (gives_after v hn hvs)
  obtain ⟨_, _, ⟨rfl, rfl⟩, _, hb⟩ := forall₂_two hvs
  obtain ⟨xs, rfl⟩ : ∃ xs, ua = .seq xs := by
    cases ua <;> first | exact ⟨_, rfl⟩ | cases happ
  obtain rfl : Value.seq (xs ++ [ub.settle]) = v := by simpa [StrictOp.apply] using happ
  have hlook := lookup_declare_self (n := n) (v := .seq (xs ++ [ub.settle])) hne
  have hlen : valueFitsType ((xs.length : Int) + 1) .u64 = true := by simpa using hfit _ rfl
  intro f hf
  rw [vecBuiltinFacts, List.mem_append] at hf
  rcases hf with hf | hf
  · rcases List.mem_cons.1 hf with rfl | hf
    · refine ((Gives.var hlook).len.eqFact (ha'.lenSucc hlen) ?_).evalsTrue
      rw [List.length_append]
      exact runBinary_eq_int
    · rw [List.mem_singleton.1 hf]
      have hslot : (xs ++ [ub.settle])[xs.length]? = some ub.settle := by simp
      exact (((Gives.var hlook).index ha'.len hslot).eqFact hb' (hself ub hb)).evalsTrue
  · split at hf
    · next base hbase =>
      rw [List.mem_singleton.1 hf]
      exact (Gives.storeEq hlook (ha'.unwrap hbase) ha'.len hb'
        (isStore_append (same_settle ub))).evalsTrue
    · cases hf

/-- The facts about a `clone`. -/
theorem cloneFacts_true {n : String} {a : Expr} {v : Value} (hne : σ.scopes ≠ [])
    (hn : n ∉ argsNames P T [a]) (heval : Gives P T σ (.call "clone" [a]) v)
    (hlen : ∃ k, StrictOp.len.apply P [v] = some (.scalar (.int .u64 false k))) :
    ∀ f, f ∈ vecBuiltinFacts "clone" [a] n → EvalsTrue P T (σ.declare n v) f := by
  obtain ⟨k, hk⟩ := hlen
  have hop : operands T (.call "clone" [a]) = some (.ref, [a]) := by simp [operands, builtinOp]
  obtain ⟨u, ha, happ⟩ := Eval.strict_one_inv heval hop
  obtain rfl : u = v := by simpa [StrictOp.apply] using happ
  have hna : n ∉ exprNames P T a := by simpa [argsNames] using hn
  have ha' : Gives P T (σ.declare n u) a u := Gives.transfer ha (sameFor_declare σ _ hna)
  have hlook := lookup_declare_self (n := n) (v := u) hne
  intro f hf
  rw [vecBuiltinFacts] at hf
  rcases List.mem_cons.1 hf with rfl | hf
  · exact ((Gives.strict_one rfl (Gives.var hlook) hk).eqFact
      (Gives.strict_one rfl ha' hk) runBinary_eq_int).evalsTrue
  · split at hf
    · next base hbase =>
      rw [List.mem_singleton.1 hf]
      exact (Gives.arrayEq hlook (ha'.unwrap hbase) (same_refl _)).evalsTrue
    · cases hf

/-- The facts about a `set` in a copy. -/
theorem setFacts_true {n : String} {a i b : Expr} {v : Value} (hne : σ.scopes ≠ [])
    (hn : n ∉ argsNames P T [a, i, b]) (heval : Gives P T σ (.call "set" [a, i, b]) v)
    (hop : builtinOp "set" [a, i, b] = some .set) (hself : SelfEqual P T σ b) :
    ∀ f, f ∈ vecBuiltinFacts "set" [a, i, b] n → EvalsTrue P T (σ.declare n v) f := by
  obtain ⟨vs, hvs, happ⟩ := Eval.builtin_inv heval hop
  obtain ⟨ua, ui, ub, rfl, ha', hi', hb'⟩ := forall₂_three (gives_after v hn hvs)
  obtain ⟨_, _, _, ⟨rfl, rfl, rfl⟩, _, _, hb⟩ := forall₂_three hvs
  obtain ⟨xs, rfl⟩ : ∃ xs, ua = .seq xs := by
    cases ua <;> first | exact ⟨_, rfl⟩ | cases happ
  obtain ⟨t, fl, k, rfl⟩ : ∃ t fl k, ui = .scalar (.int t fl k) := by
    cases ui with
    | scalar s => cases s <;> first | exact ⟨_, _, _, rfl⟩ | cases happ
    | _ => cases happ
  rw [StrictOp.apply] at happ
  split at happ
  · next hk =>
    obtain ⟨hk0, hklt⟩ := hk
    obtain rfl : Value.seq (xs.set k.toNat ub.settle) = v := by simpa using happ
    obtain ⟨m, rfl⟩ : ∃ m : Nat, k = m := ⟨k.toNat, (Int.toNat_of_nonneg hk0).symm⟩
    have hm : m < xs.length := by exact_mod_cast hklt
    rw [Int.toNat_natCast] at *
    have hlook := lookup_declare_self (n := n) (v := .seq (xs.set m ub.settle)) hne
    have hslot : (xs.set m ub.settle)[m]? = some ub.settle := by simp [hm]
    intro f hf
    rw [vecBuiltinFacts, List.mem_append] at hf
    rcases hf with hf | hf
    · rcases List.mem_cons.1 hf with rfl | hf
      · refine ((Gives.var hlook).len.eqFact ha'.len ?_).evalsTrue
        rw [List.length_set]
        exact runBinary_eq_int
      · rw [List.mem_singleton.1 hf]
        exact (((Gives.var hlook).index hi' hslot).eqFact hb' (hself ub hb)).evalsTrue
    · split at hf
      · next base hbase =>
        rw [List.mem_singleton.1 hf]
        exact (Gives.storeEq hlook (ha'.unwrap hbase) hi' hb'
          (isStore_set (same_settle ub))).evalsTrue
      · cases hf
  · cases happ

/-- The facts about a `vec`. -/
theorem vecFacts_true {n : String} {args : List Expr} {v v' : Value} (hne : σ.scopes ≠ [])
    (hn : n ∉ argsNames P T args) (heval : Gives P T σ (.call "vec" args) v)
    (hwell : ElementsEqual P T σ v' args) :
    ∀ f, f ∈ vecBuiltinFacts "vec" args n → EvalsTrue P T (σ.declare n v') f := by
  have hop : builtinOp "vec" args = some .arrayLit := by simp [builtinOp]
  obtain ⟨vs, hvs, _⟩ := Eval.builtin_inv heval hop
  intro f hf
  rw [vecBuiltinFacts] at hf
  rcases List.mem_cons.1 hf with rfl | hf
  · obtain ⟨xs, rfl, hlen, _⟩ := hwell
    have hlook := lookup_declare_self (n := n) (v := .seq xs) hne
    refine ((Gives.var hlook).len.eqFact (Gives.int _) ?_).evalsTrue
    rw [hlen]
    exact runBinary_eq_int
  · exact elementFacts_of_literal hne hn hvs hwell f hf

/-- The equations recorded for a `let` are true of the store it leaves, when its
initialiser assigns nothing and does not depend on the new name. -/
theorem recordedFacts_true {ctx : Context} {st : CheckState} {n : String} {e : Expr}
    {v v' : Value} (hne : σ.scopes ≠ []) (hn : n ∉ exprNames P T e)
    (heval : Gives P T σ e v) (hwell : StoredWell P T σ v v' e) :
    ∀ f, f ∈ recordedFacts ctx st n e → EvalsTrue P T (σ.declare n v') f := by
  intro f hf
  unfold recordedFacts at hf
  split at hf
  · cases hf
  · split at hf
    · next g args =>
      split at hf
      · cases hf
      · clear * - hf hne hn heval hwell
        have hargs : n ∉ argsNames P T args := fun h => hn (List.mem_append_right _ h)
        obtain ⟨hbuiltin, hwell⟩ := hwell
        unfold vecBuiltinFacts at hf
        split at hf
        · exact vecFacts_true hne hargs heval hwell f hf
        · next a b =>
          obtain ⟨rfl, hself, hfit⟩ := hwell
          have hop : builtinOp "push" [a, b] = some .push := by
            simp [builtinOp] at hbuiltin ⊢
            exact hbuiltin
          exact pushFacts_true hne hargs heval hop hself hfit f hf
        · obtain ⟨rfl, hlen⟩ := hwell
          exact cloneFacts_true hne hargs heval hlen f hf
        · next a i b =>
          obtain ⟨rfl, hself⟩ := hwell
          have hop : builtinOp "set" [a, i, b] = some .set := by
            simp [builtinOp] at hbuiltin ⊢
            exact hbuiltin
          exact setFacts_true hne hargs heval hop hself f hf
        · cases hf
    · next es =>
      split at hf
      · cases hf
      · obtain ⟨vs, v₁, hr, hargs, _⟩ := Eval.strict_inv heval rfl
        exact elementFacts_of_literal hne hn (Eval.gives_args hargs).2 hwell f hf
    · next base =>
      split at hf
      · cases List.mem_singleton.1 hf
        obtain rfl : v' = v := hwell
        have hbase : base ≠ n := fun h => hn (h ▸ List.mem_singleton.2 rfl)
        have hb : Gives P T (σ.declare n v') (.var base) v' :=
          heval.transfer (sameFor_declare σ v' hn)
        exact (Gives.arrayEq (lookup_declare_self hne) (Eval.var_inv hb)
          (same_refl v')).evalsTrue
      · cases hf
    · cases hf

/-! ## Clauses of a callee -/

/-- The callee keeps a clause for the values its arguments have and the result `v'`: the
clause is true where its parameters stand for these. Borrowed-for-writing arguments,
arguments that depend on the new name, and clauses with binders are out. -/
structure ClauseKept (P : Prims W) (T : Nominal) (params : List String) (args : List Expr)
    (n : String) (σ : Store W) (v' : Value) (clause : Expr) : Prop where
  plain : plain P T clause = true
  closed : ∀ p, exprMentions p clause = true → p = returnName ∨ p ∈ params
  notEnum : T.isEnum n = false
  arg : ∀ p a, exprMentions p clause = true → p ≠ returnName →
    (params.zip args).lookup p = some a →
    isRefMut a = false ∧ n ∉ exprNames P T a ∧ ∀ m, a = .var m → T.isEnum m = false
  met : ∃ scope : Scope, scope returnName = some v' ∧
    (∀ p a, exprMentions p clause = true → p ≠ returnName →
      (params.zip args).lookup p = some a → ∃ u, scope p = some u ∧ Gives P T σ a u) ∧
    EvalsTrue P T ⟨[scope], fun _ => none, σ.world⟩ clause

/-- A parameter has an argument. -/
theorem lookup_zip {params : List String} {args : List Expr} {p : String}
    (hp : p ∈ params) (hlen : args.length = params.length) :
    ∃ a, (params.zip args).lookup p = some a := by
  induction params generalizing args with
  | nil => cases hp
  | cons q params ih =>
    cases args with
    | nil => cases hlen
    | cons a args =>
      rw [List.zip_cons_cons, List.lookup_cons]
      by_cases hpq : p = q
      · exact ⟨a, by simp [hpq]⟩
      · have hrest := ih ((List.mem_cons.1 hp).resolve_left hpq) (Nat.succ.inj hlen)
        rwa [show (p == q) = false from beq_eq_false_iff_ne.2 hpq]

/-- A kept clause is a true fact about the new binding. -/
theorem clause_true {params : List String} {args : List Expr} {n : String} {v' : Value}
    {clause : Expr} (hne : σ.scopes ≠ []) (hlen : args.length = params.length)
    (hkept : ClauseKept P T params args n σ v' clause) :
    EvalsTrue P T (σ.declare n v')
      (substituteExpr ((returnName, .var n) :: params.zip args) clause) := by
  obtain ⟨scope, hret, hscope, σ₁, w, htrue⟩ := hkept.met
  have hlook : ∀ p, lookupScopes [scope] p = scope p := by
    intro p
    cases h : scope p <;> simp [lookupScopes, h]
  have hsub : ∀ p, exprMentions p clause = true → p ≠ returnName →
      ∃ a, (params.zip args).lookup p = some a ∧
        substituteExpr ((returnName, .var n) :: params.zip args) (.var p) = a := by
    intro p hp hne
    obtain ⟨a, ha⟩ := lookup_zip ((hkept.closed p hp).resolve_left hne) hlen
    refine ⟨a, ha, ?_⟩
    rw [substituteExpr, List.lookup_cons, show (p == returnName) = false from
      beq_eq_false_iff_ne.2 hne]
    simp [ha]
  have hself : substituteExpr ((returnName, .var n) :: params.zip args) (.var returnName) =
      .var n := by
    rw [substituteExpr, List.lookup_cons, beq_self_eq_true]
    rfl
  have hcarries : Carries P T ((returnName, .var n) :: params.zip args)
      (fun p => exprMentions p clause = true) ⟨[scope], fun _ => none, σ.world⟩
      (σ.declare n v') := by
    refine ⟨fun p u hp hu => ?_, fun p hp => ?_, fun p m hp hpe hm => ?_⟩
    · have hu : scope p = some u := by
        rw [Store.lookup, hlook] at hu
        cases hs : scope p <;> simp [hs] at hu
        rw [hu]
      by_cases hpr : p = returnName
      · subst hpr
        rw [hret] at hu
        cases hu
        rw [hself]
        exact Gives.var (lookup_declare_self hne)
      · obtain ⟨a, ha, hsub⟩ := hsub p hp hpr
        obtain ⟨u', hu', hgive⟩ := hscope p a hp hpr ha
        rw [hu] at hu'
        cases hu'
        rw [hsub]
        exact hgive.transfer (sameFor_declare σ v' (hkept.arg p a hp hpr ha).2.1)
    · by_cases hpr : p = returnName
      · rw [hpr, hself]; rfl
      · obtain ⟨a, ha, hsub⟩ := hsub p hp hpr
        rw [hsub]
        exact (hkept.arg p a hp hpr ha).1
    · by_cases hpr : p = returnName
      · rw [hpr, hself] at hm
        cases hm
        exact hkept.notEnum
      · obtain ⟨a, ha, hsub⟩ := hsub p hp hpr
        rw [hsub] at hm
        exact (hkept.arg p a hp hpr ha).2.2 m hm
  exact ⟨_, _, Eval.substitute htrue hkept.plain hcarries⟩

/-- The clauses recorded for a call are true of the store the `let` leaves. -/
theorem ensuresFacts_true {signatures : String → Option Signature} {g : String}
    {args : List Expr} {n : String} {v' : Value} (hne : σ.scopes ≠ [])
    (hkept : ∀ sig, signatures g = some sig → args.length = sig.paramNames.length →
      ∀ clause, clause ∈ sig.ensures → ClauseKept P T sig.paramNames args n σ v' clause) :
    ∀ f, f ∈ ensuresFacts signatures g args n → EvalsTrue P T (σ.declare n v') f := by
  intro f hf
  rw [ensuresFacts] at hf
  cases hsig : signatures g with
  | none => rw [hsig] at hf; cases hf
  | some sig =>
    simp only [hsig] at hf
    split at hf
    · cases hf
    · next hcond =>
      have hlen : args.length = sig.paramNames.length := by
        by_contra h
        exact hcond (by simp [h])
      obtain ⟨clause, hmem, rfl⟩ := List.mem_map.1 hf
      exact clause_true hne hlen (hkept sig hsig hlen clause hmem)

/-! ## Element assignments -/

/-- A fact about an array stays true of its former contents under the versioned name. -/
theorem pinned_holds {n : String} {k : Nat} {v : Value} {f : Expr}
    (hplain : Vani.Analysis.plain P T f = true) (henum : T.isEnum (versioned n k) = false)
    (hn : σ.lookup n = some v) (hold : τ.lookup (versioned n k) = some v)
    (hrest : ∀ m, exprMentions m f = true → m ≠ n → τ.lookup m = σ.lookup m)
    (h : Holds P T σ f) : Holds P T τ (pinVarToVersion n k f) := by
  intro hres
  have hresolves : Resolves P T σ f := by
    intro m _ hm he hs
    by_cases hmn : m = n
    · rw [hmn, hn]; rfl
    · rw [← hrest m hm hmn]
      have hmention := exprMentions_pin k hmn f hm
      exact hres m (names_of_mentions _ (plain_pin henum f hplain) hmention) hmention he hs
  obtain ⟨σ₁, w, htrue⟩ := h hresolves
  have hcarries : Carries P T [(n, .var (versioned n k))]
      (fun m => exprMentions m f = true) σ τ := by
    have hvar : ∀ m, substituteExpr [(n, .var (versioned n k))] (.var m) =
        if m = n then .var (versioned n k) else .var m := by
      intro m
      rw [← pinVarToVersion_eq, pinVarToVersion]
    refine ⟨fun m u hm hu => ?_, fun m _ => isRefMut_pinVar n k m, fun m m' _ he hm => ?_⟩
    · rw [hvar]
      by_cases hmn : m = n
      · rw [if_pos hmn]
        rw [hmn, hn] at hu
        cases hu
        exact Gives.var hold
      · rw [if_neg hmn]
        exact Gives.var ((hrest m hm hmn).trans hu)
    · rw [hvar] at hm
      split at hm <;> cases hm
      · exact henum
      · exact he
  rw [pinVarToVersion_eq]
  exact ⟨_, _, Eval.substitute htrue hplain hcarries⟩

end Vani.Analysis

import Vani.Analysis.FreeNames

/-!
# Bodies with the same runs

Two fragments have the same runs when they take the same memories to the same endings and
memories. Having the same runs is kept by everything a fragment can be part of: more
statements around it, a branch, a loop, a task.
-/

set_option autoImplicit false

namespace Vani.Analysis

open Vani.Program Vani.Model

variable {W : Type} {S : Setting W}

/-! ## Endings -/

/-- The fragments that end with a value. -/
def isValued : Fragment → Bool
  | .expr _ | .body _ (some _) => true
  | _ => false

/-- The endings a fragment can have. -/
def Fits (c : Fragment) : Ending → Prop
  | .exit _ => True
  | .value _ => isValued c = true
  | .values _ => ∃ es, c = .args es
  | .done => isValued c = false ∧ ∀ es, c ≠ .args es

/-- Fragments of one kind have the same endings. -/
theorem Fits.congr {c c' : Fragment} {r : Ending} (h : Fits c r)
    (hvalued : isValued c = isValued c') (hargs : ∀ es, c ≠ .args es)
    (hargs' : ∀ es, c' ≠ .args es) : Fits c' r := by
  cases r with
  | exit x => trivial
  | value v => exact hvalued.symm.trans h
  | values vs => obtain ⟨es, rfl⟩ := h; exact absurd rfl (hargs es)
  | done => exact ⟨hvalued ▸ h.1, hargs'⟩

/-- A run ends as its fragment does. -/
theorem exec_fits {c : Fragment} {r : Ending} {σ σ' : Memory W} (h : Exec S c σ r σ') :
    Fits c r := by
  induction h with
  | early _ _ _ => trivial
  | atom _ => rfl
  | operate _ _ _ _ => rfl
  | choose _ _ _ _ _ _ ih => exact ih.congr rfl nofun nofun
  | block _ ih => exact ih.congr rfl nofun nofun
  | @try_ e u r σ σ' _ hres _ =>
    have hleave : ∀ v, tryResult.leave S.early v = some r → Fits (.expr (.try_ e)) r := by
      intro v hv
      rw [tryResult.leave] at hv
      split at hv <;> cases hv
      trivial
    unfold tryResult at hres
    split at hres
    · split at hres
      · split at hres
        · cases hres; rfl
        · exact hleave _ hres
      · exact hleave _ hres
    · cases hres
  | argsNil => exact ⟨_, rfl⟩
  | @argsCons e es v r σ σ' σ'' _ _ _ ih =>
    cases r with
    | exit x => trivial
    | values vs => exact ⟨_, rfl⟩
    | value v => cases ih
    | done => exact absurd rfl (ih.2 es)
  | simple _ _ _ _ => exact ⟨rfl, nofun⟩
  | @return_ e r σ σ' _ ih =>
    cases r with
    | exit x => trivial
    | value v => trivial
    | values vs => obtain ⟨es, hes⟩ := ih; cases hes
    | done => cases ih.1
  | break_ => trivial
  | continue_ => trivial
  | if_ _ _ _ ih => exact ih.congr rfl nofun nofun
  | while_ _ ih => exact ih.congr rfl nofun nofun
  | for_ _ _ _ _ _ ih => exact ih.congr rfl nofun nofun
  | forIter _ _ ih => exact ih.congr rfl nofun nofun
  | whileFalse _ _ => exact ⟨rfl, nofun⟩
  | whileTrue _ _ _ ih => exact ih.congr rfl nofun nofun
  | stop _ => exact ⟨rfl, nofun⟩
  | go _ _ ih => exact ih.congr rfl nofun nofun
  | again _ _ _ _ _ _ ih => exact ih.congr rfl nofun nofun
  | @leave lp r r' bs bs' σ σ' _ _ hleaves _ =>
    unfold Ending.leaves at hleaves
    split at hleaves <;> cases hleaves
    · exact ⟨rfl, nofun⟩
    · trivial
  | nil => exact ⟨rfl, nofun⟩
  | @tail e r σ σ' _ ih =>
    cases r with
    | exit x => trivial
    | value v => rfl
    | values vs => obtain ⟨es, hes⟩ := ih; cases hes
    | done => cases ih.1
  | @bind s ss tail e v r bs bs' σ σ' σ'' _ _ _ _ _ _ ih =>
    exact ih.congr (by cases tail <;> rfl) nofun nofun
  | @spawn n b ss tail h u r r' σ σ' σ'' _ _ _ ih =>
    exact ih.congr (by cases tail <;> rfl) nofun nofun
  | @next s ss tail r σ σ' σ'' _ _ _ ih =>
    exact ih.congr (by cases tail <;> rfl) nofun nofun

/-! ## Bodies that end in a return -/

theorem exec_tail_iff {e : Expr} {r : Ending} {σ σ' : Memory W} :
    Exec S (.body [] (some e)) σ r σ' ↔ ∃ r', Exec S (.expr e) σ r' σ' ∧ r = r'.settle := by
  constructor
  · intro h
    cases h with
    | early hfirst _ => cases hfirst
    | tail h => exact ⟨_, h, rfl⟩
  · rintro ⟨r', h, rfl⟩
    exact .tail h

theorem exec_block_iff {ss : List Stmt} {tail : Expr} {r : Ending} {σ σ' : Memory W} :
    Exec S (.expr (.block ss tail)) σ r σ' ↔ Exec S (.body ss (some tail)) σ r σ' := by
  constructor
  · intro h
    cases h with
    | early hfirst _ => cases hfirst
    | atom ha => cases ha
    | operate hops _ _ => cases hops
    | choose hs _ _ _ _ => cases hs
    | block h => exact h
  · exact .block

theorem Ending.settle_settle (r : Ending) : r.settle.settle = r.settle := by
  cases r with
  | value v =>
    cases v with
    | scalar a => cases a <;> rfl
    | _ => rfl
  | _ => rfl

/-- The value of a body has left its construct. -/
theorem settle_of_body {ss : List Stmt} {tail : Option Expr} {r : Ending} {σ σ' : Memory W}
    (h : Exec S (.body ss tail) σ r σ') : r.settle = r := by
  induction ss generalizing r σ σ' with
  | nil =>
    cases h with
    | early _ _ => rfl
    | nil => rfl
    | tail h => exact Ending.settle_settle _
  | cons s ss ih =>
    cases h with
    | early _ _ => rfl
    | bind _ _ _ h _ => exact ih h
    | spawn _ h => exact ih h
    | next _ h => exact ih h

theorem exec_return_iff {e : Expr} {r : Ending} {σ σ' : Memory W} :
    Exec S (.stmt (.return_ e)) σ r σ' ↔
      ∃ r', Exec S (.body [] (some e)) σ r' σ' ∧ r = r'.asReturn := by
  constructor
  · intro h
    cases h with
    | early hfirst _ => cases hfirst
    | simple hops _ _ => cases hops
    | return_ h => exact ⟨_, h, rfl⟩
  · rintro ⟨r', h, rfl⟩
    exact .return_ h

/-- What a return statement ends with is an exit. -/
theorem asReturn_exit {ss : List Stmt} {e : Expr} {r : Ending} {σ σ' : Memory W}
    (h : Exec S (.body ss (some e)) σ r σ') : ∃ x, r.asReturn = .exit x := by
  have hfits := exec_fits h
  cases r with
  | value v => exact ⟨_, rfl⟩
  | exit x => exact ⟨_, rfl⟩
  | values vs => obtain ⟨es, hes⟩ := hfits; cases hes
  | done => cases hfits.1

/-- A body that ends in a return is the block of its statements, left with the block's
value. -/
theorem exec_returning_iff {ss : List Stmt} {e : Expr} {r : Ending} {σ σ' : Memory W} :
    Exec S (.body (ss ++ [.return_ e]) none) σ r σ' ↔
      ∃ r', Exec S (.body ss (some e)) σ r' σ' ∧ r = r'.asReturn := by
  induction ss generalizing r σ σ' with
  | nil =>
    constructor
    · intro h
      cases h with
      | early hfirst h =>
        cases hfirst
        exact exec_return_iff.1 h
      | bind hinit _ _ _ _ => cases hinit
      | next h _ =>
        obtain ⟨r', h, hdone⟩ := exec_return_iff.1 h
        obtain ⟨x, hx⟩ := asReturn_exit h
        cases hdone.trans hx
    · rintro ⟨r', h, rfl⟩
      obtain ⟨x, hx⟩ := asReturn_exit h
      rw [hx]
      exact .early rfl (exec_return_iff.2 ⟨r', h, hx.symm⟩)
  | cons s ss ih =>
    constructor
    · intro h
      cases h with
      | early hfirst h => exact ⟨_, .early hfirst h, rfl⟩
      | bind hinit hrun hbs h hlen =>
        obtain ⟨r', hr, rfl⟩ := ih.1 h
        exact ⟨r', .bind hinit hrun hbs hr hlen, rfl⟩
      | spawn htask h =>
        obtain ⟨r', hr, rfl⟩ := ih.1 h
        exact ⟨r', .spawn htask hr, rfl⟩
      | next hrun h =>
        obtain ⟨r', hr, rfl⟩ := ih.1 h
        exact ⟨r', .next hrun hr, rfl⟩
    · rintro ⟨r', h, rfl⟩
      cases h with
      | early hfirst h => exact .early hfirst h
      | bind hinit hrun hbs h hlen => exact .bind hinit hrun hbs (ih.2 ⟨_, h, rfl⟩) hlen
      | spawn htask h => exact .spawn htask (ih.2 ⟨_, h, rfl⟩)
      | next hrun h => exact .next hrun (ih.2 ⟨_, h, rfl⟩)

/-- A return alone. -/
theorem exec_onlyReturn_iff {e : Expr} {r : Ending} {σ σ' : Memory W} :
    Exec S (.body [.return_ e] none) σ r σ' ↔
      ∃ r', Exec S (.body [] (some e)) σ r' σ' ∧ r = r'.asReturn :=
  @exec_returning_iff _ _ [] _ _ _ _

theorem exec_nil_iff {r : Ending} {σ σ' : Memory W} :
    Exec S (.body [] none) σ r σ' ↔ r = .done ∧ σ' = σ := by
  constructor
  · intro h
    cases h with
    | early hfirst _ => cases hfirst
    | nil => exact ⟨rfl, rfl⟩
  · rintro ⟨rfl, rfl⟩
    exact .nil

/-- Binding nothing changes nothing. -/
theorem bind_nil (σ : Memory W) : σ.bind [] = σ := rfl

/-! ## The same runs -/

/-- Two fragments take the same memories to the same endings and memories. -/
def Same (S : Setting W) (c c' : Fragment) : Prop :=
  ∀ σ r σ', Exec S c σ r σ' ↔ Exec S c' σ r σ'

namespace Same

variable {c c' c'' : Fragment}

theorem refl (c : Fragment) : Same S c c := fun _ _ _ => Iff.rfl

theorem symm (h : Same S c c') : Same S c' c := fun σ r σ' => (h σ r σ').symm

theorem trans (h : Same S c c') (h' : Same S c' c'') : Same S c c'' :=
  fun σ r σ' => (h σ r σ').trans (h' σ r σ')

end Same

/-- A statement with other bodies inside it, each related to the body it stands for. -/
inductive Rebodied (R : List Stmt → List Stmt → Prop) : Stmt → Stmt → Prop
  | refl {s} : Rebodied R s s
  | if_ {c t t' f f'} : R t t' → R f f' → Rebodied R (.if_ c t f) (.if_ c t' f')
  | while_ {c invs b b'} : R b b' → Rebodied R (.while_ c invs b) (.while_ c invs b')
  | for_ {x s e invs b b' par reds} : R b b' →
      Rebodied R (.for_ x s e invs b par reds) (.for_ x s e invs b' par reds)
  | forIter {x xs consumes b b'} : R b b' →
      Rebodied R (.forIter x xs consumes b) (.forIter x xs consumes b')
  | taskSpawn {n b b'} : R b b' → Rebodied R (.taskSpawn n b) (.taskSpawn n b')

namespace Rebodied

variable {R R' : List Stmt → List Stmt → Prop} {s s' : Stmt}

theorem mono (hR : ∀ b b', R b b' → R' b b') (h : Rebodied R s s') : Rebodied R' s s' := by
  cases h with
  | refl => exact .refl
  | if_ h₁ h₂ => exact .if_ (hR _ _ h₁) (hR _ _ h₂)
  | while_ h => exact .while_ (hR _ _ h)
  | for_ h => exact .for_ (hR _ _ h)
  | forIter h => exact .forIter (hR _ _ h)
  | taskSpawn h => exact .taskSpawn (hR _ _ h)

theorem symm (hR : ∀ b b', R b b' → R b' b) (h : Rebodied R s s') : Rebodied R s' s := by
  cases h with
  | refl => exact .refl
  | if_ h₁ h₂ => exact .if_ (hR _ _ h₁) (hR _ _ h₂)
  | while_ h => exact .while_ (hR _ _ h)
  | for_ h => exact .for_ (hR _ _ h)
  | forIter h => exact .forIter (hR _ _ h)
  | taskSpawn h => exact .taskSpawn (hR _ _ h)

theorem inBodies {rewrite : List Stmt → List Stmt} (h : ∀ b, R b (rewrite b)) (s : Stmt) :
    Rebodied R s (inBodies rewrite s) := by
  cases s with
  | if_ c t f => exact .if_ (h t) (h f)
  | while_ c invs b => exact .while_ (h b)
  | for_ x a e invs b par reds => exact .for_ (h b)
  | forIter x xs consumes b => exact .forIter (h b)
  | taskSpawn n b => exact .taskSpawn (h b)
  | _ => exact .refl

/-- A statement with an initializer has no bodies inside. -/
theorem eq_of_initializer {e : Expr} (h : Rebodied R s s') (hinit : initializer s = some e) :
    s' = s := by
  cases h with
  | refl => rfl
  | _ => cases hinit

theorem initializer_eq (h : Rebodied R s s') : initializer s' = initializer s := by
  cases h <;> rfl

theorem declared_eq (h : Rebodied R s s') : declared s' = declared s := by cases h <;> rfl

/-- The free occurrences of a statement are those of its parts. -/
theorem free_eq {T : Nominal} (h : Rebodied (fun b b' => freeBody T b' [] = freeBody T b []) s s') :
    freeStmt T s' = freeStmt T s := by
  cases h with
  | refl => rfl
  | if_ h₁ h₂ => simp only [freeStmt, h₁, h₂]
  | while_ h => simp only [freeStmt, h]
  | for_ h => simp only [freeStmt, h]
  | forIter h => simp only [freeStmt, h]
  | taskSpawn h => simp only [freeStmt, h]

end Rebodied

/-- A statement with bodies inside it that have the same runs. -/
abbrev AlikeStmt (S : Setting W) : Stmt → Stmt → Prop :=
  Rebodied fun b b' => Same S (.body b none) (.body b' none)

/-- A loop with another body. -/
def Loop.withBody (b : List Stmt) : Loop → Loop
  | .while_ c _ => .while_ c b
  | .range x limit _ => .range x limit b
  | .each x xs k total _ => .each x xs k total b

/-- A fragment that is a loop, with another body for the loop. -/
def withBody (b : List Stmt) : Fragment → Fragment
  | .test lp => .test (Loop.withBody b lp)
  | .turn lp bs => .turn (Loop.withBody b lp) bs
  | c => c

/-- The body of the loop that a fragment is. -/
def loopBody : Fragment → Option (List Stmt)
  | .test lp | .turn lp _ => some lp.body
  | _ => none

theorem next_withBody {P : Prims W} {ρ : List (String × Value)} (b : List Stmt) (lp : Loop) :
    (Loop.withBody b lp).next P ρ = lp.next P ρ := by cases lp <;> rfl

theorem body_withBody (b : List Stmt) (lp : Loop) : (Loop.withBody b lp).body = b := by
  cases lp <;> rfl

theorem advance_withBody {P : Prims W} {ρ ρ' : List (String × Value)} {lp lp' : Loop}
    (b : List Stmt) (h : lp.advance P ρ = some (lp', ρ')) :
    (Loop.withBody b lp).advance P ρ = some (Loop.withBody b lp', ρ') ∧ lp'.body = lp.body := by
  cases lp with
  | while_ c body => cases h; exact ⟨rfl, rfl⟩
  | range x limit body =>
    rw [Loop.advance] at h
    split at h
    case h_2 => cases h
    next t flexible k hlook =>
      obtain ⟨v, hv, heq⟩ := Option.map_eq_some_iff.1 h
      cases heq
      refine ⟨?_, rfl⟩
      rw [Loop.withBody, Loop.advance, hlook]
      simp only [hv, Option.map_some]
  | each x xs k total body => cases h; exact ⟨rfl, rfl⟩

/-- A loop runs alike with a body that has the same runs. -/
theorem exec_withBody {c : Fragment} {b b' : List Stmt} {r : Ending} {σ σ' : Memory W}
    (hsame : Same S (.body b none) (.body b' none)) (h : Exec S c σ r σ') :
    loopBody c = some b → Exec S (withBody b' c) σ r σ' := by
  induction h with
  | @early c c' x σ σ' hfirst hrun ih =>
    intro hb
    cases c with
    | test lp =>
      cases lp with
      | while_ cond body => cases hfirst; exact .early rfl hrun
      | range x limit body => cases hfirst
      | each x xs k total body => cases hfirst
    | turn lp bs => cases hfirst
    | _ => cases hb
  | whileFalse hrun ih => exact fun _ => .whileFalse hrun
  | whileTrue hrun hturn ih ihturn => exact fun hb => .whileTrue hrun (ihturn hb)
  | stop hnext => exact fun _ => .stop ((next_withBody _ _).trans hnext)
  | go hnext hturn ih => exact fun hb => .go ((next_withBody _ _).trans hnext) (ih hb)
  | again hbody hlen hgoes hadv hloop ihbody ihloop =>
    intro hb
    cases hb
    obtain ⟨hadv', hbody'⟩ := advance_withBody b' hadv
    refine .again ?_ hlen hgoes hadv' (ihloop (congrArg some hbody'))
    rw [body_withBody]
    exact (hsame _ _ _).1 hbody
  | leave hbody hlen hleaves ih =>
    intro hb
    cases hb
    refine .leave ?_ hlen hleaves
    rw [body_withBody]
    exact (hsame _ _ _).1 hbody
  | _ => intro hb; cases hb

/-- A statement runs as one with alike bodies does. -/
theorem exec_alikeStmt {s s' : Stmt} {r : Ending} {σ σ' : Memory W} (hs : AlikeStmt S s s')
    (h : Exec S (.stmt s) σ r σ') : Exec S (.stmt s') σ r σ' := by
  cases hs with
  | refl => exact h
  | if_ ht hf =>
    cases h with
    | early hfirst h => exact .early hfirst h
    | simple hops _ _ => cases hops
    | @if_ c t f b r σ σ₁ σ₂ hrun h =>
      refine .if_ hrun ?_
      cases b with
      | true => exact (ht _ _ _).1 h
      | false => exact (hf _ _ _).1 h
  | while_ hb =>
    cases h with
    | early hfirst h => cases hfirst
    | simple hops _ _ => cases hops
    | while_ h => exact .while_ (exec_withBody hb h rfl)
  | for_ hb =>
    cases h with
    | early hfirst h => exact .early hfirst h
    | simple hops _ _ => cases hops
    | for_ hrun hk hl h => exact .for_ hrun hk hl (exec_withBody hb h rfl)
  | forIter hb =>
    cases h with
    | early hfirst h => cases hfirst
    | simple hops _ _ => cases hops
    | forIter hlook h => exact .forIter hlook (exec_withBody hb h rfl)
  | taskSpawn hb =>
    cases h with
    | early hfirst h => cases hfirst
    | simple hops _ _ => cases hops

/-- Alike statements before alike rests make alike bodies. -/
theorem exec_alike_cons {s s' : Stmt} {ss ss' : List Stmt} {tail tail' : Option Expr}
    {r : Ending} {σ σ' : Memory W} (hs : AlikeStmt S s s')
    (hrest : Same S (.body ss tail) (.body ss' tail'))
    (h : Exec S (.body (s :: ss) tail) σ r σ') : Exec S (.body (s' :: ss') tail') σ r σ' := by
  cases h with
  | early hfirst h =>
    cases hfirst
    cases hi : initializer s with
    | none =>
      rw [hi] at h
      exact .early (by rw [first, hs.initializer_eq, hi]; rfl) (exec_alikeStmt hs h)
    | some e =>
      cases hs.eq_of_initializer hi
      exact .early rfl h
  | bind hinit hrun hbs h hlen =>
    cases hs.eq_of_initializer hinit
    exact .bind hinit hrun hbs ((hrest _ _ _).1 h) hlen
  | spawn htask h =>
    cases hs with
    | refl => exact .spawn htask ((hrest _ _ _).1 h)
    | taskSpawn hb => exact .spawn ((hb _ _ _).1 htask) ((hrest _ _ _).1 h)
  | next hrun h => exact .next (exec_alikeStmt hs hrun) ((hrest _ _ _).1 h)

theorem Same.cons {s s' : Stmt} {ss ss' : List Stmt} {tail tail' : Option Expr}
    (hs : AlikeStmt S s s') (hrest : Same S (.body ss tail) (.body ss' tail')) :
    Same S (.body (s :: ss) tail) (.body (s' :: ss') tail') :=
  fun _ _ _ => ⟨exec_alike_cons hs hrest, exec_alike_cons (hs.symm fun _ _ => Same.symm) hrest.symm⟩

theorem Same.append {ss ss' : List Stmt} {tail tail' : Option Expr} (front : List Stmt)
    (hrest : Same S (.body ss tail) (.body ss' tail')) :
    Same S (.body (front ++ ss) tail) (.body (front ++ ss') tail') := by
  induction front with
  | nil => exact hrest
  | cons s front ih => exact .cons .refl ih

theorem Same.stmts {ss ss' : List Stmt} (tail : Option Expr)
    (h : List.Forall₂ (AlikeStmt S) ss ss') : Same S (.body ss tail) (.body ss' tail) := by
  induction h with
  | nil => exact .refl _
  | cons hs _ ih => exact .cons hs ih

end Vani.Analysis

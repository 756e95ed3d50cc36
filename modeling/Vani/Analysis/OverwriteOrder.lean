import Vani.Backend.EmitAssign
import Mathlib.Data.List.Nodup

/-!
# The order of an overwrite

An assignment to a variable evaluates its right-hand side into a temporary before it releases
the old value; one to a field or an element releases first, and one to an element evaluates
the index again in every statement. What is released is what stands at the leaves the emitter
knows: the strings and vectors of a struct, and the payload of an enum that is one.
-/

set_option autoImplicit false

namespace Vani.Analysis

open Vani.Program Vani.Backend

/-! ## The log of an assignment -/

section Log

variable {V ι : Type}

/-- The values the right-hand side was evaluated to. -/
def rhsValues (es : List (AssignEvent V ι)) : List V :=
  es.filterMap fun
    | .rhs v => some v
    | _ => none

/-- The stores, each with the value it replaced. -/
def stores (es : List (AssignEvent V ι)) : List (ι × V) :=
  es.filterMap fun
    | .store i old => some (i, old)
    | _ => none

/-- The pieces of heap memory that were released. -/
def releasedIds (es : List (AssignEvent V ι)) : List Nat :=
  es.filterMap fun
    | .release id => some id
    | _ => none

/-- The evaluations of the index expression. -/
def indexings (es : List (AssignEvent V ι)) : Nat :=
  es.countP fun
    | .index => true
    | _ => false

/-- The right-hand side has not been evaluated yet. -/
def beforeRhs : AssignEvent V ι → Bool
  | .rhs _ => false
  | _ => true

/-- The events of releasing some pieces of heap memory. -/
def releases (ids : List Nat) : List (AssignEvent V ι) := ids.map .release

variable (ids : List Nat)

@[simp] theorem rhsValues_releases : rhsValues (releases ids : List (AssignEvent V ι)) = [] := by
  rw [rhsValues, releases, List.filterMap_map]
  exact List.filterMap_eq_nil_iff.mpr fun id _ => rfl

@[simp] theorem stores_releases : stores (releases ids : List (AssignEvent V ι)) = [] := by
  rw [stores, releases, List.filterMap_map]
  exact List.filterMap_eq_nil_iff.mpr fun id _ => rfl

@[simp] theorem releasedIds_releases :
    releasedIds (releases ids : List (AssignEvent V ι)) = ids := by
  rw [releasedIds, releases, List.filterMap_map]
  exact List.filterMap_some

@[simp] theorem takeWhile_releases (es : List (AssignEvent V ι)) :
    (releases ids ++ es).takeWhile beforeRhs = releases ids ++ es.takeWhile beforeRhs := by
  induction ids with
  | nil => rfl
  | cons id ids ih => exact congrArg (AssignEvent.release id :: ·) ih

/-- The log of an assignment without an index: what is released before the right-hand side is
evaluated, and what after. -/
def assignLog (pre : List Nat) (v : V) (post : List Nat) (i : ι) (old : V) :
    List (AssignEvent V ι) :=
  releases pre ++ .rhs v :: (releases post ++ [.store i old])

variable (es fs : List (AssignEvent V ι))

@[simp] theorem rhsValues_append : rhsValues (es ++ fs) = rhsValues es ++ rhsValues fs :=
  List.filterMap_append

@[simp] theorem stores_append : stores (es ++ fs) = stores es ++ stores fs :=
  List.filterMap_append

@[simp] theorem releasedIds_append : releasedIds (es ++ fs) = releasedIds es ++ releasedIds fs :=
  List.filterMap_append

@[simp] theorem indexings_append : indexings (es ++ fs) = indexings es + indexings fs :=
  List.countP_append

end Log

variable {T : TypeTables} {ty : Ty} {ι σ : Type}

/-- A place was overwritten as it should be: the right-hand side was evaluated once and before
any release, one value was stored and it is what the place holds, what the value before it
owned was released and nothing else, each piece once, and the index was evaluated once. -/
structure Overwritten (indexed : Bool) (es : List (AssignEvent (PlaceValue T ty) ι))
    (mem : ι → PlaceValue T ty) : Prop where
  early : releasedIds (es.takeWhile beforeRhs) = []
  stored : ∃ v i old, rhsValues es = [v] ∧ stores es = [(i, old)] ∧ mem i = v ∧
    (releasedIds es).Perm old.owned
  index_once : indexed = true → indexings es = 1

/-- Without an index, nothing may be released before the right-hand side is evaluated, and
after it what the place owns. -/
theorem overwritten_iff {pre post : List Nat} {v old : PlaceValue T ty} {i : ι}
    {mem : ι → PlaceValue T ty} (hmem : mem i = v) :
    Overwritten false (assignLog pre v post i old) mem ↔ pre = [] ∧ post.Perm old.owned := by
  have hrhs : rhsValues (assignLog pre v post i old) = [v] := by
    rw [assignLog, rhsValues_append, rhsValues_releases]
    exact congrArg (v :: ·) ((rhsValues_append _ _).trans (by rw [rhsValues_releases]; rfl))
  have hstores : stores (assignLog pre v post i old) = [(i, old)] := by
    rw [assignLog, stores_append, stores_releases]
    exact (stores_append _ _).trans (by rw [stores_releases]; rfl)
  have hreleased : releasedIds (assignLog pre v post i old) = pre ++ post := by
    rw [assignLog, releasedIds_append, releasedIds_releases]
    refine congrArg (pre ++ ·) ((releasedIds_append _ _).trans ?_)
    rw [releasedIds_releases]
    exact List.append_nil post
  have hearly : releasedIds ((assignLog pre v post i old).takeWhile beforeRhs) = pre := by
    rw [assignLog, takeWhile_releases, releasedIds_append, releasedIds_releases]
    exact List.append_nil pre
  constructor
  · rintro ⟨early, ⟨v', i', old', -, hs, -, hperm⟩, -⟩
    rw [hearly] at early
    rw [hstores] at hs
    obtain ⟨rfl, rfl⟩ : i = i' ∧ old = old' := by simpa using hs
    rw [hreleased, early] at hperm
    exact ⟨early, hperm⟩
  · rintro ⟨rfl, hperm⟩
    refine ⟨hearly, ⟨v, i, old, hrhs, hstores, hmem, ?_⟩, fun h => absurd h (by decide)⟩
    rw [hreleased]
    exact hperm

/-! ## What the emitted statements release -/

/-- The statement that releases a leaf. -/
def freeOf (leaf : List String × Ty) : Option AssignStmt :=
  match leaf.2 with
  | .ownedStr => some (.freeStr leaf.1)
  | .vec element => some (.freeVec element leaf.1)
  | _ => none

theorem emitStructFieldDrops_eq (T : TypeTables) (n : Nat) (path : List String) (s : String) :
    emitStructFieldDrops T n path s = ((leavesBelow T n path s).filterMap freeOf).reverse := by
  induction n generalizing path s with
  | zero => rfl
  | succ n ih =>
    rw [emitStructFieldDrops, leavesBelow, List.flatMap_reverse, List.filterMap_flatMap]
    refine congrArg List.reverse (congrFun (congrArg List.flatMap (funext ?_)) _)
    rintro ⟨fieldName, fieldTy⟩
    dsimp only [Function.comp]
    split
    · rfl
    · rfl
    · rw [ih, List.reverse_reverse]
    · rename_i hstr hvec hstruct
      have hnone : freeOf (path ++ [fieldName], fieldTy) = none := by
        unfold freeOf
        split
        · exact absurd ‹_› hstr
        · exact absurd ‹_› (hvec _)
        · rfl
      split
      · exact absurd rfl (hstruct _)
      · rw [List.filterMap_cons_none hnone]
        rfl

/-- More than enough depth changes nothing. -/
theorem leavesBelow_enough (T : TypeTables) {n m : Nat} {path : List String} {s : String}
    (hn : T.rank s < n) (hm : T.rank s < m) : leavesBelow T n path s = leavesBelow T m path s := by
  induction n generalizing m path s with
  | zero => omega
  | succ n ih =>
    obtain ⟨m, rfl⟩ : ∃ k, m = k + 1 := ⟨m - 1, by omega⟩
    rw [leavesBelow, leavesBelow]
    refine List.flatMap_congr fun field hfield => ?_
    obtain ⟨fieldName, fieldTy⟩ := field
    dsimp only
    split
    · have hlt := T.rank_lt hfield
      exact ih (by omega) (by omega)
    · rfl

/-- A struct without a field that owns something releases nothing, however deep. -/
theorem emitStructFieldDrops_copy (T : TypeTables) {n : Nat} {path : List String} {s : String}
    (hcopy : ∀ f ∈ T.structFields s, f.2.isCopy T.nonCopy = true) :
    emitStructFieldDrops T n path s = [] := by
  induction n generalizing path s with
  | zero => rfl
  | succ n ih =>
    rw [emitStructFieldDrops, List.flatMap_eq_nil_iff]
    rintro ⟨fieldName, fieldTy⟩ hmem
    have hfield : fieldTy.isCopy T.nonCopy = true := hcopy _ (List.mem_reverse.mp hmem)
    dsimp only
    split
    · exact absurd hfield (by rw [Ty.isCopy]; exact Bool.false_ne_true)
    · exact absurd hfield (by rw [Ty.isCopy]; exact Bool.false_ne_true)
    · apply ih
      intro f hf
      by_contra hnot
      have := T.struct_owns hf (Bool.not_eq_true _ ▸ hnot)
      rw [hfield] at this
      cases this
    · rfl

theorem emitRelease_struct (T : TypeTables) (s : String) :
    emitRelease T (.struct s) = emitStructFieldDrops T (T.rank s + 1) [] s := by
  rw [emitRelease]
  split_ifs with hany
  · rfl
  · refine (emitStructFieldDrops_copy T fun f hf => ?_).symm
    by_contra hnot
    exact hany (List.any_eq_true.mpr ⟨f, hf, by simpa using hnot⟩)

/-- The emitter releases what is at the leaf of a place. -/
def covered (T : TypeTables) (place leaf : Ty) : Bool :=
  match place with
  | .enum enumName => (T.enumPayload enumName).any heapShaped
  | _ => heapShaped leaf

/-- The pieces of heap memory in a place that the emitted statements release. -/
def coveredParts {T : TypeTables} {ty : Ty} (v : PlaceValue T ty) : List HeapPart :=
  ((leaves T ty).filter fun leaf => covered T ty leaf.2).flatMap fun leaf => (v.at_ leaf.1).parts

/-- The release of the place is C: a payload to free is a member of the enum. -/
def Compiles (T : TypeTables) (place : Ty) : Prop :=
  ∀ enumName, place = .enum enumName → (T.enumPayload enumName).any heapShaped = true →
    T.mixedPayloads enumName = false

theorem freeOf_eq_none {leaf : List String × Ty} :
    freeOf leaf = none ↔ heapShaped leaf.2 = false := by
  obtain ⟨path, t⟩ := leaf
  cases t <;> simp [freeOf, heapShaped]

theorem emitPayloadFree_eq (T : TypeTables) (e : String) :
    emitPayloadFree T e =
      if (T.enumPayload e).any heapShaped then [.switchFree e (T.enumTags e)] else [] := by
  unfold emitPayloadFree
  have htags := T.payload_tags (e := e)
  split
  · rename_i h
    rw [h] at htags ⊢
    rw [if_neg (htags rfl)]
    rfl
  · rename_i h
    rw [h] at htags ⊢
    rw [if_neg (htags rfl)]
    rfl
  · rename_i hstr hvec
    rw [if_neg]
    cases hpayload : T.enumPayload e with
    | none => exact Bool.false_ne_true
    | some t =>
      rw [hpayload] at hstr hvec
      unfold heapShaped
      rw [Option.any_some]
      split
      · exact absurd rfl hstr
      · exact absurd rfl (hvec _)
      · exact Bool.false_ne_true

theorem leaves_single {T : TypeTables} {ty : Ty} (h : ∀ s, ty ≠ .struct s) :
    leaves T ty = [([], ty)] := by
  unfold leaves
  split
  · exact absurd rfl (h _)
  · rfl

/-- Nothing is released exactly where no leaf is one the emitter knows. -/
theorem emitRelease_eq_nil {T : TypeTables} {ty : Ty} :
    emitRelease T ty = [] ↔ ∀ leaf ∈ leaves T ty, covered T ty leaf.2 = false := by
  cases hty : ty with
  | struct s =>
    rw [emitRelease_struct, emitStructFieldDrops_eq, List.reverse_eq_nil_iff,
      List.filterMap_eq_nil_iff]
    exact forall₂_congr fun leaf _ => freeOf_eq_none
  | enum e =>
    rw [emitRelease, emitPayloadFree_eq, leaves_single fun _ => Ty.noConfusion]
    simp [covered]
  | _ => simp [emitRelease, leaves, covered, heapShaped]

section Unindexed

variable [DecidableEq ι] (env : AssignEnv (PlaceValue T ty) ι σ)

theorem runStmts_append (indexed : Bool) (xs ys : List AssignStmt)
    (s : AssignState (PlaceValue T ty) ι σ) :
    runStmts env indexed (xs ++ ys) s =
      (runStmts env indexed xs s).bind (runStmts env indexed ys) := by
  induction xs generalizing s with
  | nil => rfl
  | cons x xs ih =>
    rw [List.cons_append, runStmts, runStmts, Option.bind_assoc]
    exact congrArg _ (funext ih)

/-- The place of an assignment without an index, after some pieces of heap memory were
released. -/
def afterRelease (s : AssignState (PlaceValue T ty) ι σ) (parts : List HeapPart) :
    AssignState (PlaceValue T ty) ι σ :=
  { s with log := s.log ++ releases (parts.map HeapPart.id) }

theorem runStmts_frees (ls : List (List String × Ty)) (s : AssignState (PlaceValue T ty) ι σ) :
    runStmts env false (ls.filterMap freeOf) s =
      some (afterRelease s ((ls.filter fun leaf => heapShaped leaf.2).flatMap fun leaf =>
        ((s.mem env.home).at_ leaf.1).parts)) := by
  induction ls generalizing s with
  | nil => simp [runStmts, afterRelease, releases]
  | cons leaf ls ih =>
    cases hfree : freeOf leaf with
    | none =>
      rw [List.filterMap_cons_none hfree, ih,
        List.filter_cons_of_neg (by rw [freeOf_eq_none.mp hfree]; exact Bool.false_ne_true)]
    | some stmt =>
      have hshaped : heapShaped leaf.2 = true := by
        by_contra hnot
        rw [freeOf_eq_none.mpr (Bool.not_eq_true _ ▸ hnot)] at hfree
        cases hfree
      have hrun : stmt.run env false s =
          some (afterRelease s ((s.mem env.home).at_ leaf.1).parts) := by
        unfold freeOf at hfree
        split at hfree
        · cases hfree
          simp [AssignStmt.run, locate, release, afterRelease, releases]
        · cases hfree
          simp [AssignStmt.run, locate, release, afterRelease, releases]
        · cases hfree
      have hkept : (leaf :: ls).filter (fun l => heapShaped l.2) =
          leaf :: ls.filter fun l => heapShaped l.2 := List.filter_cons_of_pos hshaped
      rw [List.filterMap_cons_some hfree, runStmts, hrun, Option.bind_some, ih, hkept,
        List.flatMap_cons]
      simp [afterRelease, releases]

theorem emitRelease_leaves (h : ∀ e, ty ≠ .enum e) :
    emitRelease T ty = (leaves T ty).reverse.filterMap freeOf := by
  cases ty with
  | struct s => rw [emitRelease_struct, emitStructFieldDrops_eq, List.filterMap_reverse]; rfl
  | enum e => exact absurd rfl (h e)
  | _ => rfl

/-- The release of the place runs, and releases what is at the leaves the emitter knows. -/
theorem runStmts_release (hc : Compiles T ty) (s : AssignState (PlaceValue T ty) ι σ) :
    ∃ parts, parts.Perm (coveredParts (s.mem env.home)) ∧
      runStmts env false (emitRelease T ty) s = some (afterRelease s parts) := by
  by_cases henum : ∃ e, ty = .enum e
  · obtain ⟨e, rfl⟩ := henum
    refine ⟨_, List.Perm.refl _, ?_⟩
    rw [emitRelease, emitPayloadFree_eq, coveredParts, leaves_single fun _ => Ty.noConfusion]
    by_cases hpayload : (T.enumPayload e).any heapShaped = true
    · have hunion : T.mixedPayloads e = false := hc e rfl hpayload
      have htagged := ((s.mem env.home).holds ([], .enum e)
        (by rw [leaves_single fun _ => Ty.noConfusion]; exact List.mem_singleton_self _)).tagged rfl
      rw [if_pos hpayload, runStmts, AssignStmt.run, hunion]
      by_cases htag : ((s.mem env.home).at_ []).tag ∈ T.enumTags e
      · simp [locate, htag, release, runStmts, afterRelease, releases, covered, hpayload]
      · have hempty : ((s.mem env.home).at_ []).parts = [] := htagged htag
        simp [locate, htag, runStmts, afterRelease, releases, hempty, covered, hpayload]
    · rw [if_neg hpayload]
      simp [runStmts, afterRelease, releases, covered, hpayload]
  · push Not at henum
    refine ⟨_, ?_, (congrArg (fun xs => runStmts env false xs s)
      (emitRelease_leaves henum)).trans (runStmts_frees env _ s)⟩
    have hcovered : (fun leaf : List String × Ty => covered T ty leaf.2) =
        fun leaf => heapShaped leaf.2 := by
      funext leaf
      unfold covered
      split
      · exact absurd rfl (henum _)
      · rfl
    rw [coveredParts, hcovered]
    exact ((List.reverse_perm _).filter _).flatMap_right _

/-- The release of a payload that is no member of its enum is not C. -/
theorem runStmts_release_none (hc : ¬Compiles T ty) (indexed : Bool)
    (s : AssignState (PlaceValue T ty) ι σ) :
    runStmts env indexed (emitRelease T ty) s = none := by
  unfold Compiles at hc
  push Not at hc
  obtain ⟨e, rfl, hpayload, hmixed⟩ := hc
  rw [emitRelease, emitPayloadFree_eq, if_pos hpayload, runStmts, AssignStmt.run,
    if_pos (Bool.not_eq_false _ ▸ hmixed)]
  rfl

end Unindexed

/-! ## When what is released is what the place owns -/

/-- The pieces of heap memory in a place, each with whether the emitter releases it. -/
def marked {T : TypeTables} {ty : Ty} (v : PlaceValue T ty) : List (Bool × HeapPart) :=
  (leaves T ty).flatMap fun leaf => (v.at_ leaf.1).parts.map (covered T ty leaf.2, ·)

theorem partsOf_eq_marked (v : PlaceValue T ty) : partsOf T ty v.at_ = (marked v).map Prod.snd := by
  rw [partsOf, marked, List.map_flatMap]
  refine List.flatMap_congr fun leaf _ => ?_
  rw [List.map_map]
  exact (List.map_id _).symm

theorem coveredParts_eq_marked (v : PlaceValue T ty) :
    coveredParts v = ((marked v).filter Prod.fst).map Prod.snd := by
  rw [coveredParts, marked]
  induction leaves T ty with
  | nil => rfl
  | cons leaf ls ih =>
    rw [List.flatMap_cons, List.filter_append, List.map_append, ← ih]
    cases hcovered : covered T ty leaf.2 with
    | true =>
      have hkept : (leaf :: ls).filter (fun l => covered T ty l.2) =
          leaf :: ls.filter fun l => covered T ty l.2 := List.filter_cons_of_pos hcovered
      rw [hkept, List.flatMap_cons, List.filter_map]
      simp [Function.comp_def]
    | false =>
      have hdropped : (leaf :: ls).filter (fun l => covered T ty l.2) =
          ls.filter fun l => covered T ty l.2 :=
        List.filter_cons_of_neg (by rw [hcovered]; exact Bool.false_ne_true)
      rw [hdropped, List.filter_map]
      simp

/-- What is live in the place is what stands at the leaves the emitter knows. -/
def LiveIsCovered {T : TypeTables} {ty : Ty} (v : PlaceValue T ty) : Prop :=
  ∀ leaf ∈ leaves T ty, ∀ part ∈ (v.at_ leaf.1).parts,
    part.live = true ↔ covered T ty leaf.2 = true

/-- The place owns nothing. -/
def NoneLive {T : TypeTables} {ty : Ty} (v : PlaceValue T ty) : Prop :=
  ∀ part ∈ partsOf T ty v.at_, part.live = false

theorem owned_eq_nil {v : PlaceValue T ty} : v.owned = [] ↔ NoneLive v := by
  rw [PlaceValue.owned, List.map_eq_nil_iff, List.filter_eq_nil_iff]
  exact forall₂_congr fun part _ => iff_of_eq (Bool.not_eq_true part.live)

/-- No piece is in the place twice, so the pieces released are those owned if they are the
same ones. -/
theorem coveredParts_perm_owned {v : PlaceValue T ty} :
    ((coveredParts v).map HeapPart.id).Perm v.owned ↔ LiveIsCovered v := by
  have hdistinct : ((marked v).map fun m => m.2.id).Nodup := by
    have h := v.distinct
    rwa [partsOf_eq_marked, List.map_map] at h
  have hcovered : (coveredParts v).map HeapPart.id =
      ((marked v).filter fun m => m.1).map fun m => m.2.id := by
    rw [coveredParts_eq_marked, List.map_map]
    rfl
  have howned : v.owned = ((marked v).filter fun m => m.2.live).map fun m => m.2.id := by
    rw [PlaceValue.owned, partsOf_eq_marked, List.filter_map, List.map_map]
    rfl
  have hone : ∀ m ∈ marked v, ∀ m' ∈ marked v, m.2.id = m'.2.id → m = m' :=
    fun m hm m' hm' h => List.inj_on_of_nodup_map hdistinct hm hm' h
  have hleaves : LiveIsCovered v ↔ ∀ m ∈ marked v, m.2.live = true ↔ m.1 = true := by
    simp only [LiveIsCovered, marked, List.mem_flatMap, List.mem_map]
    constructor
    · rintro h m ⟨leaf, hleaf, part, hpart, rfl⟩
      exact h leaf hleaf part hpart
    · intro h leaf hleaf part hpart
      exact h _ ⟨leaf, hleaf, part, hpart, rfl⟩
  rw [hcovered, howned, hleaves,
    List.perm_ext_iff_of_nodup (hdistinct.sublist (List.filter_sublist.map _))
      (hdistinct.sublist (List.filter_sublist.map _))]
  simp only [List.mem_map, List.mem_filter]
  constructor
  · intro h m hm
    constructor
    · intro hlive
      obtain ⟨m', ⟨hm', hfst⟩, hid⟩ := (h m.2.id).mpr ⟨m, ⟨hm, hlive⟩, rfl⟩
      rwa [hone m' hm' m hm hid] at hfst
    · intro hfst
      obtain ⟨m', ⟨hm', hlive⟩, hid⟩ := (h m.2.id).mp ⟨m, ⟨hm, hfst⟩, rfl⟩
      rwa [hone m' hm' m hm hid] at hlive
  · intro h id
    exact exists_congr fun m =>
      and_congr_left fun _ => and_congr_right fun hm => (h m hm).symm

theorem liveIsCovered_of_none {v : PlaceValue T ty}
    (h : ∀ leaf ∈ leaves T ty, covered T ty leaf.2 = false) : LiveIsCovered v ↔ NoneLive v := by
  constructor
  · intro hlive part hpart
    obtain ⟨leaf, hleaf, hmem⟩ := List.mem_flatMap.mp hpart
    have hiff := hlive leaf hleaf part hmem
    rw [h leaf hleaf] at hiff
    simpa using hiff
  · intro hnone leaf hleaf part hmem
    rw [h leaf hleaf, hnone part (List.mem_flatMap.mpr ⟨leaf, hleaf, hmem⟩)]

/-! ## The assignments -/

variable [DecidableEq ι]

/-- The place of an assignment without an index, after the right-hand side. -/
def afterRhs (env : AssignEnv (PlaceValue T ty) ι σ) (s : AssignState (PlaceValue T ty) ι σ) :
    PlaceValue T ty :=
  (evalRhs env s).2.mem env.home

/-- The place with an index, when both sides of the assignment have been evaluated once. -/
def slotAtStore (env : AssignEnv (PlaceValue T ty) ι σ)
    (s : AssignState (PlaceValue T ty) ι σ) : PlaceValue T ty :=
  if env.rhsFirst then
    let (i, s) := locate env true (evalRhs env s).2
    s.mem i
  else
    let (i, s) := locate env true s
    (evalRhs env s).2.mem i

/-- The store alone. -/
theorem run_assignValue (env : AssignEnv (PlaceValue T ty) ι σ)
    (s : AssignState (PlaceValue T ty) ι σ) :
    AssignStmt.run env false s .assignValue =
      some (storeAt env.home (evalRhs env s).1 (evalRhs env s).2) := by
  rw [AssignStmt.run]
  split_ifs <;> rfl

theorem run_assignTmp (env : AssignEnv (PlaceValue T ty) ι σ)
    {s : AssignState (PlaceValue T ty) ι σ} {v : PlaceValue T ty} (h : s.tmp = some v) :
    AssignStmt.run env false s .assignTmp = some (storeAt env.home v s) := by
  rw [AssignStmt.run, h]
  rfl

theorem storeAt_log (env : AssignEnv (PlaceValue T ty) ι σ) (ids : List Nat)
    (s : AssignState (PlaceValue T ty) ι σ) (hlog : s.log = releases ids) :
    (storeAt env.home (evalRhs env s).1 (evalRhs env s).2).log =
      assignLog ids (evalRhs env s).1 [] env.home (afterRhs env s) := by
  show (s.log ++ [_]) ++ [_] = _
  rw [hlog, List.append_assoc]
  rfl

theorem storeAt_mem (i : ι) (v : PlaceValue T ty) (s : AssignState (PlaceValue T ty) ι σ) :
    (storeAt i v s).mem i = v := by
  rw [storeAt]
  exact Function.update_self i v s.mem

/-- A store with nothing released before it: the place must own nothing. -/
theorem assignValue_iff (env : AssignEnv (PlaceValue T ty) ι σ)
    (s : AssignState (PlaceValue T ty) ι σ) (hlog : s.log = []) :
    (∃ s', runStmts env false [.assignValue] s = some s' ∧ Overwritten false s'.log s'.mem) ↔
      NoneLive (afterRhs env s) := by
  rw [runStmts, run_assignValue, Option.bind_some]
  simp only [runStmts, Option.some.injEq, exists_eq_left']
  rw [storeAt_log env [] s hlog, overwritten_iff (storeAt_mem _ _ _), List.nil_perm, owned_eq_nil]
  exact and_iff_right rfl

/-- The types whose old value waits for the right-hand side. -/
def staged : Ty → Bool
  | .vec _ | .ownedStr | .struct _ | .enum _ => true
  | _ => false

theorem emitReassign_staged {ty : Ty} (h : staged ty = true) :
    emitReassign T ty true = .declareTmp :: (emitRelease T ty ++ [.assignTmp]) := by
  cases ty <;> first | exact absurd h Bool.false_ne_true | skip
  case ownedStr => rfl
  case vec element => rfl
  case struct s => rw [emitRelease_struct]; rfl
  case enum e => rfl

theorem emitReassign_plain {ty : Ty} (h : staged ty = false) :
    emitReassign T ty true = [.assignValue] := by
  cases ty <;> first | exact absurd h.symm Bool.false_ne_true | rfl

theorem binding_iff (env : AssignEnv (PlaceValue T ty) ι σ)
    (s : AssignState (PlaceValue T ty) ι σ) (hlog : s.log = []) :
    (∃ s', runStmts env false (emitReassign T ty true) s = some s' ∧
      Overwritten false s'.log s'.mem) ↔
      Compiles T ty ∧ LiveIsCovered (afterRhs env s) := by
  cases hstaged : staged ty with
  | false =>
    have hnone : ∀ leaf ∈ leaves T ty, covered T ty leaf.2 = false := by
      rw [← emitRelease_eq_nil]
      cases ty <;> first | exact absurd hstaged.symm Bool.false_ne_true | rfl
    have hcompiles : Compiles T ty := by
      rintro e rfl
      exact absurd hstaged.symm Bool.false_ne_true
    rw [emitReassign_plain hstaged, assignValue_iff env s hlog, liveIsCovered_of_none hnone]
    exact (and_iff_right hcompiles).symm
  | true =>
    rw [emitReassign_staged hstaged, runStmts, AssignStmt.run, Option.bind_some, runStmts_append]
    by_cases hc : Compiles T ty
    · obtain ⟨parts, hperm, hrun⟩ := runStmts_release env hc
        { (evalRhs env s).2 with tmp := some (evalRhs env s).1 }
      have hlogged : (storeAt env.home (evalRhs env s).1
          (afterRelease { (evalRhs env s).2 with tmp := some (evalRhs env s).1 } parts)).log =
          assignLog [] (evalRhs env s).1 (parts.map HeapPart.id) env.home (afterRhs env s) := by
        show (s.log ++ [_] ++ _) ++ [_] = _
        rw [hlog, List.append_assoc]
        rfl
      have hparts : parts.Perm (coveredParts (afterRhs env s)) := hperm
      rw [hrun, Option.bind_some, runStmts, run_assignTmp env rfl, Option.bind_some]
      simp only [runStmts, Option.some.injEq, exists_eq_left']
      rw [hlogged, overwritten_iff (storeAt_mem _ _ _),
        List.Perm.congr_left (hparts.map HeapPart.id), coveredParts_perm_owned]
      simp [hc]
    · rw [runStmts_release_none env hc]
      simp [hc]

/-- A field: what is released is released before the right-hand side is evaluated. -/
theorem field_iff (env : AssignEnv (PlaceValue T ty) ι σ)
    (s : AssignState (PlaceValue T ty) ι σ) (hlog : s.log = []) :
    (∃ s', runStmts env false (emitFieldAssign T ty) s = some s' ∧
      Overwritten false s'.log s'.mem) ↔
      Compiles T ty ∧ coveredParts (s.mem env.home) = [] ∧ NoneLive (afterRhs env s) := by
  rw [emitFieldAssign, runStmts_append]
  by_cases hc : Compiles T ty
  · obtain ⟨parts, hperm, hrun⟩ := runStmts_release env hc s
    rw [hrun, Option.bind_some, runStmts, run_assignValue, Option.bind_some]
    simp only [runStmts, Option.some.injEq, exists_eq_left']
    rw [storeAt_log env (parts.map HeapPart.id) _ (by rw [afterRelease, hlog]; rfl),
      overwritten_iff (storeAt_mem _ _ _), List.nil_perm, owned_eq_nil, List.map_eq_nil_iff,
      ← List.perm_nil, List.Perm.congr_left hperm, List.perm_nil]
    exact (and_iff_right hc).symm
  · rw [runStmts_release_none env hc]
    simp [hc]

/-! ## Elements -/

section Indexings

variable (env : AssignEnv (PlaceValue T ty) ι σ) (s : AssignState (PlaceValue T ty) ι σ)

omit [DecidableEq ι] in
theorem indexings_evalRhs : indexings (evalRhs env s).2.log = indexings s.log :=
  indexings_append _ _

omit [DecidableEq ι] in
theorem indexings_locate : indexings (locate env true s).2.log = indexings s.log + 1 :=
  indexings_append _ _

omit [DecidableEq ι] in
theorem indexings_release (c : Content) : indexings (release c s).log = indexings s.log := by
  refine (indexings_append _ _).trans (Nat.add_eq_left.mpr ?_)
  rw [indexings, List.countP_eq_zero]
  intro e he
  obtain ⟨part, -, rfl⟩ := List.mem_map.mp he
  exact Bool.false_ne_true

theorem indexings_storeAt (i : ι) (v : PlaceValue T ty) :
    indexings (storeAt i v s).log = indexings s.log :=
  indexings_append _ _

end Indexings

/-- A statement that names the place evaluates the index. -/
theorem indexings_run {env : AssignEnv (PlaceValue T ty) ι σ} {stmt : AssignStmt}
    {s s' : AssignState (PlaceValue T ty) ι σ} (hstmt : stmt ≠ .declareTmp)
    (h : stmt.run env true s = some s') : indexings s.log + 1 ≤ indexings s'.log := by
  cases stmt with
  | declareTmp => exact absurd rfl hstmt
  | freeStr path =>
    obtain rfl := Option.some.inj h
    exact Nat.le_of_eq ((indexings_release _ _).trans (indexings_locate env s)).symm
  | freeVec element path =>
    obtain rfl := Option.some.inj h
    exact Nat.le_of_eq ((indexings_release _ _).trans (indexings_locate env s)).symm
  | switchFree e tags =>
    have hlocate := indexings_locate env s
    rw [AssignStmt.run] at h
    generalize locate env true s = located at h hlocate
    obtain ⟨i, s₁⟩ := located
    dsimp only at h hlocate
    split_ifs at h
    · have hagain : indexings s'.log = indexings s₁.log + 1 :=
        (congrArg (fun t => indexings t.log) (Option.some.inj h).symm).trans
          ((indexings_release _ _).trans (indexings_locate env s₁))
      omega
    · obtain rfl := Option.some.inj h
      exact Nat.le_of_eq hlocate.symm
  | assignTmp =>
    rw [AssignStmt.run] at h
    split at h
    · obtain rfl := Option.some.inj h
      exact Nat.le_of_eq ((indexings_storeAt _ _ _).trans (indexings_locate env s)).symm
    · cases h
  | assignValue =>
    rw [AssignStmt.run] at h
    split_ifs at h
    · obtain rfl := Option.some.inj h
      have hrhs := congrArg (· + 1) (indexings_evalRhs env s)
      exact Nat.le_of_eq
        ((indexings_storeAt _ _ _).trans ((indexings_locate env _).trans hrhs)).symm
    · obtain rfl := Option.some.inj h
      exact Nat.le_of_eq ((indexings_storeAt _ _ _).trans
        ((indexings_evalRhs env _).trans (indexings_locate env s))).symm

theorem indexings_runStmts {env : AssignEnv (PlaceValue T ty) ι σ} {stmts : List AssignStmt}
    {s s' : AssignState (PlaceValue T ty) ι σ} (hstmts : .declareTmp ∉ stmts)
    (h : runStmts env true stmts s = some s') :
    indexings s.log + stmts.length ≤ indexings s'.log := by
  induction stmts generalizing s with
  | nil =>
    cases h
    exact Nat.le_refl _
  | cons stmt stmts ih =>
    obtain ⟨s₁, hrun, hrest⟩ := Option.bind_eq_some_iff.mp h
    have hfirst := indexings_run (fun heq => hstmts (heq ▸ List.mem_cons_self)) hrun
    have hlast := ih (fun hmem => hstmts (List.mem_cons_of_mem _ hmem)) hrest
    rw [List.length_cons]
    omega

/-- What an assignment to an element releases first. -/
def elementRelease (T : TypeTables) (ty : Ty) (whole : Bool) : List AssignStmt :=
  if whole then emitRelease T ty else (freeOf ([], ty)).toList

theorem emitIndexAssign_eq (T : TypeTables) (ty : Ty) (whole : Bool) :
    emitIndexAssign T ty whole = elementRelease T ty whole ++ [.assignValue] := by
  cases whole with
  | true => rfl
  | false => cases ty <;> rfl

theorem declareTmp_not_mem (T : TypeTables) (ty : Ty) (whole : Bool) :
    .declareTmp ∉ elementRelease T ty whole := by
  have hfree : ∀ leaf, freeOf leaf ≠ some .declareTmp := by
    intro leaf
    unfold freeOf
    split <;> simp
  rw [elementRelease]
  split_ifs
  · by_cases henum : ∃ e, ty = .enum e
    · obtain ⟨e, rfl⟩ := henum
      rw [emitRelease, emitPayloadFree_eq]
      split_ifs <;> simp
    · push Not at henum
      rw [emitRelease_leaves henum]
      intro hmem
      obtain ⟨leaf, -, h⟩ := List.mem_filterMap.mp hmem
      exact hfree leaf h
  · intro hmem
    exact hfree _ (Option.mem_toList.mp hmem)

/-- The emitter has no release for the element. -/
def NothingToRelease (T : TypeTables) (ty : Ty) (whole : Bool) : Prop :=
  heapShaped ty = false ∧ (whole = true → ∀ leaf ∈ leaves T ty, covered T ty leaf.2 = false)

theorem elementRelease_eq_nil {ty : Ty} {whole : Bool} :
    elementRelease T ty whole = [] ↔ NothingToRelease T ty whole := by
  rw [elementRelease, NothingToRelease]
  cases whole with
  | false =>
    rw [if_neg Bool.false_ne_true, Option.toList_eq_nil_iff, freeOf_eq_none]
    exact (and_iff_left fun h => absurd h Bool.false_ne_true).symm
  | true =>
    rw [if_pos rfl, emitRelease_eq_nil]
    refine ⟨fun h => ⟨?_, fun _ => h⟩, fun h => h.2 rfl⟩
    by_contra hshaped
    rw [Bool.not_eq_false] at hshaped
    have hplain : (∀ s, ty ≠ .struct s) ∧ ∀ e, ty ≠ .enum e := by
      constructor <;> rintro name rfl <;> cases hshaped
    have hleaf := h ([], ty) (by rw [leaves_single hplain.1]; exact List.mem_singleton_self _)
    have hcovered : covered T ty ty = heapShaped ty := by
      unfold covered
      split
      · exact absurd rfl (hplain.2 _)
      · rfl
    rw [hcovered, hshaped] at hleaf
    cases hleaf

/-- The log of a store alone, in either order of its sides. -/
theorem run_assignValue_indexed (env : AssignEnv (PlaceValue T ty) ι σ)
    {s : AssignState (PlaceValue T ty) ι σ} (hlog : s.log = []) :
    ∃ v i s', AssignStmt.run env true s .assignValue = some s' ∧ s'.mem i = v ∧
      (s'.log = [.rhs v, .index, .store i (slotAtStore env s)] ∨
        s'.log = [.index, .rhs v, .store i (slotAtStore env s)]) := by
  rw [AssignStmt.run, slotAtStore]
  split_ifs
  · refine ⟨_, _, _, rfl, storeAt_mem _ _ _, Or.inl ?_⟩
    show (s.log ++ [_] ++ [_]) ++ [_] = _
    rw [hlog]
    rfl
  · refine ⟨_, _, _, rfl, storeAt_mem _ _ _, Or.inr ?_⟩
    show (s.log ++ [_] ++ [_]) ++ [_] = _
    rw [hlog]
    rfl

omit [DecidableEq ι] in
/-- Such a log releases nothing. -/
theorem overwritten_indexed_iff {es : List (AssignEvent (PlaceValue T ty) ι)}
    {mem : ι → PlaceValue T ty} {v old : PlaceValue T ty} {i : ι} (hmem : mem i = v)
    (hes : es = [.rhs v, .index, .store i old] ∨ es = [.index, .rhs v, .store i old]) :
    Overwritten true es mem ↔ NoneLive old := by
  have hlog : rhsValues es = [v] ∧ stores es = [(i, old)] ∧ releasedIds es = [] ∧
      releasedIds (es.takeWhile beforeRhs) = [] ∧ indexings es = 1 := by
    rcases hes with rfl | rfl <;> exact ⟨rfl, rfl, rfl, rfl, rfl⟩
  obtain ⟨hrhs, hstores, hreleased, hearly, hindex⟩ := hlog
  rw [← owned_eq_nil, ← List.nil_perm, ← hreleased]
  constructor
  · rintro ⟨-, ⟨v', i', old', -, hs, -, hperm⟩, -⟩
    rw [hstores] at hs
    obtain ⟨rfl, rfl⟩ : i = i' ∧ old = old' := by simpa using hs
    exact hperm
  · intro hperm
    exact ⟨hearly, ⟨v, i, old, hrhs, hstores, hmem, hperm⟩, fun _ => hindex⟩

/-- An element: with something to release, the index is evaluated again. -/
theorem element_iff (env : AssignEnv (PlaceValue T ty) ι σ)
    (s : AssignState (PlaceValue T ty) ι σ) (hlog : s.log = []) (whole : Bool) :
    (∃ s', runStmts env true (emitIndexAssign T ty whole) s = some s' ∧
      Overwritten true s'.log s'.mem) ↔
      NothingToRelease T ty whole ∧ NoneLive (slotAtStore env s) := by
  rw [emitIndexAssign_eq, ← elementRelease_eq_nil]
  by_cases hnil : elementRelease T ty whole = []
  · obtain ⟨v, i, s', hrun, hmem, hes⟩ := run_assignValue_indexed env hlog
    rw [hnil, List.nil_append, runStmts, hrun, Option.bind_some]
    simp only [runStmts, Option.some.injEq, exists_eq_left']
    rw [overwritten_indexed_iff hmem hes]
    exact (and_iff_right trivial).symm
  · refine ⟨?_, fun h => absurd h.1 hnil⟩
    rintro ⟨s', hrun, hover⟩
    have hmem : .declareTmp ∉ elementRelease T ty whole ++ [.assignValue] := by
      rw [List.mem_append, List.mem_singleton]
      rintro (h | h)
      · exact declareTmp_not_mem T ty whole h
      · cases h
    have hcount := indexings_runStmts hmem hrun
    have hlength := List.length_pos_iff.mpr hnil
    rw [hover.index_once rfl, List.length_append, List.length_singleton] at hcount
    omega

/-! ## Every assignment -/

/-- The emitted statements overwrite the place as they should. An assignment that keeps the
old value must find nothing in the place; a variable is released where the emitter knows it; a
field must own nothing before and after; an element must own nothing at all. -/
def OverwritesRight : (a : Assignment) → AssignEnv (PlaceValue T a.ty) ι σ →
    AssignState (PlaceValue T a.ty) ι σ → Prop
  | .binding ty true, env, s => Compiles T ty ∧ LiveIsCovered (afterRhs env s)
  | .binding _ false, env, s => NoneLive (afterRhs env s)
  | .field ty, env, s =>
    Compiles T ty ∧ coveredParts (s.mem env.home) = [] ∧ NoneLive (afterRhs env s)
  | .element ty whole, env, s => NothingToRelease T ty whole ∧ NoneLive (slotAtStore env s)

theorem overwrite_order_iff (T : TypeTables) (a : Assignment)
    (env : AssignEnv (PlaceValue T a.ty) ι σ) (s : AssignState (PlaceValue T a.ty) ι σ)
    (hlog : s.log = []) :
    (∃ s', runStmts env a.indexed (a.emit T) s = some s' ∧
      Overwritten a.indexed s'.log s'.mem) ↔ OverwritesRight a env s := by
  cases a with
  | binding ty dropOld =>
    cases dropOld with
    | true => exact binding_iff env s hlog
    | false => exact assignValue_iff env s hlog
  | field ty => exact field_iff env s hlog
  | element ty whole => exact element_iff env s hlog whole

/-! ## A string is overwritten -/

/-- A program without declared types. -/
def noTypes : TypeTables where
  nonCopy := ⟨[], []⟩
  structFields _ := []
  enumPayload _ := none
  enumTags _ := []
  mixedPayloads _ := false
  rank _ := 0
  rank_lt h := absurd h List.not_mem_nil
  struct_owns h := absurd h List.not_mem_nil
  payload_tags h := absurd h Bool.false_ne_true

/-- A string in a piece of heap memory. -/
def stringAt (id : Nat) : PlaceValue noTypes .ownedStr where
  at_ _ := ⟨0, [⟨id, true⟩]⟩
  holds leaf hleaf := by
    rw [List.mem_singleton.mp hleaf]
    exact ⟨fun _ => rfl, fun h => absurd h Ty.noConfusion⟩
  distinct := List.nodup_singleton id

/-- The right-hand side makes a new string; the index is the only place. -/
def freshString : AssignEnv (PlaceValue noTypes .ownedStr) Unit Unit where
  rhs mem world := (stringAt 2, mem, world)
  index mem world := ((), mem, world)
  home := ()
  rhsFirst := true

/-- The place holds a string. -/
def oneString : AssignState (PlaceValue noTypes .ownedStr) Unit Unit :=
  ⟨fun _ => stringAt 1, (), none, []⟩

/-- `x = "b" + ""` -/
theorem overwrite_order_variable :
    Assignment.ofStmt noTypes (.reassign "x" .ownedStr
      (.mk (.binary .add (.mk (.str "b") .str) (.mk (.str "") .str) false) .ownedStr) true) =
        some (.binding .ownedStr true) ∧
      ∃ s', runStmts freshString false (emitReassign noTypes .ownedStr true) oneString = some s' ∧
        Overwritten false s'.log s'.mem := by
  refine ⟨rfl, (overwrite_order_iff noTypes (.binding .ownedStr true) freshString oneString
    rfl).mpr ⟨fun e h => absurd h Ty.noConfusion, fun leaf hleaf part hpart => ?_⟩⟩
  rw [List.mem_singleton.mp hleaf, List.mem_singleton.mp hpart]
  exact iff_of_true rfl rfl

/-- `p.name = p.name + "x"` releases the name before it reads it, and `xs[i] = xs[i] + "x"`
evaluates the index again. -/
theorem nameField_refutes :
    Assignment.ofStmt noTypes (.fieldAssign (.mk (.var "p") (.struct "P")) "name" false
      (.mk (.binary .add (.mk (.fieldAccess (.mk (.var "p") (.struct "P")) "name") .ownedStr)
        (.mk (.str "x") .str) false) .ownedStr)) = some (.field .ownedStr) ∧
      (¬∃ s', runStmts freshString false (emitFieldAssign noTypes .ownedStr) oneString = some s' ∧
        Overwritten false s'.log s'.mem) ∧
      ¬∃ s', runStmts freshString true (emitIndexAssign noTypes .ownedStr true) oneString =
        some s' ∧ Overwritten true s'.log s'.mem := by
  refine ⟨rfl, ?_, ?_⟩
  · rw [field_iff freshString oneString rfl]
    rintro ⟨-, hparts, -⟩
    cases hparts
  · rw [element_iff freshString oneString rfl]
    rintro ⟨⟨hshaped, -⟩, -⟩
    cases hshaped

end Vani.Analysis

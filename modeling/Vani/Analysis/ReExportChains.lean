import Vani.Program.Modules
import Vani.Library.PointerJumping
import Mathlib.Logic.Relation

/-!
# Chains of re-exports

Resolving re-exports comes to an end on every map, in every order of the entries, also
where chains run into a cycle. Where they do not, every re-exported name stands for the
end of its chain.
-/

set_option autoImplicit false

namespace Vani.Analysis

open Vani.Library Vani.Library.PointerJumping Vani.Program

/-- One link of a chain. -/
def Link (m : ReExports) (a b : String) : Prop := m.lookup a = some b

/-- No chain comes back to a name on it. -/
def Acyclic (m : ReExports) : Prop := ∀ k, ¬ Relation.TransGen (Link m) k k

/-- The chain from `k` ends at `e`, which is not a re-export. -/
def ChainEnd (m : ReExports) (k e : String) : Prop :=
  Relation.ReflTransGen (Link m) k e ∧ m.lookup e = none

variable {m : ReExports} {k v e : String} {es : List (String × String)}

theorem qualifyReExport_of_lookup (h : m.lookup k = some v) : qualifyReExport m k = v := by
  unfold qualifyReExport
  rw [h, Option.getD_some]

theorem qualifyReExport_of_none (h : m.lookup k = none) : qualifyReExport m k = k := by
  unfold qualifyReExport
  rw [h, Option.getD_none]

theorem qualifyReExport_insert (m : ReExports) (k w : String) :
    qualifyReExport (m.insert k w) = Function.update (qualifyReExport m) k w := by
  funext x
  by_cases hx : x = k
  · subst hx
    rw [qualifyReExport_of_lookup (Finmap.lookup_insert m), Function.update_self]
  · unfold qualifyReExport
    rw [Function.update_of_ne hx, Finmap.lookup_insert_of_ne _ hx]

/-- A name that is not re-exported stands for itself. -/
theorem qualifyReExport_of_notMem (h : k ∉ m.keys) : qualifyReExport m k = k := by
  rw [Finmap.mem_keys] at h
  exact qualifyReExport_of_none (Finmap.lookup_eq_none.mpr h)

/-- What a name of the map stands for is what the map says. -/
theorem lookup_of_mem_keys (h : k ∈ m.keys) : m.lookup k = some (qualifyReExport m k) := by
  rw [Finmap.mem_keys, Finmap.mem_iff] at h
  obtain ⟨v, hv⟩ := h
  rw [qualifyReExport_of_lookup hv, hv]

/-- Maps of the same names that let each stand for the same are one map. -/
theorem eq_of_qualifyReExport {m' : ReExports} (hkeys : m'.keys = m.keys)
    (h : qualifyReExport m' = qualifyReExport m) : m' = m := by
  apply Finmap.ext_lookup
  intro x
  by_cases hx : x ∈ m.keys
  · rw [lookup_of_mem_keys hx, lookup_of_mem_keys (hkeys ▸ hx), h]
  · have hx' := hx
    rw [← hkeys] at hx'
    rw [Finmap.mem_keys] at hx hx'
    rw [Finmap.lookup_eq_none.mpr hx, Finmap.lookup_eq_none.mpr hx']

/-! ## One pass -/

theorem followEntry_of_ne (p : ReExports × Bool) (h : e ≠ k) :
    (followEntry p (k, v)).1.lookup e = p.1.lookup e := by
  obtain ⟨m, changed⟩ := p
  cases hv : m.lookup v with
  | none => simp only [followEntry, hv]
  | some deeper =>
    by_cases hd : deeper = v
    · simp only [followEntry, hv, ne_eq, hd, not_true_eq_false, if_false]
    · simp only [followEntry, hv, ne_eq, hd, not_false_eq_true, if_true]
      exact Finmap.lookup_insert_of_ne _ h

/-- An entry that still is one makes its name jump, and notes whether that changed it. -/
theorem followEntry_eq (changed : Bool) (h : m.lookup k = some v) :
    qualifyReExport (followEntry (m, changed) (k, v)).1 = jump (qualifyReExport m) k ∧
      (followEntry (m, changed) (k, v)).1.keys = m.keys ∧
      ((followEntry (m, changed) (k, v)).2 = true ↔
        changed = true ∨ (followEntry (m, changed) (k, v)).1.lookup k ≠ m.lookup k) := by
  have hk := qualifyReExport_of_lookup h
  cases hv : m.lookup v with
  | none =>
    have hfix : qualifyReExport m (qualifyReExport m k) = qualifyReExport m k := by
      rw [hk, qualifyReExport_of_none hv]
    simp only [followEntry, hv, ne_eq, not_true_eq_false, or_false]
    exact ⟨(jump_of_eq hfix).symm, trivial, trivial⟩
  | some deeper =>
    by_cases hd : deeper = v
    · have hfix : qualifyReExport m (qualifyReExport m k) = qualifyReExport m k := by
        rw [hk, qualifyReExport_of_lookup hv, hd]
      simp only [followEntry, hv, ne_eq, hd, not_true_eq_false, if_false, or_false]
      exact ⟨(jump_of_eq hfix).symm, trivial, trivial⟩
    · simp only [followEntry, hv, ne_eq, hd, not_false_eq_true, if_true, true_iff]
      refine ⟨?_, ?_, Or.inr ?_⟩
      · rw [qualifyReExport_insert, jump, hk, qualifyReExport_of_lookup hv]
      · ext x
        rw [Finmap.mem_keys, Finmap.mem_keys, Finmap.mem_insert]
        refine ⟨fun hx => hx.elim (fun heq => ?_) id, Or.inr⟩
        rw [heq]
        exact Finmap.mem_of_lookup_eq_some h
      · rw [Finmap.lookup_insert, h]
        exact fun heq => hd (Option.some.inj heq)

/-- The names of other entries keep what they stand for. -/
theorem foldl_followEntry_of_notMem (p : ReExports × Bool) (h : e ∉ es.map Prod.fst) :
    (es.foldl followEntry p).1.lookup e = p.1.lookup e := by
  induction es generalizing p with
  | nil => rfl
  | cons entry es ih =>
    rw [List.map_cons, List.mem_cons, not_or] at h
    rw [List.foldl_cons, ih _ h.2]
    exact followEntry_of_ne p h.1

/-- A pass over entries of the map makes their names jump, one after the other. -/
theorem foldl_followEntry (hes : (es.map Prod.fst).Nodup) (changed : Bool)
    (hmem : ∀ k v, (k, v) ∈ es → m.lookup k = some v) :
    qualifyReExport (es.foldl followEntry (m, changed)).1 =
        jumps (qualifyReExport m) (es.map Prod.fst) ∧
      (es.foldl followEntry (m, changed)).1.keys = m.keys ∧
      ((es.foldl followEntry (m, changed)).2 = true ↔ changed = true ∨
        ∃ k, (es.foldl followEntry (m, changed)).1.lookup k ≠ m.lookup k) := by
  induction es generalizing m changed with
  | nil => exact ⟨rfl, rfl, Or.inl, fun h => h.elim id fun ⟨_, hne⟩ => absurd rfl hne⟩
  | cons entry es ih =>
    obtain ⟨k, v⟩ := entry
    rw [List.map_cons, List.nodup_cons] at hes
    obtain ⟨hjump, hkeys, hchanged⟩ := followEntry_eq changed (hmem k v List.mem_cons_self)
    have hother : ∀ x, x ≠ k → (followEntry (m, changed) (k, v)).1.lookup x = m.lookup x :=
      fun x hx => followEntry_of_ne (m, changed) hx
    have hmem' : ∀ k' v', (k', v') ∈ es →
        (followEntry (m, changed) (k, v)).1.lookup k' = some v' := by
      intro k' v' hin
      have hne : k' ≠ k := by
        rintro rfl
        exact hes.1 (List.mem_map.mpr ⟨(k', v'), hin, rfl⟩)
      rw [hother k' hne]
      exact hmem k' v' (List.mem_cons_of_mem _ hin)
    obtain ⟨hjumps, hkeys', hchanged'⟩ := ih hes.2 (followEntry (m, changed) (k, v)).2 hmem'
    rw [Prod.mk.eta] at hjumps hkeys' hchanged'
    rw [hjump] at hjumps
    rw [hkeys] at hkeys'
    rw [List.foldl_cons]
    refine ⟨hjumps, hkeys', ?_⟩
    have hhere := foldl_followEntry_of_notMem (followEntry (m, changed) (k, v)) hes.1
    rw [hchanged', hchanged, or_assoc]
    refine or_congr_right ⟨?_, ?_⟩
    · rintro (hne | ⟨x, hne⟩)
      · exact ⟨k, by rwa [hhere]⟩
      · by_cases hx : x = k
        · rw [hx, hhere] at hne
          exact absurd rfl hne
        · exact ⟨x, by rwa [← hother x hx]⟩
    · rintro ⟨x, hne⟩
      by_cases hx : x = k
      · rw [hx, hhere] at hne
        exact Or.inl hne
      · exact Or.inr ⟨x, by rwa [hother x hx]⟩

theorem nodup_keys_of_entriesOf (h : EntriesOf m es) : (es.map Prod.fst).Nodup := by
  refine h.nodup.map_on ?_
  rintro ⟨k, v⟩ hk ⟨k', v'⟩ hk' heq
  dsimp only at heq
  subst heq
  have hv := ((h.mem_iff k v).mp hk).symm.trans ((h.mem_iff k v').mp hk')
  rw [Option.some.inj hv]

theorem mem_keys_of_entriesOf (h : EntriesOf m es) : k ∈ es.map Prod.fst ↔ k ∈ m.keys := by
  rw [Finmap.mem_keys, Finmap.mem_iff, List.mem_map]
  constructor
  · rintro ⟨⟨k, v⟩, hin, rfl⟩
    exact ⟨v, (h.mem_iff k v).mp hin⟩
  · rintro ⟨v, hv⟩
    exact ⟨(k, v), (h.mem_iff k v).mpr hv, rfl⟩

/-- A pass is a pass of jumps over the names of the map, and it changes the map if it says
so and not otherwise. -/
theorem followPass_eq (h : EntriesOf m es) :
    qualifyReExport (followPass es m).1 = jumps (qualifyReExport m) (es.map Prod.fst) ∧
      (followPass es m).1.keys = m.keys ∧
      ((followPass es m).2 = true ↔ (followPass es m).1 ≠ m) := by
  obtain ⟨hjumps, hkeys, hchanged⟩ := foldl_followEntry (nodup_keys_of_entriesOf h) false
    (fun k v => (h.mem_iff k v).mp)
  refine ⟨hjumps, hkeys, hchanged.trans ?_⟩
  constructor
  · rintro (hf | ⟨x, hne⟩) heq
    · cases hf
    · exact hne (by rw [show (es.foldl followEntry (m, false)).1 = m from heq])
  · intro hne
    right
    by_contra hall
    push Not at hall
    exact hne (Finmap.ext_lookup hall)

/-! ## The chains -/

/-- What lies ahead of a name is further on in its chain, unless it is not re-exported. -/
theorem transGen_of_ahead {x y : String} (h : Ahead (qualifyReExport m) x y) :
    Relation.TransGen (Link m) x y ∨ x ∉ m.keys ∧ y = x := by
  obtain ⟨n, hn, rfl⟩ := h
  obtain ⟨n, rfl⟩ : ∃ j, n = j + 1 := ⟨n - 1, by omega⟩
  clear hn
  have hstep : ∀ y, y ∈ m.keys → Link m y (qualifyReExport m y) := fun y => lookup_of_mem_keys
  by_cases hx : x ∈ m.keys
  · left
    induction n with
    | zero => exact Relation.TransGen.single (hstep x hx)
    | succ n ih =>
      rw [Function.iterate_succ_apply']
      by_cases hmem : (qualifyReExport m)^[n + 1] x ∈ m.keys
      · exact ih.tail (hstep _ hmem)
      · rw [qualifyReExport_of_notMem hmem]
        exact ih
  · exact Or.inr ⟨hx, Function.iterate_fixed (qualifyReExport_of_notMem hx) (n + 1)⟩

/-- A pass that changes nothing has found every name standing for one that stands for
itself. -/
theorem qualifyReExport_of_unchanged (h : EntriesOf m es) (hsame : (followPass es m).1 = m)
    (x : String) : qualifyReExport m (qualifyReExport m x) = qualifyReExport m x := by
  by_cases hx : x ∈ m.keys
  · have hjumps := (followPass_eq h).1
    rw [hsame] at hjumps
    exact fixed_of_jumps_eq (nodup_keys_of_entriesOf h) hjumps.symm
      ((mem_keys_of_entriesOf h).mpr hx)
  · rw [qualifyReExport_of_notMem hx, qualifyReExport_of_notMem hx]

/-- How far the passes are from their end. -/
noncomputable def linksAhead (m : ReExports) : Nat :=
  (aheadPairs (m.keys : Set String) (qualifyReExport m)).ncard

theorem linksAhead_followPass (h : EntriesOf m es) (hne : (followPass es m).1 ≠ m) :
    linksAhead (followPass es m).1 < linksAhead m := by
  obtain ⟨hjumps, hkeys, -⟩ := followPass_eq h
  unfold linksAhead
  rw [hkeys, hjumps]
  refine ncard_aheadPairs_jumps (Finset.finite_toSet _) (fun x hx => ?_) (fun x hx => ?_) ?_
  · exact qualifyReExport_of_notMem hx
  · exact (mem_keys_of_entriesOf h).mpr hx
  · intro heq
    exact hne (eq_of_qualifyReExport hkeys (hjumps.trans heq))

/-- What a map has come to in some passes: the same names are re-exported, and every name
stands for itself or for one further on in its chain. -/
structure Shortened (m m' : ReExports) : Prop where
  keys : m'.keys = m.keys
  ahead : ∀ x y, Ahead (qualifyReExport m') x y → Ahead (qualifyReExport m) x y

theorem Shortened.followPass {m' : ReExports} (h : Shortened m m') (hes : EntriesOf m' es) :
    Shortened m (followPass es m').1 := by
  obtain ⟨hjumps, hkeys, -⟩ := followPass_eq hes
  refine ⟨hkeys.trans h.keys, fun x y hxy => h.ahead x y ?_⟩
  rw [hjumps] at hxy
  exact hxy.of_jumps

/-- The passes come to an end within a bound that depends on the map alone. -/
theorem resolveReExports_done (m : ReExports) (order : IterationOrder) :
    ∃ m', resolveReExports order (linksAhead m + 1) m = .done m' ∧ Shortened m m' ∧
      ∀ x, qualifyReExport m' (qualifyReExport m' x) = qualifyReExport m' x := by
  refine Outcome.loop_of_measure (fun s => Shortened m s.2) (fun s => linksAhead s.2)
    (Nat.lt_succ_self _) ⟨rfl, fun _ _ => id⟩ ?_
  rintro ⟨n, m'⟩ hm'
  dsimp only at hm'
  have hes := order.entriesOf n m'
  have hchanged := (followPass_eq hes).2.2
  have hnext := hm'.followPass hes
  cases hc : (followPass (order.entries n m') m').2 with
  | true =>
    refine Or.inl ⟨(n + 1, (followPass (order.entries n m') m').1), ?_, hnext,
      linksAhead_followPass hes (hchanged.mp hc)⟩
    simp only [followTurn, hc, if_true, Outcome.pure_eq]
  | false =>
    have hsame : (followPass (order.entries n m') m').1 = m' := by
      by_contra hne
      rw [hchanged.mpr hne] at hc
      cases hc
    refine Or.inr ⟨m', ?_, hm', fun x => qualifyReExport_of_unchanged hes hsame x⟩
    simp only [followTurn, hc, hsame, Bool.false_eq_true, if_false, Outcome.pure_eq]

/-- Where no chain runs into a cycle, the names of the resolved map stand for the ends of
their chains. -/
theorem Shortened.chainEnd {m' : ReExports} (h : Shortened m m') (hm : Acyclic m)
    (hfix : ∀ x, qualifyReExport m' (qualifyReExport m' x) = qualifyReExport m' x)
    (hk : k ∈ m.keys) : ∃ e, m'.lookup k = some e ∧ ChainEnd m k e := by
  have hk' : k ∈ m'.keys := h.keys ▸ hk
  refine ⟨qualifyReExport m' k, lookup_of_mem_keys hk', ?_, ?_⟩
  · rcases transGen_of_ahead (h.ahead _ _ (ahead_next _ k)) with hpath | ⟨hnot, -⟩
    · exact hpath.to_reflTransGen
    · exact absurd hk hnot
  · rw [Finmap.lookup_eq_none, ← Finmap.mem_keys]
    intro hmem
    -- the end would lie ahead of itself
    have hself := ahead_next (qualifyReExport m') (qualifyReExport m' k)
    rw [hfix k] at hself
    rcases transGen_of_ahead (h.ahead _ _ hself) with hpath | ⟨hnot, -⟩
    · exact hm _ hpath
    · exact hnot hmem

/-- Resolving re-exports terminates on every map and in every order of its entries, and if
no chain runs into a cycle every re-exported name is sent to the end of its chain. -/
theorem reExports_resolve (m : ReExports) :
    ∃ fuel, ∀ order : IterationOrder, ∃ m', resolveReExports order fuel m = .done m' ∧
      m'.keys = m.keys ∧
      (Acyclic m → ∀ k, k ∈ m.keys → ∃ e, m'.lookup k = some e ∧ ChainEnd m k e) := by
  refine ⟨linksAhead m + 1, fun order => ?_⟩
  obtain ⟨m', hrun, hshort, hfix⟩ := resolveReExports_done m order
  exact ⟨m', hrun, hshort.keys, fun hm k hk => hshort.chainEnd hm hfix hk⟩

end Vani.Analysis

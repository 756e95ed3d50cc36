import Mathlib.Logic.Relation
import Mathlib.Data.List.Nodup
import Mathlib.Data.Finset.Card
import Mathlib.Data.Finset.Range

/-!
# Graph search and dominance

A graph given by the successors of a node. The search with a worklist finds exactly the
nodes that can be reached; a node dominates another if every way from the start to the
other passes it. A map of one graph into another carries dominance back.
-/

set_option autoImplicit false

namespace Vani.Library

variable {α β : Type}

/-- The search from the nodes of a worklist; `none` where a node has no entry or the bound
on the turns does not suffice. -/
def search [DecidableEq α] (succ : α → Option (List α)) :
    Nat → List α → List α → Option (List α)
  | _, reached, [] => some reached
  | 0, _, _ :: _ => none
  | fuel + 1, reached, id :: work =>
    if id ∈ reached then search succ fuel reached work
    else
      match succ id with
      | none => none
      | some next => search succ fuel (id :: reached) (next.reverse ++ work)

/-- A node is on some way from the start. -/
inductive Reaches (succ : α → List α) (start : α) : α → Prop
  | start : Reaches succ start start
  | step {x y : α} : Reaches succ start x → y ∈ succ x → Reaches succ start y

/-- A node is on some way from the start that does not pass another. -/
inductive Avoids (succ : α → List α) (start a : α) : α → Prop
  | start : start ≠ a → Avoids succ start a start
  | step {x y : α} : Avoids succ start a x → y ∈ succ x → y ≠ a → Avoids succ start a y

/-- Every way from the start to `b` passes `a`. -/
def Dominates (succ : α → List α) (start a b : α) : Prop := ¬Avoids succ start a b

variable {succ : α → List α} {succ' : β → List β} {start a b : α}

theorem Avoids.reaches (h : Avoids succ start a b) : Reaches succ start b := by
  induction h with
  | start => exact .start
  | step _ hy _ ih => exact ih.step hy

theorem Reaches.trans {c : α} (h : Reaches succ start b) (h' : Reaches succ b c) :
    Reaches succ start c := by
  induction h' with
  | start => exact h
  | step _ hy ih => exact ih.step hy

/-- A node that dominates one that can be reached can be reached. -/
theorem Dominates.reaches (h : Dominates succ start a b) (hb : Reaches succ start b) :
    Reaches succ start a := by
  by_contra hno
  refine h ?_
  clear h
  induction hb with
  | start => exact .start fun heq => hno (heq ▸ .start)
  | @step x y hx hy ih => exact ih.step hy fun heq => hno (heq ▸ hx.step hy)

/-- A map that takes edges to edges takes ways to ways. -/
theorem Reaches.map {φ : β → α} {s : β} {y : β} (hs : φ s = start)
    (hedge : ∀ x y, Reaches succ' s x → y ∈ succ' x → φ y ∈ succ (φ x))
    (h : Reaches succ' s y) : Reaches succ start (φ y) := by
  induction h with
  | start => exact hs ▸ .start
  | step hx hy ih => exact ih.step (hedge _ _ hx hy)

theorem Avoids.map {φ : β → α} {s a y : β} (hφ : ∀ y, φ y = φ a → y = a) (hs : φ s = start)
    (hedge : ∀ x y, y ∈ succ' x → φ y ∈ succ (φ x)) (h : Avoids succ' s a y) :
    Avoids succ start (φ a) (φ y) := by
  induction h with
  | start hne => exact hs ▸ .start fun heq => hne (hφ _ heq)
  | step _ hy hne ih => exact ih.step (hedge _ _ hy) fun heq => hne (hφ _ heq)

/-- Dominance comes back along a map that takes edges to edges. -/
theorem Dominates.of_map {φ : β → α} {s a b : β} (hφ : ∀ y, φ y = φ a → y = a) (hs : φ s = start)
    (hedge : ∀ x y, y ∈ succ' x → φ y ∈ succ (φ x)) (h : Dominates succ start (φ a) (φ b)) :
    Dominates succ' s a b := fun hav => h (hav.map hφ hs hedge)

/-- A graph with fewer edges has more dominance. -/
theorem Dominates.mono {next : α → List α} (hsub : ∀ x y, y ∈ next x → y ∈ succ x)
    (h : Dominates succ start a b) : Dominates next start a b :=
  Dominates.of_map (φ := id) (fun _ heq => heq) rfl hsub h

/-- Dominance goes along a map that takes every edge from an edge. -/
theorem Dominates.map {φ : β → α} {s a b : β} (hφ : ∀ y, φ y = φ b → y = b) (hs : φ s = start)
    (hfull : ∀ x z, Reaches succ' s x → z ∈ succ (φ x) → ∃ y, y ∈ succ' x ∧ φ y = z)
    (h : Dominates succ' s a b) : Dominates succ start (φ a) (φ b) := by
  have key : ∀ z, Avoids succ start (φ a) z → ∃ y, φ y = z ∧ Avoids succ' s a y := by
    intro z hz
    induction hz with
    | start hne => exact ⟨s, hs, .start fun heq => hne (heq ▸ hs.symm)⟩
    | step _ hz hne ih =>
      obtain ⟨x, rfl, hx⟩ := ih
      obtain ⟨y, hy, rfl⟩ := hfull x _ hx.reaches hz
      exact ⟨y, rfl, hx.step hy fun heq => hne (heq ▸ rfl)⟩
  intro hav
  obtain ⟨y, hy, hy'⟩ := key _ hav
  exact h (hφ y hy ▸ hy')

/-- The search ends, and finds what the worklist leads to and nothing else. -/
theorem search_ok [DecidableEq α] {succ : α → Option (List α)} {V : Finset α} {d : Nat}
    (hV : ∀ x ∈ V, ∃ next, succ x = some next ∧ next.length ≤ d ∧ ∀ y ∈ next, y ∈ V)
    (fuel : Nat) (reached work : List α) (hreached : ∀ x ∈ reached, x ∈ V)
    (hwork : ∀ x ∈ work, x ∈ V) (hnodup : reached.Nodup)
    (hfuel : work.length + d * (V.card - reached.length) ≤ fuel)
    (hclosed : ∀ x ∈ reached, ∀ next, succ x = some next → ∀ y ∈ next, y ∈ reached ∨ y ∈ work) :
    ∃ out, search succ fuel reached work = some out ∧ out.Nodup ∧ (∀ x ∈ out, x ∈ V) ∧
      (∀ x, x ∈ reached ∨ x ∈ work → x ∈ out) ∧
      (∀ x ∈ out, ∀ next, succ x = some next → ∀ y ∈ next, y ∈ out) ∧
      ∀ P : α → Prop, (∀ x, x ∈ reached ∨ x ∈ work → P x) →
        (∀ x next, P x → succ x = some next → ∀ y ∈ next, P y) → ∀ x ∈ out, P x := by
  induction fuel generalizing reached work with
  | zero =>
    cases work with
    | nil =>
      refine ⟨reached, rfl, hnodup, hreached, fun x hx => ?_, fun x hx next hn y hy => ?_,
        fun P hP _ x hx => hP x (Or.inl hx)⟩
      · exact hx.resolve_right List.not_mem_nil
      · exact (hclosed x hx next hn y hy).resolve_right List.not_mem_nil
    | cons id work => simp at hfuel
  | succ fuel ih =>
    cases work with
    | nil =>
      refine ⟨reached, rfl, hnodup, hreached, fun x hx => ?_, fun x hx next hn y hy => ?_,
        fun P hP _ x hx => hP x (Or.inl hx)⟩
      · exact hx.resolve_right List.not_mem_nil
      · exact (hclosed x hx next hn y hy).resolve_right List.not_mem_nil
    | cons id work =>
      rw [search]
      by_cases hid : id ∈ reached
      · rw [if_pos hid]
        obtain ⟨out, hrun, hout, hin, hsub, hcl, hP⟩ := ih reached work hreached
          (fun x hx => hwork x (List.mem_cons_of_mem id hx)) hnodup
          (by rw [List.length_cons] at hfuel; omega) (fun x hx next hn y hy => by
            rcases hclosed x hx next hn y hy with h | h
            · exact Or.inl h
            · rcases List.mem_cons.mp h with rfl | h
              · exact Or.inl hid
              · exact Or.inr h)
        refine ⟨out, hrun, hout, hin, fun x hx => ?_, hcl, fun P hPx hPs => hP P ?_ hPs⟩
        · rcases hx with hx | hx
          · exact hsub x (Or.inl hx)
          · rcases List.mem_cons.mp hx with rfl | hx
            · exact hsub x (Or.inl hid)
            · exact hsub x (Or.inr hx)
        · exact fun x hx => hPx x (hx.imp_right (List.mem_cons_of_mem id))
      · rw [if_neg hid]
        obtain ⟨next, hnext, hlen, hnV⟩ := hV id (hwork id List.mem_cons_self)
        rw [hnext]
        have hcard : reached.length + 1 ≤ V.card := by
          have hsub : (id :: reached).toFinset ⊆ V := by
            intro x hx
            rcases List.mem_cons.mp (List.mem_toFinset.mp hx) with rfl | hx
            · exact hwork x List.mem_cons_self
            · exact hreached x hx
          have key := Finset.card_le_card hsub
          rwa [List.toFinset_card_of_nodup (List.nodup_cons.mpr ⟨hid, hnodup⟩),
            List.length_cons] at key
        have hmem : ∀ x, x ∈ next.reverse ++ work ↔ x ∈ next ∨ x ∈ work := by simp
        obtain ⟨out, hrun, hout, hin, hsub, hcl, hP⟩ := ih (id :: reached) (next.reverse ++ work)
          (fun x hx => by
            rcases List.mem_cons.mp hx with rfl | hx
            · exact hwork x List.mem_cons_self
            · exact hreached x hx)
          (fun x hx => by
            rcases (hmem x).mp hx with hx | hx
            · exact hnV x hx
            · exact hwork x (List.mem_cons_of_mem id hx))
          (List.nodup_cons.mpr ⟨hid, hnodup⟩)
          (by
            rw [List.length_cons] at hfuel ⊢
            rw [List.length_append, List.length_reverse]
            have hsplit : d * (V.card - reached.length) =
                d * (V.card - (reached.length + 1)) + d := by
              rw [← Nat.mul_succ]
              congr 1
              omega
            omega)
          (fun x hx next' hn' y hy => by
            rw [hmem]
            rcases List.mem_cons.mp hx with rfl | hx
            · rw [hnext] at hn'
              cases hn'
              exact Or.inr (Or.inl hy)
            · rcases hclosed x hx next' hn' y hy with h | h
              · exact Or.inl (List.mem_cons_of_mem id h)
              · rcases List.mem_cons.mp h with rfl | h
                · exact Or.inl List.mem_cons_self
                · exact Or.inr (Or.inr h))
        refine ⟨out, hrun, hout, hin, fun x hx => ?_, hcl, fun P hPx hPs => hP P ?_ hPs⟩
        · rcases hx with hx | hx
          · exact hsub x (Or.inl (List.mem_cons_of_mem id hx))
          · rcases List.mem_cons.mp hx with rfl | hx
            · exact hsub x (Or.inl List.mem_cons_self)
            · exact hsub x (Or.inr ((hmem x).mpr (Or.inr hx)))
        · intro x hx
          rw [hmem] at hx
          rcases hx with hx | hx | hx
          · rcases List.mem_cons.mp hx with rfl | hx
            · exact hPx x (Or.inr List.mem_cons_self)
            · exact hPx x (Or.inl hx)
          · exact hPs id next (hPx id (Or.inr List.mem_cons_self)) hnext x hx
          · exact hPx x (Or.inr (List.mem_cons_of_mem id hx))

/-- The search from one node finds exactly the nodes that can be reached from it. -/
theorem search_eq [DecidableEq α] (succ : α → Option (List α)) (next : α → List α)
    (start : α) (fuel : Nat) {V : Finset α} {d : Nat}
    (hV : ∀ x ∈ V, succ x = some (next x) ∧ (next x).length ≤ d ∧ ∀ y ∈ next x, y ∈ V)
    (hstart : start ∈ V) (hfuel : d * V.card + 1 ≤ fuel) :
    ∃ out, search succ fuel [] [start] = some out ∧ out.Nodup ∧ (∀ x ∈ out, x ∈ V) ∧
      ∀ x, x ∈ out ↔ Reaches next start x := by
  obtain ⟨out, hrun, hnodup, hin, hsub, hclosed, hP⟩ := search_ok
    (fun x hx => ⟨next x, hV x hx⟩) fuel [] [start] (fun x hx => absurd hx List.not_mem_nil)
    (fun x hx => by rwa [List.mem_singleton.mp hx]) List.nodup_nil
    (by simp only [List.length_singleton, List.length_nil, Nat.sub_zero]; omega)
    (fun x hx => absurd hx List.not_mem_nil)
  have hreach : ∀ x, Reaches next start x → x ∈ out := by
    intro x hx
    induction hx with
    | start => exact hsub start (Or.inr List.mem_cons_self)
    | @step x y _ hy ih => exact hclosed x ih (next x) (hV x (hin x ih)).1 y hy
  refine ⟨out, hrun, hnodup, hin, fun x => ⟨fun hx => ?_, hreach x⟩⟩
  refine (hP (fun x => x ∈ V ∧ Reaches next start x) ?_ ?_ x hx).2
  · intro y hy
    rw [List.mem_singleton.mp (hy.resolve_left List.not_mem_nil)]
    exact ⟨hstart, .start⟩
  · rintro y ys ⟨hyV, hy⟩ hys z hz
    rw [(hV y hyV).1] at hys
    cases hys
    exact ⟨(hV y hyV).2.2 z hz, hy.step hz⟩

/-! ## Searches that mark a node when they find it -/

/-- The nodes found so far and the ones of them still to be looked at, in any order. -/
structure Explored (succ : α → List α) (start : α) (seen frontier : List α) : Prop where
  start_mem : start ∈ seen
  nodup : seen.Nodup
  frontier_nodup : frontier.Nodup
  subset : ∀ x ∈ frontier, x ∈ seen
  reaches : ∀ x ∈ seen, Reaches succ start x
  closed : ∀ x ∈ seen, x ∉ frontier → ∀ y ∈ succ x, y ∈ seen

/-- A node is being looked at, and some of its successors have been. -/
structure Scanning (succ : α → List α) (start u : α) (taken seen frontier : List α) : Prop where
  start_mem : start ∈ seen
  nodup : seen.Nodup
  frontier_nodup : frontier.Nodup
  subset : ∀ x ∈ frontier, x ∈ seen
  reaches : ∀ x ∈ seen, Reaches succ start x
  closed : ∀ x ∈ seen, x ∉ frontier → x ≠ u → ∀ y ∈ succ x, y ∈ seen
  node : u ∈ seen
  taken_mem : ∀ y ∈ taken, y ∈ seen

theorem explored_start (succ : α → List α) (start : α) : Explored succ start [start] [start] where
  start_mem := List.mem_singleton_self start
  nodup := List.nodup_singleton start
  frontier_nodup := List.nodup_singleton start
  subset _ hx := hx
  reaches x hx := by
    rw [List.mem_singleton.mp hx]
    exact .start
  closed _ hx hno := absurd hx hno

variable {u v : α} {taken seen frontier rest : List α}

/-- A node is taken from the frontier. -/
theorem Explored.pop (h : Explored succ start seen frontier) (hperm : frontier.Perm (u :: rest)) :
    Scanning succ start u [] seen rest := by
  have hnodup := (hperm.nodup_iff.mp h.frontier_nodup)
  have hmem : ∀ x, x ∈ frontier ↔ x = u ∨ x ∈ rest := fun x => by
    rw [hperm.mem_iff, List.mem_cons]
  refine ⟨h.start_mem, h.nodup, (List.nodup_cons.mp hnodup).2, fun x hx => ?_, h.reaches,
    fun x hx hno hne => ?_, ?_, nofun⟩
  · exact h.subset x ((hmem x).mpr (Or.inr hx))
  · exact h.closed x hx fun hin => ((hmem x).mp hin).elim hne hno
  · exact h.subset u ((hmem u).mpr (Or.inl rfl))

namespace Scanning

/-- A successor that was found before. -/
theorem skip (h : Scanning succ start u taken seen frontier) (hv : v ∈ seen) :
    Scanning succ start u (taken ++ [v]) seen frontier := by
  refine ⟨h.start_mem, h.nodup, h.frontier_nodup, h.subset, h.reaches, h.closed, h.node, ?_⟩
  intro y hy
  rcases List.mem_append.mp hy with hy | hy
  · exact h.taken_mem y hy
  · rwa [List.mem_singleton.mp hy]

/-- A successor that is new. -/
theorem visit (h : Scanning succ start u taken seen frontier) (hsucc : v ∈ succ u)
    (hv : v ∉ seen) : Scanning succ start u (taken ++ [v]) (seen ++ [v]) (frontier ++ [v]) := by
  have hnodup : ∀ {l : List α}, l.Nodup → (∀ x ∈ l, x ∈ seen) → (l ++ [v]).Nodup := by
    intro l hl hsub
    refine List.Nodup.append hl (List.nodup_singleton v) ?_
    exact List.disjoint_singleton.mpr fun hin => hv (hsub v hin)
  have hmem : ∀ {l : List α} {x : α}, x ∈ l ++ [v] ↔ x ∈ l ∨ x = v := by simp
  refine ⟨hmem.mpr (Or.inl h.start_mem), hnodup h.nodup fun _ hx => hx,
    hnodup h.frontier_nodup h.subset, fun x hx => ?_, fun x hx => ?_, fun x hx hno hne y hy => ?_,
    hmem.mpr (Or.inl h.node), fun y hy => ?_⟩
  · exact hmem.mpr ((hmem.mp hx).imp_left (h.subset x))
  · rcases hmem.mp hx with hx | rfl
    · exact h.reaches x hx
    · exact (h.reaches u h.node).step hsucc
  · rw [hmem, not_or] at hno
    rcases hmem.mp hx with hx | rfl
    · exact hmem.mpr (Or.inl (h.closed x hx hno.1 hne y hy))
    · exact absurd rfl hno.2
  · exact hmem.mpr ((hmem.mp hy).imp_left (h.taken_mem y))

/-- All successors have been looked at. -/
theorem finish (h : Scanning succ start u (succ u) seen frontier) :
    Explored succ start seen frontier := by
  refine ⟨h.start_mem, h.nodup, h.frontier_nodup, h.subset, h.reaches, fun x hx hno y hy => ?_⟩
  by_cases hxu : x = u
  · subst hxu
    exact h.taken_mem y hy
  · exact h.closed x hx hno hxu y hy

end Scanning

/-- Where nothing is left to look at, the nodes found are the ones that can be reached. -/
theorem Explored.mem_iff {x : α} (h : Explored succ start seen []) :
    x ∈ seen ↔ Reaches succ start x := by
  refine ⟨h.reaches x, fun hx => ?_⟩
  induction hx with
  | start => exact h.start_mem
  | @step x y _ hy ih => exact h.closed x ih List.not_mem_nil y hy

end Vani.Library

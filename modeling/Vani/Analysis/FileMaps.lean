import Vani.Source.Includes

/-!
# Merged file maps

The walk over the includes appends the text of a file and one line end, so the ranges of the
entries are apart, at their ends too, and all of them are within the buffer. Merging puts the
ranges of the other map behind the last one, with a gap: they stay apart, and an offset lies
in at most one entry.
-/

set_option autoImplicit false

namespace Vani.Analysis

open Vani.Library Vani.Source

/-- The ranges of the entries are in order and apart, ends included, and below a bound. -/
structure Laid (entries : List FileEntry) (bound : Nat) : Prop where
  apart : entries.Pairwise fun a b => a.stop < b.start
  below : ∀ e ∈ entries, e.stop < bound

variable {entries others : List FileEntry} {bound : Nat} {fs : Surroundings}

theorem Laid.nil (bound : Nat) : Laid [] bound := ⟨List.Pairwise.nil, by simp⟩

theorem Laid.append {bound' : Nat} (h : Laid entries bound) (h' : Laid others bound')
    (hle : bound ≤ bound') (hstart : ∀ e ∈ others, bound ≤ e.start) :
    Laid (entries ++ others) bound' := by
  constructor
  · rw [List.pairwise_append]
    exact ⟨h.apart, h'.apart, fun a ha b hb => Nat.lt_of_lt_of_le (h.below a ha) (hstart b hb)⟩
  · intro e he
    rcases List.mem_append.mp he with he | he
    · exact Nat.lt_of_lt_of_le (h.below e he) hle
    · exact h'.below e he

/-! ## One lookup -/

/-- Of two different entries one ends before the other starts. -/
theorem Laid.apart_of_ne (h : Laid entries bound) {a b : FileEntry} (ha : a ∈ entries)
    (hb : b ∈ entries) : a = b ∨ a.stop < b.start ∨ b.stop < a.start := by
  obtain ⟨i, hi, rfl⟩ := List.mem_iff_getElem.mp ha
  obtain ⟨j, hj, rfl⟩ := List.mem_iff_getElem.mp hb
  have hpair := List.pairwise_iff_getElem.mp h.apart
  rcases Nat.lt_trichotomy i j with hlt | rfl | hlt
  · exact Or.inr (Or.inl (hpair i j hi hj hlt))
  · exact Or.inl rfl
  · exact Or.inr (Or.inr (hpair j i hj hi hlt))

/-- An offset from the start to the end of an entry is found in it. -/
theorem Laid.lookup (h : Laid entries bound) {e : FileEntry} (he : e ∈ entries) {o : Nat}
    (hlo : e.start ≤ o) (hhi : o ≤ e.stop) :
    (FileMap.mk entries).lookup o = some (e, o - e.start) := by
  have hsome : (entries.reverse.find? fun e => e.start ≤ o ∧ o ≤ e.stop).isSome := by
    rw [List.find?_isSome]
    exact ⟨e, List.mem_reverse.mpr he, decide_eq_true ⟨hlo, hhi⟩⟩
  obtain ⟨e', hfind⟩ := Option.isSome_iff_exists.mp hsome
  have hmem : e' ∈ entries := List.mem_reverse.mp (List.mem_of_find?_eq_some hfind)
  have hin := List.find?_some hfind
  rw [decide_eq_true_eq] at hin
  have heq : e' = e := by
    rcases h.apart_of_ne hmem he with heq | hlt | hlt
    · exact heq
    · omega
    · omega
  unfold FileMap.lookup
  rw [hfind, heq]
  rfl

/-- What a lookup finds. -/
theorem mem_of_lookup {m : FileMap} {o : Nat} {e : FileEntry} {i : Nat}
    (h : m.lookup o = some (e, i)) :
    e ∈ m.entries ∧ e.start ≤ o ∧ o ≤ e.stop ∧ i = o - e.start := by
  unfold FileMap.lookup at h
  obtain ⟨e', hfind, heq⟩ := Option.map_eq_some_iff.mp h
  cases heq
  have hin := List.find?_some hfind
  rw [decide_eq_true_eq] at hin
  exact ⟨List.mem_reverse.mp (List.mem_of_find?_eq_some hfind), hin.1, hin.2, rfl⟩

/-! ## The maps that the walk builds -/

/-- What holds of a resolution and is kept when a file is marked and when its text is appended,
the walk keeps, whether it fails or not. -/
theorem resolveUses_keeps {P : Resolution → Prop}
    (hmark : ∀ s c, P s → P { s with visited := c :: s.visited })
    (happend : ∀ s c source, P s → P (Surroundings.append s c source)) (fuel : Nat) :
    ∀ {path : Path} {s s' : Resolution} {r : Except String Unit}, P s →
      fs.resolveUses fuel path s = .done (r, s') → P s' := by
  induction fuel with
  | zero => exact fun _ h => by cases h
  | succ fuel ih =>
    intro path s s' r hs h
    have hall : ∀ (ps : List Path) {s s' : Resolution} {r : Except String Unit}, P s →
        Surroundings.forEach (fs.resolveUses fuel) ps s = .done (r, s') → P s' := by
      intro ps
      induction ps with
      | nil =>
        intro s s' r hs h
        cases h
        exact hs
      | cons p ps ihp =>
        intro s s' r hs h
        rw [Surroundings.forEach] at h
        obtain ⟨⟨r₁, s₁⟩, hrun, h⟩ := Outcome.bind_eq_done h
        have hs₁ := ih hs hrun
        cases r₁ with
        | error e =>
          cases h
          exact hs₁
        | ok _ => exact ihp hs₁ h
    rw [Surroundings.resolveUses] at h
    cases hcanonical : fs.canonicalize path with
    | error e =>
      rw [hcanonical] at h
      cases h
      exact hs
    | ok c =>
      rw [hcanonical] at h
      dsimp only at h
      split at h
      · cases h
        exact hs
      · cases hload : fs.load c with
        | error e =>
          rw [hload] at h
          cases h
          exact hmark s c hs
        | ok loaded =>
          rw [hload] at h
          obtain ⟨⟨r₁, s₁⟩, hrun, h⟩ := Outcome.bind_eq_done h
          have hs₁ := hall _ (hmark s c hs) hrun
          cases r₁ with
          | error e =>
            cases h
            exact hs₁
          | ok _ =>
            cases h
            exact happend s₁ c loaded.1 hs₁

/-- What a run of the walk over one root after another can come to. -/
inductive Resolved (fs : Surroundings) : Resolution → Prop
  | initial : Resolved fs Resolution.initial
  | step {s s' : Resolution} {fuel : Nat} {root : Path} {r : Except String Unit} :
      Resolved fs s → fs.resolveUses fuel root s = .done (r, s') → Resolved fs s'

/-- The entries lie in the buffer. -/
theorem Resolved.laid {s : Resolution} (h : Resolved fs s) :
    Laid s.fileMap.entries s.out.utf8ByteSize := by
  induction h with
  | initial => exact Laid.nil _
  | step _ hrun ih =>
    apply resolveUses_keeps (P := fun s => Laid s.fileMap.entries s.out.utf8ByteSize) _ _ _ ih hrun
    · exact fun _ _ hs => hs
    · intro s c source hs
      have hsize : (s.out ++ source ++ "\n").utf8ByteSize =
          s.out.utf8ByteSize + source.utf8ByteSize + 1 := by
        rw [String.utf8ByteSize_append, String.utf8ByteSize_append]
        rfl
      show Laid (s.fileMap.entries ++ [⟨c, source, s.out.utf8ByteSize⟩]) _
      rw [Surroundings.append, hsize]
      refine hs.append ⟨List.pairwise_singleton _ _, ?_⟩ (by omega) ?_
      · simp [FileEntry.stop]
      · simp

/-! ## Merging -/

/-- A map that the walk builds, in a run of its own. -/
def WalkBuilds (m : FileMap) : Prop := ∃ fs s, Resolved fs s ∧ s.fileMap = m

theorem WalkBuilds.laid {m : FileMap} (h : WalkBuilds m) : ∃ bound, Laid m.entries bound := by
  obtain ⟨fs, s, hs, rfl⟩ := h
  exact ⟨_, hs.laid⟩

/-- Maps merged one after another, and their shifts. -/
def mergeAll (m : FileMap) : List FileMap → FileMap × List Nat
  | [] => (m, [])
  | other :: others =>
    let (merged, shift) := m.extendWith other
    let (final, shifts) := mergeAll merged others
    (final, shift :: shifts)

theorem laid_shifted (h : Laid entries bound) (shift : Nat) :
    Laid (entries.map (FileMap.shifted shift)) (bound + shift) := by
  constructor
  · rw [List.pairwise_map]
    apply h.apart.imp
    intro a b hab
    simp only [FileEntry.stop, FileMap.shifted] at hab ⊢
    omega
  · intro e he
    obtain ⟨a, ha, rfl⟩ := List.mem_map.mp he
    have hlt := h.below a ha
    simp only [FileEntry.stop, FileMap.shifted] at hlt ⊢
    omega

/-- Merging keeps the ranges apart. -/
theorem laid_extendWith {m other : FileMap} {b : Nat} (h : Laid m.entries bound)
    (h' : Laid other.entries b) :
    ∃ bound', Laid (m.extendWith other).1.entries bound' := by
  obtain ⟨shift, hshift⟩ : ∃ shift, shift = (m.extendWith other).2 := ⟨_, rfl⟩
  have hlaid : Laid m.entries shift := by
    refine ⟨h.apart, fun e he => ?_⟩
    have hle : e.stop ≤ m.endOffset := List.le_max?_getD_of_mem (List.mem_map_of_mem he)
    have hne : m.entries.isEmpty = false := by
      rw [List.isEmpty_eq_false_iff_exists_mem]
      exact ⟨e, he⟩
    rw [hshift, FileMap.extendWith, hne]
    exact Nat.lt_succ_of_le hle
  have hentries : (m.extendWith other).1.entries =
      m.entries ++ other.entries.map (FileMap.shifted shift) := by
    rw [hshift]
    rfl
  refine ⟨b + shift, ?_⟩
  rw [hentries]
  refine hlaid.append (laid_shifted h' shift) (Nat.le_add_left _ _) fun e he => ?_
  obtain ⟨a, -, rfl⟩ := List.mem_map.mp he
  exact Nat.le_add_left _ _

/-- The final map is laid out well, keeps what was there, and has every merged entry under its
shift. -/
theorem mergeAll_spec {m : FileMap} {maps : List FileMap} (h : ∃ bound, Laid m.entries bound)
    (hmaps : ∀ m' ∈ maps, ∃ bound, Laid m'.entries bound) :
    (∃ bound, Laid (mergeAll m maps).1.entries bound) ∧
      m.entries ⊆ (mergeAll m maps).1.entries ∧
      ∀ (i : Nat) (m' : FileMap) (shift : Nat), maps[i]? = some m' → (mergeAll m maps).2[i]? = some shift →
        ∀ e ∈ m'.entries, FileMap.shifted shift e ∈ (mergeAll m maps).1.entries := by
  induction maps generalizing m with
  | nil => exact ⟨h, fun _ he => he, fun i _ _ hi => by simp at hi⟩
  | cons other others ih =>
    obtain ⟨bound, hlaid⟩ := h
    obtain ⟨⟨b, hother⟩, hothers⟩ := List.forall_mem_cons.mp hmaps
    obtain ⟨hfinal, hsub, hall⟩ := ih (laid_extendWith hlaid hother) hothers
    refine ⟨hfinal, fun e he => hsub (List.mem_append_left _ he), ?_⟩
    intro i m' shift hi hshift e he
    cases i with
    | zero =>
      cases hi
      cases hshift
      exact hsub (List.mem_append_right _ (List.mem_map_of_mem he))
    | succ i => exact hall i m' shift hi hshift e he

/-- **Merged maps** answer as the maps did: what a lookup finds in one of the maps, a lookup
under its shift finds in the merged map, at the same offset of the same file.
Source: diagnostic.rs:105-168, lib.rs:121-160 -/
theorem lookup_mergeAll (maps : List FileMap) (hmaps : ∀ m ∈ maps, WalkBuilds m) (i : Nat)
    (m : FileMap) (shift : Nat) (hm : maps[i]? = some m)
    (hshift : (mergeAll FileMap.new maps).2[i]? = some shift) (o localOffset : Nat)
    (e : FileEntry) (hlookup : m.lookup o = some (e, localOffset)) :
    ∃ e', (mergeAll FileMap.new maps).1.lookup (o + shift) = some (e', localOffset) ∧
      e'.path = e.path ∧ e'.source = e.source := by
  obtain ⟨⟨bound, hlaid⟩, -, hall⟩ := mergeAll_spec (m := FileMap.new) ⟨0, Laid.nil 0⟩
    fun m' hm' => (hmaps m' hm').laid
  obtain ⟨he, hlo, hhi, rfl⟩ := mem_of_lookup hlookup
  have hmem := hall i m shift hm hshift e he
  refine ⟨FileMap.shifted shift e, ?_, rfl, rfl⟩
  have hstart : (FileMap.shifted shift e).start = e.start + shift := rfl
  have hstop : (FileMap.shifted shift e).stop = e.stop + shift := by
    simp only [FileEntry.stop, FileMap.shifted]
    omega
  have hfound := hlaid.lookup hmem (o := o + shift) (by omega) (by omega)
  rw [hstart, Nat.add_sub_add_right] at hfound
  exact hfound

/-- Two files, one of which uses the other, which is empty. -/
def twoFiles : Surroundings where
  canonicalize p := .ok p
  readToString p := .ok (if p = "/a" then "use" else "")
  uses text := .ok (if text = "use" then ["b"] else [])

theorem twoFiles_run : twoFiles.resolveUses 3 "/a" Resolution.initial =
    .done (.ok (), ⟨["/b", "/a"], "\nuse\n", ⟨[⟨"/b", "", 0⟩, ⟨"/a", "use", 1⟩]⟩⟩) := by
  decide +kernel

theorem lookup_mergeAll_twoFiles :
    ∃ e', (mergeAll FileMap.new [⟨[⟨"/b", "", 0⟩, ⟨"/a", "use", 1⟩]⟩,
        ⟨[⟨"/b", "", 0⟩, ⟨"/a", "use", 1⟩]⟩]).1.lookup (0 + 5) = some (e', 0) ∧
      e'.path = "/b" ∧ e'.source = "" := by
  have hbuilt : WalkBuilds ⟨[⟨"/b", "", 0⟩, ⟨"/a", "use", 1⟩]⟩ :=
    ⟨twoFiles, _, .step .initial twoFiles_run, rfl⟩
  exact lookup_mergeAll _ (by simp [hbuilt]) 1 _ 5 rfl (by decide +kernel) 0 0 ⟨"/b", "", 0⟩
    (by decide +kernel)

end Vani.Analysis

import Vani.Library.PostOrder
import Vani.Analysis.FileMaps

/-!
# The order of the includes

Where the files can be read, the resolution is a depth-first walk over the canonical paths that
lists a file when the files it uses are done, and the buffer and the file map are a function of
that list.
-/

set_option autoImplicit false

namespace Vani.Analysis

open Vani.Library Vani.Source

variable (fs : Surroundings)

/-- The files that a file uses directly, by their canonical paths. -/
def includes (c : Path) : List Path :=
  match fs.load c with
  | .error _ => []
  | .ok (_, us) => us.filterMap fun u => (fs.canonicalize (Surroundings.target c u)).toOption

/-- The text of a file. -/
def textOf (c : Path) : String :=
  match fs.load c with
  | .error _ => ""
  | .ok (source, _) => source

/-- A set of files each of which can be read and lexed and uses only files of the set. -/
def Readable (S : Finset Path) : Prop :=
  ∀ c ∈ S, ∃ source us, fs.readToString c = .ok source ∧ fs.uses source = .ok us ∧
    ∀ u ∈ us, ∃ d ∈ S, fs.canonicalize (Surroundings.target c u) = .ok d

/-- The resolution whose files are those of a list. -/
def emitted (files : List Path) : Resolution :=
  files.foldl (fun s c => Surroundings.append s c (textOf fs c)) Resolution.initial

/-- The resolution that has marked and written some files. -/
def mirror (s : List Path × List Path) : Resolution := { emitted fs s.2 with visited := s.1 }

variable {fs} {S : Finset Path} {c d : Path} {files : List Path}

theorem Readable.load (h : Readable fs S) (hc : c ∈ S) :
    ∃ us, fs.load c = .ok (textOf fs c, us) ∧ fs.readToString c = .ok (textOf fs c) ∧
      ∀ u ∈ us, ∃ d ∈ S, fs.canonicalize (Surroundings.target c u) = .ok d := by
  obtain ⟨source, us, hread, huses, hall⟩ := h c hc
  have hload : fs.load c = .ok (source, us) := by
    rw [Surroundings.load, hread]
    dsimp only
    rw [huses]
  have htext : textOf fs c = source := by rw [textOf, hload]
  rw [htext]
  exact ⟨us, hload, hread, hall⟩

/-- The set is closed under the uses. -/
theorem Readable.includes_mem (h : Readable fs S) (hc : c ∈ S) (hd : d ∈ includes fs c) :
    d ∈ S := by
  obtain ⟨us, hload, -, hall⟩ := h.load hc
  rw [includes, hload] at hd
  obtain ⟨u, hu, hd⟩ := List.mem_filterMap.mp hd
  obtain ⟨d', hd', hcanonical⟩ := hall u hu
  rw [hcanonical] at hd
  cases hd
  exact hd'

theorem emitted_append (files : List Path) (c : Path) :
    emitted fs (files ++ [c]) = Surroundings.append (emitted fs files) c (textOf fs c) := by
  rw [emitted, List.foldl_append]
  rfl

/-- Files resolved one after another follow the walk. -/
theorem forEach_walk {us : List String}
    {run : Path → Resolution → Outcome (Except String Unit × Resolution)}
    {step : List Path × List Path → Path → Option (List Path × List Path)}
    (hall : ∀ u ∈ us, ∃ d ∈ S, fs.canonicalize (Surroundings.target c u) = .ok d)
    (hrun : ∀ p d s s', fs.canonicalize p = .ok d → d ∈ S → step s d = some s' →
      run p (mirror fs s) = .done (.ok (), mirror fs s'))
    {s s' : List Path × List Path}
    (h : (us.filterMap fun u => (fs.canonicalize (Surroundings.target c u)).toOption).foldlM step s =
      some s') :
    Surroundings.forEach run (us.map (Surroundings.target c)) (mirror fs s) =
      .done (.ok (), mirror fs s') := by
  induction us generalizing s with
  | nil =>
    cases h
    rfl
  | cons u us ih =>
    obtain ⟨⟨d, hd, hcanonical⟩, hrest⟩ := List.forall_mem_cons.mp hall
    rw [List.filterMap_cons_some (by rw [hcanonical]; rfl), List.foldlM_cons, Option.bind_eq_bind,
      Option.bind_eq_some_iff] at h
    obtain ⟨s₁, hfirst, h⟩ := h
    rw [List.map_cons, Surroundings.forEach, hrun _ d s s₁ hcanonical hd hfirst, Outcome.done_bind]
    exact ih hrest h

/-- The resolution follows the walk. -/
theorem resolveUses_walk (hS : Readable fs S) {fuel : Nat} {p : Path}
    {s s' : List Path × List Path} (hp : fs.canonicalize p = .ok c) (hc : c ∈ S)
    (h : Library.walk (includes fs) fuel c s = some s') :
    fs.resolveUses fuel p (mirror fs s) = .done (.ok (), mirror fs s') := by
  induction fuel generalizing p c s s' with
  | zero => cases h
  | succ fuel ih =>
    have hvisited : (mirror fs s).visited = s.1 := rfl
    rw [Library.walk] at h
    rw [Surroundings.resolveUses, hp]
    dsimp only
    rw [hvisited]
    by_cases hmem : c ∈ s.1
    · rw [if_pos hmem] at h ⊢
      cases h
      rfl
    · rw [if_neg hmem] at h ⊢
      obtain ⟨s₁, hrun, rfl⟩ := Option.map_eq_some_iff.mp h
      obtain ⟨us, hload, -, hall⟩ := hS.load hc
      rw [includes, hload] at hrun
      have hforEach := forEach_walk hall (fun p d s s' hp hd hs => ih hp hd hs) hrun
      rw [hload]
      dsimp only
      have hmark : { mirror fs s with visited := c :: s.1 } = mirror fs (c :: s.1, s.2) := rfl
      rw [hmark, hforEach, Outcome.done_bind]
      dsimp only
      rw [mirror, mirror, emitted_append]
      rfl

/-! ## The buffer and its map -/

/-- The files of a map, in order. -/
def filesOf (m : FileMap) : List Path := m.entries.map FileEntry.path

/-- The texts of the entries, each with a line end after it, make up the buffer. -/
structure TextsPlaced (s : Resolution) : Prop where
  joined : s.out = String.join (s.fileMap.entries.map fun e => e.source ++ "\n")
  placed : ∀ e ∈ s.fileMap.entries, ∃ before after,
    s.out = before ++ e.source ++ after ∧ before.utf8ByteSize = e.start

theorem TextsPlaced.append {s : Resolution} (h : TextsPlaced s) (c : Path) (source : String) :
    TextsPlaced (Surroundings.append s c source) := by
  have hentries : (Surroundings.append s c source).fileMap.entries =
      s.fileMap.entries ++ [⟨c, source, s.out.utf8ByteSize⟩] := rfl
  have hout : (Surroundings.append s c source).out = s.out ++ source ++ "\n" := rfl
  constructor
  · rw [hentries, hout, List.map_append, String.join_append, ← h.joined, String.append_assoc]
    rfl
  · intro e he
    rw [hentries] at he
    rw [hout]
    rcases List.mem_append.mp he with he | he
    · obtain ⟨before, after, heq, hsize⟩ := h.placed e he
      refine ⟨before, after ++ source ++ "\n", ?_, hsize⟩
      rw [heq]
      simp only [String.append_assoc]
    · rw [List.mem_singleton.mp he]
      exact ⟨s.out, "\n", rfl, rfl⟩

theorem textsPlaced_emitted (fs : Surroundings) (files : List Path) : TextsPlaced (emitted fs files) := by
  induction files using List.reverseRecOn with
  | nil => exact ⟨rfl, by simp [emitted, Resolution.initial, FileMap.new]⟩
  | append_singleton files c ih =>
    rw [emitted_append]
    exact ih.append c _

theorem filesOf_emitted (files : List Path) : filesOf (emitted fs files).fileMap = files := by
  induction files using List.reverseRecOn with
  | nil => rfl
  | append_singleton files c ih =>
    rw [emitted_append]
    show ((emitted fs files).fileMap.entries ++ [_]).map FileEntry.path = _
    rw [List.map_append]
    exact congrArg (· ++ [c]) ih

theorem source_emitted {e : FileEntry} (he : e ∈ (emitted fs files).fileMap.entries) :
    e.source = textOf fs e.path := by
  induction files using List.reverseRecOn with
  | nil => simp [emitted, Resolution.initial, FileMap.new] at he
  | append_singleton files c ih =>
    rw [emitted_append] at he
    rcases List.mem_append.mp he with he | he
    · exact ih he
    · rw [List.mem_singleton.mp he]

/-! ## The linearisation -/

/-- The walk from a file of a readable set lists the files that the file reaches. -/
theorem walk_lists (hS : Readable fs S) (hc : c ∈ S) :
    ∃ v files, Library.walk (includes fs) (S.card + 1) c ([], []) = some (v, files) ∧ files.Nodup ∧
      (∀ d, d ∈ files ↔ Reaches (includes fs) c d) ∧
      ∀ d ∈ files, ∀ e ∈ includes fs d, ¬ Reaches (includes fs) e d → [e, d].Sublist files := by
  have hclosed : ∀ d ∈ S, ∀ e ∈ includes fs d, e ∈ S := fun d hd e he => hS.includes_mem hd he
  obtain ⟨⟨v, files⟩, hwalk, -⟩ := walk_total (s := ([], [])) hclosed hc
    (Nat.lt_succ_of_le (Finset.card_le_card (Finset.filter_subset _ _)))
  obtain ⟨new, hnew⟩ := walk_walked (fun z hz => by simp at hz) hwalk
  have hfiles : files = new := hnew.listed
  have hmarked : ∀ d, d ∈ v ↔ d ∈ files := fun d => by
    rw [hfiles, hnew.marked d]
    simp
  refine ⟨v, files, hwalk, hfiles ▸ hnew.nodup, fun d => ⟨fun hd => ?_, fun hd => ?_⟩, ?_⟩
  · obtain ⟨r, hr, hreach⟩ := hnew.reached d (hfiles ▸ hd)
    rwa [List.mem_singleton.mp hr] at hreach
  · induction hd with
    | start => exact (hmarked c).mp (hnew.roots_marked c (List.mem_singleton_self c))
    | step _ hstep ih => exact (hmarked _).mp (hnew.closed _ (hfiles ▸ ih) _ hstep)
  · intro d hd e he hback
    exact (hnew.ordered d (hfiles ▸ hd) e he).resolve_right hback

/-- **Include resolution** on files that can be read and lexed ends and is a faithful
linearisation: the buffer is made of the texts of the files that the entry reaches, each once,
and each after the files it uses that do not reach it back; the entries of the file map delimit
the texts, and an offset of a text, its end included, is found in its file.
Source: lib.rs:121-160, diagnostic.rs:105-127 -/
theorem resolveUses_linear (fs : Surroundings) (S : Finset Path) (hS : Readable fs S)
    (entry c : Path) (hentry : fs.canonicalize entry = .ok c) (hc : c ∈ S) :
    ∃ s, fs.resolveUses (S.card + 1) entry Resolution.initial = .done (.ok (), s) ∧
      (filesOf s.fileMap).Nodup ∧
      (∀ d, d ∈ filesOf s.fileMap ↔ Reaches (includes fs) c d) ∧
      (∀ e ∈ s.fileMap.entries, fs.readToString e.path = .ok e.source) ∧
      s.out = String.join (s.fileMap.entries.map fun e => e.source ++ "\n") ∧
      (∀ d ∈ filesOf s.fileMap, ∀ e ∈ includes fs d, ¬ Reaches (includes fs) e d →
        [e, d].Sublist (filesOf s.fileMap)) ∧
      (∀ e ∈ s.fileMap.entries, ∃ before after,
        s.out = before ++ e.source ++ after ∧ before.utf8ByteSize = e.start) ∧
      ∀ e ∈ s.fileMap.entries, ∀ o, e.start ≤ o → o ≤ e.start + e.source.utf8ByteSize →
        s.fileMap.lookup o = some (e, o - e.start) := by
  obtain ⟨v, files, hwalk, hnodup, hmem, horder⟩ := walk_lists hS hc
  have hrun : fs.resolveUses (S.card + 1) entry Resolution.initial =
      .done (.ok (), mirror fs (v, files)) := resolveUses_walk hS hentry hc hwalk
  have hfiles : filesOf (mirror fs (v, files)).fileMap = files := filesOf_emitted files
  have hwritten := textsPlaced_emitted fs files
  have hlaid := (Resolved.initial.step hrun).laid
  have hsub : ∀ d, Reaches (includes fs) c d → d ∈ S := fun d hd => by
    induction hd with
    | start => exact hc
    | step _ hstep ih => exact hS.includes_mem ih hstep
  refine ⟨mirror fs (v, files), hrun, ?_, ?_, ?_, hwritten.joined, ?_, hwritten.placed, ?_⟩
  · rw [hfiles]
    exact hnodup
  · rw [hfiles]
    exact hmem
  · intro e he
    have hpath : e.path ∈ files := by
      rw [← hfiles]
      exact List.mem_map_of_mem he
    obtain ⟨-, -, hread, -⟩ := hS.load (hsub _ ((hmem _).mp hpath))
    rw [source_emitted he]
    exact hread
  · rw [hfiles]
    exact horder
  · exact fun e he o hlo hhi => hlaid.lookup he hlo hhi

theorem readable_twoFiles : Readable twoFiles {"/a", "/b"} := by
  intro c hc
  rcases Finset.mem_insert.mp hc with rfl | hc
  · refine ⟨"use", ["b"], rfl, rfl, fun u hu => ⟨"/b", by simp, ?_⟩⟩
    rw [List.mem_singleton.mp hu]
    decide +kernel
  · rw [Finset.mem_singleton.mp hc]
    exact ⟨"", [], rfl, rfl, by simp⟩

theorem resolveUses_linear_twoFiles :
    ∃ s, twoFiles.resolveUses 3 "/a" Resolution.initial = .done (.ok (), s) ∧
      filesOf s.fileMap = ["/b", "/a"] ∧
      (∀ d, d ∈ filesOf s.fileMap ↔ Reaches (includes twoFiles) "/a" d) := by
  obtain ⟨s, hrun, -, hmem, -⟩ :=
    resolveUses_linear twoFiles {"/a", "/b"} readable_twoFiles "/a" "/a" rfl (by simp)
  have hrun' : twoFiles.resolveUses 3 "/a" Resolution.initial = .done (.ok (), s) := hrun
  refine ⟨s, hrun', ?_, hmem⟩
  rw [twoFiles_run] at hrun'
  cases hrun'
  rfl

end Vani.Analysis

import Mathlib.Logic.Function.Iterate
import Vani.Source.Manifest

/-!
# Termination of the manifest loader

The loader goes from a manifest into those of its dependencies, in their order, and leaves at
the first that fails. It remembers nothing of its way, so it ends exactly where no chain of
manifests that it goes into is endless.
-/

set_option autoImplicit false

namespace Vani.Analysis

open Vani.Library Vani.Source

variable {read : ReadFile} {p q : Path}

/-- A manifest that can be read, is well formed, and has dependencies that are loadable in turn. -/
inductive Loadable (read : ReadFile) : Path → Prop
  | mk {p : Path} {package : PackageText} (h : readPackage read p = .ok package)
      (hdeps : ∀ d ∈ package.deps, Loadable read (depManifest p d.2)) : Loadable read p

/-- The loader goes from one manifest into another: a dependency behind loadable ones. -/
def Enters (read : ReadFile) (p q : Path) : Prop :=
  ∃ package before d after, readPackage read p = .ok package ∧
    package.deps = before ++ d :: after ∧ (∀ b ∈ before, Loadable read (depManifest p b.2)) ∧
    q = depManifest p d.2

/-- The loader returns, with a manifest or with an error. -/
def Loads (read : ReadFile) (p : Path) : Prop := ∃ depth r, loadManifest read depth p = .done r

variable {run : Path → Outcome (Except ManifestError Manifest)} {deps : List (String × String)}

/-- Where the dependencies load, each of their manifests does. -/
theorem loadDeps_ok {ds : List Dependency} (h : loadDeps run p deps = .done (.ok ds)) :
    ∀ d ∈ deps, ∃ m, run (depManifest p d.2) = .done (.ok m) := by
  induction deps generalizing ds with
  | nil => exact fun d hd => (List.not_mem_nil hd).elim
  | cons d deps ih =>
    obtain ⟨name, rel⟩ := d
    rw [loadDeps] at h
    obtain ⟨r, hrun, h⟩ := Outcome.bind_eq_done h
    cases r with
    | error e => cases h
    | ok m =>
      obtain ⟨r', hrest, h⟩ := Outcome.bind_eq_done h
      cases r' with
      | error e => cases h
      | ok ds' =>
        intro d hd
        rcases List.mem_cons.mp hd with rfl | hd
        · exact ⟨m, hrun⟩
        · exact ih hrest d hd

/-- What loads is loadable. -/
theorem loadable_of_load {depth : Nat} {m : Manifest}
    (h : loadManifest read depth p = .done (.ok m)) : Loadable read p := by
  induction depth generalizing p m with
  | zero => cases h
  | succ depth ih =>
    rw [loadManifest] at h
    cases hpackage : readPackage read p with
    | error e =>
      rw [hpackage] at h
      cases h
    | ok package =>
      rw [hpackage] at h
      obtain ⟨r, hdeps, h⟩ := Outcome.bind_eq_done h
      cases r with
      | error e => cases h
      | ok ds =>
        refine ⟨hpackage, fun d hd => ?_⟩
        obtain ⟨m', hrun⟩ := loadDeps_ok hdeps d hd
        exact ih hrun

/-! ## Depth -/

attribute [local simp] loadManifest loadDeps

/-- More calls that return leave the dependencies as they are. -/
theorem loadDeps_mono {run' : Path → Outcome (Except ManifestError Manifest)}
    (hrun : ∀ p r, run p = .done r → run' p = .done r) {r : Except ManifestError (List Dependency)}
    (h : loadDeps run p deps = .done r) : loadDeps run' p deps = .done r := by
  induction deps generalizing r with
  | nil => exact h
  | cons d deps ih =>
    obtain ⟨name, rel⟩ := d
    rw [loadDeps] at h ⊢
    obtain ⟨r₁, hfirst, h⟩ := Outcome.bind_eq_done h
    rw [hrun _ _ hfirst, Outcome.done_bind]
    cases r₁ with
    | error e => exact h
    | ok m =>
      obtain ⟨r₂, hrest, h⟩ := Outcome.bind_eq_done h
      dsimp only
      rw [ih hrest, Outcome.done_bind]
      exact h

theorem load_succ {depth : Nat} {r : Except ManifestError Manifest}
    (h : loadManifest read depth p = .done r) : loadManifest read (depth + 1) p = .done r := by
  induction depth generalizing p r with
  | zero => cases h
  | succ depth ih =>
    rw [loadManifest] at h ⊢
    cases hpackage : readPackage read p with
    | error e =>
      rw [hpackage] at h
      exact h
    | ok package =>
      rw [hpackage] at h
      obtain ⟨r₁, hdeps, h⟩ := Outcome.bind_eq_done h
      dsimp only
      rw [loadDeps_mono (fun p r hr => ih hr) hdeps, Outcome.done_bind]
      exact h

/-- What the loader returns, it returns at every greater depth. -/
theorem load_mono {depth depth' : Nat} (hle : depth ≤ depth') {r : Except ManifestError Manifest}
    (h : loadManifest read depth p = .done r) : loadManifest read depth' p = .done r := by
  induction hle with
  | refl => exact h
  | step _ ih => exact load_succ ih

/-- Dependencies that all load, load together. -/
theorem loadDeps_of_ok (h : ∀ d ∈ deps, ∃ m, run (depManifest p d.2) = .done (.ok m)) :
    ∃ ds, loadDeps run p deps = .done (.ok ds) := by
  induction deps with
  | nil => exact ⟨[], rfl⟩
  | cons d deps ih =>
    obtain ⟨name, rel⟩ := d
    obtain ⟨⟨m, hfirst⟩, hrest⟩ := List.forall_mem_cons.mp h
    obtain ⟨ds, hds⟩ := ih hrest
    refine ⟨⟨name, m.entryPath⟩ :: ds, ?_⟩
    rw [loadDeps, hfirst, Outcome.done_bind]
    dsimp only
    rw [hds]
    rfl

/-- A depth that suffices for each dependency of a list. -/
theorem common_depth {P : Nat → String × String → Prop}
    (hmono : ∀ d {n m : Nat}, n ≤ m → P n d → P m d) (h : ∀ d ∈ deps, ∃ n, P n d) :
    ∃ n, ∀ d ∈ deps, P n d := by
  induction deps with
  | nil => exact ⟨0, by simp⟩
  | cons d deps ih =>
    obtain ⟨⟨n, hn⟩, hrest⟩ := List.forall_mem_cons.mp h
    obtain ⟨m, hm⟩ := ih hrest
    refine ⟨max n m, List.forall_mem_cons.mpr ⟨hmono d (Nat.le_max_left n m) hn, fun d' hd' => ?_⟩⟩
    exact hmono d' (Nat.le_max_right n m) (hm d' hd')

/-- What is loadable loads. -/
theorem load_of_loadable (h : Loadable read p) :
    ∃ depth m, loadManifest read depth p = .done (.ok m) := by
  induction h with
  | @mk p package hpackage _ ih =>
    obtain ⟨depth, hall⟩ := common_depth
      (P := fun n d => ∃ m, loadManifest read n (depManifest p d.2) = .done (.ok m))
      (fun d n m hle ⟨m', hm'⟩ => ⟨m', load_mono hle hm'⟩) ih
    obtain ⟨ds, hds⟩ := loadDeps_of_ok hall
    refine ⟨depth + 1, ⟨package.name, (rootDir p).join package.entryRel, rootDir p, ds⟩, ?_⟩
    rw [loadManifest, hpackage]
    dsimp only
    rw [hds]
    rfl

/-- A loadable manifest does not load with an error. -/
theorem ok_of_loadable (hs : Loadable read p) {depth : Nat} {r : Except ManifestError Manifest}
    (h : loadManifest read depth p = .done r) : ∃ m, r = .ok m := by
  obtain ⟨depth', m, hm⟩ := load_of_loadable hs
  have h₁ := load_mono (Nat.le_max_left depth depth') h
  rw [load_mono (Nat.le_max_right depth depth') hm] at h₁
  cases h₁
  exact ⟨m, rfl⟩

/-! ## Chains -/

/-- Where the dependencies return, each of them behind loadable ones does. -/
theorem loadDeps_enters {before after : List (String × String)} {d : String × String}
    (hbefore : ∀ b ∈ before, ∀ r, run (depManifest p b.2) = .done r → ∃ m, r = .ok m)
    {r : Except ManifestError (List Dependency)}
    (h : loadDeps run p (before ++ d :: after) = .done r) :
    ∃ r', run (depManifest p d.2) = .done r' := by
  induction before generalizing r with
  | nil =>
    rw [List.nil_append, loadDeps] at h
    obtain ⟨r', hfirst, -⟩ := Outcome.bind_eq_done h
    exact ⟨r', hfirst⟩
  | cons b before ih =>
    obtain ⟨hb, hrest⟩ := List.forall_mem_cons.mp hbefore
    rw [List.cons_append, loadDeps] at h
    obtain ⟨r₁, hfirst, h⟩ := Outcome.bind_eq_done h
    obtain ⟨m, rfl⟩ := hb r₁ hfirst
    obtain ⟨r₂, hdeps, -⟩ := Outcome.bind_eq_done h
    exact ih hrest hdeps

/-- What the loader goes into returns at a smaller depth. -/
theorem load_enters {depth : Nat} {r : Except ManifestError Manifest}
    (h : loadManifest read (depth + 1) p = .done r) (hq : Enters read p q) :
    ∃ r', loadManifest read depth q = .done r' := by
  obtain ⟨package, before, d, after, hpackage, hdeps, hsound, rfl⟩ := hq
  rw [loadManifest, hpackage] at h
  dsimp only at h
  rw [hdeps] at h
  obtain ⟨r₁, hrun, -⟩ := Outcome.bind_eq_done h
  exact loadDeps_enters (fun b hb r hr => ok_of_loadable (hsound b hb) hr) hrun

/-- The loader does not return where it goes on for ever. -/
theorem not_loads_of_chain {chain : Nat → Path} (h : ∀ i, Enters read (chain i) (chain (i + 1))) :
    ¬ Loads read (chain 0) := by
  rintro ⟨depth, r, hr⟩
  induction depth generalizing chain r with
  | zero => cases hr
  | succ depth ih =>
    obtain ⟨r', hr'⟩ := load_enters hr (h 0)
    exact ih (fun i => h (i + 1)) r' hr'

/-- The dependencies return, where each that the loader goes into does. -/
theorem loadDeps_returns {package : PackageText} (hpackage : readPackage read p = .ok package)
    (hall : ∀ q, Enters read p q → Loads read q) {before rest : List (String × String)}
    (hdeps : package.deps = before ++ rest)
    (hbefore : ∀ b ∈ before, Loadable read (depManifest p b.2)) :
    ∃ depth r, loadDeps (loadManifest read depth) p rest = .done r := by
  induction rest generalizing before with
  | nil => exact ⟨0, .ok [], rfl⟩
  | cons d rest ih =>
    obtain ⟨depth, r, hr⟩ := hall _ ⟨package, before, d, rest, hpackage, hdeps, hbefore, rfl⟩
    cases r with
    | error e =>
      refine ⟨depth, ?_⟩
      rw [loadDeps, hr, Outcome.done_bind]
      exact ⟨_, rfl⟩
    | ok m =>
      have hsound : ∀ b ∈ before ++ [d], Loadable read (depManifest p b.2) := by
        intro b hb
        rcases List.mem_append.mp hb with hb | hb
        · exact hbefore b hb
        · rw [List.mem_singleton.mp hb]
          exact loadable_of_load hr
      obtain ⟨depth', r', hr'⟩ := ih (by rw [hdeps, List.append_assoc]; rfl) hsound
      have hmore := loadDeps_mono
        (fun p r hr => load_mono (Nat.le_max_right depth depth') hr) hr'
      refine ⟨max depth depth', ?_⟩
      rw [loadDeps, load_mono (Nat.le_max_left depth depth') hr, Outcome.done_bind]
      dsimp only
      rw [hmore]
      cases r' with
      | error e => exact ⟨_, rfl⟩
      | ok ds => exact ⟨_, rfl⟩

/-- Where the loader does not return, it goes into a manifest where it does not either. -/
theorem enters_of_not_loads (h : ¬ Loads read p) : ∃ q, Enters read p q ∧ ¬ Loads read q := by
  by_contra hno
  have hall : ∀ q, Enters read p q → Loads read q := fun q hq => by
    by_contra hnot
    exact hno ⟨q, hq, hnot⟩
  apply h
  cases hpackage : readPackage read p with
  | error e => exact ⟨1, .error e, by rw [loadManifest, hpackage]; rfl⟩
  | ok package =>
    obtain ⟨depth, r, hr⟩ :=
      loadDeps_returns hpackage hall (List.nil_append package.deps).symm (by simp)
    refine ⟨depth + 1, ?_⟩
    rw [loadManifest, hpackage]
    dsimp only
    rw [hr]
    cases r with
    | error e => exact ⟨_, rfl⟩
    | ok ds => exact ⟨_, rfl⟩

/-- **The loader of manifests** returns exactly where no chain of manifests is endless, each of
them a dependency of the one before behind dependencies that are loadable.
Source: manifest.rs:102-154 -/
theorem loads_iff (read : ReadFile) (p : Path) :
    Loads read p ↔
      ¬ ∃ chain : Nat → Path, chain 0 = p ∧ ∀ i, Enters read (chain i) (chain (i + 1)) := by
  constructor
  · rintro h ⟨chain, rfl, hchain⟩
    exact not_loads_of_chain hchain h
  · intro hno
    by_contra hnot
    -- a manifest where the loader does not return leads to the next one
    have hnext : ∀ x : {x // ¬ Loads read x}, ∃ y : {y // ¬ Loads read y}, Enters read x.1 y.1 :=
      fun x => by
        obtain ⟨q, hq, hq'⟩ := enters_of_not_loads x.2
        exact ⟨⟨q, hq'⟩, hq⟩
    choose next hnext using hnext
    refine hno ⟨fun i => (next^[i] ⟨p, hnot⟩).1, rfl, fun i => ?_⟩
    show Enters read (next^[i] ⟨p, hnot⟩).1 (next^[i + 1] ⟨p, hnot⟩).1
    rw [Function.iterate_succ_apply']
    exact hnext _

/-- A package that has its own directory as a dependency. -/
def selfDependent : ReadFile := fun path =>
  if path = "/p/vani.toml" ∨ path = "/p/./vani.toml" then
    .ok "[package]\nname = \"p\"\nentry = \"main.vani\"\n[deps]\nself = \x7b path = \".\" \x7d\n"
  else .error "No such file or directory (os error 2)"

theorem selfDependent_endless : ¬ ∀ read p, Loads read p := by
  intro h
  have hself : readPackage selfDependent "/p/./vani.toml" =
      .ok ⟨"p", "main.vani", [("self", ".")]⟩ := by
    decide +kernel
  have henters : Enters selfDependent "/p/./vani.toml" "/p/./vani.toml" :=
    ⟨_, [], ("self", "."), [], hself, rfl, by simp, by decide +kernel⟩
  have hchain : ∀ i : Nat, Enters selfDependent ((fun _ => "/p/./vani.toml") i)
      ((fun _ => "/p/./vani.toml") (i + 1)) := fun _ => henters
  exact not_loads_of_chain hchain (h _ _)

end Vani.Analysis

import Vani.Analysis.TypeWalks
import Vani.Library.TopologicalOrder

/-!
# What aliases stand for

The expansion of a name: an alias stands for the expansion of its target, the name of an enum for
the enum, any other for the struct. It exists where no alias mentions itself, through whatever
constructors. The search for aliases goes only where the walk goes, and finds a cycle, or a type
for each alias, in what it sees. What it found is the expansion where nothing that needs one is
hidden from it.
-/

set_option autoImplicit false

namespace Vani.Analysis

open Vani.Program Vani.Library Relation

/-! ## Resolved aliases -/

section Search

variable (T : String → Option Ty)

/-- An alias mentions another where the walk finds it. -/
def SeesAlias (a b : String) : Prop := ∃ t, T a = some t ∧ b ∈ walkedIn t ∧ (T b).isSome

/-- What a name is replaced by. -/
def look (r : ResolvedAliases) (n : String) : Ty := (r.lookup n).getD (.struct n)

/-- Entries stay as they are. -/
def Extends (r r' : ResolvedAliases) : Prop := ∀ n t, r.lookup n = some t → r'.lookup n = some t

/-- The aliases resolved so far: each is its target, with all aliases in it resolved and put in
their places, and no alias among those it leads to leads back. -/
structure SoundAliases (r : ResolvedAliases) : Prop where
  entries : ∀ n t, r.lookup n = some t → ∃ s, T n = some s ∧ t = s.walk (look r) ∧
    ∀ m ∈ walkedIn s, (T m).isSome → (r.lookup m).isSome
  acc : ∀ n, (r.lookup n).isSome → Acc (fun b a => SeesAlias T a b) n

variable {T} {r r' r'' : ResolvedAliases}

theorem Extends.refl (r : ResolvedAliases) : Extends r r := fun _ _ h => h

theorem Extends.trans (h : Extends r r') (h' : Extends r' r'') : Extends r r'' :=
  fun n t hn => h' n t (h n t hn)

theorem Extends.isSome (h : Extends r r') {n : String} (hn : (r.lookup n).isSome) :
    (r'.lookup n).isSome := by
  obtain ⟨t, ht⟩ := Option.isSome_iff_exists.1 hn
  rw [h n t ht]
  rfl

theorem SoundAliases.lookup_none (h : SoundAliases T r) (n : String) (hn : T n = none) :
    r.lookup n = none := by
  cases hr : r.lookup n with
  | none => rfl
  | some t =>
    obtain ⟨s, hs, -⟩ := h.entries n t hr
    rw [hn] at hs
    cases hs

/-- Once the aliases in a type are resolved, further ones change nothing. -/
theorem walk_look_stable (h : ∀ n, T n = none → r.lookup n = none)
    (h' : ∀ n, T n = none → r'.lookup n = none) (hext : Extends r r') {s : Ty} (hs : ∀ m ∈ walkedIn s, (T m).isSome → (r.lookup m).isSome) :
    s.walk (look r) = s.walk (look r') := by
  apply walk_congr
  intro m hm
  unfold look
  cases hT : T m with
  | none => rw [h m hT, h' m hT]
  | some u =>
    obtain ⟨t, ht⟩ := Option.isSome_iff_exists.1 (hs m hm (by simp [hT]))
    rw [ht, hext m t ht]

theorem except_map_eq_ok {ε α β : Type} {x : Except ε α} {f : α → β} {b : β} (h : x.map f = .ok b) :
    ∃ a, x = .ok a ∧ f a = b := by
  cases x with
  | error e => cases h
  | ok a => exact ⟨a, rfl, Except.ok.inj h⟩

theorem except_map_eq_error {ε α β : Type} {x : Except ε α} {f : α → β} {e : ε}
    (h : x.map f = .error e) : x = .error e := by
  cases x with
  | error e' =>
    cases h
    rfl
  | ok a => cases h

theorem except_bind_eq_ok {ε α β : Type} {x : Except ε α} {f : α → Except ε β} {b : β}
    (h : x.bind f = .ok b) : ∃ a, x = .ok a ∧ f a = .ok b := by
  cases x with
  | error e => cases h
  | ok a => exact ⟨a, rfl, h⟩

theorem except_bind_eq_error {ε α β : Type} {x : Except ε α} {f : α → Except ε β} {e : ε}
    (h : x.bind f = .error e) : x = .error e ∨ ∃ a, x = .ok a ∧ f a = .error e := by
  cases x with
  | error e' =>
    cases h
    exact Or.inl rfl
  | ok a => exact Or.inr ⟨a, rfl, h⟩

/-- What resolving an alias comes to, where some names must not be resolved on the way. -/
def ChainSpec (T : String → Option Ty) (stack : List String)
    (chain : String → ResolvedAliases → Except AliasError ResolvedAliases) : Prop :=
  ∀ n r r', chain n r = .ok r' → SoundAliases T r →
    SoundAliases T r' ∧ Extends r r' ∧ ((T n).isSome → (r'.lookup n).isSome) ∧
      ∀ m ∈ stack, r.lookup m = none → r'.lookup m = none

/-- What resolving the aliases in a type comes to. -/
structure TypeSpec (T : String → Option Ty) (stack : List String) (r r' : ResolvedAliases)
    (names : List String) : Prop where
  sound : SoundAliases T r'
  ext : Extends r r'
  resolved : ∀ m ∈ names, (T m).isSome → (r'.lookup m).isSome
  kept : ∀ m ∈ stack, r.lookup m = none → r'.lookup m = none

theorem TypeSpec.append {stack names names' : List String} (h : TypeSpec T stack r r' names)
    (h' : TypeSpec T stack r' r'' names') : TypeSpec T stack r r'' (names ++ names') where
  sound := h'.sound
  ext := h.ext.trans h'.ext
  resolved m hm hT := by
    rcases List.mem_append.1 hm with hm | hm
    · exact h'.ext.isSome (h.resolved m hm hT)
    · exact h'.resolved m hm hT
  kept m hm hnone := h'.kept m hm (h.kept m hm hnone)

variable {stack : List String}
  {chain : String → ResolvedAliases → Except AliasError ResolvedAliases}

mutual

theorem resolveTypeWith_ok (hchain : ChainSpec T stack chain) : ∀ (t : Ty) {r r' : ResolvedAliases}
    {t' : Ty}, resolveTypeWith (fun n => (T n).isSome) chain t r = .ok (t', r') → SoundAliases T r →
      TypeSpec T stack r r' (walkedIn t) ∧ t' = t.walk (look r')
  | .struct n, r, r', t', h, hr => by
    simp only [resolveTypeWith] at h
    split at h
    · rename_i hn
      obtain ⟨r1, hr1, heq⟩ := except_map_eq_ok h
      cases heq
      obtain ⟨hsound, hext, hsome, hkept⟩ := hchain n r _ hr1 hr
      refine ⟨⟨hsound, hext, ?_, hkept⟩, rfl⟩
      intro m hm
      rw [List.mem_singleton.1 hm]
      exact hsome
    · rename_i hn
      cases h
      refine ⟨⟨hr, Extends.refl r, ?_, fun _ _ h => h⟩, ?_⟩
      · intro m hm
        rw [List.mem_singleton.1 hm]
        intro hT
        exact absurd hT hn
      · rw [Ty.walk, look, hr.lookup_none n (by simpa using hn)]
        rfl
  | .vec t, _, _, _, h, hr | .ref t, _, _, _, h, hr | .refMut t, _, _, _, h, hr
  | .atomic t, _, _, _, h, hr | .mutex t, _, _, _, h, hr | .guard t, _, _, _, h, hr
  | .array t _, _, _, _, h, hr | .channel t _, _, _, _, h, hr => by
    simp only [resolveTypeWith] at h
    obtain ⟨x, hx, heq⟩ := except_map_eq_ok h
    cases heq
    obtain ⟨hspec, ht⟩ := resolveTypeWith_ok hchain t hx hr
    refine ⟨hspec, ?_⟩
    simp only [id, Ty.walk, ht]
  | .tuple ts, _, _, _, h, hr => by
    simp only [resolveTypeWith] at h
    obtain ⟨x, hx, heq⟩ := except_map_eq_ok h
    cases heq
    obtain ⟨hspec, ht⟩ := resolveTypesWith_ok hchain ts hx hr
    refine ⟨hspec, ?_⟩
    simp only [id, Ty.walk, ht]
  | .fnPtr ts t, _, _, _, h, hr => by
    simp only [resolveTypeWith] at h
    obtain ⟨x, hx, h⟩ := except_bind_eq_ok h
    obtain ⟨y, hy, heq⟩ := except_map_eq_ok h
    cases heq
    obtain ⟨hspec, hts⟩ := resolveTypesWith_ok hchain ts hx hr
    obtain ⟨hspec', ht⟩ := resolveTypeWith_ok hchain t hy hspec.sound
    refine ⟨hspec.append hspec', ?_⟩
    have hstable := walk_look_stable (s := .tuple ts) hspec.sound.lookup_none
      hspec'.sound.lookup_none hspec'.ext hspec.resolved
    simp only [Ty.walk, Ty.tuple.injEq] at hstable
    simp only [id, Ty.walk, ht, hts, hstable]
  | .int _, r, _, _, h, hr | .float _, r, _, _, h, hr | .bool, r, _, _, h, hr
  | .str, r, _, _, h, hr | .ownedStr, r, _, _, h, hr | .enum _, r, _, _, h, hr
  | .param _, r, _, _, h, hr | .task, r, _, _, h, hr | .object _, r, _, _, h, hr
  | .condvar, r, _, _, h, hr | .unionFind, r, _, _, h, hr | .bloomFilter, r, _, _, h, hr
  | .graph, r, _, _, h, hr | .trie, r, _, _, h, hr | .skipList, r, _, _, h, hr
  | .apply _ _, r, _, _, h, hr | .deque _, r, _, _, h, hr | .hashSet _, r, _, _, h, hr
  | .hashMap _ _, r, _, _, h, hr | .bTreeSet _, r, _, _, h, hr | .bTreeMap _ _, r, _, _, h, hr
  | .binaryHeap _, r, _, _, h, hr | .bst _, r, _, _, h, hr => by
    simp only [resolveTypeWith] at h
    cases h
    refine ⟨⟨hr, Extends.refl r, ?_, fun _ _ h => h⟩, ?_⟩
    · simp [walkedIn]
    · simp [Ty.walk]

theorem resolveTypesWith_ok (hchain : ChainSpec T stack chain) : ∀ (ts : List Ty)
    {r r' : ResolvedAliases} {ts' : List Ty},
      resolveTypesWith (fun n => (T n).isSome) chain ts r = .ok (ts', r') → SoundAliases T r →
        TypeSpec T stack r r' (walkedInAll ts) ∧ ts' = Ty.walkAll (look r') ts
  | [], r, _, _, h, hr => by
    simp only [resolveTypesWith] at h
    cases h
    exact ⟨⟨hr, Extends.refl r, by simp [walkedInAll], fun _ _ h => h⟩, by simp [Ty.walkAll]⟩
  | t :: ts, _, _, _, h, hr => by
    simp only [resolveTypesWith] at h
    obtain ⟨x, hx, h⟩ := except_bind_eq_ok h
    obtain ⟨y, hy, heq⟩ := except_map_eq_ok h
    cases heq
    obtain ⟨hspec, ht⟩ := resolveTypeWith_ok hchain t hx hr
    obtain ⟨hspec', hts⟩ := resolveTypesWith_ok hchain ts hy hspec.sound
    refine ⟨hspec.append hspec', ?_⟩
    have hstable := walk_look_stable hspec.sound.lookup_none hspec'.sound.lookup_none
      hspec'.ext hspec.resolved
    simp only [id, Ty.walkAll, ht, hts, hstable]

end

mutual

/-- Where resolving the aliases in a type fails, it is at one of them. -/
theorem resolveTypeWith_error {e : AliasError} : ∀ (t : Ty) {r : ResolvedAliases},
    resolveTypeWith (fun n => (T n).isSome) chain t r = .error e →
      ∃ n ∈ walkedIn t, (T n).isSome ∧ ∃ r, chain n r = .error e
  | .struct n, r, h => by
    simp only [resolveTypeWith] at h
    split at h
    · rename_i hn
      exact ⟨n, List.mem_singleton_self n, hn, r, except_map_eq_error h⟩
    · cases h
  | .vec t, _, h | .ref t, _, h | .refMut t, _, h | .atomic t, _, h | .mutex t, _, h
  | .guard t, _, h | .array t _, _, h | .channel t _, _, h => by
    simp only [resolveTypeWith] at h
    exact resolveTypeWith_error t (except_map_eq_error h)
  | .tuple ts, _, h => by
    simp only [resolveTypeWith] at h
    exact resolveTypesWith_error ts (except_map_eq_error h)
  | .fnPtr ts t, _, h => by
    simp only [resolveTypeWith] at h
    rcases except_bind_eq_error h with h | ⟨x, -, h⟩
    · obtain ⟨n, hn, hrest⟩ := resolveTypesWith_error ts h
      exact ⟨n, List.mem_append_left _ hn, hrest⟩
    · obtain ⟨n, hn, hrest⟩ := resolveTypeWith_error t (except_map_eq_error h)
      exact ⟨n, List.mem_append_right _ hn, hrest⟩
  | .int _, _, h | .float _, _, h | .bool, _, h | .str, _, h | .ownedStr, _, h | .enum _, _, h
  | .param _, _, h | .task, _, h | .object _, _, h | .condvar, _, h | .unionFind, _, h
  | .bloomFilter, _, h | .graph, _, h | .trie, _, h | .skipList, _, h | .apply _ _, _, h
  | .deque _, _, h | .hashSet _, _, h | .hashMap _ _, _, h | .bTreeSet _, _, h
  | .bTreeMap _ _, _, h | .binaryHeap _, _, h | .bst _, _, h => by
    simp [resolveTypeWith] at h

theorem resolveTypesWith_error {e : AliasError} : ∀ (ts : List Ty) {r : ResolvedAliases},
    resolveTypesWith (fun n => (T n).isSome) chain ts r = .error e →
      ∃ n ∈ walkedInAll ts, (T n).isSome ∧ ∃ r, chain n r = .error e
  | [], _, h => by
    simp [resolveTypesWith] at h
  | t :: ts, _, h => by
    simp only [resolveTypesWith] at h
    rcases except_bind_eq_error h with h | ⟨x, -, h⟩
    · obtain ⟨n, hn, hrest⟩ := resolveTypeWith_error t h
      exact ⟨n, List.mem_append_left _ hn, hrest⟩
    · obtain ⟨n, hn, hrest⟩ := resolveTypesWith_error ts (except_map_eq_error h)
      exact ⟨n, List.mem_append_right _ hn, hrest⟩

end

/-- An alias whose target is resolved joins those that are. -/
theorem SoundAliases.cons {n : String} {s : Ty} (h : SoundAliases T r) (hn : r.lookup n = none)
    (hs : T n = some s) (hresolved : ∀ m ∈ walkedIn s, (T m).isSome → (r.lookup m).isSome) :
    SoundAliases T ((n, s.walk (look r)) :: r) ∧ Extends r ((n, s.walk (look r)) :: r) := by
  have hext : Extends r ((n, s.walk (look r)) :: r) := by
    intro m t hm
    have hne : (m == n) = false := by
      apply beq_eq_false_iff_ne.2
      rintro rfl
      rw [hn] at hm
      cases hm
    rw [List.lookup_cons, hne]
    exact hm
  have hknown : ∀ m, T m = none → ((n, s.walk (look r)) :: r).lookup m = none := by
    intro m hm
    have hne : (m == n) = false := by
      apply beq_eq_false_iff_ne.2
      rintro rfl
      rw [hs] at hm
      cases hm
    rw [List.lookup_cons, hne]
    exact h.lookup_none m hm
  have hstable : ∀ u : Ty, (∀ m ∈ walkedIn u, (T m).isSome → (r.lookup m).isSome) →
      u.walk (look r) = u.walk (look ((n, s.walk (look r)) :: r)) :=
    fun u hu => walk_look_stable h.lookup_none hknown hext hu
  refine ⟨⟨?_, ?_⟩, hext⟩
  · intro m t hm
    rw [List.lookup_cons] at hm
    split at hm
    · rename_i heq
      rw [beq_iff_eq.1 heq]
      cases hm
      exact ⟨s, hs, hstable s hresolved, fun k hk hT => hext.isSome (hresolved k hk hT)⟩
    · obtain ⟨u, hu, rfl, hmentions⟩ := h.entries m t hm
      exact ⟨u, hu, hstable u hmentions, fun k hk hT => hext.isSome (hmentions k hk hT)⟩
  · intro m hm
    rw [List.lookup_cons] at hm
    split at hm
    · rename_i heq
      rw [beq_iff_eq.1 heq]
      apply Acc.intro
      rintro b ⟨u, hu, hb, hT⟩
      rw [hs] at hu
      cases hu
      exact h.acc b (hresolved b hb hT)
    · exact h.acc m hm

/-- Every name that is resolved is resolved soundly, and none of the stack is. -/
theorem resolveAliasChain_ok : ∀ (fuel : Nat) (stack : List String),
    ChainSpec T stack (resolveAliasChain T fuel stack)
  | 0, _, _, _, _, h, _ => by simp [resolveAliasChain] at h
  | fuel + 1, stack, n, r, r', h, hr => by
    rw [resolveAliasChain] at h
    split at h
    · rename_i hn
      cases h
      exact ⟨hr, Extends.refl _, fun _ => hn, fun _ _ h => h⟩
    · rename_i hn
      have hnone : r.lookup n = none := Option.not_isSome_iff_eq_none.1 hn
      split at h
      · cases h
      · rename_i hstack
        split at h
        · rename_i hT
          cases h
          exact ⟨hr, Extends.refl _, fun h => by simp [hT] at h, fun _ _ h => h⟩
        · rename_i s hT
          obtain ⟨⟨t, r1⟩, hx, heq⟩ := except_map_eq_ok h
          cases heq
          obtain ⟨hspec, rfl⟩ :=
            resolveTypeWith_ok (resolveAliasChain_ok fuel (n :: stack)) s hx hr
          have hfresh : r1.lookup n = none := hspec.kept n List.mem_cons_self hnone
          obtain ⟨hsound, hext⟩ := hspec.sound.cons hfresh hT hspec.resolved
          refine ⟨hsound, hspec.ext.trans hext, fun _ => by simp, ?_⟩
          intro m hm hmnone
          have hne : (m == n) = false := by
            apply beq_eq_false_iff_ne.2
            rintro rfl
            exact hstack hm
          rw [List.lookup_cons, hne]
          exact hspec.kept m (List.mem_cons_of_mem _ hm) hmnone

/-- The search for one alias fails only where an alias leads back to itself. -/
theorem resolveAliasChain_error {l : List String} (hl : ∀ n, (T n).isSome → n ∈ l)
    {e : AliasError} : ∀ (fuel : Nat) (stack : List String) (n : String) (r : ResolvedAliases),
      resolveAliasChain T fuel stack n r = .error e → (T n).isSome → stack.Nodup →
        (∀ s ∈ stack, s ∈ l) → l.length < fuel + stack.length →
          (∀ s ∈ stack, TransGen (SeesAlias T) s n) →
            (∃ m, e = .recursive m) ∧ Cyclic (SeesAlias T)
  | 0, stack, _, _, _, _, hnodup, hsub, hlen, _ => by
    have hle := (List.subperm_of_subset hnodup hsub).length_le
    omega
  | fuel + 1, stack, n, r, h, hn, hnodup, hsub, hlen, hpath => by
    rw [resolveAliasChain] at h
    split at h
    · cases h
    · split at h
      · rename_i hstack
        cases h
        exact ⟨⟨n, rfl⟩, n, hpath n hstack⟩
      · rename_i hstack
        split at h
        · cases h
        · rename_i s hT
          obtain ⟨b, hb, hbT, r1, hinner⟩ := resolveTypeWith_error s (except_map_eq_error h)
          have hsees : SeesAlias T n b := ⟨s, hT, hb, hbT⟩
          apply resolveAliasChain_error hl fuel (n :: stack) b r1 hinner hbT
          · exact List.nodup_cons.2 ⟨hstack, hnodup⟩
          · intro m hm
            rcases List.mem_cons.1 hm with rfl | hm
            · exact hl m hn
            · exact hsub m hm
          · simp only [List.length_cons]
            omega
          · intro m hm
            rcases List.mem_cons.1 hm with rfl | hm
            · exact TransGen.single hsees
            · exact (hpath m hm).tail hsees

/-- Resolving one name after the other resolves them all. -/
theorem resolveAll_ok {fuel : Nat} : ∀ (names : List String) {r r' : ResolvedAliases},
    names.foldlM (fun r n => resolveAliasChain T fuel [] n r) r = .ok r' → SoundAliases T r →
      SoundAliases T r' ∧ Extends r r' ∧ ∀ n ∈ names, (T n).isSome → (r'.lookup n).isSome
  | [], _, _, h, hr => by
    rw [List.foldlM_nil] at h
    cases h
    exact ⟨hr, Extends.refl _, by simp⟩
  | n :: names, r, r', h, hr => by
    rw [List.foldlM_cons] at h
    obtain ⟨r1, hr1, h⟩ := except_bind_eq_ok h
    obtain ⟨hsound, hext, hn, -⟩ := resolveAliasChain_ok fuel [] n r r1 hr1 hr
    obtain ⟨hsound', hext', hnames⟩ := resolveAll_ok names h hsound
    refine ⟨hsound', hext.trans hext', ?_⟩
    intro m hm hT
    rcases List.mem_cons.1 hm with rfl | hm
    · exact hext'.isSome (hn hT)
    · exact hnames m hm hT

/-- Resolving one name after the other fails only at a cycle. -/
theorem resolveAll_error {l : List String} (hl : ∀ n, (T n).isSome → n ∈ l) {e : AliasError} :
    ∀ (names : List String) {r : ResolvedAliases}, (∀ n ∈ names, (T n).isSome) →
      names.foldlM (fun r n => resolveAliasChain T (l.length + 1) [] n r) r = .error e →
        (∃ m, e = .recursive m) ∧ Cyclic (SeesAlias T)
  | [], _, _, h => by
    rw [List.foldlM_nil] at h
    cases h
  | n :: names, r, hnames, h => by
    rw [List.foldlM_cons] at h
    rcases except_bind_eq_error h with h | ⟨r1, -, h⟩
    · exact resolveAliasChain_error hl (l.length + 1) [] n r h (hnames n List.mem_cons_self)
        List.nodup_nil (by simp) (by simp) (by simp)
    · exact resolveAll_error hl names (fun m hm => hnames m (List.mem_cons_of_mem _ hm)) h

theorem soundAliases_nil : SoundAliases T [] where
  entries _ _ h := by cases h
  acc _ h := by simp at h

/-- Where every alias is resolved, none leads back to itself. -/
theorem SoundAliases.not_cyclic (h : SoundAliases T r)
    (hall : ∀ n, (T n).isSome → (r.lookup n).isSome) : ¬Cyclic (SeesAlias T) := by
  apply not_cyclic_of_wellFounded
  refine ⟨fun n => ?_⟩
  cases hT : T n with
  | some t => exact h.acc n (hall n (by simp [hT]))
  | none =>
    apply Acc.intro
    rintro b ⟨t, ht, -⟩
    rw [hT] at ht
    cases ht

end Search

/-! ## Expansions -/

section Expansion

variable (T : String → Option Ty) (E : List String)

/-- An alias mentions another, through whatever constructors. -/
def MentionsAlias (a b : String) : Prop := ∃ t, T a = some t ∧ b ∈ namesIn t ∧ (T b).isSome

/-- A name that is that of no alias and no enum. -/
def StructName (n : String) : Prop := T n = none ∧ n ∉ E

/-- What every name of the source denotes: an alias the expansion of its target, the name of an
enum the enum. -/
structure IsExpansion (ξ : String → Ty) : Prop where
  ofAlias : ∀ n t, T n = some t → ξ n = everywhere ξ t
  ofEnum : ∀ n, T n = none → n ∈ E → ξ n = .enum n
  ofStruct : ∀ n, T n = none → n ∉ E → ξ n = .struct n

variable {T E} {ξ ξ' : String → Ty}

theorem SeesAlias.mentions {a b : String} (h : SeesAlias T a b) : MentionsAlias T a b := by
  obtain ⟨t, ht, hb, hT⟩ := h
  exact ⟨t, ht, (mem_namesIn_iff t).2 (Or.inl hb), hT⟩

/-- Without a cycle, everything has an expansion. -/
theorem exists_expansion (hwf : WellFounded fun b a => MentionsAlias T a b) :
    ∃ ξ, IsExpansion T E ξ := by
  classical
  let base : String → Ty := fun n => if n ∈ E then .enum n else .struct n
  let step : ∀ n, (∀ m, MentionsAlias T n m → Ty) → Ty := fun n rec =>
    (T n).elim (base n) (everywhere fun m => if hm : MentionsAlias T n m then rec m hm else base m)
  let ξ := hwf.fix step
  have hfix : ∀ n, ξ n = step n fun m _ => ξ m := fun n => hwf.fix_eq step n
  have hbase : ∀ n, T n = none → ξ n = base n := by
    intro n hn
    rw [hfix]
    simp only [step, hn, Option.elim_none]
  refine ⟨ξ, ?_, ?_, ?_⟩
  · intro n t hn
    rw [hfix]
    simp only [step, hn, Option.elim_some]
    apply everywhere_congr
    intro m hm
    by_cases hmention : MentionsAlias T n m
    · rw [dif_pos hmention]
    · rw [dif_neg hmention]
      have hT : T m = none := by
        cases hTm : T m with
        | none => rfl
        | some u => exact absurd ⟨t, hn, hm, by simp [hTm]⟩ hmention
      exact (hbase m hT).symm
  · intro n hn hE
    rw [hbase n hn]
    simp [base, hE]
  · intro n hn hE
    rw [hbase n hn]
    simp [base, hE]

/-- There is only one. -/
theorem IsExpansion.unique (hwf : WellFounded fun b a => MentionsAlias T a b)
    (h : IsExpansion T E ξ) (h' : IsExpansion T E ξ') : ξ = ξ' := by
  funext n
  induction n using hwf.induction with
  | _ n ih =>
    cases hn : T n with
    | some t =>
      rw [h.ofAlias n t hn, h'.ofAlias n t hn]
      apply everywhere_congr
      intro m hm
      cases hT : T m with
      | some u => exact ih m ⟨t, hn, hm, by simp [hT]⟩
      | none =>
        by_cases hE : m ∈ E
        · rw [h.ofEnum m hT hE, h'.ofEnum m hT hE]
        · rw [h.ofStruct m hT hE, h'.ofStruct m hT hE]
    | none =>
      by_cases hE : n ∈ E
      · rw [h.ofEnum n hn hE, h'.ofEnum n hn hE]
      · rw [h.ofStruct n hn hE, h'.ofStruct n hn hE]

/-- No alias and no enum is left as a struct in an expansion. -/
theorem IsExpansion.structName (hwf : WellFounded fun b a => MentionsAlias T a b)
    (h : IsExpansion T E ξ) (n : String) : ∀ m ∈ namesIn (ξ n), StructName T E m := by
  induction n using hwf.induction with
  | _ n ih =>
    intro m hm
    cases hn : T n with
    | some t =>
      rw [h.ofAlias n t hn, mem_namesIn_everywhere] at hm
      obtain ⟨k, hk, hm⟩ := hm
      cases hT : T k with
      | some u => exact ih k ⟨t, hn, hk, by simp [hT]⟩ m hm
      | none =>
        by_cases hE : k ∈ E
        · rw [h.ofEnum k hT hE] at hm
          simp [namesIn] at hm
        · rw [h.ofStruct k hT hE] at hm
          rw [List.mem_singleton.1 hm]
          exact ⟨hT, hE⟩
    | none =>
      by_cases hE : n ∈ E
      · rw [h.ofEnum n hn hE] at hm
        simp [namesIn] at hm
      · rw [h.ofStruct n hn hE] at hm
        rw [List.mem_singleton.1 hm]
        exact ⟨hn, hE⟩

/-- Only the name of a struct denotes the struct of that name. -/
theorem IsExpansion.eq_struct_iff (hwf : WellFounded fun b a => MentionsAlias T a b)
    (h : IsExpansion T E ξ) (n : String) : ξ n = .struct n ↔ StructName T E n := by
  constructor
  · intro heq
    apply h.structName hwf n n
    rw [heq]
    exact List.mem_singleton_self n
  · intro hn
    exact h.ofStruct n hn.1 hn.2

/-! ## What the passes come to -/

/-- Nothing to replace is hidden from the walk, in a type or in the targets of the aliases that it
leads to. -/
structure OpenType (T : String → Option Ty) (E : List String) (t : Ty) : Prop where
  here : ∀ n ∈ hiddenIn t, StructName T E n
  targets : ∀ a ∈ walkedIn t, ∀ b s, ReflTransGen (SeesAlias T) a b → T b = some s →
    ∀ n ∈ hiddenIn s, StructName T E n

/-- What the two passes replace a name by. -/
structure IsReplacement (T : String → Option Ty) (E : List String) (ρ : String → Ty) : Prop where
  ofAlias : ∀ n t, T n = some t → ρ n = t.walk ρ
  ofEnum : ∀ n, T n = none → n ∈ E → ρ n = .enum n
  ofStruct : ∀ n, T n = none → n ∉ E → ρ n = .struct n

variable {ρ : String → Ty}

/-- A name is replaced by what it denotes exactly when nothing is hidden in the targets that it
leads to. -/
theorem replacement_eq_iff (hwf : WellFounded fun b a => MentionsAlias T a b)
    (h : IsExpansion T E ξ) (hρ : IsReplacement T E ρ) (n : String) :
    ρ n = ξ n ↔ ∀ b s, ReflTransGen (SeesAlias T) n b → T b = some s →
      ∀ m ∈ hiddenIn s, StructName T E m := by
  induction n using hwf.induction with
  | _ n ih =>
    cases hn : T n with
    | none =>
      have heq : ρ n = ξ n := by
        by_cases hE : n ∈ E
        · rw [h.ofEnum n hn hE, hρ.ofEnum n hn hE]
        · rw [h.ofStruct n hn hE, hρ.ofStruct n hn hE]
      refine iff_of_true heq ?_
      intro b s hb hs
      rcases ReflTransGen.cases_head hb with rfl | ⟨c, ⟨t, ht, -⟩, -⟩
      · rw [hn] at hs
        cases hs
      · rw [hn] at ht
        cases ht
    | some t =>
      rw [hρ.ofAlias n t hn, h.ofAlias n t hn, walk_eq_everywhere_iff]
      constructor
      · rintro ⟨hwalked, hhidden⟩ b s hb hs
        rcases ReflTransGen.cases_head hb with rfl | ⟨c, hc, hcb⟩
        · rw [hn] at hs
          cases hs
          intro m hm
          exact (h.eq_struct_iff hwf m).1 (hhidden m hm)
        · obtain ⟨u, hu, hcu, hT⟩ := id hc
          rw [hn] at hu
          cases hu
          exact (ih c hc.mentions).1 (hwalked c hcu) b s hcb hs
      · intro hall
        refine ⟨?_, ?_⟩
        · intro m hm
          cases hT : T m with
          | some u =>
            have hsees : SeesAlias T n m := ⟨t, hn, hm, by simp [hT]⟩
            exact (ih m hsees.mentions).2 fun b s hb hs => hall b s (ReflTransGen.head hsees hb) hs
          | none =>
            by_cases hE : m ∈ E
            · rw [h.ofEnum m hT hE, hρ.ofEnum m hT hE]
            · rw [h.ofStruct m hT hE, hρ.ofStruct m hT hE]
        · intro m hm
          exact (h.eq_struct_iff hwf m).2 (hall n t ReflTransGen.refl hn m hm)

/-- A type that both passes walk becomes what it denotes exactly when nothing is hidden. -/
theorem walk_replacement_iff (hwf : WellFounded fun b a => MentionsAlias T a b)
    (h : IsExpansion T E ξ) (hρ : IsReplacement T E ρ) (t : Ty) :
    t.walk ρ = everywhere ξ t ↔ OpenType T E t := by
  rw [walk_eq_everywhere_iff]
  constructor
  · rintro ⟨hwalked, hhidden⟩
    refine ⟨fun n hn => (h.eq_struct_iff hwf n).1 (hhidden n hn), ?_⟩
    intro a ha
    exact (replacement_eq_iff hwf h hρ a).1 (hwalked a ha)
  · rintro ⟨hhere, htargets⟩
    refine ⟨fun n hn => (replacement_eq_iff hwf h hρ n).2 (htargets n hn), ?_⟩
    intro n hn
    exact (h.eq_struct_iff hwf n).2 (hhere n hn)

end Expansion

end Vani.Analysis

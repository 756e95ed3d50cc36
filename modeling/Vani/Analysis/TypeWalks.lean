import Vani.Program.TypeAliases
import Mathlib.Tactic.Common

/-!
# Names in types

What the passes on type names do to one type, beside what they should do: replace a name wherever
it occurs. The two agree on a type exactly when they agree on the names that the walk finds and
nothing has to be replaced at the names that it does not find.
-/

set_option autoImplicit false

namespace Vani.Analysis

open Vani.Program

/-! ## Replacing everywhere -/

mutual

/-- The names of structs in a type replaced, wherever they occur. -/
def everywhere (f : String → Ty) : Ty → Ty
  | .struct name => f name
  | .vec inner => .vec (everywhere f inner)
  | .ref inner => .ref (everywhere f inner)
  | .refMut inner => .refMut (everywhere f inner)
  | .atomic inner => .atomic (everywhere f inner)
  | .mutex inner => .mutex (everywhere f inner)
  | .guard inner => .guard (everywhere f inner)
  | .array element length => .array (everywhere f element) length
  | .channel inner capacity => .channel (everywhere f inner) capacity
  | .tuple elements => .tuple (everywhereAll f elements)
  | .fnPtr params ret => .fnPtr (everywhereAll f params) (everywhere f ret)
  | .apply name args => .apply name (everywhereAll f args)
  | .deque inner => .deque (everywhere f inner)
  | .hashSet inner => .hashSet (everywhere f inner)
  | .hashMap key value => .hashMap (everywhere f key) (everywhere f value)
  | .bTreeSet inner => .bTreeSet (everywhere f inner)
  | .bTreeMap key value => .bTreeMap (everywhere f key) (everywhere f value)
  | .binaryHeap inner => .binaryHeap (everywhere f inner)
  | .bst inner => .bst (everywhere f inner)
  | t => t

def everywhereAll (f : String → Ty) : List Ty → List Ty
  | [] => []
  | t :: ts => everywhere f t :: everywhereAll f ts

end

mutual

/-- The names of structs in a type. -/
def namesIn : Ty → List String
  | .struct name => [name]
  | .vec inner | .ref inner | .refMut inner | .atomic inner | .mutex inner | .guard inner
  | .array inner _ | .channel inner _ | .deque inner | .hashSet inner | .bTreeSet inner
  | .binaryHeap inner | .bst inner => namesIn inner
  | .tuple elements => namesInAll elements
  | .fnPtr params ret => namesInAll params ++ namesIn ret
  | .apply _ args => namesInAll args
  | .hashMap key value | .bTreeMap key value => namesIn key ++ namesIn value
  | _ => []

def namesInAll : List Ty → List String
  | [] => []
  | t :: ts => namesIn t ++ namesInAll ts

end

mutual

/-- The names of structs that the walk finds in a type. -/
def walkedIn : Ty → List String
  | .struct name => [name]
  | .vec inner | .ref inner | .refMut inner | .atomic inner | .mutex inner | .guard inner
  | .array inner _ | .channel inner _ => walkedIn inner
  | .tuple elements => walkedInAll elements
  | .fnPtr params ret => walkedInAll params ++ walkedIn ret
  | _ => []

def walkedInAll : List Ty → List String
  | [] => []
  | t :: ts => walkedIn t ++ walkedInAll ts

end

mutual

/-- The names of structs in a type that the walk does not find. -/
def hiddenIn : Ty → List String
  | .vec inner | .ref inner | .refMut inner | .atomic inner | .mutex inner | .guard inner
  | .array inner _ | .channel inner _ => hiddenIn inner
  | .tuple elements => hiddenInAll elements
  | .fnPtr params ret => hiddenInAll params ++ hiddenIn ret
  | .apply _ args => namesInAll args
  | .deque inner | .hashSet inner | .bTreeSet inner | .binaryHeap inner | .bst inner =>
    namesIn inner
  | .hashMap key value | .bTreeMap key value => namesIn key ++ namesIn value
  | _ => []

def hiddenInAll : List Ty → List String
  | [] => []
  | t :: ts => hiddenIn t ++ hiddenInAll ts

end

/-! ## Names -/

mutual

/-- A name is found by the walk or hidden from it. -/
theorem mem_namesIn_iff {n : String} : ∀ t : Ty, n ∈ namesIn t ↔ n ∈ walkedIn t ∨ n ∈ hiddenIn t
  | .vec t | .ref t | .refMut t | .atomic t | .mutex t | .guard t | .array t _ | .channel t _ => by
    simp only [namesIn, walkedIn, hiddenIn]
    exact mem_namesIn_iff t
  | .tuple ts => by
    simp only [namesIn, walkedIn, hiddenIn]
    exact mem_namesInAll_iff ts
  | .fnPtr ts t => by
    simp only [namesIn, walkedIn, hiddenIn, List.mem_append, mem_namesIn_iff t,
      mem_namesInAll_iff ts]
    exact or_or_or_comm
  | .int _ | .float _ | .bool | .str | .ownedStr | .struct _ | .enum _ | .param _ | .task
  | .object _ | .condvar | .unionFind | .bloomFilter | .graph | .trie | .skipList | .apply _ _
  | .deque _ | .hashSet _ | .hashMap _ _ | .bTreeSet _ | .bTreeMap _ _ | .binaryHeap _ | .bst _ => by
    simp [namesIn, walkedIn, hiddenIn]

theorem mem_namesInAll_iff {n : String} :
    ∀ ts : List Ty, n ∈ namesInAll ts ↔ n ∈ walkedInAll ts ∨ n ∈ hiddenInAll ts
  | [] => by simp [namesInAll, walkedInAll, hiddenInAll]
  | t :: ts => by
    simp only [namesInAll, walkedInAll, hiddenInAll, List.mem_append, mem_namesIn_iff t,
      mem_namesInAll_iff ts]
    exact or_or_or_comm

end

mutual

/-- Replacing leaves a type alone exactly when it leaves its names alone. -/
theorem everywhere_eq_self_iff {f : String → Ty} :
    ∀ t : Ty, everywhere f t = t ↔ ∀ n ∈ namesIn t, f n = .struct n
  | .vec t | .ref t | .refMut t | .atomic t | .mutex t | .guard t | .array t _ | .channel t _
  | .deque t | .hashSet t | .bTreeSet t | .binaryHeap t | .bst t => by
    simp [everywhere, namesIn, everywhere_eq_self_iff t]
  | .tuple ts | .apply _ ts => by
    simp [everywhere, namesIn, everywhereAll_eq_self_iff ts]
  | .fnPtr ts t => by
    simp [everywhere, namesIn, everywhereAll_eq_self_iff ts, everywhere_eq_self_iff t, or_imp,
      forall_and]
  | .hashMap k t | .bTreeMap k t => by
    simp [everywhere, namesIn, everywhere_eq_self_iff k, everywhere_eq_self_iff t, or_imp,
      forall_and]
  | .struct _ => by simp [everywhere, namesIn]
  | .int _ | .float _ | .bool | .str | .ownedStr | .enum _ | .param _ | .task | .object _
  | .condvar | .unionFind | .bloomFilter | .graph | .trie | .skipList => by
    simp [everywhere, namesIn]

theorem everywhereAll_eq_self_iff {f : String → Ty} :
    ∀ ts : List Ty, everywhereAll f ts = ts ↔ ∀ n ∈ namesInAll ts, f n = .struct n
  | [] => by simp [everywhereAll, namesInAll]
  | t :: ts => by
    simp [everywhereAll, namesInAll, everywhere_eq_self_iff t, everywhereAll_eq_self_iff ts, or_imp,
      forall_and]

end

mutual

/-- What the walk does is what should be done exactly when it is at the names it finds, and nothing
is to be done at the others. -/
theorem walk_eq_everywhere_iff {f g : String → Ty} :
    ∀ t : Ty, t.walk f = everywhere g t ↔
      (∀ n ∈ walkedIn t, f n = g n) ∧ ∀ n ∈ hiddenIn t, g n = .struct n
  | .vec t | .ref t | .refMut t | .atomic t | .mutex t | .guard t | .array t _ | .channel t _ => by
    simp [everywhere, Ty.walk, walkedIn, hiddenIn, walk_eq_everywhere_iff t]
  | .tuple ts => by
    simp [everywhere, Ty.walk, walkedIn, hiddenIn, walkAll_eq_everywhereAll_iff ts]
  | .fnPtr ts t => by
    simp only [everywhere, Ty.walk, walkedIn, hiddenIn, Ty.fnPtr.injEq,
      walkAll_eq_everywhereAll_iff ts, walk_eq_everywhere_iff t, List.mem_append, or_imp, forall_and]
    exact and_and_and_comm
  | .apply _ ts => by
    have h := everywhereAll_eq_self_iff (f := g) ts
    simp [everywhere, Ty.walk, walkedIn, hiddenIn, ← h, eq_comm]
  | .deque t | .hashSet t | .bTreeSet t | .binaryHeap t | .bst t => by
    have h := everywhere_eq_self_iff (f := g) t
    simp [everywhere, Ty.walk, walkedIn, hiddenIn, ← h, eq_comm]
  | .hashMap k t | .bTreeMap k t => by
    have hk := everywhere_eq_self_iff (f := g) k
    have ht := everywhere_eq_self_iff (f := g) t
    simp [everywhere, Ty.walk, walkedIn, hiddenIn, or_imp, forall_and, ← hk, ← ht, eq_comm]
  | .struct _ => by simp [everywhere, Ty.walk, walkedIn, hiddenIn]
  | .int _ | .float _ | .bool | .str | .ownedStr | .enum _ | .param _ | .task | .object _
  | .condvar | .unionFind | .bloomFilter | .graph | .trie | .skipList => by
    simp [everywhere, Ty.walk, walkedIn, hiddenIn]

theorem walkAll_eq_everywhereAll_iff {f g : String → Ty} :
    ∀ ts : List Ty, Ty.walkAll f ts = everywhereAll g ts ↔
      (∀ n ∈ walkedInAll ts, f n = g n) ∧ ∀ n ∈ hiddenInAll ts, g n = .struct n
  | [] => by simp [everywhereAll, Ty.walkAll, walkedInAll, hiddenInAll]
  | t :: ts => by
    simp only [everywhereAll, Ty.walkAll, walkedInAll, hiddenInAll, List.cons.injEq,
      walk_eq_everywhere_iff t, walkAll_eq_everywhereAll_iff ts, List.mem_append, or_imp, forall_and]
    exact and_and_and_comm

end

/-! ## Walks after walks -/

mutual

theorem walk_walk {f g : String → Ty} :
    ∀ t : Ty, (t.walk g).walk f = t.walk fun n => (g n).walk f
  | .vec t | .ref t | .refMut t | .atomic t | .mutex t | .guard t | .array t _ | .channel t _ => by
    simp [Ty.walk, walk_walk t]
  | .tuple ts => by
    simp [Ty.walk, walkAll_walkAll ts]
  | .fnPtr ts t => by
    simp [Ty.walk, walkAll_walkAll ts, walk_walk t]
  | .struct _ | .int _ | .float _ | .bool | .str | .ownedStr | .enum _ | .param _ | .task
  | .object _ | .condvar | .unionFind | .bloomFilter | .graph | .trie | .skipList | .apply _ _
  | .deque _ | .hashSet _ | .hashMap _ _ | .bTreeSet _ | .bTreeMap _ _ | .binaryHeap _ | .bst _ => by
    simp [Ty.walk]

theorem walkAll_walkAll {f g : String → Ty} :
    ∀ ts : List Ty, Ty.walkAll f (Ty.walkAll g ts) = Ty.walkAll (fun n => (g n).walk f) ts
  | [] => by simp [Ty.walkAll]
  | t :: ts => by simp [Ty.walkAll, walk_walk t, walkAll_walkAll ts]

end

mutual

/-- What the walk does depends on the names it finds. -/
theorem walk_congr {f g : String → Ty} :
    ∀ t : Ty, (∀ n ∈ walkedIn t, f n = g n) → t.walk f = t.walk g
  | .vec t, h | .ref t, h | .refMut t, h | .atomic t, h | .mutex t, h | .guard t, h
  | .array t _, h | .channel t _, h => by
    simp only [Ty.walk, walk_congr t h]
  | .tuple ts, h => by
    simp only [Ty.walk, walkAll_congr ts h]
  | .fnPtr ts t, h => by
    simp only [walkedIn, List.mem_append, or_imp, forall_and] at h
    simp only [Ty.walk, walkAll_congr ts h.1, walk_congr t h.2]
  | .struct _, h => h _ (List.mem_singleton_self _)
  | .int _, _ | .float _, _ | .bool, _ | .str, _ | .ownedStr, _ | .enum _, _ | .param _, _
  | .task, _ | .object _, _ | .condvar, _ | .unionFind, _ | .bloomFilter, _ | .graph, _ | .trie, _
  | .skipList, _ | .apply _ _, _ | .deque _, _ | .hashSet _, _ | .hashMap _ _, _ | .bTreeSet _, _
  | .bTreeMap _ _, _ | .binaryHeap _, _ | .bst _, _ => by
    simp [Ty.walk]

theorem walkAll_congr {f g : String → Ty} :
    ∀ ts : List Ty, (∀ n ∈ walkedInAll ts, f n = g n) → Ty.walkAll f ts = Ty.walkAll g ts
  | [], _ => by simp [Ty.walkAll]
  | t :: ts, h => by
    simp only [walkedInAll, List.mem_append, or_imp, forall_and] at h
    simp only [Ty.walkAll, walk_congr t h.1, walkAll_congr ts h.2]

end

mutual

/-- The names the walk finds after a walk are those it finds in what it put in their places. -/
theorem mem_walkedIn_walk {f : String → Ty} {n : String} :
    ∀ t : Ty, n ∈ walkedIn (t.walk f) ↔ ∃ m ∈ walkedIn t, n ∈ walkedIn (f m)
  | .vec t | .ref t | .refMut t | .atomic t | .mutex t | .guard t | .array t _ | .channel t _ => by
    simp [Ty.walk, walkedIn, mem_walkedIn_walk t]
  | .tuple ts => by
    simp [Ty.walk, walkedIn, mem_walkedInAll_walk ts]
  | .fnPtr ts t => by
    simp only [Ty.walk, walkedIn, List.mem_append, mem_walkedInAll_walk ts, mem_walkedIn_walk t,
      or_and_right, exists_or]
  | .struct _ | .int _ | .float _ | .bool | .str | .ownedStr | .enum _ | .param _ | .task
  | .object _ | .condvar | .unionFind | .bloomFilter | .graph | .trie | .skipList | .apply _ _
  | .deque _ | .hashSet _ | .hashMap _ _ | .bTreeSet _ | .bTreeMap _ _ | .binaryHeap _ | .bst _ => by
    simp [Ty.walk, walkedIn]

theorem mem_walkedInAll_walk {f : String → Ty} {n : String} :
    ∀ ts : List Ty, n ∈ walkedInAll (Ty.walkAll f ts) ↔ ∃ m ∈ walkedInAll ts, n ∈ walkedIn (f m)
  | [] => by simp [Ty.walkAll, walkedInAll]
  | t :: ts => by
    simp only [Ty.walkAll, walkedInAll, List.mem_append, mem_walkedIn_walk t,
      mem_walkedInAll_walk ts, or_and_right, exists_or]

end

mutual

/-- The names in a type after replacing are those in what was put in their places. -/
theorem mem_namesIn_everywhere {f : String → Ty} {n : String} :
    ∀ t : Ty, n ∈ namesIn (everywhere f t) ↔ ∃ m ∈ namesIn t, n ∈ namesIn (f m)
  | .vec t | .ref t | .refMut t | .atomic t | .mutex t | .guard t | .array t _ | .channel t _
  | .deque t | .hashSet t | .bTreeSet t | .binaryHeap t | .bst t => by
    simp [everywhere, namesIn, mem_namesIn_everywhere t]
  | .tuple ts | .apply _ ts => by
    simp [everywhere, namesIn, mem_namesInAll_everywhere ts]
  | .fnPtr ts t => by
    simp only [everywhere, namesIn, List.mem_append, mem_namesInAll_everywhere ts,
      mem_namesIn_everywhere t, or_and_right, exists_or]
  | .hashMap k t | .bTreeMap k t => by
    simp only [everywhere, namesIn, List.mem_append, mem_namesIn_everywhere k,
      mem_namesIn_everywhere t, or_and_right, exists_or]
  | .struct _ | .int _ | .float _ | .bool | .str | .ownedStr | .enum _ | .param _ | .task
  | .object _ | .condvar | .unionFind | .bloomFilter | .graph | .trie | .skipList => by
    simp [everywhere, namesIn]

theorem mem_namesInAll_everywhere {f : String → Ty} {n : String} :
    ∀ ts : List Ty, n ∈ namesInAll (everywhereAll f ts) ↔ ∃ m ∈ namesInAll ts, n ∈ namesIn (f m)
  | [] => by simp [everywhereAll, namesInAll]
  | t :: ts => by
    simp only [everywhereAll, namesInAll, List.mem_append, mem_namesIn_everywhere t,
      mem_namesInAll_everywhere ts, or_and_right, exists_or]

end

mutual

/-- What replacing does depends on the names in the type. -/
theorem everywhere_congr {f g : String → Ty} :
    ∀ t : Ty, (∀ n ∈ namesIn t, f n = g n) → everywhere f t = everywhere g t
  | .vec t, h | .ref t, h | .refMut t, h | .atomic t, h | .mutex t, h | .guard t, h
  | .array t _, h | .channel t _, h | .deque t, h | .hashSet t, h | .bTreeSet t, h
  | .binaryHeap t, h | .bst t, h => by
    simp only [everywhere, everywhere_congr t h]
  | .tuple ts, h | .apply _ ts, h => by
    simp only [everywhere, everywhereAll_congr ts h]
  | .fnPtr ts t, h => by
    simp only [namesIn, List.mem_append, or_imp, forall_and] at h
    simp only [everywhere, everywhereAll_congr ts h.1, everywhere_congr t h.2]
  | .hashMap k t, h | .bTreeMap k t, h => by
    simp only [namesIn, List.mem_append, or_imp, forall_and] at h
    simp only [everywhere, everywhere_congr k h.1, everywhere_congr t h.2]
  | .struct _, h => h _ (List.mem_singleton_self _)
  | .int _, _ | .float _, _ | .bool, _ | .str, _ | .ownedStr, _ | .enum _, _ | .param _, _
  | .task, _ | .object _, _ | .condvar, _ | .unionFind, _ | .bloomFilter, _ | .graph, _ | .trie, _
  | .skipList, _ => by
    simp [everywhere]

theorem everywhereAll_congr {f g : String → Ty} :
    ∀ ts : List Ty, (∀ n ∈ namesInAll ts, f n = g n) → everywhereAll f ts = everywhereAll g ts
  | [], _ => by simp [everywhereAll]
  | t :: ts, h => by
    simp only [namesInAll, List.mem_append, or_imp, forall_and] at h
    simp only [everywhereAll, everywhere_congr t h.1, everywhereAll_congr ts h.2]

end

end Vani.Analysis

import Shiba.Proofs.EqualityRelation
import Shiba.Proofs.LinearSearch
import Shiba.Proofs.SealedModules
import Shiba.Proofs.Standard.Builtins
import Shiba.Proofs.Standard.Sequences

/-!
# What the sequence functions compute

Called on deep copies of their arguments, the functions `reverse`, `join` and `sum` of the standard module `seq`
answer what their names say about the arguments themselves, and the call leaves all that was there before it as it
was.  They look up names of their own and of functions visible everywhere, so they rely on the names at the top
level of their module.

* `Heap.Reversible`, `Heap.Joinable`, `Heap.Summable`: what the functions are called with.
* `Heap.CopiedBox.equal_elements`, `Heap.Copied.display_eq`: copies of elements are equal and displayed alike.
* `Heap.Reverses`: a list has the elements of a sequence in reverse order.
* `Eval.ends_callReverse`, `Eval.ends_callJoin`, `Eval.ends_callSum`: the calls.
* `sequence_functions` is the statement, over the state behind an import of the module and all later ones in which
  no name has come in at its top level, as no name does in runs of other modules.
-/

namespace Shiba

/-! ## What the functions are called with -/

namespace Heap

variable {h k : Heap} {v u : Value} {n m : Nat} {args : List BoxId}

/-- What is in some boxes is nested no deeper than a bound. -/
def Room (h : Heap) (limit : Nat) (args : List BoxId) : Prop :=
  ∀ b ∈ args, (h.canonical limit (h.value b)).isSome

/-- Every bound from some bound on leaves room for values that lead to no cycle. -/
theorem exists_room (sound : h.Sound) (each : ∀ b ∈ args, h.Has (.box b) ∧ h.Acyclic (.box b)) :
    ∃ depth, ∀ limit ≥ depth, h.Room limit args := by
  obtain ⟨n, all⟩ := exists_canonical_of_each fun b member =>
    canonical_of_acyclic sound (each b member).1 (each b member).2
  exact ⟨n, fun limit le b member => isSome_canonical_mono le (all b member)⟩

/-- The elements of a list with room under a bound have displayed forms. -/
theorem exists_texts {l : ListId} (fits : (h.canonical n (.list l)).isSome) :
    ∃ texts, ((Value.list l).elements h).mapM (h.display n) = some texts := by
  refine Option.isSome_iff_exists.1 (isSome_mapM_iff.2 fun v member => ?_)
  obtain ⟨i, element⟩ := List.mem_iff_getElem?.1 member
  rw [← Value.elementAt?_eq] at element
  exact (isSome_display_iff (ne_zero_of_canonical fits)).2 (isSome_canonical_element fits element)

/-- The elements of a sequence have a property of boxes.  The characters of a text are in no boxes. -/
def Elements (h : Heap) (P : BoxId → Prop) (b : BoxId) : Prop :=
  ∀ x, (h.value b).container? = some x → ∀ c ∈ h.contents x, P c

/-- A box with an integer leads to nothing else. -/
theorem comparable_int {b : BoxId} {n : Int64} (there : h.Has (.box b))
    (isInt : h.value b = .int n) : h.Comparable b := by
  refine ⟨there, acyclic_of_canonical (n := 1) (by rw [isInt]; rfl), fun c x reaches isFloat => ?_⟩
  rcases Relation.ReflTransGen.cases_head reaches with same | ⟨_, ⟨refers⟩, _⟩
  · cases same
    cases isInt.symm.trans isFloat
  · rw [isInt] at refers
    cases refers

/-- What `reverse` is called with: a sequence whose elements lead to no cycle and to no float.  Its length is an
integer of the language, as that of every sequence that a memory holds. -/
structure Reversible (h : Heap) (xs : BoxId) : Prop where
  there : h.Has (.box xs)
  isSequence : (h.value xs).isSequence
  elements : h.Elements h.Comparable xs
  small : (h.value xs).length h < 2 ^ 63

/-- What `join` is called with: a list whose elements lead to no cycle, and a text.  The length of the list is an
integer of the language, as that of every list that a memory holds. -/
structure Joinable (h : Heap) (xs sep : BoxId) (text : String) : Prop where
  there : h.Has (.box xs)
  there' : h.Has (.box sep)
  isList : ∃ l, h.value xs = .list l
  isText : h.value sep = .str text
  elements : h.Elements (fun b => h.Acyclic (.box b)) xs
  small : (h.value xs).length h < 2 ^ 63

/-- What `sum` is called with: a list of integers. -/
structure Summable (h : Heap) (xs : BoxId) (ns : List Int64) : Prop where
  there : h.Has (.box xs)
  isList : ∃ l, h.value xs = .list l
  elements : (h.value xs).elements h = ns.map .int

section

variable {xs sep : BoxId} {text : String} {ns : List Int64}

theorem Reversible.exists_room (reversible : h.Reversible xs) (sound : h.Sound) :
    ∃ depth, ∀ limit ≥ depth, h.Room limit [xs] := by
  refine Heap.exists_room sound (List.forall_mem_singleton.2 ⟨reversible.there, acyclic_of_elements ?_⟩)
  exact fun x refers b member => (reversible.elements x refers b member).acyclic

theorem Joinable.exists_room (joinable : h.Joinable xs sep text) (sound : h.Sound) :
    ∃ depth, ∀ limit ≥ depth, h.Room limit [xs, sep] := by
  have isText : (h.canonical 1 (h.value sep)).isSome := by
    rw [joinable.isText]
    rfl
  exact Heap.exists_room sound (List.forall_mem_cons.2 ⟨⟨joinable.there, acyclic_of_elements joinable.elements⟩,
    List.forall_mem_singleton.2 ⟨joinable.there', acyclic_of_canonical isText⟩⟩)

theorem Summable.isInt (summable : h.Summable xs ns) :
    h.Elements (fun b => ∃ n, h.value b = .int n) xs := by
  obtain ⟨l, isList⟩ := summable.isList
  have elements := summable.elements
  rw [isList] at elements
  rw [Elements, isList]
  rintro _ ⟨⟩ b member
  have listed : h.value b ∈ (Value.list l).elements h := List.mem_map_of_mem member
  rw [elements] at listed
  obtain ⟨n, -, isInt⟩ := List.mem_map.1 listed
  exact ⟨n, isInt.symm⟩

theorem Summable.comparable (summable : h.Summable xs ns) (sound : h.Sound) : h.Elements h.Comparable xs := by
  intro x refers b member
  obtain ⟨n, isInt⟩ := summable.isInt x refers b member
  exact comparable_int (sound.has_contents member) isInt

theorem Summable.exists_room (summable : h.Summable xs ns) (sound : h.Sound) :
    ∃ depth, ∀ limit ≥ depth, h.Room limit [xs] := by
  refine Heap.exists_room sound (List.forall_mem_singleton.2 ⟨summable.there, acyclic_of_elements ?_⟩)
  exact fun x refers b member => (summable.comparable sound x refers b member).acyclic

end

/-! ## Copies of what the functions are called with -/

/-- A value that is no container is copied as it is. -/
theorem Copied.eq_of_scalar (copied : Copied h k n v u) (scalar : v.container? = none) : u = v := by
  cases n with
  | zero => cases copied
  | succ n =>
    cases v with
    | list | dict | struct => cases scalar
    | nil | bool | int | float | str | function | method | builtin | module | structDef => exact copied

/-- A list is copied to a list. -/
theorem Copied.exists_list {l : ListId} (copied : Copied h k n (.list l) u) : ∃ l', u = .list l' := by
  cases n with
  | zero => cases copied
  | succ n =>
    obtain ⟨l', rfl, -⟩ := copied
    exact ⟨l', rfl⟩

/-- A deep copy is displayed like the value. -/
theorem Copied.display_eq (copied : Copied h k m v u) (sound : h.Sound) (knows : h.Knows v)
    (grows : h.Grows k) (n : Nat) : k.display n u = h.display n v := by
  have alike := copied.alike sound knows grows
  cases m with
  | zero => cases copied
  | succ m =>
    cases v with
    | list | dict | struct =>
      obtain ⟨_, rfl, -⟩ := copied
      exact alike.canonical n
    | nil | bool | int | float | str | function | method | builtin | module | structDef =>
      obtain rfl : u = _ := copied
      exact display_congr (alike.canonical n)

/-- The elements of a copy are copies of the elements. -/
theorem Copied.elements (copied : Copied h k n v u) (isSequence : v.isSequence) :
    List.Forall₂ (fun x y => ∃ m, Copied h k m x y) (v.elements h) (u.elements k) := by
  cases n with
  | zero => cases copied
  | succ n =>
    cases v with
    | list l =>
      obtain ⟨l', rfl, -, each⟩ := copied
      refine List.forall₂_map_left_iff.2 (List.forall₂_map_right_iff.2 (each.imp fun b c inside => ?_))
      exact ⟨n, inside.2⟩
    | str text =>
      obtain rfl : u = .str text := copied
      refine List.forall₂_map_left_iff.2 (List.forall₂_map_right_iff.2 (List.forall₂_same.2 fun c _ => ?_))
      exact ⟨1, rfl⟩
    | nil | bool | int | float | dict | struct | function | method | builtin | module | structDef =>
      cases isSequence

/-- The elements of a copy are equal to the elements, as these lead to no float. -/
theorem CopiedBox.equal_elements {b c : BoxId} (copied : CopiedBox h k n b c) (proper : h.Proper)
    (grows : h.Grows k) (isSequence : (h.value b).isSequence) (fits : (h.canonical n (h.value b)).isSome)
    (each : h.Elements h.Comparable b) :
    List.Forall₂ (fun x y => k.equal n x y = .ok true) ((h.value b).elements h) ((k.value c).elements k) := by
  obtain ⟨-, copied⟩ := copied
  rw [Elements] at each
  obtain ⟨n, rfl⟩ := Nat.exists_eq_succ_of_ne_zero (ne_zero_of_canonical fits)
  cases here : h.value b with
  | list l =>
    rw [here] at copied fits each
    obtain ⟨l', isCopy, -, pairs⟩ := copied
    rw [isCopy]
    refine List.forall₂_map_left_iff.2 (List.forall₂_map_right_iff.2 ?_)
    refine forall₂_imp_left pairs fun b member c inside => ?_
    have comparable := each (.list l) rfl b member
    have inner := isSome_canonical_mono n.le_succ (isSome_canonical_iff.1 fits (.list l) rfl b member)
    have whole : CopiedBox h k (n + 1) b c := ⟨inside.1, inside.2.of_canonical inner⟩
    have without : h.WithoutNaN b := fun c x reaches holds => absurd holds (comparable.withoutFloat c x reaches)
    rw [← grows.value_eq comparable.there]
    exact whole.equal proper grows comparable.there without
  | str text =>
    rw [here] at copied
    rw [copied]
    refine List.forall₂_map_left_iff.2 (List.forall₂_map_right_iff.2 (List.forall₂_same.2 fun c _ => ?_))
    simp [Heap.equal]
  | nil | bool | int | float | dict | struct | function | method | builtin | module | structDef =>
    rw [here] at isSequence
    cases isSequence

/-! ## What the functions come to -/

/-- A list has the elements of a sequence in reverse order: at each place, the element is equal to that of the
sequence at the same place from its end. -/
structure Reverses (h : Heap) (limit : Nat) (xs r : Value) : Prop where
  list : ∃ l, r = .list l
  length : r.length h = xs.length h
  element : ∀ i < xs.length h, ∃ x y, r.elementAt? h i = some x ∧ xs.elementAt? h (xs.length h - 1 - i) = some y ∧
    h.equal limit y x = .ok true

theorem eq_int_of_equal {limit : Nat} {n : Int64} (same : h.equal limit (.int n) v = .ok true) : v = .int n := by
  cases limit with
  | zero => cases same
  | succ limit => cases v <;> simp_all [Heap.equal]

/-- Integers that are reversed are the same integers. -/
theorem Reverses.elements_eq {limit : Nat} {xs r : Value} {ns : List Int64} (reverses : h.Reverses limit xs r)
    (numbers : xs.elements h = ns.map .int) : r.elements h = ns.reverse.map .int := by
  have size : xs.length h = ns.length := by rw [← Value.length_elements, numbers, List.length_map]
  have size' : (r.elements h).length = ns.length := by rw [Value.length_elements, reverses.length, size]
  refine List.ext_getElem (by rw [size', List.length_map, List.length_reverse]) fun i left right => ?_
  have within : i < ns.length := size' ▸ left
  obtain ⟨x, y, isX, isY, same⟩ := reverses.element i (size ▸ within)
  rw [Value.elementAt?_eq] at isX isY
  rw [numbers, size, List.getElem?_map, ← List.getElem?_reverse within] at isY
  obtain ⟨n, found, rfl⟩ := Option.map_eq_some_iff.1 isY
  obtain ⟨_, isElement⟩ := List.getElem?_eq_some_iff.1 isX
  obtain ⟨_, isNumber⟩ := List.getElem?_eq_some_iff.1 found
  rw [isElement, List.getElem_map, isNumber, eq_int_of_equal same]

theorem Reverses.of_elements {limit : Nat} {xs r : Value} (list : ∃ l, r = .list l)
    (each : List.Forall₂ (fun y x => h.equal limit y x = .ok true) (xs.elements h).reverse (r.elements h)) :
    h.Reverses limit xs r := by
  have size : r.length h = xs.length h := by
    rw [← Value.length_elements, ← Value.length_elements, ← each.length_eq, List.length_reverse]
  refine ⟨list, size, fun i within => ?_⟩
  have before : i < (xs.elements h).length := by rwa [Value.length_elements]
  have left : i < (xs.elements h).reverse.length := by rwa [List.length_reverse]
  have right : i < (r.elements h).length := each.length_eq ▸ left
  refine ⟨(r.elements h)[i], (xs.elements h).reverse[i], ?_, ?_, each.get left right⟩
  · rw [Value.elementAt?_eq, List.getElem?_eq_getElem right]
  · rw [Value.elementAt?_eq, ← Value.length_elements, ← List.getElem?_reverse before,
      List.getElem?_eq_getElem left]

end Heap

/-! ## Calls of the functions -/

namespace Eval

open Heap InFrame

variable {cfg : Config} {s : State} {m : ModuleId} {f : FunctionId} {callee xs sep c : BoxId} {fuel calls : Nat}

theorem ends_callReverse (regular : s.heap.Regular) (site : s.Site m m) (offers : s.Offers m .len c)
    (free : s.Unused m "out") (free' : s.Unused m "n") (reversible : s.heap.Reversible xs)
    (room : s.heap.Room cfg.dataLimit [xs]) (enough : (s.heap.value xs).length s.heap ≤ fuel)
    (holds : s.heap.value callee = .function f)
    (means : s.heap.function f = Library.reverseDecl.function m) :
    Ends (call (evaluators cfg (fuel + 5)) cfg (calls + 1) callee [xs]) s fun b u =>
      Leaves cfg s u ∧ u.heap.Reverses cfg.dataLimit (s.heap.value xs) (u.heap.value b) := by
  obtain ⟨there, isSequence, elements, small⟩ := reversible
  have sound := regular.toSound
  have fits := room xs List.mem_cons_self
  refine ends_callDeclared (Q := fun b h => h.Reverses cfg.dataLimit (s.heap.value xs) (h.value b)) sound site rfl
    (List.forall_mem_singleton.2 there) room holds means fun copies u pairs inside grows => ?_
  obtain ⟨b, rest, copied, last, rfl⟩ := List.forall₂_cons_left_iff.1 pairs
  cases last
  have alike := copied.alike sound grows
  have size : (u.heap.value b).length u.heap = (s.heap.value xs).length s.heap := by
    rw [← Value.length_elements, ← Value.length_elements, (copied.2.elements isSequence).length_eq]
  refine (inside.reverse site (ne_zero_of_canonical fits) offers free free' grows copied.1.there
    (copied.2.isSequence isSequence) (alike.alike.canonical _ ▸ fits) (size ▸ small) (size ▸ enough)).mono ?_
  rintro flow t ⟨left, later, r, rfl, l, isList, elements'⟩
  refine ⟨left, later, r, rfl, .of_elements ⟨l, isList⟩ ?_⟩
  have grown := grows.trans later
  have equal := (copied.grown later).equal_elements regular.toProper grown isSequence fits elements
  rw [later.value_eq copied.1.there, later.elements_eq inside.sound (inside.sound.value b)] at equal
  rw [elements', grown.elements_eq sound (sound.value xs)]
  exact List.rel_reverse equal

theorem ends_callJoin {text : String} (regular : s.heap.Regular) (site : s.Site m m) (offers : s.Offers m .str c)
    (free : s.Unused m "out") (joinable : s.heap.Joinable xs sep text) (room : s.heap.Room cfg.dataLimit [xs, sep])
    (holds : s.heap.value callee = .function f) (means : s.heap.function f = Library.joinDecl.function m) :
    Ends (call (evaluators cfg (fuel + 4)) cfg (calls + 1) callee [xs, sep]) s fun b u => Leaves cfg s u ∧
      ∃ texts, ((s.heap.value xs).elements s.heap).mapM (s.heap.display cfg.dataLimit) = some texts ∧
        u.heap.value b = .str (text.intercalate texts) := by
  obtain ⟨there, there', ⟨l, isList⟩, isText, -, small⟩ := joinable
  have sound := regular.toSound
  have fits := room xs List.mem_cons_self
  rw [isList] at fits small ⊢
  obtain ⟨texts, shown⟩ := exists_texts fits
  have both : ∀ b ∈ [xs, sep], s.heap.Has (.box b) :=
    List.forall_mem_cons.2 ⟨there, List.forall_mem_singleton.2 there'⟩
  refine (ends_callDeclared (Q := fun b h => h.value b = .str (text.intercalate texts)) sound site rfl both room
    holds means fun copies u pairs inside grows => ?_).mono fun b u ended => ⟨ended.1, texts, shown, ended.2⟩
  obtain ⟨b, rest, copied, pairs', rfl⟩ := List.forall₂_cons_left_iff.1 pairs
  obtain ⟨q, rest', ⟨added, isCopy⟩, last, rfl⟩ := List.forall₂_cons_left_iff.1 pairs'
  cases last
  have separates := (isText ▸ isCopy).eq_of_scalar rfl
  have copied' := isList ▸ copied.2
  obtain ⟨l', isList'⟩ := copied'.exists_list
  rw [isList'] at copied'
  have elements := copied'.elements rfl
  have size : (u.heap.items l').size = (s.heap.items l).size := by
    rw [← Value.length, ← Value.length_elements, ← elements.length_eq, Value.length_elements, Value.length]
  have shown' : ((Value.list l').elements u.heap).mapM (u.heap.display cfg.dataLimit) = some texts := by
    rw [← shown]
    refine mapM_congr (forall₂_imp_left elements ?_)
    rintro v member w ⟨n, copied⟩
    obtain ⟨d, -, rfl⟩ := List.mem_map.1 member
    exact copied.display_eq sound (sound.value d) grows cfg.dataLimit
  exact inside.join site (ne_zero_of_canonical fits) offers free grows copied.1.there isList' added.there separates
    (size ▸ small) shown'

theorem ends_callSum {ns : List Int64} (regular : s.heap.Regular) (site : s.Site m m)
    (free : s.Unused m "total") (summable : s.heap.Summable xs ns) (room : s.heap.Room cfg.dataLimit [xs])
    (holds : s.heap.value callee = .function f) (means : s.heap.function f = Library.sumDecl.function m) :
    Ends (call (evaluators cfg (fuel + 3)) cfg (calls + 1) callee [xs]) s fun b u =>
      Leaves cfg s u ∧ u.heap.value b = .int (.ofInt (ns.map Int64.toInt).sum) := by
  obtain ⟨there, ⟨l, isList⟩, isElements⟩ := summable
  rw [isList] at isElements
  refine ends_callDeclared (Q := fun b h => h.value b = .int (.ofInt (ns.map Int64.toInt).sum)) regular.toSound site
    rfl (List.forall_mem_singleton.2 there) room holds means fun copies u pairs inside grows => ?_
  obtain ⟨b, rest, copied, last, rfl⟩ := List.forall₂_cons_left_iff.1 pairs
  cases last
  have copied' := isList ▸ copied.2
  obtain ⟨l', isList'⟩ := copied'.exists_list
  rw [isList'] at copied'
  have isElements' : (Value.list l').elements u.heap = ns.map .int := by
    rw [← isElements, ← List.forall₂_eq_eq_eq]
    refine (forall₂_imp_left (copied'.elements rfl) ?_).flip
    rintro v member w ⟨n, copied⟩
    obtain ⟨word, -, rfl⟩ := List.mem_map.1 (isElements ▸ member)
    exact copied.eq_of_scalar rfl
  exact inside.sum site free copied.1.there isList' isElements'

end Eval

/-- Called on some arguments, a function comes to an answer with a property, under each bound that leaves room
for the arguments, as every bound from some bound on does, and with fuel for a number of turns.  Nothing is left of
the call but new boxes and containers and, where calls are traced, lines of tracing. -/
structure State.Computes (s : State) (f : FunctionId) (args : List BoxId) (turns : Nat)
    (Q : (limit : Nat) → Value → Heap → Prop) : Prop where
  room : ∃ depth, ∀ limit ≥ depth, s.heap.Room limit args
  ends : ∀ (cfg : Config) (fuel calls : Nat) (callee : BoxId), s.heap.Room cfg.dataLimit args → turns + 5 ≤ fuel →
    s.heap.value callee = .function f → Eval.Ends (Eval.call (evaluators cfg fuel) cfg (calls + 1) callee args) s
      fun b u => Leaves cfg s u ∧ Q cfg.dataLimit (u.heap.value b) u.heap

/-- A name that means nothing when the module is loaded is unused as long as no name comes in at its top
level. -/
theorem State.Defines.unused {s t : State} {m : ModuleId} {decls : List FunctionDecl} {name : String}
    (defines : t.Defines m decls) (isSealed : t.Sealed m s) (absent : name ∉ decls.map (·.name)) :
    s.Unused m name where
  obj := Levels.get?_eq_none_of_outline_eq (congrArg Prod.fst isSealed.names)
    (Scope.root_of_getObj?_eq_none (defines.unbound name absent))
  struct := Levels.get?_eq_none_of_outline_eq (congrArg Prod.snd isSealed.names)
    (Scope.root_of_getStruct?_eq_none (defines.noStruct name))

open Eval in
/-- An import that finds the standard module comes to its end, and its names `reverse`, `join` and `sum` mean
functions that compute what they are named for.  They do so in every later state in which no name has come in at
the top level of the module, and none does while other modules are run.  `reverse` answers a list of the elements of
a sequence in reverse order, `join` the displayed forms of the elements of a list with a text between them, and
`sum` the sum of the integers of a list, reduced to the range of integers. -/
theorem sequence_functions {cfg : Config} {ctx : Context} {s₀ : State} {key file : String}
    (reachable : Reachable cfg s₀) (loads : LoadsFile cfg ctx "seq" s₀ key file Library.seq) (fuel : Nat) :
    Ends (importModule (evaluators cfg (fuel + 1)) cfg ctx "seq") s₀ fun m t =>
      ∃ reverse join sum, t.Means m "reverse" reverse ∧ t.Means m "join" join ∧ t.Means m "sum" sum ∧
        (∀ s, Abroad cfg m t s → Reachable cfg s ∧ t.Sealed m s) ∧
        ∀ s, Reachable cfg s → t.Sealed m s →
          (∀ xs, s.heap.Reversible xs → s.Computes reverse [xs] ((s.heap.value xs).length s.heap)
            fun limit r h => h.Reverses limit (s.heap.value xs) r) ∧
          (∀ xs sep text, s.heap.Joinable xs sep text → s.Computes join [xs, sep] 0 fun limit r _ =>
            ∃ texts, ((s.heap.value xs).elements s.heap).mapM (s.heap.display limit) = some texts ∧
              r = .str (text.intercalate texts)) ∧
          ∀ xs ns, s.heap.Summable xs ns → s.Computes sum [xs] 0 fun _ r _ =>
            r = .int (.ofInt (ns.map Int64.toInt).sum) := by
  obtain ⟨m, t, imported, defines⟩ := ends_importStandard loads fuel
  have reached := reachable.importFile loads (fuel + 1)
  rw [imported] at reached
  refine ⟨m, t, imported, ?_⟩
  obtain ⟨b, reverse, bound, holds⟩ := defines.bound Library.reverseDecl (by simp [Library.seqDecls])
  obtain ⟨b', join, bound', holds'⟩ := defines.bound Library.joinDecl (by simp [Library.seqDecls])
  obtain ⟨b'', sum, bound'', holds''⟩ := defines.bound Library.sumDecl (by simp [Library.seqDecls])
  refine ⟨reverse, join, sum, ⟨b, bound, holds.box, holds.value⟩, ⟨b', bound', holds'.box, holds'.value⟩,
    ⟨b'', bound'', holds''.box, holds''.value⟩,
    fun s abroad => ⟨abroad.reachable reached, abroad.sealed reached.wellFormed defines.here⟩, ?_⟩
  intro s reachable isSealed
  have later := isSealed.later
  have regular := reachable.regular
  have sound := regular.toSound
  have here := defines.here.mono later
  have site : s.Site m m := ⟨here, here, State.Stands.mono later defines.here defines.registered⟩
  have means {d : FunctionDecl} {b : BoxId} {f : FunctionId} (holds : t.Holds m d b f) :
      s.heap.function f = d.function m := (State.getD_of_grown later.functions holds.there).trans holds.function
  have unused (name : String) (absent : name ∉ Library.seqDecls.map (·.name)) : s.Unused m name :=
    defines.unused isSealed absent
  have offers {f : Builtin} (visible : f ∈ State.standardBuiltins) (absent : f.name ∉ Library.seqDecls.map (·.name)) :
      ∃ c, s.Offers m f c := by
    obtain ⟨c, named, there, isBuiltin⟩ := reachable.exists_builtin visible
    exact ⟨c, unused f.name absent, named, there, isBuiltin⟩
  obtain ⟨c, offersLen⟩ := offers (f := .len) (by decide) (by decide)
  obtain ⟨c', offersStr⟩ := offers (f := .str) (by decide) (by decide)
  have out := unused "out" (by decide)
  refine ⟨fun xs reversible => ⟨reversible.exists_room sound, ?_⟩,
    fun xs sep text joinable => ⟨joinable.exists_room sound, ?_⟩,
    fun xs ns summable => ⟨summable.exists_room sound, ?_⟩⟩
  · intro cfg' fuel calls callee room enough called
    obtain ⟨fuel, rfl⟩ := Nat.exists_eq_add_of_le' (Nat.le_trans (Nat.le_add_left 5 _) enough)
    exact ends_callReverse regular site offersLen out (unused "n" (by decide)) reversible room
      (Nat.le_of_add_le_add_right enough) called (means holds)
  · intro cfg' fuel calls callee room enough called
    obtain ⟨fuel, rfl⟩ := Nat.exists_eq_add_of_le' (Nat.le_trans (by decide : 4 ≤ 0 + 5) enough)
    exact ends_callJoin regular site offersStr out joinable room called (means holds')
  · intro cfg' fuel calls callee room enough called
    obtain ⟨fuel, rfl⟩ := Nat.exists_eq_add_of_le' (Nat.le_trans (by decide : 3 ≤ 0 + 5) enough)
    exact ends_callSum regular site (unused "total" (by decide)) summable room called (means holds'')

/-! ## Calls on a list of integers -/

section

open Eval Heap

variable {cfg : Config} {s : State} {ctx : Context}

/-- What adds to the heap only leaves the names of all modules. -/
theorem Leaves.sealed {t : State} (leaves : Leaves cfg s t) (m : ModuleId) : s.Sealed m t := by
  obtain ⟨grows, registry, builtins, -⟩ := leaves
  refine ⟨⟨grows.size_boxes, grows.lists, State.size_le_of_grown grows.dicts, grows.instances, ?_, ?_, builtins,
    ?_, ?_, ?_⟩, ?_⟩
  · rw [grows.functions]
  · rw [grows.structs]
  all_goals simp [State.scopeOf, registry]

theorem Eval.ends_onHeap (cfg : Config) {α : Type} {act : HeapM α} {can : Prop} {Q : α → Heap → Prop}
    (adds : HeapM.Adds act s.heap can Q) (able : can) :
    Ends (onHeap act) s fun x t => Leaves cfg s t ∧ t.heap.Sound ∧ Q x t.heap := by
  obtain ⟨result, h, run, grows, sound, holds, answers⟩ := adds
  obtain ⟨x, rfl⟩ := answers able
  refine .of_run (t := s.withHeap h) ?_ ⟨⟨grows, rfl, rfl, .refl cfg 3 s.output⟩, sound, holds x rfl⟩
  rw [onHeap_apply, run]

theorem Eval.ends_alloc (cfg : Config) {v : Value} (sound : s.heap.Sound) (knows : s.heap.Knows v) :
    Ends (Eval.alloc v) s fun b t => Leaves cfg s t ∧ t.heap.Sound ∧ t.heap.Has (.box b) ∧ t.heap.value b = v :=
  (ends_onHeap cfg (HeapM.adds_alloc sound knows) trivial).mono fun _ _ made =>
    ⟨made.1, made.2.1, made.2.2.1.there, made.2.2.2⟩

/-- A literal is put into a new box. -/
theorem Eval.ends_literal {v : Literal} {w : Value} (sound : s.heap.Sound) (knows : s.heap.Knows w)
    (means : Eval.literal v = Eval.alloc w) : Ends (evalExpr cfg 1 ctx (.literal .start v)) s fun b t =>
      Leaves cfg s t ∧ t.heap.Sound ∧ t.heap.Has (.box b) ∧ t.heap.value b = w := by
  rw [evalExpr_succ, Eval.expr, means]
  exact .located (ends_alloc cfg sound knows)

/-- Literals with integers are put into new boxes, one after the other. -/
theorem Eval.ends_integers (sound : s.heap.Sound) (ns : List Int64) :
    Ends ((ns.map fun n => Expr.literal .start (.int n)).mapM fun e => do copy (← evalExpr cfg 1 ctx e)) s
      fun boxes t => Leaves cfg s t ∧ t.heap.Sound ∧
        List.Forall₂ (fun b n => t.heap.Has (.box b) ∧ t.heap.value b = .int n) boxes ns := by
  induction ns generalizing s with
  | nil => exact .pure ⟨.refl cfg s, sound, .nil⟩
  | cons n ns ih =>
    rw [List.map_cons, List.mapM_cons]
    refine .bind (P := fun b t => Leaves cfg s t ∧ t.heap.Sound ∧ t.heap.Has (.box b) ∧ t.heap.value b = .int n) ?_ ?_
    · refine .bind (ends_literal (w := .int n) sound trivial rfl) ?_
      rintro b t ⟨leaves, sound, there, isInt⟩
      refine (ends_alloc cfg sound (sound.value b)).mono ?_
      rintro c t' ⟨leaves', sound', there', isCopy⟩
      exact ⟨leaves.trans leaves', sound', there', isCopy.trans isInt⟩
    · rintro b t ⟨leaves, sound, there, isInt⟩
      refine .bind (ih sound) ?_
      rintro boxes t' ⟨leaves', sound', each⟩
      have grows := leaves'.heap
      exact .pure ⟨leaves.trans leaves', sound', .cons ⟨grows.has there, (grows.value_eq there).trans isInt⟩ each⟩

/-- A list of integers is put into a new box. -/
theorem Eval.ends_numbers (sound : s.heap.Sound) (ns : List Int64) :
    Ends (evalExpr cfg 2 ctx (.list .start (ns.map fun n => .literal .start (.int n)))) s fun b t =>
      Leaves cfg s t ∧ t.heap.Sound ∧ t.heap.Has (.box b) ∧
        ∃ l, t.heap.value b = .list l ∧ (Value.list l).elements t.heap = ns.map .int := by
  rw [evalExpr_succ, Eval.expr]
  refine .located (.bind (ends_integers sound ns) ?_)
  rintro boxes t ⟨leaves, sound, each⟩
  have there : ∀ b ∈ boxes.toArray, b.index < t.heap.boxes.size := by
    intro b member
    obtain ⟨n, -, there, -⟩ := exists_of_mem each (List.mem_toArray.1 member)
    exact there
  refine .bind (ends_onHeap cfg (HeapM.adds_allocList sound there) trivial) ?_
  rintro l t' ⟨leaves', sound', added, isList⟩
  refine (ends_alloc cfg sound' (v := .list l) added.there).mono ?_
  rintro b t'' ⟨leaves'', sound'', there', holds⟩
  have grows := leaves'.heap.trans leaves''.heap
  refine ⟨leaves.trans (leaves'.trans leaves''), sound'', there', l, holds, ?_⟩
  rw [Value.elements, leaves''.heap.items_eq added.there, isList, ← List.forall₂_eq_eq_eq,
    List.forall₂_map_left_iff, List.forall₂_map_right_iff]
  exact each.imp fun b n here => (grows.value_eq here.1).trans here.2

/-- An expression that comes to its end in a state that a run can be in leaves one that a run can be in. -/
theorem Reachable.exists_of_ends {fuel : Nat} {e : Expr} {Q : BoxId → State → Prop} (reachable : Reachable cfg s)
    (here : s.HasModule ctx.module) (ends : Ends (evalExpr cfg fuel ctx e) s Q) :
    ∃ b t, Reachable cfg t ∧ Q b t := by
  obtain ⟨b, t, run, holds⟩ := ends
  have ended := reachable.exprEnd fuel e here
  rw [run] at ended
  exact ⟨b, t, ended, holds⟩

/-- After an import, the functions are called on the list `[1, 2]`. -/
theorem sequence_functions_numbers : ∃ m t s reverse join sum xs sep,
    importModule (evaluators .standard 1) .standard ⟨⟨0⟩, 0⟩ "seq"
      (State.initial.load (.ofSource "main" "/" "")) = (.ok m, t) ∧
    (t.scopeOf m).getObj? "reverse" = some reverse ∧ (t.scopeOf m).getObj? "join" = some join ∧
    (t.scopeOf m).getObj? "sum" = some sum ∧ Reachable .standard s ∧ t.Sealed m s ∧
    (s.heap.value xs).elements s.heap = [.int 1, .int 2] ∧ s.heap.value sep = .str "-" ∧
    (∃ b u, call (evaluators .standard 7) .standard 1 reverse [xs] s = (.ok b, u) ∧
      (u.heap.value b).elements u.heap = [.int 2, .int 1]) ∧
    (∃ b u, call (evaluators .standard 7) .standard 1 join [xs, sep] s = (.ok b, u) ∧
      u.heap.value b = .str "1-2") ∧
    ∃ b u, call (evaluators .standard 7) .standard 1 sum [xs] s = (.ok b, u) ∧ u.heap.value b = .int 3 := by
  let M : Module := .ofSource "main" "/" ""
  let ctx : Context := ⟨State.initial.registry.next, 0⟩
  have start : Reachable .standard (State.initial.load M) := .register .initial rfl
  have here : (State.initial.load M).HasModule ctx.module := State.hasModule_load .initial M
  have loads : LoadsFile .standard ctx "seq" (State.initial.load M) "/stdlib/seq" "/stdlib/seq.sb"
      Library.seq := ⟨Library.findFile_seq, by decide +kernel, Library.read_seq, by decide +kernel⟩
  obtain ⟨m, t, imported, reverse, join, sum, ⟨b, bound, isThere, holds⟩, ⟨b', bound', isThere', holds'⟩,
    ⟨b'', bound'', isThere'', holds''⟩, -, all⟩ := sequence_functions start loads 0
  have reached := start.importFile loads 1
  rw [imported] at reached
  have home := here.mono (start.extends_import here imported)
  obtain ⟨xs, t₁, reached₁, leaves₁, sound₁, there₁, l, isList, elements⟩ :=
    reached.exists_of_ends home (ends_numbers reached.wellFormed.sound [1, 2])
  obtain ⟨sep, s, reached₂, leaves₂, sound₂, there₂, isText⟩ :=
    reached₁.exists_of_ends (home.mono (leaves₁.sealed m).later)
      (ends_literal (v := .str "-") (w := .str "-") sound₁ trivial rfl)
  have leaves := leaves₁.trans leaves₂
  have grows := leaves.heap
  have there := leaves₂.heap.has there₁
  have list : s.heap.value xs = .list l := (leaves₂.heap.value_eq there₁).trans isList
  have numbers : (s.heap.value xs).elements s.heap = [1, 2].map .int := by
    rw [list, leaves₂.heap.elements_eq sound₁ (isList ▸ sound₁.value xs), elements]
  have small : (s.heap.value xs).length s.heap < 2 ^ 63 := by
    rw [← Value.length_elements, numbers]
    decide
  have summable : s.heap.Summable xs [1, 2] := ⟨there, ⟨l, list⟩, numbers⟩
  have comparable := summable.comparable sound₂
  have reversible : s.heap.Reversible xs := ⟨there, by rw [list]; rfl, comparable, small⟩
  have joinable : s.heap.Joinable xs sep "-" := ⟨there, there₂, ⟨l, list⟩, isText,
    fun x refers c member => (comparable x refers c member).acyclic, small⟩
  have fits : (s.heap.canonical 2 (s.heap.value xs)).isSome := by
    refine isSome_canonical_iff.2 fun x refers c member => ?_
    obtain ⟨n, isInt⟩ := summable.isInt x refers c member
    rw [isInt]
    rfl
  have room : s.heap.Room Config.standard.dataLimit [xs, sep] :=
    List.forall_mem_cons.2 ⟨isSome_canonical_mono (by decide) fits,
      List.forall_mem_singleton.2 (by rw [isText]; rfl)⟩
  have room' : s.heap.Room Config.standard.dataLimit [xs] :=
    List.forall_mem_singleton.2 (List.forall_mem_cons.1 room).1
  obtain ⟨forReverse, forJoin, forSum⟩ := all s reached₂ (leaves.sealed m)
  obtain ⟨r, u, run, ended, reverses⟩ := (forReverse xs reversible).ends .standard 7 0 b room'
    (by rw [← Value.length_elements, numbers]; decide) ((grows.value_eq isThere).trans holds)
  obtain ⟨r', u', run', -, texts, shown, joined⟩ := (forJoin xs sep "-" joinable).ends .standard 7 0 b' room
    (by decide) ((grows.value_eq isThere').trans holds')
  obtain ⟨r'', u'', run'', -, added⟩ := (forSum xs [1, 2] summable).ends .standard 7 0 b'' room'
    (by decide) ((grows.value_eq isThere'').trans holds'')
  have numbers' : (s.heap.value xs).elements u.heap = [1, 2].map .int := by
    rw [ended.heap.elements_eq sound₂ (sound₂.value xs), numbers]
  rw [numbers] at shown
  have isJoined : u'.heap.value r' = .str "1-2" := by
    rw [joined]
    cases shown
    rfl
  exact ⟨m, t, s, b, b', b'', xs, sep, imported, bound, bound', bound'', reached₂, leaves.sealed m, numbers, isText,
    ⟨r, u, run, reverses.elements_eq numbers'⟩, ⟨r', u', run', isJoined⟩, r'', u'', run'', added⟩

end

end Shiba

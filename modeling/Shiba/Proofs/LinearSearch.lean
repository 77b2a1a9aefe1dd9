import Shiba.Proofs.Heap.Equality
import Shiba.Proofs.Standard.Loading

/-!
# Linear search

The functions `contains` and `index_of` of the standard module `seq` go over a sequence and return at the
first element that is equal to the value they look for.  They are programs of the language: the arguments are
copied, every turn compares a copy of an element in a block of its own, and the return leaves the conditional,
the loop and the call.  Copies compare as the values they were made of, so the answer is about the sequence
that was passed.

* `Heap.FirstEqual`: the first place at which an element is equal to a value.
* `InFrame.searchTurn`: one turn of the loop; `InFrame.searchLoop`: all turns, with the places before the turn
  as the invariant; `InFrame.search`: the body of the function.
* `Eval.ends_callSearch`: a call, for what is returned at a place and behind the loop.
* `linear_search` is the statement, over the state behind an import of the module and all later ones.
-/

namespace Shiba

/-! ## Copies of sequences -/

namespace Heap

variable {h k : Heap} {v u : Value} {n : Nat}

theorem Copied.isSequence (copied : Copied h k n v u) (isSequence : v.isSequence) : u.isSequence := by
  cases n with
  | zero => cases copied
  | succ n =>
    cases v with
    | list l =>
      obtain ⟨l', rfl, -⟩ := copied
      rfl
    | str text =>
      cases copied
      rfl
    | nil | bool | int | float | dict | struct | function | method | builtin | module | structDef =>
      cases isSequence

/-- The elements of a copy are copies of the elements, place by place. -/
theorem Copied.elementAt? (copied : Copied h k n v u) (isSequence : v.isSequence) (i : Nat) :
    Option.Rel (fun y y' => ∃ n, Copied h k n y y') (v.elementAt? h i) (u.elementAt? k i) := by
  cases n with
  | zero => cases copied
  | succ n =>
    cases v with
    | list l =>
      obtain ⟨l', rfl, -, each⟩ := copied
      rw [Value.elementAt?, Value.elementAt?, ← Array.getElem?_toList, ← Array.getElem?_toList]
      cases left : (h.items l).toList[i]? with
      | none =>
        have right : (k.items l').toList[i]? = none := by
          rw [List.getElem?_eq_none_iff] at left ⊢
          rwa [← each.length_eq]
        rw [right]
        exact .none
      | some b =>
        obtain ⟨within, rfl⟩ := List.getElem?_eq_some_iff.1 left
        have within' := each.length_eq ▸ within
        rw [List.getElem?_eq_getElem within']
        exact .some ⟨n, (each.get within within').2⟩
    | str text =>
      cases copied
      rw [Value.elementAt?, Value.elementAt?]
      cases text.toList[i]? with
      | none => exact .none
      | some c => exact .some ⟨1, rfl⟩
    | nil | bool | int | float | dict | struct | function | method | builtin | module | structDef =>
      cases isSequence

theorem ne_zero_of_canonical (fits : (h.canonical n v).isSome) : n ≠ 0 := by
  rintro rfl
  cases fits

/-- The elements of a sequence that has a canonical form under a bound have one too. -/
theorem isSome_canonical_element {i : Nat} (fits : (h.canonical n v).isSome)
    (element : v.elementAt? h i = some u) : (h.canonical n u).isSome := by
  obtain ⟨n, rfl⟩ := Nat.exists_eq_succ_of_ne_zero (ne_zero_of_canonical fits)
  cases v with
  | list l =>
    obtain ⟨b, found, rfl⟩ := Option.map_eq_some_iff.1 element
    have member : b ∈ h.contents (.list l) := Array.mem_toList_iff.2 (Array.mem_of_getElem? found)
    exact isSome_canonical_mono n.le_succ (isSome_canonical_iff.1 fits (.list l) rfl b member)
  | str text =>
    obtain ⟨c, -, rfl⟩ := Option.map_eq_some_iff.1 element
    rfl
  | nil | bool | int | float | dict | struct | function | method | builtin | module | structDef =>
    cases element

theorem knows_element {i : Nat} (sound : h.Sound) (element : v.elementAt? h i = some u) : h.Knows u := by
  cases v with
  | list l =>
    obtain ⟨b, -, rfl⟩ := Option.map_eq_some_iff.1 element
    exact sound.value b
  | str text =>
    obtain ⟨c, -, rfl⟩ := Option.map_eq_some_iff.1 element
    trivial
  | nil | bool | int | float | dict | struct | function | method | builtin | module | structDef =>
    cases element

/-- A sequence is on no cycle when its elements are not. -/
theorem acyclic_of_elements {xs : BoxId}
    (elements : ∀ x, (h.value xs).container? = some x → ∀ b ∈ h.contents x, h.Acyclic (.box b)) :
    h.Acyclic (.box xs) := by
  -- a cycle goes on into a container that is referred to, and from there to an element
  have onward {p q : Node} (steps : Relation.TransGen h.Refers p q) : ∃ r, h.Refers p r ∧ h.Reaches r q :=
    Relation.TransGen.head'_iff.1 steps
  have container {x : Container} (refers : (h.value xs).container? = some x) : h.Acyclic (.container x) := by
    intro q reaches cycle
    rcases Relation.ReflTransGen.cases_head reaches with rfl | ⟨_, _ | inside, later⟩
    · obtain ⟨_, _ | inside, back⟩ := onward cycle
      exact elements x refers _ inside _ .refl (Relation.TransGen.tail' back (.content inside))
    · exact elements x refers _ inside q later cycle
  intro q reaches cycle
  rcases Relation.ReflTransGen.cases_head reaches with rfl | ⟨_, ⟨refers⟩, later⟩
  · obtain ⟨_, ⟨refers⟩, back⟩ := onward cycle
    exact container refers _ .refl (Relation.TransGen.tail' back (.value refers))
  · exact container refers q later cycle

/-! ## Places of equal elements -/

/-- The element of a sequence at a place is equal to a value. -/
def EqualAt (h : Heap) (limit : Nat) (xs x : Value) (i : Nat) : Prop :=
  ∃ y, xs.elementAt? h i = some y ∧ h.equal limit y x = .ok true

/-- The first place at which the element of a sequence is equal to a value, if there is one. -/
def FirstEqual (h : Heap) (limit : Nat) (xs x : Value) : Option Nat → Prop
  | some i => h.EqualAt limit xs x i ∧ ∀ j < i, ¬ h.EqualAt limit xs x j
  | none => ∀ i, ¬ h.EqualAt limit xs x i

theorem exists_firstEqual (h : Heap) (limit : Nat) (xs x : Value) :
    ∃ place, h.FirstEqual limit xs x place := by
  classical
  by_cases found : ∃ i, h.EqualAt limit xs x i
  · exact ⟨some (Nat.find found), Nat.find_spec found, fun _ before => Nat.find_min found before⟩
  · exact ⟨none, not_exists.1 found⟩

theorem FirstEqual.unique {limit : Nat} {xs x : Value} {place place' : Option Nat}
    (first : h.FirstEqual limit xs x place) (first' : h.FirstEqual limit xs x place') : place = place' := by
  cases place with
  | none =>
    cases place' with
    | none => rfl
    | some i => exact absurd first'.1 (first i)
  | some i =>
    cases place' with
    | none => exact absurd first.1 (first' i)
    | some j =>
      have above : ¬ j < i := fun before => first.2 j before first'.1
      have below : ¬ i < j := fun before => first'.2 i before first.1
      exact congrArg some (Nat.le_antisymm (Nat.not_lt.1 above) (Nat.not_lt.1 below))

end Heap

/-! ## Loops that search -/

/-- The body of a loop that searches, wherever it stands: it returns when the element is equal. -/
inductive SearchTurn (hit : Expr) : Block → Prop
  | intro (p p₁ p₂ p₃ p₄ : Position) : SearchTurn hit
    [.conditional p [(.binary p₁ .equal (.ident p₂ "e") (.ident p₃ "x"), [.returnValue p₄ (some hit)])] none]

/-- The body of a function that searches, wherever it stands: the loop, and a return behind it. -/
inductive SearchBody (hit miss : Expr) : Block → Prop
  | intro (p p₁ p₂ p₃ p₄ : Position) {body : Block} (turn : SearchTurn hit body) : SearchBody hit miss
    [.forIn p (.ident p₁ "xs") ⟨p₂, "i"⟩ ⟨p₃, "e"⟩ body, .returnValue p₄ (some miss)]

open Heap

namespace InFrame

open Eval

variable {cfg : Config} {s t u : State} {m₀ m : ModuleId} {F : Frame BoxId StructId}

/-- What a search answers at a place, and behind the loop. -/
structure Replies (cfg : Config) (s : State) (m : ModuleId) (fuel : Nat) (ctx : Context) (hit miss : Expr)
    (answer : Option Nat → Value) : Prop where
  hits : ∀ {u F n k}, InFrame cfg s m F u → F.objs.get? "i" = some n → u.heap.value n = .int (.ofNat k) →
    ComesTo cfg s m F (fuel + 1) ctx hit u (answer (some k))
  misses : ∀ {u F}, InFrame cfg s m F u → ComesTo cfg s m F (fuel + 3) ctx miss u (answer none)

/-- A search that replies whether there is a place. -/
theorem Replies.found {fuel : Nat} {ctx : Context} (p q : Position) :
    Replies cfg s m fuel ctx (.literal p (.bool true)) (.literal q (.bool false))
      fun place => .bool place.isSome :=
  ⟨fun inside _ _ => inside.literal (w := .bool true) trivial rfl fuel ctx p,
    fun inside => inside.literal (w := .bool false) trivial rfl (fuel + 2) ctx q⟩

/-- A search that replies the place, or `-1`. -/
theorem Replies.place {fuel calls : Nat} (site : s.Site m₀ m) (p q r : Position) :
    Replies cfg s m fuel ⟨m₀, calls⟩ (.ident p "i") (.unary q .minus (.literal r (.int 1)))
      fun place => .int (.ofInt (place.elim (-1) Nat.cast)) :=
  ⟨fun inside found counts => .of_run (inside.ident site found fuel calls p) ⟨inside, .refl _, counts⟩,
    fun inside => inside.negative 1 (fuel + 1) ⟨m₀, calls⟩ q r⟩

/-- A turn of the loop: it returns when the element is equal to the value searched for, and otherwise comes to
its end in the frame of the loop. -/
theorem searchTurn {answer : Option Nat → Value} {hit miss : Expr} {body : Block} {k : Nat} {b x : BoxId}
    {equal : Bool} {level : OrderedMap String BoxId} {fuel calls : Nat} (searches : SearchTurn hit body)
    (replies : Replies cfg s m fuel ⟨m₀, calls⟩ hit miss answer) (inside : InFrame cfg s m (F.inner level) t)
    (site : s.Site m₀ m) (room : cfg.dataLimit ≠ 0) (there : t.heap.Has (.box b))
    (isBound : F.objs.get? "x" = some x) (free : level.get? "x" = none)
    (compared : ∀ h, t.heap.Grows h → h.equal cfg.dataLimit (t.heap.value b) (h.value x) = .ok equal) :
    Ends (Eval.beginTurn m₀ "i" "e" k b >>= fun _ => runBlock (evalStmt cfg (fuel + 3) ⟨m₀, calls⟩) body) t
      fun flow v => t.heap.Grows v.heap ∧
        (∃ level', level'.get? "x" = none ∧ InFrame cfg s m (F.inner level') v) ∧
        if equal then ∃ r, flow = .returnValue (some r) ∧ v.heap.value r = answer (some k)
        else flow = .done := by
  cases searches with | intro p p₁ p₂ p₃ p₄
  refine .bind (inside.beginTurn site "i" "e" k there) ?_
  rintro _ t₁ ⟨n, e, begun, grows, ⟨counted, counts⟩, -, element⟩
  -- the counter and the element are bound in the block of the loop, and the value searched for is not
  let level' := (level.insert "i" n).insert "e" e
  change InFrame cfg s m (F.inner level') t₁ at begun
  have names (name : String) : ((F.inner level').inner .empty).objs.get? name =
      (level'.get? name).or (F.objs.get? name) := by
    rw [Frame.get?_inner, Frame.get?_inner]
    rfl
  have level_x : level'.get? "x" = none := by
    rw [OrderedMap.get?_insert, if_neg (by decide), OrderedMap.get?_insert, if_neg (by decide), free]
  have level_e : level'.get? "e" = some e := by
    rw [OrderedMap.get?_insert, if_pos rfl]
  have level_i : level'.get? "i" = some n := by
    rw [OrderedMap.get?_insert, if_neg (by decide), OrderedMap.get?_insert, if_pos rfl]
  let result (flow : Flow) (h : Heap) : Prop := t₁.heap.Grows h ∧
    if equal then ∃ r, flow = .returnValue (some r) ∧ h.value r = answer (some k) else flow = .done
  refine .runBlock_last ((conditional (Q := result) begun site room equal ?evaluates ?yes ?no).mono
    fun flow v ended => ⟨grows.trans ended.2.1, ⟨level', level_x, ended.1⟩, ended.2.2⟩) ?settles
  case evaluates =>
    intro t₂ inside₂ same
    have alike : t₂.heap.equal cfg.dataLimit (t₂.heap.value e) (t₂.heap.value x) = .ok equal := by
      rw [same, element]
      exact compared t₁.heap grows
    refine inside₂.equal site ?_ ?_ alike fuel calls p₁ p₂ p₃
    · rw [names, level_e]
      rfl
    · rw [names, level_x, isBound]
      rfl
  case yes =>
    rintro rfl t₂ inside₂ grows₂
    have found : ((F.inner level').inner .empty).objs.get? "i" = some n := by
      rw [names, level_i]
      rfl
    have counter : t₂.heap.value n = .int (.ofNat k) := (grows₂.value_eq counted.there).trans counts
    refine .runBlock_last ((returnValue (replies.hits inside₂ found counter)).mono ?_) ?_
    · rintro _ v ⟨r, rfl, inside₃, grows₃, holds⟩
      exact ⟨⟨.empty, inside₃⟩, grows₂.trans grows₃, r, rfl, holds⟩
    · rintro _ v ⟨-, -, r, rfl, -⟩ ⟨⟩
  case no =>
    rintro rfl h grows₂
    exact ⟨grows₂, rfl⟩
  case settles =>
    rintro flow v ⟨grows, left, ended⟩ stays
    cases equal with
    | true =>
      obtain ⟨r, rfl, -⟩ := ended
      cases stays
    | false => exact ⟨grows, left, rfl⟩

/-- In the frame of a search the names `xs` and `x` are bound to deep copies of a sequence and of a value that
its elements can be compared with. -/
structure Prepared (cfg : Config) (s : State) (m : ModuleId) (xs x b c : BoxId) (u : State) : Prop where
  inside : InFrame cfg s m (begun (.ofList [("xs", b), ("x", c)])) u
  room : cfg.dataLimit ≠ 0
  isSequence : (s.heap.value xs).isSequence
  compares : ∀ i y, (s.heap.value xs).elementAt? s.heap i = some y →
    ∃ equal, s.heap.equal cfg.dataLimit y (s.heap.value x) = .ok equal
  sequence : s.heap.CopiedBox u.heap cfg.dataLimit xs b
  value : s.heap.CopiedBox u.heap cfg.dataLimit x c

section Prepared

variable {xs x b c : BoxId} {boxes : List BoxId} {k : Nat}

/-- The elements of the copy are, place by place, copies of the elements. -/
theorem Prepared.places (prepared : Prepared cfg s m xs x b c u) (grows : u.heap.Grows t.heap)
    (supplies : t.heap.Supplies (u.heap.value b) boxes) (k : Nat) :
    Option.Rel (fun y y' => ∃ n, Copied s.heap t.heap n y y') ((s.heap.value xs).elementAt? s.heap k)
      (boxes[k]?.map t.heap.value) :=
  supplies.value k ▸ (prepared.sequence.2.grown grows).elementAt? prepared.isSequence k

theorem Prepared.lt_length {y : Value} (prepared : Prepared cfg s m xs x b c u)
    (grows : u.heap.Grows t.heap) (supplies : t.heap.Supplies (u.heap.value b) boxes)
    (element : (s.heap.value xs).elementAt? s.heap k = some y) : k < boxes.length := by
  have place := prepared.places grows supplies k
  rw [element] at place
  by_contra beyond
  rw [List.getElem?_eq_none (Nat.not_lt.1 beyond)] at place
  cases place

/-- The copy of an element is compared with the copy of the value as the element is with the value. -/
theorem Prepared.compared {b' : BoxId} (prepared : Prepared cfg s m xs x b c u)
    (grows : u.heap.Grows t.heap) (supplies : t.heap.Supplies (u.heap.value b) boxes)
    (found : boxes[k]? = some b') : ∃ y equal, (s.heap.value xs).elementAt? s.heap k = some y ∧
      s.heap.equal cfg.dataLimit y (s.heap.value x) = .ok equal ∧ ∀ h, t.heap.Grows h →
        h.equal cfg.dataLimit (t.heap.value b') (h.value c) = .ok equal := by
  have place := prepared.places grows supplies k
  rw [found] at place
  generalize element : (s.heap.value xs).elementAt? s.heap k = y at place
  obtain @⟨y, _, n, copy⟩ := place
  obtain ⟨equal, compared⟩ := prepared.compares k y element
  refine ⟨y, equal, rfl, compared, fun h later => ?_⟩
  rw [← compared]
  exact equal_copied (copy.grown later) (prepared.value.grown (grows.trans later)).2

/-- The loop returns what is replied at the first place at which the element is equal, or comes to its end
when there is none.  Its invariant is that there is no such place before the turn. -/
theorem searchLoop {answer : Option Nat → Value} {hit miss : Expr} {body : Block} {fuel calls : Nat}
    (prepared : Prepared cfg s m xs x b c u) (site : s.Site m₀ m) (searches : SearchTurn hit body)
    (replies : Replies cfg s m fuel ⟨m₀, calls⟩ hit miss answer) (p p₁ p₂ p₃ : Position) :
    Ends (evalStmt cfg (fuel + 4) ⟨m₀, calls⟩ (.forIn p (.ident p₁ "xs") ⟨p₂, "i"⟩ ⟨p₃, "e"⟩ body)) u
      fun flow t => InFrame cfg s m (begun (.ofList [("xs", b), ("x", c)])) t ∧ u.heap.Grows t.heap ∧
        ((∃ r, flow = .returnValue (some r) ∧ ∃ place,
          s.heap.FirstEqual cfg.dataLimit (s.heap.value xs) (s.heap.value x) place ∧
            t.heap.value r = answer place) ∨
          flow = .done ∧ s.heap.FirstEqual cfg.dataLimit (s.heap.value xs) (s.heap.value x) none) := by
  let F := begun (.ofList [("xs", b), ("x", c)])
  let first := s.heap.FirstEqual cfg.dataLimit (s.heap.value xs) (s.heap.value x)
  let returned (flow : Flow) (h : Heap) : Prop :=
    ∃ r, flow = .returnValue (some r) ∧ ∃ place, first place ∧ h.value r = answer place
  refine prepared.inside.forIn (Q := fun flow h => u.heap.Grows h ∧
    (returned flow h ∨ flow = .done ∧ first none)) site (get?_begun _ "xs")
    (prepared.sequence.2.isSequence prepared.isSequence) fun boxes t entered grows supplies => ?_
  let within (v : State) : Prop := t.heap.Grows v.heap ∧
    ∃ level, level.get? "x" = none ∧ InFrame cfg s m (F.inner level) v
  let I (k : Nat) (v : State) : Prop := within v ∧
    ∀ j < k, ¬ s.heap.EqualAt cfg.dataLimit (s.heap.value xs) (s.heap.value x) j
  let R (flow : Flow) (v : State) : Prop := within v ∧ returned flow v.heap
  have start : I 0 t := ⟨⟨.refl t.heap, .empty, rfl, entered⟩, nofun⟩
  refine (Ends.forTurns (I := I) (R := R) start ?turn).mono ?ended
  case turn =>
    rintro k b' found v ⟨⟨grows₁, level, free, inside⟩, before⟩
    obtain ⟨y, equal, element, isEqual, compared⟩ := prepared.compared grows supplies found
    have there : t.heap.Has (.box b') := supplies.there b' (List.mem_of_getElem? found)
    have alike (h : Heap) (grows₂ : v.heap.Grows h) :
        h.equal cfg.dataLimit (v.heap.value b') (h.value c) = .ok equal := by
      rw [grows₁.value_eq there]
      exact compared h (grows₁.trans grows₂)
    refine (inside.searchTurn searches replies site prepared.room (grows₁.has there) (get?_begun _ "x") free
      alike).mono ?_
    rintro flow w ⟨grows₂, left, ended⟩
    have still : within w := ⟨grows₁.trans grows₂, left⟩
    cases equal with
    | true =>
      obtain ⟨r, rfl, holds⟩ := ended
      exact ⟨still, r, rfl, some k, ⟨⟨y, element, isEqual⟩, before⟩, holds⟩
    | false =>
      cases ended
      refine ⟨still, fun j upTo => ?_⟩
      rcases Nat.lt_succ_iff_lt_or_eq.1 upTo with earlier | rfl
      · exact before j earlier
      · rintro ⟨y', element', equal'⟩
        cases element.symm.trans element'
        cases isEqual.symm.trans equal'
  case ended =>
    rintro flow v (⟨⟨grows₁, level, -, left⟩, returns⟩ | ⟨rfl, ⟨grows₁, level, -, left⟩, before⟩)
    · exact ⟨⟨level, left⟩, grows.trans grows₁, .inl returns⟩
    · refine ⟨⟨level, left⟩, grows.trans grows₁, .inr ⟨rfl, fun j equal => ?_⟩⟩
      exact before j (prepared.lt_length grows supplies equal.choose_spec.1) equal

/-- The body of a function that searches returns what is replied at the first place at which the element is
equal, or else behind the loop. -/
theorem search {answer : Option Nat → Value} {hit miss : Expr} {body : Block} {fuel calls : Nat}
    (prepared : Prepared cfg s m xs x b c u) (site : s.Site m₀ m) (searches : SearchBody hit miss body)
    (replies : Replies cfg s m fuel ⟨m₀, calls⟩ hit miss answer) :
    Ends (runBlock (evalStmt cfg (fuel + 4) ⟨m₀, calls⟩) body) u fun flow t =>
      (∃ F, InFrame cfg s m F t) ∧ u.heap.Grows t.heap ∧ ∃ r, flow = .returnValue (some r) ∧
        ∃ place, s.heap.FirstEqual cfg.dataLimit (s.heap.value xs) (s.heap.value x) place ∧
          t.heap.value r = answer place := by
  cases searches with | @intro p p₁ p₂ p₃ p₄ turn searches
  refine .runBlock_cons (searchLoop prepared site searches replies p p₁ p₂ p₃) ?_ ?_
  · rintro flow t ⟨left, grows, ⟨r, rfl, place⟩ | ⟨rfl, none⟩⟩ leaves
    · exact ⟨⟨_, left⟩, grows, r, rfl, place⟩
    · cases leaves
  · rintro flow t ⟨left, grows, ⟨r, rfl, place⟩ | ⟨rfl, none⟩⟩ stays
    · cases stays
    · refine .runBlock_last ((returnValue (replies.misses left)).mono ?_) ?_
      · rintro _ v ⟨r, rfl, left', grows', holds⟩
        exact ⟨⟨_, left'⟩, grows.trans grows', r, rfl, Option.none, none, holds⟩
      · rintro _ v ⟨-, -, r, rfl, -⟩ ⟨⟩

end Prepared

end InFrame

/-! ## Calls of the functions -/

/-- A sequence and a value that are nested no deeper than a bound. -/
structure Heap.Fits (h : Heap) (limit : Nat) (xs x : BoxId) : Prop where
  sequence : (h.canonical limit (h.value xs)).isSome
  value : (h.canonical limit (h.value x)).isSome

/-- What a search is called with: a sequence whose elements lead to no cycle, and a value that leads to
none. -/
structure Heap.Searchable (h : Heap) (xs x : BoxId) : Prop where
  there : h.Has (.box xs)
  there' : h.Has (.box x)
  isSequence : (h.value xs).isSequence
  elements : ∀ c, (h.value xs).container? = some c → ∀ b ∈ h.contents c, h.Acyclic (.box b)
  acyclic : h.Acyclic (.box x)

/-- Every bound from some bound on leaves room for the sequence and the value. -/
theorem Heap.Searchable.exists_depth {h : Heap} {xs x : BoxId} (searchable : h.Searchable xs x)
    (sound : h.Sound) : ∃ depth, ∀ limit ≥ depth, h.Fits limit xs x := by
  obtain ⟨n, fits⟩ := canonical_of_acyclic sound searchable.there (acyclic_of_elements searchable.elements)
  obtain ⟨n', fits'⟩ := canonical_of_acyclic sound searchable.there' searchable.acyclic
  exact ⟨max n n', fun limit le =>
    ⟨isSome_canonical_mono (Nat.le_trans (Nat.le_max_left n n') le) fits,
      isSome_canonical_mono (Nat.le_trans (Nat.le_max_right n n') le) fits'⟩⟩

namespace Eval

open InFrame

variable {cfg : Config} {s : State} {m : ModuleId} {xs x : BoxId} {f : FunctionId} {callee : BoxId}

/-- A call of a function that searches. -/
theorem ends_callSearch {d : FunctionDecl} (answer : Option Nat → Value) {hit miss : Expr} {fuel calls : Nat}
    (params : d.params = ["xs", "x"]) (searches : SearchBody hit miss d.body)
    (replies : Replies cfg s m fuel ⟨m, calls⟩ hit miss answer) (regular : s.heap.Regular)
    (site : s.Site m m) (searchable : s.heap.Searchable xs x) (fits : s.heap.Fits cfg.dataLimit xs x)
    (holds : s.heap.value callee = .function f) (means : s.heap.function f = d.function m) :
    Ends (call (evaluators cfg (fuel + 4)) cfg (calls + 1) callee [xs, x]) s fun b u =>
      Leaves cfg s u ∧ ∃ place,
        s.heap.FirstEqual cfg.dataLimit (s.heap.value xs) (s.heap.value x) place ∧
          u.heap.value b = answer place := by
  have sound := regular.toSound
  have room : cfg.dataLimit ≠ 0 := ne_zero_of_canonical fits.value
  have compares (i : Nat) (y : Value) (element : (s.heap.value xs).elementAt? s.heap i = some y) :
      ∃ equal, s.heap.equal cfg.dataLimit y (s.heap.value x) = .ok equal :=
    exists_equal regular (knows_element sound element) (sound.value x)
      (isSome_canonical_element fits.sequence element)
  have there : ∀ b ∈ [xs, x], s.heap.Has (.box b) := by simp [searchable.there, searchable.there']
  have each : ∀ b ∈ [xs, x], (s.heap.canonical cfg.dataLimit (s.heap.value b)).isSome := by
    simp [fits.sequence, fits.value]
  refine ends_callDeclared (Q := fun b h =>
    ∃ place, s.heap.FirstEqual cfg.dataLimit (s.heap.value xs) (s.heap.value x) place ∧
      h.value b = answer place) sound site (by rw [params]; rfl) there each holds means
        fun copies u pairs inside grows => ?_
  obtain ⟨b, rest, copied, pairs', rfl⟩ := List.forall₂_cons_left_iff.1 pairs
  obtain ⟨c, rest', copied', last, rfl⟩ := List.forall₂_cons_left_iff.1 pairs'
  cases last
  rw [params] at inside
  exact search ⟨inside, room, searchable.isSequence, compares, copied, copied'⟩ site searches replies

end Eval

/-- In a module, a name means a function. -/
def State.Means (s : State) (m : ModuleId) (name : String) (f : FunctionId) : Prop :=
  ∃ b, (s.scopeOf m).getObj? name = some b ∧ s.HasBox b ∧ s.heap.value b = .function f

open Eval InFrame in
/-- An import that finds the standard module comes to its end, and its names `contains` and `index_of` mean
linear searches.  Called in any later state on a sequence and a value that lead to no cycle, with room for
their depth, `index_of` answers the first place at which the element is equal to the value, or `-1`, and
`contains` answers whether there is one.  Nothing is left of the calls but new boxes and containers and, where
calls are traced, lines of tracing. -/
theorem linear_search {cfg : Config} {ctx : Context} {s₀ : State} {key file : String}
    (loads : LoadsFile cfg ctx "seq" s₀ key file Library.seq) (fuel : Nat) :
    Ends (importModule (evaluators cfg (fuel + 1)) cfg ctx "seq") s₀ fun m t =>
      ∃ contains indexOf, t.Means m "contains" contains ∧ t.Means m "index_of" indexOf ∧
        ∀ s, Reachable cfg s → t.Extends s → ∀ xs x, s.heap.Searchable xs x →
          (∃ depth, ∀ limit ≥ depth, s.heap.Fits limit xs x) ∧
          ∀ cfg' : Config, s.heap.Fits cfg'.dataLimit xs x → ∃ place,
            s.heap.FirstEqual cfg'.dataLimit (s.heap.value xs) (s.heap.value x) place ∧
            ∀ fuel calls callee,
              (s.heap.value callee = .function contains →
                Ends (call (evaluators cfg' (fuel + 4)) cfg' (calls + 1) callee [xs, x]) s fun b u =>
                  Leaves cfg' s u ∧ u.heap.value b = .bool place.isSome) ∧
              (s.heap.value callee = .function indexOf →
                Ends (call (evaluators cfg' (fuel + 4)) cfg' (calls + 1) callee [xs, x]) s fun b u =>
                  Leaves cfg' s u ∧ u.heap.value b = .int (.ofInt (place.elim (-1) Nat.cast))) := by
  refine (ends_importStandard loads fuel).mono fun m t defines => ?_
  obtain ⟨b, contains, bound, holds⟩ := defines.bound Library.containsDecl (by simp [Library.seqDecls])
  obtain ⟨b', indexOf, bound', holds'⟩ := defines.bound Library.indexOfDecl (by simp [Library.seqDecls])
  refine ⟨contains, indexOf, ⟨b, bound, holds.box, holds.value⟩, ⟨b', bound', holds'.box, holds'.value⟩, ?_⟩
  intro s reachable later xs x searchable
  have regular := reachable.regular
  refine ⟨searchable.exists_depth regular.toSound, fun cfg' fits => ?_⟩
  have here := defines.here.mono later
  have site : s.Site m m := ⟨here, here, State.Stands.mono later defines.here defines.registered⟩
  have means : s.heap.function contains = Library.containsDecl.function m :=
    (State.getD_of_grown later.functions holds.there).trans holds.function
  have means' : s.heap.function indexOf = Library.indexOfDecl.function m :=
    (State.getD_of_grown later.functions holds'.there).trans holds'.function
  obtain ⟨place, first⟩ := exists_firstEqual s.heap cfg'.dataLimit (s.heap.value xs) (s.heap.value x)
  refine ⟨place, first, fun fuel calls callee => ⟨fun called => ?_, fun called => ?_⟩⟩
  · refine (ends_callSearch _ rfl (.intro _ _ _ _ _ (.intro _ _ _ _ _)) (.found _ _) regular site searchable
      fits called means).mono ?_
    rintro b u ⟨leaves, place', first', answers⟩
    exact ⟨leaves, first.unique first' ▸ answers⟩
  · refine (ends_callSearch _ rfl (.intro _ _ _ _ _ (.intro _ _ _ _ _)) (.place site _ _ _) regular site
      searchable fits called means').mono ?_
    rintro b u ⟨leaves, place', first', answers⟩
    exact ⟨leaves, first.unique first' ▸ answers⟩

section

open Eval

/-- A text can be put into a new box of a state that a run can be in. -/
theorem Reachable.exists_text {cfg : Config} {s : State} {m : ModuleId} (reachable : Reachable cfg s)
    (here : s.HasModule m) (text : String) : ∃ b t, Reachable cfg t ∧ s.Extends t ∧ s.heap.Grows t.heap ∧
      t.heap.Has (.box b) ∧ t.heap.value b = .str text := by
  have literal : Reachable cfg (evalExpr cfg 1 ⟨m, 0⟩ (.literal .start (.str text)) s).2 :=
    reachable.exprEnd 1 _ here
  rw [evalExpr_succ, Eval.expr] at literal
  refine ⟨⟨s.heap.boxes.size⟩, (Operation.alloc (.str text)).apply s, literal, Operation.extends _ s,
    .push s.heap _, ?_, ?_⟩
  · exact Nat.lt_of_lt_of_eq (Nat.lt_succ_self _) (Array.size_push _).symm
  · exact (Heap.value_push s.heap _ _).trans (if_pos rfl)

/-- An import leaves a later state. -/
theorem Reachable.extends_import {cfg : Config} {ctx : Context} {name : String} {s t : State} {m : ModuleId}
    {fuel : Nat} (reachable : Reachable cfg s) (here : s.HasModule ctx.module)
    (imported : importModule (evaluators cfg fuel) cfg ctx name s = (.ok m, t)) : s.Extends t := by
  obtain ⟨w, -, begun⟩ := Discipline.scoped_upholds.beginsFor reachable.wellFormed here
  let act := importModule (evaluators cfg fuel) cfg ctx name
  obtain ⟨_, _, _, run, -, grew, -⟩ : Discipline.scoped.Agree w s s act act _ :=
    Discipline.Agree.importModule (Discipline.scoped.contract cfg fuel) begun name
  cases imported.symm.trans run
  exact grew

/-- A run can be in the state behind a statement that imports a module. -/
theorem Reachable.exists_imported {cfg : Config} {ctx : Context} {name : String} {s t : State} {m : ModuleId}
    {fuel : Nat} (reachable : Reachable cfg s) (here : s.HasModule ctx.module)
    (imported : importModule (evaluators cfg fuel) cfg ctx name s = (.ok m, t)) :
    ∃ u, Reachable cfg u ∧ t.Extends u ∧ t.heap.Grows u.heap ∧ u.HasModule ctx.module := by
  have grew := reachable.extends_import here imported
  obtain ⟨m₀, stands, -⟩ := reachable.wellFormed.stands here
  let shown := Value.module m (t.registry.module m).name
  let made := (Operation.alloc shown).apply t
  have allocated : Eval.alloc shown t = (.ok ⟨t.heap.boxes.size⟩, made) := rfl
  have later : t.Extends made := Operation.extends _ t
  let bound := made.modifyScope m₀ (·.setObj (Path.base name) ⟨t.heap.boxes.size⟩)
  have declared : setObj ctx.module (Path.base name) ⟨t.heap.boxes.size⟩ made = (.ok (), bound) :=
    run_onScope (stands.mono (grew.trans later) here)
  have whole : bindModule ctx name m t = (.ok .done, bound) :=
    (bind_ok (run_get t)).trans ((bind_ok allocated).trans (bind_ok declared))
  have reached := reachable.stmtEnd (fuel + 1) (.importModule .start name) here
  rw [evalStmt_succ, stmt_importModule, located_ok ((bind_ok imported).trans whole)] at reached
  have onward : t.Extends bound := later.trans (made.extends_modifyScope m₀ _)
  exact ⟨bound, reached, onward, .push t.heap _, here.mono (grew.trans onward)⟩

/-- After an import, `b` is found in `"ab"` at the place 1. -/
theorem linear_search_text : ∃ m t s contains indexOf xs x,
    importModule (evaluators .standard 1) .standard ⟨⟨0⟩, 0⟩ "seq"
      (State.initial.load (.ofSource "main" "/" "")) = (.ok m, t) ∧
    (t.scopeOf m).getObj? "contains" = some contains ∧ (t.scopeOf m).getObj? "index_of" = some indexOf ∧
    Reachable .standard s ∧ t.Extends s ∧ s.heap.value xs = .str "ab" ∧ s.heap.value x = .str "b" ∧
    (∃ b u, call (evaluators .standard 4) .standard 1 contains [xs, x] s = (.ok b, u) ∧
      u.heap.value b = .bool true) ∧
    ∃ b u, call (evaluators .standard 4) .standard 1 indexOf [xs, x] s = (.ok b, u) ∧
      u.heap.value b = .int 1 := by
  let M : Module := .ofSource "main" "/" ""
  let ctx : Context := ⟨State.initial.registry.next, 0⟩
  have start : Reachable .standard (State.initial.load M) := .register .initial rfl
  have here : (State.initial.load M).HasModule ctx.module := State.hasModule_load .initial M
  have loads : LoadsFile .standard ctx "seq" (State.initial.load M) "/stdlib/seq" "/stdlib/seq.sb"
      Library.seq := ⟨Library.findFile_seq, by decide +kernel, Library.read_seq, by decide +kernel⟩
  obtain ⟨m, t, imported, f, g, ⟨b, bound, there, holds⟩, ⟨c, bound', there', holds'⟩, all⟩ :=
    linear_search loads 0
  obtain ⟨u, reached, later, grows, home⟩ := start.exists_imported here imported
  obtain ⟨xs, v, reached₁, later₁, grows₁, isThere, isText⟩ := reached.exists_text home "ab"
  obtain ⟨x, s, reached₂, later₂, grows₂, isThere', isText'⟩ := reached₁.exists_text (home.mono later₁) "b"
  have text : s.heap.value xs = .str "ab" := (grows₂.value_eq isThere).trans isText
  have searchable : s.heap.Searchable xs x :=
    { there := grows₂.has isThere
      there' := isThere'
      isSequence := by rw [text]; rfl
      elements := by rw [text]; nofun
      acyclic := acyclic_of_canonical (n := 1) (by rw [isText']; rfl) }
  have behind := later.trans (later₁.trans later₂)
  obtain ⟨-, calls⟩ := all s reached₂ behind xs x searchable
  have grown := grows.trans (grows₁.trans grows₂)
  obtain ⟨place, first, each⟩ := calls .standard ⟨by rw [text]; rfl, by rw [isText']; rfl⟩
  have one : s.heap.FirstEqual Config.standard.dataLimit (s.heap.value xs) (s.heap.value x) (some 1) := by
    rw [text, isText']
    refine ⟨⟨.str "b", rfl, rfl⟩, fun j before => ?_⟩
    obtain rfl := Nat.lt_one_iff.1 before
    rintro ⟨_, ⟨⟩, ⟨⟩⟩
  cases first.unique one
  obtain ⟨contains, -⟩ := each 0 0 b
  obtain ⟨-, indexOf⟩ := each 0 0 c
  obtain ⟨_, _, run, -, isTrue⟩ := contains ((grown.value_eq there).trans holds)
  obtain ⟨_, _, run', -, isOne⟩ := indexOf ((grown.value_eq there').trans holds')
  exact ⟨m, t, s, b, c, xs, x, imported, bound, bound', reached₂, behind, text, isText', ⟨_, _, run, isTrue⟩,
    _, _, run', isOne⟩

end

end Shiba

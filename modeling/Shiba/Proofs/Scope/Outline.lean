import Shiba.Proofs.Scope.Contents

/-!
# The outline of a scope

The outline of a scope is what is left when the bindings are forgotten: which frames it has, how many
levels each of them has in either name space, and which names stand in which level, in order.

* `Scope.Grows`: a scope has the outline it had, but for names that came in at the innermost level of
  its current frame.  Every way of binding a name makes a scope grow like this.
* `Scope.Grows.dropBlock`, `Scope.Grows.dropFrame`: when a scope has grown since a block or a call was
  opened, closing that block or ending that call gives the outline it had before; and there is a block
  to close and a call to end.
-/

namespace Shiba

/-! ## Levels -/

namespace Levels

variable {α : Type}

/-- The names of the levels, the innermost first. -/
def outline (l : Levels α) : List (List String) := l.toList.map OrderedMap.keys

/-- An outline with names added to the innermost level. -/
def addInner (added : List String) : List (List String) → List (List String)
  | [] => []
  | inner :: outer => (inner ++ added) :: outer

/-- Names came in at the innermost level, and all else stayed. -/
def Grows (l l' : Levels α) : Prop := ∃ added, l'.outline = addInner added l.outline

theorem outline_eq (l : Levels α) : l.outline = l.blocks.map OrderedMap.keys ++ [l.body.keys] := by
  rw [outline, toList, List.map_append]
  rfl

theorem findIn_eq_none_iff {name : String} {levels : List (OrderedMap String α)} :
    findIn name levels = none ↔ ∀ names ∈ levels.map OrderedMap.keys, name ∉ names := by
  induction levels with
  | nil => exact iff_of_true rfl (List.forall_mem_nil _)
  | cons level outer ih =>
    rw [findIn, List.map_cons, List.forall_mem_cons, ← ih]
    cases here : level.get? name with
    | some a => exact iff_of_false (Option.some_ne_none a) fun both => both.1 (OrderedMap.mem_keys_of_get? here)
    | none =>
      refine ⟨fun absent => ⟨fun listed => ?_, absent⟩, And.right⟩
      obtain ⟨a, found⟩ := OrderedMap.exists_get?_of_mem_keys listed
      cases here.symm.trans found

/-- Levels with one outline have meanings for the same names. -/
theorem get?_eq_none_of_outline_eq {l l' : Levels α} {name : String} (same : l'.outline = l.outline)
    (absent : l.get? name = none) : l'.get? name = none := by
  rw [get?, findIn_eq_none_iff, ← outline] at absent ⊢
  rwa [same]

theorem addInner_nil (outline : List (List String)) : addInner [] outline = outline := by
  cases outline with
  | nil => rfl
  | cons inner outer => rw [addInner, List.append_nil]

theorem addInner_addInner (first second : List String) (outline : List (List String)) :
    addInner second (addInner first outline) = addInner (first ++ second) outline := by
  cases outline with
  | nil => rfl
  | cons inner outer => simp only [addInner, List.append_assoc]

theorem length_addInner (added : List String) (outline : List (List String)) :
    (addInner added outline).length = outline.length := by
  cases outline with
  | nil => rfl
  | cons inner outer => rfl

theorem length_outline (l : Levels α) : l.outline.length = l.depth + 1 := by
  simp [outline_eq, depth]

theorem outline_push (l : Levels α) : l.push.outline = [] :: l.outline := by
  simp [outline_eq, push]

theorem outline_pop {l : Levels α} (active : l.depth ≠ 0) : l.pop.outline = l.outline.tail := by
  rcases l with ⟨body, - | ⟨inner, outer⟩⟩
  · exact absurd rfl active
  · simp [outline_eq, pop]

theorem depth_eq_of_outline_eq {l l' : Levels α} (same : l'.outline = l.outline) :
    l'.depth = l.depth := by
  have lengths := congrArg List.length same
  rw [length_outline, length_outline] at lengths
  omega

theorem Grows.of_eq {l l' : Levels α} (same : l'.outline = l.outline) : l.Grows l' :=
  ⟨[], by rw [same, addInner_nil]⟩

theorem Grows.refl (l : Levels α) : l.Grows l := .of_eq rfl

theorem Grows.trans {l l' l'' : Levels α} (first : l.Grows l') (second : l'.Grows l'') :
    l.Grows l'' := by
  rcases first with ⟨added, grown⟩
  rcases second with ⟨more, grown'⟩
  exact ⟨added ++ more, by rw [grown', grown, addInner_addInner]⟩

theorem Grows.depth_eq {l l' : Levels α} (grown : l.Grows l') : l'.depth = l.depth := by
  rcases grown with ⟨added, outline⟩
  have lengths := congrArg List.length outline
  rw [length_addInner, length_outline, length_outline] at lengths
  omega

/-- Closing a block that was opened before the levels grew. -/
theorem Grows.pop {l l' : Levels α} (grown : l.push.Grows l') :
    l'.depth ≠ 0 ∧ l'.pop.outline = l.outline := by
  rcases grown with ⟨added, outline⟩
  rw [outline_push, addInner] at outline
  have active : l'.depth ≠ 0 := by
    have lengths := congrArg List.length outline
    rw [length_outline, List.length_cons, length_outline] at lengths
    omega
  exact ⟨active, by rw [outline_pop active, outline, List.tail_cons]⟩

theorem declare_grows (l : Levels α) (name : String) (a : α) : l.Grows (l.declare name a) := by
  have inserted : ∀ level : OrderedMap String α, ∃ added,
      (level.insert name a).keys = level.keys ++ added := by
    intro level
    rw [OrderedMap.keys_insert]
    split
    · exact ⟨[], (List.append_nil _).symm⟩
    · exact ⟨[name], rfl⟩
  rw [declare]
  split
  · next none =>
    obtain ⟨added, keys⟩ := inserted l.body
    exact ⟨added, by simp [outline_eq, none, keys, addInner]⟩
  · next inner outer some =>
    obtain ⟨added, keys⟩ := inserted inner
    exact ⟨added, by simp [outline_eq, some, keys, addInner]⟩

theorem keys_insert_of_contains {level : OrderedMap String α} {name : String} (a : α)
    (bound : level.contains name = true) : (level.insert name a).keys = level.keys := by
  rw [OrderedMap.keys_insert, if_pos (OrderedMap.contains_eq_true_iff.1 bound)]

theorem keys_rebindIn {name : String} {a : α} {levels rebound : List (OrderedMap String α)}
    (found : rebindIn name a levels = some rebound) :
    rebound.map OrderedMap.keys = levels.map OrderedMap.keys := by
  induction levels generalizing rebound with
  | nil => cases found
  | cons level outer ih =>
    rw [rebindIn] at found
    split at found
    · next bound =>
      cases found
      rw [List.map_cons, List.map_cons, keys_insert_of_contains a bound]
    · obtain ⟨inner, rest, rfl⟩ := Option.map_eq_some_iff.1 found
      rw [List.map_cons, List.map_cons, ih rest]

theorem set_grows (l : Levels α) (name : String) (a : α) : l.Grows (l.set name a) := by
  rw [set]
  split
  · next blocks rebound => exact .of_eq (by simp [outline_eq, keys_rebindIn rebound])
  · split
    · next bound => exact .of_eq (by simp [outline_eq, keys_insert_of_contains a bound])
    · exact declare_grows l name a

end Levels

/-! ## Frames -/

namespace Frame

variable {α β : Type}

/-- The names of the levels of a frame in either name space. -/
def outline (f : Frame α β) : List (List String) × List (List String) :=
  (f.objs.outline, f.structs.outline)

/-- Names came in at the innermost level, and all else stayed. -/
def Grows (f f' : Frame α β) : Prop := f.objs.Grows f'.objs ∧ f.structs.Grows f'.structs

theorem Grows.of_eq {f f' : Frame α β} (same : f'.outline = f.outline) : f.Grows f' :=
  ⟨.of_eq (congrArg Prod.fst same), .of_eq (congrArg Prod.snd same)⟩

theorem Grows.trans {f f' f'' : Frame α β} (first : f.Grows f') (second : f'.Grows f'') :
    f.Grows f'' :=
  ⟨first.1.trans second.1, first.2.trans second.2⟩

end Frame

/-! ## Scopes -/

namespace Scope

variable {α β : Type}

/-- The outlines of the top level and of the active calls. -/
def outline (s : Scope α β) :
    (List (List String) × List (List String)) × List (List (List String) × List (List String)) :=
  (s.root.outline, s.frames.map Frame.outline)

/-- Names came in at the innermost level of the current frame, and all else stayed. -/
structure Grows (s s' : Scope α β) : Prop where
  calls : s'.frames.length = s.frames.length
  current : s.current.Grows s'.current
  outer : s'.frames.tail.map Frame.outline = s.frames.tail.map Frame.outline
  root : s.frames ≠ [] → s'.root.outline = s.root.outline

theorem Grows.of_eq {s s' : Scope α β} (same : s'.outline = s.outline) : s.Grows s' := by
  have root := congrArg Prod.fst same
  have frames : s'.frames.map Frame.outline = s.frames.map Frame.outline := congrArg Prod.snd same
  refine ⟨by simpa using congrArg List.length frames, ?_, ?_, fun _ => root⟩
  · rw [Scope.current, Scope.current]
    rcases s with ⟨r, - | ⟨frame, outer⟩⟩ <;> rcases s' with ⟨r', - | ⟨frame', outer'⟩⟩
    · exact .of_eq root
    · cases frames
    · cases frames
    · exact .of_eq (List.cons.inj frames).1
  · rw [List.map_tail, List.map_tail, frames]

theorem Grows.refl (s : Scope α β) : s.Grows s := .of_eq rfl

theorem Grows.trans {s s' s'' : Scope α β} (first : s.Grows s') (second : s'.Grows s'') :
    s.Grows s'' where
  calls := second.calls.trans first.calls
  current := first.current.trans second.current
  outer := second.outer.trans first.outer
  root active := by
    have active' : s'.frames ≠ [] := by
      intro none
      have lengths := first.calls
      rw [none] at lengths
      exact active (List.length_eq_zero_iff.1 lengths.symm)
    exact (second.root active').trans (first.root active)

theorem grows_modifyCurrent {s : Scope α β} {f : Frame α β → Frame α β}
    (grown : s.current.Grows (f s.current)) : s.Grows (s.modifyCurrent f) := by
  rcases s with ⟨root, - | ⟨frame, outer⟩⟩
  · exact ⟨rfl, grown, rfl, fun active => absurd rfl active⟩
  · exact ⟨rfl, grown, rfl, fun _ => rfl⟩

theorem setObj_grows (s : Scope α β) (name : String) (a : α) : s.Grows (s.setObj name a) :=
  grows_modifyCurrent ⟨Levels.set_grows _ name a, .refl _⟩

theorem declareObj_grows (s : Scope α β) (name : String) (a : α) :
    s.Grows (s.declareObj name a) :=
  grows_modifyCurrent ⟨Levels.declare_grows _ name a, .refl _⟩

theorem setStruct_grows (s : Scope α β) (name : String) (b : β) :
    s.Grows (s.setStruct name b) :=
  grows_modifyCurrent ⟨.refl _, Levels.set_grows _ name b⟩

/-- The block that was opened before a scope grew can be closed, which gives back the outline. -/
theorem Grows.dropBlock {s s' : Scope α β} (grown : s.pushBlock.Grows s') :
    s'.blockDepth ≠ 0 ∧ s'.dropBlock.outline = s.outline := by
  rcases s with ⟨root, - | ⟨frame, outer⟩⟩ <;> rcases s' with ⟨root', - | ⟨frame', outer'⟩⟩
  · have objs := grown.current.1.pop
    have structs := grown.current.2.pop
    exact ⟨objs.1, Prod.ext (Prod.ext objs.2 structs.2) rfl⟩
  · cases grown.calls
  · cases grown.calls
  · have objs := grown.current.1.pop
    have structs := grown.current.2.pop
    have same := grown.root (List.cons_ne_nil _ _)
    exact ⟨objs.1, Prod.ext same (congrArg₂ List.cons (Prod.ext objs.2 structs.2) grown.outer)⟩

/-- The call that was begun before a scope grew can be ended, which gives back the outline. -/
theorem Grows.dropFrame {s s' : Scope α β} {names : OrderedMap String α}
    (grown : (s.addFrame names).Grows s') :
    s'.frames ≠ [] ∧ s'.dropFrame.outline = s.outline := by
  constructor
  · intro none
    have lengths := grown.calls
    rw [none] at lengths
    cases lengths
  · exact Prod.ext (grown.root (List.cons_ne_nil _ _)) grown.outer

theorem Closed.of_grows {s s' : Scope α β} (closed : s.Closed) (grown : s.Grows s') :
    s'.Closed := by
  rcases closed with ⟨none, objs, structs⟩
  have none' : s'.frames = [] := by
    have lengths := grown.calls
    rw [none] at lengths
    exact List.length_eq_zero_iff.1 lengths
  have current := grown.current
  rw [Scope.current, Scope.current, none, none'] at current
  refine ⟨none', ?_, ?_⟩
  · have depth := current.1.depth_eq
    rw [List.headD_nil, Levels.depth, List.headD_nil, Levels.depth, objs] at depth
    exact List.length_eq_zero_iff.1 depth
  · have depth := current.2.depth_eq
    rw [List.headD_nil, Levels.depth, List.headD_nil, Levels.depth, structs] at depth
    exact List.length_eq_zero_iff.1 depth

end Scope

end Shiba

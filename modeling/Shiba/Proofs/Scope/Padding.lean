import Shiba.Proofs.Scope.Outline

/-!
# An empty level more

An empty level that is put in somewhere below the innermost level of a frame changes nothing a name can
mean, and no name comes in there: a name is bound anew in a level that has it, or in the innermost one.

* `Levels.pad`, `Frame.pad`, `Scope.pad` put the level in.  Where it goes is counted from outside, since
  what lies outside of it stays as it is while calls and blocks come and go inside.
* `Scope.Covers` says that the level is not the innermost one of the current frame.  Then every way of
  binding a name comes to the same with the level and without it, and so does closing a block.
-/

namespace Shiba

/-! ## Levels -/

namespace Levels

variable {α : Type}

/-- The blocks with an empty one put in, `d` of them lying outside of it. -/
def padBlocks (d : Nat) : List (OrderedMap String α) → List (OrderedMap String α)
  | [] => [.empty]
  | level :: outer =>
    if outer.length < d then .empty :: level :: outer else level :: padBlocks d outer

/-- The levels with an empty block put in, `d` blocks lying outside of it. -/
def pad (d : Nat) (l : Levels α) : Levels α := { l with blocks := padBlocks d l.blocks }

variable {d : Nat} {l : Levels α} {level : OrderedMap String α}
  {blocks outer rest : List (OrderedMap String α)}

theorem padBlocks_of_le (few : blocks.length ≤ d) : padBlocks d blocks = .empty :: blocks := by
  cases blocks with
  | nil => rfl
  | cons level outer => exact if_pos few

theorem padBlocks_cons (level : OrderedMap String α) (many : d ≤ outer.length) :
    padBlocks d (level :: outer) = level :: padBlocks d outer :=
  if_neg (Nat.not_lt.2 many)

/-! What a name means. -/

theorem findIn_padBlocks (d : Nat) (name : String) (blocks rest : List (OrderedMap String α)) :
    findIn name (padBlocks d blocks ++ rest) = findIn name (blocks ++ rest) := by
  induction blocks with
  | nil => rfl
  | cons level outer ih =>
    by_cases few : outer.length < d
    · rw [padBlocks, if_pos few]
      rfl
    · rw [padBlocks, if_neg few, List.cons_append, List.cons_append, findIn, findIn, ih]

theorem get?_pad (d : Nat) (l : Levels α) (name : String) : (l.pad d).get? name = l.get? name :=
  findIn_padBlocks d name l.blocks [l.body]

theorem names_pad (d : Nat) (l : Levels α) : (l.pad d).names = l.names := by
  rw [names, names, pad, List.foldl_reverse, List.foldl_reverse]
  dsimp only
  induction l.blocks with
  | nil => rfl
  | cons level outer ih =>
    by_cases few : outer.length < d
    · rw [padBlocks, if_pos few]
      rfl
    · rw [padBlocks, if_neg few, List.foldr_cons, List.foldr_cons, ih]

theorem le_depth_pad (d : Nat) (l : Levels α) : l.depth ≤ (l.pad d).depth := by
  rw [depth, depth, pad]
  induction l.blocks with
  | nil => exact Nat.zero_le _
  | cons level outer ih =>
    rw [padBlocks]
    split
    · exact Nat.le_succ _
    · exact Nat.succ_le_succ ih

/-! Opening and closing blocks, and binding names. -/

theorem push_pad (outside : d ≤ l.depth) : (l.pad d).push = l.push.pad d :=
  congrArg (Levels.mk l.body) (padBlocks_cons .empty outside).symm

theorem pad_innermost (l : Levels α) : l.pad l.depth = l.push :=
  congrArg (Levels.mk l.body) (padBlocks_of_le (Nat.le_refl _))

theorem pop_pad (covered : d < l.depth) : (l.pad d).pop = l.pop.pad d := by
  rcases l with ⟨body, _ | ⟨inner, outer⟩⟩
  · cases covered
  · rw [pad, padBlocks_cons inner (Nat.le_of_lt_succ covered)]
    rfl

theorem declare_pad (covered : d < l.depth) (name : String) (a : α) :
    (l.pad d).declare name a = (l.declare name a).pad d := by
  rcases l with ⟨body, _ | ⟨inner, outer⟩⟩
  · cases covered
  · have many : d ≤ outer.length := Nat.le_of_lt_succ covered
    simp only [pad, declare, padBlocks_cons _ many]

theorem length_rebindIn {name : String} {a : α} (found : rebindIn name a blocks = some rest) :
    rest.length = blocks.length := by
  simpa using congrArg List.length (keys_rebindIn found)

theorem rebindIn_padBlocks (d : Nat) (name : String) (a : α) (blocks : List (OrderedMap String α)) :
    rebindIn name a (padBlocks d blocks) = (rebindIn name a blocks).map (padBlocks d) := by
  induction blocks with
  | nil => rfl
  | cons level outer ih =>
    by_cases few : outer.length < d
    · have skip : rebindIn name a (.empty :: level :: outer) =
          (rebindIn name a (level :: outer)).map (.empty :: ·) := rfl
      rw [padBlocks, if_pos few, skip]
      refine Option.map_congr fun rest found => ?_
      exact (padBlocks_of_le ((length_rebindIn found).trans_le few)).symm
    · have many : d ≤ outer.length := Nat.le_of_not_lt few
      rw [padBlocks_cons level many, rebindIn, rebindIn, ih]
      split
      · rw [Option.map_some, padBlocks_cons _ many]
      · rw [Option.map_map, Option.map_map]
        refine Option.map_congr fun rest found => ?_
        exact (padBlocks_cons level (many.trans_eq (length_rebindIn found).symm)).symm

theorem set_pad (covered : d < l.depth) (name : String) (a : α) :
    (l.pad d).set name a = (l.set name a).pad d := by
  have rebound : rebindIn name a (l.pad d).blocks = (rebindIn name a l.blocks).map (padBlocks d) :=
    rebindIn_padBlocks d name a l.blocks
  rw [set, set, rebound]
  cases rebindIn name a l.blocks with
  | some blocks => rfl
  | none =>
    by_cases bound : l.body.contains name
    · rw [Option.map_none, if_pos bound]
      exact if_pos bound
    · rw [Option.map_none, if_neg bound, ← declare_pad covered]
      exact if_neg bound

end Levels

/-! ## Frames -/

namespace Frame

variable {α β : Type}

/-- The frame with an empty level put in, `d` blocks of objects and `e` blocks of structs lying outside. -/
def pad (d e : Nat) (f : Frame α β) : Frame α β := ⟨f.objs.pad d, f.structs.pad e⟩

theorem pad_innermost (f : Frame α β) : f.pad f.objs.depth f.structs.depth = f.pushBlock :=
  congrArg₂ Frame.mk (Levels.pad_innermost f.objs) (Levels.pad_innermost f.structs)

/-- The level that is put in is not the innermost one. -/
def Covers (d e : Nat) (f : Frame α β) : Prop := d < f.objs.depth ∧ e < f.structs.depth

variable {d e : Nat} {f f' : Frame α β}

theorem Covers.of_grows (covers : f.Covers d e) (grown : f.Grows f') : f'.Covers d e := by
  rw [Covers, grown.1.depth_eq, grown.2.depth_eq]
  exact covers

theorem Covers.pushBlock (covers : f.Covers d e) : f.pushBlock.Covers d e :=
  ⟨Nat.lt_succ_of_lt covers.1, Nat.lt_succ_of_lt covers.2⟩

end Frame

/-! ## Scopes -/

namespace Scope

variable {α β : Type}

/-- The frames of calls with the `k`-th of them changed, counted from outside. -/
def changeCall (k : Nat) (g : Frame α β → Frame α β) : List (Frame α β) → List (Frame α β)
  | [] => []
  | frame :: outer =>
    if outer.length + 1 = k then g frame :: outer else frame :: changeCall k g outer

/-- The scope with an empty level put into its frame `k`, the top level being the frame 0. -/
def pad (k d e : Nat) (s : Scope α β) : Scope α β where
  root := if k = 0 then s.root.pad d e else s.root
  frames := changeCall k (Frame.pad d e) s.frames

/-- The level that is put in lies in a frame that is there, and it is not the innermost one of the current
frame. -/
def Covers (k d e : Nat) (s : Scope α β) : Prop :=
  k ≤ s.functionDepth ∧ (s.functionDepth = k → s.current.Covers d e)

variable {k d e : Nat} {s s' : Scope α β} {g : Frame α β → Frame α β}

theorem length_changeCall (k : Nat) (frames : List (Frame α β)) :
    (changeCall k g frames).length = frames.length := by
  induction frames with
  | nil => rfl
  | cons frame outer ih =>
    rw [changeCall]
    split
    · rfl
    · rw [List.length_cons, ih, List.length_cons]

theorem Covers.of_grows (covers : s.Covers k d e) (grown : s.Grows s') : s'.Covers k d e := by
  have calls : s'.functionDepth = s.functionDepth := grown.calls
  rw [Covers, calls]
  exact ⟨covers.1, fun here => (covers.2 here).of_grows grown.current⟩

/-! What a name means. -/

theorem names_pad (k d e : Nat) (s : Scope α β) :
    (s.pad k d e).root.objs.names = s.root.objs.names ∧
      (s.pad k d e).root.structs.names = s.root.structs.names := by
  rw [pad]
  dsimp only
  split
  · exact ⟨Levels.names_pad d _, Levels.names_pad e _⟩
  · exact ⟨rfl, rfl⟩

theorem get?_pad_root (k d e : Nat) (s : Scope α β) (name : String) :
    (s.pad k d e).root.objs.get? name = s.root.objs.get? name ∧
      (s.pad k d e).root.structs.get? name = s.root.structs.get? name := by
  rw [pad]
  dsimp only
  split
  · exact ⟨Levels.get?_pad d _ name, Levels.get?_pad e _ name⟩
  · exact ⟨rfl, rfl⟩

theorem frames_pad_cons (k d e : Nat) (root frame : Frame α β) (outer : List (Frame α β)) :
    (pad k d e ⟨root, frame :: outer⟩).frames =
      if outer.length + 1 = k then frame.pad d e :: outer else frame :: changeCall k (Frame.pad d e) outer :=
  rfl

theorem lookups_pad (k d e : Nat) (s : Scope α β) (name : String) :
    (s.pad k d e).getObj? name = s.getObj? name ∧ (s.pad k d e).getStruct? name = s.getStruct? name := by
  have root := get?_pad_root k d e s name
  rcases s with ⟨r, _ | ⟨frame, outer⟩⟩
  · exact root
  · rw [getObj?, getStruct?, root.1, root.2, frames_pad_cons]
    by_cases here : outer.length + 1 = k
    · rw [if_pos here]
      constructor
      · exact congrArg (Option.or · (r.objs.get? name)) (Levels.get?_pad d frame.objs name)
      · exact congrArg (Option.or · (r.structs.get? name)) (Levels.get?_pad e frame.structs name)
    · rw [if_neg here]
      exact ⟨rfl, rfl⟩

theorem functionDepth_pad (k d e : Nat) (s : Scope α β) : (s.pad k d e).functionDepth = s.functionDepth :=
  length_changeCall k s.frames

theorem current_pad (k d e : Nat) (s : Scope α β) :
    (s.pad k d e).current = if s.functionDepth = k then s.current.pad d e else s.current := by
  rcases s with ⟨root, _ | ⟨frame, outer⟩⟩
  · by_cases here : 0 = k
    · exact (if_pos here.symm).trans (if_pos here).symm
    · exact (if_neg (Ne.symm here)).trans (if_neg here).symm
  · have frames := frames_pad_cons k d e root frame outer
    have calls : functionDepth (Scope.mk root (frame :: outer)) = outer.length + 1 := rfl
    rw [current, frames, calls]
    split
    · rfl
    · rfl

theorem le_blockDepth_pad (k d e : Nat) (s : Scope α β) : s.blockDepth ≤ (s.pad k d e).blockDepth := by
  rw [blockDepth, blockDepth, current_pad]
  split
  · exact Levels.le_depth_pad d s.current.objs
  · exact Nat.le_refl _

/-! Calls, blocks and bindings. -/

/-- A change of the current frame and the level that is put in do not get in each other's way, if they do
not in that frame. -/
theorem modifyCurrent_pad
    (commutes : s.functionDepth = k → g (s.current.pad d e) = (g s.current).pad d e) :
    (s.pad k d e).modifyCurrent g = (s.modifyCurrent g).pad k d e := by
  rcases s with ⟨root, _ | ⟨frame, outer⟩⟩
  · by_cases here : k = 0
    · have same : g (root.pad d e) = (g root).pad d e := commutes here.symm
      simp only [modifyCurrent, pad, changeCall, if_pos here, same]
    · simp only [modifyCurrent, pad, changeCall, if_neg here]
  · by_cases here : outer.length + 1 = k
    · have same : g (frame.pad d e) = (g frame).pad d e := commutes here
      simp only [modifyCurrent, pad, changeCall, if_pos here, same]
    · simp only [modifyCurrent, pad, changeCall, if_neg here]

theorem setObj_pad (covers : s.Covers k d e) (name : String) (a : α) :
    (s.pad k d e).setObj name a = (s.setObj name a).pad k d e :=
  modifyCurrent_pad fun here => congrArg (Frame.mk · _) (Levels.set_pad (covers.2 here).1 name a)

theorem declareObj_pad (covers : s.Covers k d e) (name : String) (a : α) :
    (s.pad k d e).declareObj name a = (s.declareObj name a).pad k d e :=
  modifyCurrent_pad fun here => congrArg (Frame.mk · _) (Levels.declare_pad (covers.2 here).1 name a)

theorem setStruct_pad (covers : s.Covers k d e) (name : String) (b : β) :
    (s.pad k d e).setStruct name b = (s.setStruct name b).pad k d e :=
  modifyCurrent_pad fun here => congrArg (Frame.mk _) (Levels.set_pad (covers.2 here).2 name b)

theorem pushBlock_pad
    (outside : s.functionDepth = k → d ≤ s.current.objs.depth ∧ e ≤ s.current.structs.depth) :
    (s.pad k d e).pushBlock = s.pushBlock.pad k d e :=
  modifyCurrent_pad fun here =>
    congrArg₂ Frame.mk (Levels.push_pad (outside here).1) (Levels.push_pad (outside here).2)

theorem dropBlock_pad (covers : s.Covers k d e) :
    (s.pad k d e).dropBlock = s.dropBlock.pad k d e :=
  modifyCurrent_pad fun here =>
    congrArg₂ Frame.mk (Levels.pop_pad (covers.2 here).1) (Levels.pop_pad (covers.2 here).2)

theorem addFrame_pad (covers : s.Covers k d e) (names : OrderedMap String α) :
    (s.pad k d e).addFrame names = (s.addFrame names).pad k d e := by
  have outside : ¬ s.frames.length + 1 = k := Nat.ne_of_gt (Nat.lt_succ_of_le covers.1)
  simp only [addFrame, pad, changeCall, if_neg outside]

theorem dropFrame_pad (inside : k < s.functionDepth) :
    (s.pad k d e).dropFrame = s.dropFrame.pad k d e := by
  rcases s with ⟨root, _ | ⟨frame, outer⟩⟩
  · cases inside
  · have other : ¬ outer.length + 1 = k := Nat.ne_of_gt inside
    simp only [dropFrame, pad, changeCall, if_neg other, List.tail_cons]

theorem covers_pushBlock (covers : s.Covers k d e) : s.pushBlock.Covers k d e := by
  rcases s with ⟨root, _ | ⟨frame, outer⟩⟩
  · exact ⟨covers.1, fun here => (covers.2 here).pushBlock⟩
  · exact ⟨covers.1, fun here => (covers.2 here).pushBlock⟩

theorem Covers.outside (covers : s.Covers k d e) (here : s.functionDepth = k) :
    d ≤ s.current.objs.depth ∧ e ≤ s.current.structs.depth :=
  ⟨(covers.2 here).1.le, (covers.2 here).2.le⟩

theorem covers_addFrame (covers : s.Covers k d e) (names : OrderedMap String α) :
    k < (s.addFrame names).functionDepth ∧ (s.addFrame names).Covers k d e := by
  have inside : k < (s.addFrame names).functionDepth := Nat.lt_succ_of_le covers.1
  exact ⟨inside, inside.le, fun here => absurd here (Nat.ne_of_gt inside)⟩

/-! The level that is put in may be that of a block which has just been opened. -/

theorem pad_innermost (s : Scope α β) :
    s.pad s.functionDepth s.current.objs.depth s.current.structs.depth = s.pushBlock := by
  rcases s with ⟨root, _ | ⟨frame, outer⟩⟩
  · exact congrArg (Scope.mk · []) (Frame.pad_innermost root)
  · simp only [pad, changeCall, functionDepth, List.length_cons, if_true]
    exact congrArg (fun frame => Scope.mk root (frame :: outer)) (Frame.pad_innermost frame)

theorem dropBlock_pushBlock (s : Scope α β) : s.pushBlock.dropBlock = s := by
  rcases s with ⟨root, _ | ⟨frame, outer⟩⟩ <;> rfl

theorem pushBlock_pushBlock (s : Scope α β) :
    s.pushBlock.pushBlock = s.pushBlock.pad s.functionDepth s.current.objs.depth s.current.structs.depth := by
  rw [← pushBlock_pad fun _ => ⟨Nat.le_refl _, Nat.le_refl _⟩, pad_innermost]

theorem covers_innermost (s : Scope α β) :
    s.pushBlock.Covers s.functionDepth s.current.objs.depth s.current.structs.depth := by
  rcases s with ⟨root, _ | ⟨frame, outer⟩⟩
  · exact ⟨Nat.le_refl _, fun _ => ⟨Nat.lt_succ_self _, Nat.lt_succ_self _⟩⟩
  · exact ⟨Nat.le_refl _, fun _ => ⟨Nat.lt_succ_self _, Nat.lt_succ_self _⟩⟩

/-- When a block has been opened, and an empty one outside of it, closing the inner one leaves the empty one. -/
theorem Grows.dropBlock_pad (grown : s.pushBlock.Grows s') :
    (s'.pad s.functionDepth s.current.objs.depth s.current.structs.depth).dropBlock =
      s'.dropBlock.pushBlock := by
  have covers := s.covers_innermost.of_grows grown
  have closed : s.Grows s'.dropBlock := .of_eq grown.dropBlock.2
  have calls : s'.dropBlock.functionDepth = s.functionDepth := closed.calls
  have objs := closed.current.1.depth_eq
  have structs := closed.current.2.depth_eq
  rw [Scope.dropBlock_pad covers, ← calls, ← objs, ← structs, pad_innermost]

end Scope

end Shiba

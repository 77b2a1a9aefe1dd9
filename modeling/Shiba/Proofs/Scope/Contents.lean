import Mathlib.Algebra.Order.Group.Multiset
import Mathlib.Data.Multiset.Bind
import Mathlib.Data.List.Flatten
import Shiba.Registry

/-!
# What maps and scopes hold

The values of an ordered map, of a stack of levels, of a frame and of a whole scope, listed slot by
slot: a value that stands in two slots is listed twice.  The statements say where a lookup finds
its answer and what binding a name can do to the list: it puts in the new value and takes out at
most the one that was there.

* `Levels.mem_values_of_get?`: what a name means is one of the values listed.
* `Levels.values_set_le`, `Levels.values_declare_le`: binding adds one slot at most.
* `Scope.objs`, `Scope.structs`: the two name spaces of a scope, every level of every frame.
-/

namespace Shiba

/-! ## Ordered maps -/

namespace OrderedMap

variable {α β : Type} [DecidableEq α]

theorem mem_entries_of_findEntry {a : α} {b : β} {entries : List (α × β)}
    (found : findEntry a entries = some b) : (a, b) ∈ entries := by
  induction entries with
  | nil => cases found
  | cons entry entries ih =>
    rcases entry with ⟨key, value⟩
    rw [findEntry] at found
    split at found
    · next same =>
      cases found
      rw [same]
      exact List.mem_cons_self
    · exact List.mem_cons_of_mem _ (ih found)

theorem mem_entries_of_get? {m : OrderedMap α β} {a : α} {b : β} (found : m.get? a = some b) :
    (a, b) ∈ m.entries :=
  mem_entries_of_findEntry found

theorem mem_values_of_get? {m : OrderedMap α β} {a : α} {b : β} (found : m.get? a = some b) :
    b ∈ m.values :=
  List.mem_map_of_mem (mem_entries_of_get? found)

theorem mem_keys_of_get? {m : OrderedMap α β} {a : α} {b : β} (found : m.get? a = some b) :
    a ∈ m.keys :=
  List.mem_map_of_mem (mem_entries_of_get? found)

theorem exists_findEntry {a : α} {entries : List (α × β)} (bound : a ∈ entries.map (·.1)) :
    ∃ b, findEntry a entries = some b := by
  induction entries with
  | nil => cases bound
  | cons entry entries ih =>
    rcases entry with ⟨key, value⟩
    rw [findEntry]
    split
    · exact ⟨value, rfl⟩
    · next other =>
      rcases List.mem_cons.1 bound with same | later
      · exact absurd same.symm other
      · exact ih later

/-- Every key has a value. -/
theorem exists_get?_of_mem_keys {m : OrderedMap α β} {a : α} (bound : a ∈ m.keys) :
    ∃ b, m.get? a = some b :=
  exists_findEntry bound

theorem contains_eq_true_iff {m : OrderedMap α β} {a : α} :
    m.contains a = true ↔ a ∈ m.keys := by
  constructor
  · intro bound
    obtain ⟨b, found⟩ := Option.isSome_iff_exists.1 bound
    exact mem_keys_of_get? found
  · intro bound
    obtain ⟨b, found⟩ := exists_get?_of_mem_keys bound
    exact Option.isSome_iff_exists.2 ⟨b, found⟩

theorem values_insertEntry_subperm (a : α) (b : β) (entries : List (α × β)) :
    ((insertEntry a b entries).map (·.2)).Subperm (b :: entries.map (·.2)) := by
  induction entries with
  | nil => exact List.Subperm.refl _
  | cons entry entries ih =>
    rcases entry with ⟨key, value⟩
    rw [insertEntry]
    split
    · exact (List.subperm_cons b).2 (List.sublist_cons_self value _).subperm
    · exact ((List.subperm_cons value).2 ih).trans (List.Perm.swap b value _).subperm

/-- Binding a key puts in the new value and takes out the one that was there. -/
theorem values_insert_le (m : OrderedMap α β) (a : α) (b : β) :
    ((m.insert a b).values : Multiset β) ≤ b ::ₘ (m.values : Multiset β) :=
  Multiset.coe_le.2 (values_insertEntry_subperm a b m.entries)

theorem values_erase_le (m : OrderedMap α β) (a : α) :
    ((m.erase a).values : Multiset β) ≤ (m.values : Multiset β) :=
  Multiset.coe_le.2 (List.filter_sublist.map _).subperm

theorem mem_values_insert {m : OrderedMap α β} {a : α} {b c : β}
    (member : c ∈ (m.insert a b).values) : c = b ∨ c ∈ m.values := by
  have listed := Multiset.mem_of_le (values_insert_le m a b) (Multiset.mem_coe.2 member)
  rcases Multiset.mem_cons.1 listed with same | old
  · exact .inl same
  · exact .inr (Multiset.mem_coe.1 old)

omit [DecidableEq α] in
@[simp] theorem values_empty : (empty : OrderedMap α β).values = [] := rfl

omit [DecidableEq α] in
@[simp] theorem keys_empty : (empty : OrderedMap α β).keys = [] := rfl

theorem insertEntry_of_notMem {a : α} {b : β} {entries : List (α × β)}
    (fresh : a ∉ entries.map (·.1)) : insertEntry a b entries = entries ++ [(a, b)] := by
  induction entries with
  | nil => rfl
  | cons entry entries ih =>
    rcases entry with ⟨key, value⟩
    have other : key ≠ a := fun same => fresh (List.mem_cons.2 (.inl same.symm))
    have later : a ∉ entries.map (·.1) := fun member => fresh (List.mem_cons_of_mem _ member)
    rw [insertEntry, if_neg other, ih later, List.cons_append]

omit [DecidableEq α] in
/-- Where keys are different, an entry has another key than those before it. -/
theorem notMem_of_nodup {before entries : List (α × β)} {entry : α × β}
    (distinct : ((before ++ entry :: entries).map (·.1)).Nodup) : entry.1 ∉ before.map (·.1) := by
  rw [List.map_append, List.nodup_append] at distinct
  intro member
  exact distinct.2.2 _ member _ (List.mem_map_of_mem List.mem_cons_self) rfl

theorem insertMany_append_of_nodup (entries : List (α × β)) :
    ∀ (before : List (α × β)), ((before ++ entries).map (·.1)).Nodup →
      insertMany ⟨before⟩ entries = (⟨before ++ entries⟩ : OrderedMap α β) := by
  induction entries with
  | nil => intro before _; simp [insertMany]
  | cons entry entries ih =>
    intro before distinct
    have next := ih (before ++ [entry]) (by simpa using distinct)
    have inserted : (⟨before⟩ : OrderedMap α β).insert entry.1 entry.2 = ⟨before ++ [entry]⟩ := by
      rw [insert, insertEntry_of_notMem (notMem_of_nodup distinct)]
    rw [insertMany, List.foldl_cons, inserted]
    rw [insertMany] at next
    rw [next, List.append_assoc, List.singleton_append]

/-- Entries with different keys are kept as they are listed. -/
theorem ofList_of_nodup {entries : List (α × β)} (distinct : (entries.map (·.1)).Nodup) :
    ofList entries = ⟨entries⟩ :=
  insertMany_append_of_nodup entries [] distinct

theorem nodup_keys_insert {m : OrderedMap α β} (distinct : m.keys.Nodup) (a : α) (b : β) :
    (m.insert a b).keys.Nodup := by
  rw [keys_insert]
  split
  · exact distinct
  · next absent =>
    refine List.nodup_append.2 ⟨distinct, List.nodup_singleton a, ?_⟩
    rintro key listed _ isNew rfl
    exact absent (List.mem_singleton.1 isNew ▸ listed)

theorem nodup_keys_ofList (entries : List (α × β)) : (ofList entries).keys.Nodup := by
  suffices general : ∀ m : OrderedMap α β, m.keys.Nodup → (m.insertMany entries).keys.Nodup from
    general empty List.nodup_nil
  induction entries with
  | nil => exact fun m distinct => distinct
  | cons entry entries ih => exact fun m distinct => ih _ (nodup_keys_insert distinct entry.1 entry.2)

theorem mem_values_insertMany {m : OrderedMap α β} {entries : List (α × β)} {b : β}
    (member : b ∈ (m.insertMany entries).values) : b ∈ entries.map (·.2) ∨ b ∈ m.values := by
  induction entries generalizing m with
  | nil => exact .inr member
  | cons entry entries ih =>
    rcases ih (m := m.insert entry.1 entry.2) member with later | earlier
    · exact .inl (List.mem_cons_of_mem _ later)
    · rcases mem_values_insert earlier with rfl | old
      · exact .inl List.mem_cons_self
      · exact .inr old

end OrderedMap

/-! ## Levels -/

namespace Levels

variable {α : Type}

/-- The values of all levels, slot by slot. -/
def values (l : Levels α) : List α := l.toList.flatMap OrderedMap.values

/-- The values of the open blocks and of the body, apart. -/
theorem values_eq (l : Levels α) :
    l.values = l.blocks.flatMap OrderedMap.values ++ l.body.values := by
  simp [values, toList]

@[simp] theorem values_empty : (empty : Levels α).values = [] := rfl

@[simp] theorem values_push (l : Levels α) : l.push.values = l.values := by
  simp [values, toList, push]

theorem values_pop_le (l : Levels α) : (l.pop.values : Multiset α) ≤ (l.values : Multiset α) := by
  rw [values_eq, values_eq, ← Multiset.coe_add, ← Multiset.coe_add]
  apply add_le_add_left
  exact Multiset.coe_le.2 ((List.tail_sublist l.blocks).flatMap _).subperm

theorem mem_flatMap_of_findIn {name : String} {a : α} {levels : List (OrderedMap String α)}
    (found : findIn name levels = some a) : a ∈ levels.flatMap OrderedMap.values := by
  induction levels with
  | nil => cases found
  | cons level outer ih =>
    rw [List.flatMap_cons, List.mem_append]
    rw [findIn] at found
    split at found
    · next b here =>
      cases found
      exact .inl (OrderedMap.mem_values_of_get? here)
    · exact .inr (ih found)

/-- What a name means is the value of one of the slots. -/
theorem mem_values_of_get? {l : Levels α} {name : String} {a : α} (found : l.get? name = some a) :
    a ∈ l.values :=
  mem_flatMap_of_findIn found

theorem get?_of_findIn_none {name : String} {levels : List (OrderedMap String α)}
    (unbound : findIn name levels = none) : ∀ level ∈ levels, level.get? name = none := by
  induction levels with
  | nil => exact nofun
  | cons level levels ih =>
    rw [findIn] at unbound
    split at unbound
    · cases unbound
    · next absent => exact List.forall_mem_cons.2 ⟨absent, ih unbound⟩

theorem get?_declare (l : Levels α) (name name' : String) (a : α) :
    (l.declare name a).get? name' = if name' = name then some a else l.get? name' := by
  rcases l with ⟨body, _ | ⟨inner, outer⟩⟩
  · by_cases same : name' = name <;> simp [declare, get?, toList, findIn, OrderedMap.get?_insert, same]
  · by_cases same : name' = name <;> simp [declare, get?, toList, findIn, OrderedMap.get?_insert, same]

theorem rebindIn_eq_none {name : String} (a : α) {levels : List (OrderedMap String α)}
    (unbound : ∀ level ∈ levels, level.get? name = none) : rebindIn name a levels = none := by
  induction levels with
  | nil => rfl
  | cons level levels ih =>
    obtain ⟨absent, rest⟩ := List.forall_mem_cons.1 unbound
    rw [rebindIn, OrderedMap.contains, absent, ih rest]
    rfl

/-- A name that means nothing yet is bound in the innermost level. -/
theorem set_of_get?_eq_none {l : Levels α} {name : String} (unbound : l.get? name = none) (a : α) :
    l.set name a = l.declare name a := by
  have absent := get?_of_findIn_none unbound
  have inBlocks := rebindIn_eq_none a fun level inside => absent level (List.mem_append_left _ inside)
  have inBody := absent l.body (List.mem_append_right _ List.mem_cons_self)
  rw [set, inBlocks, OrderedMap.contains, inBody]
  rfl

/-- Binding a name in the innermost level adds one slot at most. -/
theorem values_declare_le (l : Levels α) (name : String) (a : α) :
    ((l.declare name a).values : Multiset α) ≤ a ::ₘ (l.values : Multiset α) := by
  rw [declare]
  split
  · next none =>
    have inserted := OrderedMap.values_insert_le l.body name a
    simpa [values_eq, none] using inserted
  · next inner outer open_ =>
    have inserted := OrderedMap.values_insert_le inner name a
    have grown := add_le_add_left inserted (outer.flatMap OrderedMap.values ++ l.body.values : List α)
    simpa [values_eq, open_, Multiset.cons_add] using grown

theorem values_rebindIn_le {name : String} {a : α} {levels rebound : List (OrderedMap String α)}
    (found : rebindIn name a levels = some rebound) :
    (rebound.flatMap OrderedMap.values : Multiset α) ≤
      a ::ₘ (levels.flatMap OrderedMap.values : Multiset α) := by
  induction levels generalizing rebound with
  | nil => cases found
  | cons level outer ih =>
    rw [rebindIn] at found
    split at found
    · cases found
      have inserted := OrderedMap.values_insert_le level name a
      have grown := add_le_add_left inserted (outer.flatMap OrderedMap.values : List α)
      simpa [Multiset.cons_add] using grown
    · obtain ⟨inner, rest, rfl⟩ := Option.map_eq_some_iff.1 found
      have grown := add_le_add_right (ih rest) (level.values : Multiset α)
      rw [Multiset.add_cons] at grown
      simpa only [List.flatMap_cons, ← Multiset.coe_add] using grown

/-- Binding a name where it is bound already, or in the innermost level, adds one slot at most. -/
theorem values_set_le (l : Levels α) (name : String) (a : α) :
    ((l.set name a).values : Multiset α) ≤ a ::ₘ (l.values : Multiset α) := by
  rw [set]
  split
  · next blocks rebound =>
    have grown := add_le_add_left (values_rebindIn_le rebound) (l.body.values : Multiset α)
    simpa [values_eq, Multiset.cons_add] using grown
  · split
    · have grown := add_le_add_right (OrderedMap.values_insert_le l.body name a)
        (l.blocks.flatMap OrderedMap.values : Multiset α)
      rw [Multiset.add_cons] at grown
      simpa only [values_eq, ← Multiset.coe_add] using grown
    · exact values_declare_le l name a

end Levels

/-! ## Scopes -/

namespace Scope

variable {α β : Type}

/-- The objects of all frames, slot by slot. -/
def objs (s : Scope α β) : List α := (s.root :: s.frames).flatMap (·.objs.values)

/-- The structs of all frames, slot by slot. -/
def structs (s : Scope α β) : List β := (s.root :: s.frames).flatMap (·.structs.values)

theorem objs_eq (s : Scope α β) :
    s.objs = s.root.objs.values ++ s.frames.flatMap (·.objs.values) := rfl

theorem structs_eq (s : Scope α β) :
    s.structs = s.root.structs.values ++ s.frames.flatMap (·.structs.values) := rfl

/-- What the name of an object means is one of the objects listed. -/
theorem mem_objs_of_getObj? {s : Scope α β} {name : String} {a : α}
    (found : s.getObj? name = some a) : a ∈ s.objs := by
  rw [objs_eq, List.mem_append]
  rw [getObj?] at found
  split at found
  · exact .inl (Levels.mem_values_of_get? found)
  · next frame outer active =>
    rw [active, List.flatMap_cons, List.mem_append]
    rcases Option.or_eq_some_iff.1 found with here | ⟨-, there⟩
    · exact .inr (.inl (Levels.mem_values_of_get? here))
    · exact .inl (Levels.mem_values_of_get? there)

theorem getObj?_declareObj (s : Scope α β) (name name' : String) (a : α) :
    (s.declareObj name a).getObj? name' = if name' = name then some a else s.getObj? name' := by
  rcases s with ⟨root, _ | ⟨frame, outer⟩⟩
  · exact Levels.get?_declare root.objs name name' a
  · simp only [declareObj, modifyCurrent, getObj?, Levels.get?_declare]
    split <;> rfl

/-- A name that means nothing yet is bound in the innermost level of the current frame. -/
theorem setObj_of_getObj?_eq_none {s : Scope α β} {name : String} (unbound : s.getObj? name = none)
    (a : α) : s.setObj name a = s.declareObj name a := by
  rcases s with ⟨root, _ | ⟨frame, outer⟩⟩
  · simp only [setObj, declareObj, modifyCurrent, Levels.set_of_get?_eq_none unbound]
  · have inFrame := (Option.or_eq_none_iff.1 unbound).1
    simp only [setObj, declareObj, modifyCurrent, Levels.set_of_get?_eq_none inFrame]

/-- Binding an object leaves what the names of structs mean. -/
theorem getStruct?_setObj (s : Scope α β) (name name' : String) (a : α) :
    (s.setObj name a).getStruct? name' = s.getStruct? name' := by
  rcases s with ⟨root, _ | ⟨frame, outer⟩⟩ <;> rfl

/-- What means nothing in a scope means nothing at its top level. -/
theorem root_of_getObj?_eq_none {s : Scope α β} {name : String} (unbound : s.getObj? name = none) :
    s.root.objs.get? name = none := by
  rw [getObj?] at unbound
  split at unbound
  · exact unbound
  · exact (Option.or_eq_none_iff.1 unbound).2

theorem root_of_getStruct?_eq_none {s : Scope α β} {name : String} (unbound : s.getStruct? name = none) :
    s.root.structs.get? name = none := by
  rw [getStruct?] at unbound
  split at unbound
  · exact unbound
  · exact (Option.or_eq_none_iff.1 unbound).2

/-- What the name of a struct means is one of the structs listed. -/
theorem mem_structs_of_getStruct? {s : Scope α β} {name : String} {b : β}
    (found : s.getStruct? name = some b) : b ∈ s.structs := by
  rw [structs_eq, List.mem_append]
  rw [getStruct?] at found
  split at found
  · exact .inl (Levels.mem_values_of_get? found)
  · next frame outer active =>
    rw [active, List.flatMap_cons, List.mem_append]
    rcases Option.or_eq_some_iff.1 found with here | ⟨-, there⟩
    · exact .inr (.inl (Levels.mem_values_of_get? here))
    · exact .inl (Levels.mem_values_of_get? there)

/-- Changing the current frame adds to a scope what it adds to the frame. -/
theorem flatMap_modifyCurrent_le {γ : Type} (g : Frame α β → List γ) (s : Scope α β)
    (f : Frame α β → Frame α β) (added : Multiset γ)
    (grown : (g (f s.current) : Multiset γ) ≤ added + (g s.current : Multiset γ)) :
    (((s.modifyCurrent f).root :: (s.modifyCurrent f).frames).flatMap g : Multiset γ) ≤
      added + ((s.root :: s.frames).flatMap g : Multiset γ) := by
  rcases s with ⟨root, - | ⟨frame, outer⟩⟩
  · simpa only [modifyCurrent, current, List.headD_nil, List.flatMap_cons, List.flatMap_nil,
      List.append_nil] using grown
  · have more := add_le_add_right grown (g root : Multiset γ)
    have whole := add_le_add_left more (outer.flatMap g : Multiset γ)
    simp only [modifyCurrent, current, List.headD_cons, List.flatMap_cons, ← Multiset.coe_add]
      at whole ⊢
    calc (g root : Multiset γ) + ((g (f frame) : Multiset γ) + (outer.flatMap g : Multiset γ))
        = (g root : Multiset γ) + (g (f frame) : Multiset γ) + (outer.flatMap g : Multiset γ) :=
          (add_assoc _ _ _).symm
      _ ≤ (g root : Multiset γ) + (added + (g frame : Multiset γ)) +
            (outer.flatMap g : Multiset γ) := whole
      _ = added + ((g root : Multiset γ) + ((g frame : Multiset γ) +
            (outer.flatMap g : Multiset γ))) := by
          rw [add_left_comm, add_assoc, add_assoc]

/-- Changing the current frame leaves a list of values that it leaves of the frame. -/
theorem flatMap_modifyCurrent_eq {γ : Type} (g : Frame α β → List γ) (s : Scope α β)
    (f : Frame α β → Frame α β) (same : ∀ frame, g (f frame) = g frame) :
    ((s.modifyCurrent f).root :: (s.modifyCurrent f).frames).flatMap g =
      (s.root :: s.frames).flatMap g := by
  rcases s with ⟨root, - | ⟨frame, outer⟩⟩
  · simp only [modifyCurrent, List.flatMap_cons, same]
  · simp only [modifyCurrent, List.flatMap_cons, same]

theorem objs_setObj_le (s : Scope α β) (name : String) (a : α) :
    ((s.setObj name a).objs : Multiset α) ≤ a ::ₘ (s.objs : Multiset α) := by
  rw [← Multiset.singleton_add]
  apply flatMap_modifyCurrent_le
  rw [Multiset.singleton_add]
  exact Levels.values_set_le _ name a

theorem objs_declareObj_le (s : Scope α β) (name : String) (a : α) :
    ((s.declareObj name a).objs : Multiset α) ≤ a ::ₘ (s.objs : Multiset α) := by
  rw [← Multiset.singleton_add]
  apply flatMap_modifyCurrent_le
  rw [Multiset.singleton_add]
  exact Levels.values_declare_le _ name a

theorem structs_setStruct_le (s : Scope α β) (name : String) (b : β) :
    ((s.setStruct name b).structs : Multiset β) ≤ b ::ₘ (s.structs : Multiset β) := by
  rw [← Multiset.singleton_add]
  apply flatMap_modifyCurrent_le
  rw [Multiset.singleton_add]
  exact Levels.values_set_le _ name b

@[simp] theorem structs_setObj (s : Scope α β) (name : String) (a : α) :
    (s.setObj name a).structs = s.structs :=
  flatMap_modifyCurrent_eq _ s _ fun _ => rfl

@[simp] theorem structs_declareObj (s : Scope α β) (name : String) (a : α) :
    (s.declareObj name a).structs = s.structs :=
  flatMap_modifyCurrent_eq _ s _ fun _ => rfl

@[simp] theorem objs_setStruct (s : Scope α β) (name : String) (b : β) :
    (s.setStruct name b).objs = s.objs :=
  flatMap_modifyCurrent_eq _ s _ fun _ => rfl

@[simp] theorem objs_pushBlock (s : Scope α β) : s.pushBlock.objs = s.objs :=
  flatMap_modifyCurrent_eq _ s _ fun frame => frame.objs.values_push

@[simp] theorem structs_pushBlock (s : Scope α β) : s.pushBlock.structs = s.structs :=
  flatMap_modifyCurrent_eq _ s _ fun frame => frame.structs.values_push

/-- No call and no block is open in a scope. -/
def Closed (s : Scope α β) : Prop :=
  s.frames = [] ∧ s.root.objs.blocks = [] ∧ s.root.structs.blocks = []

/-- Binding an object at the top level of a scope opens nothing. -/
theorem Closed.setObj {s : Scope α β} (closed : s.Closed) (name : String) (a : α) :
    (s.setObj name a).Closed := by
  rcases s with ⟨⟨⟨objs, objBlocks⟩, ⟨structs, structBlocks⟩⟩, frames⟩
  rcases closed with ⟨rfl, rfl, rfl⟩
  refine ⟨rfl, ?_, rfl⟩
  simp only [Scope.setObj, modifyCurrent, Levels.set, Levels.rebindIn, Levels.declare]
  split
  · rfl
  · rfl

/-- Objects bound one after another at the top level of a scope. -/
theorem foldl_setObj (entries : List (String × α)) : ∀ {s : Scope α β}, s.Closed → s.structs = [] →
    (entries.foldl (fun s e => s.setObj e.1 e.2) s).Closed ∧
      (entries.foldl (fun s e => s.setObj e.1 e.2) s).structs = [] ∧
      ((entries.foldl (fun s e => s.setObj e.1 e.2) s).objs : Multiset α) ≤
        (entries.map (·.2) : Multiset α) + (s.objs : Multiset α) := by
  induction entries with
  | nil =>
    intro s closed none
    exact ⟨closed, none, Multiset.le_add_left _ _⟩
  | cons entry entries ih =>
    intro s closed none
    obtain ⟨closed', none', fewer⟩ :=
      ih (closed.setObj entry.1 entry.2) (by rw [structs_setObj]; exact none)
    refine ⟨closed', none', fewer.trans ?_⟩
    have grown := add_le_add_right (objs_setObj_le s entry.1 entry.2)
      (entries.map (·.2) : Multiset α)
    rw [Multiset.add_cons] at grown
    rw [List.map_cons, ← Multiset.cons_coe, Multiset.cons_add]
    exact grown

/-- The scope with the innermost block of its current frame closed. -/
def dropBlock (s : Scope α β) : Scope α β :=
  s.modifyCurrent fun f => ⟨f.objs.pop, f.structs.pop⟩

/-- The scope with its innermost call ended. -/
def dropFrame (s : Scope α β) : Scope α β := { s with frames := s.frames.tail }

/-- The scope with a new call, some names being bound in its body. -/
def addFrame (s : Scope α β) (names : OrderedMap String α) : Scope α β :=
  { s with frames := ⟨⟨names, []⟩, .empty⟩ :: s.frames }

theorem objs_dropBlock_le (s : Scope α β) :
    (s.dropBlock.objs : Multiset α) ≤ (s.objs : Multiset α) := by
  rw [← zero_add (s.objs : Multiset α)]
  apply flatMap_modifyCurrent_le
  rw [zero_add]
  exact Levels.values_pop_le _

theorem structs_dropBlock_le (s : Scope α β) :
    (s.dropBlock.structs : Multiset β) ≤ (s.structs : Multiset β) := by
  rw [← zero_add (s.structs : Multiset β)]
  apply flatMap_modifyCurrent_le
  rw [zero_add]
  exact Levels.values_pop_le _

theorem objs_dropFrame_le (s : Scope α β) :
    (s.dropFrame.objs : Multiset α) ≤ (s.objs : Multiset α) :=
  Multiset.coe_le.2 (((List.tail_sublist s.frames).cons_cons s.root).flatMap _).subperm

theorem structs_dropFrame_le (s : Scope α β) :
    (s.dropFrame.structs : Multiset β) ≤ (s.structs : Multiset β) :=
  Multiset.coe_le.2 (((List.tail_sublist s.frames).cons_cons s.root).flatMap _).subperm

theorem mem_objs_addFrame {s : Scope α β} {names : OrderedMap String α} {a : α}
    (listed : a ∈ (s.addFrame names).objs) : a ∈ names.values ∨ a ∈ s.objs := by
  simp only [addFrame, objs_eq, List.flatMap_cons, List.mem_append] at listed ⊢
  rcases listed with root | here | outer
  · exact .inr (.inl root)
  · exact .inl (by simpa [Levels.values, Levels.toList] using here)
  · exact .inr (.inr outer)

@[simp] theorem structs_addFrame (s : Scope α β) (names : OrderedMap String α) :
    (s.addFrame names).structs = s.structs := by
  simp [addFrame, structs_eq]

end Scope

end Shiba

import Shiba.Proofs.Heap.Copy
import Shiba.Proofs.State.Operation

/-!
# Zones of the heap

What a program can lay hands on is kept apart from what it cannot.  Every box, list, dictionary and
instance lies in a zone, and nothing of one zone is part of something of another, but for the keys of
dictionaries: a dictionary keeps deep copies of its keys, in a zone of their own that no evaluation
leads into.

* `Zone.live` is what the program works with, `Zone.kept` what dictionaries keep of their keys, and
  `Zone.old` what was there before and is out of reach.
* `Policy`: which names may be looked up, in which modules, and what part of a scope counts as within
  reach.  A policy that is `full` leaves out nothing; under others there are no functions to call, no
  methods and no modules within reach.
* `Guarded`: a state with its zones, in which all this holds.  Dictionaries file their entries under what
  their keys are filed under.
* `Guarded.Later`: a later state, in which things have stayed in their zones, and nothing has changed
  outside the live one.
* `Guarded.advance` builds a later state from what is new in it.
-/

namespace Shiba

/-! ## Zones -/

/-- The zones of the heap. -/
inductive Zone where
  | live
  | kept
  | old
deriving DecidableEq

/-- The zone in which the dictionaries of a zone have their keys. -/
def Zone.inner : Zone → Zone
  | .live => .kept
  | .kept => .kept
  | .old => .old

theorem Zone.live_ne_old : Zone.live ≠ .old := by decide

theorem Zone.kept_ne_old : Zone.kept ≠ .old := by decide

theorem Zone.kept_ne_live : Zone.kept ≠ .live := by decide

theorem Zone.old_ne_live : Zone.old ≠ .live := by decide

theorem Zone.inner_ne_live (z : Zone) : z.inner ≠ .live := by cases z <;> decide

theorem Zone.inner_of_ne_old {z : Zone} (other : z ≠ .old) : z.inner = .kept := by
  cases z with
  | live | kept => rfl
  | old => exact absurd rfl other

theorem Zone.inner_of_ne_live {z : Zone} (other : z ≠ .live) : z.inner = z := by
  cases z with
  | live => exact absurd rfl other
  | kept | old => rfl

/-- Where everything lies. -/
structure Zoning where
  box : BoxId → Zone
  list : ListId → Zone
  dict : DictId → Zone
  inst : InstanceId → Zone

/-- A value may stand in a zone.  Outside the old one, functions and modules stand only where they are
within reach, and a method only with a live receiver. -/
def Zoning.Fits (Z : Zoning) (full : Prop) (z : Zone) : Value → Prop
  | .list l => Z.list l = z
  | .dict d => Z.dict d = z
  | .struct i => Z.inst i = z
  | .function _ => z = .old ∨ full
  | .module _ _ => z = .old ∨ full
  | .method _ i => z = .old ∨ full ∧ Z.inst i = .live
  | _ => True

/-- Everything is old. -/
def Zoning.allOld : Zoning := ⟨fun _ => .old, fun _ => .old, fun _ => .old, fun _ => .old⟩

theorem Zoning.fits_allOld (full : Prop) (v : Value) : allOld.Fits full .old v := by
  cases v with
  | function | module | method => exact Or.inl rfl
  | list | dict | struct => rfl
  | nil | bool | int | float | str | builtin | structDef => trivial

/-! ## Policies -/

/-- What is within reach. -/
structure Policy where
  /-- How the machine is set up. -/
  config : Config
  /-- Whether nothing is left out. -/
  full : Prop
  /-- The names that may be looked up. -/
  names : String → Prop
  /-- The modules in which they may be looked up. -/
  modules : ModuleId → Prop
  /-- The boxes of a scope that are within reach. -/
  part : Scope BoxId StructId → Set BoxId
  objs : ∀ {s b}, b ∈ part s → b ∈ s.objs
  lookup : ∀ {s name b}, names name → s.getObj? name = some b → b ∈ part s
  setObj : ∀ {s name b c}, c ∈ part (s.setObj name b) → c = b ∨ c ∈ part s
  declareObj : ∀ {s name b c}, c ∈ part (s.declareObj name b) → c = b ∨ c ∈ part s
  setStruct : ∀ {s name d c}, c ∈ part (s.setStruct name d) → c ∈ part s
  pushBlock : ∀ {s c}, c ∈ part s.pushBlock → c ∈ part s
  dropBlock : ∀ {s c}, c ∈ part s.dropBlock → c ∈ part s
  whole : full → (∀ name, names name) ∧ (∀ m, modules m) ∧ ∀ {s b}, b ∈ s.objs → b ∈ part s

/-- How deep keys may be nested. -/
abbrev Policy.limit (P : Policy) : Nat := P.config.dataLimit

/-- What is listed where one value was added is that value, or was listed before. -/
theorem eq_or_mem_of_coe_le {α : Type} {xs ys : List α} {a b : α}
    (le : (ys : Multiset α) ≤ a ::ₘ (xs : Multiset α)) (listed : b ∈ ys) : b = a ∨ b ∈ xs :=
  Multiset.mem_cons.1 (Multiset.mem_of_le le (Multiset.mem_coe.2 listed))

/-! ## Guarded states -/

/-- A state with its zones. -/
structure Guarded (P : Policy) where
  state : State
  zones : Zoning
  wf : state.WellFormed
  /-- What is in a box fits into its zone. -/
  value : ∀ b, state.HasBox b → zones.Fits P.full (zones.box b) (state.heap.value b)
  /-- The elements of a list lie in its zone. -/
  items : ∀ l, ∀ b ∈ state.heap.items l, zones.box b = zones.list l
  /-- The values of a dictionary lie in its zone, and its keys in the one for keys. -/
  entries : ∀ d, ∀ e ∈ (state.heap.dictionary d).values,
    zones.box e.key = (zones.dict d).inner ∧ zones.box e.value = zones.dict d
  /-- The fields of an instance lie in its zone. -/
  fields : ∀ i, ∀ b ∈ (state.heap.instanceAt i).fields.values, zones.box b = zones.inst i
  /-- Entries are filed under what their keys are filed under. -/
  filed : state.heap.Filed P.limit
  /-- The boxes of the functions visible everywhere are old, and hold those functions. -/
  builtins : ∀ b : BoxId, b.index < state.builtins.size →
    zones.box b = .old ∧ ∃ f, state.heap.value b = .builtin f
  /-- The names within reach are bound to live boxes. -/
  scopes : ∀ m, state.HasModule m → P.modules m → ∀ b ∈ P.part (state.registry.module m).scope,
    zones.box b = .live

namespace Guarded

variable {P : Policy} {σ τ υ : Guarded P}

/-- A later state with zones: things stay in their zones, and nothing changes outside the live one. -/
structure Shift (σ : Guarded P) (t : State) (Z : Zoning) : Prop where
  grew : σ.state.Extends t
  box : ∀ b, σ.state.HasBox b → Z.box b = σ.zones.box b
  list : ∀ l, σ.state.HasList l → Z.list l = σ.zones.list l
  dict : ∀ d, σ.state.HasDict d → Z.dict d = σ.zones.dict d
  inst : ∀ i, σ.state.HasInstance i → Z.inst i = σ.zones.inst i
  value : ∀ b, σ.state.HasBox b → σ.zones.box b ≠ .live → t.heap.value b = σ.state.heap.value b
  dictionary : ∀ d, σ.state.HasDict d → σ.zones.dict d ≠ .live →
    t.heap.dictionary d = σ.state.heap.dictionary d

/-- A later guarded state. -/
def Later (σ τ : Guarded P) : Prop := σ.Shift τ.state τ.zones

theorem Later.refl (σ : Guarded P) : σ.Later σ :=
  ⟨.refl _, fun _ _ => rfl, fun _ _ => rfl, fun _ _ => rfl, fun _ _ => rfl, fun _ _ _ => rfl,
    fun _ _ _ => rfl⟩

theorem Later.trans (first : σ.Later τ) (second : τ.Later υ) : σ.Later υ where
  grew := first.grew.trans second.grew
  box b there := (second.box b (there.mono first.grew)).trans (first.box b there)
  list l there := (second.list l (there.mono first.grew)).trans (first.list l there)
  dict d there := (second.dict d (there.mono first.grew)).trans (first.dict d there)
  inst i there := (second.inst i (there.mono first.grew)).trans (first.inst i there)
  value b there other := by
    rw [second.value b (there.mono first.grew) (by rwa [first.box b there]), first.value b there other]
  dictionary d there other := by
    rw [second.dictionary d (there.mono first.grew) (by rwa [first.dict d there]),
      first.dictionary d there other]

/-! ### What lies where -/

/-- A box is there and lies in a zone. -/
def In (σ : Guarded P) (z : Zone) (b : BoxId) : Prop := σ.state.HasBox b ∧ σ.zones.box b = z

/-- A value refers to nothing that is not there, and may stand in a zone. -/
def Fit (σ : Guarded P) (z : Zone) (v : Value) : Prop :=
  σ.state.Valid v ∧ σ.zones.Fits P.full z v

/-- A box that a program can see: a live one, or that of a function visible everywhere. -/
def Seen (σ : Guarded P) (b : BoxId) : Prop :=
  σ.state.HasBox b ∧ (σ.zones.box b = .live ∨ b.index < σ.state.builtins.size)

theorem In.seen {b : BoxId} (live : σ.In .live b) : σ.Seen b := ⟨live.1, .inl live.2⟩

/-- Outside the old zone there are only boxes of the program. -/
theorem In.own {z : Zone} {b : BoxId} (inside : σ.In z b) (other : z ≠ .old) : σ.state.OwnBox b := by
  refine ⟨?_, inside.1⟩
  by_contra builtin
  exact other (inside.2.symm.trans (σ.builtins b (Nat.lt_of_not_le builtin)).1)

theorem fit_value {z : Zone} {b : BoxId} (inside : σ.In z b) : σ.Fit z (σ.state.heap.value b) :=
  ⟨σ.wf.valid_value b, inside.2 ▸ σ.value b inside.1⟩

theorem Seen.fit {b : BoxId} (seen : σ.Seen b) : σ.Fit .live (σ.state.heap.value b) := by
  rcases seen with ⟨there, live | builtin⟩
  · exact fit_value ⟨there, live⟩
  · obtain ⟨f, isBuiltin⟩ := (σ.builtins b builtin).2
    rw [isBuiltin]
    exact ⟨trivial, trivial⟩

theorem Shift.fits {t : State} {Z : Zoning} {z : Zone} {v : Value} (shift : σ.Shift t Z)
    (fit : σ.Fit z v) : Z.Fits P.full z v := by
  rcases fit with ⟨valid, fits⟩
  cases v with
  | list l => exact (shift.list l valid).trans fits
  | dict d => exact (shift.dict d valid).trans fits
  | struct i => exact (shift.inst i valid).trans fits
  | method f i => exact fits.imp_right fun live => ⟨live.1, (shift.inst i valid.2).trans live.2⟩
  | function | module => exact fits
  | nil | bool | int | float | str | builtin | structDef => trivial

theorem Fit.mono {z : Zone} {v : Value} (later : σ.Later τ) (fit : σ.Fit z v) : τ.Fit z v :=
  ⟨fit.1.mono later.grew, later.fits fit⟩

theorem In.mono {z : Zone} {b : BoxId} (later : σ.Later τ) (inside : σ.In z b) : τ.In z b :=
  ⟨inside.1.mono later.grew, (later.box b inside.1).trans inside.2⟩

theorem Seen.mono {b : BoxId} (later : σ.Later τ) (seen : σ.Seen b) : τ.Seen b := by
  refine ⟨seen.1.mono later.grew, ?_⟩
  rw [later.box b seen.1, later.grew.builtins]
  exact seen.2

/-! ### Keys keep what they are filed under -/

/-- All that a value of a zone leads to is kept, unless the zone is the live one. -/
theorem Shift.preserves {t : State} {Z : Zoning} {z : Zone} (shift : σ.Shift t Z) (other : z ≠ .live) :
    Heap.Preserves (σ.Fit z) σ.state.heap t.heap where
  items l fit := by
    refine ⟨State.getD_of_grown shift.grew.lists fit.1, fun b member => ?_⟩
    have inside : σ.In z b :=
      ⟨(σ.wf.own_items l b member).2, (σ.items l b member).trans fit.2⟩
    exact ⟨shift.value b inside.1 (inside.2 ▸ other), fit_value inside⟩
  entries d fit := by
    have zone : σ.zones.dict d = z := fit.2
    refine ⟨shift.dictionary d fit.1 (zone ▸ other), fun e member => ?_⟩
    have ⟨key, value⟩ := σ.entries d e member
    have ⟨ownKey, ownValue⟩ := σ.wf.own_entries d e member
    rw [zone] at key value
    rw [Zone.inner_of_ne_live other] at key
    exact ⟨⟨shift.value e.key ownKey.2 (key ▸ other), fit_value ⟨ownKey.2, key⟩⟩,
      shift.value e.value ownValue.2 (value ▸ other), fit_value ⟨ownValue.2, value⟩⟩
  fields i fit := by
    have shaped := σ.wf.shaped fit.1
    have same := shift.grew.instanceAt_eq fit.1
    refine ⟨same, ?_, fun b member => ?_⟩
    · rw [Heap.structName, Heap.structName, same, shift.grew.structDef_eq shaped.definition]
    · have inside : σ.In z b := ⟨(shaped.boxes b member).2, (σ.fields i b member).trans fit.2⟩
      exact ⟨shift.value b inside.1 (inside.2 ▸ other), fit_value inside⟩
  functions f fit := State.getD_of_grown shift.grew.functions fit.1
  methods f i fit := by
    refine ⟨State.getD_of_grown shift.grew.functions fit.1.1, ?_⟩
    have shaped := σ.wf.shaped fit.1.2
    rw [Heap.structName, Heap.structName, shift.grew.instanceAt_eq fit.1.2,
      shift.grew.structDef_eq shaped.definition]
  structs d fit := shift.grew.structDef_eq fit.1

/-- What is in a box outside the live zone stays filed under what it is filed under. -/
theorem Shift.key_eq {t : State} {Z : Zoning} {b : BoxId} (shift : σ.Shift t Z)
    (there : σ.state.HasBox b) (other : σ.zones.box b ≠ .live) (limit : Nat) :
    t.heap.key limit (t.heap.value b) = σ.state.heap.key limit (σ.state.heap.value b) := by
  rw [shift.value b there other, Heap.key, Heap.key,
    (shift.preserves other).canonical_eq limit (fit_value ⟨there, rfl⟩)]

/-! ### Later states -/

/-- A dictionary lies in its zone as it should, and files its entries as it should. -/
structure Fine (P : Policy) (t : State) (Z : Zoning) (d : DictId) : Prop where
  entries : ∀ e ∈ (t.heap.dictionary d).values,
    Z.box e.key = (Z.dict d).inner ∧ Z.box e.value = Z.dict d
  filed : ∀ e ∈ (t.heap.dictionary d).entries,
    t.heap.key P.limit (t.heap.value e.2.key) = some e.1
  distinct : (t.heap.dictionary d).keys.Nodup

/-- What is new in a later state lies where it should. -/
structure Adds (σ : Guarded P) (t : State) (Z : Zoning) : Prop where
  value : ∀ b, t.heap.value b = σ.state.heap.value b ∨ Z.Fits P.full (Z.box b) (t.heap.value b)
  items : ∀ l, t.heap.items l = σ.state.heap.items l ∨ ∀ b ∈ t.heap.items l, Z.box b = Z.list l
  dictionary : ∀ d, t.heap.dictionary d = σ.state.heap.dictionary d ∨ Fine P t Z d
  fields : ∀ i, t.heap.instanceAt i = σ.state.heap.instanceAt i ∨
      ∀ b ∈ (t.heap.instanceAt i).fields.values, Z.box b = Z.inst i
  scopes : ∀ m, t.HasModule m → P.modules m → ∀ b ∈ P.part (t.registry.module m).scope,
      (σ.state.HasModule m ∧ b ∈ P.part (σ.state.registry.module m).scope) ∨ Z.box b = .live

/-- A dictionary that has not changed is fine. -/
theorem Shift.fine {t : State} {Z : Zoning} {d : DictId} (shift : σ.Shift t Z)
    (same : t.heap.dictionary d = σ.state.heap.dictionary d) : Fine P t Z d := by
  have boxes : ∀ e ∈ (σ.state.heap.dictionary d).entries,
      σ.state.HasDict d ∧ σ.state.HasBox e.2.key ∧ σ.state.HasBox e.2.value := by
    intro e member
    have own := σ.wf.own_entries d e.2 (List.mem_map_of_mem member)
    exact ⟨State.hasDict_of_mem member, own.1.2, own.2.2⟩
  refine ⟨?_, ?_, ?_⟩
  · rw [same]
    intro e member
    obtain ⟨entry, listed, rfl⟩ := List.mem_map.1 member
    obtain ⟨there, key, value⟩ := boxes entry listed
    rw [shift.box _ key, shift.box _ value, shift.dict d there]
    exact σ.entries d entry.2 member
  · rw [same]
    intro e member
    obtain ⟨there, key, -⟩ := boxes e member
    have zone := (σ.entries d e.2 (List.mem_map_of_mem member)).1
    rw [shift.key_eq key (zone ▸ Zone.inner_ne_live _)]
    exact σ.filed.key d e member
  · rw [same]
    exact σ.filed.distinct d

/-- A later state in which what is new lies where it should. -/
def advance (σ : Guarded P) (t : State) (Z : Zoning) (wf : t.WellFormed) (shift : σ.Shift t Z)
    (adds : σ.Adds t Z) : Guarded P where
  state := t
  zones := Z
  wf := wf
  value b there := by
    rcases adds.value b with same | fits
    · by_cases old : σ.state.HasBox b
      · rw [same, shift.box b old]
        exact shift.fits (fit_value ⟨old, rfl⟩)
      · rw [same, Heap.value, Array.getD_eq_getD_getElem?,
          Array.getElem?_eq_none (Nat.le_of_not_lt old)]
        trivial
    · exact fits
  items l b member := by
    rcases adds.items l with same | inside
    · rw [same] at member
      rw [shift.box b (σ.wf.own_items l b member).2, shift.list l (State.hasList_of_mem member)]
      exact σ.items l b member
    · exact inside b member
  entries d := by
    rcases adds.dictionary d with same | fine
    · exact (shift.fine same).entries
    · exact fine.entries
  fields i b member := by
    rcases adds.fields i with same | inside
    · rw [same] at member
      have there := State.hasInstance_of_mem member
      rw [shift.box b ((σ.wf.shaped there).boxes b member).2, shift.inst i there]
      exact σ.fields i b member
    · exact inside b member
  filed := by
    refine ⟨fun d => ?_, fun d => ?_⟩
    · rcases adds.dictionary d with same | fine
      · exact (shift.fine same).filed
      · exact fine.filed
    · rcases adds.dictionary d with same | fine
      · exact (shift.fine same).distinct
      · exact fine.distinct
  builtins b isBuiltin := by
    rw [shift.grew.builtins] at isBuiltin
    have there : σ.state.HasBox b := Nat.lt_of_lt_of_le isBuiltin σ.wf.builtinBoxes
    obtain ⟨isOld, f, holds⟩ := σ.builtins b isBuiltin
    rw [shift.box b there, shift.value b there (isOld ▸ Zone.old_ne_live)]
    exact ⟨isOld, f, holds⟩
  scopes m there within b listed := by
    rcases adds.scopes m there within b listed with ⟨here, old⟩ | live
    · rw [shift.box b (σ.wf.own_obj here (P.objs old)).2]
      exact σ.scopes m here within b old
    · exact live

end Guarded

end Shiba

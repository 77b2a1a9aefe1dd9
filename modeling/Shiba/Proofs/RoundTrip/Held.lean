import Mathlib.Data.List.Forall2
import Mathlib.Order.BooleanAlgebra.Defs
import Shiba.Proofs.RoundTrip.DataText
import Shiba.Value.Equality

/-!
# Trees in the heap

A value stands for a tree when the boxes it leads to hold the parts of the tree.  What a program can
see of such a value is what can be seen of the tree.

* `Heap.Holds h among v x`: in the heap `h`, the value `v` stands for the tree `x`, and the dictionaries
  that are part of it are `among` given ones.  A dictionary files its entries under the canonical forms
  of their keys.
* `Heap.Kept among h h'`: what was in `h` is in `h'` as it was, of the dictionaries those that are
  `among` given ones.  A value with no other dictionaries stands for the same tree then (`Holds.kept`).
* `Holds.canonical`, `Holds.data`, `Holds.equal`: the written form, the tree read off a value, and the
  equality of values depend on the tree alone.
-/

namespace Shiba.Heap

/-! ## Values that stand for trees -/

mutual

/-- In a heap, a value stands for a tree, and its dictionaries are among given ones. -/
def Holds (h : Heap) (among : DictId → Prop) : Value → Data → Prop
  | .bool b, .bool b' => b = b'
  | .int n, .int n' => n = n'
  | .str s, .str s' => s = s'
  | .list l, .list xs => l.index < h.lists.size ∧ HoldsAll h among (h.items l).toList xs
  | .dict d, .dict entries =>
    (among d ∧ d.index < h.dicts.size) ∧
      HoldsEntries h among (h.dictionary d).entries entries
  | _, _ => False

/-- Boxes hold trees, one each. -/
def HoldsAll (h : Heap) (among : DictId → Prop) : List BoxId → List Data → Prop
  | [], [] => True
  | b :: boxes, x :: xs =>
    (b.index < h.boxes.size ∧ Holds h among (h.value b) x) ∧ HoldsAll h among boxes xs
  | _, _ => False

/-- The entries of a dictionary hold keys and values, and are filed under what the keys are filed
under. -/
def HoldsEntries (h : Heap) (among : DictId → Prop) : List (Key × Entry) → List (Data × Data) → Prop
  | [], [] => True
  | (k, e) :: rest, (x, y) :: more =>
    (k = x.key ∧ (e.key.index < h.boxes.size ∧ Holds h among (h.value e.key) x) ∧
      (e.value.index < h.boxes.size ∧ Holds h among (h.value e.value) y)) ∧
      HoldsEntries h among rest more
  | _, _ => False

end

/-- A box holds a tree. -/
def HoldsBox (h : Heap) (among : DictId → Prop) (b : BoxId) (x : Data) : Prop :=
  b.index < h.boxes.size ∧ h.Holds among (h.value b) x

/-- An entry of a dictionary holds a key and a value. -/
def HoldsEntry (h : Heap) (among : DictId → Prop) (e : Key × Entry) (x : Data × Data) : Prop :=
  e.1 = x.1.key ∧ h.HoldsBox among e.2.key x.1 ∧ h.HoldsBox among e.2.value x.2

variable {h h' : Heap} {among among' : DictId → Prop} {n limit : Nat} {v w : Value} {x : Data}

theorem holdsAll_iff {boxes : List BoxId} {xs : List Data} :
    h.HoldsAll among boxes xs ↔ List.Forall₂ (h.HoldsBox among) boxes xs := by
  induction boxes generalizing xs with
  | nil => cases xs <;> simp [HoldsAll]
  | cons b boxes ih => cases xs <;> simp [HoldsAll, HoldsBox, ih]

theorem holdsEntries_iff {entries : List (Key × Entry)} {xs : List (Data × Data)} :
    h.HoldsEntries among entries xs ↔ List.Forall₂ (h.HoldsEntry among) entries xs := by
  induction entries generalizing xs with
  | nil => cases xs <;> simp [HoldsEntries]
  | cons e entries ih => cases xs <;> simp [HoldsEntries, HoldsEntry, HoldsBox, ih]

theorem holds_int {i : Int64} : h.Holds among v (.int i) ↔ v = .int i := by
  cases v <;> simp [Holds]

theorem holds_list {xs : List Data} : h.Holds among v (.list xs) ↔ ∃ l, v = .list l ∧
    l.index < h.lists.size ∧ List.Forall₂ (h.HoldsBox among) (h.items l).toList xs := by
  cases v <;> simp [Holds, holdsAll_iff]

theorem holds_dict {entries : List (Data × Data)} : h.Holds among v (.dict entries) ↔
    ∃ d, v = .dict d ∧ (among d ∧ d.index < h.dicts.size) ∧
      List.Forall₂ (h.HoldsEntry among) (h.dictionary d).entries entries := by
  cases v <;> simp [Holds, holdsEntries_iff]

theorem Holds.kind_eq (holds : h.Holds among v x) : v.kind = x.kind := by
  cases v <;> cases x <;> first | rfl | exact holds.elim

/-! ## Heaps that keep what was there -/

/-- What was in a heap is in a later one as it was, of the dictionaries those among given ones. -/
structure Kept (among : DictId → Prop) (h h' : Heap) : Prop where
  boxes : ∀ b : BoxId, b.index < h.boxes.size → b.index < h'.boxes.size ∧ h'.value b = h.value b
  lists : ∀ l : ListId, l.index < h.lists.size → l.index < h'.lists.size ∧ h'.items l = h.items l
  dicts : ∀ d : DictId, among d → d.index < h.dicts.size →
    d.index < h'.dicts.size ∧ h'.dictionary d = h.dictionary d
  grown : h.dicts.size ≤ h'.dicts.size
  instances : h'.instances = h.instances
  functions : h'.functions = h.functions
  structs : h'.structs = h.structs

theorem Kept.refl (among : DictId → Prop) (h : Heap) : Kept among h h :=
  ⟨fun _ here => ⟨here, rfl⟩, fun _ here => ⟨here, rfl⟩, fun _ _ here => ⟨here, rfl⟩, Nat.le_refl _,
    rfl, rfl, rfl⟩

theorem Kept.trans {h'' : Heap} (first : Kept among h h') (second : Kept among h' h'') :
    Kept among h h'' where
  boxes b here :=
    have ⟨there, same⟩ := first.boxes b here
    have ⟨there', same'⟩ := second.boxes b there
    ⟨there', same'.trans same⟩
  lists l here :=
    have ⟨there, same⟩ := first.lists l here
    have ⟨there', same'⟩ := second.lists l there
    ⟨there', same'.trans same⟩
  dicts d part here :=
    have ⟨there, same⟩ := first.dicts d part here
    have ⟨there', same'⟩ := second.dicts d part there
    ⟨there', same'.trans same⟩
  grown := Nat.le_trans first.grown second.grown
  instances := second.instances.trans first.instances
  functions := second.functions.trans first.functions
  structs := second.structs.trans first.structs

theorem Kept.anti (kept : Kept among' h h') (le : among ≤ among') : Kept among h h' :=
  { kept with dicts := fun d part => kept.dicts d (le d part) }

theorem forall₂_imp_of_mem {α β : Type} {R S : α → β → Prop} {as : List α} {bs : List β}
    (imp : ∀ a, ∀ b ∈ bs, R a b → S a b) (all : List.Forall₂ R as bs) : List.Forall₂ S as bs := by
  induction all with
  | nil => exact .nil
  | cons here _ ih =>
    exact .cons (imp _ _ List.mem_cons_self here)
      (ih fun a b member => imp a b (List.mem_cons_of_mem _ member))

/-- A value stands for the same tree in a later heap. -/
theorem Holds.kept (plain : x.Plain n) (kept : Kept among h h') (le : among ≤ among')
    (holds : h.Holds among v x) : h'.Holds among' v x := by
  have box : ∀ {b : BoxId} {y : Data}, (∀ {v}, h.Holds among v y → h'.Holds among' v y) →
      h.HoldsBox among b y → h'.HoldsBox among' b y := by
    intro b y ih holds
    have ⟨there, same⟩ := kept.boxes b holds.1
    refine ⟨there, ?_⟩
    rw [same]
    exact ih holds.2
  induction plain generalizing v with
  | bool | int | str => cases v <;> exact holds
  | list _ ih =>
    obtain ⟨l, rfl, here, elements⟩ := holds_list.1 holds
    have ⟨there, same⟩ := kept.lists l here
    refine holds_list.2 ⟨l, rfl, there, ?_⟩
    rw [same]
    exact forall₂_imp_of_mem (fun b y member => box (ih y member)) elements
  | dict _ _ _ ihKeys ihValues =>
    obtain ⟨d, rfl, ⟨part, here⟩, entries⟩ := holds_dict.1 holds
    have ⟨there, same⟩ := kept.dicts d part here
    refine holds_dict.2 ⟨d, rfl, ⟨le d part, there⟩, ?_⟩
    rw [same]
    refine forall₂_imp_of_mem (fun e y member entry => ?_) entries
    exact ⟨entry.1, box (ihKeys y member) entry.2.1, box (ihValues y member) entry.2.2⟩

theorem HoldsBox.kept {b : BoxId} (plain : x.Plain n) (kept : Kept among h h') (le : among ≤ among')
    (holds : h.HoldsBox among b x) : h'.HoldsBox among' b x := by
  have ⟨there, same⟩ := kept.boxes b holds.1
  refine ⟨there, ?_⟩
  rw [same]
  exact Holds.kept plain kept le holds.2

theorem HoldsEntry.kept {e : Key × Entry} {y : Data × Data} (plain : y.1.Plain n ∧ y.2.Plain n)
    (kept : Kept among h h') (le : among ≤ among') (holds : h.HoldsEntry among e y) :
    h'.HoldsEntry among' e y :=
  ⟨holds.1, holds.2.1.kept plain.1 kept le, holds.2.2.kept plain.2 kept le⟩

theorem forall₂_holdsEntry_kept {list : List (Key × Entry)} {entries : List (Data × Data)}
    (plain : ∀ e ∈ entries, e.1.Plain n ∧ e.2.Plain n) (kept : Kept among h h') (le : among ≤ among')
    (holds : List.Forall₂ (h.HoldsEntry among) list entries) :
    List.Forall₂ (h'.HoldsEntry among') list entries :=
  forall₂_imp_of_mem (fun _ y member => .kept (plain y member) kept le) holds

section

-- All that was in the heap is kept, whatever dictionaries are part of a value.

variable (kept : Kept ⊤ h h')

include kept

theorem Holds.grown (plain : x.Plain n) (holds : h.Holds among v x) : h'.Holds among v x :=
  holds.kept plain (kept.anti le_top) le_rfl

theorem HoldsBox.grown {b : BoxId} (plain : x.Plain n) (holds : h.HoldsBox among b x) :
    h'.HoldsBox among b x :=
  holds.kept plain (kept.anti le_top) le_rfl

theorem HoldsEntry.grown {e : Key × Entry} {y : Data × Data} (plain : y.1.Plain n ∧ y.2.Plain n)
    (holds : h.HoldsEntry among e y) : h'.HoldsEntry among e y :=
  holds.kept plain (kept.anti le_top) le_rfl

theorem forall₂_holdsEntry_grown {list : List (Key × Entry)} {entries : List (Data × Data)}
    (plain : ∀ e ∈ entries, e.1.Plain n ∧ e.2.Plain n)
    (holds : List.Forall₂ (h.HoldsEntry among) list entries) :
    List.Forall₂ (h'.HoldsEntry among) list entries :=
  forall₂_holdsEntry_kept plain (kept.anti le_top) le_rfl holds

end

theorem Holds.mono (plain : x.Plain n) (le : among ≤ among') (holds : h.Holds among v x) :
    h.Holds among' v x :=
  holds.kept plain (.refl among h) le

theorem HoldsBox.mono {b : BoxId} (plain : x.Plain n) (le : among ≤ among')
    (holds : h.HoldsBox among b x) : h.HoldsBox among' b x :=
  holds.kept plain (.refl among h) le

/-! ## What is seen of a tree -/

theorem mapM_of_forall₂ {α β γ : Type} {R : α → β → Prop} {f : α → Option γ} {g : β → γ}
    {as : List α} {bs : List β} (all : List.Forall₂ R as bs)
    (each : ∀ a, ∀ b ∈ bs, R a b → f a = some (g b)) : as.mapM f = some (bs.map g) := by
  induction all with
  | nil => rfl
  | cons here _ ih =>
    have later := ih fun a b member => each a b (List.mem_cons_of_mem _ member)
    rw [List.mapM_cons, each _ _ List.mem_cons_self here, later]
    rfl

theorem forall₂_values {m : Dictionary} {entries : List (Data × Data)}
    (holds : List.Forall₂ (h.HoldsEntry among) m.entries entries) :
    List.Forall₂ (fun e y => h.HoldsBox among e.key y.1 ∧ h.HoldsBox among e.value y.2) m.values
      entries :=
  List.forall₂_map_left_iff.2 (holds.imp fun _ _ entry => entry.2)

/-- In a dictionary that holds a key, an entry with its value is filed there. -/
theorem get?_of_forall₂ {list : List (Key × Entry)} {entries : List (Data × Data)}
    (holds : List.Forall₂ (h.HoldsEntry among) list entries)
    (distinct : (entries.map (·.1.key)).Nodup) {y : Data × Data} (member : y ∈ entries) :
    ∃ e, OrderedMap.findEntry y.1.key list = some e ∧ h.HoldsBox among e.value y.2 := by
  induction holds with
  | nil => cases member
  | @cons e y' list entries here _ ih =>
    rw [List.map_cons, List.nodup_cons] at distinct
    rcases List.mem_cons.1 member with rfl | later
    · refine ⟨e.2, ?_, here.2.2⟩
      rw [OrderedMap.findEntry, if_pos here.1]
    · obtain ⟨e', found, holds⟩ := ih distinct.2 later
      refine ⟨e', ?_, holds⟩
      rw [OrderedMap.findEntry, if_neg, found]
      intro same
      rw [← here.1, same] at distinct
      exact distinct.1 (List.mem_map_of_mem later)

/-- The written form of a value is that of the tree. -/
theorem Holds.canonical (plain : x.Plain n) (le : n ≤ limit) (holds : h.Holds among v x) :
    h.canonical limit v = some x.text := by
  induction plain generalizing v limit with
  | bool | int | str =>
    obtain ⟨limit, rfl⟩ : ∃ k, limit = k + 1 := ⟨limit - 1, by omega⟩
    cases v <;> first | exact holds.elim | (cases holds; rfl)
  | list _ ih =>
    obtain ⟨limit, rfl⟩ : ∃ k, limit = k + 1 := ⟨limit - 1, by omega⟩
    obtain ⟨l, rfl, -, elements⟩ := holds_list.1 holds
    have parts : (h.items l).toList.mapM (fun b => h.canonical limit (h.value b)) = _ :=
      mapM_of_forall₂ elements fun b y member box => ih y member (Nat.le_of_succ_le_succ le) box.2
    simp only [Heap.canonical, parts, Data.text, Data.texts_eq_map]
    rfl
  | @dict _ trees _ _ _ ihKeys ihValues =>
    obtain ⟨limit, rfl⟩ : ∃ k, limit = k + 1 := ⟨limit - 1, by omega⟩
    obtain ⟨d, rfl, -, entries⟩ := holds_dict.1 holds
    have parts : (h.dictionary d).values.mapM (fun e => do
        let key ← h.canonical limit (h.value e.key)
        let value ← h.canonical limit (h.value e.value)
        return key ++ ": " ++ value) =
        some (trees.map fun y => y.1.text ++ ": " ++ y.2.text) := by
      refine mapM_of_forall₂ (forall₂_values entries) fun e y member boxes => ?_
      rw [ihKeys y member (Nat.le_of_succ_le_succ le) boxes.1.2,
        ihValues y member (Nat.le_of_succ_le_succ le) boxes.2.2]
      rfl
    simp only [Heap.canonical, parts, Data.text, Data.entryTexts_eq_map]
    rfl

/-- The tree read off a value is the one it stands for. -/
theorem Holds.data (plain : x.Plain n) (le : n ≤ limit) (holds : h.Holds among v x) :
    h.data limit v = some x := by
  induction plain generalizing v limit with
  | bool | int | str =>
    obtain ⟨limit, rfl⟩ : ∃ k, limit = k + 1 := ⟨limit - 1, by omega⟩
    cases v <;> first | exact holds.elim | (cases holds; rfl)
  | list _ ih =>
    obtain ⟨limit, rfl⟩ : ∃ k, limit = k + 1 := ⟨limit - 1, by omega⟩
    obtain ⟨l, rfl, -, elements⟩ := holds_list.1 holds
    have parts : (h.items l).toList.mapM (fun b => h.data limit (h.value b)) = _ :=
      mapM_of_forall₂ (g := id) elements fun b y member box =>
        ih y member (Nat.le_of_succ_le_succ le) box.2
    simp only [Heap.data, parts, List.map_id]
    rfl
  | @dict _ trees _ _ _ ihKeys ihValues =>
    obtain ⟨limit, rfl⟩ : ∃ k, limit = k + 1 := ⟨limit - 1, by omega⟩
    obtain ⟨d, rfl, -, entries⟩ := holds_dict.1 holds
    have parts : (h.dictionary d).values.mapM (fun e => do
        let key ← h.data limit (h.value e.key)
        let value ← h.data limit (h.value e.value)
        return (key, value)) = some (trees.map id) := by
      refine mapM_of_forall₂ (g := id) (forall₂_values entries) fun e y member boxes => ?_
      rw [ihKeys y member (Nat.le_of_succ_le_succ le) boxes.1.2,
        ihValues y member (Nat.le_of_succ_le_succ le) boxes.2.2]
      rfl
    simp only [Heap.data, parts, List.map_id]
    rfl

theorem allM_of_forall {α : Type} {p : α → Except Stop Bool} {as : List α}
    (each : ∀ a ∈ as, p a = .ok true) : as.allM p = .ok true := by
  induction as with
  | nil => rfl
  | cons a as ih =>
    have ⟨here, later⟩ := List.forall_mem_cons.1 each
    rw [List.allM, here]
    exact ih later

/-- What two sequences hold at one place is one tree. -/
theorem holds_of_mem_zip {α β : Type} {R S : α → β → Prop} {as as' : List α} {bs : List β}
    (all : List.Forall₂ R as bs) (all' : List.Forall₂ S as' bs) {e : α × α} (member : e ∈ as.zip as') :
    ∃ b ∈ bs, R e.1 b ∧ S e.2 b := by
  induction all generalizing as' with
  | nil => cases member
  | cons here _ ih =>
    rcases all' with _ | ⟨here', later'⟩
    rcases List.mem_cons.1 member with rfl | later
    · exact ⟨_, List.mem_cons_self, here, here'⟩
    · obtain ⟨b, member, both⟩ := ih later' later
      exact ⟨b, List.mem_cons_of_mem _ member, both⟩

theorem exists_of_mem {α β : Type} {R : α → β → Prop} {as : List α} {bs : List β}
    (all : List.Forall₂ R as bs) {a : α} (member : a ∈ as) : ∃ b ∈ bs, R a b := by
  induction all with
  | nil => cases member
  | cons here _ ih =>
    rcases List.mem_cons.1 member with rfl | later
    · exact ⟨_, List.mem_cons_self, here⟩
    · obtain ⟨b, member, holds⟩ := ih later
      exact ⟨b, List.mem_cons_of_mem _ member, holds⟩

/-- Two values that stand for one tree are equal. -/
theorem Holds.equal (plain : x.Plain n) (le : n ≤ limit) (holds : h.Holds among v x)
    (holds' : h.Holds among' w x) : h.equal limit v w = .ok true := by
  induction plain generalizing v w limit with
  | bool | int | str =>
    obtain ⟨limit, rfl⟩ : ∃ k, limit = k + 1 := ⟨limit - 1, by omega⟩
    cases v <;> first | exact holds.elim | skip
    cases w <;> first | exact holds'.elim | skip
    cases holds
    cases holds'
    simp [Heap.equal]
  | list _ ih =>
    obtain ⟨limit, rfl⟩ : ∃ k, limit = k + 1 := ⟨limit - 1, by omega⟩
    obtain ⟨l, rfl, -, elements⟩ := holds_list.1 holds
    obtain ⟨l', rfl, -, elements'⟩ := holds_list.1 holds'
    have sizes := elements.length_eq.trans elements'.length_eq.symm
    simp only [Heap.equal, sizes, ne_eq, not_true_eq_false, if_false]
    refine allM_of_forall fun e member => ?_
    obtain ⟨y, member, box, box'⟩ := holds_of_mem_zip elements elements' member
    exact ih y member (Nat.le_of_succ_le_succ le) box.2 box'.2
  | dict _ _ distinct _ ihValues =>
    obtain ⟨limit, rfl⟩ : ∃ k, limit = k + 1 := ⟨limit - 1, by omega⟩
    obtain ⟨d, rfl, -, entries⟩ := holds_dict.1 holds
    obtain ⟨d', rfl, -, entries'⟩ := holds_dict.1 holds'
    have sizes : (h.dictionary d).size = (h.dictionary d').size :=
      entries.length_eq.trans entries'.length_eq.symm
    simp only [Heap.equal, sizes, ne_eq, not_true_eq_false, if_false]
    refine allM_of_forall fun e member => ?_
    obtain ⟨y, member, entry⟩ := exists_of_mem entries member
    obtain ⟨e', found, box'⟩ := get?_of_forall₂ entries' distinct member
    simp only [OrderedMap.get?, entry.1, found]
    exact ihValues y member (Nat.le_of_succ_le_succ le) entry.2.2.2 box'.2

end Shiba.Heap

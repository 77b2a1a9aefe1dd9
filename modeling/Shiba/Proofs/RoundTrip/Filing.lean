import Shiba.Proofs.Lockstep.Rules
import Shiba.Proofs.RoundTrip.Held

/-!
# Putting trees into the heap

What the operations on the heap do to the trees that values stand for.

* `Gives`: a step comes to an end, and with what.
* `HeapM.gives_clone`: a deep copy stands for the same tree, and has no dictionary in common with what
  was there.
* `HeapM.gives_dictSet`: filing a value under a key puts it in the place of the entry with that key, or
  at the end when there is none (`Data.put`).
* `HeapM.gives_store`: what is built from a tree, its dictionaries being filled entry by entry, stands
  for the tree in which a key that comes again has taken the later value (`Data.filed`).
-/

namespace Shiba

/-! ## Steps that come to an end -/

/-- A step comes to an end, with a result and in a state that are as `Q` tells. -/
def Gives {σ α : Type} (act : ExceptT Stop (StateM σ) α) (s : σ) (Q : α → σ → Prop) : Prop :=
  ∃ a t, act s = (.ok a, t) ∧ Q a t

namespace Gives

variable {σ α β γ : Type} {act : ExceptT Stop (StateM σ) α} {f : α → ExceptT Stop (StateM σ) β}
variable {s : σ} {P Q : α → σ → Prop} {R : β → σ → Prop}

theorem pure {a : α} (here : Q a s) : Gives (Pure.pure a) s Q := ⟨a, s, rfl, here⟩

theorem bind (first : Gives act s P) (rest : ∀ a t, P a t → Gives (f a) t R) :
    Gives (act >>= f) s R := by
  obtain ⟨a, t, run, between⟩ := first
  obtain ⟨b, u, run', after⟩ := rest a t between
  refine ⟨b, u, ?_, after⟩
  change (ExceptT.bindCont f (act s).1 : StateM σ _) (act s).2 = _
  rw [run]
  exact run'

theorem mono (gives : Gives act s P) (weaker : ∀ a t, P a t → Q a t) : Gives act s Q := by
  obtain ⟨a, t, run, after⟩ := gives
  exact ⟨a, t, run, weaker a t after⟩

theorem get_bind {f : σ → ExceptT Stop (StateM σ) β} (rest : Gives (f s) s R) :
    Gives (get >>= f) s R :=
  rest

/-- One step for each element of a list.  What is known of a result stays known as the state grows, so
all of it is known in the end. -/
theorem mapM {step : β → ExceptT Stop (StateM σ) α} {grows : σ → σ → Prop} (refl : ∀ t, grows t t)
    (trans : ∀ {t u v}, grows t u → grows u v → grows t v) {before : β → γ → Prop}
    (after : σ → α → γ → Prop) {bs : List β} {xs : List γ} (all : List.Forall₂ before bs xs)
    (stable : ∀ x ∈ xs, ∀ {t u a}, grows t u → after t a x → after u a x)
    (each : ∀ b, ∀ x ∈ xs, before b x → ∀ t, grows s t →
      Gives (step b) t fun a u => grows t u ∧ after u a x) :
    Gives (bs.mapM step) s fun as t => grows s t ∧ List.Forall₂ (after t) as xs := by
  induction all generalizing s with
  | nil => exact pure ⟨refl s, .nil⟩
  | cons here _ ih =>
    rw [List.mapM_cons]
    refine bind (each _ _ List.mem_cons_self here s (refl s)) fun a t ⟨grown, done⟩ => ?_
    have later := ih (fun x member => stable x (List.mem_cons_of_mem _ member))
      fun b x member holds u grown' =>
        each b x (List.mem_cons_of_mem _ member) holds u (trans grown grown')
    refine bind later fun as u ⟨grown', dones⟩ => pure ⟨trans grown grown', ?_⟩
    exact .cons (stable _ List.mem_cons_self grown' done) dones

end Gives

/-! ## New parts of the heap -/

namespace Heap

variable {h h' : Heap} {among : DictId → Prop} {n : Nat} {v : Value} {x : Data}

/-- The dictionaries that are not in a heap yet. -/
def Fresh (h : Heap) (d : DictId) : Prop := h.dicts.size ≤ d.index

theorem Fresh.antitone {among : DictId → Prop} (kept : Kept among h h') : h'.Fresh ≤ h.Fresh :=
  fun _ fresh => Nat.le_trans kept.grown fresh

/-- A dictionary that was not in a heap does not count for what is kept of it. -/
theorem Kept.of_fresh {d : DictId} (kept : Kept (· ≠ d) h h') (new : h.Fresh d) : Kept ⊤ h h' := by
  refine { kept with dicts := fun d' _ here => kept.dicts d' ?_ here }
  rintro rfl
  exact Nat.not_lt.2 new here

theorem kept_pushBox (h : Heap) (v : Value) : h.Kept ⊤ { h with boxes := h.boxes.push v } := by
  refine { Kept.refl ⊤ h with boxes := fun b here => ⟨?_, ?_⟩ }
  · simpa using Nat.lt_succ_of_lt here
  · simp [Heap.value, Array.getElem?_push, Nat.ne_of_lt here]

theorem kept_pushList (h : Heap) (boxes : Array BoxId) :
    h.Kept ⊤ { h with lists := h.lists.push boxes } := by
  refine { Kept.refl ⊤ h with lists := fun l here => ⟨?_, ?_⟩ }
  · simpa using Nat.lt_succ_of_lt here
  · simp [Heap.items, Array.getElem?_push, Nat.ne_of_lt here]

theorem kept_pushDict (h : Heap) (m : Dictionary) :
    h.Kept ⊤ { h with dicts := h.dicts.push m } := by
  refine { Kept.refl ⊤ h with dicts := fun d _ here => ⟨?_, ?_⟩, grown := by simp }
  · simpa using Nat.lt_succ_of_lt here
  · simp [Heap.dictionary, Array.getElem?_push, Nat.ne_of_lt here]

theorem kept_setDictionary (h : Heap) (d : DictId) (m : Dictionary) :
    h.Kept (· ≠ d) (h.setDictionary d m) := by
  refine { Kept.refl (· ≠ d) h with
    dicts := fun d' other here => ⟨?_, ?_⟩, grown := by simp [setDictionary] }
  · simpa [setDictionary] using here
  · have apart : d.index ≠ d'.index := fun same => other (by cases d; cases d'; cases same; rfl)
    simp [Heap.dictionary, setDictionary, apart]

end Heap

namespace HeapM

open Heap

variable {h h' : Heap} {among among' : DictId → Prop} {n limit : Nat} {v : Value} {x : Data} {b : BoxId}

theorem gives_alloc (plain : x.Plain n) (holds : h.Holds among v x) :
    Gives (alloc v) h fun b h' => h.Kept ⊤ h' ∧ h'.HoldsBox among b x := by
  have kept := kept_pushBox h v
  refine ⟨_, _, rfl, kept, by simp, ?_⟩
  have stored : Heap.value { h with boxes := h.boxes.push v } ⟨h.boxes.size⟩ = v := by
    simp [Heap.value]
  rw [stored]
  exact holds.grown kept plain

theorem gives_read_bind {α : Type} {f : Value → HeapM α} {Q : α → Heap → Prop}
    (rest : Gives (f (h.value b)) h Q) : Gives (read b >>= f) h Q :=
  rest

theorem gives_copy (plain : x.Plain n) (holds : h.HoldsBox among b x) :
    Gives (copy b) h fun b' h' => h.Kept ⊤ h' ∧ h'.HoldsBox among b' x :=
  gives_alloc plain holds.2

theorem gives_allocList {boxes : List BoxId} {xs : List Data} (plain : ∀ x ∈ xs, x.Plain n)
    (holds : List.Forall₂ (h.HoldsBox among) boxes xs) :
    Gives (allocList boxes.toArray) h fun l h' =>
      h.Kept ⊤ h' ∧ h'.Holds among (.list l) (.list xs) := by
  have kept := kept_pushList h boxes.toArray
  refine ⟨_, _, rfl, kept, holds_list.2 ⟨_, rfl, by simp, ?_⟩⟩
  have stored : Heap.items { h with lists := h.lists.push boxes.toArray } ⟨h.lists.size⟩ =
      boxes.toArray := by
    simp [Heap.items]
  rw [stored]
  exact forall₂_imp_of_mem (fun _ x member => .grown kept (plain x member)) holds

theorem gives_allocDict (m : Dictionary) :
    Gives (allocDict m) h fun d h' => h.Kept ⊤ h' ∧ h.Fresh d ∧ d.index < h'.dicts.size ∧
      h'.dictionary d = m := by
  refine ⟨_, _, rfl, kept_pushDict h m, Nat.le_refl _, by simp, ?_⟩
  simp [Heap.dictionary]

/-- One box for each element of a list.  The boxes hold their trees in the end, and no dictionary that
was there before is part of them. -/
theorem gives_boxes {β : Type} {step : β → HeapM BoxId} {before : β → Data → Prop} {bs : List β}
    {xs : List Data} (plain : ∀ x ∈ xs, x.Plain n) (all : List.Forall₂ before bs xs)
    (each : ∀ b, ∀ x ∈ xs, before b x → ∀ t, h.Kept ⊤ t →
      Gives (step b) t fun b' u => t.Kept ⊤ u ∧ u.HoldsBox t.Fresh b' x) :
    Gives (bs.mapM step) h fun boxes t =>
      h.Kept ⊤ t ∧ List.Forall₂ (t.HoldsBox h.Fresh) boxes xs := by
  refine .mapM (Kept.refl ⊤) Kept.trans (fun t => t.HoldsBox h.Fresh) all ?_ ?_
  · intro x member t u b kept box
    exact box.grown kept (plain x member)
  · intro b x member here t kept
    refine (each b x member here t kept).mono fun b' u ⟨kept', box⟩ => ⟨kept', ?_⟩
    exact box.mono (plain x member) (Fresh.antitone kept)

/-! ## Deep copies -/

/-- Boxes are copied: a copy holds the same tree, and its dictionaries are new. -/
def Copies (inside : BoxId → HeapM BoxId) (n : Nat) : Prop :=
  ∀ ⦃h : Heap⦄ ⦃among : DictId → Prop⦄ ⦃b : BoxId⦄ ⦃x : Data⦄, x.Plain n → h.HoldsBox among b x →
    Gives (inside b) h fun b' h' => h.Kept ⊤ h' ∧ h'.HoldsBox h.Fresh b' x

section

variable {inside : BoxId → HeapM BoxId}

theorem gives_cloneList (copies : Copies inside n) {l : ListId} {xs : List Data}
    (plain : ∀ x ∈ xs, x.Plain n)
    (holds : List.Forall₂ (h.HoldsBox among) (h.items l).toList xs) :
    Gives (cloneList inside l) h fun w h' => h.Kept ⊤ h' ∧ h'.Holds h.Fresh w (.list xs) := by
  have copied : Gives ((h.items l).toList.mapM inside) h fun boxes t =>
      h.Kept ⊤ t ∧ List.Forall₂ (t.HoldsBox h.Fresh) boxes xs := by
    refine gives_boxes plain holds fun b x member box t kept => ?_
    exact copies (plain x member) (box.grown kept (plain x member))
  refine .get_bind (.bind copied fun boxes t ⟨kept, elements⟩ => ?_)
  refine .bind (gives_allocList plain elements) fun l' u ⟨kept', list⟩ => ?_
  exact .pure ⟨kept.trans kept', list⟩

theorem gives_cloneDict (copies : Copies inside n) {d : DictId} {xs : List (Data × Data)}
    (plain : ∀ e ∈ xs, e.1.Plain n ∧ e.2.Plain n)
    (holds : List.Forall₂ (h.HoldsEntry among) (h.dictionary d).entries xs) :
    Gives (cloneDict inside d) h fun w h' => h.Kept ⊤ h' ∧ h'.Holds h.Fresh w (.dict xs) := by
  have each : ∀ e, ∀ y ∈ xs, h.HoldsEntry among e y → ∀ t, h.Kept ⊤ t →
      Gives (do
        let key ← inside e.2.key
        let value ← inside e.2.value
        return (e.1, Entry.mk key value)) t
        fun e' u => t.Kept ⊤ u ∧ u.HoldsEntry h.Fresh e' y := by
    intro e y member entry t kept
    have ⟨plainKey, plainValue⟩ := plain y member
    obtain ⟨filed, key, value⟩ := entry.grown kept (plain y member)
    refine .bind (copies plainKey key) fun key' u ⟨kept', key'⟩ => ?_
    have value := value.grown kept' plainValue
    refine .bind (copies plainValue value) fun value' v ⟨kept'', value'⟩ => ?_
    refine .pure ⟨kept'.trans kept'', filed, ?_, ?_⟩
    · exact key'.kept plainKey (kept''.anti le_top) (Fresh.antitone kept)
    · exact value'.mono plainValue (Fresh.antitone (kept.trans kept'))
  have stable : ∀ y ∈ xs, ∀ {t u : Heap} {e}, t.Kept ⊤ u → t.HoldsEntry h.Fresh e y →
      u.HoldsEntry h.Fresh e y :=
    fun y member _ _ _ kept entry => entry.grown kept (plain y member)
  have copied := Gives.mapM (Kept.refl ⊤) Kept.trans (HoldsEntry · h.Fresh) holds stable each
  refine .get_bind (.bind copied fun entries t ⟨kept, filed⟩ => ?_)
  refine .bind (gives_allocDict ⟨entries⟩) fun d' u ⟨kept', new, here, stored⟩ => ?_
  refine .pure ⟨kept.trans kept', holds_dict.2 ⟨d', rfl, ⟨Fresh.antitone kept d' new, here⟩, ?_⟩⟩
  rw [stored]
  exact forall₂_holdsEntry_grown kept' plain filed

end

theorem copies_clone (copied : ∀ {h among v x}, x.Plain n → h.Holds among v x →
      Gives (cloneValue limit v) h fun w h' => h.Kept ⊤ h' ∧ h'.Holds h.Fresh w x) :
    Copies (clone limit) n := by
  intro h among b x plain box
  refine gives_read_bind (.bind (copied plain box.2) fun w t ⟨kept, holds⟩ => ?_)
  exact (gives_alloc plain holds).mono fun b' u ⟨kept', box'⟩ => ⟨kept.trans kept', box'⟩

/-- A deep copy of a value stands for the same tree, and its dictionaries are new. -/
theorem gives_cloneValue (plain : x.Plain n) (le : n ≤ limit) (holds : h.Holds among v x) :
    Gives (cloneValue limit v) h fun w h' => h.Kept ⊤ h' ∧ h'.Holds h.Fresh w x := by
  induction limit generalizing n v x h among with
  | zero => cases plain <;> omega
  | succ limit ih =>
    have copies {n : Nat} (le : n ≤ limit) : Copies (clone limit) n :=
      copies_clone fun plain => ih plain le
    cases plain with
    | bool | int | str => cases v <;> first | exact holds.elim | exact .pure ⟨.refl ⊤ h, holds⟩
    | list plain =>
      obtain ⟨l, rfl, -, elements⟩ := holds_list.1 holds
      exact gives_cloneList (copies (Nat.le_of_succ_le_succ le)) plain elements
    | dict keys values distinct =>
      obtain ⟨d, rfl, -, entries⟩ := holds_dict.1 holds
      exact gives_cloneDict (copies (Nat.le_of_succ_le_succ le))
        (Data.Plain.dict keys values distinct).entries entries

/-- A deep copy of a box. -/
theorem gives_clone (plain : x.Plain n) (le : n ≤ limit) (holds : h.HoldsBox among b x) :
    Gives (clone limit b) h fun b' h' => h.Kept ⊤ h' ∧ h'.HoldsBox h.Fresh b' x :=
  copies_clone (fun plain => gives_cloneValue plain le) plain holds

end HeapM

/-! ## Entries of dictionaries -/

namespace Data

/-- The entries with a value filed under a key: in the place of the entry with that key, else at the
end. -/
def put (key value : Data) : List (Data × Data) → List (Data × Data)
  | [] => [(key, value)]
  | (k, v) :: rest => if k.key = key.key then (k, value) :: rest else (k, v) :: put key value rest

theorem keys_put (key value : Data) (entries : List (Data × Data)) :
    (put key value entries).map (·.1.key) =
      if key.key ∈ entries.map (·.1.key) then entries.map (·.1.key)
      else entries.map (·.1.key) ++ [key.key] := by
  induction entries with
  | nil => simp [put]
  | cons e entries ih => grind [put]

theorem put_of_notMem {key value : Data} {entries : List (Data × Data)}
    (absent : key.key ∉ entries.map (·.1.key)) : put key value entries = entries ++ [(key, value)] := by
  induction entries with
  | nil => rfl
  | cons e entries ih =>
    rw [List.map_cons, List.mem_cons, not_or] at absent
    rw [put, if_neg (Ne.symm absent.1), ih absent.2, List.cons_append]

/-- What holds of the new entry and of those that were there holds of all of them afterwards. -/
theorem forall_mem_put {p q : Data → Prop} {key value : Data} {entries : List (Data × Data)}
    (keys : ∀ e ∈ entries, p e.1) (values : ∀ e ∈ entries, q e.2) (newKey : p key)
    (newValue : q value) :
    (∀ e ∈ put key value entries, p e.1) ∧ ∀ e ∈ put key value entries, q e.2 := by
  induction entries with
  | nil => simp [put, newKey, newValue]
  | cons e entries ih => grind [put]

theorem Plain.put {n : Nat} {key value : Data} {entries : List (Data × Data)}
    (plain : (Data.dict entries).Plain (n + 1)) (plainKey : key.Plain n) (plainValue : value.Plain n) :
    (Data.dict (put key value entries)).Plain (n + 1) := by
  cases plain with
  | dict keys values distinct =>
    obtain ⟨keys', values'⟩ := forall_mem_put keys values plainKey plainValue
    refine .dict keys' values' ?_
    rw [keys_put]
    split
    · exact distinct
    · next absent => exact List.nodup_append_comm.1 (List.nodup_cons.2 ⟨absent, distinct⟩)

end Data

namespace HeapM

open Heap

variable {h h' : Heap} {among among' : DictId → Prop} {n limit : Nat} {x y : Data} {d : DictId}
variable {key value : BoxId} {entries : List (Data × Data)}

/-- An entry bound in a dictionary: with the key box that is there, or else with a new one. -/
theorem forall₂_insertEntry {list : List (Key × Entry)} {kept : BoxId}
    (holds : List.Forall₂ (h.HoldsEntry among) list entries)
    (known : ∀ entry, OrderedMap.findEntry x.key list = some entry → kept = entry.key)
    (new : OrderedMap.findEntry x.key list = none → h.HoldsBox among kept x)
    (box : h.HoldsBox among value y) :
    List.Forall₂ (h.HoldsEntry among) (OrderedMap.insertEntry x.key ⟨kept, value⟩ list)
      (Data.put x y entries) := by
  induction holds with
  | nil => exact .cons ⟨rfl, new rfl, box⟩ .nil
  | @cons e z list entries here later ih =>
    obtain ⟨filed, keyBox, valueBox⟩ := here
    rw [OrderedMap.findEntry] at known new
    rw [OrderedMap.insertEntry, Data.put, ← filed]
    split
    · next same =>
      rw [if_pos same] at known
      rw [known e.2 rfl]
      exact .cons ⟨filed, keyBox, box⟩ later
    · next other =>
      rw [if_neg other] at known new
      exact .cons ⟨filed, keyBox, valueBox⟩ (ih known new)

theorem gives_bounded {α : Type} {f : Heap → Option α} {a : α} (found : f h = some a) :
    Gives (bounded f) h fun a' t => a' = a ∧ t = h := by
  rw [bounded]
  refine .get_bind ?_
  rw [found]
  exact .pure ⟨rfl, rfl⟩

/-- What a key is filed under. -/
theorem gives_keyOf (plain : x.Plain n) (le : n ≤ limit) (holds : h.HoldsBox among key x) :
    Gives (keyOf limit key) h fun k t => k = x.key ∧ t = h := by
  refine gives_read_bind (gives_bounded ?_)
  rw [Heap.key, holds.2.canonical plain le, holds.2.kind_eq]
  rfl

/-- The last step of filing an entry. -/
theorem gives_setDictionary {kept : BoxId} (other : among ≤ (· ≠ d)) (here : d.index < h.dicts.size)
    (plain : (Data.dict entries).Plain (n + 1))
    (holds : List.Forall₂ (h.HoldsEntry among)
      ((h.dictionary d).insert x.key ⟨kept, value⟩).entries entries) :
    Gives (modify fun h => h.setDictionary d ((h.dictionary d).insert x.key ⟨kept, value⟩)) h
      fun _ h' => h.Kept (· ≠ d) h' ∧
        List.Forall₂ (h'.HoldsEntry among) (h'.dictionary d).entries entries := by
  have only := kept_setDictionary h d ((h.dictionary d).insert x.key ⟨kept, value⟩)
  refine ⟨(), _, rfl, only, ?_⟩
  have stored : (h.setDictionary d ((h.dictionary d).insert x.key ⟨kept, value⟩)).dictionary d =
      (h.dictionary d).insert x.key ⟨kept, value⟩ := by
    simp [Heap.dictionary, setDictionary, here]
  rw [stored]
  exact forall₂_holdsEntry_kept plain.entries (only.anti other) le_rfl holds

/-- Filing a value under a key changes one dictionary, which then holds the new entry in its place. -/
theorem gives_dictSet (other : among ≤ (· ≠ d)) (fresh : h.Fresh ≤ among)
    (here : d.index < h.dicts.size) (plain : (Data.dict entries).Plain (n + 1)) (plainKey : x.Plain n) (plainValue : y.Plain n)
    (le : n ≤ limit) (holds : List.Forall₂ (h.HoldsEntry among) (h.dictionary d).entries entries)
    (holdsKey : h.HoldsBox among' key x) (holdsValue : h.HoldsBox among value y) :
    Gives (dictSet limit d key value) h fun _ h' => h.Kept (· ≠ d) h' ∧
      List.Forall₂ (h'.HoldsEntry among) (h'.dictionary d).entries (Data.put x y entries) := by
  refine .bind (gives_keyOf plainKey le holdsKey) ?_
  rintro k t ⟨rfl, rfl⟩
  refine .get_bind ?_
  split
  · next entry found =>
    refine gives_setDictionary other here (plain.put plainKey plainValue) ?_
    refine forall₂_insertEntry holds (fun _ found' => ?_) (fun absent => ?_) holdsValue
    · cases found.symm.trans found'
      rfl
    · cases found.symm.trans absent
  · next absent =>
    refine .bind (gives_clone plainKey le holdsKey) fun kept u ⟨grown, copied⟩ => ?_
    have ⟨here', same⟩ := grown.dicts d trivial here
    have filed : List.Forall₂ (u.HoldsEntry among)
        ((u.dictionary d).insert x.key ⟨kept, value⟩).entries (Data.put x y entries) := by
      rw [same]
      have holds' := forall₂_holdsEntry_grown grown plain.entries holds
      refine forall₂_insertEntry holds' (fun _ found => ?_) (fun _ => copied.mono plainKey fresh)
        (holdsValue.grown grown plainValue)
      cases absent.symm.trans found
    refine (gives_setDictionary other here' (plain.put plainKey plainValue) filed).mono ?_
    exact fun _ _ ⟨only, filed⟩ => ⟨(grown.anti le_top).trans only, filed⟩

/-- A dictionary that is being filled: it was made after the heap `start`, of which all is kept, and so
were the dictionaries in it, after itself. -/
structure Filling (start : Heap) (d : DictId) (n : Nat) (h : Heap) (entries : List (Data × Data)) :
    Prop where
  kept : start.Kept ⊤ h
  new : start.Fresh d
  here : d.index < h.dicts.size
  plain : (Data.dict entries).Plain (n + 1)
  holds : List.Forall₂ (h.HoldsEntry (d.index < ·.index)) (h.dictionary d).entries entries

namespace Filling

variable {start : Heap}

theorem grown (filling : Filling start d n h entries) (kept : h.Kept ⊤ h') :
    Filling start d n h' entries := by
  have ⟨here, same⟩ := kept.dicts d trivial filling.here
  refine ⟨filling.kept.trans kept, filling.new, here, filling.plain, ?_⟩
  rw [same]
  exact forall₂_holdsEntry_grown kept filling.plain.entries filling.holds

/-- What is new from now on is made after the dictionary. -/
theorem fresh_le (filling : Filling start d n h entries) : h.Fresh ≤ (d.index < ·.index) :=
  fun _ fresh => Nat.lt_of_lt_of_le filling.here fresh

/-- One more entry is filed. -/
theorem gives_dictSet (filling : Filling start d n h entries) (plainKey : x.Plain n)
    (plainValue : y.Plain n) (le : n ≤ limit) (holdsKey : h.HoldsBox among key x)
    (holdsValue : h.HoldsBox (d.index < ·.index) value y) :
    Gives (dictSet limit d key value) h fun _ h' => Filling start d n h' (Data.put x y entries) := by
  have other : (fun d' : DictId => d.index < d'.index) ≤ (· ≠ d) :=
    fun d' later same => Nat.ne_of_gt later (congrArg DictId.index same)
  have filed := HeapM.gives_dictSet other filling.fresh_le filling.here filling.plain plainKey
    plainValue le filling.holds holdsKey holdsValue
  refine filed.mono fun _ h' ⟨only, holds⟩ => ?_
  refine ⟨?_, filling.new, ?_, filling.plain.put plainKey plainValue, holds⟩
  · exact ((filling.kept.anti le_top).trans only).of_fresh filling.new
  · exact Nat.lt_of_lt_of_le filling.here only.grown

/-- The dictionary stands for the entries filed. -/
theorem holds_dict (filling : Filling start d n h entries) :
    h.Holds start.Fresh (.dict d) (.dict entries) := by
  refine Heap.holds_dict.2 ⟨d, rfl, ⟨filling.new, filling.here⟩, ?_⟩
  refine forall₂_holdsEntry_kept filling.plain.entries (.refl _ _) (fun d' later => ?_) filling.holds
  exact Nat.le_of_lt (Nat.lt_of_le_of_lt filling.new later)

end Filling

/-- A new dictionary, which nothing is filed in yet. -/
theorem gives_allocDict_empty (n : Nat) :
    Gives (allocDict .empty) h fun d h' => Filling h d n h' [] := by
  refine (gives_allocDict .empty).mono fun d h' ⟨kept, new, here, stored⟩ => ?_
  refine ⟨kept, new, here, .empty, ?_⟩
  rw [stored]
  exact .nil

end HeapM

/-! ## Trees put into the heap -/

namespace Data

/-- Trees that can be put into the heap and read back, nested no deeper than a bound.  In a dictionary
a key may come again. -/
inductive Storable : Nat → Data → Prop
  | bool {n : Nat} {b : Bool} : Storable (n + 1) (.bool b)
  | int {n : Nat} {i : Int64} : i ≠ Int64.minValue → Storable (n + 1) (.int i)
  | str {n : Nat} {s : String} : Storable (n + 1) (.str s)
  | list {n : Nat} {elements : List Data} :
    (∀ x ∈ elements, Storable n x) → Storable (n + 1) (.list elements)
  | dict {n : Nat} {entries : List (Data × Data)} :
    (∀ e ∈ entries, Storable n e.1) → (∀ e ∈ entries, Storable n e.2) →
    Storable (n + 1) (.dict entries)

mutual

/-- A tree with the entries of its dictionaries filed one after another. -/
def filed : Data → Data
  | .list elements => .list (filedAll elements)
  | .dict entries => .dict (filedEntries entries [])
  | x => x

/-- Trees with the entries of their dictionaries filed. -/
def filedAll : List Data → List Data
  | [] => []
  | x :: rest => filed x :: filedAll rest

/-- Entries filed behind those that are there. -/
def filedEntries : List (Data × Data) → List (Data × Data) → List (Data × Data)
  | [], done => done
  | (key, value) :: rest, done => filedEntries rest (put (filed key) (filed value) done)

end

theorem filedAll_eq_map (xs : List Data) : filedAll xs = xs.map filed := by
  induction xs with
  | nil => rfl
  | cons x xs ih => rw [filedAll, ih, List.map_cons]

theorem Plain.filedEntries {n : Nat} {entries done : List (Data × Data)}
    (keys : ∀ e ∈ entries, e.1.filed.Plain n) (values : ∀ e ∈ entries, e.2.filed.Plain n)
    (plain : (Data.dict done).Plain (n + 1)) :
    (Data.dict (filedEntries entries done)).Plain (n + 1) := by
  induction entries generalizing done with
  | nil => exact plain
  | cons e entries ih =>
    have ⟨key, keys⟩ := List.forall_mem_cons.1 keys
    have ⟨value, values⟩ := List.forall_mem_cons.1 values
    exact ih keys values (plain.put key value)

/-- Once its entries are filed, a tree has no key twice. -/
theorem Storable.plain {n : Nat} {x : Data} (storable : x.Storable n) : x.filed.Plain n := by
  induction storable with
  | bool => exact .bool
  | int notLeast => exact .int notLeast
  | str => exact .str
  | list _ ih =>
    rw [filed, filedAll_eq_map]
    exact .list (List.forall_mem_map.2 ih)
  | dict _ _ ihKeys ihValues =>
    rw [filed]
    exact Plain.filedEntries ihKeys ihValues .empty

end Data

namespace HeapM

open Heap

variable {h : Heap} {n limit : Nat} {x : Data}

/-- Puts a tree into a box. -/
def storeBox (limit : Nat) (x : Data) : HeapM BoxId := do alloc (← store limit x)

theorem storeAll_eq_mapM (limit : Nat) (xs : List Data) :
    storeAll limit xs = xs.mapM (storeBox limit) := by
  induction xs with
  | nil => rfl
  | cons x xs ih =>
    rw [storeAll, ih, List.mapM_cons, storeBox, bind_assoc]

theorem storeEntries_cons (limit : Nat) (d : DictId) (e : Data × Data) (rest : List (Data × Data)) :
    storeEntries limit d (e :: rest) = (do
      let key ← storeBox limit e.1
      let value ← storeBox limit e.2
      dictSet limit d key value
      storeEntries limit d rest) := by
  rw [storeEntries]
  simp only [storeBox, bind_assoc]

/-- A tree is put into boxes, which hold the tree with its entries filed. -/
def Stores (limit n : Nat) (x : Data) : Prop :=
  x.filed.Plain n ∧ ∀ h : Heap, Gives (storeBox limit x) h fun b h' =>
    h.Kept ⊤ h' ∧ h'.HoldsBox h.Fresh b x.filed

theorem gives_storeEntries {start : Heap} {d : DictId} {entries done : List (Data × Data)}
    (le : n ≤ limit) (keys : ∀ e ∈ entries, Stores limit n e.1) (values : ∀ e ∈ entries, Stores limit n e.2)
    (filling : Filling start d n h done) :
    Gives (storeEntries limit d entries) h fun _ h' =>
      Filling start d n h' (Data.filedEntries entries done) := by
  induction entries generalizing h done with
  | nil => exact .pure filling
  | cons e entries ih =>
    have ⟨⟨plainKey, storesKey⟩, keys⟩ := List.forall_mem_cons.1 keys
    have ⟨⟨plainValue, storesValue⟩, values⟩ := List.forall_mem_cons.1 values
    rw [storeEntries_cons]
    refine .bind (storesKey h) fun key t ⟨kept, keyBox⟩ => ?_
    refine .bind (storesValue t) fun value u ⟨kept', valueBox⟩ => ?_
    have filling := filling.grown kept
    have filed := (filling.grown kept').gives_dictSet plainKey plainValue le
      (keyBox.grown kept' plainKey) (valueBox.mono plainValue filling.fresh_le)
    exact .bind filed fun _ v filling => ih keys values filling

theorem gives_storeBox (storable : x.Storable n) (stores : ∀ h, Gives (store limit x) h fun v h' =>
    h.Kept ⊤ h' ∧ h'.Holds h.Fresh v x.filed) : Stores limit n x := by
  refine ⟨storable.plain, fun h => .bind (stores h) fun v t ⟨kept, holds⟩ => ?_⟩
  exact (gives_alloc storable.plain holds).mono fun b u ⟨kept', box⟩ => ⟨kept.trans kept', box⟩

/-- What is built from a tree stands for it, with the entries of its dictionaries filed. -/
theorem gives_store (storable : x.Storable n) (le : n ≤ limit) (h : Heap) :
    Gives (store limit x) h fun v h' => h.Kept ⊤ h' ∧ h'.Holds h.Fresh v x.filed := by
  induction storable generalizing h with
  | bool | int | str => exact .pure ⟨.refl ⊤ h, rfl⟩
  | @list n xs storable ih =>
    have each : ∀ x ∈ xs, Stores limit n x := fun x member =>
      gives_storeBox (storable x member) (ih x member (Nat.le_of_succ_le le))
    have plain : ∀ y ∈ xs.map Data.filed, y.Plain n :=
      List.forall_mem_map.2 fun x member => (each x member).1
    have pairs : List.Forall₂ (fun x y => x ∈ xs ∧ x.filed = y) xs (xs.map Data.filed) :=
      List.forall₂_map_right_iff.2 (List.forall₂_same.2 fun x member => ⟨member, rfl⟩)
    rw [store, storeAll_eq_mapM, Data.filed, Data.filedAll_eq_map]
    have stored : Gives (xs.mapM (storeBox limit)) h fun boxes t =>
        h.Kept ⊤ t ∧ List.Forall₂ (t.HoldsBox h.Fresh) boxes (xs.map Data.filed) := by
      refine gives_boxes plain pairs ?_
      rintro x - - ⟨member, rfl⟩ t -
      exact (each x member).2 t
    refine .bind stored fun boxes t ⟨kept, elements⟩ => ?_
    refine .bind (gives_allocList plain elements) fun l u ⟨kept', list⟩ => ?_
    exact .pure ⟨kept.trans kept', list⟩
  | @dict n entries keys values ihKeys ihValues =>
    have storesKeys : ∀ e ∈ entries, Stores limit n e.1 := fun e member =>
      gives_storeBox (keys e member) (ihKeys e member (Nat.le_of_succ_le le))
    have storesValues : ∀ e ∈ entries, Stores limit n e.2 := fun e member =>
      gives_storeBox (values e member) (ihValues e member (Nat.le_of_succ_le le))
    rw [store, Data.filed]
    refine .bind (gives_allocDict_empty n) fun d t filling => ?_
    refine .bind (gives_storeEntries (Nat.le_of_succ_le le) storesKeys storesValues filling) ?_
    exact fun _ u filling => .pure ⟨filling.kept, filling.holds_dict⟩

end HeapM

end Shiba

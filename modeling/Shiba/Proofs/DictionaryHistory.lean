import Shiba.Proofs.DeepCopies
import Shiba.Proofs.Keys.Access

/-!
# A dictionary tells its history

A dictionary keeps one table and no history.  What the table holds can be told from the history all the
same: the keys whose last change filed them, in the order in which they were filed first since they were
removed last, each with the copy that was made then and with the box that was filed last.

* `DictChange`: a change of a dictionary.
* `DictHistory`: the changes of a dictionary, with anything else happening in between.
* `Ledger`: a table that is as the changes say; `Ledger.set_known`, `Ledger.set_new` and `Ledger.delete` are
  its steps.
* `dictionary_tells_history` is the statement, over all histories.
-/

namespace Shiba

/-! ## Moments of a history -/

/-- A change of a dictionary: the heap it found, the box that was given as the key, what that is filed under,
and the box that was filed, which is none where the key was removed. -/
structure DictChange where
  heap : Heap
  key : BoxId
  digest : Key
  value : Option BoxId

section Moments

variable {past : List DictChange} {c c' : DictChange} {k : Key} {v w : BoxId} {i j n : Nat}

/-- The last change of the key `k` was made at the moment `j` and filed the box `v`. -/
structure SetLast (past : List DictChange) (k : Key) (j : Nat) (v : BoxId) : Prop where
  filed : ∃ c, past[j]? = some c ∧ c.digest = k ∧ c.value = some v
  last : ∀ i c, j < i → past[i]? = some c → c.digest ≠ k

/-- Before the moment `n`, every filing of the key `k` was followed by a removal. -/
def Cleared (past : List DictChange) (k : Key) (n : Nat) : Prop :=
  ∀ j c, j < n → past[j]? = some c → c.digest = k → c.value ≠ none →
    ∃ i c', j < i ∧ i < n ∧ past[i]? = some c' ∧ c'.digest = k ∧ c'.value = none

/-- At the moment `i`, the change `c` filed the key `k` for the first time since it was removed last. -/
structure SetFirst (past : List DictChange) (k : Key) (i : Nat) (c : DictChange) : Prop where
  made : past[i]? = some c
  digest : c.digest = k
  files : c.value ≠ none
  cleared : Cleared past k i
  stays : ∀ j c', i < j → past[j]? = some c' → c'.digest = k → c'.value ≠ none

theorem getElem?_snoc_iff : (past ++ [c])[i]? = some c' ↔ past[i]? = some c' ∨ i = past.length ∧ c' = c := by
  rcases Nat.lt_trichotomy i past.length with before | rfl | after
  · simp [List.getElem?_append_left before, Nat.ne_of_lt before]
  · simp [eq_comm]
  · have absent : past[i]? = none := List.getElem?_eq_none (Nat.le_of_lt after)
    have absent' : (past ++ [c])[i]? = none := List.getElem?_eq_none (by simpa using Nat.succ_le_of_lt after)
    simp [absent, absent', Nat.ne_of_gt after]

theorem lt_length_of_moment (made : past[i]? = some c) : i < past.length :=
  (List.getElem?_eq_some_iff.1 made).1

theorem SetLast.of_change (c : DictChange) (filed : c.value = some v) :
    SetLast (past ++ [c]) c.digest past.length v where
  filed := ⟨c, getElem?_snoc_iff.2 (.inr ⟨rfl, rfl⟩), rfl, filed⟩
  last i c' later made := by
    have inside := lt_length_of_moment made
    rw [List.length_append] at inside
    exact absurd (Nat.lt_of_lt_of_le inside later) (Nat.lt_irrefl _)

theorem SetLast.snoc (last : SetLast past k j v) (other : c.digest ≠ k) : SetLast (past ++ [c]) k j v where
  filed := last.filed.imp fun _ filed => ⟨getElem?_snoc_iff.2 (.inl filed.1), filed.2⟩
  last i c' later made := by
    rcases getElem?_snoc_iff.1 made with made | ⟨-, rfl⟩
    · exact last.last i c' later made
    · exact other

/-- There is one last change of a key. -/
theorem SetLast.unique (last : SetLast past k i v) (last' : SetLast past k j w) : v = w := by
  obtain ⟨c, made, digest, filed⟩ := last.filed
  obtain ⟨c', made', digest', filed'⟩ := last'.filed
  rcases Nat.lt_trichotomy i j with before | rfl | after
  · exact absurd digest' (last.last j c' before made')
  · cases made.symm.trans made'
    exact Option.some.inj (filed.symm.trans filed')
  · exact absurd digest (last'.last i c after made)

/-- A key that was cleared was not filed by its last change. -/
theorem Cleared.not_setLast (cleared : Cleared past k past.length) : ¬ SetLast past k j v := by
  intro last
  obtain ⟨c, made, digest, filed⟩ := last.filed
  obtain ⟨i, c', later, -, made', digest', -⟩ :=
    cleared j c (lt_length_of_moment made) made digest (by rw [filed]; exact Option.some_ne_none v)
  exact last.last i c' later made' digest'

theorem Cleared.snoc (cleared : Cleared past k n) (within : n ≤ past.length) : Cleared (past ++ [c]) k n := by
  intro j c₁ before made digest files
  rcases getElem?_snoc_iff.1 made with made | ⟨rfl, -⟩
  · obtain ⟨i, c₂, later, inside, made', removed⟩ := cleared j c₁ before made digest files
    exact ⟨i, c₂, later, inside, getElem?_snoc_iff.2 (.inl made'), removed⟩
  · exact absurd (Nat.lt_of_lt_of_le before within) (Nat.lt_irrefl _)

theorem Cleared.of_other (cleared : Cleared past k past.length) (other : c.digest ≠ k) :
    Cleared (past ++ [c]) k (past ++ [c]).length := by
  intro j c₁ _ made digest files
  rcases getElem?_snoc_iff.1 made with made | ⟨-, rfl⟩
  · obtain ⟨i, c₂, later, inside, made', removed⟩ :=
      cleared j c₁ (lt_length_of_moment made) made digest files
    exact ⟨i, c₂, later, inside.trans (by simp), getElem?_snoc_iff.2 (.inl made'), removed⟩
  · exact absurd digest other

theorem Cleared.of_removal (removes : c.value = none) :
    Cleared (past ++ [c]) c.digest (past ++ [c]).length := by
  intro j c₁ _ made digest files
  rcases getElem?_snoc_iff.1 made with made | ⟨-, rfl⟩
  · have removed : (past ++ [c])[past.length]? = some c := getElem?_snoc_iff.2 (.inr ⟨rfl, rfl⟩)
    exact ⟨past.length, c, lt_length_of_moment made, by simp, removed, rfl, removes⟩
  · exact absurd removes files

theorem SetFirst.of_change (c : DictChange) (files : c.value ≠ none)
    (cleared : Cleared past c.digest past.length) : SetFirst (past ++ [c]) c.digest past.length c where
  made := getElem?_snoc_iff.2 (.inr ⟨rfl, rfl⟩)
  digest := rfl
  files := files
  cleared := cleared.snoc le_rfl
  stays j c' later made _ := by
    rcases getElem?_snoc_iff.1 made with made | ⟨rfl, -⟩
    · exact absurd (lt_length_of_moment made) (Nat.lt_asymm later)
    · exact absurd later (Nat.lt_irrefl _)

theorem SetFirst.snoc (first : SetFirst past k i c') (stays : c.digest = k → c.value ≠ none) :
    SetFirst (past ++ [c]) k i c' where
  made := getElem?_snoc_iff.2 (.inl first.made)
  digest := first.digest
  files := first.files
  cleared := first.cleared.snoc (Nat.le_of_lt (lt_length_of_moment first.made))
  stays j c₁ later made digest := by
    rcases getElem?_snoc_iff.1 made with made | ⟨-, rfl⟩
    · exact first.stays j c₁ later made digest
    · exact stays digest

end Moments

/-! ## The table of a history -/

/-- The entry that is listed with the moment `i`: its key box is the copy of the key that was made at that
moment, when the key was filed for the first time since it was removed last, and its value box is the one
that was filed last. -/
structure Listed (limit : Nat) (past : List DictChange) (i : Nat) (e : Key × Entry) : Prop where
  key : ∃ c made, SetFirst past e.1 i c ∧ HeapM.clone limit c.key c.heap = (.ok e.2.key, made) ∧
    c.heap.AlikeBox c.key made e.2.key
  value : ∃ j, SetLast past e.1 j e.2.value

/-- A table is as the changes of a dictionary say. -/
structure Ledger (limit : Nat) (past : List DictChange) (m : Dictionary) : Prop where
  distinct : m.keys.Nodup
  cleared : ∀ k, k ∉ m.keys → Cleared past k past.length
  listed : ∃ moments : List Nat, moments.Pairwise (· < ·) ∧ List.Forall₂ (Listed limit past) moments m.entries

section Steps

variable {limit : Nat} {past : List DictChange} {c : DictChange} {m : Dictionary} {k : Key} {e : Entry}

theorem Listed.snoc_other {i : Nat} {x : Key × Entry} (here : Listed limit past i x)
    (other : c.digest ≠ x.1) : Listed limit (past ++ [c]) i x where
  key := here.key.imp fun _ => Exists.imp fun _ both => ⟨both.1.snoc fun same => absurd same other, both.2⟩
  value := here.value.imp fun _ last => last.snoc other

theorem Listed.lt_length {i : Nat} {x : Key × Entry} (here : Listed limit past i x) : i < past.length := by
  obtain ⟨_, _, first, -⟩ := here.key
  exact lt_length_of_moment first.made

/-- A relation with the entries of a table goes over to the table in which a known key is bound anew. -/
theorem forall₂_insertEntry {α : Type} {R S : α → Key × Entry → Prop} {as : List α}
    {entries : List (Key × Entry)} {e' : Entry} (each : List.Forall₂ R as entries)
    (distinct : (entries.map (·.1)).Nodup)
    (found : OrderedMap.findEntry k entries = some e) (here : ∀ a, R a (k, e) → S a (k, e'))
    (other : ∀ a x, x.1 ≠ k → R a x → S a x) :
    List.Forall₂ S as (OrderedMap.insertEntry k e' entries) := by
  induction each with
  | nil => cases found
  | @cons a x as entries first rest ih =>
    rcases x with ⟨k', e₁⟩
    obtain ⟨absent, distinct⟩ := List.nodup_cons.1 distinct
    rw [OrderedMap.findEntry] at found
    rw [OrderedMap.insertEntry]
    by_cases same : k' = k
    · subst same
      rw [if_pos rfl] at found ⊢
      cases found
      refine .cons (here a first) (Heap.forall₂_imp_left rest.flip fun x member b related => ?_).flip
      exact other b x (fun same => absent (List.mem_map.2 ⟨x, member, same⟩)) related
    · rw [if_neg same] at found ⊢
      exact .cons (other a _ same first) (ih distinct found)

/-- What is related to a part of a table is a part of what is related to the table. -/
theorem exists_forall₂_filter {α β : Type} {R : α → β → Prop} {p : β → Bool} {as : List α} {bs : List β}
    (each : List.Forall₂ R as bs) :
    ∃ as', as'.Sublist as ∧ List.Forall₂ (fun a b => R a b ∧ p b = true) as' (bs.filter p) := by
  induction each with
  | nil => exact ⟨[], .slnil, .nil⟩
  | @cons a b as bs here rest ih =>
    obtain ⟨as', inside, each⟩ := ih
    rw [List.filter_cons]
    split
    · next holds => exact ⟨a :: as', inside.cons_cons a, .cons ⟨here, holds⟩ each⟩
    · exact ⟨as', inside.cons a, each⟩

theorem Ledger.start : Ledger limit [] .empty where
  distinct := List.nodup_nil
  cleared _ _ := fun _ _ before => absurd before (Nat.not_lt_zero _)
  listed := ⟨[], .nil, .nil⟩

/-- A known key keeps its place and its key box, and its value is replaced. -/
theorem Ledger.set_known (ledger : Ledger limit past m) (found : m.get? c.digest = some e) {v : BoxId}
    (files : c.value = some v) : Ledger limit (past ++ [c]) (m.insert c.digest ⟨e.key, v⟩) := by
  have known := OrderedMap.mem_keys_of_get? found
  have keys : (m.insert c.digest ⟨e.key, v⟩).keys = m.keys := by
    rw [OrderedMap.keys_insert, if_pos known]
  refine ⟨keys ▸ ledger.distinct, fun k absent => ?_, ?_⟩
  · rw [keys] at absent
    exact (ledger.cleared k absent).of_other fun same => absent (same ▸ known)
  · obtain ⟨moments, order, each⟩ := ledger.listed
    refine ⟨moments, order, forall₂_insertEntry each ledger.distinct found (fun i here => ?_) ?_⟩
    · refine ⟨?_, past.length, .of_change c files⟩
      obtain ⟨c', made, first, copied⟩ := here.key
      exact ⟨c', made, first.snoc fun _ => files ▸ Option.some_ne_none v, copied⟩
    · exact fun i x other here => here.snoc_other (Ne.symm other)

/-- A new key comes in at the end, with a copy of the box that was given. -/
theorem Ledger.set_new (ledger : Ledger limit past m) (absent : m.get? c.digest = none) {kept v : BoxId}
    {made : Heap} (files : c.value = some v) (copied : HeapM.clone limit c.key c.heap = (.ok kept, made))
    (alike : c.heap.AlikeBox c.key made kept) :
    Ledger limit (past ++ [c]) (m.insert c.digest ⟨kept, v⟩) := by
  have new : c.digest ∉ m.keys := fun known => by
    obtain ⟨e, found⟩ := OrderedMap.exists_get?_of_mem_keys known
    cases absent.symm.trans found
  have keys : (m.insert c.digest ⟨kept, v⟩).keys = m.keys ++ [c.digest] := by
    rw [OrderedMap.keys_insert, if_neg new]
  refine ⟨?_, fun k absent => ?_, ?_⟩
  · rw [keys, ← List.concat_eq_append]
    exact ledger.distinct.concat new
  · rw [keys, List.mem_append, not_or] at absent
    exact (ledger.cleared k absent.1).of_other fun same => absent.2 (List.mem_singleton.2 same.symm)
  · obtain ⟨moments, order, each⟩ := ledger.listed
    have entries : (m.insert c.digest ⟨kept, v⟩).entries = m.entries ++ [(c.digest, ⟨kept, v⟩)] :=
      OrderedMap.insertEntry_of_notMem new
    refine ⟨moments ++ [past.length], ?_, ?_⟩
    · refine List.pairwise_append.2 ⟨order, List.pairwise_singleton _ _, fun i member j last => ?_⟩
      obtain ⟨x, -, here⟩ := Heap.exists_of_mem each member
      exact List.mem_singleton.1 last ▸ here.lt_length
    · rw [entries]
      refine List.rel_append (Heap.forall₂_imp_left each.flip fun x member i here => ?_).flip (.cons ?_ .nil)
      · exact here.snoc_other fun same => new (same ▸ List.mem_map_of_mem member)
      · have first := SetFirst.of_change c (files ▸ Option.some_ne_none v) (ledger.cleared _ new)
        exact ⟨⟨c, made, first, copied, alike⟩, past.length, .of_change c files⟩

/-- A removed key is gone, and the others keep their order. -/
theorem Ledger.delete (ledger : Ledger limit past m) (removes : c.value = none) :
    Ledger limit (past ++ [c]) (m.erase c.digest) := by
  refine ⟨?_, fun k absent => ?_, ?_⟩
  · rw [OrderedMap.keys_erase]
    exact ledger.distinct.filter _
  · rw [OrderedMap.keys_erase, List.mem_filter, decide_eq_true_iff, not_and_not_right] at absent
    by_cases same : k = c.digest
    · exact same ▸ .of_removal removes
    · exact (ledger.cleared k fun known => same (absent known)).of_other (Ne.symm same)
  · obtain ⟨moments, order, each⟩ := ledger.listed
    obtain ⟨left, part, each⟩ := exists_forall₂_filter (p := fun x => x.1 ≠ c.digest) each
    exact ⟨left, order.sublist part, each.imp fun i x both =>
      both.1.snoc_other (Ne.symm (decide_eq_true_iff.1 both.2))⟩

end Steps

/-! ## Histories -/

/-- The dictionary `d` was empty at first, and was changed as the list says since.  Between the changes
anything may happen that leaves the heap sound, as the heaps of all reachable states are, and the table of `d`
as it is. -/
inductive DictHistory (limit : Nat) (d : DictId) : List DictChange → Heap → Prop
  | start {h : Heap} (sound : h.Sound) (there : d.index < h.dicts.size) (fresh : h.dictionary d = .empty) :
    DictHistory limit d [] h
  | set {past : List DictChange} {h h' : Heap} {key value : BoxId} {k : Key}
    (before : DictHistory limit d past h)
    (filed : h.key limit (h.value key) = some k) (there : value.index < h.boxes.size)
    (run : HeapM.dictSet limit d key value h = (.ok (), h')) :
    DictHistory limit d (past ++ [⟨h, key, k, some value⟩]) h'
  | delete {past : List DictChange} {h h' : Heap} {key : BoxId} {k : Key} {answer : Bool}
    (before : DictHistory limit d past h) (filed : h.key limit (h.value key) = some k)
    (run : HeapM.dictDelete limit d key h = (.ok answer, h')) :
    DictHistory limit d (past ++ [⟨h, key, k, none⟩]) h'
  | aside {past : List DictChange} {h h' : Heap} (before : DictHistory limit d past h) (sound : h'.Sound)
    (there : d.index < h'.dicts.size) (same : h'.dictionary d = h.dictionary d) : DictHistory limit d past h'

namespace Heap

variable {h : Heap} {d : DictId} {m : Dictionary}

theorem Sound.setDictionary (sound : h.Sound)
    (entries : ∀ e ∈ m.values, e.key.index < h.boxes.size ∧ e.value.index < h.boxes.size) :
    (h.setDictionary d m).Sound where
  value b := by
    have known := sound.value b
    change (h.setDictionary d m).Knows (h.value b)
    generalize h.value b = v at known ⊢
    cases v with
    | dict c => exact (has_setDictionary h d m (p := .container (.dict c))).2 known
    | _ => exact known
  items := sound.items
  entries c e member := by
    by_cases same : c = d
    · subst same
      by_cases there : c.index < h.dicts.size
      · rw [dictionary_set_self there] at member
        exact entries e member
      · have none : (h.setDictionary c m).dictionary c = .empty := by
          simp [dictionary, Heap.setDictionary, there]
        rw [none] at member
        cases member
    · rw [dictionary_set_of_ne h m same] at member
      exact sound.entries c e member
  fields := sound.fields

end Heap

/-- What every change of a dictionary finds: a sound heap, and a table that is as the changes before say. -/
structure DictHistory.Stands (limit : Nat) (d : DictId) (past : List DictChange) (h : Heap) : Prop where
  sound : h.Sound
  there : d.index < h.dicts.size
  ledger : Ledger limit past (h.dictionary d)

namespace DictHistory

variable {limit : Nat} {d : DictId} {past : List DictChange} {h h' : Heap} {key value : BoxId} {k : Key}

theorem Stands.file (stands : Stands limit d past h) {made : Heap} (grows : h.Grows made) (sound : made.Sound)
    {c : DictChange} {m : Dictionary} (ledger : Ledger limit (past ++ [c]) m)
    (entries : ∀ e ∈ m.values, e.key.index < made.boxes.size ∧ e.value.index < made.boxes.size) :
    Stands limit d (past ++ [c]) (made.setDictionary d m) := by
  have there := Nat.lt_of_lt_of_le stands.there (State.size_le_of_grown grows.dicts)
  refine ⟨sound.setDictionary entries, ?_, ?_⟩
  · simpa [Heap.setDictionary] using there
  · rwa [Heap.dictionary_set_self there]

/-- A box can be filed under every key that can be told, and the table is as the changes say. -/
theorem Stands.set (stands : Stands limit d past h) (filed : h.key limit (h.value key) = some k)
    (there : value.index < h.boxes.size) : ∃ h', HeapM.dictSet limit d key value h = (.ok (), h') ∧
      Stands limit d (past ++ [⟨h, key, k, some value⟩]) h' := by
  have inside (e : Entry) (member : e ∈ (h.dictionary d).values) := stands.sound.entries d e member
  cases found : (h.dictionary d).get? k with
  | some e =>
    have ledger := stands.ledger.set_known (c := ⟨h, key, k, some value⟩) found rfl
    refine ⟨_, HeapM.run_dictSet_known filed found value, stands.file (.refl h) stands.sound ledger ?_⟩
    intro x member
    rcases OrderedMap.mem_values_insert member with rfl | old
    · exact ⟨(inside e (OrderedMap.mem_values_of_get? found)).1, there⟩
    · exact inside x old
  | none =>
    obtain ⟨kept, made, copied, grows, sound, alike, run⟩ :=
      HeapM.run_dictSet_new stands.sound stands.there filed found value
    have ledger := stands.ledger.set_new (c := ⟨h, key, k, some value⟩) found rfl copied alike
    refine ⟨_, run, stands.file grows sound ledger ?_⟩
    intro x member
    rcases OrderedMap.mem_values_insert member with rfl | old
    · exact ⟨alike.1, Nat.lt_of_lt_of_le there grows.size_boxes⟩
    · exact ⟨Nat.lt_of_lt_of_le (inside x old).1 grows.size_boxes,
        Nat.lt_of_lt_of_le (inside x old).2 grows.size_boxes⟩

/-- Every key that can be told can be removed, and the table is as the changes say. -/
theorem Stands.delete (stands : Stands limit d past h) (filed : h.key limit (h.value key) = some k) :
    ∃ h', HeapM.dictDelete limit d key h = (.ok ((h.dictionary d).contains k), h') ∧
      ((h.dictionary d).contains k = false → h' = h) ∧ Stands limit d (past ++ [⟨h, key, k, none⟩]) h' := by
  have ledger := stands.ledger.delete (c := ⟨h, key, k, none⟩) rfl
  rw [HeapM.run_dictDelete filed]
  cases known : (h.dictionary d).contains k with
  | true =>
    refine ⟨_, rfl, nofun, stands.file (.refl h) stands.sound ledger fun e member => ?_⟩
    exact stands.sound.entries d e (Multiset.mem_of_le (OrderedMap.values_erase_le _ k) member)
  | false =>
    refine ⟨h, rfl, fun _ => rfl, stands.sound, stands.there, ?_⟩
    have same : (h.dictionary d).erase k = h.dictionary d := by
      refine congrArg OrderedMap.mk (List.filter_eq_self.2 fun x member => decide_eq_true ?_)
      rintro rfl
      rw [OrderedMap.contains_eq_true_iff.2 (List.mem_map_of_mem member)] at known
      cases known
    exact same ▸ ledger

theorem stands (history : DictHistory limit d past h) : Stands limit d past h := by
  induction history with
  | start sound there fresh => exact ⟨sound, there, fresh ▸ .start⟩
  | set _ filed there run ih =>
    obtain ⟨h', run', stands⟩ := ih.set filed there
    cases run.symm.trans run'
    exact stands
  | delete _ filed run ih =>
    obtain ⟨h', run', -, stands⟩ := ih.delete filed
    cases run.symm.trans run'
    exact stands
  | aside _ sound there same ih => exact ⟨sound, there, same ▸ ih.ledger⟩

theorem set_snd (history : DictHistory limit d past h) (key value : BoxId) (k : Key)
    (filed : h.key limit (h.value key) = some k) (there : value.index < h.boxes.size) :
    DictHistory limit d (past ++ [⟨h, key, k, some value⟩]) (HeapM.dictSet limit d key value h).2 := by
  obtain ⟨h', run, -⟩ := history.stands.set filed there
  exact run ▸ .set history filed there run

theorem delete_snd (history : DictHistory limit d past h) (key : BoxId) (k : Key)
    (filed : h.key limit (h.value key) = some k) :
    DictHistory limit d (past ++ [⟨h, key, k, none⟩]) (HeapM.dictDelete limit d key h).2 := by
  obtain ⟨h', run, -⟩ := history.stands.delete filed
  exact run ▸ .delete history filed run

end DictHistory

/-! ## What the operations answer -/

/-- The operations with a box whose key can be told: finding answers the box that was filed last, if the last
change filed the key; removing answers whether it did, and changes nothing where it did not; and both
changes can be made. -/
structure Answers (limit : Nat) (d : DictId) (past : List DictChange) (h : Heap) (key : BoxId) (k : Key) :
    Prop where
  get : ∃ found, HeapM.dictGet? limit d key h = (.ok found, h) ∧
    ∀ v, found = some v ↔ ∃ j, SetLast past k j v
  contains : (h.dictionary d).contains k = true ↔ ∃ j v, SetLast past k j v
  delete : ∃ answer h', HeapM.dictDelete limit d key h = (.ok answer, h') ∧
    (answer = true ↔ ∃ j v, SetLast past k j v) ∧ (answer = false → h' = h) ∧
    DictHistory limit d (past ++ [⟨h, key, k, none⟩]) h'
  set : ∀ value, value.index < h.boxes.size → ∃ h', HeapM.dictSet limit d key value h = (.ok (), h') ∧
    DictHistory limit d (past ++ [⟨h, key, k, some value⟩]) h'

/-- The operations with a box that has no key, being nested too deeply: they stop and change nothing. -/
structure Refuses (limit : Nat) (d : DictId) (h : Heap) (key : BoxId) : Prop where
  get : HeapM.dictGet? limit d key h = (.error .tooDeep, h)
  delete : HeapM.dictDelete limit d key h = (.error .tooDeep, h)
  set : ∀ value, HeapM.dictSet limit d key value h = (.error .tooDeep, h)

/-- How an entry of a dictionary is written. -/
def Heap.entryText (h : Heap) (limit : Nat) (e : Entry) : Option String := do
  let key ← h.canonical limit (h.value e.key)
  let value ← h.canonical limit (h.value e.value)
  return key ++ ": " ++ value

section Answering

variable {limit : Nat} {d : DictId} {past : List DictChange} {m : Dictionary} {h : Heap} {key : BoxId}
  {k : Key}

theorem Ledger.mem_keys_iff (ledger : Ledger limit past m) : k ∈ m.keys ↔ ∃ j v, SetLast past k j v := by
  constructor
  · intro known
    obtain ⟨x, member, rfl⟩ := List.mem_map.1 known
    obtain ⟨moments, -, each⟩ := ledger.listed
    obtain ⟨i, -, here⟩ := Heap.exists_of_mem each.flip member
    exact here.value.imp fun j last => ⟨_, last⟩
  · rintro ⟨j, v, last⟩
    by_contra absent
    exact (ledger.cleared k absent).not_setLast last

theorem Ledger.get?_iff (ledger : Ledger limit past m) {v : BoxId} :
    (m.get? k).map (·.value) = some v ↔ ∃ j, SetLast past k j v := by
  have last {e : Entry} (found : m.get? k = some e) : ∃ j, SetLast past k j e.value := by
    obtain ⟨moments, -, each⟩ := ledger.listed
    obtain ⟨i, -, here⟩ := Heap.exists_of_mem each.flip (OrderedMap.mem_entries_of_get? found)
    exact here.value
  constructor
  · intro found
    obtain ⟨e, filed, rfl⟩ := Option.map_eq_some_iff.1 found
    exact last filed
  · rintro ⟨j, filed⟩
    obtain ⟨e, found⟩ := OrderedMap.exists_get?_of_mem_keys (ledger.mem_keys_iff.2 ⟨j, v, filed⟩)
    obtain ⟨_, filed'⟩ := last found
    rw [found, filed.unique filed']
    rfl

theorem DictHistory.answers (history : DictHistory limit d past h)
    (filed : h.key limit (h.value key) = some k) :
    Answers limit d past h key k := by
  have stands := history.stands
  have contains : (h.dictionary d).contains k = true ↔ ∃ j v, SetLast past k j v :=
    OrderedMap.contains_eq_true_iff.trans stands.ledger.mem_keys_iff
  refine ⟨⟨_, HeapM.run_dictGet? filed, fun v => stands.ledger.get?_iff⟩, contains, ?_, fun value there => ?_⟩
  · obtain ⟨h', run, same, -⟩ := stands.delete filed
    exact ⟨_, h', run, contains, same, .delete history filed run⟩
  · obtain ⟨h', run, -⟩ := stands.set filed there
    exact ⟨h', run, .set history filed there run⟩

theorem refuses (none : h.key limit (h.value key) = none) : Refuses limit d h key := by
  have stops : HeapM.keyOf limit key h = (.error .tooDeep, h) := by
    have reads : HeapM.read key h = (.ok (h.value key), h) := rfl
    rw [HeapM.keyOf, HeapM.run_bind reads, HeapM.bounded, HeapM.run_bind (HeapM.run_get h), none]
    rfl
  exact ⟨HeapM.run_bind_error stops, HeapM.run_bind_error stops, fun value => HeapM.run_bind_error stops⟩

/-- A dictionary is written with its entries in the order in which they are listed. -/
theorem Heap.canonical_dict_iff {n : Nat} {text : String} : h.canonical (n + 1) (.dict d) = some text ↔
    ∃ parts, List.Forall₂ (fun e part => h.entryText n e.2 = some part) (h.dictionary d).entries parts ∧
      text = "\x7b" ++ ", ".intercalate parts ++ "\x7d" := by
  have each (parts : List String) : (h.dictionary d).values.mapM (h.entryText n) = some parts ↔
      List.Forall₂ (fun e part => h.entryText n e.2 = some part) (h.dictionary d).entries parts := by
    rw [← List.forall₂_map_left_iff (R := fun e part => h.entryText n e = some part)]
    exact ⟨forall₂_of_mapM, mapM_of_each⟩
  refine Option.bind_eq_some_iff.trans (exists_congr fun parts => and_congr (each parts) ?_)
  exact Option.some_inj.trans eq_comm

end Answering

/-- A dictionary that was empty at first holds what its history says.  It lists once each key whose last
change filed it, in the order of the moments at which they were filed for the first time since they were
removed last, with the copy of the key made then and the box filed last.  It has as many keys and values as
entries and is written with them in their order.  Every operation answers as the history says. -/
theorem dictionary_tells_history {limit : Nat} {d : DictId} {past : List DictChange} {h : Heap}
    (history : DictHistory limit d past h) :
    ((h.dictionary d).keys.Nodup ∧ ∀ k, k ∈ (h.dictionary d).keys ↔ ∃ j v, SetLast past k j v) ∧
      (∃ moments : List Nat, moments.Pairwise (· < ·) ∧
        List.Forall₂ (Listed limit past) moments (h.dictionary d).entries) ∧
      ((h.dictionary d).size = (h.dictionary d).keys.length ∧
        (h.dictionary d).size = (h.dictionary d).values.length) ∧
      (∀ n text, h.canonical (n + 1) (.dict d) = some text ↔
        ∃ parts, List.Forall₂ (fun e part => h.entryText n e.2 = some part) (h.dictionary d).entries parts ∧
          text = "\x7b" ++ ", ".intercalate parts ++ "\x7d") ∧
      ∀ key, (∀ k, h.key limit (h.value key) = some k → Answers limit d past h key k) ∧
        (h.key limit (h.value key) = none → Refuses limit d h key) := by
  have ledger := history.stands.ledger
  refine ⟨⟨ledger.distinct, fun k => ledger.mem_keys_iff⟩, ledger.listed, ⟨?_, ?_⟩,
    fun n text => Heap.canonical_dict_iff, fun key => ⟨fun k => history.answers, refuses⟩⟩
  · exact (List.length_map _).symm
  · exact (List.length_map _).symm

/-- A heap with two strings, two numbers and an empty dictionary. -/
def emptyDictionary : Heap :=
  { Heap.empty with boxes := #[.str "a", .str "b", .int 1, .int 2], dicts := #[.empty] }

theorem sound_emptyDictionary : emptyDictionary.Sound where
  value := by
    rintro ⟨_ | _ | _ | _ | i⟩ <;> trivial
  items _ := nofun
  entries := by
    rintro ⟨_ | i⟩ e member <;> cases member
  fields _ := nofun

/-- A key that is removed and filed again moves to the end. -/
theorem dictionary_tells_history_moved : ∃ past h, DictHistory 2 ⟨0⟩ past h ∧
    past.map (fun c => (c.key.index, c.value.map (·.index))) =
      [(0, some 2), (1, some 2), (0, some 3), (0, none), (0, some 2)] ∧
    (h.dictionary ⟨0⟩).keys = [⟨.str, "\"b\""⟩, ⟨.str, "\"a\""⟩] ∧
    ∃ moments : List Nat, moments.Pairwise (· < ·) ∧
      List.Forall₂ (Listed 2 past) moments (h.dictionary ⟨0⟩).entries := by
  let a : Key := ⟨.str, "\"a\""⟩
  let b : Key := ⟨.str, "\"b\""⟩
  have first : DictHistory 2 ⟨0⟩ [] emptyDictionary := .start sound_emptyDictionary (by decide) rfl
  have second := first.set_snd ⟨0⟩ ⟨2⟩ a (by decide +kernel) (by decide)
  have third := second.set_snd ⟨1⟩ ⟨2⟩ b (by decide +kernel) (by decide +kernel)
  have fourth := third.set_snd ⟨0⟩ ⟨3⟩ a (by decide +kernel) (by decide +kernel)
  have fifth := fourth.delete_snd ⟨0⟩ a (by decide +kernel)
  have sixth := fifth.set_snd ⟨0⟩ ⟨2⟩ a (by decide +kernel) (by decide +kernel)
  exact ⟨_, _, sixth, rfl, by decide +kernel, (dictionary_tells_history sixth).2.1⟩

end Shiba

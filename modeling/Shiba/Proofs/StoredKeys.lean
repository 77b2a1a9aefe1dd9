import Shiba.Proofs.Keys.Access
import Shiba.Proofs.Zones.Reachable

/-!
# Stored keys stay valid

A dictionary keeps deep copies of its keys where no evaluation leads, and hands out deep copies of them.
So in every state of every run its entries are filed under what their keys are filed under, and what
`keys` lists leads back to the entries: none is left out, none is listed twice, and the order is that in
which they came in.

* `LeadsTo`: what a listed key is good for.
* `keys_lead_to_entries` is the statement, over all reachable states.
-/

namespace Shiba

open Eval

/-! ## Listing the keys -/

/-- The keys of a dictionary that files its entries as it should can be copied one after another. -/
theorem HeapM.adds_keys {h : Heap} {limit : Nat} (sound : h.Sound) (filed : h.Filed limit) (d : DictId) :
    Adds (do
      let copies ← ((h.dictionary d).values.map (·.key)).mapM (clone limit)
      return Value.list (← allocList copies.toArray)) h True fun v h' => ∃ l, v = .list l ∧
        List.Forall₂ (fun e c => h.AlikeBox e.2.key h' c) (h.dictionary d).entries
          (h'.items l).toList := by
  apply Adds.bind (Adds.mapM (S := fun k b c => h.CopiedBox k limit b c) sound _
    (fun _ grows copied => copied.grown grows) ?_)
  · intro copies h' grows sound' copied
    have there : ∀ c ∈ copies.toArray, c.index < h'.boxes.size := by
      intro c member
      obtain ⟨b, -, copied⟩ := Heap.exists_of_mem copied.flip (List.mem_toArray.1 member)
      exact copied.1.there
    apply Adds.bind (adds_allocList sound' there)
    intro l h'' grows' sound'' made
    refine .pure sound'' ⟨l, rfl, ?_⟩
    rw [made.2]
    have listed := List.forall₂_map_left_iff.1 (List.forall₂_map_left_iff.1 copied)
    exact listed.imp fun e c copied => (copied.grown grows').alike sound (grows.trans grows')
  · intro key member h' grows sound'
    obtain ⟨e, listed, rfl⟩ := List.mem_map.1 member
    obtain ⟨entry, inside, rfl⟩ := List.mem_map.1 listed
    refine (adds_clone_later limit sound (sound.entries d entry.2 listed).1 grows sound').mono
      (fun _ => ?_) fun _ _ _ _ => id
    exact Heap.isSome_canonical_of_key (filed.key d entry inside)

namespace Builtin

variable {cfg : Config} {s : State} {b : BoxId} {d : DictId}

theorem run_dictionary (holds : s.heap.value b = .dict d) : dictionary b s = (.ok d, s) := by
  have reads : Eval.read b s = (.ok (.dict d), s) := by
    rw [← holds]
    rfl
  rw [dictionary, bind_ok reads]
  rfl

theorem run_length (holds : s.heap.value b = .dict d) :
    length b s = (.ok (.int (.ofNat (s.heap.dictionary d).size)), s) := by
  rw [length, bind_ok (run_get s), holds]
  rfl

/-- The keys of a dictionary can be listed, and are deep copies of the stored ones. -/
theorem run_keyList (sound : s.heap.Sound) (filed : s.heap.Filed cfg.dataLimit)
    (holds : s.heap.value b = .dict d) : ∃ l h, keyList cfg b s = (.ok (.list l), s.withHeap h) ∧
      s.heap.Grows h ∧ List.Forall₂ (fun e c => s.heap.AlikeBox e.2.key h c)
        (s.heap.dictionary d).entries (h.items l).toList := by
  obtain ⟨result, h, run, grows, -, lists, answers⟩ := HeapM.adds_keys sound filed d
  obtain ⟨v, rfl⟩ := answers trivial
  obtain ⟨l, rfl, alike⟩ := lists v rfl
  refine ⟨l, h, ?_, grows, alike⟩
  rw [keyList, bind_ok (run_dictionary holds), bind_ok (run_get s), onHeap_apply, run]

end Builtin

/-! ## What a listed key is good for -/

/-- The box `k` holds a key of the dictionary in the box `b`: it is filed under the key of the entry `e`,
indexing with it gives the value of the entry, and deleting it removes that entry. -/
structure LeadsTo (cfg : Config) (s : State) (b : BoxId) (d : DictId) (e : Key × Entry) (k : BoxId) :
    Prop where
  filed : s.heap.key cfg.dataLimit (s.heap.value k) = some e.1
  found : ∀ {ev : Evaluators} {ctx : Context} {target key : Expr}, ev.expr ctx target s = (.ok b, s) →
    ev.expr ctx key s = (.ok k, s) → Eval.index ev cfg ctx target key s = (.ok e.2.value, s)
  deleted : Builtin.perform cfg .delete [b, k] s =
    (.ok .nil, s.withHeap (s.heap.setDictionary d ((s.heap.dictionary d).erase e.1)))

/-- A box that is filed under the key of an entry leads to it. -/
theorem leadsTo {cfg : Config} {s : State} {b k : BoxId} {d : DictId} {e : Key × Entry}
    (holds : s.heap.value b = .dict d) (distinct : (s.heap.dictionary d).keys.Nodup)
    (listed : e ∈ (s.heap.dictionary d).entries)
    (filed : s.heap.key cfg.dataLimit (s.heap.value k) = some e.1) : LeadsTo cfg s b d e k := by
  have here := OrderedMap.get?_of_mem_entries distinct listed
  refine ⟨filed, fun {ev ctx target key} isTarget isKey => ?_, ?_⟩
  · have reads : Eval.read b s = (.ok (.dict d), s) := by
      rw [← holds]
      rfl
    have finds : onHeap (HeapM.dictGet? cfg.dataLimit d k) s = (.ok (some e.2.value), s) := by
      rw [onHeap_apply, HeapM.run_dictGet? filed, here]
      rfl
    rw [Eval.index, bind_ok isTarget, bind_ok isKey, bind_ok reads]
    exact bind_ok finds
  · have contained : (s.heap.dictionary d).contains e.1 = true := by
      rw [OrderedMap.contains, here]
      rfl
    have deletes : onHeap (HeapM.dictDelete cfg.dataLimit d k) s = (.ok true,
        s.withHeap (s.heap.setDictionary d ((s.heap.dictionary d).erase e.1))) := by
      rw [onHeap_apply, HeapM.run_dictDelete filed, if_pos contained]
    change Builtin.deleteKey cfg b k s = _
    rw [Builtin.deleteKey, bind_ok (Builtin.run_dictionary holds), onHeap_bind, bind_ok deletes]
    rfl

/-- In every reachable state, every entry of every dictionary is filed under what its stored key is filed
under, and no two are filed under one key.  The keys of a dictionary can be listed; the list is as long as
the dictionary, and its elements lead to the entries one by one, in the order in which they came in. -/
theorem keys_lead_to_entries {cfg : Config} {s : State} (reachable : Reachable cfg s) :
    s.heap.Filed cfg.dataLimit ∧
      ∀ {b : BoxId} {d : DictId}, s.heap.value b = .dict d → ∃ l t,
        Builtin.perform cfg .keys [b] s = (.ok (.list l), t) ∧
          Builtin.perform cfg .len [b] t = (.ok (.int (.ofNat (t.heap.items l).size)), t) ∧
          List.Forall₂ (LeadsTo cfg t b d) (s.heap.dictionary d).entries (t.heap.items l).toList := by
  have filed := reachable.filed
  have sound := reachable.wellFormed.sound
  refine ⟨filed, fun {b d} holds => ?_⟩
  obtain ⟨l, h, lists, grows, alike⟩ := Builtin.run_keyList sound filed holds
  have there : b.index < s.heap.boxes.size := by
    by_contra absent
    rw [Heap.value, Array.getD_eq_getD_getElem?, Array.getElem?_eq_none (Nat.le_of_not_lt absent)] at holds
    cases holds
  have known : s.heap.Knows (.dict d) := holds ▸ sound.value b
  have holds' : (s.withHeap h).heap.value b = .dict d := (grows.value_eq there).trans holds
  have same : h.dictionary d = s.heap.dictionary d := grows.dictionary_eq known
  refine ⟨l, s.withHeap h, lists, ?_, ?_⟩
  · have size : (h.items l).size = (h.dictionary d).size := by
      rw [same]
      exact alike.length_eq.symm
    change Builtin.length b (s.withHeap h) = (.ok (.int (.ofNat (h.items l).size)), _)
    rw [size]
    exact Builtin.run_length holds'
  · have distinct : (h.dictionary d).keys.Nodup := same ▸ filed.distinct d
    rw [List.forall₂_iff_zip] at alike ⊢
    refine ⟨alike.1, fun {e k} member => ?_⟩
    have listed := (List.of_mem_zip member).1
    refine leadsTo holds' distinct (same ▸ listed) ?_
    exact ((alike.2 member).alike.key_eq _).trans (filed.key d e listed)

/-- The dictionary that a value is, if it is one. -/
def Value.dict? : Value → Option DictId
  | .dict d => some d
  | _ => none

theorem Value.eq_of_dict? {v : Value} {d : DictId} (same : v.dict? = some d) : v = .dict d := by
  cases v with
  | dict d' => exact congrArg Value.dict (Option.some.inj same)
  | nil | bool | int | float | str | list | struct | function | method | builtin | module | structDef =>
    cases same

/-- A list is the key of a dictionary, and its element is overwritten afterwards. -/
theorem keys_lead_to_entries_overwritten :
    let int (n : Int64) : Expr := .literal .start (.int n)
    let x : Expr := .ident .start "x"
    let run (target value : Expr) (s : State) :=
      (evalStmt .standard 9 ⟨⟨0⟩, 5⟩ (.assign .start .plain [target] [value]) s).2
    let s := run (.ident .start "d") (.dict .start [(x, int 1)])
      (run x (.list .start [int 1]) (State.initial.load (.ofSource "main" "/" "")))
    let t := run (.index .start x (int 0)) (int 2) s
    Reachable .standard t ∧ (t.heap.dictionary ⟨0⟩).size = 1 ∧ ∃ l u,
      Builtin.perform .standard .keys [⟨17⟩] t = (.ok (.list l), u) ∧
      List.Forall₂ (LeadsTo .standard u ⟨17⟩ ⟨0⟩) (t.heap.dictionary ⟨0⟩).entries
        (u.heap.items l).toList := by
  intro int x run s t
  have begun : Running .standard ⟨0⟩ (State.initial.load (.ofSource "main" "/" "")) :=
    ⟨.register .initial rfl, State.hasModule_load State.initial _⟩
  have filed : Running .standard ⟨0⟩ s := (begun.evalStmt 9 5 _).evalStmt 9 5 _
  have reachable : Reachable .standard t := (filed.evalStmt 9 5 _).reachable
  have size : (t.heap.dictionary ⟨0⟩).size = 1 := by decide +kernel
  have holds : t.heap.value ⟨17⟩ = .dict ⟨0⟩ := Value.eq_of_dict? (by decide +kernel)
  clear_value t
  obtain ⟨l, u, lists, -, lead⟩ := (keys_lead_to_entries reachable).2 holds
  exact ⟨reachable, size, l, u, lists, lead⟩

end Shiba

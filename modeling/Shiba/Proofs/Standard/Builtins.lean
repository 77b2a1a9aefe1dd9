import Shiba.Proofs.BoxesInHand

/-!
# The functions that are visible everywhere

They are in the first boxes of a run, under names of their own.  No program can write into these boxes, as no
name, element, entry or field is one of them; so in every state of a run the names mean what they meant at the
start.

* `State.Furnished`: the first boxes hold what they held at the start.  It is what a step preserves.
* `Reachable.exists_builtin` is the statement.
-/

namespace Shiba

/-- The first boxes are found under the names and hold the values that they had at the start. -/
structure State.Furnished (s : State) : Prop where
  builtins : s.builtins = State.initial.builtins
  there : ∀ b, State.initial.HasBox b → s.HasBox b
  value : ∀ b, State.initial.HasBox b → s.heap.value b = State.initial.heap.value b

/-- The first boxes are not those of the program, and only those are overwritten. -/
theorem State.stable_furnished : State.Stable State.Furnished where
  step {s op H K} allowed furnished := by
    have later := op.extends s
    refine ⟨later.builtins.trans furnished.builtins,
      fun b first => Nat.lt_of_lt_of_le (furnished.there b first) later.boxes, fun b first => ?_⟩
    refine (Operation.value_apply (furnished.there b first) fun written => ?_).trans (furnished.value b first)
    cases op with
    | write b' v =>
      cases written
      have own : s.builtins.size ≤ b.index := allowed.1.1
      rw [furnished.builtins] at own
      exact absurd first (Nat.not_lt.2 own)
    | _ => cases written
  modifyScope m f furnished := ⟨furnished.builtins, furnished.there, furnished.value⟩
  load _ furnished := ⟨furnished.builtins, furnished.there, furnished.value⟩

theorem Reachable.furnished {cfg : Config} {s : State} (reachable : Reachable cfg s) : s.Furnished := by
  refine (reachable.upheld (.stable State.stable_furnished)
    ⟨State.wellFormed_initial, rfl, fun _ => id, fun _ _ => rfl⟩ ?_ ?_).2
  · exact fun holds empty =>
      ⟨holds.1.register empty, holds.2.builtins, holds.2.there, holds.2.value⟩
  · exact fun lines holds => ⟨holds.1.write lines, holds.2.builtins, holds.2.there, holds.2.value⟩

/-- In every state of a run, the name of a function that is visible everywhere is that of a box with the
function. -/
theorem Reachable.exists_builtin {cfg : Config} {s : State} {f : Builtin} (reachable : Reachable cfg s)
    (visible : f ∈ State.standardBuiltins) :
    ∃ b, s.builtins.get? f.name = some b ∧ s.HasBox b ∧ s.heap.value b = .builtin f := by
  have furnished := reachable.furnished
  have initially : ∃ b, State.initial.builtins.get? f.name = some b ∧ State.initial.HasBox b ∧
      State.initial.heap.value b = .builtin f := by
    simp only [State.standardBuiltins, List.mem_cons, List.not_mem_nil, or_false] at visible
    have first {i : Nat} (lt : i < 8) : State.initial.HasBox ⟨i⟩ := lt
    rcases visible with rfl | rfl | rfl | rfl | rfl | rfl | rfl | rfl <;>
      exact ⟨_, rfl, first (by decide), rfl⟩
  obtain ⟨b, named, first, holds⟩ := initially
  exact ⟨b, furnished.builtins ▸ named, furnished.there b first, (furnished.value b first).trans holds⟩

end Shiba

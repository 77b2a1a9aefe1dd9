import Shiba.Proofs.Reachable
import Shiba.Proofs.Zones.Stmt

/-!
# The zones of reachable states

Every reachable state has zones, under the policy that leaves nothing out: the boxes of the functions
visible everywhere are old, the keys that dictionaries keep lie in their own zone, and the rest is live.

* `Policy.everything` leaves nothing out.
* `Guarded.visited`: a state inside a run has zones, because otherwise no outcome could depend on it.
* `Reachable.guarded` is the statement.
-/

namespace Shiba

/-- Nothing is left out. -/
def Policy.everything (cfg : Config) : Policy where
  config := cfg
  full := True
  names _ := True
  modules _ := True
  part s := {b | b ∈ s.objs}
  objs listed := listed
  lookup _ found := Scope.mem_objs_of_getObj? found
  setObj {s name b _} listed := eq_or_mem_of_coe_le (s.objs_setObj_le name b) listed
  declareObj {s name b _} listed := eq_or_mem_of_coe_le (s.objs_declareObj_le name b) listed
  setStruct {s name d _} listed := s.objs_setStruct name d ▸ listed
  pushBlock {s _} listed := s.objs_pushBlock ▸ listed
  dropBlock {s _} listed :=
    Multiset.mem_coe.1 (Multiset.mem_of_le s.objs_dropBlock_le (Multiset.mem_coe.2 listed))
  whole _ := ⟨fun _ => trivial, fun _ => trivial, fun listed => listed⟩

namespace Guarded

variable {P : Policy} {σ : Guarded P} {t : State} {fuel : Nat} {α : Type}

/-! ## States inside a run -/

/-- Evaluators that differ from those of the machine only in a state without zones keep the contract with
them. -/
theorem contract_alikeBut {ev' : Evaluators} (alike : (evaluators P.config fuel).AlikeBut t ev')
    (never : ∀ σ : Guarded P, σ.state ≠ t) : Contract P (evaluators P.config fuel) ev' := by
  have contract := contract P fuel
  constructor
  · intro σ ctx e here admitted
    have ends := contract.expr ctx here admitted
    rw [Safe] at ends ⊢
    rw [alike.expr ctx e σ.state (never σ)]
    exact ends
  · intro σ ctx s here runs
    have ends := contract.stmt ctx here runs
    rw [Safe] at ends ⊢
    rw [alike.stmt ctx s σ.state (never σ)]
    exact ends

/-- A state that a construct hands to its parts has zones. -/
theorem visited {construct : Evaluators → Eval α} {Q : α → Guarded P → Prop}
    (ends : ∀ {ev'}, Contract P (evaluators P.config fuel) ev' →
      σ.Safe (construct (evaluators P.config fuel)) (construct ev') Q)
    (visited : Visits construct (evaluators P.config fuel) σ.state t) :
    ∃ τ : Guarded P, τ.state = t := by
  rcases visited with ⟨ev', alike, differ⟩
  by_contra missing
  -- without zones in `t`, no outcome could depend on it
  have never : ∀ τ : Guarded P, τ.state ≠ t := fun τ same => missing ⟨τ, same⟩
  obtain ⟨result, τ, run, run', -, -⟩ := ends (contract_alikeBut alike never)
  exact differ (run'.trans run.symm)

/-- A step that is safe ends in a state with zones. -/
theorem Safe.ended {a b : Eval α} {Q : α → Guarded P → Prop} (safe : σ.Safe a b Q) :
    ∃ τ : Guarded P, τ.state = (a σ.state).2 := by
  obtain ⟨result, τ, run, -, -, -⟩ := safe
  exact ⟨τ, (congrArg Prod.snd run).symm⟩

end Guarded

/-! ## Reachable states -/

namespace Guarded

variable {cfg : Config}

/-- At the start there are only the functions visible everywhere. -/
def initial (cfg : Config) : Guarded (.everything cfg) where
  state := .initial
  zones := .allOld
  wf := State.wellFormed_initial
  value b _ := Zoning.fits_allOld _ _
  items l b member := nomatch State.hasList_of_mem member
  entries d e member := by
    obtain ⟨entry, listed, -⟩ := List.mem_map.1 member
    exact nomatch State.hasDict_of_mem listed
  fields i b member := nomatch State.hasInstance_of_mem member
  filed :=
    { key := fun d e member => nomatch State.hasDict_of_mem member
      distinct := fun d => List.nodup_nil }
  builtins b isBuiltin := by
    have listed : State.initial.heap.value b ∈ State.initial.heap.boxes :=
      State.getD_mem (Nat.lt_of_lt_of_le isBuiltin State.wellFormed_initial.builtinBoxes)
    obtain ⟨f, -, holds⟩ := List.mem_map.1 (Array.mem_toList_iff.2 listed)
    exact ⟨rfl, f, holds.symm⟩
  scopes m there := nomatch there

/-- A module without names is registered, also in place of one with the same key. -/
def register (σ : Guarded (.everything cfg)) {M : Module} (empty : M.scope = .empty) :
    Guarded (.everything cfg) :=
  { σ with
    state := σ.state.load M
    wf := σ.wf.register empty
    scopes := fun m there within b listed => by
      by_cases old : σ.state.HasModule m
      · rw [State.load, Registry.module_load_of_lt old] at listed
        exact σ.scopes m old within b listed
      · rw [State.eq_next_of_hasModule_load there old, State.load, Registry.module_load_next,
          empty] at listed
        cases listed }

/-- Lines are written or taken away. -/
def rewrite (σ : Guarded (.everything cfg)) (lines : Array Line) : Guarded (.everything cfg) :=
  { σ with
    state := { σ.state with output := lines }
    wf := σ.wf.write lines }

end Guarded

/-- Every reachable state has zones. -/
theorem Reachable.guarded {cfg : Config} {s : State} (reachable : Reachable cfg s) :
    ∃ σ : Guarded (.everything cfg), σ.state = s := by
  induction reachable with
  | initial => exact ⟨.initial cfg, rfl⟩
  | register _ empty ih =>
    obtain ⟨σ, rfl⟩ := ih
    exact ⟨σ.register empty, rfl⟩
  | output lines _ ih =>
    obtain ⟨σ, rfl⟩ := ih
    exact ⟨σ.rewrite lines, rfl⟩
  | exprEnd fuel e _ there ih =>
    obtain ⟨σ, rfl⟩ := ih
    exact ((Guarded.contract _ fuel).expr _ (Guarded.here_of_full trivial there) (.inl trivial)).ended
  | stmtEnd fuel stmt _ there ih =>
    obtain ⟨σ, rfl⟩ := ih
    exact ((Guarded.contract _ fuel).stmt _ (Guarded.here_of_full trivial there) (.inl trivial)).ended
  | exprPart _ there visited ih =>
    obtain ⟨σ, rfl⟩ := ih
    refine Guarded.visited (Q := fun b τ => τ.Seen b) (fun contract => ?_) visited
    exact Guarded.Safe.expr contract (Guarded.here_of_full trivial there) (.inl trivial)
  | stmtPart _ there visited ih =>
    obtain ⟨σ, rfl⟩ := ih
    refine Guarded.visited (Q := fun flow τ => τ.SeenFlow flow) (fun contract => ?_) visited
    exact Guarded.Safe.stmt contract (Guarded.here_of_full trivial there) _ (.inl trivial)

/-- In a reachable state, dictionaries file their entries under what their keys are filed under. -/
theorem Reachable.filed {cfg : Config} {s : State} (reachable : Reachable cfg s) :
    s.heap.Filed cfg.dataLimit := by
  obtain ⟨σ, rfl⟩ := reachable.guarded
  exact σ.filed

end Shiba

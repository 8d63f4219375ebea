/-
# Unrolling a diagram

Layer after layer, the pending nodes are selected and fitted, and the kept
ones expanded on a variable that is no longer free afterwards.  The diagram is
complete when no node is kept or no variable is chosen.  Each round uses up a
free variable, so there are at most as many rounds as there are of them.
-/

import DiagramSearch.Diagram.Expansion
import DiagramSearch.Diagram.Fitting

namespace DiagramSearch

/-- A diagram after its layers were unrolled, as far as that went. -/
structure Unrolled (σ κ V : Type) where
  session : Session σ κ V
  diagram : Diagram σ V
  fault : Option (Fault σ V)

variable {σ κ V : Type} [BEq σ] [Hashable σ] [BEq κ] [Value V]

/-- Selects the nodes of the pending layer and fits it to its width. -/
def settleLayer (audit : Audit σ κ V) (r : Request σ κ V) (session : Session σ κ V)
    (d : Diagram σ V) : Fitted σ κ V :=
  let selected := select r session d.layers.isEmpty d.pending
  fit audit r d.path d.layers selected

/-- The last exact layer, once a layer was reduced below the given ones. -/
def Diagram.lastExactAfter (d : Diagram σ V) (reduced : Bool) : Option Nat :=
  match d.lastExact with
  | some l => some l
  | none => if reduced then some (d.layers.length - 1) else none

namespace Diagram

omit [BEq σ] [Hashable σ] [BEq κ] [Value V]

variable {d : Diagram σ V} {reduced : Bool}

/-- There is none as long as no layer was reduced. -/
theorem lastExactAfter_eq_none_iff :
    d.lastExactAfter reduced = none ↔ d.lastExact = none ∧ reduced = false := by
  unfold lastExactAfter
  cases d.lastExact with
  | some l => simp
  | none => cases reduced <;> simp

/-- It is the one above the first layer that was reduced. -/
theorem lastExactAfter_eq_some_iff {l : Nat} : d.lastExactAfter reduced = some l ↔
    d.lastExact = some l ∨ d.lastExact = none ∧ reduced = true ∧ d.layers.length - 1 = l := by
  unfold lastExactAfter
  cases d.lastExact with
  | some l' => simp
  | none => cases reduced <;> simp

end Diagram

/-- Completes the pending layer and unrolls the layers below it, at most the
given number of them. -/
def unroll (audit : Audit σ κ V) (r : Request σ κ V) :
    Nat → Variables → Session σ κ V → Diagram σ V → Unrolled σ κ V
  | rounds, free, session, d =>
    let choice := r.branching free (d.pending.toList.map (·.state))
    let settled := settleLayer audit r session d
    let lastExact := d.lastExactAfter settled.reduced
    match settled.fault with
    | some fault => ⟨settled.session, { d with pending := settled.layer, lastExact }, some fault⟩
    | none =>
      let session := settled.session.note (.layerDone d.layers.length settled.kept.length)
      match settled.kept, rounds, choice with
      | first :: rest, rounds + 1, some var =>
        let x : Expansion σ κ V := ⟨session, settled.layer, #[], none⟩
        let x := (first :: rest).foldl (Expansion.expand r free var) x
        let d := { d with layers := x.layer :: d.layers, pending := x.pending, lastExact }
        match x.fault with
        | some fault => ⟨x.session, d, some fault⟩
        | none => unroll audit r rounds (free.erase var) x.session d
      | _, _, _ =>
        ⟨session, { d with layers := settled.layer :: d.layers, pending := #[], lastExact }, none⟩

/-- Unrolls the diagram of the requested sub-problem. -/
def Request.unroll (r : Request σ κ V) (audit : Audit σ κ V) (session : Session σ κ V) :
    Unrolled σ κ V :=
  let free := r.residual.free r.model.problem.variables
  DiagramSearch.unroll audit r free.size free session (Diagram.rooted r.residual)

end DiagramSearch

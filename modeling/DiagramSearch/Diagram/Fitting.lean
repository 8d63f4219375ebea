/-
# Fitting a layer to its width

A restricted diagram drops the nodes in excess.  A relaxed one merges them: the
merged node takes over their edges, at relaxed costs.  If a kept node already
has the merged state, that node takes them over.

What a merge brought together is handed to an audit, which may find that the
merged node is worth less than one that it absorbed.
-/

import DiagramSearch.Diagram.Selection

namespace DiagramSearch

/-- Judges a merge, given as the merged sub-problem and the absorbed ones. -/
abbrev Audit (σ κ V : Type) :=
  Session σ κ V → Subproblem σ V → List (Subproblem σ V) → Session σ κ V × Option (Fault σ V)

/-- A layer that was fitted to its width. -/
structure Fitted (σ κ V : Type) where
  session : Session σ κ V
  layer : Layer σ V
  /-- The positions of the nodes that remain. -/
  kept : List Nat
  /-- Whether nodes were dropped or merged. -/
  reduced : Bool
  fault : Option (Fault σ V)

variable {σ κ V : Type} [BEq σ] [BEq κ] [Value V]

/-- Marks a node as dropped or merged into another. -/
def Layer.delete (layer : Layer σ V) (position : Nat) : Layer σ V :=
  layer.modify position fun n => { n with fate := .deleted }

omit [BEq σ] [BEq κ] [Value V] in
/-- Dropping nodes marks them and no other. -/
theorem Layer.getElem?_foldl_delete (cs : List (Candidate σ V)) (layer : Layer σ V) (j : Nat) :
    (cs.foldl (fun layer c => layer.delete c.position) layer)[j]? = layer[j]?.map fun n =>
      if j ∈ cs.map (·.position) then { n with fate := .deleted } else n := by
  induction cs generalizing layer with
  | nil => simp
  | cons c cs ih =>
    rw [List.foldl_cons, ih, Layer.delete, Array.getElem?_modify]
    by_cases hj : c.position = j
    · subst hj
      cases layer[c.position]? <;> simp
    · rw [if_neg hj]
      simp only [List.map_cons, List.mem_cons, Ne.symm hj, false_or]

/-- Drops all but the first nodes of the reduction's order. -/
def dropExcess (r : Request σ κ V) (width : Nat) (s : Selection σ κ V) : Fitted σ κ V :=
  let sorted := r.reduction.sort width r.ranking s.kept
  let dropped := sorted.drop width
  { session := (s.session.record (.sorted r.kind width sorted)).note (.dropped dropped.length)
    layer := dropped.foldl (fun layer c => layer.delete c.position) s.layer
    kept := (sorted.take width).map (·.position)
    reduced := true
    fault := none }

/-- Leads the edges of an absorbed node to the merged one, at relaxed costs. -/
def redirect (r : Request σ κ V) (parents : Layer σ V) (merged : σ) (target : Nat)
    (layer : Layer σ V) (absorbed : Candidate σ V) : Layer σ V :=
  match layer[absorbed.position]? with
  | none => layer
  | some n =>
    n.inbound.foldl (fun layer e =>
      match parents[e.source]? with
      | none => layer
      | some parent =>
        let cost := r.model.relaxation.relax parent.state n.state merged e.decision e.cost
        layer.modify target fun m => m.attach parent { e with cost })
      (layer.delete absorbed.position)

/-- The sub-problem of a node of a layer whose parents are the first of the
given layers. -/
def Layer.residual? (layer : Layer σ V) (path : Path) (above : List (Layer σ V))
    (position : Nat) : Option (Subproblem σ V) :=
  layer[position]?.map fun n => n.residual (path ++ Diagram.climbFrom above n)

/-- Merges all but the first nodes of the reduction's order. -/
def mergeExcess (audit : Audit σ κ V) (r : Request σ κ V) (path : Path) (above : List (Layer σ V))
    (width : Nat) (s : Selection σ κ V) : Fitted σ κ V :=
  let sorted := r.reduction.sort (width - 1) r.ranking s.kept
  let kept := sorted.take (width - 1)
  let absorbed := sorted.drop (width - 1)
  let merged := r.model.relaxation.merge (absorbed.map (·.state))
  let depth := ((absorbed.head?.bind fun c => s.layer[c.position]?).map (·.depth)).getD 0
  let recycled := (kept.find? fun c => c.state == merged).map (·.position)
  let target := recycled.getD s.layer.size
  let layer :=
    match recycled with
    | some _ => s.layer
    | none => s.layer.push (.bare merged depth Value.negInf Value.posInf false)
  let layer := layer.modify target fun n => { n with merged := true, exact := false }
  let layer := absorbed.foldl (redirect r (above.headD #[]) merged target) layer
  let session :=
    (s.session.record (.sorted r.kind (width - 1) sorted)).note (.merged absorbed.length)
  let positions := kept.map (·.position) ++ (if recycled.isSome then [] else [target])
  let parts := (absorbed.map (·.position)).filterMap (Layer.residual? layer path above)
  let verdict :=
    match Layer.residual? layer path above target with
    | some m => audit session m parts
    | none => (session, none)
  { session := verdict.1
    layer
    kept := positions
    reduced := true
    fault := verdict.2 }

/-- Reduces a layer that is too wide, as the kind of the diagram asks.  The
first layer below the root is never merged, so the root is in no cut-set. -/
def fit (audit : Audit σ κ V) (r : Request σ κ V) (path : Path) (above : List (Layer σ V))
    (s : Selection σ κ V) : Fitted σ κ V :=
  let width := max r.width 1
  let whole : Fitted σ κ V := ⟨s.session, s.layer, s.kept.map (·.position), false, none⟩
  if s.kept.length ≤ width then whole
  else
    match r.kind with
    | .exact => whole
    | .restricted => dropExcess r width s
    | .relaxed => if 1 < above.length then mergeExcess audit r path above width s else whole

end DiagramSearch

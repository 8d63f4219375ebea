/-
# The transitions of a layer

Where transitions are pure, an expansion does nothing but list the decisions that may be
taken in the nodes of a layer, node after node, and lead each of them to the node of its
state.  So the edges of a node that was just reached are the transitions to its state, in the
order in which they were taken, and no transition is without a node.

* `Node.berth`: descent, fate and rough bound, which is all that the transitions of a node
  depend on;
* `Request.transitions`: the list of them, `mem_transitions` for its members;
* `Collects`: the nodes that a list of transitions leads to, `Collects.connect` for one more;
* `Fitted.expansion_unfolded`: **an expansion leads all transitions of a layer to their states.**
-/

import DiagramSearch.Proofs.Complying

namespace DiagramSearch

variable {σ κ V : Type}

/-! ### Nodes and the transitions that are taken in them -/

/-- What a node knows of where it comes from, what became of it, and its rough bound. -/
structure Berth (σ V : Type) extends Station σ V where
  roughBound : V

/-- Descent, fate and rough bound. -/
def Node.berth (n : Node σ V) : Berth σ V := ⟨n.station, n.roughBound⟩

theorem berth_outlasts : Outlasts (Node.berth (σ := σ) (V := V)) where
  cutset _ _ := rfl
  threshold _ _ := rfl
  borrowed _ _ := rfl
  tail _ _ := rfl

theorem station_of_berth {layer layer' : Layer σ V}
    (h : layer.map Node.berth = layer'.map Node.berth) :
    layer.map Node.station = layer'.map Node.station := by
  have hmap := congrArg (Array.map Berth.toStation) h
  rwa [Array.map_map, Array.map_map] at hmap

/-- A decision that was taken in a node: the state that it leads to, and the edge. -/
structure Transition (σ V : Type) where
  state : σ
  edge : Edge V

section Transitions

variable [Value V] (r : Request σ κ V) (x : Nat)

/-- The transitions that are taken in a node of a layer, if its bound does not rule them
out. -/
def Request.transitionsFrom (j : Nat) (p : Berth σ V) : List (Transition σ V) :=
  if p.longest + p.roughBound ≤ r.toBeat then []
  else (r.model.problem.domain x p.state).map fun d =>
    ⟨r.model.problem.transition 0 p.state d, j, d, r.model.problem.cost p.state d⟩

/-- Those that are taken in the nodes at some places of a layer. -/
def Request.transitions (parents : Array (Berth σ V)) (places : List Nat) :
    List (Transition σ V) :=
  places.flatMap fun j => (parents[j]?.map (r.transitionsFrom x j)).getD []

variable {r x} {parents : Array (Berth σ V)} {places : List Nat} {t : Transition σ V}

theorem Request.mem_transitions : t ∈ r.transitions x parents places ↔
    ∃ j ∈ places, ∃ p, parents[j]? = some p ∧ ¬p.longest + p.roughBound ≤ r.toBeat ∧
      ∃ d ∈ r.model.problem.domain x p.state,
        t = ⟨r.model.problem.transition 0 p.state d, j, d, r.model.problem.cost p.state d⟩ := by
  unfold transitions
  rw [List.mem_flatMap]
  refine exists_congr fun j => and_congr_right fun _ => ?_
  cases parents[j]? with
  | none => simp
  | some p =>
    simp only [Option.map_some, Option.getD_some, transitionsFrom, Option.some.injEq,
      exists_eq_left']
    by_cases hle : p.longest + p.roughBound ≤ r.toBeat
    · simp [hle]
    · simp [hle, eq_comm]

theorem Request.transitions_append (places places' : List Nat) :
    r.transitions x parents (places ++ places') =
      r.transitions x parents places ++ r.transitions x parents places' :=
  List.flatMap_append

/-- Only the nodes at those places matter. -/
theorem Request.transitions_congr {parents' : Array (Berth σ V)}
    (h : ∀ j ∈ places, parents[j]? = parents'[j]?) :
    r.transitions x parents places = r.transitions x parents' places :=
  List.flatMap_congr fun j hj => by rw [h j hj]

end Transitions

/-! ### The nodes that transitions lead to -/

section Collect

variable [BEq σ]

/-- The edges that lead to a state. -/
def Transition.edgesTo (ts : List (Transition σ V)) (state : σ) : List (Edge V) :=
  (ts.filter fun t => t.state == state).map (·.edge)

/-- Nodes, each with a state of its own, that have the edges of some transitions to their
states, the latest first. -/
structure Collects (ts : List (Transition σ V)) (layer : Layer σ V) : Prop where
  distinct : ∀ (i j : Nat) m n, layer[i]? = some m → layer[j]? = some n →
    (m.state == n.state) = true → i = j
  reached : ∀ t ∈ ts, ∃ n ∈ layer, (n.state == t.state) = true
  present : ∀ n ∈ layer, n.fate ≠ .deleted ∧ n.merged = false
  edges : ∀ n ∈ layer, n.inbound = (Transition.edgesTo ts n.state).reverse

/-- Leads a transition, taken in a node of a layer, to the node of its state. -/
def Layer.lead [Hashable σ] [Value V] (layer pending : Layer σ V) (t : Transition σ V) :
    Layer σ V :=
  match layer[t.edge.source]? with
  | some p => pending.connect p t.state t.edge
  | none => pending

variable {ts : List (Transition σ V)} {t : Transition σ V} {layer pending : Layer σ V}

theorem Transition.edgesTo_concat (state : σ) : edgesTo (ts ++ [t]) state =
    edgesTo ts state ++ if t.state == state then [t.edge] else [] := by
  unfold edgesTo
  rw [List.filter_append, List.map_append, List.filter_singleton]
  split <;> simp [*]

theorem Transition.mem_edgesTo {state : σ} {e : Edge V} :
    e ∈ edgesTo ts state ↔ ∃ t ∈ ts, (t.state == state) = true ∧ t.edge = e := by
  unfold edgesTo
  simp only [List.mem_map, List.mem_filter, and_assoc]

theorem collects_nil : Collects ([] : List (Transition σ V)) (#[] : Layer σ V) where
  distinct _ _ _ _ hi := nomatch hi
  reached _ ht := absurd ht List.not_mem_nil
  present _ hn := absurd hn (Array.not_mem_empty _)
  edges _ hn := absurd hn (Array.not_mem_empty _)

variable [EquivBEq σ]

variable [Value V]

section Attach

variable {parent n : Node σ V} {e : Edge V} {j k : Nat}

omit [BEq σ] [EquivBEq σ] in
/-- Where one node took an edge, the others are as they were. -/
theorem Layer.cases_modify_attach
    (hn : (pending.modify k fun m => m.attach parent e)[j]? = some n) :
    ∃ m, pending[j]? = some m ∧ n.state = m.state ∧
      (k = j ∧ n = m.attach parent e ∨ k ≠ j ∧ n = m) := by
  rw [Array.getElem?_modify] at hn
  split at hn
  · rename_i hkj
    obtain ⟨m, hm, rfl⟩ := Option.map_eq_some_iff.1 hn
    exact ⟨m, hm, Node.attach_state m parent e, .inl ⟨hkj, rfl⟩⟩
  · rename_i hkj
    exact ⟨n, hn, rfl, .inr ⟨hkj, rfl⟩⟩

omit [BEq σ] [EquivBEq σ] in
/-- And none of them is gone. -/
theorem Layer.exists_mem_modify_attach (hn : n ∈ pending) :
    ∃ m ∈ pending.modify k fun m => m.attach parent e, m.state = n.state := by
  obtain ⟨j, hj⟩ := Array.mem_iff_getElem?.1 hn
  by_cases hkj : k = j
  · refine ⟨n.attach parent e, Array.mem_of_getElem? (i := j) ?_, Node.attach_state n parent e⟩
    rw [Array.getElem?_modify, if_pos hkj, hj, Option.map_some]
  · refine ⟨n, Array.mem_of_getElem? (i := j) ?_, rfl⟩
    rw [Array.getElem?_modify, if_neg hkj, hj]

end Attach

/-- A transition to a state that was reached before: its node takes the edge, and no other
node has the state. -/
theorem Collects.joined (h : Collects ts pending) {k : Nat} {m : Node σ V} (parent : Node σ V)
    (hk : pending[k]? = some m) (hstate : (m.state == t.state) = true) :
    Collects (ts ++ [t]) (pending.modify k fun n => n.attach parent t.edge) := by
  refine ⟨fun i j a b ha hb heq => ?_, fun u hu => ?_, fun n hn => ?_, fun n hn => ?_⟩
  · obtain ⟨a', ha', hastate, _⟩ := Layer.cases_modify_attach ha
    obtain ⟨b', hb', hbstate, _⟩ := Layer.cases_modify_attach hb
    exact h.distinct i j a' b' ha' hb' (hastate ▸ hbstate ▸ heq)
  · have hold : ∃ m' ∈ pending, (m'.state == u.state) = true := by
      rcases List.mem_append.1 hu with hu | hu
      · exact h.reached u hu
      · obtain rfl := List.mem_singleton.1 hu
        exact ⟨m, Array.mem_of_getElem? hk, hstate⟩
    obtain ⟨m', hm', heq⟩ := hold
    obtain ⟨n, hn, hsame⟩ := Layer.exists_mem_modify_attach hm'
    exact ⟨n, hn, hsame ▸ heq⟩
  · obtain ⟨j, hj⟩ := Array.mem_iff_getElem?.1 hn
    obtain ⟨m', hm', _, ⟨_, rfl⟩ | ⟨_, rfl⟩⟩ := Layer.cases_modify_attach hj
    · rw [Node.attach_fate, Node.attach_merged]
      exact h.present m' (Array.mem_of_getElem? hm')
    · exact h.present n (Array.mem_of_getElem? hm')
  · obtain ⟨j, hj⟩ := Array.mem_iff_getElem?.1 hn
    obtain ⟨m', hm', _, ⟨rfl, rfl⟩ | ⟨hkj, rfl⟩⟩ := Layer.cases_modify_attach hj
    · obtain rfl := Option.some.inj (hk.symm.trans hm')
      rw [Node.attach_inbound, Node.attach_state, Transition.edgesTo_concat,
        h.edges m (Array.mem_of_getElem? hk), if_pos (BEq.symm hstate), List.reverse_concat]
    · have hother : ¬(t.state == n.state) = true := fun heq =>
        hkj (h.distinct k j m n hk hm' (BEq.trans hstate heq))
      rw [Transition.edgesTo_concat, if_neg hother, List.append_nil]
      exact h.edges n (Array.mem_of_getElem? hm')

omit [Value V] in
/-- A transition to a state that was not reached before. -/
theorem Collects.created (h : Collects ts pending) {n : Node σ V} (hfate : n.fate ≠ .deleted)
    (hmerged : n.merged = false) (hstate : n.state = t.state) (hinbound : n.inbound = [t.edge])
    (hnew : ∀ m ∈ pending, (m.state == t.state) = false) :
    Collects (ts ++ [t]) (pending.push n) := by
  have hapart : ∀ m ∈ pending, ¬(m.state == t.state) = true := fun m hm =>
    Bool.eq_false_iff.1 (hnew m hm)
  refine ⟨fun i j a b hi hj heq => ?_, fun u hu => ?_, fun m hm => ?_, fun m hm => ?_⟩
  · rw [Array.getElem?_push] at hi hj
    split at hi <;> split at hj
    · rename_i hisize hjsize
      exact hisize.trans hjsize.symm
    · obtain rfl := Option.some.inj hi
      exact absurd (hstate ▸ BEq.symm heq) (hapart b (Array.mem_of_getElem? hj))
    · obtain rfl := Option.some.inj hj
      exact absurd (hstate ▸ heq) (hapart a (Array.mem_of_getElem? hi))
    · exact h.distinct i j a b hi hj heq
  · rcases List.mem_append.1 hu with hu | hu
    · obtain ⟨m, hm, heq⟩ := h.reached u hu
      exact ⟨m, Array.mem_push.2 (.inl hm), heq⟩
    · obtain rfl := List.mem_singleton.1 hu
      exact ⟨n, Array.mem_push.2 (.inr rfl), hstate ▸ BEq.rfl⟩
  · rcases Array.mem_push.1 hm with hm | rfl
    · exact h.present m hm
    · exact ⟨hfate, hmerged⟩
  · rw [Transition.edgesTo_concat]
    rcases Array.mem_push.1 hm with hm | rfl
    · rw [if_neg fun heq => hapart m hm (BEq.symm heq), List.append_nil]
      exact h.edges m hm
    · -- No transition before led to the state.
      have hnil : Transition.edgesTo ts m.state = [] := by
        unfold Transition.edgesTo
        rw [List.map_eq_nil_iff, List.filter_eq_nil_iff]
        intro u hu heq
        obtain ⟨k, hk, hksame⟩ := h.reached u hu
        exact hapart k hk (hstate ▸ BEq.trans hksame heq)
      rw [hnil, hstate, if_pos BEq.rfl, hinbound]
      rfl

variable [Hashable σ] [LawfulHashable σ]

/-- **One more transition.** -/
theorem Collects.connect (h : Collects ts pending) (parent : Node σ V) (t : Transition σ V) :
    Collects (ts ++ [t]) (pending.connect parent t.state t.edge) := by
  rcases Layer.connect_cases pending parent t.state t.edge with ⟨k, m, hk, hsame, heq⟩ |
    ⟨hnone, heq⟩
  · rw [heq]
    exact h.joined parent hk (sameState_eq_beq m.state t.state ▸ hsame)
  · rw [heq]
    refine h.created ?_ (Node.attach_merged _ parent _) (Node.attach_state _ parent _)
      (Node.attach_inbound _ parent _) fun m hm => ?_
    · rw [Node.attach_fate]
      exact nofun
    · rw [← sameState_eq_beq]
      exact hnone m hm

/-- **All transitions of a layer.** -/
theorem collects_foldl (ts : List (Transition σ V))
    (h : ∀ t ∈ ts, ∃ p, layer[t.edge.source]? = some p) :
    Collects ts (ts.foldl layer.lead #[]) := by
  induction ts using List.reverseRecOn with
  | nil => exact collects_nil
  | append_singleton ts t ih =>
    obtain ⟨p, hp⟩ := h t (List.mem_append_right ts List.mem_cons_self)
    rw [List.foldl_append]
    show Collects _ (layer.lead (ts.foldl layer.lead #[]) t)
    rw [Layer.lead, hp]
    exact (ih fun u hu => h u (List.mem_append_left _ hu)).connect p t

end Collect

/-! ### Expanding a layer -/

section Expand

variable [BEq σ] [Hashable σ] [Value V] {r : Request σ κ V} {layer layer' pending : Layer σ V}
  {x : Nat}

/-- An edge depends on the descent of the node that it starts from, and on nothing else of
it. -/
theorem Layer.connect_congr {parent parent' : Node σ V} (h : parent.lineage = parent'.lineage)
    (pending : Layer σ V) (state : σ) (e : Edge V) :
    pending.connect parent state e = pending.connect parent' state e := by
  have hlongest : parent.longest = parent'.longest := congrArg Lineage.longest h
  have hdepth : parent.depth = parent'.depth := congrArg Lineage.depth h
  have hexact : parent.exact = parent'.exact := congrArg Lineage.exact h
  unfold connect Node.attach
  rw [hlongest, hdepth, hexact]

theorem Layer.lead_congr (h : layer.map Node.lineage = layer'.map Node.lineage) :
    layer.lead = layer'.lead := by
  funext pending t
  have hget := congrArg (·[t.edge.source]?) h
  simp only [Array.getElem?_map] at hget
  unfold lead
  cases hp : layer[t.edge.source]? with
  | none =>
    rw [hp, Option.map_none] at hget
    rw [Option.map_eq_none_iff.1 hget.symm]
  | some p =>
    rw [hp, Option.map_some] at hget
    obtain ⟨p', hp', hsame⟩ := Option.map_eq_some_iff.1 hget.symm
    rw [hp']
    exact Layer.connect_congr hsame.symm pending t.state t.edge

/-- A layer of which the nodes at some places were expanded. -/
structure Unfolded (r : Request σ κ V) (x : Nat) (free : Variables) (layer : Layer σ V)
    (places : List Nat) (y : Expansion σ κ V) : Prop where
  fault : y.fault = none
  bounded : ∀ j : Nat, y.layer[j]? = layer[j]?.map fun n =>
    if j ∈ places then { n with roughBound := r.model.relaxation.upperBound n.state free } else n
  pending : y.pending =
    (r.transitions x (y.layer.map Node.berth) places).foldl y.layer.lead #[]

variable [ReflBEq σ] (hpure : r.model.problem.Pure)
include hpure

/-- The decisions that are taken in one node. -/
theorem Expansion.foldl_branch (ds : List Decision) {j : Nat} {parent p : Node σ V}
    {y : Expansion σ κ V} (hfault : y.fault = none) (hp : y.layer[j]? = some p)
    (hsame : parent.lineage = p.lineage) :
    (ds.foldl (branch r.model.problem r.checks j parent) y).fault = none ∧
    (ds.foldl (branch r.model.problem r.checks j parent) y).layer = y.layer ∧
    (ds.foldl (branch r.model.problem r.checks j parent) y).pending =
      (ds.map fun d => (⟨r.model.problem.transition 0 p.state d, j, d,
        r.model.problem.cost p.state d⟩ : Transition σ V)).foldl y.layer.lead y.pending := by
  have hstate : parent.state = p.state := congrArg Lineage.state hsame
  induction ds generalizing y with
  | nil => exact ⟨hfault, rfl, rfl⟩
  | cons d ds ih =>
    obtain ⟨after, _, heq⟩ := Expansion.branch_eq hpure r.checks j parent hfault d
    have hlead : y.layer.lead y.pending ⟨r.model.problem.transition 0 p.state d, j, d,
        r.model.problem.cost p.state d⟩ = y.pending.connect parent
          (r.model.problem.transition 0 parent.state d)
            ⟨j, d, r.model.problem.cost parent.state d⟩ := by
      rw [Layer.lead, hp, hstate]
      exact Layer.connect_congr hsame.symm _ _ _
    rw [List.foldl_cons, List.map_cons, List.foldl_cons, hlead, heq]
    exact ih hfault hp

/-- An expansion of one node gives it its bound, and leads what is taken in it. -/
theorem Expansion.expand_leads (free : Variables) {y : Expansion σ κ V} (hfault : y.fault = none)
    {j : Nat} {node : Node σ V} (hnode : y.layer[j]? = some node) :
    (expand r free x y j).fault = none ∧
    (expand r free x y j).layer = y.layer.modify j (fun n =>
      { n with roughBound := r.model.relaxation.upperBound node.state free }) ∧
    (expand r free x y j).pending = (r.transitionsFrom x j ({ node with
      roughBound := r.model.relaxation.upperBound node.state free } : Node σ V).berth).foldl
        y.layer.lead y.pending := by
  generalize hb : r.model.relaxation.upperBound node.state free = b
  generalize hl : y.layer.modify j (fun n => { n with roughBound := b }) = l
  have hget : l[j]? = some { node with roughBound := b } := by
    rw [← hl, Array.getElem?_modify, if_pos rfl, hnode, Option.map_some]
  have hlead : y.layer.lead = Layer.lead l := by
    rw [← hl]
    exact (Layer.lead_congr (Layer.lineage_modify (fun n => n.lineage_rough b) y.layer j)).symm
  rw [hlead]
  unfold expand Request.transitionsFrom
  simp only [hfault, hnode, hb, hl]
  change _ ∧ _ ∧ _ = List.foldl _ _ (if node.longest + b ≤ r.toBeat then _ else _)
  split
  · exact ⟨rfl, rfl, rfl⟩
  · exact foldl_branch hpure _ (p := { node with roughBound := b })
      (y := ⟨y.session, l, y.pending, none⟩) rfl hget (node.lineage_rough b).symm

/-- **One more node.** -/
theorem Unfolded.expand {free : Variables} {places : List Nat} {y : Expansion σ κ V} {j : Nat}
    {node : Node σ V} (h : Unfolded r x free layer places y) (hj : j ∉ places)
    (hnode : layer[j]? = some node) :
    Unfolded r x free layer (places ++ [j]) (Expansion.expand r free x y j) := by
  have hbefore : y.layer[j]? = some node := by rw [h.bounded, hnode, Option.map_some, if_neg hj]
  obtain ⟨hfault, hlayer, hpending⟩ := Expansion.expand_leads hpure (x := x) free h.fault hbefore
  generalize hb : r.model.relaxation.upperBound node.state free = b at hlayer hpending
  have hget : (Expansion.expand r free x y j).layer[j]? = some { node with roughBound := b } := by
    rw [hlayer, Array.getElem?_modify, if_pos rfl, hbefore, Option.map_some]
  have hother : ∀ k : Nat, k ≠ j → (Expansion.expand r free x y j).layer[k]? = y.layer[k]? := by
    intro k hk
    rw [hlayer, Array.getElem?_modify, if_neg (Ne.symm hk)]
  refine ⟨hfault, fun k => ?_, ?_⟩
  · by_cases hk : k = j
    · subst hk
      rw [hget, hnode, Option.map_some, if_pos (List.mem_append_right _ List.mem_cons_self), hb]
    · rw [hother k hk, h.bounded]
      simp [hk]
  · have hsame : r.transitions x ((Expansion.expand r free x y j).layer.map Node.berth) places =
        r.transitions x (y.layer.map Node.berth) places := by
      refine Request.transitions_congr fun k hk => ?_
      rw [Array.getElem?_map, Array.getElem?_map, hother k fun heq => hj (heq ▸ hk)]
    have hlast : r.transitions x ((Expansion.expand r free x y j).layer.map Node.berth) [j] =
        r.transitionsFrom x j ({ node with roughBound := b } : Node σ V).berth := by
      rw [Request.transitions, List.flatMap_singleton, Array.getElem?_map, hget]
      rfl
    have hlead : (Expansion.expand r free x y j).layer.lead = y.layer.lead := by
      rw [hlayer]
      exact Layer.lead_congr (Layer.lineage_modify (fun n => n.lineage_rough b) y.layer j)
    rw [hpending, Request.transitions_append, List.foldl_append, hsame, hlast, hlead, ← h.pending]

/-- **An expansion leads all transitions of a layer to their states.** -/
theorem Fitted.expansion_unfolded (f : Fitted σ κ V) (hnodup : f.kept.Nodup)
    (hkept : ∀ j ∈ f.kept, ∃ n, f.layer[j]? = some n) (free : Variables) (index : Nat) :
    Unfolded r x free f.layer f.kept (f.expansion r free index x) := by
  unfold expansion
  generalize hfault : (⟨f.reported index, f.layer, #[], none⟩ : Expansion σ κ V) = y
  have hstart : Unfolded r x free f.layer [] y := by
    rw [← hfault]
    exact ⟨rfl, fun j => by simp, rfl⟩
  generalize f.kept = kept at hnodup hkept
  induction kept using List.reverseRecOn with
  | nil => exact hstart
  | append_singleton kept j ih =>
    obtain ⟨hnodup, _, hnot⟩ := List.nodup_append.1 hnodup
    obtain ⟨n, hn⟩ := hkept j (List.mem_append_right _ List.mem_cons_self)
    rw [List.foldl_append]
    refine (ih hnodup fun k hk => hkept k (List.mem_append_left _ hk)).expand hpure ?_ hn
    exact fun hj => hnot j hj j List.mem_cons_self rfl

end Expand
end DiagramSearch

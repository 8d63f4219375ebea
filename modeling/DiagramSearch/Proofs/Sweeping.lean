/-
# Thresholds

The sweep gives every node the value under which its state cannot lead to an
improvement.  `Swept` says what these values owe to each other: a node that takes
part in the diagram settles for what its children told it, and none of them told
it more than it is left once the edge is paid.

* `Node.settle_cases`: the four ways to settle;
* `Diagram.sweep_sweptBy`: the sweep brings about `Swept`, changes nothing but
  thresholds, and teaches the cache the lessons of lasting nodes alone.
-/

import DiagramSearch.Proofs.Cutting

namespace DiagramSearch

open Extended Diagram

variable {σ κ : Type}

/-! ### Settling one node -/

namespace Node

variable {best : Extended} {n : Node σ Extended}

/-- A node without what the sweep adds to it. -/
def unswept (n : Node σ Extended) : Node σ Extended :=
  { n with threshold := if n.isAlive then none else n.threshold, borrowed := false }

theorem settle_of_dead (h : n.isAlive = false) : n.settle best = n := by
  unfold settle
  rw [if_pos]
  cases hf : n.fate <;> simp_all [isAlive, isDeleted, isPruned]

theorem not_dead_of_isAlive (h : n.isAlive = true) : ¬(n.isDeleted || n.isPruned) = true := by
  have hf : n.fate = .alive := by simpa [isAlive] using h
  simp [isDeleted, isPruned, hf]

/-- **The four ways to settle**: there is no room under the rough bound; or the
node is in the cut-set, its tail leaving no room; or it is in the cut-set and has
to be explored; or its children decide. -/
theorem settle_cases (n : Node σ Extended) (best : Extended) (h : n.isAlive = true) :
    (n.longest + n.roughBound ≤ best ∧
      (n.settle best).threshold = some (Value.headroom best n.roughBound)) ∨
    (best < n.longest + n.roughBound ∧ n.cutset = true ∧
      n.longest + n.tail.getD negInf ≤ best ∧
      (n.settle best).threshold =
        some (min (n.threshold.getD posInf) (Value.headroom best (n.tail.getD negInf)))) ∨
    (best < n.longest + n.roughBound ∧ n.cutset = true ∧
      best < n.longest + n.tail.getD negInf ∧
      (n.settle best).threshold = some n.longest) ∨
    (best < n.longest + n.roughBound ∧ n.cutset = false ∧
      (n.settle best).threshold.getD posInf = n.threshold.getD posInf) := by
  unfold settle
  rw [if_neg (not_dead_of_isAlive h)]
  split
  · rename_i hrough
    exact .inl ⟨hrough, rfl⟩
  · rename_i hrough
    have hrough := lt_of_not_ge hrough
    split
    · rename_i hcut
      dsimp only
      split
      · rename_i htail
        exact .inr (.inl ⟨hrough, hcut, htail, rfl⟩)
      · rename_i htail
        exact .inr (.inr (.inl ⟨hrough, hcut, lt_of_not_ge htail, rfl⟩))
    · rename_i hcut
      refine .inr (.inr (.inr ⟨hrough, Bool.eq_false_iff.2 hcut, ?_⟩))
      split
      · rename_i hnone
        rw [Bool.and_eq_true] at hnone
        rw [Option.isNone_iff_eq_none.1 hnone.2]
        rfl
      · rfl

/-- The threshold of a node that takes part may become anything. -/
theorem unswept_update (h : n.isAlive = true) (t : Option Extended) (b : Bool) :
    ({ n with threshold := t, borrowed := b } : Node σ Extended).unswept = n.unswept := by
  have halive : ({ n with threshold := t, borrowed := b } : Node σ Extended).isAlive = true := h
  rw [unswept, unswept, halive, h]
  rfl

theorem unswept_settle (best : Extended) (n : Node σ Extended) :
    (n.settle best).unswept = n.unswept := by
  cases h : n.isAlive with
  | false => rw [settle_of_dead h]
  | true =>
    unfold settle
    rw [if_neg (not_dead_of_isAlive h)]
    dsimp only
    split_ifs
    · exact unswept_update h _ _
    · exact unswept_update h _ _
    · exact unswept_update h _ _
    · exact unswept_update h _ _
    · rfl

theorem inbound_of_unswept {n n' : Node σ Extended} (h : n.unswept = n'.unswept) :
    n.inbound = n'.inbound := (congrArg inbound h :)

theorem isAlive_of_unswept {n n' : Node σ Extended} (h : n.unswept = n'.unswept) :
    n.isAlive = n'.isAlive := (congrArg isAlive h :)

theorem longest_of_unswept {n n' : Node σ Extended} (h : n.unswept = n'.unswept) :
    n.longest = n'.longest := (congrArg longest h :)

theorem roughBound_of_unswept {n n' : Node σ Extended} (h : n.unswept = n'.unswept) :
    n.roughBound = n'.roughBound := (congrArg roughBound h :)

theorem cutset_of_unswept {n n' : Node σ Extended} (h : n.unswept = n'.unswept) :
    n.cutset = n'.cutset := (congrArg cutset h :)

theorem tail_of_unswept {n n' : Node σ Extended} (h : n.unswept = n'.unswept) :
    n.tail = n'.tail := (congrArg tail h :)

theorem exact_of_unswept {n n' : Node σ Extended} (h : n.unswept = n'.unswept) :
    n.exact = n'.exact := (congrArg Node.exact h :)

end Node

/-! ### Informing the layer above -/

/-- A node tells the starts of its edges what it leaves them. -/
def leaveMessage : Message σ := fun n =>
  if n.isDeleted then none
  else n.threshold.map fun threshold e p =>
    { p with
      threshold := some (min (p.threshold.getD Value.posInf) (threshold - e.cost))
      borrowed := p.borrowed || (n.fate == .dominated || n.borrowed) }

theorem inform_eq_spread : (Node.inform : Layer σ Extended → Node σ Extended → Layer σ Extended) =
    Layer.spread leaveMessage := by
  funext parents n
  unfold Node.inform Layer.spread leaveMessage
  cases n.isDeleted <;> cases n.threshold <;> rfl

theorem leaveMessage_eq_some {n : Node σ Extended}
    {act : Edge Extended → Node σ Extended → Node σ Extended} (h : leaveMessage n = some act) :
    ∃ t, n.threshold = some t ∧ act = fun e p => { p with
      threshold := some (min (p.threshold.getD posInf) (t - e.cost))
      borrowed := p.borrowed || (n.fate == .dominated || n.borrowed) } := by
  unfold leaveMessage at h
  split at h
  · cases h
  · obtain ⟨t, ht, rfl⟩ := Option.map_eq_some_iff.1 h
    exact ⟨t, ht, rfl⟩

/-- The edges of a layer start at nodes that take part in the diagram. -/
def Anchored (parents layer : Layer σ Extended) : Prop :=
  ∀ n ∈ layer, ∀ e ∈ n.inbound, ∀ p, parents[e.source]? = some p → p.isAlive = true

theorem Linked.anchored {r : Request σ κ Extended} {i : Nat} {parents layer : Layer σ Extended}
    (h : Linked r i parents layer) : Anchored parents layer := by
  intro n hn e he p hp
  obtain ⟨q, hq, hfrom⟩ := (h.joined n hn).edge e he
  obtain rfl := Option.some.inj (hp.symm.trans hq)
  exact hfrom.alive

/-- A layer that is informed changes in its thresholds only. -/
theorem unswept_foldl_inform {parents layer : Layer σ Extended} (h : Anchored parents layer) :
    (layer.foldl Node.inform parents).map Node.unswept = parents.map Node.unswept := by
  rw [inform_eq_spread]
  have hsize : (layer.foldl (Layer.spread leaveMessage) parents).size = parents.size := by
    have := congrArg Array.size (Layer.map_foldl_spread (g := fun _ => ())
      (fun _ _ _ _ _ => rfl : ∀ n act, leaveMessage n = some act → ∀ e p, () = ()) layer parents)
    simpa using this
  have hnode : ∀ (j : Nat) p, (layer.foldl (Layer.spread leaveMessage) parents)[j]? = some p →
      ∃ p₀, parents[j]? = some p₀ ∧ p.unswept = p₀.unswept := Layer.spread_invariant ?_ ?_
  · refine Array.ext_getElem? fun j => ?_
    rw [Array.getElem?_map, Array.getElem?_map]
    cases hj : (layer.foldl (Layer.spread leaveMessage) parents)[j]? with
    | none =>
      rw [Array.getElem?_eq_none_iff, hsize] at hj
      rw [Array.getElem?_eq_none hj]
    | some p =>
      obtain ⟨p₀, hp₀, heq⟩ := hnode j p hj
      rw [hp₀, Option.map_some, Option.map_some, heq]
  · rintro n hn act hact e he p ⟨p₀, hp₀, heq⟩
    obtain ⟨t, _, rfl⟩ := leaveMessage_eq_some hact
    refine ⟨p₀, hp₀, ?_⟩
    have halive : p.isAlive = true := by
      rw [Node.isAlive_of_unswept heq]
      exact h n hn e he p₀ hp₀
    rw [← heq]
    exact Node.unswept_update halive _ _
  · exact fun j p hp => ⟨p, hp, rfl⟩

/-- **A node was told at most what its children leave it.** -/
theorem foldl_inform_le {parents layer : Layer σ Extended} {y p : Node σ Extended}
    {e : Edge Extended} {t : Extended} (hy : y ∈ layer) (hfate : y.fate ≠ .deleted)
    (ht : y.threshold = some t) (he : e ∈ y.inbound)
    (hp : (layer.foldl Node.inform parents)[e.source]? = some p) :
    p.threshold.getD posInf ≤ t - e.cost := by
  rw [inform_eq_spread] at hp
  have hact : leaveMessage y = some fun e p => { p with
      threshold := some (min (p.threshold.getD posInf) (t - e.cost))
      borrowed := p.borrowed || (y.fate == .dominated || y.borrowed) } := by
    unfold leaveMessage
    rw [if_neg (by simpa [Node.isDeleted] using hfate), ht]
    rfl
  refine Layer.spread_progress (J := fun p => p.threshold.getD posInf ≤ t - e.cost) hy hact he
    (fun p => min_le_right _ _) ?_ hp
  intro m _ act hact f _ _ q hq
  obtain ⟨t', _, rfl⟩ := leaveMessage_eq_some hact
  exact (min_le_left _ _).trans hq

/-! ### The whole sweep -/

/-- Layers whose thresholds have been swept: a node settles for what it was told,
and it was told at most what each of its children leaves it. -/
def Swept (best : Extended) (layers : List (Layer σ Extended)) : Prop :=
  ∀ i parents (j : Nat) p, level layers i = some parents → parents[j]? = some p →
    ∃ p₀ : Node σ Extended, p = p₀.settle best ∧
      ∀ layer, level layers (i + 1) = some layer → ∀ y ∈ layer, y.fate ≠ .deleted →
        ∀ t, y.threshold = some t → ∀ e ∈ y.inbound, e.source = j →
          p₀.threshold.getD posInf ≤ t - e.cost

/-- The edges of all layers start at nodes that take part in the diagram. -/
def AllAnchored (layers : List (Layer σ Extended)) : Prop :=
  ∀ i parents layer, level layers i = some parents → level layers (i + 1) = some layer →
    Anchored parents layer

theorem Anchored.congr {parents parents' layer layer' : Layer σ Extended}
    (hparents : parents.map Node.unswept = parents'.map Node.unswept)
    (hlayer : layer.map Node.unswept = layer'.map Node.unswept) (h : Anchored parents layer) :
    Anchored parents' layer' := by
  intro n' hn' e he p' hp'
  obtain ⟨k, hk⟩ := Array.mem_iff_getElem?.1 hn'
  obtain ⟨n, hn, heq⟩ := Layer.getElem?_of_map_eq hlayer.symm hk
  obtain ⟨p, hp, hpeq⟩ := Layer.getElem?_of_map_eq hparents.symm hp'
  rw [Node.inbound_of_unswept heq] at he
  rw [Node.isAlive_of_unswept hpeq]
  exact h n (Array.mem_of_getElem? hn) e he p hp

theorem AllAnchored.congr {layers layers' : List (Layer σ Extended)} (h : AllAnchored layers)
    (hmap : layers.map (·.map Node.unswept) = layers'.map (·.map Node.unswept)) :
    AllAnchored layers' := by
  intro i parents' layer' hp' hl'
  obtain ⟨parents, hp, hpeq⟩ := level_of_map_eq hmap.symm hp'
  obtain ⟨layer, hl, hleq⟩ := level_of_map_eq hmap.symm hl'
  exact (h i parents layer hp hl).congr hpeq.symm hleq.symm

theorem AllAnchored.of_cons {layer : Layer σ Extended} {layers : List (Layer σ Extended)}
    (h : AllAnchored (layer :: layers)) : AllAnchored layers :=
  fun i parents l hp hl => h i parents l (level_cons_of_some hp) (level_cons_of_some hl)

variable [BEq σ]

/-- What a lasting node of a layer teaches. -/
def Lesson (lasting : Nat → Node σ Extended → Bool) (layers : List (Layer σ Extended)) (state : σ)
    (depth : Nat) (t : Threshold Extended) : Prop :=
  ∃ i layer, level layers i = some layer ∧ ∃ n ∈ layer, lasting i n = true ∧
    n.lesson? = some t ∧ n.state = state ∧ n.depth = depth

/-- **A layer teaches the lessons of its lasting nodes alone.** -/
theorem teach_taught [LawfulBEq σ] (layer : Layer σ Extended) (lasting : Node σ Extended → Bool)
    (session : Session σ κ Extended) {lesson : σ → Nat → Threshold Extended → Prop}
    (h : ∀ n ∈ layer, lasting n = true → ∀ t, n.lesson? = some t → lesson n.state n.depth t) :
    session.Taught lesson (layer.teach lasting session) := by
  unfold Layer.teach
  rw [← Array.foldl_toList]
  refine List.foldlRecOn layer.toList _ (motive := fun s => session.Taught lesson s) (.refl _ _) ?_
  intro s hs n hn
  split
  · rename_i t ht
    split
    · rename_i hlas
      exact hs.trans (Session.taught_remember (h n (Array.mem_toList_iff.1 hn) hlas t ht))
    · exact hs
  · exact hs

/-- What sweeping a layer and those above it brings about. -/
structure Sweeps (best : Extended) (lasting : Nat → Node σ Extended → Bool)
    (session : Session σ κ Extended) (layer : Layer σ Extended) (above : List (Layer σ Extended))
    (out : Session σ κ Extended × List (Layer σ Extended)) : Prop where
  cons : ∃ rest, out.2 = layer.map (Node.settle best) :: rest
  same : out.2.map (·.map Node.unswept) = (layer :: above).map (·.map Node.unswept)
  taught : session.Taught (Lesson lasting out.2) out.1
  swept : Swept best out.2

omit [BEq σ] in
theorem unswept_map_settle (best : Extended) (layer : Layer σ Extended) :
    (layer.map (Node.settle best)).map Node.unswept = layer.map Node.unswept := by
  rw [Array.map_map]
  exact Array.map_congr_left fun n _ => n.unswept_settle best

omit [BEq σ] in
theorem Lesson.cons {lasting : Nat → Node σ Extended → Bool} {layers : List (Layer σ Extended)}
    {below : Layer σ Extended} {state : σ} {depth : Nat} {t : Threshold Extended}
    (h : Lesson lasting layers state depth t) : Lesson lasting (below :: layers) state depth t := by
  obtain ⟨i, layer, hl, hn⟩ := h
  exact ⟨i, layer, level_cons_of_some hl, hn⟩

omit [BEq σ] in
/-- A layer without any below was told nothing. -/
theorem Swept.sole (best : Extended) (layer : Layer σ Extended) :
    Swept best [layer.map (Node.settle best)] := by
  intro i parents j p hl hp
  have hi : i = 0 := by simpa using lt_of_level hl
  subst hi
  obtain rfl := Option.some.inj hl
  rw [Array.getElem?_map] at hp
  obtain ⟨p₀, _, rfl⟩ := Option.map_eq_some_iff.1 hp
  exact ⟨p₀, rfl, fun layer' hl' => by simp [level] at hl'⟩

omit [BEq σ] in
/-- **One more layer at the bottom**: it informs the one above, and the others do not know
of it. -/
theorem Swept.cons {best : Extended} {below parents : Layer σ Extended}
    {rest : List (Layer σ Extended)}
    (h : Swept best
      (((below.map (Node.settle best)).foldl Node.inform parents).map (Node.settle best) ::
        rest)) :
    Swept best (below.map (Node.settle best) ::
      ((below.map (Node.settle best)).foldl Node.inform parents).map (Node.settle best) ::
        rest) := by
  intro i ps j p hl hp
  rw [level_cons] at hl
  split at hl
  · rename_i hi
    obtain rfl := Option.some.inj hl
    rw [Array.getElem?_map] at hp
    obtain ⟨p₀, _, rfl⟩ := Option.map_eq_some_iff.1 hp
    refine ⟨p₀, rfl, fun layer' hl' => ?_⟩
    have := lt_of_level hl'
    rw [List.length_cons] at this
    omega
  · by_cases hnext : i + 1 = rest.length + 1
    · obtain rfl : i = rest.length := Nat.succ.inj hnext
      rw [level_length] at hl
      obtain rfl := Option.some.inj hl
      rw [Array.getElem?_map] at hp
      obtain ⟨p₀, hp₀, rfl⟩ := Option.map_eq_some_iff.1 hp
      refine ⟨p₀, rfl, fun layer' hl' y hy hfate t ht e he hej => ?_⟩
      rw [← List.length_cons, level_length] at hl'
      obtain rfl := Option.some.inj hl'
      subst hej
      exact foldl_inform_le hy hfate ht he hp₀
    · obtain ⟨p₀, hp₀, htold⟩ := h i ps j p hl hp
      refine ⟨p₀, hp₀, fun layer' hl' => ?_⟩
      rw [level_cons, List.length_cons, if_neg hnext] at hl'
      exact htold layer' hl'

/-- **The sweep from a layer upwards.** -/
theorem sweepLayers_sweeps [LawfulBEq σ] (best : Extended) (lasting : Nat → Node σ Extended → Bool)
    (session : Session σ κ Extended) (layer : Layer σ Extended) (above : List (Layer σ Extended))
    (hanchored : AllAnchored (layer :: above)) :
    Sweeps best lasting session layer above (sweepLayers best lasting session layer above) := by
  induction above generalizing session layer with
  | nil =>
    refine ⟨⟨[], rfl⟩, ?_, ?_, .sole best layer⟩
    · rw [sweepLayers, List.map_singleton, List.map_singleton, unswept_map_settle]
    · refine teach_taught _ _ session fun n hn hlas t ht => ?_
      exact ⟨0, _, rfl, n, hn, hlas, ht, rfl, rfl⟩
  | cons parents above ih =>
    rw [sweepLayers]
    dsimp only
    have hsettled := unswept_map_settle best layer
    have hanch : Anchored parents (layer.map (Node.settle best)) :=
      (hanchored above.length parents layer (level_cons_of_some (level_length _ _))
        (level_length _ _)).congr rfl hsettled.symm
    have hinform := unswept_foldl_inform hanch
    have htaught : session.Taught (fun state depth t => ∃ n ∈ layer.map (Node.settle best),
        lasting (above.length + 1) n = true ∧ n.lesson? = some t ∧ n.state = state ∧
          n.depth = depth)
        (Layer.teach (layer.map (Node.settle best)) (lasting (above.length + 1)) session) :=
      teach_taught _ _ session fun n hn hlas t ht => ⟨n, hn, hlas, ht, rfl, rfl⟩
    have hrec := ih
      (Layer.teach (layer.map (Node.settle best)) (lasting (above.length + 1)) session)
      ((layer.map (Node.settle best)).foldl Node.inform parents)
      (hanchored.of_cons.congr (by rw [List.map_cons, List.map_cons, hinform]))
    generalize hout : sweepLayers best lasting
      (Layer.teach (layer.map (Node.settle best)) (lasting (above.length + 1)) session)
      ((layer.map (Node.settle best)).foldl Node.inform parents) above = out at hrec
    have hlen : out.2.length = above.length + 1 := by
      have := congrArg List.length hrec.same
      simpa using this
    refine ⟨⟨out.2, rfl⟩, ?_, ?_, ?_⟩
    · rw [List.map_cons, hrec.same, hsettled, List.map_cons, List.map_cons, List.map_cons, hinform]
    · refine (htaught.mono fun state depth t h => ?_).trans (hrec.taught.mono fun _ _ _ => .cons)
      refine ⟨above.length + 1, _, ?_, h⟩
      rw [← hlen]
      exact level_length _ _
    · obtain ⟨rest, hrest⟩ := hrec.cons
      have hswept := hrec.swept
      rw [hrest] at hswept ⊢
      exact hswept.cons

omit [BEq σ] in
/-- **What a value below the threshold of a node means**: there is no room for it
under the rough bound; or the node has to be explored; or it fits below the
thresholds of all children. -/
theorem Swept.cases {best h : Extended} {layers : List (Layer σ Extended)}
    (hs : Swept best layers) {i j : Nat} {parents : Layer σ Extended} {p : Node σ Extended}
    (hl : level layers i = some parents) (hp : parents[j]? = some p) (halive : p.isAlive = true)
    (hh : h ≤ p.threshold.getD posInf) :
    h + p.roughBound ≤ best ∨
    (p.cutset = true ∧ best < p.longest + p.tail.getD negInf ∧ h ≤ p.longest) ∨
    (best < p.longest + p.roughBound ∧ (p.cutset = true → h + p.tail.getD negInf ≤ best) ∧
      ∀ layer, level layers (i + 1) = some layer → ∀ y ∈ layer, y.fate ≠ .deleted →
        ∀ e ∈ y.inbound, e.source = j → h + e.cost ≤ y.threshold.getD posInf) := by
  obtain ⟨p₀, rfl, htold⟩ := hs i parents j p hl hp
  have hsame := p₀.unswept_settle best
  have halive₀ : p₀.isAlive = true := by rw [← Node.isAlive_of_unswept hsame]; exact halive
  -- What fits below the told threshold fits below those of the children.
  have hfits : h ≤ p₀.threshold.getD posInf → ∀ layer, level layers (i + 1) = some layer →
      ∀ y ∈ layer, y.fate ≠ .deleted → ∀ e ∈ y.inbound, e.source = j →
        h + e.cost ≤ y.threshold.getD posInf := by
    intro hle layer hlayer y hy hfate e he hej
    cases ht : y.threshold with
    | none => exact le_posInf _
    | some t => exact add_le_of_le_sub (hle.trans (htold layer hlayer y hy hfate t ht e he hej))
  rw [Node.longest_of_unswept hsame, Node.roughBound_of_unswept hsame,
    Node.cutset_of_unswept hsame, Node.tail_of_unswept hsame]
  rcases p₀.settle_cases best halive₀ with ⟨_, ht⟩ | ⟨hrough, _, _, ht⟩ |
    ⟨_, hcut, htail, ht⟩ | ⟨hrough, hcut, ht⟩
  · rw [ht] at hh
    exact .inl (add_le_of_le_headroom hh)
  · rw [ht] at hh
    obtain ⟨hle, hroom⟩ := le_min_iff.1 hh
    exact .inr (.inr ⟨hrough, fun _ => add_le_of_le_headroom hroom, hfits hle⟩)
  · rw [ht] at hh
    exact .inr (.inl ⟨hcut, htail, hh⟩)
  · rw [ht] at hh
    exact .inr (.inr ⟨hrough, fun hc => (by rw [hcut] at hc; cases hc), hfits hh⟩)

/-! ### Sweeping a diagram -/

namespace Diagram

/-- The value that nothing is worth keeping below. -/
def sweepBest (d : Diagram σ Extended) (toBeat : Extended) : Extended :=
  match d.bestExactValue with
  | none => toBeat
  | some value => max toBeat value

omit [BEq σ] in
theorem le_sweepBest (d : Diagram σ Extended) (toBeat : Extended) :
    toBeat ≤ d.sweepBest toBeat := by
  unfold sweepBest
  cases d.bestExactValue with
  | none => exact le_rfl
  | some v => exact le_max_left _ _

omit [BEq σ] in
theorem sweepBest_cases (d : Diagram σ Extended) (toBeat : Extended) :
    d.sweepBest toBeat = toBeat ∨ d.bestExactValue = some (d.sweepBest toBeat) := by
  unfold sweepBest
  cases d.bestExactValue with
  | none => exact .inl rfl
  | some v => exact (max_choice toBeat v).imp id fun heq => congrArg some heq.symm

/-- The deepest layer before it is settled: the best value is the threshold of its
exact nodes. -/
def closing (d : Diagram σ Extended) (toBeat : Extended) (last : Layer σ Extended) :
    Layer σ Extended :=
  if d.bestExactValue.isSome then last.map fun n =>
    if n.isAlive && n.exact then { n with threshold := some (d.sweepBest toBeat) } else n
  else last

omit [BEq σ] in
theorem unswept_closing (d : Diagram σ Extended) (toBeat : Extended) (last : Layer σ Extended) :
    (d.closing toBeat last).map Node.unswept = last.map Node.unswept := by
  unfold closing
  split
  · rw [Array.map_map]
    refine Array.map_congr_left fun n _ => ?_
    rw [Function.comp_apply]
    split
    · rename_i h
      exact Node.unswept_update (Bool.and_eq_true_iff.1 h).1 _ _
    · rfl
  · rfl

/-- A sweep starts from the deepest layer, its exact nodes being worth the best
value. -/
theorem sweep_eq (d : Diagram σ Extended) (r : Request σ κ Extended)
    (session : Session σ κ Extended) {last : Layer σ Extended} {above : List (Layer σ Extended)}
    (hlayers : d.layers = last :: above) :
    d.sweep r session = ((sweepLayers (d.sweepBest r.toBeat) (d.lasting r.kind r.cutset) session
        (d.closing r.toBeat last) above).1,
      { d with layers := (sweepLayers (d.sweepBest r.toBeat) (d.lasting r.kind r.cutset) session
        (d.closing r.toBeat last) above).2 }) := by
  unfold sweep closing sweepBest
  rw [hlayers]
  cases d.bestExactValue <;> rfl

/-- A diagram whose thresholds were swept, and what the cache was taught. -/
structure SweptBy (d : Diagram σ Extended) (r : Request σ κ Extended)
    (session : Session σ κ Extended) (out : Session σ κ Extended × Diagram σ Extended) : Prop where
  same : ∃ layers, out.2 = { d with layers } ∧
    layers.map (·.map Node.unswept) = d.layers.map (·.map Node.unswept)
  taught : session.Taught (Lesson (d.lasting r.kind r.cutset) out.2.layers) out.1
  swept : Swept (d.sweepBest r.toBeat) out.2.layers
  /-- At the end of an exact path the best value is what counts. -/
  last : d.bestExactValue.isSome → ∀ i layer, level out.2.layers i = some layer →
    i + 1 = out.2.layers.length → ∀ n ∈ layer, n.isAlive = true → n.exact = true →
      n.cutset = false → ∀ h ≤ n.threshold.getD posInf,
        h + n.roughBound ≤ d.sweepBest r.toBeat ∨ h ≤ d.sweepBest r.toBeat

/-- **What the sweep of a diagram brings about.** -/
theorem sweep_sweptBy [LawfulBEq σ] (d : Diagram σ Extended) (r : Request σ κ Extended)
    (session : Session σ κ Extended) (hd : d.layers ≠ []) (hanchored : AllAnchored d.layers) :
    d.SweptBy r session (d.sweep r session) := by
  obtain ⟨last, above, hlayers⟩ := List.exists_cons_of_ne_nil hd
  have hsame := d.unswept_closing r.toBeat last
  have hs := sweepLayers_sweeps (d.sweepBest r.toBeat) (d.lasting r.kind r.cutset) session
    (d.closing r.toBeat last) above
    (hanchored.congr (by rw [hlayers, List.map_cons, List.map_cons, hsame]))
  rw [d.sweep_eq r session hlayers]
  refine ⟨⟨_, rfl, ?_⟩, hs.taught, hs.swept,
    fun hsome i layer hl hi n hn halive hex hcut h hh => ?_⟩
  · rw [hs.same, hlayers, List.map_cons, List.map_cons, hsame]
  · obtain ⟨rest, hrest⟩ := hs.cons
    dsimp only at hl hi
    rw [hrest, List.length_cons] at hi
    rw [hrest, level_cons, if_pos (Nat.succ.inj hi)] at hl
    obtain rfl := Option.some.inj hl
    obtain ⟨n₀, hn₀, rfl⟩ := Array.mem_map.1 hn
    have hn := n₀.unswept_settle (d.sweepBest r.toBeat)
    rw [Node.isAlive_of_unswept hn] at halive
    rw [Node.exact_of_unswept hn] at hex
    rw [Node.cutset_of_unswept hn] at hcut
    have hthr : n₀.threshold = some (d.sweepBest r.toBeat) := by
      have hmem : n₀ ∈ last.map fun n => if n.isAlive && n.exact then
          { n with threshold := some (d.sweepBest r.toBeat) } else n := by
        rwa [closing, if_pos hsome] at hn₀
      obtain ⟨m, _, rfl⟩ := Array.mem_map.1 hmem
      split
      · rfl
      · rename_i hm
        rw [if_neg hm] at halive hex
        rw [halive, hex] at hm
        exact absurd rfl hm
    rcases n₀.settle_cases (d.sweepBest r.toBeat) halive with ⟨_, ht⟩ | ⟨_, hc, _⟩ |
      ⟨_, hc, _⟩ | ⟨_, _, ht⟩
    · rw [ht] at hh
      rw [Node.roughBound_of_unswept hn]
      exact .inl (add_le_of_le_headroom hh)
    · rw [hcut] at hc
      cases hc
    · rw [hcut] at hc
      cases hc
    · rw [ht, hthr] at hh
      exact .inr hh

end Diagram
end DiagramSearch

/-
# Descent is kept from round to round

Of what an unrolling does to nodes, only two things concern their descent: a new
node owes its value to the edge that leads to it, and a merge marks the node that
takes over the edges of others.  Bounds, the cache and the dominance table decide
which nodes are expanded, and nothing else.

* `Lineage.Bred.attach`: one more edge;
* `Fitted.expansion_induction`, `Merges.fit`: what every decision keeps of the nodes that
  are reached, and every absorbed edge of those that are merged, holds of a whole layer;
* `Rounds.ancestral`: **every layer of a diagram descends from the one above it**;
  its nodes are all exact above the first merge.
-/

import DiagramSearch.Proofs.Ancestry
import DiagramSearch.Proofs.Rounds
import DiagramSearch.Proofs.Selecting
import DiagramSearch.Proofs.Spreading

namespace DiagramSearch

variable {σ κ V : Type} [Value V]

/-! ### One more edge -/

/-- **An edge that reaches a node leaves it well bred**: it is the best one, or the
node has a better one already. -/
theorem Lineage.Bred.attach {p : Problem σ V} {x : Nat} {parents : Layer σ V}
    {n parent q : Node σ V} {e : Edge V}
    (h : ¬n.longest ≤ parent.longest + e.cost → n.lineage.Bred p x parents)
    (hq : parents[e.source]? = some q) (hsame : parent.lineage = q.lineage)
    (hd : e.decision ∈ p.domain x parent.state)
    (hstate : n.state = p.transition 0 parent.state e.decision)
    (hcost : e.cost = p.cost parent.state e.decision) :
    (n.attach parent e).lineage.Bred p x parents := by
  intro hgenuine hdef
  by_cases hle : n.longest ≤ parent.longest + e.cost
  · refine ⟨e, q, hq, ?_⟩
    rw [← hsame]
    refine ⟨Node.bestEdge?_attach_of_le n parent e hle, hd, ?_, ?_, fun hexact => ?_⟩
    · exact (Node.attach_state n parent e).trans hstate
    · change (n.attach parent e).longest = parent.longest + p.cost parent.state e.decision
      rw [← hcost]
      simp only [Node.attach, if_pos hle]
    · have hboth : (n.attach parent e).exact = true := hexact
      rw [Node.attach_exact, Bool.and_eq_true] at hboth
      exact hboth.1
  · have hlongest : (n.attach parent e).longest = n.longest := by
      simp only [Node.attach, if_neg hle]
    have hgenuine' : n.exact = true ∨ n.merged = false := by
      rcases hgenuine with hexact | hmerged
      · have hboth : (n.attach parent e).exact = true := hexact
        rw [Node.attach_exact, Bool.and_eq_true] at hboth
        exact .inl hboth.2
      · exact .inr ((Node.attach_merged n parent e).symm.trans hmerged)
    have hdef' : n.longest ≤ n.longest := hlongest ▸ hdef
    obtain ⟨e', q', hq', hfrom⟩ := h hle hgenuine' hdef'
    refine ⟨e', q', hq', ?_, hfrom.possible, ?_, hlongest.trans hfrom.longest, fun hexact => ?_⟩
    · exact Node.bestEdge?_attach_of_not_le n parent e hfrom.edge hle
    · exact (Node.attach_state n parent e).trans hfrom.state
    · have hboth : (n.attach parent e).exact = true := hexact
      rw [Node.attach_exact, Bool.and_eq_true] at hboth
      exact hfrom.exact hboth.2

omit [Value V] in
theorem Node.lineage_rough (n : Node σ V) (roughBound : V) :
    ({ n with roughBound } : Node σ V).lineage = n.lineage := rfl

omit [Value V] in
theorem Node.lineage_delete (n : Node σ V) :
    ({ n with fate := .deleted } : Node σ V).lineage = n.lineage := rfl

/-! ### Expanding a layer -/

/-- A decision in a node of a layer, as an edge. -/
structure Taken (p : Problem σ V) (x : Nat) (layer : Layer σ V) (parent : Node σ V) (e : Edge V) :
    Prop where
  source : ∃ q, layer[e.source]? = some q ∧ parent.lineage = q.lineage
  possible : e.decision ∈ p.domain x parent.state
  cost : e.cost = p.cost parent.state e.decision

/-- What every decision in a layer keeps of the nodes that are reached from it: of
a node that was reached before, and of a new one. -/
structure Spreads [BEq σ] [Hashable σ] (p : Problem σ V) (x : Nat) (layer : Layer σ V)
    (I : Node σ V → Prop) : Prop where
  joined : ∀ parent e, Taken p x layer parent e → ∀ k n, I n →
    sameState n.state (p.transition k parent.state e.decision) = true → I (n.attach parent e)
  created : ∀ parent e, Taken p x layer parent e → ∀ k,
    I ((Node.bare (p.transition k parent.state e.decision) (parent.depth + 1)
      (parent.longest + e.cost) Value.posInf parent.exact).attach parent e)

/-- A layer whose lineages are left alone, and what holds of the nodes that are
reached from it. -/
structure Breeds (layer : Layer σ V) (I : Node σ V → Prop) (e : Expansion σ κ V) : Prop where
  same : e.layer.map Node.lineage = layer.map Node.lineage
  each : ∀ n ∈ e.pending, I n

section Expand

variable [BEq σ] [Hashable σ] {p : Problem σ V} {x : Nat} {layer : Layer σ V}
  {I : Node σ V → Prop}

/-- A decision leads to a node of its own or to one that was reached before. -/
theorem Layer.mem_connect {pending : Layer σ V} {parent n : Node σ V} {state : σ}
    {e : Edge V} (hn : n ∈ pending.connect parent state e) :
    n ∈ pending ∨ (∃ m ∈ pending, sameState m.state state = true ∧ n = m.attach parent e) ∨
      n = (Node.bare state (parent.depth + 1) (parent.longest + e.cost) Value.posInf
        parent.exact).attach parent e := by
  rcases Layer.connect_cases pending parent state e with ⟨i, m, hi, hstate, heq⟩ | ⟨_, heq⟩
  · rw [heq] at hn
    obtain ⟨j, hj⟩ := Array.mem_iff_getElem?.1 hn
    rw [Array.getElem?_modify] at hj
    split at hj
    · rename_i hij
      subst hij
      rw [hi, Option.map_some] at hj
      exact .inr (.inl ⟨m, Array.mem_of_getElem? hi, hstate, (Option.some.inj hj).symm⟩)
    · exact .inl (Array.mem_of_getElem? hj)
  · rw [heq] at hn
    exact (Array.mem_push.1 hn).imp_right .inr

theorem Spreads.connect (hI : Spreads p x layer I) {pending : Layer σ V} {parent : Node σ V}
    {e : Edge V} (he : Taken p x layer parent e) (k : Nat) (hpending : ∀ n ∈ pending, I n) :
    ∀ n ∈ pending.connect parent (p.transition k parent.state e.decision) e, I n := by
  intro n hn
  rcases Layer.mem_connect hn with hn | ⟨m, hm, hstate, rfl⟩ | rfl
  · exact hpending n hn
  · exact hI.joined parent e he k m (hpending m hm) hstate
  · exact hI.created parent e he k

variable {r : Request σ κ V}

/-- One decision leaves the layer alone. -/
theorem Expansion.branch_layer (problem : Problem σ V) (checks : Checks) (source : Nat)
    (parent : Node σ V) (y : Expansion σ κ V) (d : Decision) :
    (branch problem checks source parent y d).layer = y.layer := by
  simp only [branch, apply_ite Expansion.layer, ite_self]

/-- One decision leads to a node, whether it is watched or not, unless it is found to be at
fault. -/
theorem Expansion.branch_pending {P : Layer σ V → Prop} (problem : Problem σ V) (checks : Checks)
    (source : Nat) (parent : Node σ V) (y : Expansion σ κ V) (d : Decision) (hpending : P y.pending)
    (hconnect : ∀ k, P (y.pending.connect parent (problem.transition k parent.state d)
      ⟨source, d, problem.cost parent.state d⟩)) :
    P (branch problem checks source parent y d).pending := by
  unfold branch
  dsimp only
  split
  · exact hpending
  · split
    · split
      · exact hconnect _
      · exact hpending
    · exact hconnect _

/-- **Expanding a layer only gives its nodes their bounds.** -/
theorem Fitted.map_expansion {α : Type} {g : Node σ V → α}
    (hg : ∀ n roughBound, g { n with roughBound } = g n) (f : Fitted σ κ V) (r : Request σ κ V)
    (free : Variables) (index x : Nat) :
    (f.expansion r free index x).layer.map g = f.layer.map g := by
  refine List.foldlRecOn f.kept _ (motive := fun y : Expansion σ κ V => y.layer.map g =
    f.layer.map g) rfl fun y hy j _ => ?_
  rw [← hy]
  unfold Expansion.expand
  split
  · rename_i node _ _
    have hbounded : (y.layer.modify j fun n =>
        { n with roughBound := r.model.relaxation.upperBound node.state free }).map g =
          y.layer.map g := Layer.map_modify_eq (fun n => hg n _) y.layer j
    dsimp only
    split
    · exact hbounded
    · refine List.foldlRecOn _ _ (motive := fun z : Expansion σ κ V =>
        z.layer.map g = y.layer.map g) hbounded fun z hz d _ => ?_
      rw [Expansion.branch_layer]
      exact hz
  · rfl

/-- **What every decision in a node that is kept keeps of the nodes that are reached, the
whole expansion keeps.** -/
theorem Fitted.expansion_induction {P : Layer σ V → Prop} (f : Fitted σ κ V) (free : Variables)
    (index : Nat) (hempty : P #[])
    (hconnect : ∀ j ∈ f.kept, ∀ q, f.layer[j]? = some q → ∀ parent : Node σ V,
      parent.lineage = q.lineage → ∀ d ∈ r.model.problem.domain x parent.state, ∀ k pending,
        P pending → P (pending.connect parent (r.model.problem.transition k parent.state d)
          ⟨j, d, r.model.problem.cost parent.state d⟩)) :
    P (f.expansion r free index x).pending := by
  refine (List.foldlRecOn f.kept _ (motive := fun y : Expansion σ κ V =>
    y.layer.map Node.lineage = f.layer.map Node.lineage ∧ P y.pending) ⟨rfl, hempty⟩ ?_).2
  rintro y ⟨hlayer, hpending⟩ j hj
  unfold Expansion.expand
  split
  · rename_i parent _ hparent
    obtain ⟨q, hq, hsame⟩ := Layer.getElem?_of_map_eq hlayer hparent
    have hbounded := (Layer.lineage_modify (fun n => n.lineage_rough
      (r.model.relaxation.upperBound parent.state free)) y.layer j).trans hlayer
    dsimp only
    split
    · exact ⟨hbounded, hpending⟩
    · refine List.foldlRecOn _ _ (motive := fun z : Expansion σ κ V =>
        z.layer.map Node.lineage = f.layer.map Node.lineage ∧ P z.pending)
        ⟨hbounded, hpending⟩ ?_
      rintro z ⟨hz, hzpending⟩ d hd
      refine ⟨by rw [Expansion.branch_layer, hz], ?_⟩
      exact Expansion.branch_pending _ _ j parent z d hzpending fun k =>
        hconnect j hj q hq parent hsame d hd k z.pending hzpending
  · exact ⟨hlayer, hpending⟩

/-- What every decision in a layer keeps of a node, the whole expansion keeps of all
nodes. -/
theorem Fitted.breeds (f : Fitted σ κ V) (hI : Spreads r.model.problem x f.layer I)
    (free : Variables) (index : Nat) : Breeds f.layer I (f.expansion r free index x) where
  same := f.map_expansion Node.lineage_rough r free index x
  each := by
    refine f.expansion_induction (P := fun pending => ∀ n ∈ pending, I n) free index
      (fun n hn => absurd hn (Array.not_mem_empty n)) ?_
    intro j _ q hq parent hsame d hd k pending hpending
    have he : Taken r.model.problem x f.layer parent
        ⟨j, d, r.model.problem.cost parent.state d⟩ := ⟨⟨q, hq, hsame⟩, hd, rfl⟩
    exact hI.connect he k hpending

/-- The nodes that are reached from exact ones are exact. -/
theorem spreads_exact (p : Problem σ V) (x : Nat) (layer : Layer σ V) :
    Spreads p x layer fun n => (∀ q ∈ layer, q.exact = true) → n.exact = true := by
  have hparent : ∀ parent e, Taken p x layer parent e → (∀ q ∈ layer, q.exact = true) →
      parent.exact = true := by
    rintro parent e ⟨⟨q, hq, hsame⟩, _, _⟩ hall
    exact (congrArg Lineage.exact hsame).trans (hall q (Array.mem_of_getElem? hq))
  refine ⟨fun parent e he k n hn _ hall => ?_, fun parent e he k hall => ?_⟩
  · rw [Node.attach_exact, hparent parent e he hall, hn hall, Bool.and_true]
  · rw [Node.attach_exact, hparent parent e he hall, Bool.true_and, Node.bare]

/-- The nodes that are reached are well bred, if transitions are pure. -/
theorem spreads_bred [LawfulBEq σ] (hpure : p.Pure) :
    Spreads p x layer fun n => n.lineage.Bred p x layer := by
  refine ⟨?_, ?_⟩
  · rintro parent e ⟨⟨q, hq, hsame⟩, hd, hcost⟩ k n hn hstate
    rw [hpure k 0] at hstate
    exact .attach (fun _ => hn) hq hsame hd (sameState_iff.1 hstate) hcost
  · -- A new node is as good as its first edge, unless that has no value.
    rintro parent e ⟨⟨q, hq, hsame⟩, hd, hcost⟩ k
    rw [hpure k 0]
    exact .attach (fun hundef _ hdef => absurd hdef hundef) hq hsame hd rfl hcost

end Expand

/-! ### Completing a layer -/

section Settle

variable [BEq σ] [BEq κ] {r : Request σ κ V} {audit : Audit σ κ V} {path : Path}
  {above : List (Layer σ V)} {s : Selection σ κ V}

omit [BEq κ] in
theorem Node.Sifts.lineage_eq {rel : Option (Dominance σ κ)} {cache : Cache σ V}
    {events : List (Event σ V)} {isRoot : Bool} {n n' : Node σ V}
    (h : n.Sifts rel cache events isRoot n') : n.lineage = n'.lineage := by
  cases h <;> rfl

/-- What selection does to a layer, whatever is asked of its exact nodes. -/
theorem selected (r : Request σ κ V) (session : Session σ κ V) (isRoot : Bool)
    (pending : Layer σ V) : Selected r (fun _ _ _ => True) session isRoot pending
      (select r session isRoot pending) :=
  select_selected r session isRoot pending fun _ _ _ => trivial

/-- Selection leaves lineages alone. -/
theorem select_lineage (r : Request σ κ V) (session : Session σ κ V) (isRoot : Bool)
    (pending : Layer σ V) :
    (select r session isRoot pending).layer.map Node.lineage = pending.map Node.lineage := by
  have hsel := selected r session isRoot pending
  refine Array.ext_getElem? fun j => ?_
  rw [Array.getElem?_map, Array.getElem?_map]
  cases hj : pending[j]? with
  | none =>
    have hsize := hsel.size
    rw [Array.getElem?_eq_none_iff] at hj
    rw [Array.getElem?_eq_none (by omega)]
  | some n =>
    obtain ⟨n', hn', hsifts⟩ := hsel.sifts j n hj
    rw [hn', Option.map_some, Option.map_some, hsifts.lineage_eq]

/-- A layer of which nothing is kept has no node that is alive. -/
theorem select_alive {r : Request σ κ V} {session : Session σ κ V} {isRoot : Bool}
    {pending : Layer σ V} {n : Node σ V} (hn : n ∈ (select r session isRoot pending).layer)
    (halive : n.isAlive = true) : (select r session isRoot pending).kept ≠ [] := by
  obtain ⟨j, hj⟩ := Array.mem_iff_getElem?.1 hn
  have hmem := (selected r session isRoot pending).lists.complete j n hj
    (by simpa [Node.isAlive] using halive)
  intro hnil
  rw [hnil] at hmem
  exact absurd hmem List.not_mem_nil

omit [BEq σ] [BEq κ] [Value V] in
theorem Layer.delete_lineage (layer : Layer σ V) (j : Nat) :
    (layer.delete j).map Node.lineage = layer.map Node.lineage :=
  Layer.lineage_modify Node.lineage_delete layer j

/-- What a merge keeps of the nodes of a layer (`I`), and of the one that takes over
the edges of others (`T`). -/
structure Merges (r : Request σ κ V) (parents : Layer σ V) (I T : Node σ V → Prop) : Prop where
  spared : ∀ n, T n → I n
  deleted : ∀ n, I n → I { n with fate := .deleted }
  doomed : ∀ n, T n → T { n with fate := .deleted }
  marked : ∀ n, I n → T { n with merged := true, exact := false }
  fresh : ∀ state depth, T { (Node.bare state depth Value.negInf Value.posInf false : Node σ V) with
    merged := true, exact := false }
  takes : ∀ n m parent, ∀ e ∈ m.inbound, ∀ merged, T n → I m → parents[e.source]? = some parent →
    T (n.attach parent { e with
      cost := r.model.relaxation.relax parent.state m.state merged e.decision e.cost })

section Merge

variable {I T : Node σ V → Prop}

omit [BEq σ] [BEq κ] in
/-- Absorbing one node changes the merged one only. -/
theorem Merges.redirect {parents layer : Layer σ V} (hm : Merges r parents I T) {target : Nat}
    {merged : σ} (c : Candidate σ V)
    (h : ∀ (j : Nat) n, layer[j]? = some n → I n ∧ (j = target → T n)) :
    ∀ (j : Nat) n, (DiagramSearch.redirect r parents merged target layer c)[j]? = some n →
      I n ∧ (j = target → T n) := by
  unfold DiagramSearch.redirect
  split
  · exact h
  · rename_i m hfound
    refine List.foldlRecOn m.inbound _ (motive := fun l => ∀ (j : Nat) (n : Node σ V),
      l[j]? = some n → I n ∧ (j = target → T n)) ?_ ?_
    · exact Layer.invariant_modify
        (fun n hn => ⟨hm.deleted n hn.1, fun hj => hm.doomed n (hn.2 hj)⟩) h
    · intro l hl e he
      dsimp only
      split
      · exact hl
      · rename_i parent hparent
        refine Layer.invariant_modify (fun n hn => ?_) hl
        have htaken := hm.takes n m parent e he merged (hn.2 rfl) (h _ m hfound).1 hparent
        exact ⟨hm.spared _ htaken, fun _ => htaken⟩

omit [BEq κ] in
/-- **Merging nodes keeps what each of its steps keeps.** -/
theorem Merges.mergeExcess (hm : Merges r (above.headD #[]) I T) (width : Nat)
    (h : ∀ n ∈ s.layer, I n) :
    ∀ n ∈ (DiagramSearch.mergeExcess audit r path above width s).layer, I n := by
  intro n hn
  obtain ⟨j, hj⟩ := Array.mem_iff_getElem?.1 hn
  unfold DiagramSearch.mergeExcess at hj
  extract_lets sorted kept absorbed merged depth recycled target layer marked _ at hj
  refine (List.foldlRecOn absorbed _ (motive := fun l => ∀ (j : Nat) (n : Node σ V),
    l[j]? = some n → I n ∧ (j = target → T n)) ?_ (fun l hl c _ => hm.redirect c hl) j n hj).1
  -- The merged node is marked before it takes over any edge.
  have hlayer : ∀ (k : Nat) m, layer[k]? = some m →
      I m ∨ k = target ∧ m = .bare merged depth Value.negInf Value.posInf false := by
    intro k m hk
    dsimp only [layer, target] at hk ⊢
    generalize recycled = place at hk
    cases place with
    | some _ => exact .inl (h m (Array.mem_of_getElem? hk))
    | none =>
      rw [Array.getElem?_push] at hk
      split at hk
      · rename_i heq
        exact .inr ⟨heq, (Option.some.inj hk).symm⟩
      · exact .inl (h m (Array.mem_of_getElem? hk))
  intro k m hk
  rw [Array.getElem?_modify] at hk
  split at hk
  · obtain ⟨m', hm', rfl⟩ := Option.map_eq_some_iff.1 hk
    have htarget : T { m' with merged := true, exact := false } := by
      rcases hlayer k m' hm' with hI | ⟨_, rfl⟩
      · exact hm.marked m' hI
      · exact hm.fresh merged depth
    exact ⟨hm.spared _ htarget, fun _ => htarget⟩
  · rename_i hne
    rcases hlayer k m hk with hI | ⟨heq, _⟩
    · exact ⟨hI, fun heq => absurd heq.symm hne⟩
    · exact absurd heq.symm hne

omit [BEq κ] in
/-- **So does fitting a layer to its width.** -/
theorem Merges.fit (hm : Merges r (above.headD #[]) I T) (h : ∀ n ∈ s.layer, I n) :
    ∀ n ∈ (DiagramSearch.fit audit r path above s).layer, I n := by
  unfold DiagramSearch.fit
  extract_lets width whole
  split
  · exact h
  · split
    · exact h
    · refine List.foldlRecOn _ _ (motive := fun l : Layer σ V => ∀ n ∈ l, I n) h ?_
      intro l hl c _ n hn
      obtain ⟨j, hj⟩ := Array.mem_iff_getElem?.1 hn
      exact Layer.invariant_modify (I := fun _ => I) hm.deleted
        (fun k m hk => hl m (Array.mem_of_getElem? hk)) j n hj
    · split
      · exact hm.mergeExcess _ h
      · exact h

omit [BEq σ] [BEq κ] in
/-- A merge makes up no descent: a merged node owes nothing. -/
theorem merges_bred (r : Request σ κ V) (parents' : Layer σ V) (p : Problem σ V) (x : Nat)
    (parents : Layer σ V) : Merges r parents' (fun n => n.lineage.Bred p x parents)
      fun n => n.merged = true ∧ n.exact = false where
  spared n hn hgenuine := by
    rcases hgenuine with h | h
    · exact absurd (hn.2.symm.trans h) Bool.false_ne_true
    · exact absurd (h.symm.trans hn.1) Bool.false_ne_true
  deleted _ hn := hn
  doomed _ hn := hn
  marked _ _ := ⟨rfl, rfl⟩
  fresh _ _ := ⟨rfl, rfl⟩
  takes n m parent e _ merged hn _ _ := by
    refine ⟨?_, ?_⟩
    · rw [Node.attach_merged, hn.1]
    · rw [Node.attach_exact, hn.2, Bool.and_false]

end Merge

omit [BEq κ] in
/-- **Only a merge changes where nodes come from**, and it is never the first two
layers that are merged. -/
theorem fit_cases (audit : Audit σ κ V) (r : Request σ κ V) (path : Path)
    (above : List (Layer σ V)) (s : Selection σ κ V) :
    (fit audit r path above s).layer.map Node.lineage = s.layer.map Node.lineage ∧
        (r.kind = .relaxed → (fit audit r path above s).reduced = false) ∨
      r.kind = .relaxed ∧ 1 < above.length ∧ (fit audit r path above s).reduced = true := by
  unfold fit
  extract_lets width whole
  split
  · exact .inl ⟨rfl, fun _ => rfl⟩
  · split
    · exact .inl ⟨rfl, fun _ => rfl⟩
    · rename_i hkind
      refine .inl ⟨?_, fun h => by rw [hkind] at h; cases h⟩
      exact Layer.lineage_foldl (fun layer c _ => layer.delete_lineage c.position) s.layer
    · rename_i hkind
      split
      · rename_i habove
        exact .inr ⟨hkind, habove, rfl⟩
      · exact .inl ⟨rfl, fun _ => rfl⟩

omit [BEq κ] in
/-- Fitting keeps at least one of the nodes that were selected. -/
theorem fit_kept_eq_nil (h : (fit audit r path above s).kept = []) :
    s.kept = [] ∧ (fit audit r path above s).layer = s.layer := by
  dsimp only [fit] at h ⊢
  have hwidth : 1 ≤ max r.width 1 := Nat.le_max_right _ _
  split at h
  · rename_i hle
    rw [if_pos hle]
    exact ⟨List.map_eq_nil_iff.1 h, rfl⟩
  · rename_i hlt
    exfalso
    have hne : s.kept ≠ [] := fun hnil => hlt (by simp [hnil])
    split at h
    · exact hne (List.map_eq_nil_iff.1 h)
    · have hlen := congrArg List.length (List.map_eq_nil_iff.1 h)
      rw [List.length_take, (r.reduction.perm _ r.ranking s.kept).length_eq] at hlen
      simp only [List.length_nil] at hlen
      omega
    · split at h
      · rw [mergeExcess] at h
        obtain ⟨hkept, hnew⟩ := List.append_eq_nil_iff.1 h
        split at hnew
        · rename_i hsome
          rw [List.map_eq_nil_iff.1 hkept] at hsome
          simp at hsome
        · exact absurd hnew (List.cons_ne_nil _ _)
      · exact hne (List.map_eq_nil_iff.1 h)

end Settle

/-! ### Round after round -/

/-- Layers, deepest first, of a diagram that was reduced below a given layer or
not at all: the nodes above the first merge are exact, and the first two layers
were not merged. -/
structure Spared (kind : Kind) (lastExact : Option Nat) (layers : List (Layer σ V)) : Prop where
  whole : kind ≠ .relaxed ∨ lastExact = none → ∀ layer ∈ layers, ∀ n ∈ layer, n.exact = true
  spared : kind = .relaxed → ∀ l, lastExact = some l → 0 < l ∧ l + 1 < layers.length ∧
    ∀ layer ∈ layers.drop (layers.length - 1 - l), ∀ n ∈ layer, n.exact = true

/-- Layers that also descend from the root. -/
structure Ancestral (r : Request σ κ V) (free : Variables) (lastExact : Option Nat)
    (layers : List (Layer σ V)) : Prop extends Spared r.kind lastExact layers where
  lineal : Lineal r.model.problem r.residual free layers

/-- What is above a layer does not depend on a layer below it. -/
theorem drop_cons_of_lt {α : Type} {a : α} {as : List α} {l : Nat} (h : l + 1 < as.length + 1) :
    (a :: as).drop ((a :: as).length - 1 - l) = as.drop (as.length - 1 - l) := by
  obtain ⟨k, hk⟩ : ∃ k, as.length = l + 1 + k := ⟨as.length - (l + 1), by omega⟩
  rw [List.length_cons, show as.length + 1 - 1 - l = k + 1 by omega,
    show as.length - 1 - l = k by omega, List.drop_succ_cons]

namespace Spared

variable {r : Request σ κ V} {d : Diagram σ V}

omit [Value V] in
/-- The layers that are spared do not depend on the deepest one. -/
theorem spared_head {kind : Kind} {lastExact : Option Nat} {layer layer' : Layer σ V}
    {above : List (Layer σ V)} (h : Spared kind lastExact (layer :: above))
    (hkind : kind = .relaxed) : ∀ l, lastExact = some l →
      0 < l ∧ l + 1 < (layer' :: above).length ∧
      ∀ l' ∈ (layer' :: above).drop ((layer' :: above).length - 1 - l),
        ∀ n ∈ l', n.exact = true := by
  intro l hl
  obtain ⟨hpos, hlt, hexact⟩ := h.spared hkind l hl
  refine ⟨hpos, hlt, ?_⟩
  rw [drop_cons_of_lt hlt] at hexact ⊢
  exact hexact

theorem rooted (kind : Kind) (P : Subproblem σ V) : Spared kind (Diagram.rooted P).lastExact
    ((Diagram.rooted P).pending :: (Diagram.rooted P).layers) := by
  refine ⟨fun _ layer hlayer n hn => ?_, fun _ l hl => ?_⟩
  · obtain rfl := List.mem_singleton.1 hlayer
    obtain rfl := Array.mem_singleton.1 hn
    rfl
  · cases hl

variable [BEq σ] [BEq κ] {audit : Audit σ κ V} {session : Session σ κ V}

/-- Completing the pending layer. -/
theorem settle (h : Spared r.kind d.lastExact (d.pending :: d.layers)) :
    Spared r.kind (d.lastExactAfter (settleLayer audit r session d).reduced)
      ((settleLayer audit r session d).layer :: d.layers) := by
  have hselected := select_lineage r session d.layers.isEmpty d.pending
  rcases fit_cases audit r d.path d.layers (select r session d.layers.isEmpty d.pending) with
    ⟨hsame, hreduced⟩ | ⟨hkind, habove, hreduced⟩
  · -- The layer has the nodes that it had, as far as descent goes.
    have hsame' := hsame.trans hselected
    refine ⟨fun hcase layer hlayer n hn => ?_, fun hkind => ?_⟩
    · have hwhole := h.whole (hcase.imp_right fun hnone =>
        (Diagram.lastExactAfter_eq_none_iff.1 hnone).1)
      rcases List.mem_cons.1 hlayer with rfl | hlayer
      · obtain ⟨m, hm, heq⟩ := Layer.exists_lineage_eq hsame' hn
        exact (congrArg Lineage.exact heq).trans (hwhole d.pending List.mem_cons_self m hm)
      · exact hwhole layer (List.mem_cons_of_mem _ hlayer) n hn
    · intro l hl
      rcases Diagram.lastExactAfter_eq_some_iff.1 hl with hlast | ⟨_, hred, _⟩
      · exact h.spared_head hkind l hlast
      · cases hred.symm.trans (hreduced hkind)
  · refine ⟨fun hcase => ?_, fun _ l hl => ?_⟩
    · exfalso
      rcases hcase with hne | hnone
      · exact hne hkind
      · cases hreduced.symm.trans (Diagram.lastExactAfter_eq_none_iff.1 hnone).2
    · rcases Diagram.lastExactAfter_eq_some_iff.1 hl with hlast | ⟨hlast, _, rfl⟩
      · exact h.spared_head hkind l hlast
      · -- It is the first merge, so all layers above it are exact.
        have hlt : d.layers.length - 1 + 1 < d.layers.length + 1 := by omega
        refine ⟨by omega, hlt, fun layer hlayer =>
          h.whole (.inr hlast) layer (List.mem_cons_of_mem _ ?_)⟩
        rw [drop_cons_of_lt hlt] at hlayer
        exact List.mem_of_mem_drop hlayer

omit [BEq σ] [BEq κ] [Value V] in
/-- Expanding a layer. -/
theorem expand {kind : Kind} {lastExact : Option Nat} {layer layer' pending : Layer σ V}
    {above : List (Layer σ V)} (h : Spared kind lastExact (layer :: above))
    (hsame : layer'.map Node.lineage = layer.map Node.lineage)
    (hexact : (∀ q ∈ layer, q.exact = true) → ∀ n ∈ pending, n.exact = true) :
    Spared kind lastExact (pending :: layer' :: above) := by
  refine ⟨fun hcase l hl n hn => ?_, fun hkind l hl => ?_⟩
  · have hwhole := h.whole hcase
    have hlayer := hwhole layer List.mem_cons_self
    rcases List.mem_cons.1 hl with rfl | hl
    · exact hexact hlayer n hn
    · rcases List.mem_cons.1 hl with rfl | hl
      · obtain ⟨m, hm, heq⟩ := Layer.exists_lineage_eq hsame hn
        exact (congrArg Lineage.exact heq).trans (hlayer m hm)
      · exact hwhole l (List.mem_cons_of_mem _ hl) n hn
  · obtain ⟨hpos, hlt, hall⟩ := h.spared hkind l hl
    simp only [List.length_cons] at hlt
    refine ⟨hpos, by simp only [List.length_cons]; omega, fun l' hl' => hall l' ?_⟩
    rw [drop_cons_of_lt (by simp only [List.length_cons]; omega), drop_cons_of_lt hlt] at hl'
    rw [drop_cons_of_lt hlt]
    exact hl'

end Spared

namespace Ancestral

variable {r : Request σ κ V} {free : Variables} {d : Diagram σ V}

theorem rooted (r : Request σ κ V) : Ancestral r (r.residual.free r.model.problem.variables)
    (Diagram.rooted r.residual).lastExact
    ((Diagram.rooted r.residual).pending :: (Diagram.rooted r.residual).layers) := by
  refine ⟨.rooted r.kind r.residual, .root fun n hn => ?_⟩
  obtain rfl := Array.mem_singleton.1 hn
  exact ⟨rfl, rfl, rfl⟩

variable [BEq σ] [BEq κ] {audit : Audit σ κ V} {session : Session σ κ V}

/-- **Completing the pending layer keeps its descent.** -/
theorem settle (h : Ancestral r free d.lastExact (d.pending :: d.layers)) :
    Ancestral r free (d.lastExactAfter (settleLayer audit r session d).reduced)
      ((settleLayer audit r session d).layer :: d.layers) := by
  refine ⟨h.toSpared.settle, ?_⟩
  have hselected := select_lineage r session d.layers.isEmpty d.pending
  have hlineal := h.lineal.congr_head hselected.symm
  rcases fit_cases audit r d.path d.layers (select r session d.layers.isEmpty d.pending) with
    ⟨hsame, _⟩ | ⟨_, habove, _⟩
  · exact h.lineal.congr_head (hsame.trans hselected).symm
  · obtain ⟨parents, above, hlayers⟩ : ∃ parents above, d.layers = parents :: above :=
      List.exists_cons_of_length_pos (by omega)
    unfold settleLayer
    rw [hlayers] at hlineal ⊢
    cases hlineal with
    | next hx hup hbred => exact .next hx hup ((merges_bred r _ _ _ parents).fit hbred)

omit [BEq κ] in
/-- **Expanding a layer adds a layer that descends from it.** -/
theorem expand [LawfulBEq σ] [Hashable σ] (hpure : r.model.problem.Pure)
    {lastExact : Option Nat} {x : Nat} {f : Fitted σ κ V} {above : List (Layer σ V)}
    (h : Ancestral r free lastExact (f.layer :: above)) (hx : x ∈ free) (index : Nat) :
    Ancestral r (free.erase x) lastExact ((f.expansion r free index x).pending ::
      (f.expansion r free index x).layer :: above) := by
  have hspreads : Spreads r.model.problem x f.layer _ := spreads_bred hpure
  have hbred := f.breeds hspreads free index
  have hexact := f.breeds (spreads_exact r.model.problem x f.layer) free index
  refine ⟨h.toSpared.expand hbred.same fun hall n hn => hexact.each n hn hall, ?_⟩
  exact .next hx (h.lineal.congr_head hbred.same.symm) fun n hn =>
    (hbred.each n hn).congr hbred.same.symm

end Ancestral

section Rounds

variable [BEq σ] [LawfulBEq σ] [Hashable σ] [BEq κ] {r : Request σ κ V} {audit : Audit σ κ V}
  {start session : Session σ κ V} {free : Variables} {d : Diagram σ V}

/-- **Every layer of a diagram descends from the one above it**, in every round. -/
theorem Rounds.ancestral (hpure : r.model.problem.Pure)
    (h : Rounds audit r start session free d) :
    Ancestral r free d.lastExact (d.pending :: d.layers) := by
  induction h with
  | root => exact .rooted r
  | next h hf _ _ _ hx _ ih =>
    subst hf hx
    exact ih.settle.expand hpure (Subtype.property _) _

omit [LawfulBEq σ] in
/-- Nothing else is known of a diagram in the making. -/
theorem Rounds.frame (h : Rounds audit r start session free d) :
    d.path = r.residual.path ∧ d.cutset = [] := by
  induction h with
  | root => exact ⟨rfl, rfl⟩
  | next _ _ _ _ _ _ _ ih => exact ih

/-- A diagram that is complete. -/
structure Descended (r : Request σ κ V) (free : Variables) (d : Diagram σ V) : Prop where
  path : d.path = r.residual.path
  cutset : d.cutset = []
  ancestral : Ancestral r free d.lastExact d.layers
  /-- A rule that picks as long as it can leaves nothing free. -/
  ended : r.branching.Total → ∀ layer ∈ d.layers.head?, ∀ n ∈ layer, n.isAlive = true →
    free.size = 0

/-- **An unrolling without a fault leaves a diagram that is complete.** -/
theorem Request.unroll_descended (hpure : r.model.problem.Pure) (audit : Audit σ κ V)
    (session : Session σ κ V) (hok : (r.unroll audit session).fault = none) :
    ∃ free, Descended r free (r.unroll audit session).diagram := by
  obtain ⟨session', free, d, hrounds, hlast⟩ := r.unroll_lastRound hok
  refine ⟨free, ?_⟩
  rw [hlast.eq]
  refine ⟨hrounds.frame.1, hrounds.frame.2, (hrounds.ancestral hpure).settle,
    fun htotal layer hlayer n hn halive => ?_⟩
  obtain rfl : (settleLayer audit r session' d).layer = layer := Option.some.inj hlayer
  rcases hlast.done with hkept | hnone
  · obtain ⟨hnil, hsame⟩ := fit_kept_eq_nil hkept
    unfold settleLayer at hn
    rw [hsame] at hn
    exact absurd hnil (select_alive hn halive)
  · by_contra hsize
    have hsome := htotal free (d.pending.toList.map (·.state)) hsize
    rw [hnone] at hsome
    cases hsome

end Rounds
end DiagramSearch

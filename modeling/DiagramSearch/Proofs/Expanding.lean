/-
# What expanding a layer reaches

The pending layer grows edge by edge.  `Reached` is what holds of it at every
moment: each of its nodes is fresh and joined to the layer that is expanded, and
the decisions taken so far have led somewhere.  `connect_reached` is one edge,
`expand_expanded` one node, `foldl_expand` the whole layer; a watched model that is pure
never gives rise to a fault.
-/

import DiagramSearch.Proofs.Linkage
import DiagramSearch.Proofs.Sessions
import DiagramSearch.Diagram.Expansion

namespace DiagramSearch

open Extended

variable {σ κ : Type} [BEq σ] [LawfulBEq σ] [Hashable σ]

theorem sameState_iff {a b : σ} : sameState a b = true ↔ a = b := by
  unfold sameState
  constructor
  · intro h
    exact eq_of_beq (Bool.and_eq_true_iff.1 h).1
  · rintro rfl
    simp

omit [LawfulBEq σ] in
theorem sameState_self [ReflBEq σ] (a : σ) : sameState a a = true := by
  simp [sameState]

omit [LawfulBEq σ] in
/-- Equal states have equal hashes. -/
theorem sameState_eq_beq [EquivBEq σ] [LawfulHashable σ] (a b : σ) :
    sameState a b = (a == b) := by
  unfold sameState
  cases heq : a == b with
  | false => rfl
  | true =>
    rw [hash_eq heq]
    exact beq_self_eq_true (hash b)

/-- A node as it is when its layer is not yet completed, with its first bound. -/
structure Node.Fresh (n : Node σ Extended) (bound : Extended) : Prop where
  fate : n.fate = .alive
  merged : n.merged = false
  tail : n.tail = none
  threshold : n.threshold = none
  cutset : n.cutset = false
  borrowed : n.borrowed = false
  roughBound : n.roughBound = bound

/-- The nodes that decisions taken in the nodes of a layer have reached. -/
structure Reached (r : Request σ κ Extended) (i : Nat) (layer pending : Layer σ Extended)
    (taken : Nat → Decision → Prop) : Prop where
  joined : ∀ n ∈ pending, n.Joined r i layer
  fresh : ∀ n ∈ pending, n.Fresh posInf
  reached : ∀ j p d, layer[j]? = some p → taken j d → ∃ n ∈ pending,
    n.state = r.model.problem.transition 0 p.state d ∧
      ⟨j, d, r.model.problem.cost p.state d⟩ ∈ n.inbound

variable {r : Request σ κ Extended} {i : Nat} {layer pending : Layer σ Extended}
  {taken : Nat → Decision → Prop}

/-! ### One edge -/

omit [LawfulBEq σ] in
/-- A decision leads to the node of its state, or to a new one if there is none. -/
theorem Layer.connect_cases {V : Type} [Value V] (pending : Layer σ V) (parent : Node σ V)
    (state : σ) (e : Edge V) :
    (∃ k, ∃ n, pending[k]? = some n ∧ sameState n.state state = true ∧
      pending.connect parent state e = pending.modify k fun n => n.attach parent e) ∨
    (∀ n ∈ pending, sameState n.state state = false) ∧
      pending.connect parent state e = pending.push ((Node.bare state (parent.depth + 1)
        (parent.longest + e.cost) Value.posInf parent.exact).attach parent e) := by
  unfold Layer.connect
  split
  · rename_i k hk
    obtain ⟨hlt, hsame, _⟩ := Array.findIdx?_eq_some_iff_getElem.1 hk
    exact .inl ⟨k, pending[k], Array.getElem?_eq_getElem hlt, hsame, rfl⟩
  · rename_i hnone
    exact .inr ⟨Array.findIdx?_eq_none_iff.1 hnone, rfl⟩

omit [BEq σ] [LawfulBEq σ] [Hashable σ] in
/-- A node that a first edge leads to. -/
theorem Node.joined_bare_attach {j : Nat} {p : Node σ Extended} {d : Decision}
    (hp : layer[j]? = some p) (hdepth : p.depth = r.residual.depth + i)
    (halive : p.isAlive = true) (hbranch : r.Branches i p.state d) (hexp : r.Expands i p) :
    ((Node.bare (r.model.problem.transition 0 p.state d) (p.depth + 1)
      (p.longest + r.model.problem.cost p.state d) Value.posInf p.exact).attach p
        ⟨j, d, r.model.problem.cost p.state d⟩).Joined r i layer where
  depth := by
    rw [Node.attach_depth]
    change p.depth + 1 = _
    omega
  edge := by
    intro e he
    rw [Node.attach_inbound] at he
    obtain rfl := List.mem_singleton.1 he
    refine ⟨p, hp, halive, hbranch, hexp, ?_, ?_, ?_⟩
    · rw [Node.attach_longest]
      exact le_max_right _ _
    · rw [Node.attach_exact, Bool.and_eq_true]
      exact And.left
    · intro _
      rw [Node.attach_state]
      exact ⟨rfl, rfl⟩
  merged := by
    intro hm
    rw [Node.attach_merged] at hm
    exact absurd hm Bool.false_ne_true
  exact := by
    intro _ hall
    rw [Node.attach_exact]
    have hex : p.exact = true := hall _ (by rw [Node.attach_inbound]; exact List.mem_cons_self) p hp
    exact Bool.and_eq_true_iff.2 ⟨hex, hex⟩
  best := by
    refine ⟨_, p, Node.bestEdge?_attach_of_le _ _ _ le_rfl, hp, ?_⟩
    rw [Node.attach_longest]
    exact max_self _

omit [BEq σ] [LawfulBEq σ] [Hashable σ] in
theorem Node.Fresh.attach {n p : Node σ Extended} {e : Edge Extended} {bound : Extended}
    (h : n.Fresh bound) : (n.attach p e).Fresh bound where
  fate := by rw [attach_fate]; exact h.fate
  merged := by rw [attach_merged]; exact h.merged
  tail := by rw [attach_tail]; exact h.tail
  threshold := by rw [attach_threshold]; exact h.threshold
  cutset := by rw [attach_cutset]; exact h.cutset
  borrowed := by rw [attach_borrowed]; exact h.borrowed
  roughBound := by rw [attach_roughBound]; exact h.roughBound

section Reached

variable {j : Nat} {p : Node σ Extended} {d : Decision} (hp : layer[j]? = some p)
  (halive : p.isAlive = true) (hbranch : r.Branches i p.state d) (hexp : r.Expands i p)

include hp halive hbranch hexp

omit [BEq σ] [LawfulBEq σ] [Hashable σ] in
/-- Where the state is there already, its node takes the edge. -/
theorem Reached.attach (h : Reached r i layer pending taken) {k : Nat} {m : Node σ Extended}
    (hm : pending[k]? = some m) (hstate : m.state = r.model.problem.transition 0 p.state d) :
    Reached r i layer
      (pending.modify k fun n => n.attach p ⟨j, d, r.model.problem.cost p.state d⟩)
      (fun j' d' => taken j' d' ∨ (j' = j ∧ d' = d)) := by
  have hget : ∀ k', (pending.modify k fun n =>
      n.attach p ⟨j, d, r.model.problem.cost p.state d⟩)[k']? =
        if k = k' then some (m.attach p ⟨j, d, r.model.problem.cost p.state d⟩)
        else pending[k']? := by
    intro k'
    rw [Array.getElem?_modify]
    split
    · rename_i hkk
      rw [← hkk, hm, Option.map_some]
    · rfl
  have hmem : m ∈ pending := Array.mem_of_getElem? hm
  refine ⟨fun n hn => ?_, fun n hn => ?_, fun j' p' d' hp' htaken => ?_⟩
  · obtain ⟨k', hk'⟩ := Array.mem_iff_getElem?.1 hn
    rw [hget k'] at hk'
    split at hk'
    · obtain rfl := Option.some.inj hk'
      exact (h.joined m hmem).attach hp halive hbranch hexp fun _ => ⟨hstate, rfl⟩
    · exact h.joined n (Array.mem_of_getElem? hk')
  · obtain ⟨k', hk'⟩ := Array.mem_iff_getElem?.1 hn
    rw [hget k'] at hk'
    split at hk'
    · obtain rfl := Option.some.inj hk'
      exact (h.fresh m hmem).attach
    · exact h.fresh n (Array.mem_of_getElem? hk')
  · have hnew : m.attach p ⟨j, d, r.model.problem.cost p.state d⟩ ∈
        pending.modify k fun n => n.attach p ⟨j, d, r.model.problem.cost p.state d⟩ :=
      Array.mem_of_getElem? (by rw [hget k, if_pos rfl])
    rcases htaken with htaken | ⟨rfl, rfl⟩
    · obtain ⟨n, hn, hns, hedge⟩ := h.reached j' p' d' hp' htaken
      obtain ⟨k', hk'⟩ := Array.mem_iff_getElem?.1 hn
      by_cases hkk : k = k'
      · subst hkk
        obtain rfl := Option.some.inj (hm.symm.trans hk')
        refine ⟨_, hnew, by rw [Node.attach_state]; exact hns, ?_⟩
        rw [Node.attach_inbound]
        exact List.mem_cons_of_mem _ hedge
      · exact ⟨n, Array.mem_of_getElem? (by rw [hget k', if_neg hkk]; exact hk'), hns, hedge⟩
    · obtain rfl := Option.some.inj (hp.symm.trans hp')
      refine ⟨_, hnew, by rw [Node.attach_state]; exact hstate, ?_⟩
      rw [Node.attach_inbound]
      exact List.mem_cons_self

omit [BEq σ] [LawfulBEq σ] [Hashable σ] in
/-- Where the state is new, so is its node. -/
theorem Reached.push (h : Reached r i layer pending taken)
    (hdepth : p.depth = r.residual.depth + i) :
    Reached r i layer
      (pending.push ((Node.bare (r.model.problem.transition 0 p.state d) (p.depth + 1)
        (p.longest + r.model.problem.cost p.state d) Value.posInf p.exact).attach p
          ⟨j, d, r.model.problem.cost p.state d⟩))
      (fun j' d' => taken j' d' ∨ (j' = j ∧ d' = d)) := by
  refine ⟨fun n hn => ?_, fun n hn => ?_, fun j' p' d' hp' htaken => ?_⟩
  · rcases Array.mem_push.1 hn with hn | rfl
    · exact h.joined n hn
    · exact Node.joined_bare_attach hp hdepth halive hbranch hexp
  · rcases Array.mem_push.1 hn with hn | rfl
    · exact h.fresh n hn
    · exact Node.Fresh.attach ⟨rfl, rfl, rfl, rfl, rfl, rfl, rfl⟩
  · rcases htaken with htaken | ⟨rfl, rfl⟩
    · obtain ⟨n, hn, hns, hedge⟩ := h.reached j' p' d' hp' htaken
      exact ⟨n, Array.mem_push.2 (.inl hn), hns, hedge⟩
    · obtain rfl := Option.some.inj (hp.symm.trans hp')
      refine ⟨_, Array.mem_push.2 (.inr rfl), Node.attach_state _ _ _, ?_⟩
      rw [Node.attach_inbound]
      exact List.mem_cons_self

/-- **An edge that is led to its state adds one decision to those taken.** -/
theorem connect_reached (h : Reached r i layer pending taken)
    (hdepth : p.depth = r.residual.depth + i) :
    Reached r i layer
      (pending.connect p (r.model.problem.transition 0 p.state d)
        ⟨j, d, r.model.problem.cost p.state d⟩)
      (fun j' d' => taken j' d' ∨ (j' = j ∧ d' = d)) := by
  rcases Layer.connect_cases pending p (r.model.problem.transition 0 p.state d)
      ⟨j, d, r.model.problem.cost p.state d⟩ with ⟨k, m, hm, hsame, heq⟩ | ⟨_, heq⟩
  · rw [heq]
    exact h.attach hp halive hbranch hexp hm (sameState_iff.1 hsame)
  · rw [heq]
    exact h.push hp halive hbranch hexp hdepth

end Reached

/-! ### One node, and a whole layer -/

omit [LawfulBEq σ] in
/-- A pure model leads each decision to its state, watched or not. -/
theorem Expansion.branch_eq [ReflBEq σ] {V : Type} [Value V] {problem : Problem σ V}
    (hpure : problem.Pure) (checks : Checks) (source : Nat) (parent : Node σ V)
    {x : Expansion σ κ V} (hx : x.fault = none) (d : Decision) :
    ∃ after, x.session.Quiet after ∧
      branch problem checks source parent x d = { x with
        session := after
        pending := x.pending.connect parent (problem.transition 0 parent.state d)
          ⟨source, d, problem.cost parent.state d⟩ } := by
  have hsome : ¬x.fault.isSome = true := by simp [hx]
  unfold branch
  rw [if_neg hsome]
  simp only [hpure _ 0 parent.state d, sameState_self, if_true]
  split
  · exact ⟨x.session.applied.applied, x.session.quiet_applied.trans (Session.quiet_applied _), rfl⟩
  · exact ⟨x.session.applied, x.session.quiet_applied, rfl⟩

/-- A layer of which some positions were expanded. -/
structure Expanded (r : Request σ κ Extended) (i : Nat) (layer : Layer σ Extended)
    (session : Session σ κ Extended) (done : List Nat) (x : Expansion σ κ Extended) : Prop where
  fault : x.fault = none
  quiet : session.Quiet x.session
  bounded : ∀ j, x.layer[j]? = layer[j]?.map fun n =>
    if j ∈ done then
      { n with roughBound := r.model.relaxation.upperBound n.state (r.freeAt i) }
    else n
  reached : Reached r i layer x.pending fun j d =>
    j ∈ done ∧ ∃ p, layer[j]? = some p ∧ r.Expands i p ∧ r.Branches i p.state d

omit [BEq σ] [LawfulBEq σ] [Hashable σ] in
theorem Reached.mono {taken' : Nat → Decision → Prop} (h : Reached r i layer pending taken)
    (himp : ∀ j d, taken' j d → taken j d) : Reached r i layer pending taken' :=
  ⟨h.joined, h.fresh, fun j p d hp ht => h.reached j p d hp (himp j d ht)⟩

/-- Every decision in a node is taken. -/
theorem foldl_branch_reached (hpure : r.model.problem.Pure) {j : Nat} {p : Node σ Extended}
    (hp : layer[j]? = some p) (hdepth : p.depth = r.residual.depth + i)
    (halive : p.isAlive = true) (hexp : r.Expands i p) (ds : List Decision)
    (hds : ∀ d ∈ ds, r.Branches i p.state d) (x : Expansion σ κ Extended) (hx : x.fault = none)
    (h : Reached r i layer x.pending taken) :
    ∃ y, ds.foldl (Expansion.branch r.model.problem r.checks j p) x = y ∧ y.fault = none ∧
      x.session.Quiet y.session ∧ y.layer = x.layer ∧
      Reached r i layer y.pending fun j' d' => taken j' d' ∨ (j' = j ∧ d' ∈ ds) := by
  induction ds generalizing x taken with
  | nil =>
    refine ⟨x, rfl, hx, .refl _, rfl, h.mono ?_⟩
    rintro j' d' (ht | ⟨_, hd⟩)
    · exact ht
    · exact absurd hd List.not_mem_nil
  | cons d ds ih =>
    obtain ⟨after, hquiet, heq⟩ := Expansion.branch_eq hpure r.checks j p hx d
    have hstep := connect_reached hp halive (hds d List.mem_cons_self) hexp h hdepth
    rw [List.foldl_cons, heq]
    obtain ⟨y, hy, hfault, hquiet', hlayer, hreached⟩ :=
      ih (fun e he => hds e (List.mem_cons_of_mem d he))
        { x with
          session := after
          pending := x.pending.connect p (r.model.problem.transition 0 p.state d)
            ⟨j, d, r.model.problem.cost p.state d⟩ } hx hstep
    refine ⟨y, hy, hfault, hquiet.trans hquiet', hlayer, hreached.mono ?_⟩
    rintro j' d' (ht | ⟨hj, hd⟩)
    · exact .inl (.inl ht)
    · rcases List.mem_cons.1 hd with rfl | hd
      · exact .inl (.inr ⟨hj, rfl⟩)
      · exact .inr ⟨hj, hd⟩

omit [BEq σ] [LawfulBEq σ] [Hashable σ] in
/-- Where a variable is picked, the decisions are those of its domain. -/
theorem Request.branches_iff {v : { v : Nat // v ∈ r.freeAt i }}
    (hv : r.branching (r.freeAt i) [] = some v) {s : σ} {d : Decision} :
    r.Branches i s d ↔ d ∈ r.model.problem.domain v s := by
  constructor
  · rintro ⟨w, hw, hd⟩
    obtain rfl := Option.some.inj (hv.symm.trans hw)
    exact hd
  · exact fun hd => ⟨v, hv, hd⟩

omit [BEq σ] [LawfulBEq σ] [Hashable σ] in
/-- One more node gets its bound, which it may have had already. -/
theorem Expanded.modify_bounded {session : Session σ κ Extended} {done : List Nat}
    {x : Expansion σ κ Extended} (h : Expanded r i layer session done x) {j : Nat}
    {p : Node σ Extended} (hp : layer[j]? = some p) (k : Nat) :
    (x.layer.modify j fun n =>
      { n with roughBound := r.model.relaxation.upperBound p.state (r.freeAt i) })[k]? =
        layer[k]?.map fun n => if k ∈ j :: done then
          { n with roughBound := r.model.relaxation.upperBound n.state (r.freeAt i) } else n := by
  rw [Array.getElem?_modify, h.bounded k]
  by_cases hk : j = k
  · subst hk
    rw [if_pos rfl, hp]
    simp only [Option.map_some, List.mem_cons_self, if_true]
    split <;> rfl
  · rw [if_neg hk]
    simp only [List.mem_cons, Ne.symm hk, false_or]

/-- One more node is bounded and, unless its bound rules it out, branched. -/
theorem expand_expanded (hpure : r.model.problem.Pure)
    {v : { v : Nat // v ∈ r.freeAt i }} (hv : r.branching (r.freeAt i) [] = some v)
    {session : Session σ κ Extended} {done : List Nat} {x : Expansion σ κ Extended}
    (h : Expanded r i layer session done x) {j : Nat} {p : Node σ Extended}
    (hp : layer[j]? = some p) (hdepth : p.depth = r.residual.depth + i)
    (halive : p.isAlive = true) :
    Expanded r i layer session (j :: done) (Expansion.expand r (r.freeAt i) v x j) := by
  -- The node itself is as before, except that its bound may have been set already.
  obtain ⟨q, hq, hqs, hql, hqe, hqd⟩ : ∃ q, x.layer[j]? = some q ∧ q.state = p.state ∧
      q.longest = p.longest ∧ q.exact = p.exact ∧ q.depth = p.depth := by
    rw [h.bounded j, hp, Option.map_some]
    refine ⟨_, rfl, ?_⟩
    split <;> exact ⟨rfl, rfl, rfl, rfl⟩
  have hlayer := h.modify_bounded hp
  unfold Expansion.expand
  simp only [h.fault, hq]
  split
  · rename_i hle
    refine ⟨rfl, h.quiet, fun k => by rw [hqs]; exact hlayer k, h.reached.mono ?_⟩
    rintro k d ⟨hk, n, hn, hexp, hd⟩
    rcases List.mem_cons.1 hk with rfl | hk
    · obtain rfl := Option.some.inj (hp.symm.trans hn)
      refine absurd hexp (not_lt.2 ?_)
      rwa [hqs, hql] at hle
    · exact ⟨hk, n, hn, hexp, hd⟩
  · rename_i hgt
    have hexp : r.Expands i p := by
      rw [hqs, hql] at hgt
      exact not_le.1 hgt
    -- The node is read with its new bound, which no edge depends on.
    have hattach : Expansion.branch r.model.problem r.checks j q =
        (Expansion.branch r.model.problem r.checks j p :
          Expansion σ κ Extended → Decision → Expansion σ κ Extended) := by
      funext y d
      unfold Expansion.branch Layer.connect
      simp only [Node.attach, hqs, hql, hqe, hqd]
    rw [hattach, hqs]
    obtain ⟨y, hy, hfault, hquiet, hylayer, hreached⟩ :=
      foldl_branch_reached hpure hp hdepth halive hexp (r.model.problem.domain v p.state)
        (fun d hd => (Request.branches_iff hv).2 hd)
        { x with layer := x.layer.modify j fun n =>
          { n with roughBound := r.model.relaxation.upperBound p.state (r.freeAt i) } }
        h.fault h.reached
    rw [h.fault] at hy
    rw [hy]
    refine ⟨hfault, h.quiet.trans hquiet, fun k => by rw [hylayer]; exact hlayer k,
      hreached.mono ?_⟩
    rintro k d ⟨hk, n, hn, hexp', hd⟩
    rcases List.mem_cons.1 hk with rfl | hk
    · obtain rfl := Option.some.inj (hp.symm.trans hn)
      exact .inr ⟨rfl, (Request.branches_iff hv).1 hd⟩
    · exact .inl ⟨hk, n, hn, hexp', hd⟩

/-- **Expanding positions one after the other takes every decision in them.** -/
theorem foldl_expand (hpure : r.model.problem.Pure)
    {v : { v : Nat // v ∈ r.freeAt i }} (hv : r.branching (r.freeAt i) [] = some v)
    {session : Session σ κ Extended} (positions done : List Nat) {x : Expansion σ κ Extended}
    (h : Expanded r i layer session done x)
    (hpos : ∀ j ∈ positions, ∃ p, layer[j]? = some p ∧ p.depth = r.residual.depth + i ∧
      p.isAlive = true) :
    Expanded r i layer session (positions.reverse ++ done)
      (positions.foldl (Expansion.expand r (r.freeAt i) v) x) := by
  induction positions generalizing x done with
  | nil => exact h
  | cons j js ih =>
    obtain ⟨p, hp, hdepth, halive⟩ := hpos j List.mem_cons_self
    rw [List.reverse_cons, List.append_assoc]
    exact ih (j :: done) (expand_expanded hpure hv h hp hdepth halive)
      fun k hk => hpos k (List.mem_cons_of_mem j hk)

end DiagramSearch

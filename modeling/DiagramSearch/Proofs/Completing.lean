/-
# Completing the pending layer

Selection and fitting together: `settleLayer_completed` says that the pending
layer below a layer becomes a settled and linked one, in a session that only put
questions to the dominance table, and without a fault.  `mergeExcess_completes` is
the case of a merge: the merged node takes the place of a kept node of its state
(`hosts_recycled`) or a new one (`hosts_fresh`).

With extended checks a merge is judged by an audit.  A merge is fair (`Fair`)
when no absorbed sub-problem is worth more than the merged one, which is what a
sound model guarantees (`Absorbing.fair`); an audit that passes every fair merge
is lenient (`Audit.Lenient`).  Whatever the model, an audit that only passes merges
whose parts do not surpass the merged sub-problem is exacting (`Audit.Exacting`), and
then what it passed is nearly as good (`Approximates`).
-/

import DiagramSearch.Proofs.Merging

namespace DiagramSearch

open Extended

variable {σ κ : Type} {r : Request σ κ Extended} {i : Nat} {parents layer : Layer σ Extended}

/-! ### Fair merges -/

/-- A sub-problem that leaves the variables of a layer free, if paths tell which
variables are assigned. -/
def Apt (r : Request σ κ Extended) (i : Nat) (s : Subproblem σ Extended) : Prop :=
  r.model.problem.Focused → s.free r.model.problem.variables = r.freeAt i

/-- A merge in a layer that loses nothing. -/
structure Fair (r : Request σ κ Extended) (i : Nat) (m : Subproblem σ Extended)
    (parts : List (Subproblem σ Extended)) : Prop where
  apt : Apt r i m
  part : ∀ s ∈ parts, Apt r i s ∧ s.value ≠ negInf ∧
    s.value + r.optimumAt i s.state ≤ m.value + r.optimumAt i m.state

/-- An audit that only reports to the log. -/
def Audit.Discreet (audit : Audit σ κ Extended) : Prop :=
  ∀ (session : Session σ κ Extended) m parts, session.Quiet (audit session m parts).1

/-- An audit that finds nothing wrong with a fair merge. -/
def Audit.Lenient (audit : Audit σ κ Extended) (r : Request σ κ Extended) : Prop :=
  r.kind = .relaxed → ∀ session i m parts, Fair r i m parts → (audit session m parts).2 = none

/-- An audit that only passes a merge if none of its parts surpasses the merged
sub-problem. -/
def Audit.Exacting (audit : Audit σ κ Extended) (r : Request σ κ Extended) : Prop :=
  r.kind = .relaxed → ∀ session i m parts, Apt r i m → (∀ s ∈ parts, Apt r i s) →
    (audit session m parts).2 = none → ∀ s ∈ parts,
      Value.surpasses (s.value + r.optimumAt i s.state) (m.value + r.optimumAt i m.state) = false

/-- A node that is worth expanding is reached. -/
theorem Request.Expands.longest_ne_negInf {n : Node σ Extended} (h : r.Expands i n) :
    n.longest ≠ negInf := by
  intro hneg
  unfold Request.Expands at h
  rw [hneg, negInf_add] at h
  exact absurd h (not_lt.2 (negInf_le _))

/-- So is a node that is not merged. -/
theorem Node.Joined.longest_ne_negInf (hr : r.Regular) {n : Node σ Extended}
    (h : n.Joined r i parents) (hm : n.merged = false) : n.longest ≠ negInf := by
  obtain ⟨e, p, _, _, hlongest, hfrom⟩ := h.from_best
  rw [hlongest, (hfrom.original hm).2]
  exact add_ne_negInf_iff.2 ⟨hfrom.expands.longest_ne_negInf, ne_negInf_of_isFinite (hr.finite _ _)⟩

/-- Every node of a layer that is alive is matched by one of another layer: what can
be reached through it can be reached through that one. -/
def Represents (r : Request σ κ Extended) (i : Nat) (layer now : Layer σ Extended) : Prop :=
  ∀ n ∈ layer, n.isAlive = true → ∃ m ∈ now, m.isAlive = true ∧
    n.longest + r.optimumAt i n.state ≤ m.longest + r.optimumAt i m.state

theorem Represents.refl (r : Request σ κ Extended) (i : Nat) (layer : Layer σ Extended) :
    Represents r i layer layer := fun n hn ha => ⟨n, hn, ha, le_rfl⟩

/-- Every node of a layer that is alive is matched by one of another layer that it does
not surpass. -/
def Approximates (r : Request σ κ Extended) (i : Nat) (layer now : Layer σ Extended) : Prop :=
  ∀ n ∈ layer, n.isAlive = true → ∃ m ∈ now, m.isAlive = true ∧
    Value.surpasses (n.longest + r.optimumAt i n.state) (m.longest + r.optimumAt i m.state) = false

theorem Represents.approximates {now : Layer σ Extended} (h : Represents r i layer now) :
    Approximates r i layer now := fun n hn halive =>
  (h n hn halive).imp fun _ hm => ⟨hm.1, hm.2.1, not_surpasses hm.2.2⟩

section Fair

variable {target : Nat} {merged : σ} {gone : List (Candidate σ Extended)}
  {now : Layer σ Extended} {m n : Node σ Extended}

/-- **A merged node is worth at least what each node that it absorbed is.** -/
theorem Absorbing.worth_le (hr : r.Regular)
    (h : Absorbing r i parents layer target merged gone now) (harrived : Arrived r i parents layer)
    {xs : List σ} (hmerged : merged = r.model.relaxation.merge xs)
    (hxs : ∀ c ∈ gone, ∀ n, layer[c.position]? = some n → n.state ∈ xs)
    (hm : now[target]? = some m) {c : Candidate σ Extended} (hc : c ∈ gone)
    (hn : layer[c.position]? = some n) :
    n.longest + r.optimumAt (i + 1) n.state ≤ m.longest + r.optimumAt (i + 1) m.state := by
  have hmem := Array.mem_of_getElem? hn
  obtain ⟨e, p, he, hp, hlongest, hfrom⟩ := (harrived.joined n hmem).from_best
  obtain ⟨hstate, hcost⟩ := hfrom.original (harrived.intact n hmem).1
  obtain ⟨v, _, hd⟩ := hfrom.branches
  obtain ⟨m', hm', hgathers, _, _, hgone⟩ := h.target
  obtain rfl := Option.some.inj (hm.symm.trans hm')
  -- The merged node has the relaxed copy of the best edge.
  have hedge := hgone c hc n hn e (Node.mem_inbound_of_bestEdge? he) p hp
  obtain ⟨q, hq, hfrom'⟩ := hgathers.hung.edge _ hedge
  obtain rfl := Option.some.inj (hp.symm.trans hq)
  have hcover := hr.sound.covering xs (r.freeAt (i + 1)) p.state v e.decision hd
    (hstate ▸ hxs c hc n hn)
  rw [← hcost, ← hstate, ← hmerged] at hcover
  calc n.longest + r.optimumAt (i + 1) n.state
      = p.longest + (e.cost + r.optimumAt (i + 1) n.state) := by rw [hlongest, add_assoc]
    _ ≤ p.longest + (r.model.relaxation.relax p.state n.state merged e.decision e.cost
          + r.optimumAt (i + 1) merged) := add_le_add_right hcover _
    _ = p.longest + r.model.relaxation.relax p.state n.state merged e.decision e.cost
          + r.optimumAt (i + 1) m.state := by rw [add_assoc, hgathers.state]
    _ ≤ m.longest + r.optimumAt (i + 1) m.state := add_le_add_left hfrom'.le_longest _

/-- **What can be reached before a merge can be reached after it**, as far as the merged
node makes up for those that it absorbed. -/
theorem Absorbing.matches {R : Extended → Extended → Prop} (hR : ∀ a b, a ≤ b → R a b)
    (h : Absorbing r i parents layer target merged gone now) (harrived : Arrived r i parents layer)
    (htarget : ∀ n, layer[target]? = some n → n.state = merged)
    (hworth : ∀ m, now[target]? = some m → ∀ c ∈ gone, ∀ n, layer[c.position]? = some n →
      R (n.longest + r.optimumAt (i + 1) n.state) (m.longest + r.optimumAt (i + 1) m.state)) :
    ∀ n ∈ layer, n.isAlive = true → ∃ m ∈ now, m.isAlive = true ∧
      R (n.longest + r.optimumAt (i + 1) n.state) (m.longest + r.optimumAt (i + 1) m.state) := by
  intro n hn halive
  obtain ⟨j, hj⟩ := Array.mem_iff_getElem?.1 hn
  obtain ⟨m, hm, hgathers, _, hkeep, _⟩ := h.target
  have hmalive : m.isAlive = true := by simp [Node.isAlive, hgathers.alive]
  by_cases hjt : j = target
  · -- The node that takes the others in keeps its edges, so its longest path.
    subst hjt
    obtain ⟨e, p, he, hp, hlongest, _⟩ := (harrived.joined n hn).from_best
    obtain ⟨q, hq, hfrom⟩ :=
      hgathers.hung.edge e (hkeep n hj e (Node.mem_inbound_of_bestEdge? he))
    obtain rfl := Option.some.inj (hp.symm.trans hq)
    refine ⟨m, Array.mem_of_getElem? hm, hmalive, hR _ _ ?_⟩
    rw [hgathers.state, ← htarget n hj, hlongest]
    exact add_le_add_left hfrom.le_longest _
  · by_cases hgone : j ∈ gone.map (·.position)
    · obtain ⟨c, hc, rfl⟩ := List.mem_map.1 hgone
      exact ⟨m, Array.mem_of_getElem? hm, hmalive, hworth m hm c hc n hj⟩
    · refine ⟨n, Array.mem_of_getElem? (i := j) ?_, halive, hR _ _ le_rfl⟩
      rw [h.other j hjt, hj, Option.map_some, if_neg hgone]

/-- What an audit is given of the absorbed nodes: their sub-problems before the merge. -/
theorem Absorbing.mem_parts (h : Absorbing r i parents layer target merged gone now)
    {absorbed : List (Candidate σ Extended)}
    (habsorbed : ∀ c ∈ absorbed, c ∈ gone ∧ c.position ≠ target ∧
      ∃ n, layer[c.position]? = some n) (path : Path) (above : List (Layer σ Extended))
    {s : Subproblem σ Extended} :
    s ∈ (absorbed.map (·.position)).filterMap (Layer.residual? now path above) ↔
      ∃ c ∈ absorbed, ∃ n, layer[c.position]? = some n ∧
        n.residual (path ++ Diagram.climbFrom above n) = s := by
  rw [List.filterMap_map, List.mem_filterMap]
  refine exists_congr fun c => and_congr_right fun hc => ?_
  obtain ⟨hgone, hct, n, hn⟩ := habsorbed c hc
  have hresidual : Layer.residual? now path above c.position =
      some (n.residual (path ++ Diagram.climbFrom above n)) := by
    unfold Layer.residual?
    rw [h.other _ hct, hn, Option.map_some, if_pos (List.mem_map_of_mem hgone)]
    rfl
  rw [Function.comp_apply, hresidual, hn]
  simp

theorem Node.Joined.apt (h : n.Joined r i parents) {path : Path} {above : List (Layer σ Extended)}
    (hfree : r.model.problem.Focused → ∀ (j : Nat) p, parents[j]? = some p →
      Subproblem.freeAfter r.model.problem.variables (path ++ Diagram.climb above j) = r.freeAt i) :
    Apt r (i + 1) (n.residual (path ++ Diagram.climbFrom above n)) :=
  fun hp => h.freeAfter_climbFrom hp (hfree hp)

theorem Absorbing.fair (hr : r.Regular)
    (h : Absorbing r i parents layer target merged gone now) (harrived : Arrived r i parents layer)
    {xs : List σ} (hmerged : merged = r.model.relaxation.merge xs)
    (hxs : ∀ c ∈ gone, ∀ n, layer[c.position]? = some n → n.state ∈ xs)
    (hm : now[target]? = some m) {path : Path} (hapt : Apt r (i + 1) (m.residual path))
    {parts : List (Subproblem σ Extended)}
    (hparts : ∀ s ∈ parts, Apt r (i + 1) s ∧ ∃ c ∈ gone, ∃ n path,
      layer[c.position]? = some n ∧ n.residual path = s) :
    Fair r (i + 1) (m.residual path) parts := by
  refine ⟨hapt, fun s hs => ?_⟩
  obtain ⟨hapt', c, hc, n, path', hn, rfl⟩ := hparts s hs
  have hmem := Array.mem_of_getElem? hn
  have hne := (harrived.joined n hmem).longest_ne_negInf hr (harrived.intact n hmem).1
  exact ⟨hapt', hne, h.worth_le hr harrived hmerged hxs hm hc hn⟩

end Fair

/-! ### Merging, from the start -/

/-- A kept node that has the merged state takes the absorbed ones in. -/
theorem absorbing_recycled {n : Node σ Extended} {target : Nat} {merged : σ}
    (hn : layer[target]? = some n) (hjoined : n.Joined r i parents) (hstate : n.state = merged)
    (halive : n.fate = .alive) (hblank : n.Blank) (hrough : n.roughBound = posInf) :
    Absorbing r i parents layer target merged []
      (layer.modify target fun n => { n with merged := true, exact := false }) := by
  have hhung : ({ n with merged := true, exact := false } : Node σ Extended).Hung r i parents := by
    refine ⟨hjoined.depth, fun e he => ?_, fun _ => rfl, fun h => by cases h⟩
    obtain ⟨p, hp, hfrom⟩ := hjoined.edge e he
    exact ⟨p, hp, hfrom.alive, hfrom.branches, hfrom.expands, hfrom.le_longest,
      nofun, nofun⟩
  refine ⟨fun j hj => ?_, fun m hm e he => ?_, { n with merged := true, exact := false }, ?_, ?_,
    ?_, ?_, ?_⟩
  · rw [Array.getElem?_modify, if_neg (Ne.symm hj)]
    simp
  · rw [Array.getElem?_modify, if_pos rfl, hn, Option.map_some] at hm
    obtain rfl := Option.some.inj hm
    exact .inl ⟨n, hn, he⟩
  · rw [Array.getElem?_modify, if_pos rfl, hn, Option.map_some]
  · exact ⟨hhung, .inr ⟨hhung, hjoined.best⟩, hstate, rfl, halive,
      ⟨hblank.tail, hblank.cutset, hblank.borrowed, hblank.threshold⟩, hrough⟩
  · exact fun h => absurd rfl h
  · intro n' hn' e he
    obtain rfl := Option.some.inj (hn.symm.trans hn')
    exact he
  · exact fun c hc => absurd hc List.not_mem_nil

/-- Otherwise a new node does. -/
theorem absorbing_fresh (layer : Layer σ Extended) (merged : σ) {depth : Nat}
    (hdepth : depth = r.residual.depth + (i + 1)) :
    Absorbing r i parents layer layer.size merged []
      ((layer.push (.bare merged depth Value.negInf Value.posInf false)).modify layer.size
        fun n => { n with merged := true, exact := false }) := by
  refine ⟨fun j hj => ?_, fun m hm e he => ?_,
    { (Node.bare merged depth negInf posInf false : Node σ Extended) with
      merged := true, exact := false }, ?_, ⟨?_, .inl rfl, rfl, rfl, rfl,
    ⟨rfl, rfl, rfl, fun _ => rfl⟩, rfl⟩, ?_, ?_, ?_⟩
  · rw [Array.getElem?_modify, if_neg (Ne.symm hj), Array.getElem?_push, if_neg hj]
    simp
  · rw [Array.getElem?_modify, if_pos rfl, Array.getElem?_push, if_pos rfl, Option.map_some] at hm
    obtain rfl := Option.some.inj hm
    exact absurd he List.not_mem_nil
  · rw [Array.getElem?_modify, if_pos rfl, Array.getElem?_push, if_pos rfl, Option.map_some]
    rfl
  · exact ⟨hdepth, fun e he => absurd he List.not_mem_nil, fun _ => rfl, fun h => by cases h⟩
  · exact fun h => absurd rfl h
  · intro n hn
    rw [Array.getElem?_eq_none le_rfl] at hn
    cases hn
  · exact fun c hc => absurd hc List.not_mem_nil

variable [BEq σ]

/-- What fitting a layer loses: what a restriction drops, nothing else if merges are
sound, and little else if an exacting audit passed them. -/
structure Retains (audit : Audit σ κ Extended) (r : Request σ κ Extended) (i : Nat)
    (layer : Layer σ Extended) (f : Fitted σ κ Extended) : Prop where
  represents : (r.kind = .relaxed → r.Regular) →
    r.kind = .restricted ∧ f.reduced = true ∨ Represents r i layer f.layer
  approximates : audit.Exacting r → f.fault = none →
    r.kind = .restricted ∧ f.reduced = true ∨ Approximates r i layer f.layer

omit [BEq σ] in
theorem Retains.of_represents {audit : Audit σ κ Extended} {f : Fitted σ κ Extended}
    (h : Represents r i layer f.layer) : Retains audit r i layer f :=
  ⟨fun _ => .inr h, fun _ _ => .inr h.approximates⟩

/-- A fitted layer below another one, in a session that did not change.  A lenient audit
finds no fault if merges are sound. -/
structure Completes (audit : Audit σ κ Extended) (r : Request σ κ Extended) (i : Nat)
    (parents : Layer σ Extended) (session : Session σ κ Extended) (layer : Layer σ Extended)
    (f : Fitted σ κ Extended) : Prop where
  quiet : session.Quiet f.session
  fault : (r.kind = .relaxed → r.Regular) → audit.Lenient r → f.fault = none
  retains : Retains audit r (i + 1) layer f
  settled : Settled r session.cache f.session.events (i + 1) posInf f.layer f.kept f.reduced
  linked : Linked r i parents f.layer
  reduces : f.reduced = true → r.kind = .restricted ∨ (r.kind = .relaxed ∧ 0 < i)

theorem Settled.mono {cache : Cache σ Extended} {events events' : List (Event σ Extended)}
    {bound : Extended} {kept : List Nat} {reduced : Bool}
    (h : Settled r cache events i bound layer kept reduced) (hsub : ∀ e ∈ events, e ∈ events') :
    Settled r cache events' i bound layer kept reduced :=
  ⟨fun n hn => (h.placed n hn).mono hsub, h.blank, h.rough, h.kept, h.intact⟩

omit [BEq σ] in
theorem Session.Quiet.mem_events {s s' : Session σ κ Extended} (h : s.Quiet s')
    {e : Event σ Extended} (he : e ∈ s.events) : e ∈ s'.events := by
  obtain ⟨new, hnew, _⟩ := h.journal
  rw [hnew]
  exact List.mem_append_right new he

section Merge

variable {s : Selection σ κ Extended} {audit : Audit σ κ Extended} {path : Path}
  {rest : List (Layer σ Extended)}

/-- What is put together once the absorbed nodes are absorbed. -/
theorem Absorbing.completes (haudit : audit.Discreet) (hkind : r.kind = .relaxed)
    (hi : 0 < i) (harrived : Arrived r i parents s.layer) {kept positions : List Nat}
    (hset : Settled r s.session.cache s.session.events (i + 1) posInf s.layer kept false)
    (hfree : r.model.problem.Focused → ∀ (j : Nat) p, parents[j]? = some p →
      Subproblem.freeAfter r.model.problem.variables
        (path ++ Diagram.climb (parents :: rest) j) = r.freeAt i)
    {target : Nat} {absorbed : List (Candidate σ Extended)} {now : Layer σ Extended}
    (h : Absorbing r i parents s.layer target
      (r.model.relaxation.merge (absorbed.map (·.state))) absorbed.reverse now)
    (htarget : ∀ n, s.layer[target]? = some n →
      n.state = r.model.relaxation.merge (absorbed.map (·.state)))
    (hne : absorbed ≠ [])
    (habsorbed : ∀ c ∈ absorbed, c.position ≠ target ∧
      ∃ n, s.layer[c.position]? = some n ∧ c.state = n.state)
    (hpositions : ∀ j, j ∈ positions ↔
      j = target ∨ (j ∈ kept ∧ j ∉ absorbed.map (·.position)))
    {session : Session σ κ Extended} (hquiet : s.session.Quiet session)
    {m : Node σ Extended} (hm : now[target]? = some m) {verdict : Session σ κ Extended ×
      Option (Fault σ Extended)}
    (hverdict : verdict = audit session
      (m.residual (path ++ Diagram.climbFrom (parents :: rest) m))
      ((absorbed.map (·.position)).filterMap (Layer.residual? now path (parents :: rest)))) :
    Completes audit r i parents s.session s.layer
      ⟨verdict.1, now, positions, true, verdict.2⟩ := by
  have hgone : absorbed.reverse ≠ [] := by simpa using hne
  have hxs : ∀ c ∈ absorbed.reverse, ∀ n, s.layer[c.position]? = some n →
      n.state ∈ absorbed.map (·.state) := by
    intro c hc n hn
    rw [List.mem_reverse] at hc
    obtain ⟨_, n', hn', hstate⟩ := habsorbed c hc
    obtain rfl := Option.some.inj (hn.symm.trans hn')
    exact hstate ▸ List.mem_map_of_mem hc
  have hsource : ∀ y ∈ absorbed.map (·.state), ∃ n ∈ s.layer, n.state = y := by
    intro y hy
    obtain ⟨c, hc, rfl⟩ := List.mem_map.1 hy
    obtain ⟨_, n, hn, hstate⟩ := habsorbed c hc
    exact ⟨n, Array.mem_of_getElem? hn, hstate.symm⟩
  have hmem : ∀ j, j ∈ absorbed.reverse.map (·.position) ↔ j ∈ absorbed.map (·.position) := by
    intro j
    rw [List.map_reverse, List.mem_reverse]
  have hjoined : m.Joined r i parents := by
    obtain ⟨m', hm', _, hjoined, _⟩ := h.target
    obtain rfl := Option.some.inj (hm.symm.trans hm')
    exact hjoined hgone
  have hmparts := fun z => h.mem_parts (s := z) (fun c hc => ⟨List.mem_reverse.2 hc,
    (habsorbed c hc).1, (habsorbed c hc).2.imp fun _ hn => hn.1⟩) path (parents :: rest)
  have hparts : ∀ z ∈ (absorbed.map (·.position)).filterMap
      (Layer.residual? now path (parents :: rest)), Apt r (i + 1) z ∧ ∃ c ∈ absorbed.reverse,
        ∃ n path, s.layer[c.position]? = some n ∧ n.residual path = z := by
    intro z hz
    obtain ⟨c, hc, n, hn, rfl⟩ := (hmparts z).1 hz
    exact ⟨(harrived.joined n (Array.mem_of_getElem? hn)).apt hfree, c, List.mem_reverse.2 hc, n, _,
      hn, rfl⟩
  have hquiet'' : s.session.Quiet verdict.1 := by
    rw [hverdict]
    exact hquiet.trans (haudit session _ _)
  refine ⟨hquiet'', fun hreg hlenient => ?_,
    ⟨fun hreg => .inr ?_, fun hexacting hpassed => .inr ?_⟩, ?_,
    h.linked harrived hgone htarget rfl hxs hsource, fun _ => .inr ⟨hkind, hi⟩⟩
  · rw [hverdict]
    exact hlenient hkind session _ _ _
      (h.fair (hreg hkind) harrived rfl hxs hm (hjoined.apt hfree) hparts)
  · refine h.matches (R := (· ≤ ·)) (fun _ _ => id) harrived htarget fun m' hm' c hc n hn => ?_
    exact h.worth_le (hreg hkind) harrived rfl hxs hm' hc hn
  · refine h.matches (R := fun a b => Value.surpasses a b = false) (fun _ _ => not_surpasses)
      harrived htarget fun m' hm' c hc n hn => ?_
    obtain rfl := Option.some.inj (hm.symm.trans hm')
    rw [hverdict] at hpassed
    exact hexacting hkind session (i + 1) _ _ (hjoined.apt hfree) (fun z hz => (hparts z hz).1)
      hpassed _ ((hmparts _).2 ⟨c, List.mem_reverse.1 hc, n, hn, rfl⟩)
  refine (h.settled hkind hset fun j => ?_).mono fun e he => hquiet''.mem_events he
  rw [hpositions, hmem]

/-- A place for the merged node among those that are kept, with nothing absorbed yet. -/
structure Hosts (r : Request σ κ Extended) (i : Nat) (parents layer : Layer σ Extended)
    (kept absorbed : List (Candidate σ Extended)) (merged : σ) (target : Nat)
    (marked : Layer σ Extended) (positions : List Nat) : Prop where
  start : Absorbing r i parents layer target merged [] marked
  state : ∀ n, layer[target]? = some n → n.state = merged
  apart : ∀ c ∈ absorbed, c.position ≠ target
  kept : ∀ j, j ∈ positions ↔ j = target ∨ j ∈ kept.map (·.position)

section Hosts

variable {kept absorbed : List (Candidate σ Extended)} {merged : σ}

omit [BEq σ]

/-- A new node is added for the merged state. -/
theorem hosts_fresh {depth : Nat} (hdepth : depth = r.residual.depth + (i + 1))
    (habsorbed : ∀ c ∈ absorbed, ∃ n, layer[c.position]? = some n) :
    Hosts r i parents layer kept absorbed merged layer.size
      ((layer.push (.bare merged depth Value.negInf Value.posInf false)).modify layer.size
        fun n => { n with merged := true, exact := false })
      (kept.map (·.position) ++ [layer.size]) where
  start := absorbing_fresh layer merged hdepth
  state n hn := by
    rw [Array.getElem?_eq_none le_rfl] at hn
    cases hn
  apart c hc hct := by
    obtain ⟨n, hn⟩ := habsorbed c hc
    have := (Array.getElem?_eq_some_iff.1 hn).1
    omega
  kept j := by rw [List.mem_append, List.mem_singleton, or_comm]

/-- A kept node has the merged state. -/
theorem hosts_recycled {c : Candidate σ Extended} {n : Node σ Extended} (hc : c ∈ kept)
    (hn : layer[c.position]? = some n) (hjoined : n.Joined r i parents) (hstate : n.state = merged)
    (hfate : n.fate = .alive) (hblank : n.Blank) (hrough : n.roughBound = posInf)
    (hapart : ∀ c' ∈ absorbed, c'.position ≠ c.position) :
    Hosts r i parents layer kept absorbed merged c.position
      (layer.modify c.position fun n => { n with merged := true, exact := false })
      (kept.map (·.position)) where
  start := absorbing_recycled hn hjoined hstate hfate hblank hrough
  state n' hn' := by
    obtain rfl := Option.some.inj (hn.symm.trans hn')
    exact hstate
  apart := hapart
  kept j := ⟨.inr, fun h => h.elim (fun hj => hj ▸ List.mem_map_of_mem hc) id⟩

end Hosts

variable [LawfulBEq σ]

/-- **A relaxed layer that is too wide is completed without losing a decision.** -/
theorem mergeExcess_completes (haudit : audit.Discreet)
    (hkind : r.kind = .relaxed) (hi : 0 < i) (harrived : Arrived r i parents s.layer)
    (hlists : Lists s.layer s.kept)
    (hset : Settled r s.session.cache s.session.events (i + 1) posInf s.layer
      (s.kept.map (·.position)) false)
    (hfree : r.model.problem.Focused → ∀ (j : Nat) p, parents[j]? = some p →
      Subproblem.freeAfter r.model.problem.variables
        (path ++ Diagram.climb (parents :: rest) j) = r.freeAt i)
    {width : Nat} (hwidth : width - 1 < s.kept.length) :
    Completes audit r i parents s.session s.layer
      (mergeExcess audit r path (parents :: rest) width s) := by
  have hperm := r.reduction.perm (width - 1) r.ranking s.kept
  have hlists' := hlists.perm hperm
  unfold mergeExcess
  extract_lets sorted kept absorbed merged depth recycled target start marked now session
    positions parts verdict
  have hquiet : s.session.Quiet session :=
    (Session.quiet_record fun _ _ _ _ h => by cases h).trans (Session.quiet_note _)
  have hne : absorbed ≠ [] := by
    have hlen : absorbed.length = s.kept.length - (width - 1) := by
      rw [← hperm.length_eq]
      exact List.length_drop
    intro h
    rw [h, List.length_nil] at hlen
    omega
  have hnodup : (absorbed.map (·.position)).Nodup :=
    hlists'.nodup.sublist ((List.drop_sublist _ _).map _)
  have hvalid : ∀ c ∈ absorbed, ∃ n, s.layer[c.position]? = some n ∧ n.fate = .alive ∧
      c.state = n.state := fun c hc => hlists'.sound c (List.mem_of_mem_drop hc)
  have hdepth : depth = r.residual.depth + (i + 1) := by
    obtain ⟨c, cs, hcs⟩ := List.exists_cons_of_ne_nil hne
    obtain ⟨n, hn, _⟩ := hvalid c (hcs ▸ List.mem_cons_self)
    have : depth = n.depth := by simp [depth, hcs, hn]
    rw [this]
    exact (harrived.joined n (Array.mem_of_getElem? hn)).depth
  have hsplit : ∀ j, j ∈ kept.map (·.position) ↔
      j ∈ s.kept.map (·.position) ∧ j ∉ absorbed.map (·.position) := by
    intro j
    rw [← (hperm.map (·.position)).mem_iff]
    exact mem_map_take_iff hlists'.nodup (width - 1) j
  have hhosts : Hosts r i parents s.layer kept absorbed merged target marked positions := by
    cases hfind : kept.find? fun c => c.state == merged with
    | none =>
      have hrec : recycled = none := by simp [recycled, hfind]
      simpa [marked, positions, target, start, hrec] using
        hosts_fresh hdepth fun c hc => (hvalid c hc).imp fun _ hn => hn.1
    | some c =>
      have hrec : recycled = some c.position := by simp [recycled, hfind]
      have hc : c ∈ kept := List.mem_of_find?_eq_some hfind
      have hbeq : (c.state == merged) = true := by simpa using List.find?_some hfind
      obtain ⟨n, hn, hfate, hcn⟩ := hlists'.sound c (List.mem_of_mem_take hc)
      have hmem := Array.mem_of_getElem? hn
      have hapart : ∀ c' ∈ absorbed, c'.position ≠ c.position := fun c' hc' heq =>
        ((hsplit _).1 (List.mem_map_of_mem hc)).2 (heq ▸ List.mem_map_of_mem hc')
      simpa [marked, positions, target, start, hrec] using
        hosts_recycled hc hn (harrived.joined n hmem) (hcn.symm.trans (eq_of_beq hbeq)) hfate
          (hset.blank n hmem) (hset.rough n hmem) hapart
  obtain ⟨habs, htarget, hdisj, hpos⟩ := hhosts
  have hall : Absorbing r i parents s.layer target merged absorbed.reverse now := by
    have := habs.foldl absorbed (fun c hc => ?_) hnodup fun _ _ => List.not_mem_nil
    · rwa [List.append_nil] at this
    · obtain ⟨n, hn, _⟩ := hvalid c hc
      exact ⟨hdisj c hc, n, hn, harrived.joined n (Array.mem_of_getElem? hn)⟩
  obtain ⟨m, hm, _⟩ := hall.target
  refine hall.completes haudit hkind hi harrived hset hfree htarget hne (fun c hc => ?_)
    (fun j => ?_) hquiet hm ?_
  · obtain ⟨n, hn, _, hstate⟩ := hvalid c hc
    exact ⟨hdisj c hc, n, hn, hstate⟩
  · rw [hpos, hsplit]
  · simp only [verdict, Layer.residual?, hm, Option.map_some]
    rfl

/-- Fitting a layer to its width, in one of three ways or not at all. -/
theorem fit_completes (haudit : audit.Discreet)
    (harrived : Arrived r i parents s.layer) (hlists : Lists s.layer s.kept)
    (hset : Settled r s.session.cache s.session.events (i + 1) posInf s.layer
      (s.kept.map (·.position)) false)
    (hrest : rest.length = i)
    (hfree : r.model.problem.Focused → ∀ (j : Nat) p, parents[j]? = some p →
      Subproblem.freeAfter r.model.problem.variables
        (path ++ Diagram.climb (parents :: rest) j) = r.freeAt i) :
    Completes audit r i parents s.session s.layer (fit audit r path (parents :: rest) s) := by
  have hwhole : Completes audit r i parents s.session s.layer
      ⟨s.session, s.layer, s.kept.map (·.position), false, none⟩ :=
    ⟨.refl _, fun _ _ => rfl, .of_represents (.refl r (i + 1) s.layer), hset,
      harrived.linked (fun _ => rfl) fun n hn hf => absurd hf (harrived.intact n hn).2,
      fun h => by cases h⟩
  unfold fit
  extract_lets width whole
  split
  · exact hwhole
  · rename_i hwide
    cases hkind : r.kind with
    | exact => exact hwhole
    | restricted =>
      obtain ⟨hquiet, hfault, hset', hstem⟩ := dropExcess_settled width hlists hset
      exact ⟨hquiet, fun _ _ => hfault, ⟨fun _ => .inl ⟨hkind, rfl⟩, fun _ _ => .inl ⟨hkind, rfl⟩⟩,
        hset',
        harrived.linked hstem fun _ _ _ => hkind, fun _ => .inl hkind⟩
    | relaxed =>
      dsimp only
      split
      · rename_i hlen
        rw [List.length_cons] at hlen
        exact mergeExcess_completes haudit hkind (by omega) harrived hlists hset hfree (by omega)
      · exact hwhole

end Merge

omit [BEq σ] in
/-- Dropping nodes is reported, and no more. -/
theorem quiet_dropExcess (r : Request σ κ Extended) (width : Nat) (s : Selection σ κ Extended) :
    s.session.Quiet (dropExcess r width s).session :=
  (Session.quiet_record fun _ _ _ _ h => by cases h).trans (Session.quiet_note _)

/-- So is merging, if the audit is discreet. -/
theorem quiet_mergeExcess {audit : Audit σ κ Extended} (haudit : audit.Discreet)
    (r : Request σ κ Extended) (path : Path) (above : List (Layer σ Extended)) (width : Nat)
    (s : Selection σ κ Extended) :
    s.session.Quiet (mergeExcess audit r path above width s).session := by
  unfold mergeExcess
  extract_lets sorted kept absorbed merged depth recycled target start marked now session
    positions parts verdict
  have hquiet : s.session.Quiet session :=
    (Session.quiet_record fun _ _ _ _ h => by cases h).trans (Session.quiet_note _)
  refine hquiet.trans ?_
  change session.Quiet verdict.1
  simp only [verdict]
  split
  · exact haudit session _ _
  · exact .refl session

/-- **Fitting a layer to its width asks the dominance table nothing.** -/
theorem quiet_fit {audit : Audit σ κ Extended} (haudit : audit.Discreet)
    (r : Request σ κ Extended) (path : Path) (above : List (Layer σ Extended))
    (s : Selection σ κ Extended) : s.session.Quiet (fit audit r path above s).session := by
  unfold fit
  extract_lets width whole
  split
  · exact .refl _
  · cases r.kind with
    | exact => exact .refl _
    | restricted => exact quiet_dropExcess r width s
    | relaxed =>
      dsimp only
      split
      · exact quiet_mergeExcess haudit r path above width s
      · exact .refl _

/-! ### From the pending layer to the completed one -/

/-- The pairs that trails lead to, by their depth in the problem. -/
def Request.Attains (r : Request σ κ Extended) (s : σ) (depth : Nat) (v : Extended) : Prop :=
  ∃ i ds, depth = r.residual.depth + i ∧ r.Traced i ds s v

/-- A completed layer in a session that put questions to the dominance table. -/
structure Completed [BEq κ] (audit : Audit σ κ Extended) (r : Request σ κ Extended)
    (session : Session σ κ Extended) (i : Nat) (bound : Extended) (f : Fitted σ κ Extended) :
    Prop where
  evolves : session.Evolves r.dominance r.Attains f.session
  cache : f.session.cache = session.cache
  fault : (r.kind = .relaxed → r.Regular) → audit.Lenient r → f.fault = none
  settled : Settled r session.cache f.session.events i bound f.layer f.kept f.reduced

variable [LawfulBEq σ] [BEq κ] {audit : Audit σ κ Extended}
  {d : Diagram σ Extended} {rest : List (Layer σ Extended)}

/-- **The pending layer below a layer is completed: nothing goes wrong, and only
what a restriction drops is lost.** -/
theorem settleLayer_completed (session : Session σ κ Extended) (haudit : audit.Discreet)
    (hd : d.layers = parents :: rest) (hrest : rest.length = i)
    {taken : Nat → Decision → Prop} (hreached : Reached r i parents d.pending taken)
    (htaken : ∀ (j : Nat) p, parents[j]? = some p → p.isAlive = true → r.Expands i p →
      ∀ d, r.Branches i p.state d → taken j d)
    (hfree : r.model.problem.Focused → ∀ (j : Nat) p, parents[j]? = some p →
      Subproblem.freeAfter r.model.problem.variables
        (d.path ++ Diagram.climb (parents :: rest) j) = r.freeAt i)
    (htrace : ∀ (j : Nat) p, parents[j]? = some p → p.exact = true →
      r.Traced i (Diagram.climb (parents :: rest) j) p.state p.longest) :
    Completed audit r session (i + 1) posInf (settleLayer audit r session d) ∧
      Linked r i parents (settleLayer audit r session d).layer ∧
      ((settleLayer audit r session d).reduced = true →
        r.kind = .restricted ∨ (r.kind = .relaxed ∧ 0 < i)) ∧
      Retains audit r (i + 1) (select r session false d.pending).layer
        (settleLayer audit r session d) := by
  have hsel : Selected r r.Attains session false d.pending (select r session false d.pending) := by
    refine select_selected r session false d.pending fun n hn hex => ?_
    have hjoined := hreached.joined n hn
    exact ⟨i + 1, _, hjoined.depth, hjoined.traced_of_exact hex htrace⟩
  have hset := hsel.settled hreached.fresh (fun n hn => (hreached.joined n hn).depth)
    fun _ => Nat.succ_pos i
  rw [← hsel.cache] at hset
  have hfit := fit_completes haudit (hsel.arrived hreached htaken (hset.intact rfl)) hsel.lists
    hset hrest hfree
  unfold settleLayer
  rw [hd, List.isEmpty_cons]
  refine ⟨⟨hsel.evolves.calm hfit.quiet.toCalm, hfit.quiet.cache.trans hsel.cache, hfit.fault, ?_⟩,
    hfit.linked, hfit.reduces, hfit.retains⟩
  rw [← hsel.cache]
  exact hfit.settled

omit [LawfulBEq σ] in
/-- **The root is completed as it is, unless it is dominated.** -/
theorem settleLayer_root (audit : Audit σ κ Extended) (r : Request σ κ Extended)
    (session : Session σ κ Extended) :
    Completed audit r session 0 r.residual.bound
      (settleLayer audit r session (Diagram.rooted r.residual)) ∧
    (∃ n : Node σ Extended, (settleLayer audit r session (Diagram.rooted r.residual)).layer = #[n] ∧
      n.stem = (Node.bare r.residual.state r.residual.depth r.residual.value posInf true).stem) ∧
    (settleLayer audit r session (Diagram.rooted r.residual)).reduced = false ∧
    Represents r 0 (select r session true (Diagram.rooted r.residual).pending).layer
      (settleLayer audit r session (Diagram.rooted r.residual)).layer := by
  have hpending : ∀ n ∈ (Diagram.rooted r.residual).pending, n =
      Node.bare r.residual.state r.residual.depth r.residual.value r.residual.bound true := by
    intro n hn
    exact List.mem_singleton.1 (Array.mem_def.1 hn)
  have hsel : Selected r r.Attains session true (Diagram.rooted r.residual).pending
      (select r session true (Diagram.rooted r.residual).pending) := by
    refine select_selected r session true _ fun n hn _ => ?_
    rw [hpending n hn]
    exact ⟨0, [], rfl, .root r⟩
  have hset := hsel.settled (i := 0)
    (fun n hn => by rw [hpending n hn]; exact ⟨rfl, rfl, rfl, rfl, rfl, rfl, rfl⟩)
    (fun n hn => by rw [hpending n hn]; rfl) (fun h => by cases h)
  -- There is one node, so the layer is never too wide.
  have hlen : (select r session true (Diagram.rooted r.residual).pending).kept.length ≤ 1 := by
    have hsub : (select r session true (Diagram.rooted r.residual).pending).kept.map
        (·.position) ⊆ [0] := by
      intro j hj
      obtain ⟨n, hn, _⟩ := (hsel.lists.mem_iff j).1 hj
      have hlt := (Array.getElem?_eq_some_iff.1 hn).1
      rw [hsel.size] at hlt
      exact List.mem_singleton.2 (Nat.lt_one_iff.1 hlt)
    simpa using (List.subperm_of_subset hsel.lists.nodup hsub).length_le
  have hfit : settleLayer audit r session (Diagram.rooted r.residual) =
      ⟨(select r session true (Diagram.rooted r.residual).pending).session,
        (select r session true (Diagram.rooted r.residual).pending).layer,
        (select r session true (Diagram.rooted r.residual).pending).kept.map (·.position),
        false, none⟩ := by
    unfold settleLayer fit
    exact if_pos (hlen.trans (le_max_right _ _))
  rw [hfit]
  refine ⟨⟨hsel.evolves, hsel.cache, fun _ _ => rfl, hset⟩, ?_, rfl, .refl r 0 _⟩
  obtain ⟨n, hn, hsifts⟩ := hsel.sifts 0 _ rfl
  refine ⟨n, ?_, hsifts.stem_eq.trans rfl⟩
  refine Array.ext_getElem? fun j => ?_
  cases j with
  | zero => exact hn
  | succ j =>
    rw [Array.getElem?_eq_none, Array.getElem?_eq_none]
    · simp
    · rw [hsel.size]
      exact Nat.succ_le_succ (Nat.zero_le j)

end DiagramSearch

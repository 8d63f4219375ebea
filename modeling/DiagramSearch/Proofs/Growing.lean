/-
# Unrolling a diagram layer by layer

The invariant of unrolling comes in two halves: `Grown` when the deepest layer
has just been completed, `Ready` when its kept nodes have been expanded too.
`Ready.grown` completes the pending layer, `Grown.ready` expands it, and
`Rounds.poised` is the induction over the rounds of an unrolling.  At the end
either no variable is picked or no node is alive (`Ended`).

* `Request.unroll_unrolls`: what an unrolling without a fault brings about;
* `Request.fault_unroll`: **with a lenient audit an unrolling meets no fault**, if
  merges are sound.
-/

import DiagramSearch.Proofs.Weaving
import DiagramSearch.Proofs.Rounds

namespace DiagramSearch

open Extended Diagram

variable {σ κ : Type} [BEq σ]

/-- The layers of a diagram whose last exact layer is known. -/
structure Layered (r : Request σ κ Extended) (cache : Cache σ Extended)
    (events : List (Event σ Extended)) (d : Diagram σ Extended) : Prop where
  path : d.path = r.residual.path
  unlisted : d.cutset = []
  woven : Woven r cache events d.layers
  bounded : Bounded r d.layers
  blank : ∀ i layer, level d.layers i = some layer → ∀ n ∈ layer, n.Blank
  /-- Down to the last exact layer nothing was merged or dropped. -/
  intact : ∀ i layer, level d.layers i = some layer → (∀ l, d.lastExact = some l → i ≤ l) →
    ∀ n ∈ layer, n.merged = false ∧ n.fate ≠ .deleted
  /-- The layer below the last exact one was reduced. -/
  reduced : ∀ l, d.lastExact = some l → l + 1 < d.layers.length ∧
    (r.kind = .restricted ∨ (r.kind = .relaxed ∧ 0 < l))

/-- A diagram whose deepest layer has been completed. -/
structure Grown (r : Request σ κ Extended) (cache : Cache σ Extended)
    (events : List (Event σ Extended)) (d : Diagram σ Extended) : Prop
    extends Layered r cache events d where
  rough : ∀ i layer, level d.layers i = some layer → i + 1 = d.layers.length →
    ∀ n ∈ layer, n.roughBound = if i = 0 then r.residual.bound else posInf
  branches : ∀ i, i + 1 < d.layers.length → r.branching (r.freeAt i) [] ≠ none

/-- A diagram whose deepest layer has been expanded. -/
structure Ready (r : Request σ κ Extended) (cache : Cache σ Extended)
    (events : List (Event σ Extended)) (d : Diagram σ Extended) : Prop
    extends Layered r cache events d where
  top : ∀ i layer, level d.layers i = some layer → i + 1 = d.layers.length → ∀ n ∈ layer,
    n.isAlive = true → n.roughBound = r.model.relaxation.upperBound n.state (r.freeAt i)
  branches : ∀ i < d.layers.length, r.branching (r.freeAt i) [] ≠ none
  reached : ∃ parents rest taken, d.layers = parents :: rest ∧
    Reached r rest.length parents d.pending taken ∧
    ∀ (j : Nat) p, parents[j]? = some p → p.isAlive = true → r.Expands rest.length p →
      ∀ d, r.Branches rest.length p.state d → taken j d

/-- A diagram that cannot be unrolled any further. -/
def Ended (r : Request σ κ Extended) (d : Diagram σ Extended) : Prop :=
  ∀ i layer, level d.layers i = some layer → i + 1 = d.layers.length →
    r.branching (r.freeAt i) [] = none ∨ ∀ n ∈ layer, n.isAlive = false

variable {r : Request σ κ Extended} {cache : Cache σ Extended} {audit : Audit σ κ Extended}
  {session : Session σ κ Extended} {d : Diagram σ Extended}

theorem Layered.mono {events events' : List (Event σ Extended)} (h : Layered r cache events d)
    (hsub : ∀ e ∈ events, e ∈ events') : Layered r cache events' d :=
  ⟨h.path, h.unlisted, h.woven.mono hsub, h.bounded, h.blank, h.intact, h.reduced⟩

/-- Down to the last exact layer every node is exact. -/
theorem Layered.exact {events : List (Event σ Extended)} {i : Nat} {layer : Layer σ Extended}
    {n : Node σ Extended} (h : Layered r cache events d) (hl : level d.layers i = some layer)
    (hle : ∀ l, d.lastExact = some l → i ≤ l) (hn : n ∈ layer) : n.exact = true := by
  induction i generalizing layer n with
  | zero =>
    obtain ⟨j, hj⟩ := Array.mem_iff_getElem?.1 hn
    exact Node.exact_eq (h.woven.eq_root hl hj).2
  | succ i ih =>
    obtain ⟨j, hj⟩ := Array.mem_iff_getElem?.1 hn
    obtain ⟨parents, hp, hjoined⟩ := h.woven.joined hl hj
    refine hjoined.exact (h.intact _ _ hl hle n hn).1 fun e _ p hpe => ?_
    exact ih hp (fun l hlast => Nat.le_of_succ_le (hle l hlast)) (Array.mem_of_getElem? hpe)

theorem Ready.mono {events events' : List (Event σ Extended)} (h : Ready r cache events d)
    (hsub : ∀ e ∈ events, e ∈ events') : Ready r cache events' d :=
  ⟨h.toLayered.mono hsub, h.top, h.branches, h.reached⟩

theorem Grown.mono {events events' : List (Event σ Extended)} (h : Grown r cache events d)
    (hsub : ∀ e ∈ events, e ∈ events') : Grown r cache events' d :=
  ⟨h.toLayered.mono hsub, h.rough, h.branches⟩

/-! ### Completing the pending layer -/

section Complete

variable [BEq κ] {f : Fitted σ κ Extended}

/-- The root alone makes a diagram. -/
theorem grown_root (hf : Completed audit r session 0 r.residual.bound f)
    (hroot : ∃ n : Node σ Extended, f.layer = #[n] ∧
      n.stem = (Node.bare r.residual.state r.residual.depth r.residual.value posInf true).stem)
    (hreduced : f.reduced = false) :
    Grown r session.cache f.session.events ((Diagram.rooted r.residual).completed f) := by
  have hlevel : ∀ i layer, level [f.layer] i = some layer → i = 0 ∧ f.layer = layer := by
    intro i layer hl
    have hi : i = 0 := by simpa using lt_of_level hl
    subst hi
    exact ⟨rfl, Option.some.inj hl⟩
  have hlast : (Diagram.rooted r.residual).lastExactAfter f.reduced = none := by
    rw [hreduced]
    rfl
  rw [Diagram.completed, hlast]
  refine ⟨⟨rfl, rfl, ⟨?_, fun i parents layer _ hl => ?_, fun i layer hl => ?_⟩,
    fun i layer hl hlt => ?_, fun i layer hl => ?_, fun i layer hl _ => ?_,
    fun l hl => by cases hl⟩, fun i layer hl _ => ?_, fun i hi => ?_⟩
  · obtain ⟨n, hn, hstem⟩ := hroot
    exact ⟨n, congrArg some hn, hstem⟩
  · exact absurd (hlevel _ _ hl).1 (Nat.succ_ne_zero i)
  · obtain ⟨rfl, rfl⟩ := hlevel i layer hl
    exact hf.settled.placed
  · exact absurd hlt (by simp [Diagram.rooted, Diagram.empty])
  · obtain ⟨rfl, rfl⟩ := hlevel i layer hl
    exact hf.settled.blank
  · obtain ⟨rfl, rfl⟩ := hlevel i layer hl
    exact hf.settled.intact hreduced
  · obtain ⟨rfl, rfl⟩ := hlevel i layer hl
    rw [if_pos rfl]
    exact hf.settled.rough
  · exact absurd hi (by simp [Diagram.rooted, Diagram.empty])

/-- **Completing the pending layer adds a layer to a diagram.** -/
theorem Ready.grown {parents : Layer σ Extended} {rest : List (Layer σ Extended)}
    (h : Ready r session.cache session.events d) (hd : d.layers = parents :: rest)
    (hf : Completed audit r session (rest.length + 1) posInf f)
    (hlinked : Linked r rest.length parents f.layer)
    (hreduces : f.reduced = true → r.kind = .restricted ∨ (r.kind = .relaxed ∧ 0 < rest.length)) :
    Grown r session.cache f.session.events (d.completed f) := by
  have hlen : d.layers.length = rest.length + 1 := by rw [hd, List.length_cons]
  have hevents : ∀ e ∈ session.events, e ∈ f.session.events := fun e he =>
    hf.evolves.mem_events he
  have hcases : ∀ {i layer}, level (f.layer :: d.layers) i = some layer →
      i = rest.length + 1 ∧ f.layer = layer ∨ i < rest.length + 1 ∧ level d.layers i = some layer :=
    fun hl => hlen ▸ level_cons_cases hl
  unfold Diagram.completed
  refine ⟨⟨h.path, h.unlisted, (h.woven.mono hevents).cons ?_ ?_, fun i layer hl hlt => ?_,
    fun i layer hl => ?_, fun i layer hl hle => ?_, fun l hl => ?_⟩, fun i layer hl hi => ?_,
    fun i hi => h.branches i (Nat.lt_of_succ_lt_succ hi)⟩
  · intro i parents' hp hi
    obtain rfl : i = rest.length := by omega
    rw [hd, level_cons, if_pos rfl] at hp
    obtain rfl := Option.some.inj hp
    exact hlinked
  · rw [hlen]
    exact hf.settled.placed
  · rw [List.length_cons] at hlt
    rcases hcases hl with ⟨rfl, _⟩ | ⟨_, hl⟩
    · omega
    · rcases Nat.lt_or_ge (i + 1) d.layers.length with hi | hi
      · exact h.bounded i layer hl hi
      · exact h.top i layer hl (by omega)
  · rcases hcases hl with ⟨rfl, rfl⟩ | ⟨_, hl⟩
    · exact hf.settled.blank
    · exact h.blank i layer hl
  · rcases hcases hl with ⟨rfl, rfl⟩ | ⟨hi, hl⟩
    · -- The new layer is above the last exact one only if nothing was reduced.
      refine hf.settled.intact ?_
      cases hafter : d.lastExactAfter f.reduced with
      | none => exact (lastExactAfter_eq_none_iff.1 hafter).2
      | some l =>
        have hlow := hle l hafter
        rcases lastExactAfter_eq_some_iff.1 hafter with hlast | ⟨_, _, rfl⟩
        · have := (h.reduced l hlast).1
          omega
        · omega
    · exact h.intact i layer hl fun l hlast => hle l (lastExactAfter_eq_some_iff.2 (.inl hlast))
  · change l + 1 < (f.layer :: d.layers).length ∧ _
    rw [List.length_cons]
    change d.lastExactAfter f.reduced = some l at hl
    rcases lastExactAfter_eq_some_iff.1 hl with hlast | ⟨_, hred, rfl⟩
    · obtain ⟨hlow, hkind⟩ := h.reduced l hlast
      exact ⟨by omega, hkind⟩
    · refine ⟨by omega, ?_⟩
      rcases hreduces hred with hk | ⟨hk, hpos⟩
      · exact .inl hk
      · exact .inr ⟨hk, by omega⟩
  · change i + 1 = (f.layer :: d.layers).length at hi
    rw [List.length_cons] at hi
    rcases hcases hl with ⟨rfl, rfl⟩ | ⟨hlt, _⟩
    · rw [if_neg (Nat.succ_ne_zero _)]
      exact hf.settled.rough
    · omega

end Complete

/-! ### Expanding the completed layer -/

variable [LawfulBEq σ] [Hashable σ]

omit [BEq σ] [LawfulBEq σ] [Hashable σ] in
/-- The nodes that were reached do not depend on the bounds of their parents. -/
theorem Reached.congr {i : Nat} {layer layer' pending : Layer σ Extended}
    {taken : Nat → Decision → Prop} (h : Reached r i layer pending taken)
    (hcore : layer.map Node.core = layer'.map Node.core) : Reached r i layer' pending taken := by
  refine ⟨fun n hn => (h.joined n hn).congr rfl hcore, h.fresh, fun j p' d hp' ht => ?_⟩
  obtain ⟨p, hp, hnode⟩ := Layer.getElem?_of_map_eq hcore.symm hp'
  rw [Node.state_eq (Node.stem_eq_of_core_eq hnode)]
  exact h.reached j p d hp ht

section Expanded

variable {i : Nat} {layer : Layer σ Extended} {done : List Nat} {x : Expansion σ κ Extended}

omit [BEq σ] [LawfulBEq σ] [Hashable σ]

/-- Expanding a layer gives its nodes bounds, and changes nothing else. -/
theorem Expanded.core_eq (hx : Expanded r i layer session done x) :
    layer.map Node.core = x.layer.map Node.core := by
  refine Array.ext_getElem? fun j => ?_
  rw [Array.getElem?_map, Array.getElem?_map, hx.bounded, Option.map_map]
  congr 1
  funext n
  simp only [Function.comp_apply]
  split <;> rfl

/-- What was known of a node of the layer is known of the node that it became. -/
theorem Expanded.exists_old (hx : Expanded r i layer session done x)
    (hdone : ∀ j, j ∈ done ↔ ∃ n, layer[j]? = some n ∧ n.fate = .alive) {n' : Node σ Extended}
    (hn' : n' ∈ x.layer) :
    ∃ n ∈ layer, n.core = n'.core ∧ (n.Blank → n'.Blank) ∧ (n'.isAlive = true →
      n'.roughBound = r.model.relaxation.upperBound n'.state (r.freeAt i)) := by
  obtain ⟨j, hj⟩ := Array.mem_iff_getElem?.1 hn'
  rw [hx.bounded] at hj
  obtain ⟨n, hn, rfl⟩ := Option.map_eq_some_iff.1 hj
  refine ⟨n, Array.mem_of_getElem? hn, ?_⟩
  split
  · exact ⟨rfl, fun hb => ⟨hb.tail, hb.cutset, hb.borrowed, hb.threshold⟩, fun _ => rfl⟩
  · rename_i hnot
    refine ⟨rfl, id, fun halive => absurd ((hdone j).2 ⟨n, hn, ?_⟩) hnot⟩
    simpa [Node.isAlive] using halive

end Expanded

omit [LawfulBEq σ] [Hashable σ] in
/-- **Expanding the deepest layer makes the next one pending.** -/
theorem Grown.ready {events : List (Event σ Extended)} {layer : Layer σ Extended}
    {above : List (Layer σ Extended)} {done : List Nat} {x : Expansion σ κ Extended}
    (hi : r.branching (r.freeAt above.length) [] ≠ none) (h : Grown r cache events d)
    (hd : d.layers = layer :: above) (hx : Expanded r above.length layer session done x)
    (hdone : ∀ j, j ∈ done ↔ ∃ n, layer[j]? = some n ∧ n.fate = .alive) :
    Ready r cache events { d with layers := x.layer :: above, pending := x.pending } := by
  have hcore := hx.core_eq
  have hlevel : ∀ {i l'}, level (x.layer :: above) i = some l' →
      (i = above.length ∧ x.layer = l' ∧ level d.layers i = some layer) ∨
      (i < above.length ∧ level d.layers i = some l') := by
    intro i l' hl
    rw [hd]
    rcases level_cons_cases hl with ⟨rfl, heq⟩ | ⟨hi, hl⟩
    · exact .inl ⟨rfl, heq, level_length _ _⟩
    · exact .inr ⟨hi, level_cons_of_some hl⟩
  have hlen : d.layers.length = above.length + 1 := by rw [hd, List.length_cons]
  have hlen' : (x.layer :: above).length = above.length + 1 := List.length_cons
  refine ⟨⟨h.path, h.unlisted, h.woven.congr (by rw [hd]; simp [hcore]), fun i l' hl hlt => ?_,
    fun i l' hl => ?_, fun i l' hl hle => ?_, fun l hl => ?_⟩, fun i l' hl _ => ?_,
    fun i hlt => ?_, ?_⟩
  · change i + 1 < (x.layer :: above).length at hlt
    rcases hlevel hl with ⟨rfl, _⟩ | ⟨_, hl⟩
    · omega
    · exact h.bounded i l' hl (by omega)
  · rcases hlevel hl with ⟨rfl, rfl, hlayer⟩ | ⟨_, hl⟩
    · intro n' hn'
      obtain ⟨n, hn, _, hblank, _⟩ := hx.exists_old hdone hn'
      exact hblank (h.blank _ _ hlayer n hn)
    · exact h.blank i l' hl
  · rcases hlevel hl with ⟨rfl, rfl, hlayer⟩ | ⟨_, hl⟩
    · intro n' hn'
      obtain ⟨n, hn, hnode, _⟩ := hx.exists_old hdone hn'
      rw [← Node.merged_eq (Node.stem_eq_of_core_eq hnode), ← Node.fate_eq hnode]
      exact h.intact _ _ hlayer hle n hn
    · exact h.intact i l' hl hle
  · have hred := h.reduced l hl
    rw [hlen] at hred
    change l + 1 < (x.layer :: above).length ∧ _
    rw [hlen']
    exact hred
  · rcases hlevel hl with ⟨rfl, rfl, _⟩ | ⟨hi, hl⟩
    · intro n' hn'
      obtain ⟨_, _, _, _, hbound⟩ := hx.exists_old hdone hn'
      exact hbound
    · exact h.bounded i l' hl (by omega)
  · change i < (x.layer :: above).length at hlt
    rcases Nat.lt_or_ge i above.length with hlt' | hge
    · exact h.branches i (by omega)
    · obtain rfl : i = above.length := by omega
      exact hi
  · refine ⟨x.layer, above, _, rfl, hx.reached.congr hcore, fun j p' hp' halive hexp e he => ?_⟩
    obtain ⟨p, hp, hnode⟩ := Layer.getElem?_of_map_eq hcore.symm hp'
    have hstem := Node.stem_eq_of_core_eq hnode
    refine ⟨(hdone j).2 ⟨p, hp, ?_⟩, p, hp, ?_, ?_⟩
    · rw [← Node.fate_eq hnode]
      simpa [Node.isAlive] using halive
    · unfold Request.Expands at hexp ⊢
      rwa [← Node.state_eq hstem, ← Node.longest_eq hstem]
    · rw [← Node.state_eq hstem]
      exact he

/-! ### The whole diagram -/

variable [BEq κ]

section Complete

variable {bound : Extended} {f : Fitted σ κ Extended}

/-- The layer of the kept nodes is expanded without a fault. -/
theorem Completed.expanded (hr : r.Tame) {i : Nat} (hf : Completed audit r session i bound f)
    {v : { v : Nat // v ∈ r.freeAt i }} (hv : r.branching (r.freeAt i) [] = some v) :
    Expanded r i f.layer (f.reported i) f.kept.reverse (f.expansion r (r.freeAt i) i v) := by
  rw [← List.append_nil f.kept.reverse]
  refine foldl_expand hr.isPure hv f.kept [] ⟨rfl, .refl _, fun j => ?_, ?_⟩ fun j hj => ?_
  · simp
  · exact ⟨fun n hn => by simp at hn, fun n hn => by simp at hn,
      fun j p d _ ht => absurd ht.1 List.not_mem_nil⟩
  · obtain ⟨n, hn, hfate⟩ := (hf.settled.kept j).1 hj
    refine ⟨n, hn, (hf.settled.placed n (Array.mem_of_getElem? hn)).depth, ?_⟩
    simp [Node.isAlive, hfate]

omit [Hashable σ] in
/-- The pending layer of a diagram that is ready is completed. -/
theorem Ready.completed (haudit : audit.Discreet)
    (h : Ready r session.cache session.events d) :
    Completed audit r session d.layers.length posInf (settleLayer audit r session d) ∧
    Grown r session.cache (settleLayer audit r session d).session.events
      (d.completed (settleLayer audit r session d)) ∧
    Retains audit r d.layers.length (select r session false d.pending).layer
      (settleLayer audit r session d) := by
  obtain ⟨parents, rest, taken, hd, hreached, htaken⟩ := h.reached
  have hl : level d.layers rest.length = some parents := by rw [hd, level_cons, if_pos rfl]
  have hup : upward d.layers rest.length = parents :: rest := by rw [hd, upward_length]
  obtain ⟨hf, hlinked, hreduces, hretains⟩ := settleLayer_completed session haudit hd rfl
    hreached htaken
    (fun hp j p hj => by
      rw [← hup, h.path]
      exact h.woven.freeAfter_climb hp hl hj)
    (fun j p hp hex => by
      rw [← hup]
      exact h.woven.traced hl hp hex)
  have hlen : d.layers.length = rest.length + 1 := by rw [hd, List.length_cons]
  exact ⟨hlen ▸ hf, h.grown hd hf hlinked hreduces, hlen ▸ hretains⟩

end Complete

/-! ### Round after round -/

/-- What is known right before a round. -/
structure Poised (r : Request σ κ Extended) (start session : Session σ κ Extended)
    (free : Variables) (d : Diagram σ Extended) : Prop where
  free : free = r.freeAt d.layers.length
  evolves : start.Evolves r.dominance r.Attains session
  cache : session.cache = start.cache
  ready : d = Diagram.rooted r.residual ∨ Ready r start.cache session.events d

/-- A compilation that has unrolled its diagram. -/
structure Unrolls (r : Request σ κ Extended) (session : Session σ κ Extended)
    (u : Unrolled σ κ Extended) : Prop where
  evolves : session.Evolves r.dominance r.Attains u.session
  cache : u.session.cache = session.cache
  grown : Grown r session.cache u.session.events u.diagram
  ended : Ended r u.diagram

section Rounds

variable {start : Session σ κ Extended} {free : Variables} {f : Fitted σ κ Extended}

omit [Hashable σ] in
/-- The pending layer is completed, be it the root or a layer below another one. -/
theorem Poised.completed (haudit : audit.Discreet)
    (h : Poised r start session free d) (hf : settleLayer audit r session d = f) :
    (∃ bound, Completed audit r session d.layers.length bound f) ∧
      Grown r start.cache f.session.events (d.completed f) ∧
      Retains audit r d.layers.length (select r session d.layers.isEmpty d.pending).layer f := by
  subst hf
  rcases h.ready with rfl | hready
  · obtain ⟨hf, hroot, hreduced, hrepresents⟩ := settleLayer_root audit r session
    exact ⟨⟨_, hf⟩, h.cache ▸ grown_root hf hroot hreduced, .of_represents hrepresents⟩
  · rw [← h.cache] at hready ⊢
    obtain ⟨hf, hgrown, hretains⟩ := hready.completed haudit
    obtain ⟨_, _, _, hd, _⟩ := hready.reached
    refine ⟨⟨_, hf⟩, hgrown, ?_⟩
    rw [hd, List.isEmpty_cons, ← hd]
    exact hretains

/-- **One round leads from one moment to the next.** -/
theorem Poised.next (hr : r.Tame) (haudit : audit.Discreet)
    (h : Poised r start session free d) (hf : settleLayer audit r session d = f)
    {v : { v : Nat // v ∈ free }} {x : Expansion σ κ Extended}
    (hv : r.branching free (d.pending.toList.map (·.state)) = some v)
    (hx : f.expansion r free d.layers.length v = x) :
    Poised r start x.session (free.erase v) (d.expanded f x) := by
  obtain ⟨⟨bound, hcompleted⟩, hgrown, _⟩ := h.completed haudit hf
  obtain rfl := h.free
  rw [hr.static.apply_eq] at hv
  have hexpanded := hcompleted.expanded hr hv
  rw [hx] at hexpanded
  have hquiet : f.session.Quiet x.session := (Session.quiet_note _).trans hexpanded.quiet
  refine ⟨(Request.freeAt_succ hv).symm, ?_,
    hquiet.cache.trans (hcompleted.cache.trans h.cache), ?_⟩
  · exact (h.evolves.trans hcompleted.evolves).calm hquiet.toCalm
  · refine .inr (Ready.mono ?_ fun e he => hquiet.mem_events he)
    refine hgrown.ready (by rw [hv]; exact nofun) rfl hexpanded fun j => ?_
    rw [List.mem_reverse]
    exact hcompleted.settled.kept j

/-- **Every round is reached in this way.** -/
theorem Rounds.poised (hr : r.Tame) (haudit : audit.Discreet)
    (h : Rounds audit r start session free d) : Poised r start session free d := by
  induction h with
  | root => exact ⟨rfl, .refl, rfl, .inl rfl⟩
  | next _ hf _ _ hv hx _ ih => exact ih.next hr haudit hf hv hx

omit [Hashable σ] in
/-- A diagram ends where no variable is picked or no node is kept. -/
theorem LastRound.unrolls (hr : r.Tame) (haudit : audit.Discreet)
    (h : Poised r start session free d) {u : Unrolled σ κ Extended}
    (hlast : LastRound audit r session free d u) : Unrolls r start u := by
  obtain ⟨⟨bound, hf⟩, hgrown, _⟩ := h.completed haudit rfl
  obtain ⟨_, hdone, rfl⟩ := hlast
  rw [h.free, hr.static.apply_eq] at hdone
  generalize settleLayer audit r session d = f at hf hgrown hdone ⊢
  have hquiet : f.session.Quiet (f.reported d.layers.length) := Session.quiet_note _
  refine ⟨(h.evolves.trans hf.evolves).calm hquiet.toCalm,
    hquiet.cache.trans (hf.cache.trans h.cache), hgrown.mono fun e he => hquiet.mem_events he,
    fun i layer hl hi => ?_⟩
  change level (f.layer :: d.layers) i = some layer at hl
  change i + 1 = (f.layer :: d.layers).length at hi
  obtain rfl : i = d.layers.length := by simpa using hi
  rw [level_cons, if_pos rfl] at hl
  obtain rfl := Option.some.inj hl
  rcases hdone with hkept | hnone
  · refine .inr fun n hn => Bool.eq_false_iff.2 fun halive => ?_
    obtain ⟨j, hj⟩ := Array.mem_iff_getElem?.1 hn
    have hmem := (hf.settled.kept j).2 ⟨n, hj, by simpa [Node.isAlive] using halive⟩
    rw [hkept] at hmem
    exact absurd hmem List.not_mem_nil
  · exact .inl hnone

end Rounds

/-- **What an unrolling without a fault brings about.** -/
theorem Request.unroll_unrolls (hr : r.Tame) (haudit : audit.Discreet)
    (session : Session σ κ Extended) (hok : (r.unroll audit session).fault = none) :
    Unrolls r session (r.unroll audit session) := by
  obtain ⟨_, _, _, hrounds, hlast⟩ := r.unroll_lastRound hok
  exact hlast.unrolls hr haudit (hrounds.poised hr haudit)

/-- **With a lenient audit an unrolling meets no fault**, if merges are sound. -/
theorem Request.fault_unroll (hr : r.Tame) (hregular : r.kind = .relaxed → r.Regular)
    (haudit : audit.Discreet) (hlenient : audit.Lenient r) (session : Session σ κ Extended) :
    (r.unroll audit session).fault = none := by
  refine unroll_fault_eq_none _ Rounds.root le_rfl fun session' free' d' hrounds => ?_
  have hpoised := hrounds.poised hr haudit
  obtain ⟨⟨bound, hf⟩, _⟩ := hpoised.completed haudit rfl
  refine ⟨hf.fault hregular hlenient, fun v hv => ?_⟩
  obtain rfl := hpoised.free
  rw [hr.static.apply_eq] at hv
  exact (hf.expanded hr hv).fault

end DiagramSearch

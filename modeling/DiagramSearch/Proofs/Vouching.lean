/-
# What an exact diagram vouches for

A diagram says of itself that it is exact if no layer was reduced, if its best path
avoids what was merged, or if nothing is left in its deepest layer.  In each case its
best value is the optimum of the sub-problem it was compiled for, provided that the
optimum beats the value to beat.

Dominance is held to little here: a state that is dominated is worth no more than the
one that dominates it (`Dominance.ValueSound`).  That is enough because the table is
empty at the depth of a layer until the layer is selected, so the entry that rules a
node out stands for another node of the same layer, one that is kept (`Backed`).

* `sift_represents`, `select_represents`: **selecting a layer loses nothing**;
* `Rounds.promising`: what beats the value to beat is still within reach after any
  number of rounds, unless a restriction dropped nodes;
* `Request.compile_vouches`: **an exact diagram tells the truth.**
-/

import DiagramSearch.Proofs.Intercepting

namespace DiagramSearch

open Extended Diagram

variable {σ κ : Type} {r : Request σ κ Extended} {i depth : Nat}

/-- A state that is dominated is worth no more than the state that dominates it. -/
def Dominance.ValueSound (rel : Dominance σ κ) (p : Problem σ Extended) (b : Branching σ) : Prop :=
  ∀ a c key, rel.key a = some key → rel.key c = some key → rel.le a c = true →
    ∀ free, p.optimum b free a ≤ p.optimum b free c

/-! ### Selecting a layer -/

theorem Represents.trans {layer now later : Layer σ Extended} (h : Represents r i layer now)
    (h' : Represents r i now later) : Represents r i layer later := by
  intro n hn ha
  obtain ⟨m, hm, ha', hle⟩ := h n hn ha
  obtain ⟨z, hz, hz', hle'⟩ := h' m hm ha'
  exact ⟨z, hz, hz', hle.trans hle'⟩

section Table

variable [BEq κ] {s s' : Session σ κ Extended}

/-- A table that holds nothing from a depth on. -/
def Dominance.Table.VacantFrom (t : Dominance.Table σ κ Extended) (depth : Nat) : Prop :=
  ∀ k, depth ≤ k → ∀ key, t.entries k key = []

theorem Dominance.Table.VacantFrom.mono {t : Dominance.Table σ κ Extended} {k : Nat}
    (h : t.VacantFrom depth) (hle : depth ≤ k) : t.VacantFrom k :=
  fun j hj key => h j (hle.trans hj) key

/-- Asking about what lies above a depth leaves nothing below it. -/
theorem Session.Evolves.vacantFrom [BEq σ] [LawfulBEq κ] {rel : Option (Dominance σ κ)}
    (h : s.Evolves rel (fun _ k _ => k < depth) s') (hs : s.table.VacantFrom depth) :
    s'.table.VacantFrom depth :=
  fun j hj key => (h.entries_eq (fun _ _ => Nat.not_lt.2 hj) key).trans (hs j hj key)

end Table

section Select

variable [BEq σ] [BEq κ] [LawfulBEq κ] {rel : Dominance σ κ} {c : Candidate σ Extended}
  {cs : List (Candidate σ Extended)} {layer : Layer σ Extended} {n : Node σ Extended}
  {table : Dominance.Table σ κ Extended}

/-- The entries of the table at a depth stand for nodes of a layer that are alive and
that no candidate names any more. -/
def Backed (rel : Dominance σ κ) (depth : Nat) (cs : List (Candidate σ Extended))
    (layer : Layer σ Extended) (table : Dominance.Table σ κ Extended) : Prop :=
  ∀ key, ∀ e ∈ table.entries depth key, rel.key e.state = some key ∧
    ∃ j n, layer[j]? = some n ∧ n.isAlive = true ∧ n.state = e.state ∧ n.longest = e.value ∧
      j ∉ cs.map (·.position)

omit [BEq σ] [LawfulBEq κ] in
/-- A candidate that is not asked about is no longer a candidate. -/
theorem Backed.tail (h : Backed rel depth (c :: cs) layer table) :
    Backed rel depth cs layer table := by
  intro key e he
  obtain ⟨hkey, j, n, hj, ha, hstate, hvalue, hnot⟩ := h key e he
  exact ⟨hkey, j, n, hj, ha, hstate, hvalue, fun hmem => hnot (List.mem_cons_of_mem _ hmem)⟩

/-- A candidate that passes its check stands for the entry that it adds. -/
theorem Backed.keep (h : Backed rel depth (c :: cs) layer table)
    (hn : layer[c.position]? = some n) (ha : n.isAlive = true)
    (hc : c.position ∉ cs.map (·.position)) :
    Backed rel depth cs layer (table.check rel n.state depth n.longest).2 := by
  intro key e he
  rcases Dominance.Table.mem_entries_check he with he | ⟨_, hkey, rfl⟩
  · exact h.tail key e he
  · exact ⟨hkey, c.position, n, hn, ha, rfl, rfl, hc⟩

omit [LawfulBEq κ] in
/-- A check that finds a pair to be dominated leaves the table alone. -/
theorem Dominance.Table.check_snd_of_some {t : Dominance.Table σ κ Extended} {state : σ}
    {value v : Extended} (h : (t.check rel state depth value).1 = some v) :
    (t.check rel state depth value).2 = t := by
  unfold Table.check at h ⊢
  split at h
  · rfl
  · dsimp only at h ⊢
    split at h
    · rfl
    · cases h

omit [LawfulBEq κ] in
/-- **The node that rules a candidate out is worth as much as the candidate.** -/
theorem Backed.represents_drop {t : Extended} (h : Backed rel depth (c :: cs) layer table)
    (hsound : rel.ValueSound r.model.problem r.branching) (hn : layer[c.position]? = some n)
    (hcheck : (table.check rel n.state depth n.longest).1 = some t) :
    Represents r i layer (layer.modify c.position fun n =>
      { n with fate := .dominated, threshold := some t }) := by
  -- Any other node stays as it is.
  have hother : ∀ (j : Nat) m, layer[j]? = some m → c.position ≠ j →
      m ∈ layer.modify c.position fun n => { n with fate := .dominated, threshold := some t } := by
    intro j m hj hne
    refine Array.mem_of_getElem? (i := j) ?_
    rw [Array.getElem?_modify, if_neg hne, hj]
  intro m hm ha
  obtain ⟨j, hj⟩ := Array.mem_iff_getElem?.1 hm
  by_cases hjc : c.position = j
  · subst hjc
    obtain rfl := Option.some.inj (hn.symm.trans hj)
    obtain ⟨key, hkey, e, he, hcovers, _⟩ := Dominance.Table.check_eq_some hcheck
    obtain ⟨hekey, k, z, hk, hz, hstate, hvalue, hnot⟩ := h key e he
    rw [Dominance.Entry.covers, Bool.and_eq_true, Bool.and_eq_true, decide_eq_true_eq] at hcovers
    have hne : c.position ≠ k := fun heq => hnot (heq ▸ List.mem_cons_self)
    refine ⟨z, hother k z hk hne, hz, ?_⟩
    rw [hstate, hvalue]
    exact add_le_add hcovers.1.1 (hsound n.state e.state key hkey hekey hcovers.1.2 _)
  · exact ⟨m, hother j m hj hjc, ha, le_rfl⟩

omit [BEq σ] [LawfulBEq κ] in
/-- What becomes of a candidate does not matter to the entries. -/
theorem Backed.drop (h : Backed rel depth (c :: cs) layer table)
    (f : Node σ Extended → Node σ Extended) :
    Backed rel depth cs (layer.modify c.position f) table := by
  intro key e he
  obtain ⟨hkey, j, n, hj, ha, hstate, hvalue, hnot⟩ := h key e he
  have hne : c.position ≠ j := fun heq => hnot (heq ▸ List.mem_cons_self)
  refine ⟨hkey, j, n, ?_, ha, hstate, hvalue, fun hmem => hnot (List.mem_cons_of_mem _ hmem)⟩
  rw [Array.getElem?_modify, if_neg hne, hj]

/-- **Asking the table about the candidates loses nothing.** -/
theorem sift_represents (hsound : rel.ValueSound r.model.problem r.branching)
    (cs : List (Candidate σ Extended)) (layer : Layer σ Extended) (session : Session σ κ Extended)
    (hnodup : (cs.map (·.position)).Nodup)
    (hvalid : ∀ c ∈ cs, ∃ n, layer[c.position]? = some n ∧ n.isAlive = true ∧ n.depth = depth)
    (hbacked : Backed rel depth cs layer session.table) :
    Represents r i layer (sift (some rel) cs layer session).layer := by
  induction cs generalizing layer session with
  | nil => exact .refl r i layer
  | cons c cs ih =>
    obtain ⟨n, hn, halive, hdepth⟩ := hvalid c List.mem_cons_self
    have hvalid' : ∀ c ∈ cs, ∃ n, layer[c.position]? = some n ∧ n.isAlive = true ∧
        n.depth = depth := fun c' hc' => hvalid c' (List.mem_cons_of_mem c hc')
    rw [List.map_cons, List.nodup_cons] at hnodup
    unfold sift
    simp only [hn]
    by_cases hex : n.exact = true
    · rw [if_pos hex, hdepth]
      split
      · -- The candidate is set aside, and the table stays as it is.
        rename_i t session' hcheck
        have hverdict : (session.table.check rel n.state depth n.longest).1 = some t :=
          congrArg Prod.fst hcheck
        have htable : session'.table = session.table := by
          have hafter := congrArg (fun out => out.2.table) hcheck
          exact hafter.symm.trans (Dominance.Table.check_snd_of_some hverdict)
        refine (hbacked.represents_drop hsound hn hverdict).trans (ih _ _ hnodup.2 ?_ ?_)
        · intro c' hc'
          have hne : c.position ≠ c'.position := fun h => hnodup.1 (h ▸ List.mem_map_of_mem hc')
          rw [Array.getElem?_modify, if_neg hne]
          exact hvalid' c' hc'
        · rw [htable]
          exact hbacked.drop _
      · rename_i session' hcheck
        have hafter := congrArg (fun out => out.2.table) hcheck
        refine ih _ _ hnodup.2 hvalid' ?_
        rw [← show _ = session'.table from hafter]
        exact hbacked.keep hn halive hnodup.1
    · rw [if_neg hex]
      exact ih _ _ hnodup.2 hvalid' hbacked.tail

omit [LawfulBEq κ] in
/-- Without a relation every candidate is kept. -/
theorem sift_none_layer (cs : List (Candidate σ Extended)) (layer : Layer σ Extended)
    (session : Session σ κ Extended) : (sift none cs layer session).layer = layer := by
  induction cs generalizing session with
  | nil => rfl
  | cons c cs ih =>
    unfold sift
    split
    · split
      · exact ih _
      · exact ih _
    · exact ih _

/-- **Selecting a layer loses nothing** if the cache holds nothing and the table holds
nothing yet at the depth of the layer. -/
theorem select_represents {session : Session σ κ Extended} {pending : Layer σ Extended}
    (isRoot : Bool)
    (hsound : ∀ rel, r.dominance = some rel → rel.ValueSound r.model.problem r.branching ∧
      session.table.VacantFrom depth)
    (hcache : ∀ state k, session.cache.get? state k = none)
    (hdepth : ∀ n ∈ pending, n.depth = depth) :
    Represents r i pending (select r session isRoot pending).layer := by
  have hscreen : pending.screened session.cache isRoot = pending := by
    unfold Layer.screened
    split
    · rfl
    · have hid : (fun n : Node σ Extended => n.screen session.cache) = id := by
        funext n
        rw [Node.screen, hcache]
        rfl
      rw [hid, Array.map_id]
  rw [select_eq, hscreen]
  have hlists : Lists pending (Reduction.sortByCost r.ranking pending.candidates) :=
    (Layer.lists_candidates pending).perm (Ordered.sort_perm _ _)
  cases hrel : r.dominance with
  | none =>
    rw [sift_none_layer]
    exact .refl r i pending
  | some rel =>
    obtain ⟨hvalue, hvacant⟩ := hsound rel hrel
    have hbacked : Backed rel depth (Reduction.sortByCost r.ranking pending.candidates) pending
        session.table := by
      intro key e he
      rw [hvacant depth le_rfl key] at he
      cases he
    refine sift_represents hvalue _ _ _ hlists.nodup (fun c hc => ?_) hbacked
    obtain ⟨n, hn, hfate, _⟩ := hlists.sound c hc
    refine ⟨n, hn, ?_, hdepth n (Array.mem_of_getElem? hn)⟩
    simp [Node.isAlive, hfate]

end Select

/-! ### Round after round -/

/-- A target that is still within reach: a pending node reaches it, unless a
restriction dropped nodes.  The dominance table holds nothing yet at the depth of the
pending layer. -/
structure Promising [BEq κ] (r : Request σ κ Extended) (target : Extended)
    (session : Session σ κ Extended) (d : Diagram σ Extended) : Prop where
  vacant : r.dominance ≠ none → session.table.VacantFrom (r.residual.depth + d.layers.length)
  carried : r.kind = .restricted ∧ d.lastExact ≠ none ∨ ∃ n ∈ d.pending, n.isAlive = true ∧
    target ≤ n.longest + r.optimumAt d.layers.length n.state

section Rounds

variable [BEq σ] [LawfulBEq σ] [Hashable σ] [BEq κ] [LawfulBEq κ] {audit : Audit σ κ Extended}
  {start session : Session σ κ Extended} {free : Variables} {d : Diagram σ Extended}
  {target : Extended}

/-- Rounds that lose nothing but what a restriction drops, as long as the audit finds no
fault. -/
def Audit.Conserves (audit : Audit σ κ Extended) (r : Request σ κ Extended)
    (start : Session σ κ Extended) : Prop :=
  ∀ session free d, Rounds audit r start session free d →
    (settleLayer audit r session d).fault = none →
      r.kind = .restricted ∧ (settleLayer audit r session d).reduced = true ∨
        Represents r d.layers.length (select r session d.layers.isEmpty d.pending).layer
          (settleLayer audit r session d).layer

omit [LawfulBEq κ] in
/-- Sound merges lose nothing. -/
theorem Request.Tame.conserves (hr : r.Tame) (hregular : r.kind = .relaxed → r.Regular)
    (haudit : audit.Discreet) (start : Session σ κ Extended) : audit.Conserves r start :=
  fun _ _ _ hrounds _ =>
    ((hrounds.poised hr haudit).completed haudit rfl).2.2.represents hregular

omit [LawfulBEq σ] [Hashable σ] [LawfulBEq κ] in
/-- The nodes of the pending layer are as deep as there are layers above them. -/
theorem Poised.depth_pending (h : Poised r start session free d) {n : Node σ Extended}
    (hn : n ∈ d.pending) : n.depth = r.residual.depth + d.layers.length := by
  rcases h.ready with rfl | hready
  · rw [List.mem_singleton.1 (Array.mem_def.1 hn)]
    rfl
  · obtain ⟨parents, rest, _, hd, hreached, _⟩ := hready.reached
    rw [(hreached.joined n hn).depth, hd, List.length_cons]

/-- Completing the pending layer keeps the target within reach. -/
theorem Promising.completed (hr : r.Tame) (haudit : audit.Discreet)
    (hconserves : audit.Conserves r start)
    (hsound : ∀ rel, r.dominance = some rel → rel.ValueSound r.model.problem r.branching)
    (hcache : ∀ state k, start.cache.get? state k = none)
    (hrounds : Rounds audit r start session free d) (h : Promising r target session d)
    (hfault : (settleLayer audit r session d).fault = none) :
    (r.dominance ≠ none → (settleLayer audit r session d).session.table.VacantFrom
      (r.residual.depth + d.layers.length + 1)) ∧
    (r.kind = .restricted ∧ d.lastExactAfter (settleLayer audit r session d).reduced ≠ none ∨
      ∃ n ∈ (settleLayer audit r session d).layer, n.isAlive = true ∧
        target ≤ n.longest + r.optimumAt d.layers.length n.state) := by
  have hpoised := hrounds.poised hr haudit
  have hrepresents := hconserves session free d hrounds hfault
  rw [← hpoised.cache] at hcache
  have hselect : Selected r (fun _ k _ => k < r.residual.depth + d.layers.length + 1) session
      d.layers.isEmpty d.pending (select r session d.layers.isEmpty d.pending) :=
    select_selected r session d.layers.isEmpty d.pending fun n hn _ => by
      rw [hpoised.depth_pending hn]
      omega
  constructor
  · intro hne
    have hquiet := quiet_fit haudit r d.path d.layers
      (select r session d.layers.isEmpty d.pending)
    have htable : (settleLayer audit r session d).session.table =
        (select r session d.layers.isEmpty d.pending).session.table := hquiet.table
    rw [htable]
    exact hselect.evolves.vacantFrom ((h.vacant hne).mono (Nat.le_succ _))
  · rcases h.carried with ⟨hkind, hlast⟩ | ⟨n, hn, ha, hreach⟩
    · exact .inl ⟨hkind, fun hnone => hlast (lastExactAfter_eq_none_iff.1 hnone).1⟩
    · rcases hrepresents with ⟨hkind, hreduced⟩ | hrepresents
      · refine .inl ⟨hkind, fun hnone => ?_⟩
        cases hreduced.symm.trans (lastExactAfter_eq_none_iff.1 hnone).2
      · have hkept := select_represents (i := d.layers.length) d.layers.isEmpty
          (fun rel hrel => ⟨hsound rel hrel, h.vacant (by rw [hrel]; exact nofun)⟩) hcache
          fun n hn => hpoised.depth_pending hn
        obtain ⟨m, hm, ha', hle⟩ := hkept.trans hrepresents n hn ha
        exact .inr ⟨m, hm, ha', hreach.trans hle⟩

/-- **Expanding the completed layer keeps the target within reach**, if what reaches it
is worth expanding. -/
theorem Promising.next (hr : r.Tame) (haudit : audit.Discreet)
    (hconserves : audit.Conserves r start)
    (hsound : ∀ rel, r.dominance = some rel → rel.ValueSound r.model.problem r.branching)
    (hcache : ∀ state k, start.cache.get? state k = none) (hne : target ≠ negInf)
    (hexpands : ∀ i n, target ≤ n.longest + r.optimumAt i n.state → r.Expands i n)
    (hrounds : Rounds audit r start session free d) (h : Promising r target session d)
    {f : Fitted σ κ Extended} (hf : settleLayer audit r session d = f) (hfault : f.fault = none)
    {v : { v : Nat // v ∈ free }} {x : Expansion σ κ Extended}
    (hv : r.branching free (d.pending.toList.map (·.state)) = some v)
    (hx : f.expansion r free d.layers.length v = x) :
    Promising r target x.session (d.expanded f x) := by
  have hpoised := hrounds.poised hr haudit
  obtain ⟨⟨bound, hcompleted⟩, _⟩ := hpoised.completed haudit hf
  subst hf
  obtain ⟨hvacant, hcarried⟩ := h.completed hr haudit hconserves hsound hcache hrounds hfault
  generalize settleLayer audit r session d = f at *
  obtain rfl := hpoised.free
  rw [hr.static.apply_eq] at hv
  have hexpanded := hcompleted.expanded hr hv
  rw [hx] at hexpanded
  have hquiet : f.session.Quiet x.session := (Session.quiet_note _).trans hexpanded.quiet
  refine ⟨fun hne => ?_, ?_⟩
  · rw [hquiet.table]
    exact hvacant hne
  · rcases hcarried with hdropped | ⟨p, hp, ha, hreach⟩
    · exact .inl hdropped
    · right
      obtain ⟨j, hj⟩ := Array.mem_iff_getElem?.1 hp
      have hexp : r.Expands d.layers.length p := hexpands _ p hreach
      obtain ⟨dec, hdec, hstep⟩ :=
        Request.exists_branches_reach hne hreach (by rw [hv]; exact nofun)
      have hdone : j ∈ f.kept.reverse := by
        rw [List.mem_reverse]
        exact (hcompleted.settled.kept j).2 ⟨p, hj, by simpa [Node.isAlive] using ha⟩
      obtain ⟨n, hn, hstate, hedge⟩ := hexpanded.reached.reached j p dec hj
        ⟨hdone, p, hj, hexp, hdec⟩
      obtain ⟨p', hp', hfrom⟩ := (hexpanded.reached.joined n hn).edge _ hedge
      obtain rfl := Option.some.inj (hj.symm.trans hp')
      refine ⟨n, hn, ?_, ?_⟩
      · simp [Node.isAlive, (hexpanded.reached.fresh n hn).fate]
      · rw [hstate]
        exact hstep.trans (add_le_add_left hfrom.le_longest _)

/-- **What is worth expanding stays within reach, round after round.** -/
theorem Rounds.promising (hr : r.Tame) (haudit : audit.Discreet)
    (hconserves : audit.Conserves r start)
    (hsound : ∀ rel, r.dominance = some rel → rel.ValueSound r.model.problem r.branching ∧
      start.table.VacantFrom r.residual.depth)
    (hcache : ∀ state k, start.cache.get? state k = none) (hne : r.optimal ≠ negInf)
    (hexpands : ∀ i n, r.optimal ≤ n.longest + r.optimumAt i n.state → r.Expands i n)
    (h : Rounds audit r start session free d) : Promising r r.optimal session d := by
  induction h with
  | root =>
    refine ⟨fun hne => ?_, .inr ⟨_, Array.mem_singleton.2 rfl, rfl, le_rfl⟩⟩
    obtain ⟨rel, hrel⟩ := Option.ne_none_iff_exists'.1 hne
    exact (hsound rel hrel).2
  | next hrounds hf hfault _ hv hx _ ih =>
    exact ih.next hr haudit hconserves (fun rel hrel => (hsound rel hrel).1) hcache hne hexpands
      hrounds hf hfault hv hx

/-- **A diagram that is unrolled to the end reaches the optimum**, unless a restriction
dropped nodes. -/
theorem LastRound.attained (hr : r.Tame) (haudit : audit.Discreet)
    (hconserves : audit.Conserves r start)
    (hsound : ∀ rel, r.dominance = some rel → rel.ValueSound r.model.problem r.branching)
    (hcache : ∀ state k, start.cache.get? state k = none)
    (hrounds : Rounds audit r start session free d) (h : Promising r target session d)
    {u : Unrolled σ κ Extended} (hlast : LastRound audit r session free d u) :
    r.kind = .restricted ∧ u.diagram.lastExact ≠ none ∨
      Attained u.diagram.layers target fun _ => True := by
  have hpoised := hrounds.poised hr haudit
  obtain ⟨_, hcarried⟩ := h.completed hr haudit hconserves hsound hcache hrounds hlast.fault
  obtain ⟨⟨bound, hcompleted⟩, _⟩ := hpoised.completed haudit rfl
  obtain ⟨_, hdone, rfl⟩ := hlast
  generalize settleLayer audit r session d = f at hcarried hcompleted hdone ⊢
  refine hcarried.imp_right ?_
  rintro ⟨n, hn, ha, hreach⟩
  have hnone : r.branching (r.freeAt d.layers.length) [] = none := by
    rcases hdone with hkept | hnone
    · obtain ⟨j, hj⟩ := Array.mem_iff_getElem?.1 hn
      have hmem := (hcompleted.settled.kept j).2 ⟨n, hj, by simpa [Node.isAlive] using ha⟩
      rw [hkept] at hmem
      cases hmem
    · rwa [hpoised.free, hr.static.apply_eq] at hnone
  rw [Request.optimumAt_of_none hnone, add_zero] at hreach
  exact ⟨f.layer, n, level_length f.layer d.layers, hn, ha, trivial, hreach⟩

end Rounds

/-! ### Exact diagrams -/

/-- A completion of a sub-problem: its path and further decisions, taken one after the
other from its state until no variable is picked, with the value they lead to. -/
def Request.Completion (r : Request σ κ Extended) (path : Path) (v : Extended) : Prop :=
  ∃ i ds s, path = r.residual.path ++ ds ∧ r.Traced i ds s v ∧ r.branching (r.freeAt i) [] = none

/-- No completion is worth more than the optimum. -/
theorem Request.Completion.le_optimal {path : Path} {v : Extended} (h : r.Completion path v) :
    v ≤ r.optimal := by
  obtain ⟨k, ds, s, _, htraced, hnone⟩ := h
  have hle := htraced.add_optimumAt_le
  rwa [Request.optimumAt_of_none hnone, add_zero] at hle

/-- The best value of a diagram that can be relied on is that of a completion. -/
theorem Evaluated.completion_best [BEq σ] {session : Session σ κ Extended}
    {c : Compiled σ κ Extended} (h : Evaluated r session c) (htrust : c.diagram.isExact = true)
    {v : Extended} (hv : c.diagram.bestValue = some v) :
    ∃ path, c.diagram.bestSolution = some path ∧ r.Completion path v := by
  obtain ⟨k, ds, s, hpath, htraced, hnone⟩ := h.traced_best (.inr htrust) hv
  exact ⟨_, hpath, k, ds, s, rfl, htraced, hnone⟩

/-- What a diagram reaches does not depend on its evaluation. -/
theorem Diagram.SameShape.attained {d d' : Diagram σ Extended} {target : Extended}
    (h : d.SameShape d') (ha : Attained d.layers target fun _ => True) :
    Attained d'.layers target fun _ => True := by
  obtain ⟨layer, n, hl, hn, halive, _, hle⟩ := ha
  obtain ⟨j, hj⟩ := Array.mem_iff_getElem?.1 hn
  obtain ⟨layer', n', hl', hn', hcore⟩ := node_of_map_eq h.1.symm hl hj
  rw [← length_of_map_eq h.1] at hl'
  refine ⟨layer', n', hl', Array.mem_of_getElem? hn', ?_, trivial, ?_⟩
  · rw [← Node.isAlive_eq hcore]
    exact halive
  · rw [← Node.longest_eq (Node.stem_eq_of_core_eq hcore)]
    exact hle

section Compile

variable [BEq σ] [LawfulBEq σ] [Hashable σ] [BEq κ] [LawfulBEq κ]
  {session : Session σ κ Extended} {report : Report Extended}

/-- **A diagram that loses nothing on the way to the optimum reaches it**, unless a
restriction dropped nodes. -/
theorem Request.compileWith_attained {audit : Audit σ κ Extended} (hr : r.Tame)
    (haudit : audit.Discreet) (hconserves : audit.Conserves r session)
    (hsound : ∀ rel, r.dominance = some rel → rel.ValueSound r.model.problem r.branching ∧
      session.table.VacantFrom r.residual.depth)
    (hcache : ∀ state depth, session.cache.get? state depth = none)
    (hne : r.optimal ≠ negInf)
    (hexpands : ∀ i n, r.optimal ≤ n.longest + r.optimumAt i n.state → r.Expands i n)
    (hok : (r.compileWith audit session).outcome = .ok report) :
    r.kind = .restricted ∧ (r.compileWith audit session).diagram.lastExact ≠ none ∨
      Attained (r.compileWith audit session).diagram.layers r.optimal fun _ => True := by
  obtain ⟨_, hshape⟩ := Request.compileWith_compiles hr haudit session hok
  obtain ⟨hfault, _⟩ := Request.compileWith_of_ok hok
  obtain ⟨_, _, _, hrounds, hlast⟩ := Request.unroll_lastRound hfault
  have hpromising := hrounds.promising hr haudit hconserves hsound hcache hne hexpands
  have hattained := hlast.attained hr haudit hconserves (fun rel hrel => (hsound rel hrel).1)
    hcache hrounds hpromising
  refine hattained.imp (fun hdropped => ⟨hdropped.1, ?_⟩) hshape.attained
  rw [show (r.compileWith audit session).diagram.lastExact = _ from hshape.2]
  exact hdropped.2

/-- So does one of a sound model, if the optimum beats what is to beat. -/
theorem Request.compile_attained (hr : r.Regular)
    (hsound : ∀ rel, r.dominance = some rel → rel.ValueSound r.model.problem r.branching ∧
      session.table.VacantFrom r.residual.depth)
    (hcache : ∀ state depth, session.cache.get? state depth = none)
    (hok : (r.compile session).outcome = .ok report) (hbeat : r.toBeat < r.optimal) :
    r.kind = .restricted ∧ (r.compile session).diagram.lastExact ≠ none ∨
      Attained (r.compile session).diagram.layers r.optimal fun _ => True :=
  Request.compileWith_attained hr.tame r.audit_discreet
    (hr.tame.conserves (fun _ => hr) r.audit_discreet session) hsound hcache
    (negInf_lt_iff.1 ((negInf_le _).trans_lt hbeat))
    (fun _ _ hreach => hbeat.trans_le (hreach.trans (add_le_add_right (hr.sound.admissible _ _) _)))
    hok

/-- **An exact diagram tells the truth**: its best value is the optimum if that beats
the value to beat, and the value of a completion in any case. -/
theorem Request.compile_vouches (r : Request σ κ Extended) (hr : r.Regular)
    (session : Session σ κ Extended)
    (hcache : ∀ state depth, session.cache.get? state depth = none)
    (hsound : ∀ rel, r.dominance = some rel → rel.ValueSound r.model.problem r.branching ∧
      ∀ depth key, session.table.entries depth key = []) :
    ((r.kind = .relaxed → r.checks = .extended → r.model.problem.Focused) →
      (r.checks.watches = true → r.kind ≠ .relaxed → r.Entered) →
      ∃ report, (r.compile session).outcome = .ok report) ∧
    ∀ report, (r.compile session).outcome = .ok report →
      (r.kind = .exact → report.isExact = true) ∧
      (report.isExact = true →
        (r.toBeat < r.optimal → report.bestValue = some r.optimal) ∧
        ∀ v, report.bestValue = some v → ∃ path,
          (r.compile session).diagram.bestSolution = some path ∧ r.Completion path v) := by
  refine ⟨fun hfocus hroot => Request.exists_compile_ok hr hfocus hroot session,
    fun report hok => ?_⟩
  obtain ⟨mid, _, _, h⟩ := Request.compile_compiles hr session hok
  obtain rfl := Except.ok.inj (hok.symm.trans h.outcome)
  refine ⟨h.exact, fun hexact => ⟨fun hbeat => ?_, fun v hv => h.completion_best hexact hv⟩⟩
  have hattained := Request.compile_attained hr
    (fun rel hrel => ⟨(hsound rel hrel).1, fun k _ key => (hsound rel hrel).2 k key⟩) hcache hok
    hbeat
  rcases hattained with ⟨hkind, hlast⟩ | hattained
  · -- A restriction that dropped nodes does not call itself exact.
    rcases h.whole hexact with hrelaxed | hnone
    · rw [hkind] at hrelaxed
      cases hrelaxed
    · exact absurd hnone hlast
  · obtain ⟨v, hv, hle⟩ := h.ranked.exists_bestValue hattained
    obtain ⟨path, _, hcompletion⟩ := h.completion_best hexact hv
    exact hv.trans (congrArg some (le_antisymm hcompletion.le_optimal hle))

end Compile

theorem Request.compile_vouches_twoPicks :
    ∃ path, ((twoPicksRequest .exact (some moreOnes)).compile .fresh).diagram.bestSolution =
        some path ∧
      (twoPicksRequest .exact (some moreOnes)).Completion path (finite 2) := by
  have hsound : ∀ rel, (twoPicksRequest .exact (some moreOnes)).dominance = some rel →
      rel.ValueSound (twoPicksRequest .exact (some moreOnes)).model.problem
        (twoPicksRequest .exact (some moreOnes)).branching ∧
      ∀ depth key, (Session.fresh : Session Nat Unit Extended).table.entries depth key = [] := by
    intro rel _
    exact ⟨fun a c _ _ _ _ free => (twoPicks_optimum .maximize _ free a c).le, fun _ _ => rfl⟩
  obtain ⟨hruns, hall⟩ := Request.compile_vouches (twoPicksRequest .exact (some moreOnes))
    (twoPicksRequest_regular _ _) .fresh (fun _ _ => rfl) hsound
  obtain ⟨report, hok⟩ := hruns (fun h => by cases h) fun _ _ _ => rfl
  obtain ⟨hexact, htruth⟩ := hall report hok
  obtain ⟨hbest, hsolution⟩ := htruth (hexact rfl)
  have hoptimal : (twoPicksRequest .exact (some moreOnes)).optimal = finite 2 := by decide +kernel
  rw [hoptimal] at hbest
  exact hsolution _ (hbest (by decide))

end DiagramSearch
